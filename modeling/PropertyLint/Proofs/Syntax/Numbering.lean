/-
# The nodes of a part and their identities

Every part of a syntax tree but identifiers, argument lists and blocks is a node with an identity.
The nodes in a part are the part itself, if it is a node, and the nodes in its parts
(`Part.nodes_perm`).  A parser takes identities from a counter, so nodes that it reads between two
values of the counter are numbered from the one to the other (`Numbered`), each with an identity of
its own.
-/
import Mathlib.Data.List.Perm.Basic
import PropertyLint.Proofs.Syntax.Part
import PropertyLint.Syntax.Nodes

namespace PropertyLint

/-! ## The nodes of a part -/

namespace Part

/-- The part as a node of the tree, if it is one. -/
def syntaxNode? : Part → Option SyntaxNode
  | type t => some (.type t)
  | argument a => some (.argument a)
  | expr e => some (.expr e)
  | stmt s => some (.stmt s)
  | attr a => some (.attr a)
  | parameter p => some (.parameter p)
  | accessor a => some (.accessor a)
  | member m => some (.member m)
  | ident _ | args _ | block _ => none

/-- The identity and the range of the part, if it is a node. -/
def node? (p : Part) : Option Node := p.syntaxNode?.map SyntaxNode.node

theorem range_of_node? {p : Part} {n : Node} (h : p.node? = some n) : p.range = n.range := by
  cases p <;> simp [node?, syntaxNode?] at h <;> exact congrArg Node.range h

theorem name?_of_node? {p : Part} {n : Node} (h : p.node? = some n) : p.name? = none := by
  cases p <;> first | rfl | simp [node?, syntaxNode?] at h

/-- All nodes in the part, with the part itself. -/
def nodes : Part → List SyntaxNode
  | ident _ => []
  | type t => t.nodes
  | argument a => nodesOfArgs [a]
  | args l => nodesOfArgs l.args
  | expr e => e.nodes
  | stmt s => s.nodes
  | block b => nodesOfStmts b.statements
  | attr a => a.nodes
  | parameter p => p.nodes
  | accessor a => a.nodes
  | member m => nodesOfMembers [m]

/-! ### Lists of parts -/

@[simp] theorem flatMap_nodes_ident (is : List Ident) : (is.map ident).flatMap nodes = [] := by
  induction is with
  | nil => rfl
  | cons i is ih => exact ih

@[simp] theorem flatMap_nodes_type (ts : List TypeRef) :
    (ts.map type).flatMap nodes = nodesOfTypes ts := by
  induction ts with
  | nil => rfl
  | cons t ts ih => simp [nodesOfTypes, ih, nodes]

@[simp] theorem flatMap_nodes_segment (segments : List NameSegment) :
    (segments.flatMap NameSegment.parts).flatMap nodes = nodesOfSegments segments := by
  induction segments with
  | nil => rfl
  | cons seg segments ih =>
    obtain ⟨name, args⟩ := seg
    simp [NameSegment.parts, NameSegment.name, NameSegment.args, nodesOfSegments, ih, nodes]

@[simp] theorem flatMap_nodes_argument (as : List (Argument Expr)) :
    (as.map argument).flatMap nodes = nodesOfArgs as := by
  induction as with
  | nil => rfl
  | cons a as ih => simp [nodesOfArgs, ih, nodes]

@[simp] theorem flatMap_nodes_stmt (ss : List Stmt) :
    (ss.map stmt).flatMap nodes = nodesOfStmts ss := by
  induction ss with
  | nil => rfl
  | cons s ss ih => simp [nodesOfStmts, ih, nodes]

@[simp] theorem flatMap_nodes_attr (as : List Attribute) :
    (as.map attr).flatMap nodes = nodesOfAttributes as :=
  List.flatMap_map attr nodes as

@[simp] theorem flatMap_nodes_parameter (ps : List Parameter) :
    (ps.map parameter).flatMap nodes = ps.flatMap Parameter.nodes :=
  List.flatMap_map parameter nodes ps

@[simp] theorem flatMap_nodes_accessor (as : List Accessor) :
    (as.map accessor).flatMap nodes = as.flatMap Accessor.nodes :=
  List.flatMap_map accessor nodes as

theorem nodesOfMembers_cons (m : Member) (ms : List Member) :
    nodesOfMembers (m :: ms) = nodesOfMembers [m] ++ nodesOfMembers ms := by
  cases m <;> simp [nodesOfMembers]

@[simp] theorem flatMap_nodes_member (ms : List Member) :
    (ms.map member).flatMap nodes = nodesOfMembers ms := by
  induction ms with
  | nil => rfl
  | cons m ms ih =>
    rw [nodesOfMembers_cons, List.map_cons, List.flatMap_cons, ih]
    rfl

@[simp] theorem flatMap_nodes_option {α : Type} (part : α → Part) (o : Option α) :
    (o.toList.map part).flatMap nodes = nodesOfOption (fun a => (part a).nodes) o := by
  cases o <;> simp [nodesOfOption]

@[simp] theorem nodesOfOption_nil {α : Type} (o : Option α) :
    nodesOfOption (fun _ => []) o = [] := by
  cases o <;> rfl

@[simp] theorem flatMap_nodes_body (b : Body) : b.parts.flatMap nodes = b.nodes := by
  simp [Body.parts, Body.nodes, nodes]

/-- **The nodes in a part** are the part itself, if it is a node, and the nodes in its parts. -/
theorem nodes_perm (p : Part) :
    p.nodes.Perm (p.syntaxNode?.toList ++ p.parts.flatMap nodes) := by
  cases p with
  | ident i => exact .refl _
  | type t => cases t <;> simp [nodes, parts, TypeRef.parts, TypeRef.nodes, syntaxNode?]
  | argument a =>
    obtain ⟨n, name, value⟩ := a
    cases name <;> simp [nodes, parts, Argument.parts, nodesOfArgs, syntaxNode?]
  | args l => simp [nodes, parts, syntaxNode?]
  | expr e =>
    cases e with
    | invoke n callee l => cases l; simp [nodes, parts, Expr.parts, Expr.nodes, syntaxNode?]
    | create n t args =>
      rcases args with _ | ⟨r, args⟩ <;> simp [nodes, parts, Expr.parts, Expr.nodes, syntaxNode?]
    | createArray n t size =>
      cases size <;> simp [nodes, parts, Expr.parts, Expr.nodes, syntaxNode?]
    | asType n operand t | isType n operand t designation =>
      -- the type stands behind the operand, but its nodes are listed in front
      simpa [nodes, parts, Expr.parts, Expr.nodes, syntaxNode?] using List.perm_append_comm
    | _ => simp [nodes, parts, Expr.parts, Expr.nodes, syntaxNode?]
  | stmt s =>
    cases s with
    | branch n condition yes no =>
      cases no <;> simp [nodes, parts, Stmt.parts, Stmt.nodes, syntaxNode?]
    | block n body => cases body; simp [nodes, parts, Stmt.parts, Stmt.nodes, syntaxNode?]
    | _ => simp [nodes, parts, Stmt.parts, Stmt.nodes, syntaxNode?]
  | block b => simp [nodes, parts, syntaxNode?]
  | attr a => simp [nodes, parts, Attribute.parts, Attribute.nodes, syntaxNode?]
  | parameter p => simp [nodes, parts, Parameter.parts, Parameter.nodes, syntaxNode?]
  | accessor a => simp [nodes, parts, syntaxNode?, Accessor.nodes]
  | member m =>
    cases m with
    | field d => simp [nodes, parts, Member.parts, nodesOfMembers, FieldDecl.nodes, syntaxNode?]
    | property d =>
      simp [nodes, parts, Member.parts, nodesOfMembers, PropertyDecl.nodes, syntaxNode?]
    | method d => simp [nodes, parts, Member.parts, nodesOfMembers, MethodDecl.nodes, syntaxNode?]
    | constructor d =>
      simp [nodes, parts, Member.parts, nodesOfMembers, ConstructorDecl.nodes, syntaxNode?]
    | type d =>
      obtain ⟨header, ms⟩ := d
      simp [nodes, parts, Member.parts, nodesOfMembers, TypeDecl.nodes, TypeHeader.nodes,
        TypeDecl.header, TypeDecl.members, syntaxNode?]

end Part

/-- The nodes of a file are those in its attributes and in its types. -/
theorem CompilationUnit.nodes_eq (u : CompilationUnit) : u.nodes = u.parts.flatMap Part.nodes := by
  simp [nodes, parts, nodesOfAttributes, List.flatMap_map, Part.nodes, nodesOfMembers]

/-! ## Numbered nodes -/

/-- The nodes have different identities, from the first number on and below the second one. -/
structure Numbered (first : NodeId) (nodes : List SyntaxNode) (next : NodeId) : Prop where
  nodup : (nodes.map fun n => n.node.id).Nodup
  first_le : ∀ n ∈ nodes, first ≤ n.node.id
  lt_next : ∀ n ∈ nodes, n.node.id < next

namespace Numbered

variable {first first' next next' : NodeId} {ns ns' : List SyntaxNode}

theorem nil : Numbered first [] next :=
  ⟨.nil, List.forall_mem_nil _, List.forall_mem_nil _⟩

theorem mono (h : Numbered first ns next) (hfirst : first' ≤ first) (hnext : next ≤ next') :
    Numbered first' ns next' :=
  ⟨h.nodup, fun n hn => Nat.le_trans hfirst (h.first_le n hn),
    fun n hn => Nat.lt_of_lt_of_le (h.lt_next n hn) hnext⟩

theorem perm (h : Numbered first ns next) (hperm : ns'.Perm ns) : Numbered first ns' next :=
  ⟨(hperm.map _).nodup_iff.2 h.nodup, fun n hn => h.first_le n (hperm.subset hn),
    fun n hn => h.lt_next n (hperm.subset hn)⟩

theorem sublist (h : Numbered first ns next) (hsub : ns'.Sublist ns) : Numbered first ns' next :=
  ⟨h.nodup.sublist (hsub.map _), fun n hn => h.first_le n (hsub.subset hn),
    fun n hn => h.lt_next n (hsub.subset hn)⟩

/-- Nodes that are numbered one after the other. -/
theorem append (h : Numbered first ns next) (h' : Numbered next ns' next') (hfirst : first ≤ next)
    (hnext : next ≤ next') : Numbered first (ns ++ ns') next' := by
  refine ⟨?_, ?_, ?_⟩
  · rw [List.map_append, List.nodup_append]
    refine ⟨h.nodup, h'.nodup, ?_⟩
    intro i hi j hj
    obtain ⟨n, hn, rfl⟩ := List.mem_map.1 hi
    obtain ⟨m, hm, rfl⟩ := List.mem_map.1 hj
    exact Nat.ne_of_lt (Nat.lt_of_lt_of_le (h.lt_next n hn) (h'.first_le m hm))
  · exact List.forall_mem_append.2 ⟨h.first_le, (h'.mono hfirst (Nat.le_refl _)).first_le⟩
  · exact List.forall_mem_append.2 ⟨(h.mono (Nat.le_refl _) hnext).lt_next, h'.lt_next⟩

/-- A node that gets the next number. -/
theorem cons {n : SyntaxNode} (h : Numbered first ns next) (hn : n.node.id = next)
    (hfirst : first ≤ next) : Numbered first (n :: ns) (next + 1) := by
  have hone : Numbered next [n] (next + 1) :=
    ⟨by simp, by simp [hn], by simp [hn]⟩
  exact (h.append hone hfirst (Nat.le_succ _)).perm (List.perm_append_singleton n ns).symm

end Numbered

end PropertyLint
