/-
# Where local names stay

What is bound in a scope of a member's own is an area, and so are the attributes of a type and of its
members with the initial values of the fields that are no constants: these share one scope.  A name in
a member that is bound to a local stands in one of the two, where the local is introduced and all
other names that are bound to it stand; in the shared one only designations introduce locals
(`Project.localNames_stay`).
-/
import PropertyLint.Proofs.Binding.FoldedFields
import PropertyLint.Proofs.Binding.LocalNames
import PropertyLint.Proofs.Binding.Single
import PropertyLint.Proofs.Syntax.Total

namespace PropertyLint

open Binder BindState

variable {p : Project} {scope : Scope} {node : Node} {s : BindState} {id : SymbolId}

/-! ## Nodes of expressions -/

/-- The node stands in expressions and attributes, which declare nothing but designations. -/
def SyntaxNode.InExprs : SyntaxNode → Prop
  | .attr _ | .argument _ | .expr _ | .type _ => True
  | .member _ | .accessor _ | .parameter _ | .stmt _ => False

theorem TypeRef.inExprs (t : TypeRef) : ∀ x ∈ t.nodes, x.InExprs := by
  intro x hx
  obtain ⟨u, rfl⟩ := t.exists_type_of_mem_nodes hx
  trivial

mutual

theorem Expr.inExprs : ∀ e : Expr, ∀ x ∈ e.nodes, x.InExprs
  | .member _ target _ => List.forall_mem_cons.2 ⟨trivial, target.inExprs⟩
  | .unary _ _ part | .paren _ part => List.forall_mem_cons.2 ⟨trivial, part.inExprs⟩
  | .invoke _ callee ⟨_, args⟩ => List.forall_mem_cons.2 ⟨trivial,
      List.forall_mem_append.2 ⟨callee.inExprs, inExprs_nodesOfArgs args⟩⟩
  | .create _ type none | .createArray _ type none | .typeOf _ type
  | .default _ (some type) => List.forall_mem_cons.2 ⟨trivial, type.inExprs⟩
  | .create _ type (some ⟨_, args⟩) => List.forall_mem_cons.2 ⟨trivial,
      List.forall_mem_append.2 ⟨type.inExprs, inExprs_nodesOfArgs args⟩⟩
  | .createArray _ type (some part) | .cast _ type part | .asType _ part type
  | .isType _ part type _ => List.forall_mem_cons.2 ⟨trivial,
      List.forall_mem_append.2 ⟨type.inExprs, part.inExprs⟩⟩
  | .binary _ _ left right | .assign _ left right => List.forall_mem_cons.2 ⟨trivial,
      List.forall_mem_append.2 ⟨left.inExprs, right.inExprs⟩⟩
  | .conditional _ condition yes no => List.forall_mem_cons.2 ⟨trivial,
      List.forall_mem_append.2 ⟨condition.inExprs,
        List.forall_mem_append.2 ⟨yes.inExprs, no.inExprs⟩⟩⟩
  | .default _ none | .literal _ _ | .identifier _ _ | .self _ | .base _ =>
    List.forall_mem_singleton.2 trivial

theorem inExprs_nodesOfArgs : ∀ args : List (Argument Expr), ∀ x ∈ nodesOfArgs args, x.InExprs
  | [] => List.forall_mem_nil _
  | ⟨_, _, value⟩ :: rest => List.forall_mem_cons.2 ⟨trivial,
      List.forall_mem_append.2 ⟨value.inExprs, inExprs_nodesOfArgs rest⟩⟩

end

theorem inExprs_nodesOfAttributes (as : List Attribute) : ∀ x ∈ nodesOfAttributes as, x.InExprs := by
  intro x hx
  obtain ⟨a, -, hx⟩ := List.mem_flatMap.1 hx
  rw [Attribute.nodes, List.mem_cons, List.mem_append] at hx
  rcases hx with rfl | hname | hargs
  · trivial
  · exact a.name.inExprs x hname
  · cases hsome : a.args with
    | none =>
      rw [hsome] at hargs
      cases hargs
    | some list =>
      rw [hsome] at hargs
      exact inExprs_nodesOfArgs list.args x hargs

theorem TypeDecl.inExprs_sharedNodes (d : TypeDecl) : ∀ x ∈ d.sharedNodes, x.InExprs := by
  refine List.forall_mem_append.2 ⟨inExprs_nodesOfAttributes _, fun x hx => ?_⟩
  obtain ⟨m, -, hx⟩ := List.mem_flatMap.1 hx
  cases m with
  | field decl =>
    refine (List.mem_append.1 hx).elim (inExprs_nodesOfAttributes _ x) fun hx => ?_
    split at hx
    · cases hx
    · cases hinit : decl.init with
      | none =>
        rw [hinit] at hx
        cases hx
      | some init =>
        rw [hinit] at hx
        exact init.inExprs x hx
  | property decl | method decl | constructor decl =>
    exact inExprs_nodesOfAttributes _ x hx
  | type _ => cases hx

/-! ## The nodes of a member -/

/-- The nodes of a member that are bound in a scope of its own: all but its attributes, and the
initial value of a field just if the field is a constant. -/
def Member.ownNodes (m : Member) : List SyntaxNode := m.constNodes ++ m.innerNodes

/-- A member is a constant field, or nothing of it is bound before the bodies. -/
theorem Member.constNodes_or_innerNodes (m : Member) : m.constNodes = [] ∨ m.innerNodes = [] := by
  cases m with
  | field d => exact .inr rfl
  | _ => exact .inl rfl

/-- An expression in a member is bound in a scope of the member's own or in that of its type. -/
theorem Member.mem_sharedNodes_or_ownNodes {m : Member} (hm : m.isType = false) {e : Expr}
    (he : .expr e ∈ nodesOfMembers [m]) : .expr e ∈ m.sharedNodes ∨ .expr e ∈ m.ownNodes := by
  have hbound (he : .expr e ∈ m.boundNodes) : .expr e ∈ m.sharedNodes ∨ .expr e ∈ m.ownNodes := by
    rw [m.boundNodes_eq, List.mem_append] at he
    exact he.imp_right fun he => List.mem_append_right _ he
  cases m with
  | field d =>
    have he : .expr e ∈ d.nodes ++ [] := (List.mem_cons.1 he).resolve_left fun heq => by cases heq
    rw [List.append_nil, FieldDecl.nodes, List.mem_append, List.mem_append] at he
    rcases he with (hattributes | htype) | hinit
    · exact .inl (List.mem_append_left _ hattributes)
    · obtain ⟨u, hu⟩ := d.type.exists_type_of_mem_nodes htype
      cases hu
    · by_cases hconst : d.modifiers.has .const = true
      · refine .inr (List.mem_append_left _ ?_)
        cases hsome : d.init with
        | some init =>
          rw [hsome] at hinit
          simpa [constNodes, constField?, hconst, hsome] using hinit
        | none =>
          rw [hsome] at hinit
          cases hinit
      · refine .inl (List.mem_append_right _ ?_)
        rwa [if_neg hconst]
  | property d | method d | constructor d =>
    have he : .expr e ∈ d.nodes ++ [] := (List.mem_cons.1 he).resolve_left fun heq => by cases heq
    rw [List.append_nil] at he
    exact hbound he
  | type d => cases hm

theorem Scope.refs_congr {scope' : Scope} (h : scope.file = scope'.file) (ns : List SyntaxNode) :
    scope.refs ns = scope'.refs ns := by
  rw [Scope.refs, Scope.refs, h]

namespace Project

variable {tree tree' : SyntaxTree} {d : TypeDecl} {x : SyntaxNode} {ns : List SyntaxNode}
  {rs : List Stretch}

/-- What is bound of a type are nodes of its file. -/
theorem nodes_subset_of_mem_types (hd : d ∈ tree.types) :
    d.constNodes ++ d.boundNodes ⊆ tree.root.nodes := by
  refine List.Subset.trans (List.append_subset.2 ⟨fun x hx => ?_, fun x hx => ?_⟩)
    tree.source.recordedNodes_subperm.subset
  · exact List.mem_append_left _ (List.mem_flatMap.2 ⟨d, hd, hx⟩)
  · exact List.mem_append_right _ (List.mem_append_right _ (List.mem_flatMap.2 ⟨d, hd, hx⟩))

theorem sharedNodes_subset (hd : d ∈ tree.types) : d.sharedNodes ⊆ tree.root.nodes := by
  refine List.Subset.trans (fun x hx => ?_) (nodes_subset_of_mem_types hd)
  refine List.mem_append_right _ ((List.mem_append.1 hx).elim (List.mem_append_left _) fun hx => ?_)
  obtain ⟨m, hm, hx⟩ := List.mem_flatMap.1 hx
  refine List.mem_append_right _ (List.mem_flatMap.2 ⟨m, hm, ?_⟩)
  rw [m.boundNodes_eq]
  exact List.mem_append_left _ hx

theorem ownNodes_subset (hd : d ∈ tree.types) {m : Member} (hm : m ∈ d.ownMembers) :
    m.ownNodes ⊆ tree.root.nodes := by
  refine List.Subset.trans (fun x hx => ?_) (nodes_subset_of_mem_types hd)
  rcases List.mem_append.1 hx with hx | hx
  · obtain ⟨decl, hdecl, hx⟩ := List.mem_flatMap.1 hx
    refine List.mem_append_left _ (List.mem_flatMap.2 ⟨decl, ?_, hx⟩)
    exact List.mem_flatMap.2 ⟨m, (List.mem_filter.1 hm).1, hdecl⟩
  · refine List.mem_append_right _ (List.mem_append_right _ (List.mem_flatMap.2 ⟨m, hm, ?_⟩))
    rw [m.boundNodes_eq]
    exact List.mem_append_right _ hx

/-- The portions of the body of a type are portions of the project. -/
theorem exists_declaredType (ht : tree ∈ p.trees) (hd : d ∈ tree.types) :
    ∃ declared : DeclaredType, declared.decl = d ∧
      (∀ ns, declared.scope.refs ns = tree.source.scope.refs ns) ∧
      declared.portions ⊆ p.portions := by
  have hsource : tree.source ∈ p.sources := .tail _ (List.mem_map_of_mem ht)
  obtain ⟨declared, hmem, hdsource, hdecl⟩ := exists_typesDeclared_iff.2 ⟨hsource, hd⟩
  have hfile : declared.source.file = some tree.file := congrArg Source.file hdsource
  refine ⟨declared, hdecl, Scope.refs_congr (congrArg Source.file hdsource), fun P hP => ?_⟩
  refine List.mem_append_right _ (List.mem_append_right _ (List.mem_flatMap.2 ⟨declared, ?_, hP⟩))
  exact List.mem_filter.2 ⟨hmem, by rw [hfile, Option.isSome_some]⟩

/-- What a type shares is bound in one area. -/
theorem exists_shared_portion (ht : tree ∈ p.trees) (hd : d ∈ tree.types) {m : Member}
    (hm : m ∈ d.ownMembers) (hx : x ∈ m.sharedNodes) :
    ∃ P ∈ p.portions, P.area = tree.source.scope.refs d.sharedNodes ∧
      ⟨some tree.file, x.node.id⟩ ∈ P.refs := by
  obtain ⟨declared, rfl, hrefs, hportions⟩ := exists_declaredType ht hd
  refine ⟨⟨declared.area, declared.scope.refs m.sharedNodes⟩, hportions (.tail _ ?_), hrefs _, ?_⟩
  · exact List.mem_flatMap.2 ⟨m, hm, .head _⟩
  · rw [hrefs]
    exact List.mem_map_of_mem hx

/-- What a member has of its own is bound in one area. -/
theorem exists_own_portion (ht : tree ∈ p.trees) (hd : d ∈ tree.types) {m : Member}
    (hm : m ∈ d.ownMembers) (hx : x ∈ m.ownNodes) :
    ∃ P ∈ p.portions, P.area = tree.source.scope.refs m.ownNodes ∧
      ⟨some tree.file, x.node.id⟩ ∈ P.refs := by
  suffices h : Portion.own (tree.source.scope.refs m.ownNodes) ∈ p.portions from
    ⟨_, h, rfl, List.mem_map_of_mem hx⟩
  rcases m.constNodes_or_innerNodes with hnil | hnil
  · obtain ⟨declared, rfl, hrefs, hportions⟩ := exists_declaredType ht hd
    rw [Member.ownNodes, hnil, List.nil_append, ← hrefs]
    exact hportions (.tail _ (List.mem_flatMap.2 ⟨m, hm, .tail _ (.head _)⟩))
  · -- the initial value of a constant field
    rw [Member.ownNodes, hnil, List.append_nil] at hx ⊢
    obtain ⟨decl, hdecl, hx⟩ := List.mem_flatMap.1 hx
    have hfield : m.constField? = some decl := Option.mem_toList.1 hdecl
    cases hinit : decl.init with
    | none =>
      rw [hinit] at hx
      cases hx
    | some init =>
      have hconst : decl ∈ d.constFields :=
        List.mem_flatMap.2 ⟨m, (List.mem_filter.1 hm).1, hdecl⟩
      have hsource : tree.source ∈ p.sources := .tail _ (List.mem_map_of_mem ht)
      have hmem : (some tree.file, some init) ∈
          p.constFields.map fun f => (f.scope.file, some f.init) := by
        rw [constFields_inits]
        refine List.mem_flatMap.2 ⟨_, hsource, List.mem_flatMap.2 ⟨d, hd, ?_⟩⟩
        exact List.mem_map.2 ⟨decl, hconst, by rw [hinit]; rfl⟩
      obtain ⟨f, hf, heq⟩ := List.mem_map.1 hmem
      obtain ⟨hfile, hsame⟩ := Prod.mk.inj heq
      have hrefs : tree.source.scope.refs m.constNodes = f.refs := by
        rw [Member.constNodes, hfield, Option.toList_some, List.flatMap_singleton, hinit,
          ← Option.some.inj hsame]
        exact (Scope.refs_congr hfile _).symm
      rw [hrefs]
      exact List.mem_append_left _ (List.mem_map.2 ⟨f, hf, rfl⟩)

/-- What names in an area are bound to stays in the area. -/
theorem BoundIn.stays (hrs : p.BoundIn rs) (hp : p.IsBound) (ht : tree ∈ p.trees)
    (hns : ns ⊆ tree.root.nodes) {P : Portion} (hP : P ∈ p.portions)
    (harea : P.area = tree.source.scope.refs ns) {name : Ident}
    (he : .expr (.identifier node name) ∈ ns) (hmem : ⟨some tree.file, node.id⟩ ∈ P.refs)
    (hid : p.facts.symbol? ⟨some tree.file, node.id⟩ = some id) {symbol : Symbol}
    (hsymbol : p.comp.symbol? id = some symbol) (hlocal : symbol.IsLocal) :
    (∃ x ∈ ns, p.Introduces tree.file x name.text id) ∧
      ∀ tree' ∈ p.trees, ∀ (node' : Node) (name' : Ident),
        .expr (.identifier node' name') ∈ tree'.root.nodes →
        p.facts.symbol? ⟨some tree'.file, node'.id⟩ = some id →
          tree' = tree ∧ .expr (.identifier node' name') ∈ ns := by
  -- nodes of the area
  have hback {tree' : SyntaxTree} (ht' : tree' ∈ p.trees) {x : SyntaxNode}
      (hx : x ∈ tree'.root.nodes) (hmem : ⟨some tree'.file, x.node.id⟩ ∈ P.area) :
      tree' = tree ∧ x ∈ ns := by
    rw [harea] at hmem
    obtain ⟨y, hy, heq⟩ := List.mem_map.1 hmem
    obtain ⟨hfile, hnode⟩ := NodeRef.mk.inj heq
    obtain rfl := hp.tree_unique ht ht' (Option.some.inj hfile)
    have hnode : p.HasNode ⟨some tree.file, x.node.id⟩ y := ⟨tree, ht, rfl, hns hy, hnode⟩
    exact ⟨rfl, hnode.unique hp.toIsRead ⟨tree, ht, rfl, hx, rfl⟩ ▸ hy⟩
  -- the stretch of the name
  have hwrites : p.Writes (some tree.file) (.identifier node name) := ⟨tree, ht, rfl, hns he⟩
  obtain ⟨r, hr, hn, q, hq, hqarea, hbrings⟩ := hrs.exists_brings hp hwrites hid hsymbol hlocal
  obtain ⟨r', hr', rfl⟩ : ∃ r' ∈ rs, r'.toPortion = P := by
    rw [← hrs.portions] at hP
    exact List.mem_map.1 hP
  obtain rfl := hrs.stretch_unique hp.toIsRead rfl hr hr' hn hmem
  refine ⟨?_, fun tree' ht' node' name' he' hid' => ?_⟩
  · obtain ⟨n, hn, tree', ht', x, hx, rfl, hintro⟩ := hrs.introduces hp hq hbrings
    have hmem := (hrs.encloses.lasts q hq).subset hn
    rw [hqarea] at hmem
    obtain ⟨rfl, hx⟩ := hback ht' hx hmem
    exact ⟨x, hx, hintro⟩
  · have hwrites' : p.Writes (some tree'.file) (.identifier node' name') := ⟨tree', ht', rfl, he'⟩
    obtain ⟨r', hr', hn', q', hq', hqarea', hbrings'⟩ :=
      hrs.exists_brings hp hwrites' hid' hsymbol hlocal
    -- both names have been brought into scope by the same stretch
    obtain rfl := hrs.brings_unique hp hq hq' hbrings hbrings'
    have hmem := (hrs.encloses.lasts r' hr').subset hn'
    rw [← hqarea', hqarea] at hmem
    exact hback ht' he' hmem

/-- Among expressions only a designation introduces a local. -/
theorem Introduces.designation {file : FileId} {name : String} (h : p.Introduces file x name id)
    (hx : x.InExprs) : ∃ (node : Node) (operand : Expr) (type : TypeRef) (designation : Ident),
      x = .expr (.isType node operand type (some designation)) := by
  rcases h with ⟨type, symbol, hintro, -⟩ | ⟨q, rfl, -⟩
  · unfold SyntaxNode.introduced? at hintro
    split at hintro
    next => exact hx.elim
    next node operand type designation => exact ⟨node, operand, type, designation, rfl⟩
    next => exact hx.elim
    next => cases hintro
  · exact hx.elim

/-- All names in the files that are bound to the symbol stand among the nodes of the file. -/
def Confines (p : Project) (file : FileId) (ns : List SyntaxNode) (id : SymbolId) : Prop :=
  ∀ (file' : FileId) (m : Model) (node : Node) (name : Ident), p.model? file' = some m →
    .expr (.identifier node name) ∈ m.tree.root.nodes → m.symbol? node.id = some id →
      file' = file ∧ .expr (.identifier node name) ∈ ns

/-- **Local names stay.**  A name in a member that is bound to a local or a parameter either stands in
a part of the member with a scope of its own, where the local is introduced by a node of that part;
or it stands in an attribute of the member or in the initial value of a field that is no constant,
and the local is introduced by a designation in such a place of any member of the type, or in an
attribute of the type.  All names that are bound to the local stand in the same part of the member, or
in such places of the type. -/
theorem localNames_stay {files : List String} (hread : Project.read files = .ok p) {file : FileId}
    {m : Model} (hmodel : p.model? file = some m) (hd : d ∈ m.tree.types) {member : Member}
    (hmember : member ∈ d.ownMembers) {name : Ident}
    (he : .expr (.identifier node name) ∈ nodesOfMembers [member])
    (hid : m.symbol? node.id = some id) {symbol : Symbol}
    (hsymbol : m.comp.symbol? id = some symbol) (hlocal : symbol.IsLocal) :
    (.expr (.identifier node name) ∈ member.ownNodes ∧
      (∃ x ∈ member.ownNodes, p.Introduces file x name.text id) ∧
      p.Confines file member.ownNodes id) ∨
    (.expr (.identifier node name) ∈ member.sharedNodes ∧
      (∃ (isNode : Node) (operand : Expr) (type : TypeRef) (designation : Ident),
        .expr (.isType isNode operand type (some designation)) ∈ d.sharedNodes ∧
        p.Introduces file (.expr (.isType isNode operand type (some designation))) name.text id) ∧
      p.Confines file d.sharedNodes id) := by
  have hp := isBound_of_read hread
  obtain ⟨tree, hget, rfl⟩ := Option.map_eq_some_iff.1 hmodel
  have ht := List.mem_of_getElem? hget
  obtain rfl := hp.file hget
  obtain ⟨rs, hrs⟩ := hp.exists_boundIn
  have htype := TypeDecl.isType_of_mem_ownMembers hmember
  have hconfines {ns : List SyntaxNode} (h : ∀ tree' ∈ p.trees, ∀ (node' : Node) (name' : Ident),
      .expr (.identifier node' name') ∈ tree'.root.nodes →
      p.facts.symbol? ⟨some tree'.file, node'.id⟩ = some id →
        tree' = tree ∧ .expr (.identifier node' name') ∈ ns) : p.Confines tree.file ns id := by
    intro file' m' node' name' hmodel' he' hid'
    obtain ⟨tree', hget', rfl⟩ := Option.map_eq_some_iff.1 hmodel'
    obtain ⟨rfl, hmem⟩ := h tree' (List.mem_of_getElem? hget') node' name' he' hid'
    exact ⟨(hp.file hget').symm, hmem⟩
  rcases member.mem_sharedNodes_or_ownNodes htype he with hshared | hown
  · refine .inr ⟨hshared, ?_⟩
    obtain ⟨P, hP, harea, hmem⟩ := exists_shared_portion ht hd hmember hshared
    have hall : .expr (.identifier node name) ∈ d.sharedNodes :=
      List.mem_append_right _ (List.mem_flatMap.2 ⟨member, hmember, hshared⟩)
    obtain ⟨⟨x, hx, hintro⟩, hstay⟩ := hrs.stays hp ht (sharedNodes_subset hd) hP harea hall hmem hid
      hsymbol hlocal
    obtain ⟨isNode, operand, type, designation, rfl⟩ :=
      hintro.designation (d.inExprs_sharedNodes x hx)
    exact ⟨⟨isNode, operand, type, designation, hx, hintro⟩, hconfines hstay⟩
  · refine .inl ⟨hown, ?_⟩
    obtain ⟨P, hP, harea, hmem⟩ := exists_own_portion ht hd hmember hown
    obtain ⟨hintro, hstay⟩ := hrs.stays hp ht (ownNodes_subset hd hmember) hP harea hown hmem hid
      hsymbol hlocal
    exact ⟨hintro, hconfines hstay⟩

end Project

/-! ## A local that is returned -/

/-- A class with a method that returns a local. -/
def returningLocal : String := "class A \x7b int M() \x7b int x = 1; return x; \x7d \x7d"

/-- The method. -/
def returningMethod : MethodDecl :=
  { node := ⟨6, ⟨10, 42⟩⟩, doc := none, attributes := [], modifiers := [], name := ⟨"M", ⟨14, 15⟩⟩
    returnType := .keyword ⟨0, ⟨10, 13⟩⟩ .int
    interface := none
    typeParams := []
    params := []
    body := ⟨some ⟨⟨18, 42⟩,
      [.localDecl ⟨3, ⟨20, 30⟩⟩ (.keyword ⟨1, ⟨20, 23⟩⟩ .int) ⟨"x", ⟨24, 25⟩⟩
          (some (.literal ⟨2, ⟨28, 29⟩⟩ (.integer 1))),
        .returning ⟨5, ⟨31, 40⟩⟩ (some (.identifier ⟨4, ⟨38, 39⟩⟩ ⟨"x", ⟨38, 39⟩⟩))]⟩, none⟩ }

/-- The class without its method. -/
def returningHeader : TypeHeader :=
  { node := ⟨7, ⟨0, 44⟩⟩, doc := none, attributes := [], modifiers := [], name := ⟨"A", ⟨6, 7⟩⟩
    namespaceName := none, kind := .class_, typeParams := [], bases := [] }

/-- The tree of the file. -/
def returningTree : SyntaxTree :=
  { file := 0, text := returningLocal
    root := { types := [.mk returningHeader [.method returningMethod]] } }

/-- The tokens of the file. -/
def returningTokens : List Token :=
  [⟨.word "class", ⟨0, 5⟩, none⟩, ⟨.word "A", ⟨6, 7⟩, none⟩, ⟨.punct .openBrace, ⟨8, 9⟩, none⟩,
    ⟨.word "int", ⟨10, 13⟩, none⟩, ⟨.word "M", ⟨14, 15⟩, none⟩,
    ⟨.punct .openParen, ⟨15, 16⟩, none⟩, ⟨.punct .closeParen, ⟨16, 17⟩, none⟩,
    ⟨.punct .openBrace, ⟨18, 19⟩, none⟩, ⟨.word "int", ⟨20, 23⟩, none⟩,
    ⟨.word "x", ⟨24, 25⟩, none⟩, ⟨.punct .assign, ⟨26, 27⟩, none⟩, ⟨.integer 1, ⟨28, 29⟩, none⟩,
    ⟨.punct .semicolon, ⟨29, 30⟩, none⟩, ⟨.word "return", ⟨31, 37⟩, none⟩,
    ⟨.word "x", ⟨38, 39⟩, none⟩, ⟨.punct .semicolon, ⟨39, 40⟩, none⟩,
    ⟨.punct .closeBrace, ⟨41, 42⟩, none⟩, ⟨.punct .closeBrace, ⟨43, 44⟩, none⟩]

set_option maxRecDepth 10000 in
theorem parse_returningLocal : SyntaxTree.parse 0 returningLocal = .ok returningTree := by
  have htokens : tokenize returningLocal = .ok returningTokens := by
    rw [← toOption_eq_some_iff]
    decide +kernel
  rw [SyntaxTree.parse_of_tokenize htokens, startOf,
    show byteLength returningLocal.toList = 44 by decide +kernel]
  rfl

/-- Of the class only the body of its method is bound. -/
theorem bindTypeBody_returning {d : DeclaredType}
    (hdecl : d.decl = .mk returningHeader [.method returningMethod]) (s : BindState) :
    ((bindTypeBody d).run s).2.facts.symbol? ⟨d.scope.file, 4⟩ = some s.comp.symbols.size ∧
      ∃ symbol, ((bindTypeBody d).run s).2.comp.symbol? s.comp.symbols.size = some symbol ∧
        symbol.IsLocal := by
  have hmembers : d.decl.ownMembers = [.method returningMethod] := by rw [hdecl]; rfl
  have hattributes : d.decl.attributes = [] := by rw [hdecl]; rfl
  have hmethod : ((bindTypeBody d).run s).2.facts = ((bindMemberBody d.scope
      (.method returningMethod)).run { s with locals := [] }).2.facts ∧
      ((bindTypeBody d).run s).2.comp = ((bindMemberBody d.scope
        (.method returningMethod)).run { s with locals := [] }).2.comp := by
    simp only [bindTypeBody, hmembers, hattributes, bindAttributes, List.forM_nil, List.forM_cons,
      List.forM_eq_forM, pure_bind]
    exact ⟨rfl, rfl⟩
  obtain ⟨typeParams, hbody⟩ := bindMemberBody_block_run (show returningMethod.attributes = [] from rfl)
    rfl rfl d.scope { s with locals := [] }
  obtain ⟨s', type, hlocal, hcomp, hlocals⟩ := bindLocal_run { d.scope with methodTypeParams := typeParams }
    ⟨3, ⟨20, 30⟩⟩ ⟨1, ⟨20, 23⟩⟩ ⟨2, ⟨28, 29⟩⟩ .int ⟨"x", ⟨24, 25⟩⟩ 1 { s with locals := [] }
  rw [bindStmts, bindStmt, bind_run hlocal, bindStmts, bindStmt, bindStmts] at hbody
  obtain ⟨hcomp', hsymbol⟩ := bindExpr_local_run { d.scope with methodTypeParams := typeParams }
    ⟨4, ⟨38, 39⟩⟩ ⟨"x", ⟨38, 39⟩⟩ (hlocals ▸ List.lookup_cons_self)
  rw [hmethod.1, hmethod.2, hbody]
  have hadded := congrArg (Compilation.symbol? · s.comp.symbols.size) (hcomp'.trans hcomp)
  exact ⟨hsymbol, _, hadded.trans (Compilation.symbol?_add_size _), trivial⟩

namespace Project

/-- In a project with the class as its only file the name that is returned is bound to the local. -/
theorem IsBound.exists_returned {p : Project} (hp : p.IsBound)
    (hsources : p.sources = [frameworkSource] ++ [returningTree.source]) :
    ∃ id symbol, p.facts.symbol? ⟨some 0, 4⟩ = some id ∧ p.comp.symbol? id = some symbol ∧
      symbol.IsLocal := by
  obtain ⟨d, -, -, hd, htypes, -⟩ := membersDeclared_concat (show returningTree.source.root.types =
    [.mk returningHeader [.method returningMethod]] from rfl) rfl rfl rfl
    (List.forall_mem_singleton.2 rfl) [frameworkSource]
  have hstage : p.stage p.constFields.length =
      ((bindTypeBody d).run (p.evaluated p.constFields.length)).2 := by
    rw [stage_length, hsources]
    exact bindBodies_concat rfl rfl htypes (congrArg DeclaredType.source hd)
      (List.forall_mem_singleton.2 rfl) _
  obtain ⟨hsymbol, symbol, hadded, hlocal⟩ := bindTypeBody_returning
    (congrArg DeclaredType.decl hd) (p.evaluated p.constFields.length)
  have hfile : d.scope.file = some 0 := by
    rw [hd]
    rfl
  rw [← hstage, ← hp.facts_eq_stage (Nat.le_refl _), hfile] at hsymbol
  rw [← hstage] at hadded
  exact ⟨_, symbol, hsymbol, hp.comp_extends.symbol? _ _ hadded, hlocal⟩

/-- The local of the method stays in the method. -/
theorem localNames_stay_returned : ∃ (p : Project) (m : Model) (d : TypeDecl) (id : SymbolId)
    (symbol : Symbol), Project.read [returningLocal] = .ok p ∧ p.model? 0 = some m ∧
      d ∈ m.tree.types ∧ .method returningMethod ∈ d.ownMembers ∧
      .expr (.identifier ⟨4, ⟨38, 39⟩⟩ ⟨"x", ⟨38, 39⟩⟩) ∈ nodesOfMembers [.method returningMethod] ∧
      m.symbol? 4 = some id ∧ m.comp.symbol? id = some symbol ∧ symbol.IsLocal ∧
      ((.expr (.identifier ⟨4, ⟨38, 39⟩⟩ ⟨"x", ⟨38, 39⟩⟩) ∈ (Member.method returningMethod).ownNodes ∧
        (∃ x ∈ (Member.method returningMethod).ownNodes, p.Introduces 0 x "x" id) ∧
        p.Confines 0 (Member.method returningMethod).ownNodes id) ∨
      (.expr (.identifier ⟨4, ⟨38, 39⟩⟩ ⟨"x", ⟨38, 39⟩⟩) ∈
          (Member.method returningMethod).sharedNodes ∧
        (∃ (isNode : Node) (operand : Expr) (type : TypeRef) (designation : Ident),
          .expr (.isType isNode operand type (some designation)) ∈ d.sharedNodes ∧
          p.Introduces 0 (.expr (.isType isNode operand type (some designation))) "x" id) ∧
        p.Confines 0 d.sharedNodes id)) := by
  have hparse : SyntaxTree.parse 0 (stripMarkers returningLocal).1 = .ok returningTree := by
    have hstrip : stripMarkers returningLocal = (returningLocal, []) := by decide +kernel
    rw [hstrip, parse_returningLocal]
  have hread := read_singleton hparse
  obtain ⟨id, symbol, hid, hsymbol, hlocal⟩ := (isBound_of_read hread).exists_returned rfl
  have hmodel : (ofTrees [returningTree] [(stripMarkers returningLocal).2]).model? 0 =
      some ⟨ofTrees [returningTree] [(stripMarkers returningLocal).2], returningTree⟩ := rfl
  have hd : TypeDecl.mk returningHeader [.method returningMethod] ∈ returningTree.types := .head _
  have hmember : .method returningMethod ∈
      (TypeDecl.mk returningHeader [.method returningMethod]).ownMembers := .head _
  have he : .expr (.identifier ⟨4, ⟨38, 39⟩⟩ ⟨"x", ⟨38, 39⟩⟩) ∈
      nodesOfMembers [.method returningMethod] := List.mem_of_getElem? (i := 6) rfl
  exact ⟨_, _, _, id, symbol, hread, hmodel, hd, hmember, he, hid, hsymbol, hlocal,
    localNames_stay hread hmodel hd hmember he hid hsymbol hlocal⟩

end Project

end PropertyLint
