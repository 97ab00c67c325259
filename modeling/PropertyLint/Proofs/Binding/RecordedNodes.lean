/-
# The nodes that are bound

When the members of all types have been declared, three things are bound: the initial values of the
constant fields, the attributes of the assemblies and the bodies of the types.  These are different
nodes of the files (`Source.recordedNodes_subperm`), so no node of a file is bound twice
(`Project.IsRead.count_boundRefs_le`).
-/
import Mathlib.Data.List.Flatten
import PropertyLint.Proofs.Binding.RecordedBodies

namespace PropertyLint

open Binder

/-! ## The nodes that are bound -/

/-- The nodes of a member that are bound at some time. -/
def Member.recordedNodes : Member → List SyntaxNode
  | .field d => nodesOfAttributes d.attributes ++ nodesOfOption Expr.nodes d.init
  | .property d => d.nodes
  | .method d => d.nodes
  | .constructor d => d.nodes
  | .type _ => []

/-- The initial value of a member that is a constant field. -/
def Member.constNodes (m : Member) : List SyntaxNode :=
  m.constField?.toList.flatMap fun d => nodesOfOption Expr.nodes d.init

/-- The initial values of the constant fields of a type. -/
def TypeDecl.constNodes (t : TypeDecl) : List SyntaxNode :=
  t.constFields.flatMap fun d => nodesOfOption Expr.nodes d.init

/-- The nodes of a type, without the types in it, that are bound at some time. -/
def TypeDecl.recordedNodes (t : TypeDecl) : List SyntaxNode :=
  nodesOfAttributes t.attributes ++ t.members.flatMap Member.recordedNodes

theorem Member.recordedNodes_perm (m : Member) :
    (m.constNodes ++ m.boundNodes).Perm m.recordedNodes := by
  cases m with
  | field d =>
    by_cases hconst : d.modifiers.has .const = true
    · cases hinit : d.init with
      | some init =>
        simpa [constNodes, constField?, boundNodes, recordedNodes, hconst, hinit, nodesOfOption]
          using List.perm_append_comm
      | none =>
        simp [constNodes, constField?, boundNodes, recordedNodes, hconst, hinit, nodesOfOption]
    · simp [constNodes, constField?, boundNodes, recordedNodes, hconst]
  | _ => exact .refl _

/-- The types among the members have nodes of their own. -/
theorem TypeDecl.boundNodes_ownMembers (t : TypeDecl) :
    t.ownMembers.flatMap Member.boundNodes = t.members.flatMap Member.boundNodes := by
  unfold ownMembers
  induction t.members with
  | nil => rfl
  | cons m ms ih =>
    have htype : m.isType = true → m.boundNodes = [] := by
      cases m <;> simp [Member.isType, Member.boundNodes]
    rw [List.filter_cons]
    cases hm : m.isType with
    | true => simp [htype hm, ih]
    | false => simp [ih]

theorem TypeDecl.recordedNodes_perm (t : TypeDecl) :
    (t.constNodes ++ t.boundNodes).Perm t.recordedNodes := by
  have hmembers : (t.members.flatMap Member.constNodes ++ t.members.flatMap Member.boundNodes).Perm
      (t.members.flatMap Member.recordedNodes) :=
    (List.flatMap_append_perm _ _ _).trans
      (List.Perm.flatMap_left _ fun m _ => m.recordedNodes_perm)
  have hconst : t.constNodes = t.members.flatMap Member.constNodes := by
    rw [constNodes, constFields, List.flatMap_assoc]
    rfl
  rw [hconst, boundNodes, t.boundNodes_ownMembers, recordedNodes, ← List.append_assoc]
  refine (List.perm_append_comm.append_right _).trans ?_
  rw [List.append_assoc]
  exact hmembers.append_left _

/-- A member with nodes of its own in front of others. -/
theorem subperm_member {n : SyntaxNode} {own nodes recorded rest all : List SyntaxNode}
    (hown : own.Subperm nodes) (hrest : (recorded ++ rest).Subperm all) :
    (own ++ recorded ++ rest).Subperm (n :: (nodes ++ all)) := by
  rw [List.append_assoc]
  exact (hown.append hrest).trans (List.sublist_cons_self _ _).subperm

mutual

/-- What is bound of a type and of the types nested in it are different nodes of it. -/
theorem TypeDecl.recorded_subperm : ∀ t : TypeDecl,
    List.Subperm (t.withNested.flatMap TypeDecl.recordedNodes) t.nodes
  | .mk header members => by
    have hmembers := recorded_subperm_members members
    rw [TypeDecl.withNested, List.flatMap_cons, TypeDecl.nodes, TypeDecl.recordedNodes,
      List.append_assoc]
    refine List.Subperm.trans ?_ (List.sublist_cons_self _ _).subperm
    exact List.Subperm.append (List.sublist_append_left _ _).subperm hmembers

theorem recorded_subperm_members : ∀ members : List Member,
    List.Subperm (members.flatMap Member.recordedNodes ++
      (nestedIn members).flatMap TypeDecl.recordedNodes) (nodesOfMembers members)
  | [] => .refl _
  | .type t :: rest => by
    have htype := TypeDecl.recorded_subperm t
    have hrest := recorded_subperm_members rest
    rw [nestedIn, List.flatMap_append, nodesOfMembers, List.flatMap_cons, Member.recordedNodes,
      List.nil_append, ← List.append_assoc]
    refine (List.perm_append_comm.append_right _).subperm.trans ?_
    rw [List.append_assoc]
    exact htype.append hrest
  | .field d :: rest => by
    have hfield : List.Sublist (Member.recordedNodes (.field d)) d.nodes := by
      rw [Member.recordedNodes, FieldDecl.nodes]
      exact (List.sublist_append_left _ _).append_right _
    exact subperm_member hfield.subperm (recorded_subperm_members rest)
  | .property _ :: rest | .method _ :: rest | .constructor _ :: rest =>
    subperm_member (.refl _) (recorded_subperm_members rest)

end

theorem flatMap_subperm {α β : Type} {f g : α → List β} {as : List α}
    (h : ∀ a ∈ as, (f a).Subperm (g a)) : (as.flatMap f).Subperm (as.flatMap g) := by
  induction as with
  | nil => exact .refl _
  | cons a as ih =>
    rw [List.flatMap_cons, List.flatMap_cons]
    exact (h a (.head _)).append (ih fun b hb => h b (.tail _ hb))

/-- The nodes of a source that are bound at some time: initial values of constants, attributes of
the assembly and bodies of types. -/
def Source.recordedNodes (s : Source) : List SyntaxNode :=
  s.root.allTypes.flatMap TypeDecl.constNodes ++
    (nodesOfAttributes s.root.attributes ++ s.root.allTypes.flatMap TypeDecl.boundNodes)

/-- What is bound of a source is different nodes of it. -/
theorem Source.recordedNodes_subperm (s : Source) : s.recordedNodes.Subperm s.root.nodes := by
  have htypes : (s.root.allTypes.flatMap TypeDecl.constNodes ++
      s.root.allTypes.flatMap TypeDecl.boundNodes).Perm
        (s.root.allTypes.flatMap TypeDecl.recordedNodes) :=
    (List.flatMap_append_perm _ _ _).trans
      (List.Perm.flatMap_left _ fun t _ => t.recordedNodes_perm)
  have hnodes : (s.root.allTypes.flatMap TypeDecl.recordedNodes).Subperm
      (s.root.types.flatMap TypeDecl.nodes) := by
    rw [CompilationUnit.allTypes, List.flatMap_assoc]
    exact flatMap_subperm fun t _ => t.recorded_subperm
  rw [recordedNodes, CompilationUnit.nodes, ← List.append_assoc]
  refine (List.perm_append_comm.append_right _).subperm.trans ?_
  rw [List.append_assoc]
  exact List.Subperm.append (.refl _) (htypes.subperm.trans hnodes)

/-- The initial values of constant fields are among it. -/
theorem Source.nodes_subset_of_mem_constFields {s : Source} {type : TypeDecl}
    (htype : type ∈ s.root.allTypes) {decl : FieldDecl} (hdecl : decl ∈ type.constFields)
    {init : Expr} (hinit : decl.init = some init) : init.nodes ⊆ s.root.nodes := by
  refine fun n hn => s.recordedNodes_subperm.subset (List.mem_append_left _ ?_)
  refine List.mem_flatMap.2 ⟨type, htype, List.mem_flatMap.2 ⟨decl, hdecl, ?_⟩⟩
  rwa [hinit, nodesOfOption]

theorem Scope.refs_subperm {scope : Scope} {ns ns' : List SyntaxNode} (h : ns.Subperm ns') :
    (scope.refs ns).Subperm (scope.refs ns') := by
  obtain ⟨ms, hperm, hsublist⟩ := h
  exact ⟨scope.refs ms, hperm.map _, hsublist.map _⟩

/-! ## The sources of a project -/

/-- A file as a source of declarations. -/
def SyntaxTree.source (t : SyntaxTree) : Source := ⟨some t.file, t.root⟩

namespace Project

/-- The sources that a project is bound from. -/
def sources (p : Project) : List Source := frameworkSource :: p.trees.map SyntaxTree.source

/-- The identities of the nodes of a source that are bound at some time. -/
def recordedRefs (p : Project) : List NodeRef :=
  p.sources.flatMap fun s => s.scope.refs s.recordedNodes

variable {p : Project} {n : NodeRef}

theorem IsExpr.isSome_file (h : p.IsExpr n) : n.file.isSome = true := by
  obtain ⟨e, ⟨t, -, hfile, -⟩, -⟩ := h
  rw [hfile, Option.isSome_some]

theorem count_framework (hn : n.file.isSome = true) (ns : List SyntaxNode) :
    (frameworkSource.scope.refs ns).count n = 0 := by
  refine List.count_eq_zero.2 fun hmem => ?_
  obtain ⟨x, -, rfl⟩ := List.mem_map.1 hmem
  cases hn

theorem IsRead.nodup_refs (hp : p.IsRead) :
    (p.trees.flatMap fun t => t.source.scope.refs t.root.nodes).Nodup := by
  rw [List.nodup_flatMap]
  refine ⟨fun t ht => ?_, List.pairwise_iff_getElem.2 fun i j hi hj hlt => ?_⟩
  · obtain ⟨text, htext⟩ := hp.parse t ht
    obtain ⟨next, hnumbered⟩ := SyntaxTree.numbered_of_parse htext
    have hrefs : t.source.scope.refs t.root.nodes =
        (t.root.nodes.map fun n => n.node.id).map (NodeRef.mk (some t.file)) := by
      rw [List.map_map]
      rfl
    rw [hrefs]
    exact hnumbered.nodup.map fun _ _ h => (NodeRef.mk.inj h).2
  · -- nodes of two files
    intro n hn hn'
    obtain ⟨x, -, rfl⟩ := List.mem_map.1 hn
    obtain ⟨y, -, hy⟩ := List.mem_map.1 hn'
    have hfile : p.trees[j].file = p.trees[i].file := Option.some.inj (NodeRef.mk.inj hy).1
    rw [hp.file (List.getElem?_eq_getElem hi), hp.file (List.getElem?_eq_getElem hj)] at hfile
    exact absurd hfile (Nat.ne_of_gt hlt)

/-- Every node of a file is bound at most once. -/
theorem IsRead.count_recordedRefs_le (hp : p.IsRead) (hn : n.file.isSome = true) :
    p.recordedRefs.count n ≤ 1 := by
  have hnodes (t : SyntaxTree) : (t.source.scope.refs t.source.recordedNodes).Subperm
      (t.source.scope.refs t.root.nodes) := Scope.refs_subperm t.source.recordedNodes_subperm
  rw [recordedRefs, sources, List.flatMap_cons, List.count_append, count_framework hn, Nat.zero_add,
    List.flatMap_map]
  exact ((flatMap_subperm fun t _ => hnodes t).count_le n).trans
    (List.nodup_iff_count_le_one.1 hp.nodup_refs n)

end Project

/-! ## What is bound after the members -/

variable {sources : List Source}

/-- What is bound after the constant fields have been evaluated. -/
def bindBodies (sources : List Source) : Binder Unit := do
  (sources.filter fun s => s.file.isSome).forM bindAssembly
  ((typesDeclared sources).1.filter fun d => d.source.file.isSome).forM bindTypeBody

/-- What is bound after all members have been declared. -/
def bindContents (sources : List Source) : Binder Unit := do
  (membersDeclared sources).1.forM bindConstField
  bindBodies sources

theorem bindBodies_run (sources : List Source) :
    ((bindBodies sources).run (constantsBound sources)).2 = ((bindSources sources).run {}).2 := rfl

theorem bindContents_run (sources : List Source) :
    ((bindContents sources).run (membersDeclared sources).2).2 =
      ((bindSources sources).run {}).2 := rfl

/-- The types of all sources are declared. -/
theorem flatMap_typesDeclared {α : Type} (sources : List Source) (f : Source → TypeDecl → List α) :
    ((typesDeclared sources).1.flatMap fun d => f d.source d.decl) =
      sources.flatMap fun s => s.root.allTypes.flatMap (f s) := by
  obtain ⟨-, hdeclared⟩ := typesDeclared_leads sources
  have h := congrArg (List.flatMap fun x : Source × TypeDecl => f x.1 x.2) hdeclared.decls
  rw [List.flatMap_map, List.flatMap_assoc] at h
  simpa only [List.flatMap_map] using h

/-- The declared types are all types of the sources. -/
theorem exists_typesDeclared_iff {s : Source} {t : TypeDecl} :
    (∃ d ∈ (typesDeclared sources).1, d.source = s ∧ d.decl = t) ↔
      s ∈ sources ∧ t ∈ s.root.allTypes := by
  obtain ⟨-, hdeclared⟩ := typesDeclared_leads sources
  have hmem : (s, t) ∈ ((typesDeclared sources).1.map fun d => (d.source, d.decl)) ↔
      (s, t) ∈ sources.flatMap fun s => s.root.allTypes.map (Prod.mk s) := by
    rw [hdeclared.decls]
  simpa using hmem

theorem flatMap_eq_of_forall₂ {α β γ : Type} {R : α → β → Prop} {f : α → List γ} {g : β → List γ}
    {as : List α} {bs : List β} (h : List.Forall₂ R as bs) (hfg : ∀ a b, R a b → f a = g b) :
    as.flatMap f = bs.flatMap g := by
  induction h with
  | nil => rfl
  | cons hR _ ih => rw [List.flatMap_cons, List.flatMap_cons, hfg _ _ hR, ih]

/-- The constant fields of all types are left to be evaluated. -/
theorem flatMap_constFields (sources : List Source) :
    ((membersDeclared sources).1.flatMap fun f => f.scope.refs f.init.nodes) =
      (typesDeclared sources).1.flatMap fun d => d.source.scope.refs d.decl.constNodes := by
  obtain ⟨-, hfields⟩ := membersDeclared_leads Set.univ sources fun d _ => d.coveredIn_univ
  have hinit (x : DeclaredType × FieldDecl) (f : ConstField)
      (hfor : ConstField.For (membersDeclared sources).2.comp x.1 x.2 f) :
      x.1.scope.refs (nodesOfOption Expr.nodes x.2.init) = f.scope.refs f.init.nodes := by
    rw [hfor.scope, hfor.init]
    rfl
  rw [← flatMap_eq_of_forall₂ hfields hinit, List.flatMap_assoc]
  congr 1
  funext d
  rw [List.flatMap_map, TypeDecl.constNodes, Scope.refs_flatMap]
  rfl

/-- The identities of the nodes that are bound after the constant fields. -/
def bodyRefs (sources : List Source) : List NodeRef :=
  ((sources.filter fun s => s.file.isSome).flatMap fun s =>
      s.scope.refs (nodesOfAttributes s.root.attributes)) ++
    ((typesDeclared sources).1.filter fun d => d.source.file.isSome).flatMap fun d =>
      d.scope.refs d.decl.boundNodes

/-- The identities of the nodes that are bound after the members. -/
def boundRefs (sources : List Source) : List NodeRef :=
  ((membersDeclared sources).1.flatMap fun f => f.scope.refs f.init.nodes) ++ bodyRefs sources

theorem boundRefs_subperm (sources : List Source) :
    (boundRefs sources).Subperm (sources.flatMap fun s => s.scope.refs s.recordedNodes) := by
  have hconsts : ((membersDeclared sources).1.flatMap fun f => f.scope.refs f.init.nodes) =
      sources.flatMap fun s => s.scope.refs (s.root.allTypes.flatMap TypeDecl.constNodes) := by
    rw [flatMap_constFields, flatMap_typesDeclared sources fun s t => s.scope.refs t.constNodes]
    simp only [Scope.refs_flatMap]
  have hattributes : ((sources.filter fun s => s.file.isSome).flatMap fun s =>
      s.scope.refs (nodesOfAttributes s.root.attributes)).Subperm
        (sources.flatMap fun s => s.scope.refs (nodesOfAttributes s.root.attributes)) :=
    (List.filter_sublist.flatMap _).subperm
  have hbodies : (((typesDeclared sources).1.filter fun d => d.source.file.isSome).flatMap fun d =>
      d.scope.refs d.decl.boundNodes).Subperm
        (sources.flatMap fun s => s.scope.refs (s.root.allTypes.flatMap TypeDecl.boundNodes)) := by
    have h := flatMap_typesDeclared sources fun s t => s.scope.refs t.boundNodes
    simp only [← Scope.refs_flatMap] at h
    rw [← h]
    exact (List.filter_sublist.flatMap _).subperm
  -- all three of one source after the other
  have hall := ((List.flatMap_append_perm sources
    (fun s => s.scope.refs (nodesOfAttributes s.root.attributes))
    fun s => s.scope.refs (s.root.allTypes.flatMap TypeDecl.boundNodes)).append_left _).trans
      (List.flatMap_append_perm sources
        (fun s => s.scope.refs (s.root.allTypes.flatMap TypeDecl.constNodes)) _)
  simp only [Source.recordedNodes, Scope.refs_append]
  rw [boundRefs, bodyRefs, hconsts]
  exact (List.Subperm.append (.refl _) (hattributes.append hbodies)).trans hall.subperm

namespace Project

/-- No node of a file is bound twice. -/
theorem IsRead.count_boundRefs_le {p : Project} {n : NodeRef} (hp : p.IsRead)
    (hn : n.file.isSome = true) : (boundRefs p.sources).count n ≤ 1 :=
  ((boundRefs_subperm p.sources).count_le n).trans (hp.count_recordedRefs_le hn)

end Project

end PropertyLint
