/-
# Declarations and symbols

Each declaration of a type or a member declares a symbol, and the symbol leads back to it: the
symbol of a member that is no type is declared at that member, and the symbol of a type at the first
of the declarations that have been merged into it (`Project.declarations_inverse`).
-/
import PropertyLint.Proofs.Binding.BoundBodies
import PropertyLint.Proofs.Binding.DeclaredNodes
import PropertyLint.Proofs.Binding.MergedTypes

namespace PropertyLint

open Binder

variable {p : Project} {m : Model} {t : SyntaxTree} {d d' : DeclaredType} {n : NodeRef}
  {id : SymbolId} {sources : List Source}

/-! ## Declarations of types -/

theorem flatMap_sublist {α β : Type} {f g : α → List β} (as : List α)
    (h : ∀ a ∈ as, (f a).Sublist (g a)) : (as.flatMap f).Sublist (as.flatMap g) := by
  induction as with
  | nil => exact .slnil
  | cons a as ih =>
    rw [List.flatMap_cons, List.flatMap_cons]
    exact (h a (.head _)).append (ih fun b hb => h b (.tail _ hb))

mutual

/-- The types of a file are different nodes of it. -/
theorem TypeDecl.withNested_sublist : ∀ d : TypeDecl,
    (d.withNested.map fun d => SyntaxNode.member (.type d)).Sublist d.nodes
  | .mk header members => by
    rw [TypeDecl.withNested, List.map_cons, TypeDecl.nodes]
    exact ((nestedIn_sublist members).trans (List.sublist_append_right _ _)).cons_cons _

theorem nestedIn_sublist : ∀ members : List Member,
    ((nestedIn members).map fun d => SyntaxNode.member (.type d)).Sublist (nodesOfMembers members)
  | [] => .slnil
  | .type d :: rest => by
    rw [nestedIn, List.map_append, nodesOfMembers]
    exact d.withNested_sublist.append (nestedIn_sublist rest)
  | .field _ :: rest | .property _ :: rest | .method _ :: rest | .constructor _ :: rest => by
    rw [nestedIn, nodesOfMembers]
    exact ((nestedIn_sublist rest).trans (List.sublist_append_right _ _)).cons _

end

theorem CompilationUnit.allTypes_sublist (u : CompilationUnit) :
    (u.allTypes.map fun d => SyntaxNode.member (.type d)).Sublist u.nodes := by
  rw [CompilationUnit.allTypes, List.map_flatMap, CompilationUnit.nodes]
  exact (flatMap_sublist u.types fun d _ => d.withNested_sublist).trans
    (List.sublist_append_right _ _)

/-- The first type stands in front of the second one, or it is a type around it. -/
def TypeDecl.Leads (d e : TypeDecl) : Prop :=
  d.range.stop ≤ e.range.start ∨ e ∈ nestedIn d.members

/-- Types that stand one behind the other, with the types nested in them. -/
theorem pairwise_flatMap_withNested {cs : List Char} {ds : List TypeDecl}
    (hnested : ∀ d ∈ ds, (Part.member (.type d)).WellNested cs)
    (hordered : (ds.map fun d => Part.member (.type d)).Pairwise Part.Before)
    (h : ∀ d ∈ ds, d.withNested.Pairwise TypeDecl.Leads) :
    (ds.flatMap TypeDecl.withNested).Pairwise TypeDecl.Leads := by
  rw [List.pairwise_map] at hordered
  refine List.pairwise_flatMap.2 ⟨h, hordered.imp_of_mem fun {d d'} hd hd' hbefore e he f hf => .inl ?_⟩
  have hfirst := (hnested d hd).le_of_has (TypeDecl.has_of_mem_withNested (hnested d hd) he)
  have hsecond := (hnested d' hd').le_of_has (TypeDecl.has_of_mem_withNested (hnested d' hd') hf)
  unfold Part.Before OffsetRange.Precedes at hbefore
  change d.range.start ≤ e.range.start ∧ e.range.stop ≤ d.range.stop at hfirst
  change d'.range.start ≤ f.range.start ∧ f.range.stop ≤ d'.range.stop at hsecond
  change d.range.stop ≤ d'.range.start at hbefore
  omega

theorem TypeDecl.withNested_leads {cs : List Char} {d : TypeDecl}
    (h : (Part.member (.type d)).WellNested cs) : d.withNested.Pairwise TypeDecl.Leads := by
  generalize hroot : Part.member (.type d) = root at h
  induction h generalizing d with
  | @mk root hfits hparts ih =>
    subst hroot
    have hnested : nestedIn d.members = d.nestedTypes.flatMap withNested :=
      (List.cons.inj (d.withNested_eq_cons.symm.trans d.withNested_eq)).2
    rw [withNested_eq_cons, List.pairwise_cons]
    refine ⟨fun e he => .inr he, ?_⟩
    rw [hnested]
    exact pairwise_flatMap_withNested (fun e he => hparts _ (type_mem_parts he))
      (hfits.ordered.sublist d.nestedTypes_sublist) fun e he => ih _ (type_mem_parts he) rfl

/-- Of two types of a file the first one stands in front of the second one or around it. -/
theorem SyntaxTree.types_leads {file : FileId} {text : String} (h : parse file text = .ok t) :
    t.types.Pairwise TypeDecl.Leads := by
  obtain ⟨ps, hnested, hordered, -, htypes⟩ := exists_parts_of_parse h
  have hnested (d : TypeDecl) (hd : d ∈ t.root.types) :
      (Part.member (.type d)).WellNested text.toList :=
    hnested _ (htypes.subset (List.mem_map.2 ⟨d, hd, rfl⟩))
  exact pairwise_flatMap_withNested hnested (hordered.sublist htypes)
    fun d hd => TypeDecl.withNested_leads (hnested d hd)

/-- The types of a file are in the order in which they start. -/
theorem SyntaxTree.types_ordered {file : FileId} {text : String} (h : parse file text = .ok t) :
    t.types.Pairwise fun d e => d.range.start ≤ e.range.start := by
  refine (types_leads h).imp_of_mem fun {d e} hd _ hleads => ?_
  have hnested := wellNested_of_mem_types h hd
  rcases hleads with hbefore | hinside
  · have hne : d.range.start < d.range.stop := hnested.fits.nonempty
    exact Nat.le_trans (Nat.le_of_lt hne) hbefore
  · have hmem : e ∈ d.withNested := by
      rw [TypeDecl.withNested_eq_cons]
      exact .tail _ hinside
    exact (hnested.le_of_has (TypeDecl.has_of_mem_withNested hnested hmem)).1

/-- What is said of the declared types in a project's order. -/
theorem filterMap_typesDeclared {α : Type} (sources : List Source)
    (f : Source → TypeDecl → Option α) :
    ((typesDeclared sources).1.filterMap fun d => f d.source d.decl) =
      sources.flatMap fun s => s.root.allTypes.filterMap (f s) := by
  have h := flatMap_typesDeclared sources fun s decl => (f s decl).toList
  simpa only [List.filterMap_eq_flatMap_toList] using h

/-- Only the types of files are left. -/
theorem Project.filterMap_typesDeclared {α : Type} (p : Project) (f : Source → TypeDecl → Option α)
    (hf : ∀ decl, f frameworkSource decl = none) :
    ((typesDeclared p.sources).1.filterMap fun d => f d.source d.decl) =
      p.trees.flatMap fun t => t.types.filterMap (f t.source) := by
  rw [PropertyLint.filterMap_typesDeclared, Project.sources, List.flatMap_cons, List.flatMap_map]
  have hframework : frameworkSource.root.allTypes.filterMap (f frameworkSource) = [] :=
    List.filterMap_eq_nil_iff.2 fun decl _ => hf decl
  rw [hframework, List.nil_append]
  rfl

namespace Project

/-- No two declarations of types in files have the same node. -/
theorem IsRead.nodup_typeRefs (hp : p.IsRead) :
    (((typesDeclared p.sources).1.filter fun d => d.source.file.isSome).map
      DeclaredType.ref).Nodup := by
  have hfiles := p.filterMap_typesDeclared
    (fun s decl => if s.file.isSome then some (⟨s.file, decl.id⟩ : NodeRef) else none) fun _ => rfl
  have hrefs : ((typesDeclared p.sources).1.filter fun d => d.source.file.isSome).map
      DeclaredType.ref = p.trees.flatMap fun t => t.types.map fun decl =>
        ⟨some t.file, decl.id⟩ := by
    rw [← List.filterMap_eq_map, List.filterMap_filter]
    refine hfiles.trans ?_
    simp only [← List.filterMap_eq_map]
    rfl
  rw [hrefs]
  refine hp.nodup_refs.sublist (flatMap_sublist p.trees fun t _ => ?_)
  have htypes := t.root.allTypes_sublist.map fun x => (⟨some t.file, x.node.id⟩ : NodeRef)
  rwa [List.map_map] at htypes

/-- What is recorded for the declaration of a type is its symbol. -/
theorem IsRead.symbol_unique (hp : p.IsRead) (hd : d ∈ (typesDeclared p.sources).1)
    (hd' : d' ∈ (typesDeclared p.sources).1) (hfile : d.source.file.isSome = true)
    (href : d'.ref = d.ref) : d' = d := by
  have hfile' : d'.source.file.isSome = true := by
    rw [← hfile]
    exact congrArg (fun n : NodeRef => n.file.isSome) href
  exact List.inj_on_of_nodup_map hp.nodup_typeRefs (List.mem_filter.2 ⟨hd', hfile'⟩)
    (List.mem_filter.2 ⟨hd, hfile⟩) href

/-! ## What has been declared -/

theorem exists_lookup_of_mem {α β : Type} [BEq α] [LawfulBEq α] {table : List (α × β)} {a : α}
    {b : β} (h : (a, b) ∈ table) : ∃ b', table.lookup a = some b' := by
  cases hlookup : table.lookup a with
  | some b' => exact ⟨b', rfl⟩
  | none => exact absurd (List.lookup_eq_none_iff.1 hlookup _ h) (by simp)

theorem IsRead.avoids (hp : p.IsRead) (hd : d ∈ (typesDeclared p.sources).1) :
    d.scope.Avoids p.typeRefs d.decl.nodes := by
  intro x hx hno
  obtain ⟨hsource, hdecl⟩ := exists_typesDeclared_iff.1 ⟨d, hd, rfl, rfl⟩
  rcases mem_sources hsource with hsource | ⟨t, ht, hsource⟩
  · have hfile : d.scope.file = none := congrArg Source.file hsource
    rintro ⟨t, -, hsome, -⟩
    rw [hfile] at hsome
    cases hsome
  · have hfile : d.scope.file = some t.file := congrArg Source.file hsource
    obtain ⟨text, htext⟩ := hp.parse t ht
    rw [hsource] at hdecl
    rw [hfile]
    exact hp.not_mem_typeRefs ht (SyntaxTree.nodes_subset htext hdecl hx) hno

/-- The nodes of the members that are no types. -/
def memberRefs (p : Project) : List NodeRef :=
  (typesDeclared p.sources).1.flatMap fun d => d.decl.members.flatMap d.refsOf

/-- When the members have been declared, no type and no member comes to declare anything. -/
theorem IsBound.declares_later (hp : p.IsBound) : (membersDeclared p.sources).2.Declares
    p.declarationRefs [] (p.stage p.constFields.length) := by
  have hrest := hp.bound.declared
  rwa [evaluated_zero] at hrest

/-- When the types have been declared, the other members come to declare something. -/
theorem IsBound.declares (hp : p.IsBound) : (typesDeclared p.sources).2.Declares p.typeRefs
    p.memberRefs (p.stage p.constFields.length) := by
  have hmembers : (typesDeclared p.sources).2.Declares p.typeRefs p.memberRefs
      (membersDeclared p.sources).2 :=
    declareAll_declares (fun d hd => hp.avoids hd) _
  rw [← p.memberRefs.append_nil]
  exact hmembers.trans (hp.declares_later.anti p.typeRefs_subset)

theorem typesDeclared_merges (p : Project) :
    BindState.Merges (typesDeclared p.sources).1 {} (typesDeclared p.sources).2 :=
  declareTypes_merges p.sources .empty

/-- Types first, and then what is declared where it is. -/
theorem IsBound.facts_declared (hp : p.IsBound) : ∃ new, p.facts.declared =
      new ++ ((typesDeclared p.sources).1.map fun d => (d.ref, d.symbol)).reverse ∧
    (∀ n ∈ p.memberRefs, ∃ id, (n, id) ∈ new) ∧
    ∀ r ∈ new, r.1 ∉ p.typeRefs ∧ (r.1.file.isSome = true → p.comp.DeclaredAt r.1 r.2) := by
  obtain ⟨new, hnew, hmembers, hat⟩ := hp.declares.declared
  have htypes := p.typesDeclared_merges.declared
  rw [List.append_nil] at htypes
  refine ⟨new, ?_, hmembers, fun r hr => (hat r hr).imp_right fun hdeclared hfile => ?_⟩
  · rw [hp.facts_eq_stage (Nat.le_refl _), hnew, htypes]
  · rw [hp.comp_eq_stage (Nat.le_refl _)]
    exact (hdeclared hfile).mono (Compilation.le_withKnown _)

/-- A type that is declared in a file is one of the types of that file. -/
theorem exists_tree_of_typesDeclared (hd : d ∈ (typesDeclared p.sources).1) {file : FileId}
    (hfile : d.source.file = some file) :
    ∃ t ∈ p.trees, t.file = file ∧ d.decl ∈ t.types := by
  obtain ⟨hsource, hdecl⟩ := exists_typesDeclared_iff.1 ⟨d, hd, rfl, rfl⟩
  rcases mem_sources hsource with hframework | ⟨t, ht, hsource⟩
  · rw [hframework] at hfile
    cases hfile
  · rw [hsource] at hfile hdecl
    exact ⟨t, ht, Option.some.inj hfile, hdecl⟩

theorem IsRead.ref_mem_typeRefs (hp : p.IsRead) (hd : d ∈ (typesDeclared p.sources).1)
    (hfile : d.source.file.isSome = true) : d.ref ∈ p.typeRefs := by
  obtain ⟨file, hfile⟩ := Option.isSome_iff_exists.1 hfile
  obtain ⟨t, ht, rfl, hdecl⟩ := exists_tree_of_typesDeclared hd hfile
  obtain ⟨text, htext⟩ := hp.parse t ht
  exact ⟨t, ht, hfile, d.decl, (SyntaxTree.member_mem_nodes_iff htext).2
    (List.mem_flatMap.2 ⟨_, hdecl, .head _⟩), rfl⟩

/-- The declaration of a type declares the symbol that it has been merged into. -/
theorem IsBound.declared?_type (hp : p.IsBound) (hd : d ∈ (typesDeclared p.sources).1)
    (hfile : d.source.file.isSome = true) : p.facts.declared? d.ref = some d.symbol := by
  obtain ⟨new, hnew, -, hat⟩ := hp.facts_declared
  have hmem : (d.ref, d.symbol) ∈ p.facts.declared := by
    rw [hnew]
    exact List.mem_append_right _ (List.mem_reverse.2 (List.mem_map_of_mem hd))
  obtain ⟨id, hid⟩ := exists_lookup_of_mem hmem
  have hmem' := mem_of_lookup hid
  rw [hnew, List.mem_append] at hmem'
  rcases hmem' with hlater | htypes
  · exact absurd (hp.ref_mem_typeRefs hd hfile) (hat _ hlater).1
  · obtain ⟨d', hd', heq⟩ := List.mem_map.1 (List.mem_reverse.1 htypes)
    obtain ⟨href, rfl⟩ := Prod.mk.inj heq
    rw [Facts.declared?, hid, hp.symbol_unique hd hd' hfile href]

/-- The declaration of another member declares a symbol that is declared there. -/
theorem IsBound.declared?_member (hp : p.IsBound) (ht : t ∈ p.trees) {m : Member}
    (hm : .member m ∈ t.root.nodes) (htype : m.isType = false) :
    ∃ id, p.facts.declared? ⟨some t.file, m.id⟩ = some id ∧
      p.comp.DeclaredAt ⟨some t.file, m.id⟩ id := by
  obtain ⟨text, htext⟩ := hp.parse t ht
  obtain ⟨decl, hdecl, hown⟩ := List.mem_flatMap.1 ((SyntaxTree.member_mem_nodes_iff htext).1 hm)
  have hown : m ∈ decl.members := by
    rcases List.mem_cons.1 hown with rfl | hown
    · cases htype
    · exact (List.mem_filter.1 hown).1
  have hsource : t.source ∈ p.sources := .tail _ (List.mem_map_of_mem ht)
  obtain ⟨d, hd, hdsource, rfl⟩ := exists_typesDeclared_iff.2 ⟨hsource, hdecl⟩
  have hno : ⟨some t.file, m.id⟩ ∉ p.typeRefs := hp.not_mem_typeRefs ht hm fun decl heq => by
    rw [SyntaxNode.member.inj heq] at htype
    cases htype
  have hmember : ⟨some t.file, m.id⟩ ∈ p.memberRefs := by
    refine List.mem_flatMap.2 ⟨d, hd, List.mem_flatMap.2 ⟨m, hown, ?_⟩⟩
    have hfile : d.scope.file = some t.file := congrArg Source.file hdsource
    rw [DeclaredType.refsOf, htype, hfile]
    exact .head _
  obtain ⟨new, hnew, hmembers, hat⟩ := hp.facts_declared
  obtain ⟨id, hid⟩ := hmembers _ hmember
  have hmem : (⟨some t.file, m.id⟩, id) ∈ p.facts.declared := by
    rw [hnew]
    exact List.mem_append_left _ hid
  obtain ⟨id', hid'⟩ := exists_lookup_of_mem hmem
  have hmem' := mem_of_lookup hid'
  rw [hnew, List.mem_append] at hmem'
  rcases hmem' with hlater | htypes
  · exact ⟨id', hid', (hat _ hlater).2 rfl⟩
  · obtain ⟨d', hd', heq⟩ := List.mem_map.1 (List.mem_reverse.1 htypes)
    obtain ⟨href, -⟩ := Prod.mk.inj heq
    have hfile : d'.source.file.isSome = true :=
      congrArg (fun n : NodeRef => n.file.isSome) href
    exact absurd (href ▸ hp.ref_mem_typeRefs hd' hfile) hno

/-! ## Back to the declarations -/

/-- The declarations of types in the files, in their order. -/
def typeDecls (p : Project) : List FoundDeclaration :=
  p.trees.flatMap fun t => t.types.map fun decl => ⟨t, .type decl⟩

/-- The declarations of types that have been merged into a symbol, in their order. -/
def partsOf (p : Project) (id : SymbolId) : List FoundDeclaration :=
  p.typeDecls.filter fun f => p.facts.declared? ⟨some f.tree.file, f.member.id⟩ = some id

/-- The place of a declaration in a file. -/
def foundAt (f : FoundDeclaration) : SourceRef :=
  ⟨f.tree.file, f.member.id, f.member.header.node.range⟩

/-- The place of a declaration of a type that has been merged into a symbol. -/
def partPlace? (p : Project) (id : SymbolId) (s : Source) (decl : TypeDecl) : Option SourceRef :=
  if p.facts.declared? ⟨s.file, decl.id⟩ = some id then s.scope.sourceRef decl.header.node else none

theorem IsBound.places_typesDeclared (hp : p.IsBound) (id : SymbolId) :
    (typesDeclared p.sources).2.comp.places id =
      (typesDeclared p.sources).1.filterMap fun d => p.partPlace? id d.source d.decl := by
  have hempty : ({} : BindState).comp.places id = [] := by
    rw [Compilation.places, Compilation.type?, Compilation.symbol?]
    rfl
  rw [p.typesDeclared_merges.places, hempty, List.nil_append, List.filterMap_filter]
  refine List.filterMap_congr fun d hd => ?_
  by_cases hfile : d.source.file.isSome = true
  · have hsymbol : p.facts.declared? ⟨d.source.file, d.decl.id⟩ = some d.symbol :=
      hp.declared?_type hd hfile
    rw [partPlace?, hsymbol]
    simp only [decide_eq_true_eq, Option.some_inj]
    rfl
  · -- the framework is no file
    have hnone : d.source.scope.sourceRef d.decl.header.node = none := by
      rw [Scope.sourceRef, Source.scope, Option.not_isSome_iff_eq_none.1 hfile, Option.map_none]
    have hplace : d.place? = none := hnone
    rw [partPlace?, hnone, hplace, ite_self, ite_self]

theorem flatMap_partPlace? (p : Project) (id : SymbolId) :
    (p.trees.flatMap fun t => t.types.filterMap (p.partPlace? id t.source)) =
      (p.partsOf id).map foundAt := by
  rw [partsOf, typeDecls, List.filter_flatMap, List.map_flatMap]
  congr 1
  funext t
  rw [← List.filterMap_eq_map, List.filterMap_filter, List.filterMap_map]
  refine List.filterMap_congr fun decl _ => ?_
  simp only [decide_eq_true_eq, Function.comp_apply]
  rfl

/-- The places of a type are those of the declarations that have been merged into it. -/
theorem IsBound.places (hp : p.IsBound) (hd : d ∈ (typesDeclared p.sources).1) :
    p.comp.places d.symbol = (p.partsOf d.symbol).map foundAt := by
  obtain ⟨-, htypes⟩ := typesDeclared_leads p.sources
  obtain ⟨t, ht⟩ := htypes.symbol d hd
  have ht : (typesDeclared p.sources).2.comp.type? d.symbol = some t := by
    rw [Compilation.type?, ht]
    rfl
  have hkeeps := hp.declares.comp.trans (Compilation.extends_withKnown _).keepsPlaces
  rw [← hp.comp_eq_stage (Nat.le_refl _)] at hkeeps
  obtain ⟨t', ht', hsame⟩ := hkeeps.type? ht
  have hframework (decl : TypeDecl) : p.partPlace? d.symbol frameworkSource decl = none := by
    rw [partPlace?]
    exact ite_self _
  rw [Compilation.places_eq ht', hsame, ← Compilation.places_eq ht, hp.places_typesDeclared,
    p.filterMap_typesDeclared _ hframework, flatMap_partPlace?]

/-- The first declaration stands in an earlier file, or in the same file and does not start behind
the second one. -/
def Precedes (f g : FoundDeclaration) : Prop :=
  f.tree.file < g.tree.file ∨
    f.tree.file = g.tree.file ∧ f.member.range.start ≤ g.member.range.start

theorem IsRead.typeDecls_ordered (hp : p.IsRead) : p.typeDecls.Pairwise Precedes := by
  refine List.pairwise_flatMap.2 ⟨fun t ht => ?_, List.pairwise_iff_getElem.2 ?_⟩
  · obtain ⟨text, htext⟩ := hp.parse t ht
    exact List.pairwise_map.2 ((SyntaxTree.types_ordered htext).imp fun hle => .inr ⟨rfl, hle⟩)
  · -- declarations in two files
    intro i j hi hj hlt f hf g hg
    obtain ⟨decl, -, rfl⟩ := List.mem_map.1 hf
    obtain ⟨decl', -, rfl⟩ := List.mem_map.1 hg
    have hfile := hp.file (List.getElem?_eq_getElem hi)
    have hfile' := hp.file (List.getElem?_eq_getElem hj)
    refine .inl ?_
    change p.trees[i].file < p.trees[j].file
    rwa [hfile, hfile']

/-- The first of the declarations that have been merged into a symbol. -/
theorem IsRead.precedes_of_head? (hp : p.IsRead) {first f : FoundDeclaration}
    (hfirst : (p.partsOf id).head? = some first) (hf : f ∈ p.partsOf id) :
    f = first ∨ Precedes first f := by
  have hordered : (p.partsOf id).Pairwise Precedes := hp.typeDecls_ordered.filter _
  obtain ⟨rest, hparts⟩ := List.head?_eq_some_iff.1 hfirst
  rw [hparts] at hordered hf
  exact (List.mem_cons.1 hf).imp_right fun hrest => (List.pairwise_cons.1 hordered).1 f hrest

/-- A symbol leads to the node that it is declared at. -/
theorem IsRead.declaration?_eq_some (hp : m.project.IsRead) {symbol : Symbol} {place : SourceRef}
    (hsymbol : m.comp.symbol? id = some symbol) (hplace : symbol.declaration? = some place)
    (ht : t ∈ m.project.trees) (hfile : place.file = t.file) {n : Member}
    (hn : .member n ∈ t.root.nodes) (hnode : place.node = n.id) :
    m.declaration? id = some ⟨t, n⟩ := by
  obtain ⟨text, htext⟩ := hp.parse t ht
  have hget := hp.getElem?_file ht
  have hfind := SyntaxTree.findDeclaration?_of_mem_nodes htext hn
  rw [← hfile] at hget
  rw [← hnode] at hfind
  simp [Model.declaration?, hsymbol, hplace, hget, hfind]

theorem mem_typeDecls {f : FoundDeclaration} :
    f ∈ p.typeDecls ↔ f.tree ∈ p.trees ∧ ∃ decl ∈ f.tree.types, f.member = .type decl := by
  constructor
  · intro hf
    obtain ⟨t, ht, hf⟩ := List.mem_flatMap.1 hf
    obtain ⟨decl, hdecl, rfl⟩ := List.mem_map.1 hf
    exact ⟨ht, decl, hdecl, rfl⟩
  · rintro ⟨ht, decl, hdecl, hmember⟩
    exact List.mem_flatMap.2 ⟨f.tree, ht, List.mem_map.2 ⟨decl, hdecl, by rw [← hmember]⟩⟩

theorem IsRead.mem_types_iff (hp : p.IsRead) (ht : t ∈ p.trees) {decl : TypeDecl} :
    decl ∈ t.types ↔ .member (.type decl) ∈ t.root.nodes := by
  obtain ⟨text, htext⟩ := hp.parse t ht
  rw [SyntaxTree.member_mem_nodes_iff htext]
  constructor
  · exact fun hdecl => List.mem_flatMap.2 ⟨decl, hdecl, .head _⟩
  · intro hdecl
    obtain ⟨outer, houter, hdecl⟩ := List.mem_flatMap.1 hdecl
    rwa [TypeDecl.type_mem_declarations hdecl]

/-- A member that is a type is a declaration of a type. -/
theorem exists_type_of_isType {n : Member} (h : n.isType = true) : ∃ decl, n = .type decl := by
  cases n with
  | type decl => exact ⟨decl, rfl⟩
  | _ => cases h

/-- A type leads to the first of the declarations that have been merged into it. -/
theorem IsBound.declaration?_type (hp : m.project.IsBound) (ht : t ∈ m.project.trees)
    {decl : TypeDecl} (hdecl : .member (.type decl) ∈ t.root.nodes) :
    ∃ id, m.project.facts.declared? ⟨some t.file, decl.id⟩ = some id ∧
      ⟨t, .type decl⟩ ∈ m.project.partsOf id ∧
      ∃ first, (m.project.partsOf id).head? = some first ∧ m.declaration? id = some first := by
  have htypes : decl ∈ t.types := (hp.mem_types_iff ht).2 hdecl
  have hsource : t.source ∈ m.project.sources := .tail _ (List.mem_map_of_mem ht)
  obtain ⟨d, hd, hdsource, rfl⟩ := exists_typesDeclared_iff.2 ⟨hsource, htypes⟩
  have hfile : d.source.file = some t.file := congrArg Source.file hdsource
  have hdeclared := hp.declared?_type hd (by rw [hfile]; rfl)
  rw [DeclaredType.ref, hfile] at hdeclared
  -- the declaration itself is one of those that have been merged
  have hself : ⟨t, .type d.decl⟩ ∈ m.project.partsOf d.symbol :=
    List.mem_filter.2 ⟨mem_typeDecls.2 ⟨ht, d.decl, htypes, rfl⟩, decide_eq_true hdeclared⟩
  have hplaces := hp.places hd
  refine ⟨d.symbol, hdeclared, hself, ?_⟩
  cases hparts : m.project.partsOf d.symbol with
  | nil =>
    rw [hparts] at hself
    cases hself
  | cons first rest =>
    have hfirst : first ∈ m.project.partsOf d.symbol := by
      rw [hparts]
      exact .head _
    obtain ⟨htree, decl, hmem, hmember⟩ := mem_typeDecls.1 (List.mem_filter.1 hfirst).1
    have hnode : .member first.member ∈ first.tree.root.nodes := by
      rw [hmember]
      exact (hp.mem_types_iff htree).1 hmem
    rw [hparts, List.map_cons] at hplaces
    obtain ⟨symbol, hsymbol, hsame⟩ := Compilation.exists_type_of_places hplaces
    have hplace : (Symbol.type symbol).declaration? = some (foundAt first) := by
      rw [Symbol.declaration?, hsame]
      rfl
    exact ⟨first, rfl, hp.declaration?_eq_some hsymbol hplace htree rfl hnode rfl⟩

/-- Another member is what its symbol leads to. -/
theorem IsBound.declaration?_member (hp : m.project.IsBound) (ht : t ∈ m.project.trees) {n : Member}
    (hn : .member n ∈ t.root.nodes) (htype : n.isType = false) :
    ∃ id, m.project.facts.declared? ⟨some t.file, n.id⟩ = some id ∧
      m.declaration? id = some ⟨t, n⟩ := by
  obtain ⟨id, hid, symbol, place, hsymbol, -, hplace, hnode⟩ := hp.declared?_member ht hn htype
  obtain ⟨hfile, hnode⟩ := NodeRef.mk.inj hnode
  exact ⟨id, hid, hp.declaration?_eq_some hsymbol hplace ht (Option.some.inj hfile).symm hn
    hnode.symm⟩

/-- No other declaration declares the symbol of such a member. -/
theorem IsBound.eq_of_declared? (hp : m.project.IsBound) {n : Member} (htype : n.isType = false)
    (hdeclaration : m.declaration? id = some ⟨t, n⟩) {t' : SyntaxTree} (ht' : t' ∈ m.project.trees)
    {n' : Member} (hn' : .member n' ∈ t'.root.nodes)
    (hid : m.project.facts.declared? ⟨some t'.file, n'.id⟩ = some id) : t' = t ∧ n' = n := by
  cases htype' : n'.isType with
  | false =>
    obtain ⟨id', hid', hfound⟩ := hp.declaration?_member ht' hn' htype'
    obtain rfl := Option.some.inj (hid.symm.trans hid')
    exact FoundDeclaration.mk.inj (Option.some.inj (hfound.symm.trans hdeclaration))
  | true =>
    -- a type does not lead to a member that is no type
    obtain ⟨decl, rfl⟩ := exists_type_of_isType htype'
    obtain ⟨id', hid', -, first, hfirst, hfound⟩ := hp.declaration?_type ht' hn'
    obtain rfl := Option.some.inj (hid.symm.trans hid')
    obtain rfl := Option.some.inj (hfound.symm.trans hdeclaration)
    have hmem := (List.mem_filter.1 (List.mem_of_mem_head? hfirst)).1
    obtain ⟨-, decl', -, rfl⟩ := mem_typeDecls.1 hmem
    cases htype

/-- **Declarations and symbols.**  In a project whose files have been read, each declaration of a
type, a field, a property, a method or a constructor declares a symbol.  The symbol of a type leads
to the first of the declarations that have been merged into it: they are in the order of the files
and, in a file, in the order in which they start.  The symbol of another member leads back to the
member, and no other declaration of any file declares it. -/
theorem declarations_inverse {files : List String} (hread : Project.read files = .ok p)
    {file : FileId} (hmodel : p.model? file = some m) {n : Member}
    (hn : .member n ∈ m.tree.root.nodes) :
    ∃ id, m.declared? n.id = some id ∧
      (n.isType = true → ⟨m.tree, n⟩ ∈ p.partsOf id ∧
        ∃ first, (p.partsOf id).head? = some first ∧ m.declaration? id = some first ∧
          ∀ f ∈ p.partsOf id, f = first ∨ Precedes first f) ∧
      (n.isType = false → m.declaration? id = some ⟨m.tree, n⟩ ∧
        ∀ (file' : FileId) (m' : Model) (n' : Member), p.model? file' = some m' →
          .member n' ∈ m'.tree.root.nodes → m'.declared? n'.id = some id →
            file' = file ∧ n' = n) := by
  have hp := isBound_of_read hread
  obtain ⟨t, hget, rfl⟩ := Option.map_eq_some_iff.1 hmodel
  have hbound : (Model.mk p t).project.IsBound := hp
  have ht := List.mem_of_getElem? hget
  cases htype : n.isType with
  | true =>
    obtain ⟨decl, rfl⟩ := exists_type_of_isType htype
    obtain ⟨id, hid, hself, first, hfirst, hfound⟩ := hbound.declaration?_type ht hn
    exact ⟨id, hid, fun _ => ⟨hself, first, hfirst, hfound, fun f hf =>
      hp.precedes_of_head? hfirst hf⟩, nofun⟩
  | false =>
    obtain ⟨id, hid, hdeclaration⟩ := hbound.declaration?_member ht hn htype
    refine ⟨id, hid, nofun, fun _ => ⟨hdeclaration, ?_⟩⟩
    intro file' m' n' hmodel' hn' hid'
    obtain ⟨t', hget', rfl⟩ := Option.map_eq_some_iff.1 hmodel'
    obtain ⟨rfl, rfl⟩ :=
      hbound.eq_of_declared? htype hdeclaration (List.mem_of_getElem? hget') hn' hid'
    exact ⟨(hp.file hget').symm.trans (hp.file hget), rfl⟩

/-- The two parts of a class, in two files. -/
def twoParts : List String :=
  ["partial class A \x7b \x7d", "partial class A \x7b int F; class B \x7b \x7d \x7d"]

/-- The class of the second file leads to the class of the first one, and the field of the second
file leads back to itself. -/
theorem declarations_inverse_twoParts : ∃ p m c n, Project.read twoParts = .ok p ∧
    p.model? 1 = some m ∧ .member c ∈ m.tree.root.nodes ∧ c.isType = true ∧
    .member n ∈ m.tree.root.nodes ∧ n.isType = false ∧
    (∃ id first, m.declared? c.id = some id ∧ ⟨m.tree, c⟩ ∈ p.partsOf id ∧
      m.declaration? id = some first ∧ first.tree.file = 0 ∧
        ∀ f ∈ p.partsOf id, f = first ∨ Precedes first f) ∧
    ∃ id, m.declared? n.id = some id ∧ m.declaration? id = some ⟨m.tree, n⟩ ∧
      ∀ (file' : FileId) (m' : Model) (n' : Member), p.model? file' = some m' →
        .member n' ∈ m'.tree.root.nodes → m'.declared? n'.id = some id →
          file' = 1 ∧ n' = n := by
  have hmerged : (Project.read twoParts).toOption.any (fun p =>
      (typesDeclared p.sources).1.any fun d => d.source.file == some 0 &&
        (typesDeclared p.sources).1.any fun d' => d'.source.file == some 1 &&
          d'.symbol == d.symbol && d'.decl.members.any fun n => !n.isType) = true := by
    decide +kernel
  obtain ⟨p, hread, hany⟩ := (Option.any_eq_true _ _).1 hmerged
  rw [toOption_eq_some_iff] at hread
  simp only [List.any_eq_true, Bool.and_eq_true, beq_iff_eq] at hany
  obtain ⟨d, hd, hfile, d', hd', ⟨hfile', hsame⟩, n, hn, htype⟩ := hany
  have hp := isBound_of_read hread
  obtain ⟨t, ht, htfile, hdecl⟩ := exists_tree_of_typesDeclared hd hfile
  obtain ⟨t', ht', htfile', hdecl'⟩ := exists_tree_of_typesDeclared hd' hfile'
  have hmodel : p.model? 1 = some ⟨p, t'⟩ := by rw [← htfile', model?, hp.getElem?_file ht']; rfl
  have hclass : .member (.type d'.decl) ∈ t'.root.nodes := (hp.mem_types_iff ht').1 hdecl'
  have hfield : .member n ∈ t'.root.nodes := by
    obtain ⟨text, htext⟩ := hp.parse t' ht'
    have hown : n ∈ d'.decl.ownMembers := List.mem_filter.2 ⟨hn, htype⟩
    exact (SyntaxTree.member_mem_nodes_iff htext).2 (List.mem_flatMap.2 ⟨_, hdecl', .tail _ hown⟩)
  obtain ⟨id, hid, hclasses, -⟩ := declarations_inverse hread hmodel hclass
  obtain ⟨hself, first, -, hfirst, hbefore⟩ := hclasses rfl
  obtain ⟨id', hid', -, hfields⟩ := declarations_inverse hread hmodel hfield
  have htype : n.isType = false := by simpa using htype
  refine ⟨p, ⟨p, t'⟩, _, n, hread, hmodel, hclass, rfl, hfield, htype,
    ⟨id, first, hid, hself, hfirst, ?_, hbefore⟩, id', hid', hfields htype⟩
  -- the class of the first file has been merged into the same symbol
  have hsymbol : p.facts.declared? ⟨some t.file, d.decl.id⟩ = some id := by
    have hsymbol := hp.declared?_type hd (by rw [hfile]; rfl)
    have hsymbol' := hp.declared?_type hd' (by rw [hfile']; rfl)
    rw [DeclaredType.ref, hfile', ← htfile', hsame, ← hsymbol, DeclaredType.ref, hfile,
      ← htfile] at hsymbol'
    exact hsymbol'.symm.trans hid
  have hpart : ⟨t, .type d.decl⟩ ∈ p.partsOf id :=
    List.mem_filter.2 ⟨mem_typeDecls.2 ⟨ht, d.decl, hdecl, rfl⟩, decide_eq_true hsymbol⟩
  rcases hbefore _ hpart with rfl | hlt | ⟨heq, -⟩
  · exact htfile
  · exact absurd (htfile ▸ hlt) (Nat.not_lt_zero _)
  · exact heq.trans htfile

end Project

end PropertyLint
