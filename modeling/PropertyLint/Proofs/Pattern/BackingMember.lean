/-
# The member that belongs to a key

The parts of a type in one file lie apart, since a type has a longer name than the types around it
(`Model.typeDeclarations_apart`).  So the members of the parts are gone through in the order in which
they start, and the one that is found for a key is the first of those that start with the dependency
property of the key (`Model.first_of_memberForKey?`).
-/
import PropertyLint.Pattern.BackingMember
import PropertyLint.Proofs.Binding.MemberSymbols
import PropertyLint.Proofs.Binding.TypeNames
import PropertyLint.Proofs.Lint.Member
import PropertyLint.Proofs.Pattern.Registration

namespace PropertyLint

namespace Model

variable {m : Model} {d : DeclaredType} {e f : TypeDecl} {type key : SymbolId} {r : Member}
  {backing : BackingMember}

/-! ## The parts of a type -/

section
variable (hp : m.project.IsBound) (ht : m.tree ∈ m.project.trees)
include hp ht

theorem exists_declaredType (he : e ∈ m.tree.types) : ∃ d ∈ (typesDeclared m.project.sources).1,
    d.source = m.tree.source ∧ d.decl = e ∧ m.declared? e.id = some d.symbol := by
  have hsource : m.tree.source ∈ m.project.sources := .tail _ (List.mem_map_of_mem ht)
  obtain ⟨d, hd, hdsource, rfl⟩ := exists_typesDeclared_iff.2 ⟨hsource, he⟩
  have hdeclared := hp.declared?_type hd (by rw [hdsource]; rfl)
  rw [DeclaredType.ref, hdsource] at hdeclared
  exact ⟨d, hd, hdsource, rfl, hdeclared⟩

/-- The declarations of a type in the file are those that have been merged into it. -/
theorem typeDeclarations_eq (hd : d ∈ (typesDeclared m.project.sources).1) :
    m.typeDeclarations d.symbol =
      m.tree.types.filter fun e => m.declared? e.id = some d.symbol := by
  obtain ⟨text, htext⟩ := hp.parse m.tree ht
  change (m.project.comp.places d.symbol).filterMap _ = _
  rw [hp.places hd, List.filterMap_map, Project.partsOf, Project.typeDecls, List.filter_flatMap,
    List.filterMap_flatMap, flatMap_eq_of_unique ht hp.nodup_trees]
  · rw [List.filter_map, List.filterMap_map]
    refine (List.filterMap_congr fun e he => ?_).trans List.filterMap_some
    have hnode := (hp.mem_types_iff ht).1 (List.mem_filter.1 he).1
    have hfind := SyntaxTree.findDeclaration?_of_mem_nodes htext hnode
    simp [Project.foundAt, hfind]
  · -- the declarations in other files are left out
    intro t ht' hne
    refine List.filterMap_eq_nil_iff.2 fun f hf => if_neg fun hfile => hne ?_
    obtain ⟨e, -, rfl⟩ := List.mem_map.1 (List.mem_filter.1 hf).1
    exact hp.tree_unique ht' ht hfile

/-- A type that is nested in another one has another symbol. -/
theorem declared?_ne_of_nested (he : e ∈ m.tree.types) (hf : f ∈ nestedIn e.members) :
    m.declared? f.id ≠ m.declared? e.id := by
  obtain ⟨d, hd, hsource, rfl, hdeclared⟩ := exists_declaredType hp ht he
  obtain ⟨d', hd', hsource', rfl, hne⟩ := exists_nested_of_mem hd hf
  have hdeclared' := hp.declared?_type hd' (by rw [hsource', hsource]; rfl)
  rw [DeclaredType.ref, hsource', hsource] at hdeclared'
  intro heq
  rw [hdeclared, declared?, nodeRef] at heq
  exact hne (Option.some.inj (hdeclared'.symm.trans heq))

/-- The parts of a type in the file stand one behind the other. -/
theorem typeDeclarations_apart (hd : d ∈ (typesDeclared m.project.sources).1) :
    (m.typeDeclarations d.symbol).Pairwise fun e f => e.range.stop ≤ f.range.start := by
  obtain ⟨text, htext⟩ := hp.parse m.tree ht
  rw [typeDeclarations_eq hp ht hd]
  refine ((SyntaxTree.types_leads htext).filter _).imp_of_mem fun {e f} he hf hleads => ?_
  obtain ⟨he, hesymbol⟩ := List.mem_filter.1 he
  obtain ⟨-, hfsymbol⟩ := List.mem_filter.1 hf
  refine hleads.resolve_right fun hnested => declared?_ne_of_nested hp ht he hnested ?_
  rw [of_decide_eq_true hesymbol, of_decide_eq_true hfsymbol]

/-- The members of the parts are in the order in which they start. -/
theorem membersInFile_ordered (hd : d ∈ (typesDeclared m.project.sources).1) :
    (m.membersInFile d.symbol).Pairwise fun r r' => r.range.start ≤ r'.range.start := by
  obtain ⟨text, htext⟩ := hp.parse m.tree ht
  have hnested {e : TypeDecl} (he : e ∈ m.typeDeclarations d.symbol) :
      (Part.member (.type e)).WellNested text.toList := by
    rw [typeDeclarations_eq hp ht hd] at he
    exact SyntaxTree.wellNested_of_mem_types htext (List.mem_filter.1 he).1
  have hmember {e : TypeDecl} (he : e ∈ m.typeDeclarations d.symbol) {r : Member}
      (hr : r ∈ e.ownMembers) : (Part.member (.type e)).Has (.member r) :=
    TypeDecl.has_of_mem_ownParts (TypeDecl.member_mem_ownParts hr)
  refine List.pairwise_flatMap.2 ⟨fun e he => ?_, ?_⟩
  · refine ((TypeDecl.members_precede (hnested he)).sublist List.filter_sublist).imp_of_mem
      fun {r r'} hr _ hprecedes => ?_
    have hne : r.range.start < r.range.stop := ((hnested he).of_has (hmember he hr)).fits.nonempty
    exact Nat.le_trans (Nat.le_of_lt hne) hprecedes
  · refine (typeDeclarations_apart hp ht hd).imp_of_mem fun {e f} he hf hapart r hr r' hr' => ?_
    have hne : r.range.start < r.range.stop := ((hnested he).of_has (hmember he hr)).fits.nonempty
    have hfirst := (hnested he).le_of_has (hmember he hr)
    have hsecond := (hnested hf).le_of_has (hmember hf hr')
    change e.range.start ≤ r.range.start ∧ r.range.stop ≤ e.range.stop at hfirst
    change f.range.start ≤ r'.range.start ∧ r'.range.stop ≤ f.range.stop at hsecond
    omega

end

/-! ## Keys -/

/-- The member starts, inside of parentheses, with `k.DependencyProperty` for the key. -/
def StartsWithKey (m : Model) (key : SymbolId) (r : Member) : Prop :=
  ∃ i target name, r.startValue?.map Expr.unparenthesized = some (.member i target name) ∧
    m.knownMember? (.member i target name) = some .keyDependencyProperty ∧
    m.symbol? target.unparenthesized.id = some key

/-- The member is one of the type, in any part of it in the file, and starts with the dependency
property of the key. -/
def ExposesKey (m : Model) (type key : SymbolId) (r : Member) : Prop :=
  (∃ e ∈ m.tree.types, m.declared? e.id = some type ∧ r ∈ e.ownMembers) ∧ m.StartsWithKey key r

theorem readsKey_iff : m.readsKey key r = true ↔ m.StartsWithKey key r := by
  unfold readsKey StartsWithKey
  rw [beq_iff_eq]
  cases r.startValue? with
  | none => simp
  | some value =>
    simp only [Option.bind_some, Option.map_some, Option.some.injEq, keyOf?_eq_some_iff]

section
variable (hp : m.project.IsBound) (ht : m.tree ∈ m.project.trees)
include hp ht

theorem exposesKey_iff (hd : d ∈ (typesDeclared m.project.sources).1) :
    m.ExposesKey d.symbol key r ↔ r ∈ m.membersInFile d.symbol ∧ m.readsKey key r = true := by
  rw [membersInFile, typeDeclarations_eq hp ht hd, readsKey_iff, ExposesKey, List.mem_flatMap]
  simp only [List.mem_filter, decide_eq_true_eq, and_assoc]

/-- No member is found only if there is none. -/
theorem memberForKey?_eq_none_iff (hd : d ∈ (typesDeclared m.project.sources).1)
    (hbacking : backing.containingType = d.symbol) :
    m.memberForKey? backing = none ↔ ∀ r, ¬ m.ExposesKey d.symbol backing.symbol r := by
  simp only [exposesKey_iff hp ht hd, memberForKey?, hbacking, List.find?_eq_none,
    not_and]

/-- The member that is found is the first one. -/
theorem first_of_memberForKey? (hd : d ∈ (typesDeclared m.project.sources).1)
    (hbacking : backing.containingType = d.symbol) (hr : m.memberForKey? backing = some r) :
    m.ExposesKey d.symbol backing.symbol r ∧
      ∀ r', m.ExposesKey d.symbol backing.symbol r' → r.range.start ≤ r'.range.start := by
  rw [memberForKey?, hbacking] at hr
  refine ⟨(exposesKey_iff hp ht hd).2
    ⟨List.mem_of_find?_eq_some hr, List.find?_some hr⟩, fun r' hr' => ?_⟩
  obtain ⟨hmem, hreads⟩ := (exposesKey_iff hp ht hd).1 hr'
  have hordered := membersInFile_ordered hp ht hd
  obtain ⟨-, before, behind, hsplit, hbefore⟩ := List.find?_eq_some_iff_append.1 hr
  rw [hsplit] at hmem hordered
  rcases List.mem_append.1 hmem with hmem | hmem
  · have hnot := hbefore r' hmem
    rw [hreads] at hnot
    cases hnot
  · rcases List.mem_cons.1 hmem with rfl | hmem
    · exact Nat.le_refl _
    · exact (List.pairwise_cons.1 (List.pairwise_append.1 hordered).2.1).1 r' hmem

end

end Model

end PropertyLint
