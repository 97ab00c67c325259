/-
# Where symbols are declared

When the types have been declared, they stay declared where they are (`Compilation.KeepsPlaces`), and
a node that comes to declare something is no declaration of a type and declares a symbol whose place
is that node (`Compilation.DeclaredAt`).  `BindState.Declares` says this of the states before and
after a step, together with the nodes that have come to declare something.
-/
import PropertyLint.Proofs.Binding.Files
import PropertyLint.Proofs.Symbol.Extends

namespace PropertyLint

/-! ## Places of symbols -/

namespace Compilation

variable {c c' c'' : Compilation} {id : SymbolId} {t : TypeSymbol} {n : NodeRef}

/-- Of the symbols that were there only types have changed, and these are declared where they were.
-/
def KeepsPlaces (c c' : Compilation) : Prop :=
  ∀ id s, c.symbol? id = some s → c'.symbol? id = some s ∨
    ∃ t t', s = .type t ∧ c'.symbol? id = some (.type t') ∧ t'.declarations = t.declarations

/-- The number is that of a symbol that is no type and that is declared at the node. -/
def DeclaredAt (c : Compilation) (n : NodeRef) (id : SymbolId) : Prop :=
  ∃ symbol place, c.symbol? id = some symbol ∧ (∀ t, symbol ≠ .type t) ∧
    symbol.declaration? = some place ∧ n = ⟨some place.file, place.node⟩

theorem KeepsPlaces.refl (c : Compilation) : c.KeepsPlaces c := fun _ _ h => .inl h

theorem KeepsPlaces.trans (h : c.KeepsPlaces c') (h' : c'.KeepsPlaces c'') :
    c.KeepsPlaces c'' := by
  intro id s hs
  rcases h id s hs with hs' | ⟨t, t', rfl, hs', hplaces⟩
  · exact h' id s hs'
  · rcases h' id _ hs' with hs'' | ⟨u, t'', hu, hs'', hplaces'⟩
    · exact .inr ⟨t, t', rfl, hs'', hplaces⟩
    · obtain rfl := Symbol.type.inj hu
      exact .inr ⟨t, t'', rfl, hs'', hplaces'.trans hplaces⟩

theorem KeepsPlaces.le (h : c.KeepsPlaces c') : c ≤ c' := fun id s hs =>
  (h id s hs).imp_right fun ⟨t, t', ht, hs', _⟩ => ⟨⟨t, ht⟩, t', hs'⟩

theorem KeepsPlaces.type? (h : c.KeepsPlaces c') (ht : c.type? id = some t) :
    ∃ t', c'.type? id = some t' ∧ t'.declarations = t.declarations := by
  rcases h id _ (symbol?_of_type? ht) with hs | ⟨u, t', hu, hs, hplaces⟩
  · exact ⟨t, by rw [Compilation.type?, hs]; rfl, rfl⟩
  · obtain rfl := Symbol.type.inj hu
    exact ⟨t', by rw [Compilation.type?, hs]; rfl, hplaces⟩

theorem Extends.keepsPlaces (h : c.Extends c') : c.KeepsPlaces c' :=
  fun id s hs => .inl (h.symbol? id s hs)

theorem keepsPlaces_add (c : Compilation) (s : Symbol) : c.KeepsPlaces (c.add s).2 :=
  fun _ _ h => .inl ((symbol?_add_of_has s (has_of_symbol? h)).trans h)

theorem keepsPlaces_modifyType (c : Compilation) (edited : SymbolId) {f : TypeSymbol → TypeSymbol}
    (hf : ∀ t, (f t).declarations = t.declarations) : c.KeepsPlaces (c.modifyType edited f) := by
  intro id s hs
  rw [symbol?_modifyType, hs, Option.map_some]
  cases s with
  | type t =>
    dsimp only
    split
    · exact .inr ⟨t, f t, rfl, rfl, hf t⟩
    · exact .inl rfl
  | _ => exact .inl rfl

theorem DeclaredAt.mono (h : c.DeclaredAt n id) (hle : c ≤ c') : c'.DeclaredAt n id := by
  obtain ⟨symbol, place, hsymbol, hno, hplace, hn⟩ := h
  exact ⟨symbol, place, symbol?_of_le hsymbol hno hle, hno, hplace, hn⟩

end Compilation

/-! ## States -/

/-- Each of the nodes `own` has come to declare something.  What nodes of files have come to declare
is declared at them, and none of them is among the nodes `ns`. -/
structure BindState.Declares (ns : Set NodeRef) (own : List NodeRef) (s s' : BindState) : Prop where
  comp : s.comp.KeepsPlaces s'.comp
  declared : ∃ new, s'.facts.declared = new ++ s.facts.declared ∧
    (∀ n ∈ own, ∃ id, (n, id) ∈ new) ∧
    ∀ r ∈ new, r.1 ∉ ns ∧ (r.1.file.isSome = true → s'.comp.DeclaredAt r.1 r.2)

variable {p : Project} {ns : Set NodeRef} {own own' : List NodeRef} {s s' s'' : BindState}
  {scope : Scope} {node : Node} {id : SymbolId}

namespace BindState.Declares

/-- Nothing is declared. -/
theorem of_eq (hcomp : s.comp.KeepsPlaces s'.comp)
    (hdeclared : s'.facts.declared = s.facts.declared) : s.Declares ns [] s' :=
  ⟨hcomp, [], hdeclared, List.forall_mem_nil _, List.forall_mem_nil _⟩

/-- A node declares a symbol that is declared at the node. -/
theorem of_cons {symbol : Symbol} (hcomp : s.comp.KeepsPlaces s'.comp)
    (hdeclared : s'.facts.declared = (⟨scope.file, node.id⟩, id) :: s.facts.declared)
    (hid : s'.comp.symbol? id = some symbol) (hsymbol : ∀ t, symbol ≠ .type t)
    (hplace : symbol.declaration? = scope.sourceRef node) (hnode : ⟨scope.file, node.id⟩ ∉ ns) :
    s.Declares ns [⟨scope.file, node.id⟩] s' := by
  refine ⟨hcomp, [(⟨scope.file, node.id⟩, id)], hdeclared, ?_, ?_⟩
  · exact List.forall_mem_singleton.2 ⟨_, .head _⟩
  · refine List.forall_mem_singleton.2 ⟨hnode, fun hfile => ?_⟩
    obtain ⟨file, hfile⟩ := Option.isSome_iff_exists.1 hfile
    have hfile : scope.file = some file := hfile
    rw [Scope.sourceRef, hfile] at hplace
    exact ⟨symbol, _, hid, hsymbol, hplace, by rw [hfile]⟩

theorem refl (s : BindState) : s.Declares ns [] s := of_eq (.refl _) rfl

theorem trans (h : s.Declares ns own s') (h' : s'.Declares ns own' s'') :
    s.Declares ns (own ++ own') s'' := by
  obtain ⟨new, hnew, hown, hat⟩ := h.declared
  obtain ⟨new', hnew', hown', hat'⟩ := h'.declared
  refine ⟨h.comp.trans h'.comp, new' ++ new, ?_, ?_, ?_⟩
  · rw [hnew', hnew, List.append_assoc]
  · refine List.forall_mem_append.2 ⟨fun n hn => ?_, fun n hn => ?_⟩
    · obtain ⟨id, hid⟩ := hown n hn
      exact ⟨id, List.mem_append_right _ hid⟩
    · obtain ⟨id, hid⟩ := hown' n hn
      exact ⟨id, List.mem_append_left _ hid⟩
  · refine List.forall_mem_append.2 ⟨hat', fun r hr => ?_⟩
    exact (hat r hr).imp_right fun hdeclared hfile => (hdeclared hfile).mono h'.comp.le

theorem mono (h : s.Declares ns own s') (hown : own' ⊆ own) : s.Declares ns own' s' := by
  obtain ⟨new, hnew, hall, hat⟩ := h.declared
  exact ⟨h.comp, new, hnew, fun n hn => hall n (hown hn), hat⟩

/-- None of the nodes is among fewer nodes. -/
theorem anti {ns' : Set NodeRef} (h : s.Declares ns own s') (hns : ns' ⊆ ns) :
    s.Declares ns' own s' := by
  obtain ⟨new, hnew, hall, hat⟩ := h.declared
  exact ⟨h.comp, new, hnew, hall, fun r hr => (hat r hr).imp_left fun hnot hmem => hnot (hns hmem)⟩

/-- What has been declared stays declared. -/
theorem subset (h : s.Declares ns own s') : s.facts.declared ⊆ s'.facts.declared := by
  obtain ⟨new, hnew, -⟩ := h.declared
  rw [hnew]
  exact List.subset_append_right _ _

end BindState.Declares

/-! ## Declarations of types and members -/

namespace Project

/-- The nodes of the files that are declarations of types. -/
def typeRefs (p : Project) : Set NodeRef :=
  {n | ∃ t ∈ p.trees, n.file = some t.file ∧
    ∃ d, .member (.type d) ∈ t.root.nodes ∧ d.id = n.node}

theorem IsRead.not_mem_typeRefs (hp : p.IsRead) {t : SyntaxTree} (ht : t ∈ p.trees) {x : SyntaxNode}
    (hx : x ∈ t.root.nodes) (hno : ∀ d, x ≠ .member (.type d)) :
    ⟨some t.file, x.node.id⟩ ∉ p.typeRefs := by
  rintro ⟨t', ht', hfile, d, hd, hid⟩
  obtain rfl := hp.tree_unique ht ht' (Option.some.inj hfile)
  obtain ⟨text, htext⟩ := hp.parse t ht
  exact hno d (SyntaxTree.eq_of_id_eq htext hx hd hid.symm)

/-- The nodes of the files that are declarations of types or members. -/
def declarationRefs (p : Project) : Set NodeRef :=
  {n | ∃ t ∈ p.trees, n.file = some t.file ∧
    ∃ m, .member m ∈ t.root.nodes ∧ m.id = n.node}

theorem typeRefs_subset (p : Project) : p.typeRefs ⊆ p.declarationRefs :=
  fun _ ⟨t, ht, hfile, d, hd, hid⟩ => ⟨t, ht, hfile, .type d, hd, hid⟩

theorem IsRead.not_mem_declarationRefs (hp : p.IsRead) {t : SyntaxTree} (ht : t ∈ p.trees)
    {x : SyntaxNode} (hx : x ∈ t.root.nodes) (hno : ∀ m, x ≠ .member m) :
    ⟨some t.file, x.node.id⟩ ∉ p.declarationRefs := by
  rintro ⟨t', ht', hfile, m, hm, hid⟩
  obtain rfl := hp.tree_unique ht ht' (Option.some.inj hfile)
  obtain ⟨text, htext⟩ := hp.parse t ht
  exact hno m (SyntaxTree.eq_of_id_eq htext hx hm hid.symm)

end Project

end PropertyLint
