/-
# The declarations of a type

While types are declared, the symbol that a declaration declares is recorded for its node, and its
place is kept with that symbol, behind the places of earlier parts (`declareTypes_merges`).
-/
import PropertyLint.Proofs.Binding.Bodies

namespace PropertyLint

open Binder

/-! ## Places of types -/

namespace Compilation

variable {c : Compilation} {id : SymbolId} {t : TypeSymbol}

/-- The places where a type is declared. -/
def places (c : Compilation) (id : SymbolId) : List SourceRef :=
  ((c.type? id).map TypeSymbol.declarations).getD []

theorem places_eq (h : c.type? id = some t) : c.places id = t.declarations := by
  rw [places, h]
  rfl

/-- Only types have places. -/
theorem exists_type_of_places {place : SourceRef} {rest : List SourceRef}
    (h : c.places id = place :: rest) :
    ∃ t, c.symbol? id = some (.type t) ∧ t.declarations = place :: rest := by
  cases ht : c.type? id with
  | some t => exact ⟨t, symbol?_of_type? ht, (places_eq ht).symm.trans h⟩
  | none =>
    rw [places, ht] at h
    cases h

/-- A type that is added is declared nowhere yet. -/
theorem places_add (c : Compilation) (ht : t.declarations = []) (id : SymbolId) :
    (c.add (.type t)).2.places id = c.places id := by
  rcases Nat.lt_trichotomy id c.symbols.size with hlt | rfl | hgt
  · rw [places, type?_add_of_lt _ hlt, places]
  · have hnone : c.symbol? c.symbols.size = none := Array.getElem?_eq_none (Nat.le_refl _)
    rw [places_eq (type?_add_size _), ht, places, type?, hnone]
    rfl
  · have hnone : c.symbol? id = none := Array.getElem?_eq_none (Nat.le_of_lt hgt)
    have hnone' : (c.add (.type t)).2.symbol? id = none := Array.getElem?_eq_none (by
      rw [add, Array.size_push]
      exact hgt)
    rw [places, type?, hnone', places, type?, hnone]

theorem type?_modifyType_eq (c : Compilation) (edited : SymbolId) (f : TypeSymbol → TypeSymbol)
    (id : SymbolId) : (c.modifyType edited f).type? id =
      (c.type? id).map fun t => if edited = id then f t else t := by
  rw [type?, symbol?_modifyType, type?]
  cases c.symbol? id with
  | none => rfl
  | some s => cases s <;> rfl

theorem places_modifyType (c : Compilation) {f : TypeSymbol → TypeSymbol}
    (hf : ∀ t, (f t).declarations = t.declarations) (edited id : SymbolId) :
    (c.modifyType edited f).places id = c.places id := by
  rw [places, type?_modifyType_eq, places]
  cases c.type? id with
  | none => rfl
  | some t =>
    rw [Option.map_some, Option.map_some, Option.map_some]
    split
    · rw [hf]
    · rfl

/-- A type gets more places. -/
theorem places_addPlaces {owner : SymbolId} (h : c.IsType owner) (added : List SourceRef)
    (id : SymbolId) :
    (c.modifyType owner fun t => { t with declarations := t.declarations ++ added }).places id =
      c.places id ++ if owner = id then added else [] := by
  rw [places, type?_modifyType_eq, places]
  split
  next hid =>
    obtain ⟨t, ht⟩ := h
    have ht : c.type? id = some t := by rw [← hid, type?, ht]; rfl
    rw [ht]
    rfl
  next => rw [List.append_nil, Option.map_id']

end Compilation

/-! ## States -/

/-- The node of the declaration. -/
def DeclaredType.ref (d : DeclaredType) : NodeRef := ⟨d.source.file, d.decl.id⟩

/-- The place of the declaration, if it stands in a file. -/
def DeclaredType.place? (d : DeclaredType) : Option SourceRef :=
  d.scope.sourceRef d.decl.header.node

/-- The types have been declared: their symbols have been recorded, and their places have been added
to those of their symbols. -/
structure BindState.Merges (ds : List DeclaredType) (s s' : BindState) : Prop where
  declared : s'.facts.declared =
    (ds.map fun d => (d.ref, d.symbol)).reverse ++ s.facts.declared
  places : ∀ id, s'.comp.places id =
    s.comp.places id ++ (ds.filter fun d => d.symbol = id).filterMap DeclaredType.place?

variable {ds ds' : List DeclaredType} {s s' s'' : BindState} {source : Source}
  {outer : Option SymbolId} {header : TypeHeader} {members : List Member} {id : SymbolId}
  {α β : Type}

namespace BindState.Merges

theorem refl (s : BindState) : s.Merges [] s := ⟨rfl, fun _ => (List.append_nil _).symm⟩

theorem trans (h : s.Merges ds s') (h' : s'.Merges ds' s'') : s.Merges (ds ++ ds') s'' where
  declared := by
    rw [h'.declared, h.declared, List.map_append, List.reverse_append, List.append_assoc]
  places id := by
    rw [h'.places, h.places, List.filter_append, List.filterMap_append, List.append_assoc]

end BindState.Merges

namespace Binder

/-- The step declares no type and leaves the places of types alone. -/
def KeepsTypes (step : Binder α) : Prop := ∀ s : BindState, s.Merges [] (step.run s).2

theorem KeepsTypes.pure (a : α) : KeepsTypes (pure a) := fun s => .refl s

theorem KeepsTypes.bind {step : Binder α} {f : α → Binder β} (h : KeepsTypes step)
    (hf : ∀ a, KeepsTypes (f a)) : KeepsTypes (step >>= f) :=
  fun s => (h s).trans (hf (step.run s).1 (step.run s).2)

theorem keepsTypes_change {g : Compilation → α × Compilation}
    (h : ∀ (c : Compilation) id, (g c).2.places id = c.places id) : KeepsTypes (change g) :=
  fun s => ⟨rfl, fun id => (h s.comp id).trans (List.append_nil _).symm⟩

theorem keepsTypes_add {t : TypeSymbol} (ht : t.declarations = []) : KeepsTypes (add (.type t)) :=
  keepsTypes_change fun c id => c.places_add ht id

theorem keepsTypes_typeNamed? (name : String) : KeepsTypes (typeNamed? name) := fun s => .refl s

end Binder

/-! ## One declaration -/

theorem addTypeParams_keepsTypes (owner : SymbolId) (base : Option SymbolId) (ordinal : Nat)
    (names : List Ident) : KeepsTypes (addTypeParams owner base ordinal names) := by
  induction names generalizing ordinal with
  | nil => exact .pure _
  | cons name rest ih =>
    rw [addTypeParams]
    refine (keepsTypes_add rfl).bind fun param => KeepsTypes.bind ?_ fun _ => ih _
    exact keepsTypes_change fun c id => c.places_modifyType
      (f := fun t => { t with typeParams := t.typeParams ++ [param] }) (fun _ => rfl) owner id

theorem createType_keepsTypes (outer : Option SymbolId) (decl : TypeHeader) :
    KeepsTypes (createType outer decl) := by
  have hregister (id : SymbolId) : KeepsTypes (change fun c => ((), c.register id)) :=
    keepsTypes_change fun _ _ => rfl
  unfold createType
  refine (keepsTypes_add rfl).bind fun id => (keepsTypes_typeNamed? _).bind fun object => ?_
  exact (addTypeParams_keepsTypes _ _ _ _).bind fun _ => (hregister id).bind fun _ => .pure _

/-- The symbol of a declared type gets the place and is recorded for the node. -/
def BindState.addPart (s : BindState) (source : Source) (decl : TypeHeader) (id : SymbolId) :
    BindState :=
  { s with
    comp := match source.scope.sourceRef decl.node with
      | some place => s.comp.modifyType id fun t =>
          { t with declarations := t.declarations ++ [place] }
      | none => s.comp
    facts := s.facts.addDeclared ⟨source.file, decl.node.id⟩ id }

theorem BindState.addPart_merges (h : s.comp.IsType id) :
    s.Merges [⟨source, .mk header members, id⟩] (s.addPart source header id) := by
  refine ⟨rfl, fun id' => ?_⟩
  have hplace : DeclaredType.place? ⟨source, .mk header members, id⟩ =
      source.scope.sourceRef header.node := rfl
  rw [addPart, List.filter_singleton]
  dsimp only
  by_cases hid : id = id'
  · subst hid
    rw [decide_eq_true rfl, cond_true, List.filterMap_cons, hplace]
    cases source.scope.sourceRef header.node with
    | some place => exact (Compilation.places_addPlaces h [place] id).trans (by rw [if_pos rfl]; rfl)
    | none => exact (List.append_nil _).symm
  · rw [decide_eq_false hid, cond_false, List.filterMap_nil]
    cases source.scope.sourceRef header.node with
    | some place => exact (Compilation.places_addPlaces h [place] id').trans (by rw [if_neg hid])
    | none => exact (List.append_nil _).symm

/-- The symbol is that of an earlier part or a new one. -/
theorem declareHeader_run (source : Source) (outer : Option SymbolId) (decl : TypeHeader)
    (s : BindState) : ∃ id s₁,
      (earlierPart? s.comp outer decl = some id ∧ s₁ = s ∨
        (createType outer decl).run s = (id, s₁)) ∧
      (declareHeader source outer decl).run s = (id, s₁.addPart source decl id) := by
  have hcomp : Binder.comp.run s = (s.comp, s) := rfl
  rw [declareHeader, bind_run hcomp]
  cases hpart : earlierPart? s.comp outer decl with
  | some id =>
    refine ⟨id, s, .inl ⟨rfl, rfl⟩, ?_⟩
    rw [BindState.addPart]
    cases source.scope.sourceRef decl.node <;> rfl
  | none =>
    cases hcreate : (createType outer decl).run s with
    | mk id s₁ =>
      refine ⟨id, s₁, .inr rfl, (bind_run hcreate).trans ?_⟩
      rw [BindState.addPart]
      cases source.scope.sourceRef decl.node <;> rfl

/-- The declaration of a type is recorded, and its place is added to those of its symbol. -/
theorem declareHeader_merges (hs : s.Valid) (houter : ∀ t ∈ outer, s.comp.IsType t)
    (header : TypeHeader) (members : List Member) :
    s.Merges [⟨source, .mk header members, ((declareHeader source outer header).run s).1⟩]
      ((declareHeader source outer header).run s).2 := by
  obtain ⟨id, s₁, hstep, hrun⟩ := declareHeader_run source outer header s
  rw [hrun]
  rcases hstep with ⟨hpart, rfl⟩ | hcreate
  · have hid : s₁.comp.IsType id := by
      unfold earlierPart? at hpart
      split at hpart
      · exact hs.comp.isType_typeNamed? id hpart
      · cases hpart
    exact BindState.addPart_merges hid
  · have hfinds : Finds ∅ s.comp (createType outer header) fun c id => c.IsType id :=
      createType_finds houter header
    obtain ⟨-, hid⟩ := hfinds s hs (le_refl _)
    have hkeeps := createType_keepsTypes outer header s
    rw [hcreate] at hid hkeeps
    exact hkeeps.trans (BindState.addPart_merges hid)

/-! ## All declarations -/

theorem declareType_leads (source : Source) (hs : s.Valid) (houter : ∀ t ∈ outer, s.comp.IsType t)
    (decl : TypeDecl) : s.Leads ∅ ((declareType source outer decl).run s).2 :=
  (declareType_finds decl outer houter s hs (le_refl _)).1

mutual

theorem declareType_merges : ∀ (decl : TypeDecl) (outer : Option SymbolId) (s : BindState),
    s.Valid → (∀ t ∈ outer, s.comp.IsType t) →
      s.Merges ((declareType source outer decl).run s).1 ((declareType source outer decl).run s).2
  | .mk header members, outer, s, hs, houter => by
    have hfinds : Finds ∅ s.comp (declareHeader source outer header) fun c id => c.IsType id :=
      declareHeader_finds houter header
    obtain ⟨hlead, hid⟩ := hfinds s hs (le_refl _)
    rw [declareType]
    exact (declareHeader_merges hs houter header members).trans
      (declareNested_merges members _ _ hlead.valid hid)

theorem declareNested_merges : ∀ (members : List Member) (outer : SymbolId) (s : BindState),
    s.Valid → s.comp.IsType outer →
      s.Merges ((declareNested source outer members).run s).1
        ((declareNested source outer members).run s).2
  | [], _, s, _, _ => .refl s
  | .type decl :: rest, outer, s, hs, houter => by
    have houter' : ∀ t ∈ some outer, s.comp.IsType t := by
      rintro _ ⟨⟩
      exact houter
    have hlead := declareType_leads source hs houter' decl
    rw [declareNested]
    exact (declareType_merges decl (some outer) s hs houter').trans
      (declareNested_merges rest outer _ hlead.valid (houter.mono hlead.comp))
  | .field _ :: rest, outer, s, hs, houter | .property _ :: rest, outer, s, hs, houter
  | .method _ :: rest, outer, s, hs, houter | .constructor _ :: rest, outer, s, hs, houter => by
    rw [declareNested]
    exact declareNested_merges rest outer s hs houter

end

section
variable {I : BindState → Prop} {R : List DeclaredType → BindState → BindState → Prop}
  (hnil : ∀ s, I s → R [] s s)
  (happend : ∀ {ds ds' : List DeclaredType} {s s' s'' : BindState},
    R ds s s' → R ds' s' s'' → R (ds ++ ds') s s'')
include hnil happend

/-- If each step declares types in relation to its states, all steps do so one after the other. -/
theorem mapM_induct (types : β → List DeclaredType) {f : α → Binder β} (as : List α)
    (h : ∀ a s, I s → I ((f a).run s).2 ∧ R (types ((f a).run s).1) s ((f a).run s).2)
    (hs : I s) : I ((as.mapM f).run s).2 ∧
      R (((as.mapM f).run s).1.flatMap types) s ((as.mapM f).run s).2 := by
  induction as generalizing s with
  | nil => exact ⟨hs, hnil s hs⟩
  | cons a as ih =>
    obtain ⟨hinv, hfirst⟩ := h a s hs
    obtain ⟨hinv', hrest⟩ := ih hinv
    rw [List.mapM_cons]
    exact ⟨hinv', happend hfirst hrest⟩

/-- What holds of each type that is declared, with the types nested in it, and of declared types one
behind the other, holds of all declared types. -/
theorem declareTypes_induct
    (htype : ∀ source decl s, I s → I ((declareType source none decl).run s).2 ∧
      R ((declareType source none decl).run s).1 s ((declareType source none decl).run s).2)
    (sources : List Source) (hs : I s) :
    R ((declareTypes sources).run s).1 s ((declareTypes sources).run s).2 := by
  have hsource (source : Source) (s : BindState) (hs : I s) :
      I ((source.root.types.mapM (declareType source none)).run s).2 ∧
        R ((source.root.types.mapM (declareType source none)).run s).1.flatten s
          ((source.root.types.mapM (declareType source none)).run s).2 := by
    have hall := mapM_induct hnil happend id source.root.types (htype source) hs
    rwa [List.flatMap_id] at hall
  obtain ⟨-, hall⟩ := mapM_induct hnil happend List.flatten sources hsource hs
  rw [List.flatMap_def, ← List.flatten_flatten] at hall
  exact hall

end

/-- All declarations of types are recorded, and their places are those of their symbols. -/
theorem declareTypes_merges (sources : List Source) (hs : s.Valid) :
    s.Merges ((declareTypes sources).run s).1 ((declareTypes sources).run s).2 := by
  refine declareTypes_induct (R := fun ds s s' => s.Merges ds s') (fun s _ => .refl s)
    BindState.Merges.trans (fun source decl s hs => ?_) sources hs
  have hnone : ∀ t ∈ (none : Option SymbolId), s.comp.IsType t := by rintro _ ⟨⟩
  exact ⟨(declareType_leads source hs hnone decl).valid, declareType_merges decl none s hs hnone⟩

end PropertyLint
