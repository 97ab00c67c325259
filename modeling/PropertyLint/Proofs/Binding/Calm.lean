/-
# What looking for types leaves alone

Whatever a written type stands for, the search for it declares nothing, tells no constant and no
type of an expression, puts no local in scope and registers no type (`resolveType_calm`); it may
construct types and say what the parts of the written type stand for.
-/
import PropertyLint.Proofs.Binding.Recording
import PropertyLint.Proofs.Symbol.Extends

namespace PropertyLint

open Binder

variable {c : Compilation} {s s' s'' : BindState} {scope : Scope} {α β : Type}

/-! ## Steps -/

/-- Symbols have been added and facts about symbols may be new, but nothing else is. -/
structure BindState.Calm (s s' : BindState) : Prop where
  comp : s.comp.Extends s'.comp
  types : s'.facts.types = s.facts.types
  declared : s'.facts.declared = s.facts.declared
  constants : s'.facts.constants = s.facts.constants
  fieldConstants : s'.fieldConstants = s.fieldConstants
  locals : s'.locals = s.locals

namespace BindState.Calm

theorem refl (s : BindState) : s.Calm s := ⟨.refl _, rfl, rfl, rfl, rfl, rfl⟩

theorem trans (h : s.Calm s') (h' : s'.Calm s'') : s.Calm s'' where
  comp := h.comp.trans h'.comp
  types := h'.types.trans h.types
  declared := h'.declared.trans h.declared
  constants := h'.constants.trans h.constants
  fieldConstants := h'.fieldConstants.trans h.fieldConstants
  locals := h'.locals.trans h.locals

end BindState.Calm

namespace Binder

/-- The step leaves alone what `BindState.Calm` says. -/
def Calm (step : Binder α) : Prop := ∀ s : BindState, s.Calm (step.run s).2

variable {step : Binder α} {f : α → Binder β}

namespace Calm

theorem pure (a : α) : Calm (pure a) := fun s => .refl s

theorem bind (h : Calm step) (hf : ∀ a, Calm (f a)) : Calm (step >>= f) :=
  fun s => (h s).trans (hf (step.run s).1 (step.run s).2)

/-- A step that looks at the symbols. -/
theorem comp {f : Compilation → Binder β} (h : ∀ c, Calm (f c)) : Calm (Binder.comp >>= f) :=
  fun s => h s.comp s

/-- A step that goes on with what another step finds, if it finds something. -/
theorem andThen {step : Binder (Option SymbolId)} {rest : SymbolId → Binder (Option SymbolId)}
    (h : Calm step) (hrest : ∀ t, Calm (rest t)) : Calm (do
      match ← step with
      | some t => rest t
      | none => return none) :=
  h.bind fun found => by
    cases found with
    | some t => exact hrest t
    | none => exact .pure _

/-- A step that looks elsewhere if another step finds nothing. -/
theorem orElse {step other : Binder (Option SymbolId)} (h : Calm step) (hother : Calm other) :
    Calm (do
      match ← step with
      | some t => return some t
      | none => other) :=
  h.bind fun found => by
    cases found with
    | some t => exact .pure _
    | none => exact hother

theorem firstFound {search : α → Binder (Option SymbolId)} (h : ∀ a, Calm (search a)) :
    ∀ as : List α, Calm (PropertyLint.firstFound search as)
  | [] => .pure none
  | a :: rest => (h a).orElse (firstFound h rest)

end Calm

theorem change_calm {g : Compilation → α × Compilation}
    (h : ∀ c : Compilation, c.Extends (g c).2) :
    Calm (change g) :=
  fun s => ⟨h s.comp, rfl, rfl, rfl, rfl, rfl⟩

theorem typeNamed?_calm (name : String) : Calm (typeNamed? name) := fun s => .refl s

theorem compWithKnown_calm : Calm compWithKnown :=
  change_calm Compilation.extends_withKnown

theorem add_calm {symbol : Symbol} (h : ∀ c, symbol.Orderly c) : Calm (add symbol) :=
  change_calm fun c => Compilation.extends_add (h c)

theorem construct_calm (id : SymbolId) (args : List SymbolId) :
    Calm (change fun c => c.construct id args) :=
  change_calm fun c => c.extends_construct id args

theorem arrayOf_calm (element : SymbolId) : Calm (change fun c => c.arrayOf element) :=
  change_calm fun c => c.extends_arrayOf element

theorem recordSymbol_calm (node : NodeId) (id : SymbolId) : Calm (recordSymbol scope node id) :=
  fun _ => ⟨.refl _, rfl, rfl, rfl, rfl, rfl⟩

end Binder

/-! ## Written types -/

theorem typeInNamespace_calm (container : Option String) (name : String) (args : List SymbolId) :
    Calm (typeInNamespace container name args) :=
  (typeNamed?_calm _).andThen fun _ => (construct_calm _ _).bind fun _ => .pure _

theorem nestedType_calm (outer : SymbolId) (name : String) (args : List SymbolId) :
    Calm (nestedType outer name args) :=
  .comp fun _ => typeInNamespace_calm _ _ _

theorem typeInType_calm (name : String) (args : List SymbolId) (owner : SymbolId) :
    Calm (typeInType name args owner) := by
  refine .comp fun c => ?_
  dsimp only
  split
  · exact .pure _
  · exact .firstFound (fun _ => nestedType_calm _ _ _) _

theorem simpleType_calm (name : String) (args : List SymbolId) :
    Calm (simpleType scope name args) := by
  refine .comp fun c => ?_
  split
  · exact typeNamed?_calm _
  split
  · exact .pure _
  refine .orElse (.firstFound (fun _ => typeInType_calm _ _ _) _) ?_
  refine .orElse (.firstFound (fun _ => typeInNamespace_calm _ _ _) _) ?_
  exact .firstFound (fun _ => typeInNamespace_calm _ _ _) _

theorem nullableForm_calm (underlying : SymbolId) : Calm (nullableForm underlying) := by
  intro s
  -- the symbols that are put in place were read in the same step
  unfold nullableForm
  simp only [Binder.comp, StateT.run_bind, StateT.run_get, StateT.run_pure, pure_bind]
  split
  · cases hmade : s.comp.nullableOf underlying with
    | some made =>
      obtain ⟨nullable, -, rfl⟩ := Option.map_eq_some_iff.1 hmade
      exact ⟨Compilation.extends_construct _ _ _, rfl, rfl, rfl, rfl, rfl⟩
    | none => exact .refl s
  · exact .refl s

theorem recordResolved_calm (node : Node) (resolved : Option SymbolId) :
    Calm (recordResolved scope node resolved) := by
  cases resolved with
  | some t => exact (recordSymbol_calm _ t).bind fun _ => .pure _
  | none => exact .pure _

mutual

theorem resolveType_calm : ∀ type : TypeRef, Calm (resolveType scope type)
  | .keyword node k => by
    rw [resolveType]
    exact (typeNamed?_calm _).bind fun found => recordResolved_calm node found
  | .named node segments => by
    rw [resolveType]
    exact (resolveName_calm segments).bind fun found => recordResolved_calm node found
  | .array node element => by
    rw [resolveType]
    exact (resolveType_calm element).andThen fun t =>
      (arrayOf_calm t).bind fun _ => recordResolved_calm node _
  | .nullable node underlying => by
    rw [resolveType]
    exact (resolveType_calm underlying).andThen fun t =>
      (nullableForm_calm t).bind fun found => recordResolved_calm node found

theorem resolveName_calm : ∀ segments : List NameSegment, Calm (resolveName scope segments)
  | [] => .pure _
  | .mk name args :: rest => by
    rw [resolveName]
    refine (resolveArgs_calm args).bind fun found => ?_
    cases found with
    | none => exact .pure _
    | some args =>
      refine (simpleType_calm _ _).bind fun found => ?_
      cases found with
      | some t => exact resolveInType_calm t rest
      | none => exact resolveInNamespace_calm _ rest

theorem resolveInType_calm (outer : SymbolId) :
    ∀ segments : List NameSegment, Calm (resolveInType scope outer segments)
  | [] => .pure _
  | .mk name args :: rest => by
    rw [resolveInType]
    refine (resolveArgs_calm args).bind fun found => ?_
    cases found with
    | none => exact .pure _
    | some args => exact (nestedType_calm _ _ _).andThen fun t => resolveInType_calm t rest

theorem resolveInNamespace_calm (container : String) :
    ∀ segments : List NameSegment, Calm (resolveInNamespace scope container segments)
  | [] => .pure _
  | .mk name args :: rest => by
    rw [resolveInNamespace]
    refine (resolveArgs_calm args).bind fun found => ?_
    cases found with
    | none => exact .pure _
    | some args =>
      refine (typeInNamespace_calm _ _ _).bind fun found => ?_
      cases found with
      | some t => exact resolveInType_calm t rest
      | none => exact resolveInNamespace_calm _ rest

theorem resolveArgs_calm : ∀ types : List TypeRef, Calm (resolveArgs scope types)
  | [] => .pure _
  | t :: rest => by
    rw [resolveArgs]
    refine (resolveType_calm t).bind fun found => ?_
    cases found with
    | none => exact .pure _
    | some t =>
      refine (resolveArgs_calm rest).bind fun found => ?_
      cases found with
      | none => exact .pure _
      | some ts => exact .pure _

end

theorem resolveAttributeClass_calm (type : TypeRef) : Calm (resolveAttributeClass scope type) := by
  unfold resolveAttributeClass
  split
  · exact .orElse (resolveType_calm _) (resolveType_calm _)
  · exact resolveType_calm _

theorem arrayType_calm (element : TypeRef) : Calm (arrayType scope element) :=
  (resolveType_calm element).andThen fun _ => (arrayOf_calm _).bind fun _ => .pure _

end PropertyLint
