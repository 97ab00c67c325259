/-
# The kept table of known symbols is never stale

While a compilation is filled, symbols are added and changed in any way, types are registered and
constructed, and now and then the known symbols are asked for, which keeps their table until the
next change (`Operation`).  A kept table is the one that would be computed anew (`UpToDate`), and each
operation preserves that.  Asking leaves no other trace: without the table the operations lead to
the same compilation (`perform_dropKnown`).  The main statement is `known_run`.
-/
import PropertyLint.Proofs.Symbol.Interned

namespace PropertyLint

/-! ## Operations -/

/-- What is done to a compilation: a change of it, or a question about its known symbols. -/
inductive Operation where
  | add (symbol : Symbol)
  | register (id : SymbolId)
  | edit (id : SymbolId) (f : Symbol → Symbol)
  | editType (id : SymbolId) (f : TypeSymbol → TypeSymbol)
  | construct (id : SymbolId) (args : List SymbolId)
  | arrayOf (element : SymbolId)
  | nullableOf (underlying : SymbolId)
  /-- Asks for the known symbols, as every question does whose answer depends on them. -/
  | askKnown

/-- The operation changes the compilation. -/
def Operation.isChange : Operation → Bool
  | askKnown => false
  | _ => true

namespace Compilation

/-- The compilation after an operation. -/
def perform (c : Compilation) : Operation → Compilation
  | .add symbol => (c.add symbol).2
  | .register id => c.register id
  | .edit id f => c.modify id f
  | .editType id f => c.modifyType id f
  | .construct id args => (c.construct id args).2
  | .arrayOf element => (c.arrayOf element).2
  | .nullableOf underlying => ((c.nullableOf underlying).map Prod.snd).getD c
  | .askKnown => c.withKnown

/-- The compilation that operations make from the empty one. -/
def run (ops : List Operation) : Compilation := ops.foldl perform {}

variable {c : Compilation}

@[simp] theorem run_nil : run [] = {} := rfl

@[simp] theorem run_concat (ops : List Operation) (op : Operation) :
    run (ops ++ [op]) = (run ops).perform op := List.foldl_concat ..

/-- What `nullableOf` does: nothing, or it constructs a type. -/
theorem perform_nullableOf (c : Compilation) (underlying : SymbolId) :
    c.perform (.nullableOf underlying) = c ∨
    ∃ nullable, c.typeNamed? KnownType.nullable.metadataName = some nullable ∧
      c.perform (.nullableOf underlying) = c.perform (.construct nullable [underlying]) := by
  dsimp only [perform, nullableOf]
  cases c.typeNamed? KnownType.nullable.metadataName with
  | none => exact .inl rfl
  | some nullable => exact .inr ⟨nullable, rfl, rfl⟩

/-! ## The kept table -/

/-- A kept table of known symbols is the one that would be computed now. -/
def UpToDate (c : Compilation) : Prop := ∀ kept ∈ c.knownCache, kept = c.resolveKnown

theorem UpToDate.known_eq (h : c.UpToDate) : c.known = c.resolveKnown := by
  unfold known
  cases hkept : c.knownCache with
  | none => rfl
  | some kept => exact h kept hkept

/-- Without a kept table nothing is out of date. -/
theorem upToDate_of_knownCache_eq_none (h : c.knownCache = none) : c.UpToDate := by
  intro kept hkept
  rw [h] at hkept
  cases hkept

theorem UpToDate.withKnown (h : c.UpToDate) : c.withKnown.UpToDate := by
  intro kept hkept
  obtain rfl : c.known = kept := Option.some.inj hkept
  exact h.known_eq

theorem UpToDate.construct (h : c.UpToDate) (id : SymbolId) (args : List SymbolId) :
    (c.construct id args).2.UpToDate := by
  -- the table of constructed types is written after the symbol has been added
  rcases construct_cases c id args with heq | ⟨t, -, heq⟩ <;> rw [heq]
  · exact h
  · exact upToDate_of_knownCache_eq_none rfl

theorem UpToDate.perform (h : c.UpToDate) (op : Operation) : (c.perform op).UpToDate := by
  cases op with
  | add _ | register _ | edit _ _ | editType _ _ => exact upToDate_of_knownCache_eq_none rfl
  | construct id args => exact h.construct id args
  | arrayOf element =>
    dsimp only [Compilation.perform]
    rcases arrayOf_cases c element with ⟨made, -, heq⟩ | ⟨-, heq⟩ <;> rw [heq]
    · exact h
    · exact upToDate_of_knownCache_eq_none rfl
  | nullableOf underlying =>
    rcases perform_nullableOf c underlying with heq | ⟨nullable, -, heq⟩ <;> rw [heq]
    · exact h
    · exact h.construct nullable [underlying]
  | askKnown => exact h.withKnown

theorem upToDate_run (ops : List Operation) : (run ops).UpToDate := by
  induction ops using List.reverseRecOn with
  | nil => exact upToDate_of_knownCache_eq_none rfl
  | append_singleton ops op ih =>
    rw [run_concat]
    exact ih.perform op

/-! ## Operations without the kept table -/

theorem metadataName?_dropKnown (c : Compilation) (fuel : Nat) (id : SymbolId) :
    c.dropKnown.metadataName? fuel id = c.metadataName? fuel id := by
  induction fuel generalizing id with
  | zero => rfl
  | succ fuel ih =>
    have htype : c.dropKnown.type? id = c.type? id := rfl
    have hname : c.dropKnown.nameOf id = c.nameOf id := rfl
    simp only [metadataName?, htype, hname, ih]

theorem register_dropKnown (c : Compilation) (id : SymbolId) :
    (c.dropKnown.register id).dropKnown = (c.register id).dropKnown := by
  have hname : c.dropKnown.metadataName id = c.metadataName id :=
    congrArg (Option.getD · "") (metadataName?_dropKnown c c.depthBound id)
  unfold register
  rw [hname]
  rfl

theorem construct_dropKnown (c : Compilation) (id : SymbolId) (args : List SymbolId) :
    (c.dropKnown.construct id args).2.dropKnown = (c.construct id args).2.dropKnown := by
  have hdefinition : c.dropKnown.definition id = c.definition id := rfl
  rw [construct_eq, construct_eq, hdefinition]
  cases ht : c.type? (c.definition id) with
  | none =>
    have ht' : c.dropKnown.type? (c.definition id) = none := ht
    simp only [constructAt, ht, ht']
    rfl
  | some t =>
    have ht' : c.dropKnown.type? (c.definition id) = some t := ht
    simp only [constructAt, ht, ht']
    split
    · rfl
    · have hlookup : c.dropKnown.constructed.lookup (c.definition id, args) =
          c.constructed.lookup (c.definition id, args) := rfl
      rw [hlookup]
      split <;> rfl

theorem arrayOf_dropKnown (c : Compilation) (element : SymbolId) :
    (c.dropKnown.arrayOf element).2.dropKnown = (c.arrayOf element).2.dropKnown := by
  have hlookup : c.dropKnown.arrays.lookup element = c.arrays.lookup element := rfl
  unfold arrayOf
  rw [hlookup]
  split <;> rfl

/-- No operation looks at the kept table. -/
theorem perform_dropKnown (c : Compilation) (op : Operation) :
    (c.dropKnown.perform op).dropKnown = (c.perform op).dropKnown := by
  cases op with
  | add _ | edit _ _ | editType _ _ | askKnown => rfl
  | register id => exact c.register_dropKnown id
  | construct id args => exact c.construct_dropKnown id args
  | arrayOf element => exact c.arrayOf_dropKnown element
  | nullableOf underlying =>
    have hname : c.dropKnown.typeNamed? KnownType.nullable.metadataName =
        c.typeNamed? KnownType.nullable.metadataName := rfl
    simp only [perform, nullableOf, hname]
    cases c.typeNamed? KnownType.nullable.metadataName with
    | none => rfl
    | some nullable => exact c.construct_dropKnown nullable [underlying]

/-- Questions leave no trace but the kept table. -/
theorem run_filter_isChange (ops : List Operation) :
    (run (ops.filter Operation.isChange)).dropKnown = (run ops).dropKnown := by
  induction ops using List.reverseRecOn with
  | nil => rfl
  | append_singleton ops op ih =>
    rw [List.filter_append, run_concat]
    cases hchange : op.isChange with
    | true =>
      rw [List.filter_singleton, hchange, cond_true, run_concat, ← perform_dropKnown, ih,
        perform_dropKnown]
    | false =>
      have hasked : ((run ops).perform op).dropKnown = (run ops).dropKnown := by
        cases op with
        | askKnown => rfl
        | _ => cases hchange
      rw [List.filter_singleton, hchange, cond_false, List.append_nil, hasked, ih]

/-! ## The main statement -/

/-- **The known symbols.**  Whatever is done to a compilation and whenever its known symbols are
asked for in between, the answer is what the symbols and the registered types of that moment give.
It is the one that the same changes lead to without a question before it, and what types and members
are known as is read off it. -/
theorem known_run (ops : List Operation) :
    (run ops).known = (run ops).resolveKnown ∧
      (run ops).known = (run (ops.filter Operation.isChange)).resolveKnown ∧
      (∀ tag, (run ops).knownType? tag = (run ops).resolveKnown.types.lookup tag) ∧
      (∀ id, (run ops).classify id = (run ops).dropKnown.classify id) ∧
      ∀ id, (run ops).knownMember? id = (run ops).resolveKnown.members.reverse.lookup id := by
  have hknown : (run ops).known = (run ops).resolveKnown := (upToDate_run ops).known_eq
  refine ⟨hknown, ?_, fun tag => ?_, fun id => ?_, fun id => ?_⟩
  · calc (run ops).known = (run ops).dropKnown.resolveKnown := hknown
      _ = (run (ops.filter Operation.isChange)).dropKnown.resolveKnown := by
        rw [run_filter_isChange]
  · rw [knownType?, hknown]
  · have hdropped : (run ops).dropKnown.known = (run ops).known := hknown.symm
    have hdefinition : (run ops).dropKnown.definition id = (run ops).definition id := rfl
    rw [classify, classify, hdropped, hdefinition]
  · rw [knownMember?, hknown]

end Compilation

end PropertyLint
