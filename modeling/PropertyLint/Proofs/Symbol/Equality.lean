/-
# Equality of types

Two types that are not the same are compared by one step (`Matches`): type parameters by owner,
place and name, arrays by their elements, and all others by their definitions and arguments.  The
steps are an equivalence, so equality is one whatever the bound on the steps
(`typesEqual_equivalence`).  The bound is never used up where types are built from what was there
before them (`Founded`).  Every run builds them so if its changes name symbols that are there
(`Fits`): a number is handed out when its symbol is added (`grounded_build`).  The main statement is
`typesEqual_congruence`.
-/
import Mathlib.Data.List.Forall2
import PropertyLint.Proofs.Symbol.Interned

namespace PropertyLint

/-- A class, a struct, an interface or an enumeration. -/
def TypeKind.isNominal : TypeKind → Bool
  | .typeParameter | .array => false
  | _ => true

namespace Compilation

variable {c : Compilation} {a b : SymbolId} {s t : TypeSymbol} {fuel : Nat}

/-! ## One step -/

/-- Two types match in one step, where a relation tells whether their parts do. -/
inductive Matches (c : Compilation) (R : SymbolId → SymbolId → Prop) (a b : SymbolId) : Prop
  | param {s t : TypeSymbol} (hs : c.type? a = some s) (ht : c.type? b = some t)
      (ks : s.kind = .typeParameter) (kt : t.kind = .typeParameter)
      (same : c.sameTypeParam s t = true)
  | array {s t : TypeSymbol} {x y : SymbolId} (hs : c.type? a = some s) (ht : c.type? b = some t)
      (ks : s.kind = .array) (kt : t.kind = .array) (hx : s.elementType = some x)
      (hy : t.elementType = some y) (parts : R x y)
  | nominal {s t : TypeSymbol} (hs : c.type? a = some s) (ht : c.type? b = some t)
      (ks : s.kind.isNominal = true) (kt : t.kind.isNominal = true)
      (same : c.definition a = c.definition b)
      (parts : List.Forall₂ R (c.typeArgs a) (c.typeArgs b))

theorem sameTypeParam_iff : c.sameTypeParam s t = true ↔ s.ordinal = t.ordinal ∧ s.name = t.name ∧
    s.containingType.map c.definition = t.containingType.map c.definition := by
  simp [sameTypeParam, and_assoc]

theorem Matches.symm {R : SymbolId → SymbolId → Prop} (hR : ∀ x y, R x y → R y x)
    (h : c.Matches R a b) : c.Matches R b a := by
  cases h with
  | param hs ht ks kt same =>
    obtain ⟨hordinal, hname, howner⟩ := sameTypeParam_iff.1 same
    exact .param ht hs kt ks (sameTypeParam_iff.2 ⟨hordinal.symm, hname.symm, howner.symm⟩)
  | array hs ht ks kt hx hy parts => exact .array ht hs kt ks hy hx (hR _ _ parts)
  | nominal hs ht ks kt same parts =>
    exact .nominal ht hs kt ks same.symm (parts.flip.imp fun x y h => hR _ _ h)

theorem forall₂_trans {R : SymbolId → SymbolId → Prop} (hR : ∀ x y z, R x y → R y z → R x z)
    {xs ys zs : List SymbolId} (h : List.Forall₂ R xs ys) (h' : List.Forall₂ R ys zs) :
    List.Forall₂ R xs zs := by
  induction h generalizing zs with
  | nil => exact h'
  | cons hxy _ ih =>
    cases h' with
    | cons hyz hrest => exact .cons (hR _ _ _ hxy hyz) (ih hrest)

theorem Matches.trans {R : SymbolId → SymbolId → Prop} (hR : ∀ x y z, R x y → R y z → R x z)
    {d : SymbolId} (h : c.Matches R a b) (h' : c.Matches R b d) : c.Matches R a d := by
  cases h with
  | param hs ht ks kt same =>
    cases h' with
    | param ht' hu _ ku same' =>
      obtain rfl := Option.some.inj (ht.symm.trans ht')
      obtain ⟨hordinal, hname, howner⟩ := sameTypeParam_iff.1 same
      obtain ⟨hordinal', hname', howner'⟩ := sameTypeParam_iff.1 same'
      exact .param hs hu ks ku (sameTypeParam_iff.2
        ⟨hordinal.trans hordinal', hname.trans hname', howner.trans howner'⟩)
    | array ht' _ kt' | nominal ht' _ kt' =>
      obtain rfl := Option.some.inj (ht.symm.trans ht')
      rw [kt] at kt'
      cases kt'
  | array hs ht ks kt hx hy parts =>
    cases h' with
    | array ht' hu _ ku hy' hz parts' =>
      obtain rfl := Option.some.inj (ht.symm.trans ht')
      obtain rfl := Option.some.inj (hy.symm.trans hy')
      exact .array hs hu ks ku hx hz (hR _ _ _ parts parts')
    | param ht' _ kt' | nominal ht' _ kt' =>
      obtain rfl := Option.some.inj (ht.symm.trans ht')
      rw [kt] at kt'
      cases kt'
  | nominal hs ht ks kt same parts =>
    cases h' with
    | nominal _ hu _ ku same' parts' =>
      exact .nominal hs hu ks ku (same.trans same') (forall₂_trans hR parts parts')
    | param ht' _ kt' | array ht' _ kt' =>
      obtain rfl := Option.some.inj (ht.symm.trans ht')
      rw [kt'] at kt
      cases kt

/-! ## Bounded comparisons -/

theorem allPairs_eq_some_true {test : SymbolId → SymbolId → Option Bool} {xs ys : List SymbolId} :
    allPairs test xs ys = some true ↔ List.Forall₂ (fun x y => test x y = some true) xs ys := by
  induction xs generalizing ys with
  | nil => cases ys <;> simp [allPairs]
  | cons x xs ih =>
    cases ys with
    | nil => simp [allPairs]
    | cons y ys =>
      rw [List.forall₂_cons, ← ih, allPairs]
      rcases test x y with _ | _ | _ <;> simp

theorem allPairs_isSome {test : SymbolId → SymbolId → Option Bool} {xs ys : List SymbolId}
    (h : ∀ x ∈ xs, ∀ y, (test x y).isSome) : (allPairs test xs ys).isSome := by
  induction xs generalizing ys with
  | nil => cases ys <;> rfl
  | cons x xs ih =>
    cases ys with
    | nil => rfl
    | cons y ys =>
      have hfirst := h x (.head _) y
      rw [allPairs]
      rcases hxy : test x y with _ | _ | _
      · simp [hxy] at hfirst
      · rfl
      · exact ih fun x hx => h x (.tail _ hx)

/-- With one more step, types are equal if they are the same or match in parts that are equal. -/
theorem typesEqual?_succ_iff : c.typesEqual? (fuel + 1) a b = some true ↔
    a = b ∨ c.Matches (fun x y => c.typesEqual? fuel x y = some true) a b := by
  rw [typesEqual?]
  by_cases hab : a = b
  · simp [hab]
  rw [if_neg hab, or_iff_right hab]
  constructor
  · intro h
    split at h
    next s t hs ht =>
      split at h
      next ks kt => exact .param hs ht ks kt (Option.some.inj h)
      next ks kt =>
        split at h
        next x y hx hy => exact .array hs ht ks kt hx hy h
        next => cases h
      next => cases h
      next => cases h
      next => cases h
      next => cases h
      next htp harr htp' harr' =>
        split at h
        next hdef =>
          dsimp only at h
          split at h
          next hlen =>
            refine .nominal hs ht ?_ ?_ hdef (allPairs_eq_some_true.1 h)
            · cases hk : s.kind <;> simp_all [TypeKind.isNominal]
            · cases hk : t.kind <;> simp_all [TypeKind.isNominal]
          next => cases h
        next => cases h
    next => cases h
  · rintro (⟨hs, ht, ks, kt, same⟩ | ⟨hs, ht, ks, kt, hx, hy, parts⟩ |
      @⟨s, t, hs, ht, ks, kt, same, parts⟩)
    · simp [hs, ht, ks, kt, same]
    · simp [hs, ht, ks, kt, hx, hy, parts]
    · simp only [hs, ht, if_pos same, if_pos parts.length_eq, allPairs_eq_some_true.2 parts]
      revert ks kt
      cases s.kind <;> cases t.kind <;> simp [TypeKind.isNominal]

theorem isTypeParam_iff : c.isTypeParam a = true ↔
    ∃ s, c.type? a = some s ∧ s.kind = .typeParameter := by
  unfold isTypeParam
  cases c.type? a <;> simp

/-- A type parameter is told from any type in one step. -/
theorem typesEqual?_isSome_of_typeParam (h : c.isTypeParam a = true) :
    (c.typesEqual? (fuel + 1) a b).isSome := by
  obtain ⟨s, hs, ks⟩ := isTypeParam_iff.1 h
  rw [typesEqual?]
  split
  · rfl
  · cases ht : c.type? b with
    | none => simp [hs]
    | some t => cases kt : t.kind <;> simp [hs, ks, kt]

/-! ## An equivalence -/

@[simp] theorem typesEqual?_self : c.typesEqual? (fuel + 1) a a = some true :=
  typesEqual?_succ_iff.2 (.inl rfl)

theorem typesEqual?_symm (h : c.typesEqual? fuel a b = some true) :
    c.typesEqual? fuel b a = some true := by
  induction fuel generalizing a b with
  | zero => cases h
  | succ fuel ih =>
    rcases typesEqual?_succ_iff.1 h with rfl | hstep
    · exact h
    · exact typesEqual?_succ_iff.2 (.inr (hstep.symm fun _ _ => ih))

theorem typesEqual?_trans {d : SymbolId} (h : c.typesEqual? fuel a b = some true)
    (h' : c.typesEqual? fuel b d = some true) : c.typesEqual? fuel a d = some true := by
  induction fuel generalizing a b d with
  | zero => cases h
  | succ fuel ih =>
    rcases typesEqual?_succ_iff.1 h with rfl | hstep
    · exact h'
    rcases typesEqual?_succ_iff.1 h' with rfl | hstep'
    · exact h
    · refine typesEqual?_succ_iff.2 (.inr (hstep.trans ?_ hstep'))
      exact fun x y z hxy hyz => ih hxy hyz

theorem typesEqual_iff : c.typesEqual a b = true ↔ c.typesEqual? c.depthBound a b = some true := by
  unfold typesEqual
  rcases c.typesEqual? c.depthBound a b with _ | _ | _ <;> simp

/-- Equality is an equivalence on the symbols of any compilation. -/
theorem typesEqual_equivalence (c : Compilation) :
    Equivalence fun a b => c.typesEqual a b = true where
  refl _ := typesEqual_iff.2 typesEqual?_self
  symm h := typesEqual_iff.2 (typesEqual?_symm (typesEqual_iff.1 h))
  trans h h' := typesEqual_iff.2 (typesEqual?_trans (typesEqual_iff.1 h) (typesEqual_iff.1 h'))

/-! ## Types are built from earlier ones -/

/-- A type is built from symbols before a bound, has type parameters only, and if it is a definition
it has no arguments. -/
structure Founded (c : Compilation) (bound : Nat) (t : TypeSymbol) : Prop where
  element : ∀ x ∈ t.elementType, x < bound
  args : ∀ x ∈ t.typeArgs, x < bound
  params : ∀ p ∈ t.typeParams, c.isTypeParam p = true
  plain : t.genericDefinition = none → t.typeArgs = []
  origin : ∀ d ∈ t.genericDefinition, (c.type? d).map TypeSymbol.genericDefinition = some none

instance (c : Compilation) (bound : Nat) (t : TypeSymbol) : Decidable (c.Founded bound t) :=
  decidable_of_iff ((∀ x ∈ t.elementType, x < bound) ∧ (∀ x ∈ t.typeArgs, x < bound) ∧
      (∀ p ∈ t.typeParams, c.isTypeParam p = true) ∧
      (t.genericDefinition = none → t.typeArgs = []) ∧
      ∀ d ∈ t.genericDefinition, (c.type? d).map TypeSymbol.genericDefinition = some none)
    ⟨fun ⟨element, args, params, plain, origin⟩ => ⟨element, args, params, plain, origin⟩,
      fun ⟨element, args, params, plain, origin⟩ => ⟨element, args, params, plain, origin⟩⟩

/-- Every type is built from symbols before it. -/
def Grounded (c : Compilation) : Prop := ∀ id t, c.type? id = some t → c.Founded id t

/-- A change names symbols that are there, and attaches type parameters only. -/
def Fits (c : Compilation) : Change → Prop
  | .add (.type t) => c.Founded c.symbols.size t
  | .addTypeParam _ param => c.isTypeParam param = true
  | .construct _ args => ∀ x ∈ args, x < c.symbols.size
  | .arrayOf element => element < c.symbols.size
  | .nullableOf underlying => underlying < c.symbols.size
  | _ => True

instance (c : Compilation) : (change : Change) → Decidable (c.Fits change)
  | .add (.type t) => inferInstanceAs (Decidable (c.Founded c.symbols.size t))
  | .addTypeParam _ param => inferInstanceAs (Decidable (c.isTypeParam param = true))
  | .construct _ args => inferInstanceAs (Decidable (∀ x ∈ args, x < c.symbols.size))
  | .arrayOf element => inferInstanceAs (Decidable (element < c.symbols.size))
  | .nullableOf underlying => inferInstanceAs (Decidable (underlying < c.symbols.size))
  | .add (.field _) | .add (.property _) | .add (.method _) | .add (.parameter _)
  | .add (.localVar _) | .register _ | .setBase _ _ | .addInterface _ _ | .addMember _ _ =>
    .isTrue trivial

/-- What a type is built from stays from one compilation to another. -/
def KeepsCores (c c' : Compilation) : Prop :=
  ∀ id t, c.type? id = some t → ∃ t', c'.type? id = some t' ∧ t'.core = t.core

theorem keepsCores_change (c : Compilation) (change : Change) :
    c.KeepsCores (c.change change) := fun _ _ h =>
  let ⟨t', ht', hcore, _⟩ := exists_core change h
  ⟨t', ht', hcore⟩

theorem KeepsCores.isTypeParam {c' : Compilation} (hkeeps : c.KeepsCores c')
    (h : c.isTypeParam a = true) : c'.isTypeParam a = true := by
  obtain ⟨t, ht, hk⟩ := isTypeParam_iff.1 h
  obtain ⟨t', ht', hcore⟩ := hkeeps a t ht
  exact isTypeParam_iff.2 ⟨t', ht', (kind_of_core hcore).trans hk⟩

/-- A type with the core of a founded one, and with type parameters only, is founded. -/
theorem Founded.of_core {c' : Compilation} {bound : Nat} {t' : TypeSymbol}
    (h : c.Founded bound t) (hkeeps : c.KeepsCores c') (hcore : t'.core = t.core)
    (hparams : ∀ p ∈ t'.typeParams, c'.isTypeParam p = true) : c'.Founded bound t' where
  element := by rw [elementType_of_core hcore]; exact h.element
  args := by rw [typeArgs_of_core hcore]; exact h.args
  params := hparams
  plain := by
    rw [typeArgs_of_core hcore, genericDefinition_of_core hcore]
    exact h.plain
  origin := by
    rw [genericDefinition_of_core hcore]
    intro d hd
    obtain ⟨u, hu, hplain⟩ := Option.map_eq_some_iff.1 (h.origin d hd)
    obtain ⟨u', hu', hcore'⟩ := hkeeps d u hu
    exact Option.map_eq_some_iff.2 ⟨u', hu', (genericDefinition_of_core hcore').trans hplain⟩

theorem Founded.mono {c' : Compilation} {bound : Nat} (h : c.Founded bound t)
    (hkeeps : c.KeepsCores c') : c'.Founded bound t :=
  h.of_core hkeeps rfl fun p hp => hkeeps.isTypeParam (h.params p hp)

/-- The types after a change are those before it, or one that has been added. -/
theorem type?_change_cases {change : Change} {t' : TypeSymbol}
    (h : (c.change change).type? a = some t') :
    (∃ t, c.type? a = some t ∧ t'.core = t.core ∧
      t'.typeParams = t.typeParams ++ change.attached a) ∨
    a = c.symbols.size ∧ (change = .add (.type t') ∨
      (∃ d t args, c.asked? change = some (d, args) ∧ c.type? d = some t ∧
        t' = { t with typeArgs := args, genericDefinition := some d }) ∨
      ∃ element, change = .arrayOf element ∧ t' = c.arraySymbol element) := by
  by_cases hold : ∃ t, c.type? a = some t
  · obtain ⟨t, ht⟩ := hold
    obtain ⟨u, hu, hcore, hparams⟩ := exists_core change ht
    obtain rfl := Option.some.inj (hu.symm.trans h)
    exact .inl ⟨t, ht, hcore, hparams⟩
  right
  rcases c.change_cases change with ⟨-, -, hadd⟩ | ⟨d, t, args, hasked, ht, -, -, heq⟩ |
    ⟨element, hchange, -, heq⟩
  · rcases hadd a t' h with hfound | hnew
    · exact absurd hfound hold
    · exact ⟨hnew.1, .inl hnew.2⟩
  · rw [heq] at h
    rcases type?_add_cases h with hfound | ⟨ha, hnew⟩
    · exact absurd ⟨t', hfound⟩ hold
    · exact ⟨ha, .inr (.inl ⟨d, t, args, hasked, ht, (Symbol.type.inj hnew).symm⟩)⟩
  · rw [heq] at h
    rcases type?_add_cases h with hfound | ⟨ha, hnew⟩
    · exact absurd ⟨t', hfound⟩ hold
    · exact ⟨ha, .inr (.inr ⟨element, hchange, (Symbol.type.inj hnew).symm⟩)⟩

/-- A definition that is asked for a type has no definition of its own, and the arguments are
there. -/
theorem plain_of_asked? {change : Change} {d : SymbolId} {args : List SymbolId}
    (hgrounded : c.Grounded) (hfits : c.Fits change) (hasked : c.asked? change = some (d, args)) :
    (c.type? d).map TypeSymbol.genericDefinition = some none ∧ ∀ x ∈ args, x < c.symbols.size := by
  have hplain {id : SymbolId} {u : TypeSymbol} (hu : c.type? (c.definition id) = some u) :
      (c.type? (c.definition id)).map TypeSymbol.genericDefinition = some none := by
    unfold definition at hu ⊢
    cases ht : c.type? id with
    | none => simp [ht] at hu
    | some t =>
      cases hd : t.genericDefinition with
      | none => simp [ht, hd]
      | some d => simpa [ht, hd] using (hgrounded id t ht).origin d hd
  cases change with
  | construct id as =>
    simp only [asked?, Option.map_eq_some_iff, Prod.mk.injEq] at hasked
    obtain ⟨t, ht, rfl, rfl⟩ := hasked
    exact ⟨hplain ht, hfits⟩
  | nullableOf underlying =>
    simp only [asked?, Option.bind_eq_bind, Option.bind_eq_some_iff, Option.map_eq_some_iff,
      Prod.mk.injEq] at hasked
    obtain ⟨id, -, t, ht, rfl, rfl⟩ := hasked
    exact ⟨hplain ht, List.forall_mem_singleton.2 hfits⟩
  | _ => simp [asked?] at hasked

/-- A change that fits leaves every type built from earlier ones. -/
theorem Grounded.change {change : Change} (h : c.Grounded) (hfits : c.Fits change) :
    (c.change change).Grounded := by
  intro id t' ht'
  have hkeeps := c.keepsCores_change change
  rcases type?_change_cases ht' with ⟨t, ht, hcore, hparams⟩ |
    ⟨rfl, rfl | ⟨d, t, args, hasked, ht, rfl⟩ | ⟨element, rfl, rfl⟩⟩
  · refine (h id t ht).of_core hkeeps hcore fun p hp => hkeeps.isTypeParam ?_
    rw [hparams] at hp
    rcases List.mem_append.1 hp with hp | hp
    · exact (h id t ht).params p hp
    · cases change with
      | addTypeParam edited param =>
        obtain rfl : p = param := by
          simp only [Change.attached] at hp
          split at hp <;> simp_all
        exact hfits
      | _ => simp [Change.attached] at hp
  · exact Founded.mono hfits hkeeps
  · obtain ⟨hplain, hargs⟩ := plain_of_asked? h hfits hasked
    have hfounded : c.Founded c.symbols.size
        { t with typeArgs := args, genericDefinition := some d } :=
      { element := fun x hx =>
          ((h d t ht).element x hx).trans (lt_of_type?_eq_some ht)
        args := hargs
        params := (h d t ht).params
        plain := fun hnone => by cases hnone
        origin := fun d' hd' => by
          obtain rfl := Option.some.inj hd'
          exact hplain }
    exact hfounded.mono hkeeps
  · have hfounded : c.Founded c.symbols.size (c.arraySymbol element) :=
      { element := fun x hx => by
          obtain rfl := Option.some.inj hx
          exact hfits
        args := by simp [arraySymbol]
        params := by simp [arraySymbol]
        plain := fun _ => rfl
        origin := by simp [arraySymbol] }
    exact hfounded.mono hkeeps

/-- All changes of a run fit. -/
def FitsAll (changes : List Change) : Prop := ∀ x ∈ trace {} changes, x.1.Fits x.2

instance (changes : List Change) : Decidable (FitsAll changes) :=
  inferInstanceAs (Decidable (∀ x ∈ trace {} changes, _))

theorem grounded_build {changes : List Change} (h : FitsAll changes) :
    (build changes).Grounded := by
  induction changes using List.reverseRecOn with
  | nil =>
    intro id t ht
    simp [build, type?, symbol?] at ht
  | append_singleton changes change ih =>
    rw [FitsAll, trace_concat, List.forall_mem_append, List.forall_mem_singleton] at h
    rw [build_append]
    exact (ih h.1).change h.2

/-! ## The bound on the steps -/

theorem typesEqual?_succ_of_none (h : c.type? a = none) :
    (c.typesEqual? (fuel + 1) a b).isSome := by
  rw [typesEqual?]
  split
  · rfl
  · simp [h]

/-- In a compilation of types that are built from earlier ones, the number of a type bounds the
steps inwards. -/
theorem typesEqual?_isSome {a fuel : Nat} (h : c.Grounded) (hfuel : a + 2 ≤ fuel) :
    (c.typesEqual? fuel a b).isSome := by
  induction fuel generalizing a b with
  | zero => omega
  | succ fuel ih =>
    cases hs : c.type? a with
    | none => exact typesEqual?_succ_of_none hs
    | some s =>
      have hfounded := h a s hs
      have hinner (x : Nat) (hx : x < a) : x + 2 ≤ fuel := by omega
      have hargs : ∀ x ∈ c.typeArgs a, ∀ y, (c.typesEqual? fuel x y).isSome := by
        intro x hx y
        simp only [typeArgs, hs] at hx
        split at hx
        · obtain ⟨fuel, rfl⟩ : ∃ n, fuel = n + 1 := ⟨fuel - 1, by omega⟩
          exact typesEqual?_isSome_of_typeParam (hfounded.params x hx)
        · exact ih (hinner x (hfounded.args x hx))
      rw [typesEqual?]
      split
      · rfl
      split
      next t hs' ht =>
        obtain rfl := Option.some.inj (hs'.symm.trans hs)
        split
        next => rfl
        next =>
          split
          next x y hx hy =>
            exact ih (hinner x (hfounded.element x hx))
          next => rfl
        next => rfl
        next => rfl
        next => rfl
        next => rfl
        next =>
          split
          next =>
            dsimp only
            split
            next => exact allPairs_isSome hargs
            next => rfl
          next => rfl
      next => rfl

theorem allPairs_mono {test test' : SymbolId → SymbolId → Option Bool}
    (himp : ∀ x y r, test x y = some r → test' x y = some r) {xs ys : List SymbolId} {r : Bool}
    (h : allPairs test xs ys = some r) : allPairs test' xs ys = some r := by
  induction xs generalizing ys with
  | nil => cases ys <;> exact h
  | cons x xs ih =>
    cases ys with
    | nil => exact h
    | cons y ys =>
      rw [allPairs] at h ⊢
      rcases hxy : test x y with _ | _ | _
      · simp [hxy] at h
      · rw [himp x y _ hxy]
        simpa only [hxy] using h
      · rw [himp x y _ hxy]
        rw [hxy] at h
        exact ih h

/-- An answer stays the answer with more steps. -/
theorem typesEqual?_mono {fuel' : Nat} {r : Bool} (h : c.typesEqual? fuel a b = some r)
    (hle : fuel ≤ fuel') : c.typesEqual? fuel' a b = some r := by
  induction fuel generalizing fuel' a b r with
  | zero => cases h
  | succ fuel ih =>
    obtain ⟨fuel', rfl⟩ := Nat.exists_eq_add_one.2 (Nat.zero_lt_of_lt hle)
    have hmore (x y : SymbolId) (r : Bool) (hxy : c.typesEqual? fuel x y = some r) :
        c.typesEqual? fuel' x y = some r := ih hxy (Nat.le_of_succ_le_succ hle)
    rw [typesEqual?] at h ⊢
    split at h
    next hab => rw [if_pos hab, h]
    next hab =>
      rw [if_neg hab]
      split at h
      next s t hs ht =>
        split at h
        next ks kt => exact h
        next ks kt =>
          split at h
          next x y hx hy => exact hmore x y r h
          next => exact h
        next => exact h
        next => exact h
        next => exact h
        next => exact h
        next =>
          split at h
          next hdef =>
            dsimp only at h ⊢
            rw [if_pos hdef]
            split at h
            next hlen =>
              rw [if_pos hlen]
              exact allPairs_mono hmore h
            next hlen =>
              rw [if_neg hlen]
              exact h
          next hdef =>
            rw [if_neg hdef]
            exact h
      next => exact h

/-- With at least as many steps as there are symbols, the answer is that of `typesEqual`. -/
theorem typesEqual?_eq (h : c.Grounded) (hfuel : c.depthBound ≤ fuel) (a b : SymbolId) :
    c.typesEqual? fuel a b = some (c.typesEqual a b) := by
  have hsome : (c.typesEqual? c.depthBound a b).isSome := by
    cases hs : c.type? a with
    | none => exact typesEqual?_succ_of_none hs
    | some s => exact typesEqual?_isSome h (Nat.succ_le_succ (lt_of_type?_eq_some hs))
  obtain ⟨r, hr⟩ := Option.isSome_iff_exists.1 hsome
  have hequal : c.typesEqual a b = r := by rw [typesEqual, hr, Option.getD_some]
  rw [hequal]
  exact typesEqual?_mono hr hfuel

/-- Types are equal if they are the same or match in equal parts. -/
theorem typesEqual_iff_matches (h : c.Grounded) : c.typesEqual a b = true ↔
    a = b ∨ c.Matches (fun x y => c.typesEqual x y = true) a b := by
  have hmore : c.typesEqual? (c.depthBound + 1) a b = some (c.typesEqual a b) :=
    typesEqual?_eq h (Nat.le_succ _) a b
  have hstep : c.typesEqual? (c.depthBound + 1) a b = some true ↔
      a = b ∨ c.Matches (fun x y => c.typesEqual? c.depthBound x y = some true) a b :=
    typesEqual?_succ_iff
  simp only [hmore, typesEqual?_eq h (Nat.le_refl _), Option.some.injEq] at hstep
  exact hstep

/-! ## Arrays and constructed types -/

/-- Arrays are equal if their elements are. -/
theorem typesEqual_array (h : c.Grounded) {x y : SymbolId} (hs : c.type? a = some s)
    (ht : c.type? b = some t) (ks : s.kind = .array) (kt : t.kind = .array)
    (hx : s.elementType = some x) (hy : t.elementType = some y) :
    c.typesEqual a b = true ↔ c.typesEqual x y = true := by
  rw [typesEqual_iff_matches h]
  constructor
  · rintro (rfl | hmatch)
    · obtain rfl := Option.some.inj (hs.symm.trans ht)
      obtain rfl := Option.some.inj (hx.symm.trans hy)
      exact (c.typesEqual_equivalence).refl x
    · cases hmatch with
      | array hs' ht' _ _ hx' hy' parts =>
        obtain rfl := Option.some.inj (hs.symm.trans hs')
        obtain rfl := Option.some.inj (ht.symm.trans ht')
        obtain rfl := Option.some.inj (hx.symm.trans hx')
        obtain rfl := Option.some.inj (hy.symm.trans hy')
        exact parts
      | param hs' _ ks' | nominal hs' _ ks' =>
        obtain rfl := Option.some.inj (hs.symm.trans hs')
        rw [ks] at ks'
        cases ks'
  · exact fun hparts => .inr (.array hs ht ks kt hx hy hparts)

/-- Types of one definition are equal if their arguments are equal pairwise. -/
theorem typesEqual_nominal (h : c.Grounded) (hs : c.type? a = some s) (ht : c.type? b = some t)
    (ks : s.kind.isNominal = true) (kt : t.kind.isNominal = true)
    (hdef : c.definition a = c.definition b) : c.typesEqual a b = true ↔
      List.Forall₂ (fun x y => c.typesEqual x y = true) (c.typeArgs a) (c.typeArgs b) := by
  rw [typesEqual_iff_matches h]
  constructor
  · rintro (rfl | hmatch)
    · exact List.forall₂_same.2 fun x _ => (c.typesEqual_equivalence).refl x
    · cases hmatch with
      | nominal _ _ _ _ _ parts => exact parts
      | param hs' _ ks' | array hs' _ ks' =>
        obtain rfl := Option.some.inj (hs.symm.trans hs')
        rw [ks'] at ks
        cases ks
  · exact fun hparts => .inr (.nominal hs ht ks kt hdef hparts)

/-- What is asked for a type has no definition of its own. -/
theorem plain_of_constructs {changes : List Change} (hfits : FitsAll changes) {d made : SymbolId}
    {args : List SymbolId} (h : Constructs changes d args made) :
    ((build changes).type? d).map TypeSymbol.genericDefinition = some none := by
  obtain ⟨x, hx, hasked, -⟩ := h
  induction changes using List.reverseRecOn with
  | nil => exact absurd hx List.not_mem_nil
  | append_singleton changes change ih =>
    rw [FitsAll, trace_concat, List.forall_mem_append, List.forall_mem_singleton] at hfits
    obtain ⟨hfits, hlast⟩ := hfits
    rw [trace_concat, List.mem_append, List.mem_singleton] at hx
    have hplain : ((build changes).type? d).map TypeSymbol.genericDefinition = some none := by
      rcases hx with hx | rfl
      · exact ih hfits hx
      · exact (plain_of_asked? (grounded_build hfits) hlast hasked).1
    obtain ⟨t, ht, hnone⟩ := Option.map_eq_some_iff.1 hplain
    obtain ⟨t', ht', hcore, -⟩ := exists_core change ht
    rw [build_append]
    exact Option.map_eq_some_iff.2 ⟨t', ht', (genericDefinition_of_core hcore).trans hnone⟩

/-- What is given for a definition and arguments has that definition, that kind and these
arguments. -/
theorem parts_of_constructs {changes : List Change} (horder : ParamsFirst changes)
    (hfits : FitsAll changes) {d made : SymbolId} {args : List SymbolId}
    (h : Constructs changes d args made) (hargs : args ≠ [])
    (ht : (build changes).type? d = some t) :
    (build changes).definition made = d ∧ (build changes).typeArgs made = args ∧
      ∃ u, (build changes).type? made = some u ∧ u.kind = t.kind := by
  have hgrounded := grounded_build hfits
  have hsettled := settled_of_constructs horder h
  by_cases hstand : t.StandFor args
  · obtain ⟨-, rfl⟩ | ⟨hnot, -⟩ := (settled_iff ht).1 hsettled
    · have hplain : t.genericDefinition = none := by
        simpa [ht] using plain_of_constructs hfits h
      have hparams : t.typeParams = args := hstand.resolve_left hargs
      refine ⟨?_, ?_, t, ht, rfl⟩
      · simp [definition, ht, hplain]
      · simp [typeArgs, ht, (hgrounded _ t ht).plain hplain, hparams]
    · exact absurd hstand hnot
  · obtain ⟨-, u, hu, hkind, huargs, hd⟩ :=
      exists_of_settled (interned_build changes) ht hsettled hstand
    refine ⟨?_, ?_, u, hu, hkind⟩
    · simp only [definition, hu, Option.bind_some, hd, Option.getD_some]
    · simp only [typeArgs, hu, huargs, List.isEmpty_iff, if_neg hargs]

/-! ## The main statement -/

/-- **Equality of types is a congruence.**  In a run that names symbols that are there, and attaches
type parameters only, before it constructs the type, all types are compared within the bound on the
steps; equality is an equivalence; arrays are equal if and only if their elements are; and the types
constructed from a class, a struct, an interface or an enumeration are equal if and only if their
arguments are equal pairwise. -/
theorem typesEqual_congruence {changes : List Change} (horder : ParamsFirst changes)
    (hfits : FitsAll changes) :
    (∀ a b fuel, (build changes).depthBound ≤ fuel →
      (build changes).typesEqual? fuel a b = some ((build changes).typesEqual a b)) ∧
    (Equivalence fun a b => (build changes).typesEqual a b = true) ∧
    (∀ x y i j, MakesArray changes x i → MakesArray changes y j →
      ((build changes).typesEqual i j = true ↔ (build changes).typesEqual x y = true)) ∧
    ∀ d t as bs i j, (build changes).type? d = some t → t.kind.isNominal = true →
      as ≠ [] → bs ≠ [] → Constructs changes d as i → Constructs changes d bs j →
      ((build changes).typesEqual i j = true ↔
        List.Forall₂ (fun x y => (build changes).typesEqual x y = true) as bs) := by
  have hgrounded := grounded_build hfits
  refine ⟨?_, typesEqual_equivalence _, ?_, ?_⟩
  · exact fun a b fuel hfuel => typesEqual?_eq hgrounded hfuel a b
  · intro x y i j hi hj
    have harrays := (interned_build changes).arrays
    obtain ⟨s, hs, ks, hx⟩ := harrays x i (mem_of_lookup (lookup_arrays_of_makesArray hi))
    obtain ⟨t, ht, kt, hy⟩ := harrays y j (mem_of_lookup (lookup_arrays_of_makesArray hj))
    exact typesEqual_array hgrounded hs ht ks kt hx hy
  · intro d t as bs i j ht hkind has hbs hi hj
    obtain ⟨hdefi, hargsi, u, hu, ku⟩ := parts_of_constructs horder hfits hi has ht
    obtain ⟨hdefj, hargsj, v, hv, kv⟩ := parts_of_constructs horder hfits hj hbs ht
    rw [← hargsi, ← hargsj]
    exact typesEqual_nominal hgrounded hu hv (ku ▸ hkind) (kv ▸ hkind) (hdefi.trans hdefj.symm)

/-- A generic class `G<T>`, which is asked for as `G<T>` and as `G<T>` of another symbol for the
same parameter, and the arrays of both parameters. -/
def twoParameters : List Change :=
  [.add (.type { name := "Arg", kind := .struct }),
    .add (.type { name := "G", kind := .class_ }),
    .add (.type
      { name := "T", kind := .typeParameter, containingType := some 1, ordinal := some 0 }),
    .addTypeParam 1 2,
    .add (.type
      { name := "T", kind := .typeParameter, containingType := some 1, ordinal := some 0 }),
    .construct 1 [2], .construct 1 [3], .arrayOf 2, .setBase 1 (some 0), .arrayOf 3,
    .construct 1 [0]]

/-- `G` is equal to number 4, and the arrays, numbers 5 and 6, are equal, because the parameters
are; `G<Arg>`, number 7, is not equal to `G`. -/
theorem typesEqual_congruence_twoParameters :
    ParamsFirst twoParameters ∧ FitsAll twoParameters ∧
      Constructs twoParameters 1 [2] 1 ∧ Constructs twoParameters 1 [3] 4 ∧
      Constructs twoParameters 1 [0] 7 ∧ (build twoParameters).typesEqual 1 4 = true ∧
      (build twoParameters).typesEqual 1 7 = false ∧
      MakesArray twoParameters 2 5 ∧ MakesArray twoParameters 3 6 ∧
      (build twoParameters).typesEqual 5 6 = true := by
  have horder : ParamsFirst twoParameters := by decide +kernel
  have hfits : FitsAll twoParameters := by decide +kernel
  have hown : Constructs twoParameters 1 [2] 1 := by decide +kernel
  have hother : Constructs twoParameters 1 [3] 4 := by decide +kernel
  have harg : Constructs twoParameters 1 [0] 7 := by decide +kernel
  have harray : MakesArray twoParameters 2 5 := by decide +kernel
  have harray' : MakesArray twoParameters 3 6 := by decide +kernel
  obtain ⟨-, -, harrays, hconstructed⟩ := typesEqual_congruence horder hfits
  have hparams : (build twoParameters).typesEqual 2 3 = true := by decide +kernel
  obtain ⟨t, ht, hkind⟩ : ∃ t, (build twoParameters).type? 1 = some t ∧
      t.kind.isNominal = true := by decide +kernel
  refine ⟨horder, hfits, hown, hother, harg, ?_, ?_, harray, harray',
    (harrays 2 3 5 6 harray harray').2 hparams⟩
  · exact (hconstructed 1 t [2] [3] 1 4 ht hkind (by simp) (by simp) hown hother).2
      (.cons hparams .nil)
  · have hdiffer : ¬ (build twoParameters).typesEqual 1 7 = true := by
      rw [hconstructed 1 t [2] [0] 1 7 ht hkind (by simp) (by simp) hown harg]
      rintro (_ | ⟨hfirst, -⟩)
      revert hfirst
      decide +kernel
    simpa using hdiffer

end Compilation

end PropertyLint
