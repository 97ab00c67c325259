/-
# What a chosen method promises

A call is complete if every argument has a parameter of its own that takes its type and every
parameter without a default value has an argument.  The choice compares scores and keeps the first
of the best, but it looks at the arguments one by one and only counts them: of the complete calls it
finds the best one, and the call it chooses is complete exactly if no parameter gets two arguments
and no parameter without a default value is left out.
-/
import PropertyLint.Binding.Overload
import PropertyLint.Proofs.Symbol.Valid
import Mathlib.Algebra.GroupWithZero.Nat
import Mathlib.Data.List.Nodup
import Mathlib.Data.List.Perm.Subperm

namespace PropertyLint

namespace Compilation

variable {c : Compilation} {params : List ParameterSymbol} {args : List PassedArg}
  {candidates : List SymbolId} {m : SymbolId}

/-! ## Places of arguments -/

/-- The place of the parameter that an argument is passed to. -/
def placeOf? (params : List ParameterSymbol) (index : Nat) (arg : PassedArg) : Option Nat :=
  match arg.name with
  | some name => params.findIdx? fun p => p.name == name
  | none => if index < params.length then some index else none

/-- The places of the parameters that the arguments are passed to, one by one. -/
def placesOf (params : List ParameterSymbol) (args : List PassedArg) : List (Option Nat) :=
  args.zipIdx.map fun e => placeOf? params e.2 e.1

/-- The places of the parameters that a call cannot leave out. -/
def requiredPlaces (params : List ParameterSymbol) : List Nat :=
  (params.zipIdx.filter fun e => !e.1.hasDefault).map Prod.snd

theorem passedTo?_eq (index : Nat) (arg : PassedArg) :
    passedTo? params index arg = (placeOf? params index arg).bind (params[·]?) := by
  unfold passedTo? placeOf?
  cases arg.name with
  | some name => exact List.find?_eq_bind_findIdx?_getElem?
  | none =>
    by_cases hlt : index < params.length
    · simp [hlt]
    · simp [hlt]

theorem length_placesOf : (placesOf params args).length = args.length := by
  simp [placesOf]

theorem length_requiredPlaces :
    (requiredPlaces params).length = (params.filter fun p => !p.hasDefault).length := by
  calc (requiredPlaces params).length
      = ((params.zipIdx.map Prod.fst).filter fun p => !p.hasDefault).length := by
        rw [requiredPlaces, List.length_map, List.filter_map, List.length_map]
        rfl
    _ = (params.filter fun p => !p.hasDefault).length := by rw [List.zipIdx_map_fst]

theorem mem_requiredPlaces {k : Nat} :
    k ∈ requiredPlaces params ↔ ∃ p, params[k]? = some p ∧ p.hasDefault = false := by
  simp [requiredPlaces, List.mem_zipIdx_iff_getElem?]

theorem nodup_requiredPlaces : (requiredPlaces params).Nodup := by
  have hplaces : (params.zipIdx.map Prod.snd).Nodup := by
    rw [List.zipIdx_map_snd]
    exact List.nodup_range'
  exact hplaces.sublist (List.filter_sublist.map Prod.snd)

/-! ## Complete calls -/

/-- A value can be passed to a parameter: one of the types is not known, or the parameter's type is
a type parameter or one that the value's type is equal or assignable to. -/
def Takes (c : Compilation) (source target : Option SymbolId) : Prop :=
  ∀ s ∈ source, ∀ t ∈ target, c.isTypeParam t = false →
    c.typesEqual s t = true ∨ c.isAssignableTo s t = true

/-- Every argument is passed to a parameter that takes it. -/
def ArgsFit (c : Compilation) (params : List ParameterSymbol) (args : List PassedArg) : Prop :=
  ∀ e ∈ args.zipIdx, ∃ p, passedTo? params e.2 e.1 = some p ∧ c.Takes e.1.type p.type

/-- A call of a method with these parameters gives each of them what it needs. -/
structure IsComplete (c : Compilation) (params : List ParameterSymbol) (args : List PassedArg) :
    Prop where
  fit : c.ArgsFit params args
  distinct : (placesOf params args).Nodup
  required : ∀ k ∈ requiredPlaces params, some k ∈ placesOf params args

/-- The sum of the scores that the arguments have. -/
def argsScore (c : Compilation) (params : List ParameterSymbol) (args : List PassedArg) : Nat :=
  (args.zipIdx.map fun e =>
    (c.conversionScore? e.1.type ((passedTo? params e.2 e.1).bind (·.type))).getD 0).sum

/-- The parameters of a method, none for any other symbol. -/
def methodParams? (c : Compilation) (m : SymbolId) : Option (List ParameterSymbol) :=
  (c.method? m).map c.paramsOf

/-- The method can be called with the arguments, and the call is worth a score. -/
def CanCall (c : Compilation) (args : List PassedArg) (m : SymbolId) (score : Nat) : Prop :=
  ∃ params, c.methodParams? m = some params ∧ c.IsComplete params args ∧
    score = c.argsScore params args

/-- Among the candidates that can be called, none in front of the method has its score or more, and
none behind it has more. -/
def NoneBetter (c : Compilation) (candidates : List SymbolId) (args : List PassedArg)
    (m : SymbolId) (score : Nat) : Prop :=
  ∃ before after, candidates = before ++ m :: after ∧
    (∀ e ∈ before, ∀ other, c.CanCall args e other → other < score) ∧
    ∀ e ∈ after, ∀ other, c.CanCall args e other → other ≤ score

/-! ## Scores -/

theorem isSome_conversionScore?_iff {source target : Option SymbolId} :
    (c.conversionScore? source target).isSome ↔ c.Takes source target := by
  unfold conversionScore? Takes
  cases source with
  | none => simp
  | some s =>
    cases target with
    | none => simp
    | some t =>
      cases hparam : c.isTypeParam t
      · by_cases hequal : c.typesEqual s t
        · simp [hparam, hequal]
        · by_cases hassignable : c.isAssignableTo s t <;> simp [hparam, hequal, hassignable]
      · simp [hparam]

/-- Arguments have a score if all of them fit, and it is the sum of theirs. -/
theorem argsScore?_eq_some_iff {index score : Nat} :
    c.argsScore? params index args = some score ↔
      (∀ e ∈ args.zipIdx index, ∃ p, passedTo? params e.2 e.1 = some p ∧
        c.Takes e.1.type p.type) ∧
      score = ((args.zipIdx index).map fun e =>
        (c.conversionScore? e.1.type ((passedTo? params e.2 e.1).bind (·.type))).getD 0).sum := by
  induction args generalizing index score with
  | nil => simp [argsScore?, eq_comm]
  | cons arg rest ih =>
    rw [argsScore?, List.zipIdx_cons, List.forall_mem_cons, List.map_cons, List.sum_cons]
    cases hpassed : passedTo? params index arg with
    | none => simp
    | some p =>
      have htakes : (c.conversionScore? arg.type p.type).isSome ↔ c.Takes arg.type p.type :=
        isSome_conversionScore?_iff
      cases hscore : c.conversionScore? arg.type p.type with
      | none =>
        rw [hscore] at htakes
        have hnot : ¬c.Takes arg.type p.type := fun h => by simpa using htakes.2 h
        simp [hscore, hnot]
      | some first =>
        rw [hscore] at htakes
        have hfirst : c.Takes arg.type p.type := htakes.1 rfl
        simp only [Option.bind_eq_bind, Option.bind_some, Option.bind_eq_some_iff, Option.pure_def,
          Option.some.injEq, hscore, Option.getD_some, ih, exists_eq_left', hfirst,
          true_and]
        constructor
        · rintro ⟨more, ⟨hrest, rfl⟩, rfl⟩
          exact ⟨hrest, rfl⟩
        · rintro ⟨hrest, rfl⟩
          exact ⟨_, ⟨hrest, rfl⟩, rfl⟩

/-- A method has a score if the number of the arguments is right and all of them fit. -/
theorem callScore?_eq_some_iff {score : Nat} :
    c.callScore? args m = some score ↔
      ∃ params, c.methodParams? m = some params ∧
        ((requiredPlaces params).length ≤ args.length ∧ args.length ≤ params.length) ∧
        c.ArgsFit params args ∧ score = c.argsScore params args := by
  unfold callScore? methodParams?
  cases hm : c.method? m with
  | none => simp
  | some method =>
    simp only [Option.bind_eq_bind, Option.bind_some, Option.map_some, Option.some.injEq,
      exists_eq_left', length_requiredPlaces]
    split
    next hcount => exact argsScore?_eq_some_iff.trans (and_iff_right hcount).symm
    next hcount => simp [hcount]

theorem ArgsFit.lt_of_mem_placesOf (h : c.ArgsFit params args) {place : Option Nat}
    (hplace : place ∈ placesOf params args) : ∃ k, k < params.length ∧ place = some k := by
  obtain ⟨e, he, rfl⟩ := List.mem_map.1 hplace
  obtain ⟨p, hp, -⟩ := h e he
  rw [passedTo?_eq] at hp
  obtain ⟨k, hk, hget⟩ := Option.bind_eq_some_iff.1 hp
  exact ⟨k, (List.getElem?_eq_some_iff.1 hget).1, hk⟩

/-- A complete call has a right number of arguments. -/
theorem IsComplete.length_le (h : c.IsComplete params args) :
    (requiredPlaces params).length ≤ args.length ∧ args.length ≤ params.length := by
  constructor
  · have hsubset : (requiredPlaces params).map some ⊆ placesOf params args := by
      intro place hplace
      obtain ⟨k, hk, rfl⟩ := List.mem_map.1 hplace
      exact h.required k hk
    have hnodup := nodup_requiredPlaces.map (Option.some_injective Nat) (l := requiredPlaces params)
    simpa [length_placesOf] using (hnodup.subperm hsubset).length_le
  · have hsubset : placesOf params args ⊆ (List.range params.length).map some := by
      intro place hplace
      obtain ⟨k, hk, rfl⟩ := h.fit.lt_of_mem_placesOf hplace
      exact List.mem_map_of_mem (List.mem_range.2 hk)
    simpa [length_placesOf] using (h.distinct.subperm hsubset).length_le

/-- A method that can be called has the score of the call. -/
theorem CanCall.callScore? {score : Nat} (h : c.CanCall args m score) :
    c.callScore? args m = some score := by
  obtain ⟨params, hparams, hcomplete, hscore⟩ := h
  exact callScore?_eq_some_iff.2
    ⟨params, hparams, hcomplete.length_le, hcomplete.fit, hscore⟩

/-! ## The best score -/

/-- The fold over the scored methods keeps the first one of those with the highest score. -/
theorem foldl_betterCall_some (score : Nat) (m : SymbolId) (calls : List (Nat × SymbolId)) :
    ∃ best before after, calls.foldl betterCall (some (score, m)) = some best ∧
      (score, m) :: calls = before ++ best :: after ∧ (∀ e ∈ before, e.1 < best.1) ∧
      ∀ e ∈ after, e.1 ≤ best.1 := by
  induction calls generalizing score m with
  | nil => exact ⟨_, [], [], rfl, rfl, by simp, by simp⟩
  | cons next rest ih =>
    rw [List.foldl_cons, betterCall]
    split
    next hlt =>
      -- the choice so far is behind the next one, and so behind the best one
      obtain ⟨best, before, after, hbest, hsplit, hbefore, hafter⟩ := ih next.1 next.2
      refine ⟨best, (score, m) :: before, after, hbest, by rw [List.cons_append, ← hsplit], ?_,
        hafter⟩
      refine List.forall_mem_cons.2 ⟨?_, hbefore⟩
      have hnext : next ∈ before ++ best :: after := hsplit ▸ List.mem_cons_self
      rcases List.mem_append.1 hnext with hnext | hnext
      · exact hlt.trans (hbefore next hnext)
      · rcases List.mem_cons.1 hnext with rfl | hnext
        · exact hlt
        · exact hlt.trans_le (hafter next hnext)
    next hle =>
      obtain ⟨best, before, after, hbest, hsplit, hbefore, hafter⟩ := ih score m
      refine ⟨best, ?_⟩
      cases before with
      | nil =>
        obtain ⟨rfl, rfl⟩ := List.cons_eq_cons.1 hsplit
        refine ⟨[], next :: rest, hbest, rfl, by simp, ?_⟩
        exact List.forall_mem_cons.2 ⟨Nat.not_lt.1 hle, hafter⟩
      | cons first before =>
        obtain ⟨rfl, rfl⟩ := List.cons_eq_cons.1 hsplit
        have hscore : score < best.1 := hbefore _ List.mem_cons_self
        refine ⟨(score, m) :: next :: before, after, hbest, rfl, ?_, hafter⟩
        simp only [List.forall_mem_cons] at hbefore ⊢
        exact ⟨hscore, (Nat.not_lt.1 hle).trans_lt hscore, hbefore.2⟩

/-- A call chooses the first of the methods with the highest score. -/
theorem callScore?_of_pickOverload (h : c.pickOverload candidates args = some m) :
    ∃ score before after, candidates = before ++ m :: after ∧ c.callScore? args m = some score ∧
      (∀ e ∈ before, ∀ other, c.callScore? args e = some other → other < score) ∧
      ∀ e ∈ after, ∀ other, c.callScore? args e = some other → other ≤ score := by
  obtain ⟨call, hcall, rfl⟩ := Option.map_eq_some_iff.1 h
  set scored := candidates.filterMap fun m => (c.callScore? args m).map fun score => (score, m)
    with hscored
  obtain ⟨before, after, hsplit, hbefore, hafter⟩ :
      ∃ before after, scored = before ++ call :: after ∧ (∀ e ∈ before, e.1 < call.1) ∧
        ∀ e ∈ after, e.1 ≤ call.1 := by
    cases hcalls : scored with
    | nil => rw [hcalls] at hcall; cases hcall
    | cons first rest =>
      rw [hcalls, List.foldl_cons, betterCall] at hcall
      obtain ⟨best, before, after, hbest, hsplit, hscores⟩ :=
        foldl_betterCall_some first.1 first.2 rest
      obtain rfl : best = call := Option.some.inj (hbest.symm.trans hcall)
      exact ⟨before, after, hsplit, hscores⟩
  obtain ⟨front, tail, rfl, hfront, htail⟩ := List.filterMap_eq_append_iff.1 (hscored ▸ hsplit)
  obtain ⟨skipped, chosen, behind, rfl, hskipped, hchosen, hbehind⟩ :=
    List.filterMap_eq_cons_iff.1 htail
  obtain ⟨score, hscore, rfl⟩ := Option.map_eq_some_iff.1 hchosen
  refine ⟨score, front ++ skipped, behind, by simp, hscore, ?_, ?_⟩
  · intro e he other hother
    rcases List.mem_append.1 he with he | he
    · refine hbefore (other, e) ?_
      rw [← hfront]
      exact List.mem_filterMap.2 ⟨e, he, by rw [hother]; rfl⟩
    · have := hskipped e he
      rw [hother] at this
      cases this
  · intro e he other hother
    refine hafter (other, e) ?_
    rw [← hbehind]
    exact List.mem_filterMap.2 ⟨e, he, by rw [hother]; rfl⟩

/-- Where some candidate can be called, a method is chosen. -/
theorem isSome_pickOverload {score : Nat} (hm : m ∈ candidates) (h : c.CanCall args m score) :
    (c.pickOverload candidates args).isSome := by
  have hscored : (score, m) ∈ candidates.filterMap fun m =>
      (c.callScore? args m).map fun score => (score, m) :=
    List.mem_filterMap.2 ⟨m, hm, by rw [h.callScore?]; rfl⟩
  unfold pickOverload
  rw [Option.isSome_map]
  generalize candidates.filterMap _ = scored at hscored ⊢
  cases scored with
  | nil => cases hscored
  | cons first rest =>
    obtain ⟨best, -, -, hbest, -⟩ := foldl_betterCall_some first.1 first.2 rest
    rw [List.foldl_cons, betterCall, hbest]
    rfl

/-! ## The chosen method -/

/-- Where all arguments fit, a call is complete exactly if no parameter gets two arguments and those
without a default value get one. -/
theorem ArgsFit.isComplete_iff (h : c.ArgsFit params args) :
    c.IsComplete params args ↔ ∀ k p, params[k]? = some p →
      (placesOf params args).count (some k) ≤ 1 ∧
      (p.hasDefault = false → (placesOf params args).count (some k) = 1) := by
  constructor
  · intro hcomplete k p hp
    refine ⟨List.nodup_iff_count_le_one.1 hcomplete.distinct _, fun hdefault => ?_⟩
    exact List.count_eq_one_of_mem hcomplete.distinct
      (hcomplete.required k (mem_requiredPlaces.2 ⟨p, hp, hdefault⟩))
  · intro hcounts
    refine ⟨h, List.nodup_iff_count_le_one.2 fun place => ?_, fun k hk => ?_⟩
    · by_cases hplace : place ∈ placesOf params args
      · obtain ⟨k, hlt, rfl⟩ := h.lt_of_mem_placesOf hplace
        exact (hcounts k _ (List.getElem?_eq_getElem hlt)).1
      · rw [List.count_eq_zero_of_not_mem hplace]
        exact Nat.zero_le 1
    · obtain ⟨p, hp, hdefault⟩ := mem_requiredPlaces.1 hk
      exact List.count_pos_iff.1 (by rw [(hcounts k p hp).2 hdefault]; exact Nat.one_pos)

/-- The chosen method takes the type of every argument, and no candidate that can be called is
better; it can be called itself exactly if no parameter gets two arguments and those without a
default value get one. -/
theorem canCall_pickOverload_iff (h : c.pickOverload candidates args = some m) :
    ∃ params, c.methodParams? m = some params ∧ c.ArgsFit params args ∧
      c.NoneBetter candidates args m (c.argsScore params args) ∧
      (c.CanCall args m (c.argsScore params args) ↔ ∀ k p, params[k]? = some p →
        (placesOf params args).count (some k) ≤ 1 ∧
        (p.hasDefault = false → (placesOf params args).count (some k) = 1)) := by
  obtain ⟨score, before, after, hsplit, hscore, hbefore, hafter⟩ := callScore?_of_pickOverload h
  obtain ⟨params, hparams, -, hfit, rfl⟩ := callScore?_eq_some_iff.1 hscore
  refine ⟨params, hparams, hfit, ⟨before, after, hsplit, ?_, ?_⟩, ?_⟩
  · exact fun e he other hother => hbefore e he other hother.callScore?
  · exact fun e he other hother => hafter e he other hother.callScore?
  · rw [← hfit.isComplete_iff]
    constructor
    · rintro ⟨own, hown, hcomplete, -⟩
      obtain rfl := Option.some.inj (hown.symm.trans hparams)
      exact hcomplete
    · exact fun hcomplete => ⟨params, hparams, hcomplete, rfl⟩

/-- A method `M(int a, int b = 0)`. -/
def optionalSecond : Compilation where
  symbols := #[.type { name := "Int32", kind := .struct },
    .parameter ⟨"a", some 0, 0, false, none⟩, .parameter ⟨"b", some 0, 1, true, none⟩,
    .method
      { name := "M", containingType := 0, accessibility := .private_, isStatic := true,
        isAbstract := false, kind := .ordinary, returnType := none, params := [1, 2],
        declaration := none }]

/-- `M(b: 1)` chooses the method without an argument for `a`, and `M(a: 1, a: 2)` with two. -/
theorem pickOverload_optionalSecond :
    optionalSecond.pickOverload [3] [⟨some "b", some 0⟩] = some 3 ∧
    optionalSecond.pickOverload [3] [⟨some "a", some 0⟩, ⟨some "a", some 0⟩] = some 3 ∧
    (∀ score, ¬optionalSecond.CanCall [⟨some "b", some 0⟩] 3 score) ∧
    ∀ score, ¬optionalSecond.CanCall [⟨some "a", some 0⟩, ⟨some "a", some 0⟩] 3 score := by
  have hnone : optionalSecond.pickOverload [3] [⟨some "b", some 0⟩] = some 3 := by decide
  have htwo : optionalSecond.pickOverload [3] [⟨some "a", some 0⟩, ⟨some "a", some 0⟩] = some 3 := by
    decide
  obtain ⟨first, hfirst, -, -, hleft⟩ := canCall_pickOverload_iff hnone
  obtain ⟨second, hsecond, -, -, htwice⟩ := canCall_pickOverload_iff htwo
  obtain rfl : first = [⟨"a", some 0, 0, false, none⟩, ⟨"b", some 0, 1, true, none⟩] :=
    Option.some.inj (hfirst.symm.trans (by decide))
  obtain rfl : second = [⟨"a", some 0, 0, false, none⟩, ⟨"b", some 0, 1, true, none⟩] :=
    Option.some.inj (hsecond.symm.trans (by decide))
  refine ⟨hnone, htwo, ?_, ?_⟩
  · rintro score ⟨own, hown, hcomplete, -⟩
    obtain rfl := Option.some.inj (hown.symm.trans hfirst)
    have hcounts := hleft.1 ⟨_, hfirst, hcomplete, rfl⟩ 0 _ rfl
    exact absurd (hcounts.2 rfl) (by decide)
  · rintro score ⟨own, hown, hcomplete, -⟩
    obtain rfl := Option.some.inj (hown.symm.trans hsecond)
    have hcounts := htwice.1 ⟨_, hsecond, hcomplete, rfl⟩ 0 _ rfl
    exact absurd hcounts.1 (by decide)

/-! ## Calls without names -/

/-- Unnamed arguments are passed to the parameters in order. -/
theorem placesOf_unnamed (hnames : ∀ a ∈ args, a.name = none)
    (hlength : args.length ≤ params.length) :
    placesOf params args = (List.range args.length).map some := by
  refine List.ext_getElem (by simp [length_placesOf]) fun i hi _ => ?_
  have hlt : i < args.length := by simpa [length_placesOf] using hi
  simp [placesOf, placeOf?, hnames _ (List.getElem_mem hlt), hlt.trans_le hlength]

/-- Where no parameter with a default value stands in front of one without, the parameters that
cannot be left out are the first ones. -/
theorem lt_length_requiredPlaces {k : Nat}
    (hdefaults : params.Pairwise fun p q => p.hasDefault → q.hasDefault)
    (hk : k ∈ requiredPlaces params) : k < (requiredPlaces params).length := by
  obtain ⟨p, hp, hdefault⟩ := mem_requiredPlaces.1 hk
  obtain ⟨hlt, rfl⟩ := List.getElem?_eq_some_iff.1 hp
  have hsubset : List.range (k + 1) ⊆ requiredPlaces params := by
    intro i hi
    rcases Nat.lt_or_eq_of_le (Nat.le_of_lt_succ (List.mem_range.1 hi)) with hik | rfl
    · refine mem_requiredPlaces.2 ⟨_, List.getElem?_eq_getElem (hik.trans hlt), ?_⟩
      by_contra hi
      have := List.pairwise_iff_getElem.1 hdefaults i k _ hlt hik (by simpa using hi)
      rw [hdefault] at this
      cases this
    · exact hk
  have hlength := (List.nodup_range.subperm hsubset).length_le
  rwa [List.length_range] at hlength

/-- A chosen method can be called if no argument is named and no parameter with a default value
stands in front of one without. -/
theorem canCall_of_unnamed (h : c.pickOverload candidates args = some m)
    (hparams : c.methodParams? m = some params) (hnames : ∀ a ∈ args, a.name = none)
    (hdefaults : params.Pairwise fun p q => p.hasDefault → q.hasDefault) :
    c.CanCall args m (c.argsScore params args) := by
  obtain ⟨score, -, -, -, hscore, -, -⟩ := callScore?_of_pickOverload h
  obtain ⟨own, hown, ⟨hrequired, hlength⟩, hfit, -⟩ := callScore?_eq_some_iff.1 hscore
  obtain rfl := Option.some.inj (hown.symm.trans hparams)
  have hplaces := placesOf_unnamed hnames hlength
  refine ⟨own, hparams, ⟨hfit, ?_, fun k hk => ?_⟩, rfl⟩
  · rw [hplaces]
    exact List.nodup_range.map (Option.some_injective Nat)
  · rw [hplaces]
    have hlt := (lt_length_requiredPlaces hdefaults hk).trans_le hrequired
    exact List.mem_map_of_mem (List.mem_range.2 hlt)

end Compilation

end PropertyLint
