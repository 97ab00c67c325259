/-
# Walks and the calls they find

What stands in an expression stands at a path, a list of numbers that pick a child each
(`Expr.at?`).  A path comes before its continuations, and otherwise the first number in which two
paths differ decides, so the paths in their order lead through the expression parents first and from
left to right (`Expr.paths_pairwise`).  A walk visits what stands at the paths in this order
(`Expr.map_at?_paths`), and this is all that stands in the expression (`Expr.mem_walk_iff_has`).

In a text a walk never goes back to the left (`Expr.walk_starts`).  The first call that it finds is
neither behind another one nor in another one (`Expr.LeftmostOutermost`), and no other call in the
expression is like this (`Expr.LeftmostOutermost.unique`).
-/
import Mathlib.Data.List.FinRange
import PropertyLint.Pattern.Accessor
import PropertyLint.Proofs.Syntax.Code
import PropertyLint.Proofs.Syntax.Around

namespace PropertyLint

namespace Expr

variable {cs : List Char} {e a b c x : Expr} {path : List Nat}

/-- A walk visits the expression, and then walks through its children from left to right. -/
theorem walk_eq (e : Expr) : e.walk = e :: e.children.flatMap walk := by
  rw [walk_eq_preorder, preorder_eq, funext walk_eq_preorder]

/-! ## Paths -/

/-- What stands at a path in an expression: each number of the path picks a child. -/
def at? (e : Expr) : List Nat → Option Expr
  | [] => some e
  | i :: path => e.children[i]?.bind fun c => c.at? path

theorem length_preorder_lt (h : c ∈ e.children) : c.preorder.length < e.preorder.length := by
  have hsub : c.preorder.Sublist (e.children.flatMap preorder) := by
    rw [List.flatMap_def]
    exact List.sublist_flatten_of_mem (List.mem_map_of_mem h)
  exact Nat.lt_of_le_of_lt hsub.length_le e.length_children_preorder

/-- The paths in an expression: the empty one, and those through each child from left to right. -/
def paths (e : Expr) : List (List Nat) :=
  [] :: (List.finRange e.children.length).flatMap fun i => e.children[i].paths.map (i.val :: ·)
termination_by e.preorder.length
decreasing_by exact length_preorder_lt (List.getElem_mem _)

/-- The paths are in lexicographic order, so there is none twice. -/
theorem paths_pairwise (e : Expr) : e.paths.Pairwise (· < ·) := by
  fun_induction paths e with
  | case1 e ih =>
    rw [List.pairwise_cons, List.pairwise_flatMap]
    refine ⟨?_, fun i _ => ?_, (List.pairwise_lt_finRange _).imp ?_⟩
    · intro path hpath
      obtain ⟨i, -, hpath⟩ := List.mem_flatMap.1 hpath
      obtain ⟨path, -, rfl⟩ := List.mem_map.1 hpath
      exact List.nil_lt_cons _ _
    · rw [List.pairwise_map]
      exact (ih i).imp fun hlt => List.cons_lt_cons_iff.2 (.inr ⟨rfl, hlt⟩)
    · intro i j hij p hp q hq
      obtain ⟨p, -, rfl⟩ := List.mem_map.1 hp
      obtain ⟨q, -, rfl⟩ := List.mem_map.1 hq
      exact List.cons_lt_cons_iff.2 (.inl hij)

theorem cons_mem_paths_iff {i : Nat} :
    i :: path ∈ e.paths ↔ ∃ c ∈ e.children[i]?, path ∈ c.paths := by
  rw [paths]
  simp only [List.mem_cons, reduceCtorEq, false_or, List.mem_flatMap, List.mem_finRange,
    List.mem_map, List.cons.injEq, true_and, Option.mem_def, List.getElem?_eq_some_iff]
  constructor
  · rintro ⟨j, p, hp, rfl, rfl⟩
    exact ⟨_, ⟨j.isLt, rfl⟩, hp⟩
  · rintro ⟨c, ⟨hi, rfl⟩, hp⟩
    exact ⟨⟨i, hi⟩, path, hp, rfl, rfl⟩

/-- The paths are those at which something stands. -/
theorem mem_paths_iff : path ∈ e.paths ↔ (e.at? path).isSome := by
  induction path generalizing e with
  | nil =>
    rw [paths]
    simp [at?]
  | cons i path ih =>
    rw [cons_mem_paths_iff, at?]
    cases e.children[i]? with
    | none => simp
    | some c => simp [ih]

/-- A walk visits what stands at the paths in their order. -/
theorem map_at?_paths (e : Expr) : e.paths.map e.at? = e.walk.map some := by
  fun_induction paths e with
  | case1 e ih =>
    have hchild (i : Fin e.children.length) : (e.at? ∘ (i.val :: ·)) = e.children[i].at? := by
      funext path
      simp [at?]
    have hindex : e.children.flatMap walk
        = (List.finRange e.children.length).flatMap fun i => e.children[i].walk := by
      conv_lhs => rw [← List.map_getElem_finRange e.children]
      rw [List.flatMap_map]
      rfl
    rw [List.map_cons, List.map_flatMap, walk_eq, hindex, List.map_cons, List.map_flatMap]
    simp only [List.map_map, hchild, ih]
    rfl

/-! ## What stands in an expression -/

theorem has_of_at? (h : e.at? path = some x) : (Part.expr e).Has (.expr x) := by
  induction path generalizing e with
  | nil =>
    obtain rfl := Option.some.inj h
    exact .refl
  | cons i path ih =>
    obtain ⟨c, hc, h⟩ := Option.bind_eq_some_iff.1 h
    exact (has_of_mem_children (List.mem_of_getElem? hc)).trans (ih h)

/-- A walk visits all expressions in an expression. -/
theorem mem_walk_iff_has : x ∈ e.walk ↔ (Part.expr e).Has (.expr x) := by
  constructor
  · intro hx
    have hmem : some x ∈ e.paths.map e.at? := by
      rw [map_at?_paths]
      exact List.mem_map_of_mem hx
    obtain ⟨path, -, hpath⟩ := List.mem_map.1 hmem
    exact has_of_at? hpath
  · exact fun h => h.code_subset rfl ((Part.mem_walk_iff x).2 (.inl rfl))

/-! ## From left to right -/

/-- An expression does not start behind what it leads. -/
theorem Leads.start_le (ha : (Part.expr a).WellNested cs) (h : a.Leads b) :
    a.range.start ≤ b.range.start := by
  rcases h with hbefore | ⟨c, hc, hcontains⟩
  · exact Nat.le_trans (Nat.le_of_lt ha.fits.nonempty) hbefore
  · have hchild := ha.le_of_has (has_of_mem_children hc)
    simp only [OffsetRange.contains, Bool.and_eq_true, decide_eq_true_eq] at hcontains
    exact Nat.le_trans hchild.1 hcontains.1

/-- The starts of what a walk visits never decrease. -/
theorem walk_starts (h : (Part.expr e).WellNested cs) :
    (e.walk.map fun x => x.range.start).Pairwise (· ≤ ·) := by
  obtain ⟨hhas, hleads⟩ := walk_leads h
  rw [List.pairwise_map]
  exact hleads.imp_of_mem fun ha _ hab => hab.start_le (h.of_has (hhas _ ha))

/-! ## The leftmost outermost call -/

variable {d : Expr} {test : Expr → Bool} {names : List String} {arity : Nat} {fits : Expr → Bool}

/-- Of the expressions in the first one that pass the test, none starts in front of the second one,
and no other one stands around it. -/
structure LeftmostOutermost (e : Expr) (test : Expr → Bool) (c : Expr) : Prop where
  has : (Part.expr e).Has (.expr c)
  passes : test c = true
  leftmost : ∀ d, (Part.expr e).Has (.expr d) → test d = true → c.range.start ≤ d.range.start
  outermost : ∀ d, (Part.expr e).Has (.expr d) → test d = true →
    (Part.expr d).Has (.expr c) → d = c

/-- Two expressions that start at one place do not lie apart, so one stands in the other one. -/
theorem LeftmostOutermost.unique (h : (Part.expr e).WellNested cs)
    (hc : e.LeftmostOutermost test c) (hd : e.LeftmostOutermost test d) : c = d := by
  have hstart : c.range.start = d.range.start :=
    Nat.le_antisymm (hc.leftmost d hd.has hd.passes) (hd.leftmost c hc.has hc.passes)
  rcases h.apart_or_has hc.has hd.has with hapart | hhas | hhas
  · have hcne := (h.of_has hc.has).fits.nonempty
    have hdne := (h.of_has hd.has).fits.nonempty
    unfold Part.Apart Part.Before OffsetRange.Precedes at hapart
    dsimp only [Part.range] at *
    omega
  · exact hd.outermost c hc.has hc.passes hhas
  · exact (hc.outermost d hd.has hd.passes hhas).symm

/-! ## Calls are larger than their children -/

theorem exists_invoke_of_isCall (h : e.isCall names arity fits = true) :
    ∃ n callee args, e = .invoke n callee args := by
  cases e with
  | invoke n callee args => exact ⟨n, callee, args, rfl⟩
  | _ => cases h

/-- A call has a callee and an argument list, so it is longer than each of its children. -/
theorem not_contains_invoke {n : Node} {callee : Expr} {l : ArgumentList Expr}
    (h : (Part.expr (.invoke n callee l)).WellNested cs)
    (hc : c ∈ (Expr.invoke n callee l).children) :
    ¬ c.range.contains (Expr.invoke n callee l).range = true := by
  have hargs : Part.args l ∈ (Part.expr (.invoke n callee l)).parts := .tail _ (.head _)
  have hcallee : Part.expr callee ∈ (Part.expr (.invoke n callee l)).parts := .head _
  have hbefore : (Part.expr callee).Before (.args l) :=
    (List.pairwise_cons.1 h.fits.ordered).1 _ (.head _)
  have hcalleeNe := (h.part hcallee).fits.nonempty
  have hargsNe := (h.part hargs).fits.nonempty
  have hcalleeIn := h.le_of_has (.of_mem hcallee)
  have hargsIn := h.le_of_has (.of_mem hargs)
  have hchild : c = callee ∨ l.range.start ≤ c.range.start := by
    rcases List.mem_cons.1 hc with rfl | hc
    · exact .inl rfl
    · exact .inr ((h.part hargs).le_of_has (has_of_mem_values hc)).1
  unfold Part.Before OffsetRange.Precedes at hbefore
  simp only [OffsetRange.contains, Bool.and_eq_true, decide_eq_true_eq]
  dsimp only [Part.range] at *
  rcases hchild with rfl | hchild <;> omega

/-- What a call leads does not stand around it. -/
theorem Leads.not_has (ha : (Part.expr a).WellNested cs) (hb : (Part.expr b).WellNested cs)
    (hcall : a.isCall names arity fits = true) (h : a.Leads b) : ¬ (Part.expr b).Has (.expr a) := by
  intro hhas
  have haround := hb.le_of_has hhas
  rcases h with hbefore | ⟨c, hc, hcontains⟩
  · have hne := ha.fits.nonempty
    unfold OffsetRange.Precedes at hbefore
    dsimp only [Part.range] at *
    omega
  · obtain ⟨n, callee, l, rfl⟩ := exists_invoke_of_isCall hcall
    refine not_contains_invoke ha hc ?_
    simp only [OffsetRange.contains, Bool.and_eq_true, decide_eq_true_eq] at hcontains ⊢
    exact ⟨Nat.le_trans hcontains.1 haround.1, Nat.le_trans haround.2 hcontains.2⟩

/-! ## The call that is found -/

theorem findCall?_eq_none_iff :
    e.findCall? test = none ↔ ∀ d, (Part.expr e).Has (.expr d) → test d = false := by
  rw [findCall?, List.find?_eq_none]
  simp only [mem_walk_iff_has, Bool.not_eq_true]

theorem leftmostOutermost_of_findCall? (h : (Part.expr e).WellNested cs)
    (hfind : e.findCall? (isCall names arity fits) = some c) :
    e.LeftmostOutermost (isCall names arity fits) c := by
  obtain ⟨hcall, before, behind, hsplit, hbefore⟩ := List.find?_eq_some_iff_append.1 hfind
  have hc : (Part.expr e).Has (.expr c) := mem_walk_iff_has.1 (by simp [hsplit])
  have hnested := h.of_has hc
  -- every other call is visited later
  have hleads (d : Expr) (hd : (Part.expr e).Has (.expr d))
      (hdcall : d.isCall names arity fits = true) : d = c ∨ c.Leads d := by
    have hwalk := (walk_leads h).2
    rw [hsplit, List.pairwise_append, List.pairwise_cons] at hwalk
    rw [← mem_walk_iff_has, hsplit, List.mem_append, List.mem_cons] at hd
    obtain hd | rfl | hd := hd
    · simpa [hdcall] using hbefore d hd
    · exact .inl rfl
    · exact .inr (hwalk.2.1.1 d hd)
  refine ⟨hc, hcall, fun d hd hdcall => ?_, fun d hd hdcall hhas => ?_⟩
  · rcases hleads d hd hdcall with rfl | hlead
    · exact Nat.le_refl _
    · exact hlead.start_le hnested
  · exact (hleads d hd hdcall).resolve_right fun hlead =>
      hlead.not_has hnested (h.of_has hd) hcall hhas

theorem findCall?_eq_some_iff (h : (Part.expr e).WellNested cs) :
    e.findCall? (isCall names arity fits) = some c ↔
      e.LeftmostOutermost (isCall names arity fits) c := by
  refine ⟨leftmostOutermost_of_findCall? h, fun hc => ?_⟩
  cases hfind : e.findCall? (isCall names arity fits) with
  | none =>
    have hnot := findCall?_eq_none_iff.1 hfind c hc.has
    rw [hc.passes] at hnot
    cases hnot
  | some d => rw [(leftmostOutermost_of_findCall? h hfind).unique h hc]

end Expr

namespace SyntaxTree

/-- **Walks.**  A walk visits an expression, and then walks through its children from left to right.
So it visits what stands at each path in the expression once, in the order of the paths, and this is
all that stands in the expression.  In a file the starts of what is visited never decrease, and the
call that is found is the leftmost outermost one, if there is a call. -/
theorem walk_preorder :
    (∀ e : Expr, e.walk = e.preorder ∧ e.walk = e :: e.children.flatMap Expr.walk ∧
      (e.paths.Pairwise (· < ·) ∧ (∀ path, path ∈ e.paths ↔ (e.at? path).isSome) ∧
        e.paths.map e.at? = e.walk.map some) ∧
      ∀ x, x ∈ e.walk ↔ (Part.expr e).Has (.expr x)) ∧
    ∀ {file : FileId} {text : String} {t : SyntaxTree}, parse file text = .ok t →
      ∀ e, t.Holds (.expr e) →
        ((e.walk.map fun x => x.range.start).Pairwise (· ≤ ·)) ∧
        ∀ names arity fits,
          (e.findCall? (Expr.isCall names arity fits) = none ↔
            ∀ d, (Part.expr e).Has (.expr d) → d.isCall names arity fits = false) ∧
          ∀ c, e.findCall? (Expr.isCall names arity fits) = some c ↔
            e.LeftmostOutermost (Expr.isCall names arity fits) c := by
  refine ⟨fun e => ?_, fun {file text t} h e he => ?_⟩
  · exact ⟨e.walk_eq_preorder, e.walk_eq, ⟨e.paths_pairwise, fun _ => Expr.mem_paths_iff,
      e.map_at?_paths⟩, fun _ => Expr.mem_walk_iff_has⟩
  · have hnested := he.wellNested h
    exact ⟨Expr.walk_starts hnested, fun names arity fits =>
      ⟨Expr.findCall?_eq_none_iff, fun c => Expr.findCall?_eq_some_iff hnested⟩⟩

/-- The arrows of the properties of a file, without those of nested types. -/
def arrows (t : SyntaxTree) : List Expr :=
  t.root.types.flatMap fun d => d.members.filterMap fun
    | .property p => p.arrow
    | _ => none

theorem holds_of_mem_arrows {t : SyntaxTree} {e : Expr} (h : e ∈ t.arrows) :
    t.Holds (.expr e) := by
  obtain ⟨d, hd, h⟩ := List.mem_flatMap.1 h
  obtain ⟨m, hm, h⟩ := List.mem_filterMap.1 h
  cases m with
  | property p =>
    have hmember : Part.member (.property p) ∈ (Part.member (.type d)).parts := by
      simpa [Part.parts, Member.parts] using hm
    have harrow : Part.expr e ∈ (Part.member (.property p)).parts := by
      have harrow : p.arrow = some e := h
      simp [Part.parts, Member.parts, harrow]
    exact ((Holds.type hd).part hmember).part harrow
  | _ => cases h

/-- A property with a call in an argument of a call, in an argument itself, and one behind it. -/
def nestedCalls : String := "class A \x7b int P => F(GetValue(GetValue(a))) ?? GetValue(b); \x7d"

/-- The outer one of the two calls in the argument is found. -/
theorem walk_preorder_nestedCalls : ∃ t e, parse 0 nestedCalls = .ok t ∧ t.Holds (.expr e) ∧
    (e.walk.map fun x => x.range.start) = [19, 19, 19, 21, 21, 30, 30, 39, 47, 47, 56] ∧
    (e.findCall? Expr.isInstanceGet).map Expr.range = some ⟨21, 42⟩ ∧
    ((e.walk.map fun x => x.range.start).Pairwise (· ≤ ·)) ∧
    ∀ names arity fits,
      (e.findCall? (Expr.isCall names arity fits) = none ↔
        ∀ d, (Part.expr e).Has (.expr d) → d.isCall names arity fits = false) ∧
      ∀ c, e.findCall? (Expr.isCall names arity fits) = some c ↔
        e.LeftmostOutermost (Expr.isCall names arity fits) c := by
  have hread : ((parse 0 nestedCalls).toOption.map fun t => t.arrows.map fun e =>
      (e.walk.map fun x => x.range.start, (e.findCall? Expr.isInstanceGet).map Expr.range))
      = some [([19, 19, 19, 21, 21, 30, 30, 39, 47, 47, 56], some ⟨21, 42⟩)] := by decide +kernel
  obtain ⟨t, ht, hread⟩ := Option.map_eq_some_iff.1 hread
  rw [toOption_eq_some_iff] at ht
  obtain ⟨e, harrows, hread⟩ := List.map_eq_singleton_iff.1 hread
  have he : t.Holds (.expr e) := holds_of_mem_arrows (by rw [harrows]; exact .head _)
  exact ⟨t, e, ht, he, (Prod.mk.inj hread).1, (Prod.mk.inj hread).2, walk_preorder.2 ht e he⟩

end SyntaxTree

end PropertyLint
