/-
# Conflicts among sorted edits

Edits that are applied together are sorted by range, and only neighbours are tested for a conflict.
That is enough.  Ranges in order that do not conflict are `Before` one another, which is
transitive, so a list without a conflict between neighbours has none at all:

* `adjacentConflict?_eq_none_iff` : no neighbours conflict iff the ranges follow each other;
* `adjacentConflict?_sortEdits` : sorting neither makes conflicts nor hides them;
* `sorted_eq_of_perm` : edits without conflicts have one sorted order only.
-/
import Mathlib.Data.List.Pairwise
import Mathlib.Tactic.ByContra
import PropertyLint.Text.Edit

namespace PropertyLint

/-! ## Ranges in order -/

namespace OffsetRange

/-- The range does not stop before it starts. -/
def Ordered (r : OffsetRange) : Prop := r.start ≤ r.stop

/-- The first range ends where the second one starts or earlier, and strictly earlier if one of the
two is an insertion point. -/
def Before (r s : OffsetRange) : Prop :=
  r.stop ≤ s.start ∧ ((r.start = r.stop ∨ s.start = s.stop) → r.stop < s.start)

instance (r : OffsetRange) : Decidable r.Ordered := inferInstanceAs (Decidable (_ ≤ _))

theorem le_antisymm {r s : OffsetRange} (hrs : r.le s = true) (hsr : s.le r = true) : r = s := by
  simp only [le, Bool.or_eq_true, Bool.and_eq_true, decide_eq_true_eq, beq_iff_eq] at hrs hsr
  have hstart : r.start = s.start := by omega
  have hstop : r.stop = s.stop := by omega
  cases r
  cases s
  rw [mk.injEq]
  exact ⟨hstart, hstop⟩

theorem conflicts_iff {r s : OffsetRange} :
    r.conflicts s = true ↔
      if r.start = r.stop ∨ s.start = s.stop then r.start ≤ s.stop ∧ s.start ≤ r.stop
      else r.start < s.stop ∧ s.start < r.stop := by
  unfold conflicts isEmpty
  by_cases h : r.start = r.stop ∨ s.start = s.stop
  · rw [if_pos h, if_pos (by simpa using h)]
    simp
  · rw [if_neg h, if_neg (by simpa using h)]
    simp

/-- A range conflicts with itself. -/
theorem conflicts_self {r : OffsetRange} (hr : r.Ordered) : r.conflicts r = true := by
  unfold Ordered at hr
  rw [conflicts_iff]
  split <;> omega

/-- Two ranges in order conflict unless the first one is before the second one. -/
theorem conflicts_eq_false_iff {r s : OffsetRange} (hr : r.Ordered) (hs : s.Ordered)
    (hle : r.le s = true) : r.conflicts s = false ↔ r.Before s := by
  simp only [le, Bool.or_eq_true, Bool.and_eq_true, decide_eq_true_eq, beq_iff_eq] at hle
  unfold Ordered at hr hs
  unfold Before
  rw [← Bool.not_eq_true, conflicts_iff]
  split <;> omega

theorem Before.trans {r s t : OffsetRange} (hs : s.Ordered) (hrs : r.Before s)
    (hst : s.Before t) : r.Before t := by
  unfold Ordered at hs
  unfold Before at *
  omega

end OffsetRange

/-! ## Neighbours -/

/-- Two edits at different positions of the list conflict. -/
def HasConflict (edits : List TextEdit) : Prop :=
  ∃ (i j : Nat) (hi : i < edits.length) (hj : j < edits.length),
    i ≠ j ∧ edits[i].range.conflicts edits[j].range = true

/-- The two edits do not conflict. -/
def TextEdit.Apart (a b : TextEdit) : Prop := a.range.conflicts b.range = false

instance : Std.Symm TextEdit.Apart where
  symm a b h := by
    unfold TextEdit.Apart at *
    rw [OffsetRange.conflicts_comm, h]

theorem not_hasConflict_iff {edits : List TextEdit} :
    ¬ HasConflict edits ↔ edits.Pairwise TextEdit.Apart := by
  unfold TextEdit.Apart
  rw [List.pairwise_iff_getElem]
  constructor
  · intro h i j hi hj hij
    by_contra hc
    exact h ⟨i, j, hi, hj, Nat.ne_of_lt hij, by simpa using hc⟩
  · rintro h ⟨i, j, hi, hj, hne, hc⟩
    rcases Nat.lt_or_gt_of_ne hne with hlt | hgt
    · rw [h i j hi hj hlt] at hc
      exact Bool.false_ne_true hc
    · rw [OffsetRange.conflicts_comm, h j i hj hi hgt] at hc
      exact Bool.false_ne_true hc

/-- The edits follow each other without touching where one of them is an insertion. -/
def Follow (edits : List TextEdit) : Prop :=
  edits.Pairwise fun a b => a.range.Before b.range

/-- Which neighbours conflict is a matter of the ranges alone. -/
theorem adjacentConflict?_congr {as bs : List TextEdit}
    (h : as.map TextEdit.range = bs.map TextEdit.range) :
    adjacentConflict? as = adjacentConflict? bs := by
  induction as generalizing bs with
  | nil =>
    obtain rfl : bs = [] := by simpa using h.symm
    rfl
  | cons a as ih =>
    obtain _ | ⟨b, bs⟩ := bs
    · simp at h
    simp only [List.map_cons, List.cons.injEq] at h
    have htail := ih h.2
    obtain _ | ⟨a', as⟩ := as <;> obtain _ | ⟨b', bs⟩ := bs
    · rfl
    · simp at h
    · simp at h
    · simp only [List.map_cons, List.cons.injEq] at h
      rw [adjacentConflict?, adjacentConflict?, htail, h.1, h.2.1]

/-- Among sorted edits no neighbours conflict iff every edit is before all later ones. -/
theorem adjacentConflict?_eq_none_iff {edits : List TextEdit}
    (hordered : ∀ e ∈ edits, e.range.Ordered)
    (hsorted : edits.Pairwise fun a b => a.range.le b.range = true) :
    adjacentConflict? edits = none ↔ Follow edits := by
  induction edits with
  | nil => exact ⟨fun _ => .nil, fun _ => rfl⟩
  | cons a rest ih =>
    have htail := ih (fun e he => hordered e (.tail _ he)) hsorted.tail
    obtain _ | ⟨b, rest⟩ := rest
    · exact ⟨fun _ => List.pairwise_singleton _ _, fun _ => rfl⟩
    have ha : a.range.Ordered := hordered a (.head _)
    have hb : b.range.Ordered := hordered b (.tail _ (.head _))
    have hle := List.rel_of_pairwise_cons hsorted (.head _)
    have hab := OffsetRange.conflicts_eq_false_iff ha hb hle
    rw [adjacentConflict?]
    constructor
    · intro h
      split at h
      · exact absurd h (by simp)
      · rename_i hc
        have hbefore : a.range.Before b.range := hab.1 (by simpa using hc)
        have hfollow := htail.1 h
        refine List.pairwise_cons.2 ⟨?_, hfollow⟩
        -- everything behind `b` is behind `a` too
        intro c hmem
        rcases List.mem_cons.1 hmem with rfl | hmem
        · exact hbefore
        · exact hbefore.trans hb (List.rel_of_pairwise_cons hfollow hmem)
    · intro h
      have hbefore := List.rel_of_pairwise_cons h (.head _)
      rw [if_neg (by rw [hab.2 hbefore]; simp)]
      exact htail.2 h.tail

/-! ## Sorted edits -/

theorem sortEdits_perm (edits : List TextEdit) : (sortEdits edits).Perm edits :=
  List.mergeSort_perm _ _

theorem mem_sortEdits {edits : List TextEdit} {e : TextEdit} :
    e ∈ sortEdits edits ↔ e ∈ edits :=
  (sortEdits_perm edits).mem_iff

theorem sortEdits_sorted (edits : List TextEdit) :
    (sortEdits edits).Pairwise fun a b => a.range.le b.range = true :=
  List.pairwise_mergeSort (fun a b c => OffsetRange.le_trans a.range b.range c.range)
    (fun a b => OffsetRange.le_total a.range b.range) edits

/-- Permutations have the same conflicts. -/
theorem hasConflict_congr {as bs : List TextEdit} (h : as.Perm bs) :
    HasConflict as ↔ HasConflict bs := by
  rw [← not_iff_not, not_hasConflict_iff, not_hasConflict_iff]
  exact h.pairwise_iff symm

/-- Sorted edits conflict nowhere iff they follow each other. -/
theorem not_hasConflict_iff_follow {edits : List TextEdit}
    (hordered : ∀ e ∈ edits, e.range.Ordered)
    (hsorted : edits.Pairwise fun a b => a.range.le b.range = true) :
    ¬ HasConflict edits ↔ Follow edits := by
  rw [not_hasConflict_iff]
  constructor
  · intro h
    refine (h.and hsorted).imp_of_mem ?_
    intro a b ha hb hab
    exact (OffsetRange.conflicts_eq_false_iff (hordered a ha) (hordered b hb) hab.2).1 hab.1
  · intro h
    refine (h.and hsorted).imp_of_mem ?_
    intro a b ha hb hab
    exact (OffsetRange.conflicts_eq_false_iff (hordered a ha) (hordered b hb) hab.2).2 hab.1

/-- Testing the neighbours of the sorted edits finds a conflict iff there is one. -/
theorem adjacentConflict?_sortEdits {edits : List TextEdit}
    (hordered : ∀ e ∈ edits, e.range.Ordered) :
    adjacentConflict? (sortEdits edits) = none ↔ ¬ HasConflict edits := by
  have hordered' : ∀ e ∈ sortEdits edits, e.range.Ordered :=
    fun e he => hordered e (mem_sortEdits.1 he)
  have hsorted := sortEdits_sorted edits
  rw [adjacentConflict?_eq_none_iff hordered' hsorted,
    ← not_hasConflict_iff_follow hordered' hsorted, hasConflict_congr (sortEdits_perm edits)]

/-- The ranges of sorted edits do not depend on the order in which the edits were given. -/
theorem map_range_sortEdits_of_perm {as bs : List TextEdit} (h : as.Perm bs) :
    (sortEdits as).map TextEdit.range = (sortEdits bs).map TextEdit.range := by
  have hperm : (sortEdits as).Perm (sortEdits bs) :=
    (sortEdits_perm as).trans (h.trans (sortEdits_perm bs).symm)
  have hsorted (edits : List TextEdit) :
      ((sortEdits edits).map TextEdit.range).Pairwise fun r s => r.le s = true :=
    List.pairwise_map.2 (sortEdits_sorted edits)
  refine List.Perm.eq_of_pairwise ?_ (hsorted as) (hsorted bs) (hperm.map _)
  intro r s _ _
  exact OffsetRange.le_antisymm

/-- Edits without conflicts have different ranges, so only one order sorts them. -/
theorem sorted_eq_of_perm {as bs : List TextEdit} (hordered : ∀ e ∈ as, e.range.Ordered)
    (hnone : ¬ HasConflict as) (h : as.Perm bs)
    (has : as.Pairwise fun a b => a.range.le b.range = true)
    (hbs : bs.Pairwise fun a b => a.range.le b.range = true) : as = bs := by
  have hpair := not_hasConflict_iff.1 hnone
  refine List.Perm.eq_of_pairwise ?_ has hbs h
  intro a b ha hb hab hba
  by_contra hne
  have hrange : a.range = b.range := OffsetRange.le_antisymm hab hba
  -- two different edits of one range would conflict
  have happart : a.Apart b := hpair.forall ha (h.mem_iff.2 hb) hne
  rw [TextEdit.Apart, ← hrange, OffsetRange.conflicts_self (hordered a ha)] at happart
  exact Bool.false_ne_true happart.symm

end PropertyLint
