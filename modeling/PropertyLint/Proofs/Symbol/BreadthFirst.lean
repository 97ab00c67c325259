/-
# Base types are listed by their distance

The distance of a type from another one is the least number of steps from a type to a base type or
an interface that lead to it (`distance`).  While the walk goes on, what is queued differs by at most
one step and stands in the order of its distance, and whatever has not been visited is farther away
than something that is queued (`Frontier`).  So nothing is listed twice, and nothing is listed in
front of what is nearer (`Frontier.pairwise_baseTypesFrom`).  The walk comes to its end whatever the
edges are (`walks_baseTypes`).  The main statement is `baseTypes_breadthFirst`.
-/
import Mathlib.Data.Nat.Find
import PropertyLint.Proofs.Symbol.Constructed

namespace PropertyLint.Compilation

variable {c : Compilation} {id t u p : SymbolId} {queue visited listed : List SymbolId}
  {n fuel : Nat}

/-! ## Distances -/

/-- The number of steps to a base type or an interface that lead from a type to another one. -/
inductive InSteps (c : Compilation) (id : SymbolId) : Nat → SymbolId → Prop
  | here : InSteps c id 0 id
  | step {n : Nat} {t p : SymbolId} (before : InSteps c id n t) (edge : p ∈ c.parents t) :
      InSteps c id (n + 1) p

/-- Some steps lead to the type. -/
def Reaches (c : Compilation) (id t : SymbolId) : Prop := ∃ n, c.InSteps id n t

open Classical in
/-- The least number of steps that lead from a type to another one, zero if none do. -/
noncomputable def distance (c : Compilation) (id t : SymbolId) : Nat :=
  if h : c.Reaches id t then Nat.find h else 0

open Classical in
theorem Reaches.inSteps (h : c.Reaches id t) : c.InSteps id (c.distance id t) t := by
  rw [distance, dif_pos h]
  exact Nat.find_spec h

open Classical in
theorem InSteps.distance_le (h : c.InSteps id n t) : c.distance id t ≤ n := by
  have hreach : c.Reaches id t := ⟨n, h⟩
  rw [distance, dif_pos hreach]
  exact Nat.find_min' hreach h

theorem Reaches.step (h : c.Reaches id t) (hp : p ∈ c.parents t) : c.Reaches id p :=
  let ⟨n, hn⟩ := h
  ⟨n + 1, hn.step hp⟩

theorem Reaches.distance_step_le (h : c.Reaches id t) (hp : p ∈ c.parents t) :
    c.distance id p ≤ c.distance id t + 1 := (h.inSteps.step hp).distance_le

theorem Reaches.trans (h : c.Reaches id t)
    (hreach : Relation.ReflTransGen (fun a b => b ∈ c.parents a) t u) : c.Reaches id u := by
  induction hreach with
  | refl => exact h
  | tail _ hp ih => exact ih.step hp

theorem InSteps.reflTransGen (h : c.InSteps id n t) :
    Relation.ReflTransGen (fun a b => b ∈ c.parents a) id t := by
  induction h with
  | here => exact .refl
  | step _ edge ih => exact ih.tail edge

theorem Derives.reaches (h : c.Derives id t) : c.Reaches id t :=
  Reaches.trans ⟨0, .here⟩ (Relation.TransGen.to_reflTransGen h)

/-! ## What is queued -/

/-- What has been visited and what is queued of it while the walk from a type goes on. -/
structure Frontier (c : Compilation) (id : SymbolId) (queue visited : List SymbolId) : Prop where
  start : id ∈ visited
  nodup : queue.Nodup
  marked : ∀ q ∈ queue, q ∈ visited
  reaches : ∀ q ∈ queue, c.Reaches id q
  closed : ∀ v ∈ visited, v ∉ queue → ∀ p ∈ c.parents v, p ∈ visited
  near : queue.Pairwise fun a b =>
    c.distance id a ≤ c.distance id b ∧ c.distance id b ≤ c.distance id a + 1

namespace Frontier

/-- The walk starts with the type itself. -/
theorem self (c : Compilation) (id : SymbolId) : c.Frontier id [id] [id] where
  start := .head _
  nodup := List.nodup_singleton id
  marked _ hq := hq
  reaches q hq := by
    obtain rfl := List.mem_singleton.1 hq
    exact ⟨0, .here⟩
  closed v hv hnot := absurd hv hnot
  near := List.pairwise_singleton _ id

/-- What has not been visited is farther away than something that is queued. -/
theorem exists_queued_of_inSteps (h : c.Frontier id queue visited) (hn : c.InSteps id n u)
    (hu : u ∉ visited) : ∃ q ∈ queue, c.distance id q < n := by
  induction hn with
  | here => exact absurd h.start hu
  | @step n t p before edge ih =>
    -- the last step leaves something that is queued, or that has not been visited either
    by_cases ht : t ∈ visited
    · have hqueued : t ∈ queue := by
        by_contra hnot
        exact hu (h.closed t ht hnot p edge)
      exact ⟨t, hqueued, Nat.lt_succ_of_le before.distance_le⟩
    · obtain ⟨q, hq, hlt⟩ := ih ht
      exact ⟨q, hq, Nat.lt_succ_of_lt hlt⟩

/-- Nothing is nearer than what is queued first. -/
theorem distance_head_le (h : c.Frontier id (t :: queue) visited) (hq : u ∈ t :: queue) :
    c.distance id t ≤ c.distance id u := by
  rcases List.mem_cons.1 hq with rfl | hq
  · exact Nat.le_refl _
  · exact ((List.pairwise_cons.1 h.near).1 u hq).1

/-- What has not been visited is farther away than what is queued first. -/
theorem distance_head_lt (h : c.Frontier id (t :: queue) visited) (hu : u ∉ visited)
    (hreach : c.Reaches id u) : c.distance id t < c.distance id u := by
  obtain ⟨q, hq, hlt⟩ := h.exists_queued_of_inSteps hreach.inSteps hu
  exact Nat.lt_of_le_of_lt (h.distance_head_le hq) hlt

/-- A new parent of what is queued first is one step farther away. -/
theorem distance_fresh (h : c.Frontier id (t :: queue) visited) (hp : p ∈ c.parents t)
    (hnew : p ∉ visited) : c.distance id p = c.distance id t + 1 := by
  have hreach := h.reaches t (.head _)
  have hle := hreach.distance_step_le hp
  have hlt := h.distance_head_lt hnew (hreach.step hp)
  omega

/-- The first type is listed, and its new parents are queued. -/
theorem next (h : c.Frontier id (t :: queue) visited) :
    c.Frontier id (queue ++ (freshIn visited (c.parents t)).1)
      (freshIn visited (c.parents t)).2 := by
  obtain ⟨hfirst, hrest⟩ := List.pairwise_cons.1 h.near
  obtain ⟨hnot, hnodup⟩ := List.nodup_cons.1 h.nodup
  have hfresh {q : SymbolId} (hq : q ∈ (freshIn visited (c.parents t)).1) :
      q ∈ c.parents t ∧ q ∉ visited := mem_freshIn_fst.1 hq
  refine
    { start := mem_freshIn_snd.2 (.inl h.start)
      nodup := ?_
      marked := fun q hq => ?_
      reaches := fun q hq => ?_
      closed := fun v hv hqueued p hp => ?_
      near := ?_ }
  · refine List.nodup_append'.2 ⟨hnodup, nodup_freshIn _ _, fun q hq hq' => ?_⟩
    exact (hfresh hq').2 (h.marked q (.tail _ hq))
  · rcases List.mem_append.1 hq with hq | hq
    · exact mem_freshIn_snd.2 (.inl (h.marked q (.tail _ hq)))
    · exact mem_freshIn_snd.2 (.inr (hfresh hq).1)
  · rcases List.mem_append.1 hq with hq | hq
    · exact h.reaches q (.tail _ hq)
    · exact (h.reaches t (.head _)).step (hfresh hq).1
  · rw [List.mem_append, not_or] at hqueued
    by_cases hold : v ∈ visited
    · -- what was visited before is closed, but for the first type, whose parents are visited now
      by_cases hvt : v = t
      · exact mem_freshIn_snd.2 (.inr (hvt ▸ hp))
      · refine mem_freshIn_snd.2 (.inl (h.closed v hold (fun hmem => ?_) p hp))
        exact (List.mem_cons.1 hmem).elim hvt hqueued.1
    · have hparent := (mem_freshIn_snd.1 hv).resolve_left hold
      exact absurd (mem_freshIn_fst.2 ⟨hparent, hold⟩) hqueued.2
  · have hdistance {q : SymbolId} (hq : q ∈ (freshIn visited (c.parents t)).1) :
        c.distance id q = c.distance id t + 1 := h.distance_fresh (hfresh hq).1 (hfresh hq).2
    refine List.pairwise_append.2 ⟨hrest, ?_, fun a ha b hb => ?_⟩
    · refine List.pairwise_of_forall_mem_list fun a ha b hb => ?_
      rw [hdistance ha, hdistance hb]
      exact ⟨Nat.le_refl _, Nat.le_succ _⟩
    · have hle := hfirst a ha
      have heq := hdistance hb
      omega

/-! ## What is listed -/

/-- What is listed later is not the first type, and it is not nearer. -/
theorem head_le (h : c.Frontier id (t :: queue) visited)
    (hu : u ∈ c.baseTypesFrom fuel (queue ++ (freshIn visited (c.parents t)).1)
      (freshIn visited (c.parents t)).2) :
    t ≠ u ∧ c.distance id t ≤ c.distance id u := by
  obtain ⟨hmem, q, hq, hreach⟩ := baseTypesFrom_sound hu
  have hvisited : t ∈ visited := h.marked t (.head _)
  by_cases hold : u ∈ visited
  · -- it was queued together with the first type
    have hqueue : u ∈ queue := by
      rcases hmem with hmem | hmem
      · refine (List.mem_append.1 hmem).resolve_right fun hfresh => ?_
        exact (mem_freshIn_fst.1 hfresh).2 hold
      · exact absurd (mem_freshIn_snd.2 (.inl hold)) hmem
    refine ⟨?_, h.distance_head_le (.tail _ hqueue)⟩
    rintro rfl
    exact (List.nodup_cons.1 h.nodup).1 hqueue
  · refine ⟨fun heq => hold (heq ▸ hvisited), Nat.le_of_lt (h.distance_head_lt hold ?_)⟩
    exact (h.next.reaches q hq).trans hreach

/-- The types are listed once, in the order of their distance. -/
theorem pairwise_baseTypesFrom (h : c.Frontier id queue visited) (fuel : Nat) :
    (c.baseTypesFrom fuel queue visited).Pairwise fun a b =>
      a ≠ b ∧ c.distance id a ≤ c.distance id b := by
  induction fuel generalizing queue visited with
  | zero => exact .nil
  | succ fuel ih =>
    cases queue with
    | nil => exact .nil
    | cons t queue => exact .cons (fun u hu => h.head_le hu) (ih h.next)

end Frontier

theorem pairwise_baseTypes (c : Compilation) (id : SymbolId) :
    (c.baseTypes id).Pairwise fun a b => a ≠ b ∧ c.distance id a ≤ c.distance id b := by
  have hself := (Frontier.self c id).next
  exact hself.pairwise_baseTypesFrom (c.parentCount + 1)

/-! ## The end of the walk -/

/-- The walk goes on until nothing is queued: the first type is listed, and its parents that have not
been visited are queued behind the others. -/
inductive Walks (c : Compilation) : List SymbolId → List SymbolId → List SymbolId → Prop
  | done {visited : List SymbolId} : Walks c [] visited []
  | next {t : SymbolId} {queue visited listed : List SymbolId}
      (rest : Walks c (queue ++ (freshIn visited (c.parents t)).1)
        (freshIn visited (c.parents t)).2 listed) :
      Walks c (t :: queue) visited (t :: listed)

/-- With enough steps the walk comes to its end. -/
theorem walks_baseTypesFrom (hfuel : queue.length + (c.unvisited visited).card ≤ fuel) :
    c.Walks queue visited (c.baseTypesFrom fuel queue visited) := by
  induction fuel generalizing queue visited with
  | zero =>
    obtain rfl : queue = [] := List.length_eq_zero_iff.1 (by omega)
    exact .done
  | succ fuel ih =>
    cases queue with
    | nil => exact .done
    | cons t queue =>
      refine .next (ih ?_)
      have hcard := length_freshIn_add_card_le c t visited
      rw [List.length_cons] at hfuel
      rw [List.length_append]
      omega

/-- Whatever the edges are, the walk from a type comes to its end. -/
theorem walks_baseTypes (c : Compilation) (id : SymbolId) :
    c.Walks (freshIn [id] (c.parents id)).1 (freshIn [id] (c.parents id)).2 (c.baseTypes id) := by
  have hcard := length_freshIn_add_card_le c id [id]
  have hcount := card_unvisited_le c [id]
  exact walks_baseTypesFrom (by omega)

/-! ## The main statement -/

/-- **Base types.**  The walk from a type ends for all edges; it lists the other types that the type
derives from, each once and none in front of a nearer one.  Apart from `void`, `object` and nullable
types, a type is assignable to what equals it or one of its base types. -/
theorem baseTypes_breadthFirst (c : Compilation) (id : SymbolId) :
    c.Walks (freshIn [id] (c.parents id)).1 (freshIn [id] (c.parents id)).2 (c.baseTypes id) ∧
      (∀ t, t ∈ c.baseTypes id ↔ c.Reaches id t ∧ t ≠ id) ∧
      (c.baseTypes id).Nodup ∧
      ((c.baseTypes id).Pairwise fun a b => c.distance id a ≤ c.distance id b) ∧
      (c.isKnown id .void = false → ∀ target, c.isKnown target .object = false →
        c.isKnown target .nullable = false →
        (c.isAssignableTo id target = true ↔ c.typesEqual id target = true ∨
          ∃ base ∈ c.baseTypes id, c.typesEqual base target = true)) := by
  have horder := c.pairwise_baseTypes id
  refine ⟨c.walks_baseTypes id, fun t => ?_, horder.imp And.left, horder.imp And.right,
    fun hvoid target hobject hnullable => ?_⟩
  · rw [mem_baseTypes_iff]
    refine and_congr_left fun hne => ⟨Derives.reaches, fun ⟨n, hn⟩ => ?_⟩
    -- a type that is reached in no step is the type itself
    cases hn with
    | here => exact absurd rfl hne
    | step before edge => exact .tail' before.reflTransGen edge
  · unfold isAssignableTo
    rw [nullableUnderlying?_eq_none hnullable, hvoid, hobject]
    by_cases hequal : c.typesEqual id target = true
    · simp [hequal]
    · simp [hequal]

/-- A class with two base types that share one; the last one names itself and the first one. -/
def diamond : List Change :=
  [.add (.type { name := "A", kind := .class_ }), .add (.type { name := "B", kind := .class_ }),
    .add (.type { name := "I", kind := .interface }),
    .add (.type { name := "J", kind := .interface }), .setBase 0 (some 1), .addInterface 0 2,
    .addInterface 1 3, .addInterface 2 3, .addInterface 3 3, .addInterface 3 0]

/-- The shared interface is listed once, behind the nearer types, and the class is assignable to
it. -/
theorem baseTypes_breadthFirst_diamond :
    (build diamond).baseTypes 0 = [1, 2, 3] ∧ (build diamond).isKnown 0 .void = false ∧
      (build diamond).isKnown 3 .object = false ∧ (build diamond).isKnown 3 .nullable = false ∧
      (build diamond).Reaches 0 3 ∧ (build diamond).isAssignableTo 0 3 = true := by
  obtain ⟨-, hmem, -, -, hassignable⟩ := baseTypes_breadthFirst (build diamond) 0
  have hbases : (build diamond).baseTypes 0 = [1, 2, 3] := by decide +kernel
  have hvoid : (build diamond).isKnown 0 .void = false := by decide +kernel
  have hobject : (build diamond).isKnown 3 .object = false := by decide +kernel
  have hnullable : (build diamond).isKnown 3 .nullable = false := by decide +kernel
  have hlisted : 3 ∈ (build diamond).baseTypes 0 := by
    rw [hbases]
    decide
  exact ⟨hbases, hvoid, hobject, hnullable, ((hmem 3).1 hlisted).1,
    (hassignable hvoid 3 hobject hnullable).2 (.inr ⟨3, hlisted, by decide +kernel⟩)⟩

end PropertyLint.Compilation
