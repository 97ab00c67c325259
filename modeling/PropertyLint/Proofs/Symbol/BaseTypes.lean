/-
# Base types are what a type derives from

The walk over base types and interfaces visits every type once.  What it lists can be reached from
the start (`baseTypesFrom_sound`).  Whatever is queued is new, so the number of names of base types
and interfaces in the whole compilation bounds the steps (`length_freshIn_add_card_le`), and with a
type its parents are listed (`baseTypesFrom_closed`).  So the base types of a type are exactly the
other types that it derives from (`mem_baseTypes_iff`).
-/
import Mathlib.Data.Finset.Card
import Mathlib.Logic.Relation
import PropertyLint.Symbol.Relation

namespace PropertyLint.Compilation

variable {c : Compilation} {id t : SymbolId} {ts visited queue : List SymbolId} {fuel : Nat}

/-- The second type is a base type or an interface of the first one, or of one that the first one
derives from. -/
def Derives (c : Compilation) : SymbolId → SymbolId → Prop :=
  Relation.TransGen fun a b => b ∈ c.parents a

/-! ## What is queued -/

theorem freshIn_cons_of_mem {u : SymbolId} (hu : u ∈ visited) :
    freshIn visited (u :: ts) = freshIn visited ts := by
  rw [freshIn, if_pos (List.contains_iff_mem.2 hu)]

theorem freshIn_cons_of_not_mem {u : SymbolId} (hu : u ∉ visited) :
    freshIn visited (u :: ts) =
      (u :: (freshIn (u :: visited) ts).1, (freshIn (u :: visited) ts).2) := by
  rw [freshIn, if_neg (mt List.contains_iff_mem.1 hu)]

theorem mem_freshIn_fst : t ∈ (freshIn visited ts).1 ↔ t ∈ ts ∧ t ∉ visited := by
  induction ts generalizing visited with
  | nil => simp [freshIn]
  | cons u ts ih =>
    by_cases hu : u ∈ visited
    · rw [freshIn_cons_of_mem hu, ih]
      grind
    · rw [freshIn_cons_of_not_mem hu, List.mem_cons, ih]
      grind

theorem mem_freshIn_snd : t ∈ (freshIn visited ts).2 ↔ t ∈ visited ∨ t ∈ ts := by
  induction ts generalizing visited with
  | nil => simp [freshIn]
  | cons u ts ih =>
    by_cases hu : u ∈ visited
    · rw [freshIn_cons_of_mem hu, ih]
      grind
    · rw [freshIn_cons_of_not_mem hu, ih]
      grind

theorem nodup_freshIn (visited ts : List SymbolId) : (freshIn visited ts).1.Nodup := by
  induction ts generalizing visited with
  | nil => exact .nil
  | cons u ts ih =>
    by_cases hu : u ∈ visited
    · rw [freshIn_cons_of_mem hu]
      exact ih visited
    · rw [freshIn_cons_of_not_mem hu]
      refine List.nodup_cons.2 ⟨fun hmem => ?_, ih _⟩
      exact (mem_freshIn_fst.1 hmem).2 (.head _)

/-! ## The number of steps -/

/-- All types that are named as a base type or an interface, as often as they are named. -/
def namedParents (c : Compilation) : List SymbolId :=
  c.symbols.toList.flatMap fun s => (s.asType?.map TypeSymbol.parents).getD []

theorem mem_namedParents (h : t ∈ c.parents id) : t ∈ c.namedParents := by
  unfold parents at h
  cases hid : c.type? id with
  | none => simp [hid] at h
  | some u =>
    obtain ⟨s, hs, hsu⟩ := Option.bind_eq_some_iff.1 hid
    refine List.mem_flatMap.2 ⟨s, Array.mem_toList_iff.2 (Array.mem_of_getElem? hs), ?_⟩
    simpa [hid, hsu] using h

theorem length_namedParents (c : Compilation) : c.namedParents.length = c.parentCount := by
  unfold namedParents parentCount
  rw [List.length_flatMap, ← Array.foldl_toList, ← List.foldl_map (g := fun n k => n + k),
    ← List.sum_eq_foldl]
  congr 2
  funext s
  cases s.asType? <;> rfl

/-- The types that can still be queued. -/
def unvisited (c : Compilation) (visited : List SymbolId) : Finset SymbolId :=
  c.namedParents.toFinset \ visited.toFinset

theorem mem_unvisited : t ∈ c.unvisited visited ↔ t ∈ c.namedParents ∧ t ∉ visited := by
  simp [unvisited]

theorem card_unvisited_le (c : Compilation) (visited : List SymbolId) :
    (c.unvisited visited).card ≤ c.parentCount := by
  rw [← length_namedParents]
  exact Nat.le_trans (Finset.card_le_card Finset.sdiff_subset) (List.toFinset_card_le _)

/-- The new ones among the parents of a type use up types that can be queued. -/
theorem length_freshIn_add_card_le (c : Compilation) (id : SymbolId) (visited : List SymbolId) :
    (freshIn visited (c.parents id)).1.length +
      (c.unvisited (freshIn visited (c.parents id)).2).card ≤ (c.unvisited visited).card := by
  rw [← List.toFinset_card_of_nodup (nodup_freshIn visited _), ← Finset.card_union_of_disjoint]
  · refine Finset.card_le_card (Finset.union_subset ?_ ?_)
    · intro u hu
      obtain ⟨hparent, hnew⟩ := mem_freshIn_fst.1 (List.mem_toFinset.1 hu)
      exact mem_unvisited.2 ⟨mem_namedParents hparent, hnew⟩
    · intro u hu
      obtain ⟨hnamed, hnew⟩ := mem_unvisited.1 hu
      exact mem_unvisited.2 ⟨hnamed, fun hmem => hnew (mem_freshIn_snd.2 (.inl hmem))⟩
  · refine Finset.disjoint_left.2 fun u hu hu' => ?_
    have hparent := (mem_freshIn_fst.1 (List.mem_toFinset.1 hu)).1
    exact (mem_unvisited.1 hu').2 (mem_freshIn_snd.2 (.inr hparent))

/-- What visiting the parents of a type gives: those that are new, and all that are visited then. -/
theorem exists_freshIn (c : Compilation) (id : SymbolId) (visited : List SymbolId) :
    ∃ fresh visited', freshIn visited (c.parents id) = (fresh, visited') ∧
      (∀ p, p ∈ fresh ↔ p ∈ c.parents id ∧ p ∉ visited) ∧
      (∀ p, p ∈ visited' ↔ p ∈ visited ∨ p ∈ c.parents id) ∧
      fresh.length + (c.unvisited visited').card ≤ (c.unvisited visited).card :=
  ⟨_, _, rfl, fun _ => mem_freshIn_fst, fun _ => mem_freshIn_snd,
    length_freshIn_add_card_le c id visited⟩

/-! ## What is listed -/

/-- What is listed is queued or has not been visited, and it can be reached from what is queued. -/
theorem baseTypesFrom_sound (h : t ∈ c.baseTypesFrom fuel queue visited) :
    (t ∈ queue ∨ t ∉ visited) ∧
      ∃ q ∈ queue, Relation.ReflTransGen (fun a b => b ∈ c.parents a) q t := by
  induction fuel generalizing queue visited with
  | zero => simp [baseTypesFrom] at h
  | succ fuel ih =>
    obtain _ | ⟨u, queue⟩ := queue
    · simp [baseTypesFrom] at h
    obtain ⟨fresh, visited', hfresh, hnew, hvisited, -⟩ := exists_freshIn c u visited
    rw [baseTypesFrom, hfresh, List.mem_cons] at h
    rcases h with rfl | h
    · exact ⟨.inl (.head _), t, .head _, .refl⟩
    · obtain ⟨hmem, q, hq, hreach⟩ := ih h
      constructor
      · rcases hmem with hmem | hmem
        · rcases List.mem_append.1 hmem with hmem | hmem
          · exact .inl (.tail _ hmem)
          · exact .inr ((hnew t).1 hmem).2
        · exact .inr fun hold => hmem ((hvisited t).2 (.inl hold))
      · rcases List.mem_append.1 hq with hq | hq
        · exact ⟨q, .tail _ hq, hreach⟩
        · exact ⟨u, .head _, hreach.head ((hnew q).1 hq).1⟩

/-- With enough steps everything that is queued is listed, and the parents of what is listed have
been visited or are listed. -/
theorem baseTypesFrom_closed (hfuel : queue.length + (c.unvisited visited).card ≤ fuel) :
    (∀ q ∈ queue, q ∈ c.baseTypesFrom fuel queue visited) ∧
      ∀ u ∈ c.baseTypesFrom fuel queue visited, ∀ p ∈ c.parents u,
        p ∈ visited ∨ p ∈ c.baseTypesFrom fuel queue visited := by
  induction fuel generalizing queue visited with
  | zero =>
    obtain rfl : queue = [] := List.length_eq_zero_iff.1 (by omega)
    simp [baseTypesFrom]
  | succ fuel ih =>
    obtain _ | ⟨t, queue⟩ := queue
    · simp [baseTypesFrom]
    obtain ⟨fresh, visited', hfresh, hnew, hvisited, hcard⟩ := exists_freshIn c t visited
    have hfuel' : (queue ++ fresh).length + (c.unvisited visited').card ≤ fuel := by
      rw [List.length_cons] at hfuel
      rw [List.length_append]
      omega
    obtain ⟨hqueue, hclosed⟩ := ih hfuel'
    rw [baseTypesFrom, hfresh]
    dsimp only
    -- a parent of the type in front has been visited or is queued now
    have hparents (p : SymbolId) (hp : p ∈ c.parents t) :
        p ∈ visited ∨ p ∈ t :: c.baseTypesFrom fuel (queue ++ fresh) visited' := by
      by_cases hold : p ∈ visited
      · exact .inl hold
      · exact .inr (.tail _ (hqueue p (List.mem_append_right _ ((hnew p).2 ⟨hp, hold⟩))))
    refine ⟨List.forall_mem_cons.2 ⟨.head _, fun q hq => ?_⟩, List.forall_mem_cons.2 ⟨hparents, ?_⟩⟩
    · exact .tail _ (hqueue q (List.mem_append_left _ hq))
    · intro u hu p hp
      rcases hclosed u hu p hp with hold | hlisted
      · rcases (hvisited p).1 hold with hold | hp
        · exact .inl hold
        · exact hparents p hp
      · exact .inr (.tail _ hlisted)

/-! ## Base types -/

/-- The base types of a type are the other types that it derives from. -/
theorem mem_baseTypes_iff : t ∈ c.baseTypes id ↔ c.Derives id t ∧ t ≠ id := by
  obtain ⟨fresh, visited, hfresh, hnew, hvisited, hcard⟩ := exists_freshIn c id [id]
  rw [baseTypes, hfresh]
  dsimp only
  constructor
  · intro h
    obtain ⟨hmem, q, hq, hreach⟩ := baseTypesFrom_sound h
    refine ⟨.head' ((hnew q).1 hq).1 hreach, ?_⟩
    rintro rfl
    rcases hmem with hmem | hmem
    · exact ((hnew t).1 hmem).2 (.head _)
    · exact hmem ((hvisited t).2 (.inl (.head _)))
  · rintro ⟨hderives, hne⟩
    have hfuel : fresh.length + (c.unvisited visited).card ≤ c.parentCount + 1 := by
      have hcount := card_unvisited_le c [id]
      omega
    obtain ⟨hqueue, hclosed⟩ := baseTypesFrom_closed hfuel
    have hparents (p : SymbolId) (hp : p ∈ c.parents id) :
        p = id ∨ p ∈ c.baseTypesFrom (c.parentCount + 1) fresh visited := by
      by_cases hid : p = id
      · exact .inl hid
      · exact .inr (hqueue p ((hnew p).2 ⟨hp, by simpa using hid⟩))
    -- the type itself and what is listed are closed under parents
    refine Or.resolve_left ?_ hne
    clear hne
    induction hderives with
    | single hp => exact hparents _ hp
    | tail _ hp ih =>
      rcases ih with rfl | hlisted
      · exact hparents _ hp
      · rcases hclosed _ hlisted _ hp with hold | hlisted
        · rcases (hvisited _).1 hold with hid | hp
          · exact .inl (by simpa using hid)
          · exact hparents _ hp
        · exact .inr hlisted

end PropertyLint.Compilation
