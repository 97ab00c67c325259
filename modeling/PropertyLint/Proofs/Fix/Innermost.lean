/-
# The innermost declaration around a range

A caller that knows a range asks for the type and the member around it.  The type is chosen by its
length among all types of the file and the member as the first one that fits.  Both are right since
the parts of a file nest: a type is shorter than the types around it, and types that do not nest lie
apart, so they have at most an insertion point in common (`SyntaxTree.innermost_lookup`).
-/
import PropertyLint.Proofs.Fix.Lookup

namespace PropertyLint

namespace OffsetRange

variable {r a b : OffsetRange}

/-- The range is the insertion point where the first one of the two ranges ends and the second one
starts. -/
def Joins (r a b : OffsetRange) : Prop := a.stop = r.start ∧ r.start = r.stop ∧ r.stop = b.start

theorem contains_iff : a.contains r = true ↔ a.start ≤ r.start ∧ r.stop ≤ a.stop := by
  rw [contains, Bool.and_eq_true, decide_eq_true_eq, decide_eq_true_eq]

/-- What two ranges that lie apart have in common is the insertion point between them. -/
theorem Precedes.joins (h : a.Precedes b) (hr : r.start ≤ r.stop) (ha : a.contains r = true)
    (hb : b.contains r = true) : r.Joins a b := by
  rw [contains_iff] at ha hb
  unfold Precedes at h
  unfold Joins
  omega

theorem Joins.not_lt (h : r.Joins a b) : ¬ r.start < r.stop := by
  unfold Joins at h
  omega

end OffsetRange

namespace SyntaxTree

variable {file : FileId} {text : String} {t : SyntaxTree} {r : OffsetRange} {d e : TypeDecl}
  {ds : List TypeDecl} {m m' : Member}

/-- The type has the range in it, and no type inside it has. -/
def InnermostAt (t : SyntaxTree) (r : OffsetRange) (d : TypeDecl) : Prop :=
  t.Holds (.member (.type d)) ∧ d.range.contains r = true ∧
    ∀ e, (Part.member (.type d)).Has (.member (.type e)) → e ≠ d → e.range.contains r = false

/-! ## The shortest type -/

theorem shortest?_eq_none_iff : shortest? ds = none ↔ ds = [] := by
  cases ds with
  | nil => exact iff_of_true rfl rfl
  | cons d ds =>
    refine iff_of_false ?_ (List.cons_ne_nil _ _)
    rw [shortest?]
    cases shortest? ds with
    | none => exact Option.some_ne_none _
    | some u =>
      dsimp only
      split <;> exact Option.some_ne_none _

theorem shortest?_le (h : shortest? ds = some d) (he : e ∈ ds) :
    d.range.length ≤ e.range.length := by
  induction ds generalizing d with
  | nil => cases he
  | cons c ds ih =>
    rw [shortest?] at h
    cases hrest : shortest? ds with
    | none =>
      rw [hrest] at h
      obtain rfl := Option.some.inj h
      rw [shortest?_eq_none_iff.1 hrest, List.mem_singleton] at he
      rw [he]
    | some u =>
      simp only [hrest] at h
      -- the shortest one of the others is at most as long as each of them
      have hothers (he : e ∈ ds) : u.range.length ≤ e.range.length := ih hrest he
      by_cases hlt : u.range.length < c.range.length
      · obtain rfl : u = d := by simpa [hlt] using h
        rcases List.mem_cons.1 he with rfl | he
        · exact Nat.le_of_lt hlt
        · exact hothers he
      · obtain rfl : c = d := by simpa [hlt] using h
        rcases List.mem_cons.1 he with rfl | he
        · exact Nat.le_refl _
        · exact Nat.le_trans (Nat.le_of_not_lt hlt) (hothers he)

/-! ## The type -/

section
variable (h : parse file text = .ok t)
include h

/-- No type is found if none has the range in it. -/
theorem containingType?_eq_none_iff :
    t.containingType? r = none ↔
      ∀ d, t.Holds (.member (.type d)) → d.range.contains r = false := by
  unfold containingType?
  rw [shortest?_eq_none_iff, List.filter_eq_nil_iff]
  refine forall_congr' fun d => ?_
  rw [mem_types_iff h, Bool.not_eq_true]

theorem holds_of_containingType? (hd : t.containingType? r = some d) :
    t.Holds (.member (.type d)) ∧ d.range.contains r = true := by
  obtain ⟨hmem, hcontains⟩ := List.mem_filter.1 (shortest?_mem hd)
  exact ⟨(mem_types_iff h).1 hmem, hcontains⟩

theorem length_le_of_containingType? (hd : t.containingType? r = some d)
    (he : t.Holds (.member (.type e))) (hcontains : e.range.contains r = true) :
    d.range.length ≤ e.range.length :=
  shortest?_le hd (List.mem_filter.2 ⟨(mem_types_iff h).2 he, hcontains⟩)

/-- A type is longer than the types in it, so the one that is found has none around the range. -/
theorem innermostAt_of_containingType? (hd : t.containingType? r = some d) :
    t.InnermostAt r d := by
  obtain ⟨hholds, hcontains⟩ := holds_of_containingType? h hd
  refine ⟨hholds, hcontains, fun e hhas hne => ?_⟩
  rw [← Bool.not_eq_true]
  intro he
  have hshort := length_le_of_containingType? h hd (hholds.has hhas) he
  have hnested := hholds.wellNested h
  have hstart := Part.start_lt_of_has_type hnested hhas hne.symm
  have hstop : e.range.stop ≤ d.range.stop := (hnested.le_of_has hhas).2
  have hnonempty : e.range.start < e.range.stop := (hnested.of_has hhas).fits.nonempty
  unfold OffsetRange.length at hshort
  omega

/-- Two innermost types around a range touch at it. -/
theorem InnermostAt.eq_or_joins (hr : r.start ≤ r.stop) (hd : t.InnermostAt r d)
    (he : t.InnermostAt r e) : e = d ∨ r.Joins d.range e.range ∨ r.Joins e.range d.range := by
  obtain ⟨hdholds, hdcontains, hdinner⟩ := hd
  obtain ⟨heholds, hecontains, heinner⟩ := he
  rcases apart_or_has h hdholds heholds with (hbefore | hbefore) | hhas | hhas
  · exact .inr (.inl (hbefore.joins hr hdcontains hecontains))
  · exact .inr (.inr (hbefore.joins hr hecontains hdcontains))
  · by_contra hne
    have := hdinner e hhas fun heq => hne (.inl heq)
    rw [hecontains] at this
    cases this
  · by_contra hne
    have := heinner d hhas fun heq => hne (.inl heq.symm)
    rw [hdcontains] at this
    cases this

/-! ## The member -/

omit h in
theorem containingMember?_eq_find? (hd : t.containingType? r = some d) :
    t.containingMember? r = d.ownMembers.find? fun m => m.range.contains r := by
  unfold containingMember?
  rw [hd]
  rfl

/-- A member that has the range in it and is not the one that is found touches that one at the
range, from behind. -/
theorem eq_or_joins_of_containingMember? (hr : r.start ≤ r.stop)
    (hd : t.containingType? r = some d) (hm : t.containingMember? r = some m)
    (hm' : m' ∈ d.members) (hcontains : m'.range.contains r = true) :
    m' = m ∨ r.Joins m.range m'.range := by
  obtain ⟨hholds, -, hinner⟩ := innermostAt_of_containingType? h hd
  rw [containingMember?_eq_find? hd, List.find?_eq_some_iff_append] at hm
  obtain ⟨hfound, before, behind, hsplit, hbefore⟩ := hm
  -- a nested type does not have the range in it
  have hown : m' ∈ d.ownMembers := by
    refine List.mem_filter.2 ⟨hm', ?_⟩
    rw [Bool.not_eq_true', ← Bool.not_eq_true]
    intro htype
    obtain ⟨e, rfl⟩ := Member.exists_eq_type htype
    have hhas : (Part.member (.type d)).Has (.member (.type e)) :=
      .of_mem (TypeDecl.type_mem_parts (TypeDecl.mem_nestedTypes.2 hm'))
    have hne : e ≠ d := fun heq =>
      Part.not_has_of_mem_parts (TypeDecl.type_mem_parts (TypeDecl.mem_nestedTypes.2 hm'))
        (heq ▸ .refl)
    exact Bool.false_ne_true ((hinner e hhas hne).symm.trans hcontains)
  rw [hsplit, List.mem_append, List.mem_cons] at hown
  rcases hown with hown | rfl | hown
  · exact absurd hcontains (by simpa using hbefore m' hown)
  · exact .inl rfl
  · have hordered : d.ownMembers.Pairwise fun m m' => m.range.Precedes m'.range :=
      (TypeDecl.members_precede (hholds.wellNested h)).sublist List.filter_sublist
    rw [hsplit] at hordered
    have hprecedes := (List.pairwise_cons.1 (List.pairwise_append.1 hordered).2.1).1 m' hown
    exact .inr (hprecedes.joins hr hfound hcontains)

/-- **Innermost lookup.**  No type is found for a range exactly when no type at any depth has the
range in it; the one that is found has it, and no type inside it has.  Another such type touches it
at the range, which is empty then, and is at least as long.  The member that is found is one of this
type and no type itself; one is found if one has the range in it, and another member with the range
in it starts where the first one ends, at the range, which is empty then. -/
theorem innermost_lookup (hr : r.start ≤ r.stop) :
    (t.containingType? r = none ↔
      ∀ d, t.Holds (.member (.type d)) → d.range.contains r = false) ∧
    (∀ d, t.containingType? r = some d → t.InnermostAt r d ∧
      ∀ e, t.InnermostAt r e → e = d ∨
        (r.Joins d.range e.range ∨ r.Joins e.range d.range) ∧
          d.range.length ≤ e.range.length) ∧
    (t.containingType? r = none → t.containingMember? r = none) ∧
    ∀ d, t.containingType? r = some d →
      (t.containingMember? r = none ↔ ∀ m ∈ d.ownMembers, m.range.contains r = false) ∧
      ∀ m, t.containingMember? r = some m →
        m ∈ d.members ∧ m.isType = false ∧ m.range.contains r = true ∧
        (∀ m' ∈ d.members, m'.range.contains r = true → m' = m ∨ r.Joins m.range m'.range) ∧
        (r.start < r.stop → ∀ m' ∈ d.members, m'.range.contains r = true → m' = m) := by
  refine ⟨containingType?_eq_none_iff h, fun d hd => ?_, fun hnone => ?_, fun d hd => ⟨?_, ?_⟩⟩
  · have hinner := innermostAt_of_containingType? h hd
    refine ⟨hinner, fun e he => (InnermostAt.eq_or_joins h hr hinner he).imp_right fun hjoins => ?_⟩
    exact ⟨hjoins, length_le_of_containingType? h hd he.1 he.2.1⟩
  · unfold containingMember?
    rw [hnone]
    rfl
  · rw [containingMember?_eq_find? hd, List.find?_eq_none]
    simp only [Bool.not_eq_true]
  · intro m hm
    have hfind := hm
    rw [containingMember?_eq_find? hd] at hfind
    obtain ⟨hmem, htype⟩ := List.mem_filter.1 (List.mem_of_find?_eq_some hfind)
    have hjoins (m' : Member) (hm' : m' ∈ d.members) (hcontains : m'.range.contains r = true) :
        m' = m ∨ r.Joins m.range m'.range :=
      eq_or_joins_of_containingMember? h hr hd hm hm' hcontains
    have hcontains : m.range.contains r = true := by simpa using List.find?_some hfind
    refine ⟨hmem, by simpa using htype, hcontains, hjoins, fun hlt m' hm' hin => ?_⟩
    exact (hjoins m' hm' hin).resolve_right fun hjoin => hjoin.not_lt hlt

end

/-- Two classes that touch, the second one with two fields that touch. -/
def touchingTypes : String :=
  "class A \x7b class B \x7b \x7dclass C \x7b int F;int G; \x7d \x7d"

/-- Between the classes the shorter one is found, between the fields the first one. -/
theorem innermost_lookup_touchingTypes : ∃ t, parse 0 touchingTypes = .ok t ∧
    (t.containingType? ⟨21, 21⟩).map (fun d => d.name.text) = some "B" ∧
    (t.containingMember? ⟨37, 37⟩).map (fun m => m.name.text) = some "F" ∧
    ((t.containingType? ⟨37, 37⟩ = none ↔
      ∀ d, t.Holds (.member (.type d)) → d.range.contains ⟨37, 37⟩ = false) ∧
    (∀ d, t.containingType? ⟨37, 37⟩ = some d → t.InnermostAt ⟨37, 37⟩ d ∧
      ∀ e, t.InnermostAt ⟨37, 37⟩ e → e = d ∨
        (OffsetRange.Joins ⟨37, 37⟩ d.range e.range ∨
          OffsetRange.Joins ⟨37, 37⟩ e.range d.range) ∧ d.range.length ≤ e.range.length) ∧
    (t.containingType? ⟨37, 37⟩ = none → t.containingMember? ⟨37, 37⟩ = none) ∧
    ∀ d, t.containingType? ⟨37, 37⟩ = some d →
      (t.containingMember? ⟨37, 37⟩ = none ↔
        ∀ m ∈ d.ownMembers, m.range.contains ⟨37, 37⟩ = false) ∧
      ∀ m, t.containingMember? ⟨37, 37⟩ = some m →
        m ∈ d.members ∧ m.isType = false ∧ m.range.contains ⟨37, 37⟩ = true ∧
        (∀ m' ∈ d.members, m'.range.contains ⟨37, 37⟩ = true →
          m' = m ∨ OffsetRange.Joins ⟨37, 37⟩ m.range m'.range) ∧
        ((⟨37, 37⟩ : OffsetRange).start < (⟨37, 37⟩ : OffsetRange).stop →
          ∀ m' ∈ d.members, m'.range.contains ⟨37, 37⟩ = true → m' = m)) := by
  have hread : ((parse 0 touchingTypes).toOption.map fun t =>
      ((t.containingType? ⟨21, 21⟩).map fun d => d.name.text,
        (t.containingMember? ⟨37, 37⟩).map fun m => m.name.text)) = some (some "B", some "F") := by
    decide +kernel
  obtain ⟨t, ht, hread⟩ := Option.map_eq_some_iff.1 hread
  rw [toOption_eq_some_iff] at ht
  exact ⟨t, ht, (Prod.mk.inj hread).1, (Prod.mk.inj hread).2, innermost_lookup ht (Nat.le_refl _)⟩

end SyntaxTree

end PropertyLint
