/-
# The declarations around a part

Parts are nested like the nodes of a tree: of two parts that have something in common one stands in
the other (`SyntaxTree.comparable`).  So the types around a part are nested in each other, and at
most one of them stands in all of them, the innermost one (`SyntaxTree.Innermost`).  Their ranges
are nested in the same way: of two parts that do not lie apart one stands in the other
(`SyntaxTree.apart_or_has`), so a part whose range holds the one of another part has that part in it
(`SyntaxTree.has_of_contains`).
-/
import PropertyLint.Proofs.Syntax.Identity

namespace PropertyLint

namespace Part

variable {cs : List Char} {p q r a b x : Part}

/-- What stands in a part is the part itself or stands in a part of it. -/
theorem has_iff : p.Has q ↔ p = q ∨ ∃ r ∈ p.parts, r.Has q := by
  constructor
  · intro h
    induction h with
    | refl => exact .inl rfl
    | part _ hr ih =>
      rcases ih with rfl | ⟨s, hs, hhas⟩
      · exact .inr ⟨_, hr, .refl⟩
      · exact .inr ⟨s, hs, hhas.part hr⟩
  · rintro (rfl | ⟨r, hr, hhas⟩)
    · exact .refl
    · exact (Has.of_mem hr).trans hhas

theorem WellNested.not_apart_self (h : p.WellNested cs) : ¬ p.Apart p := by
  have hne := h.fits.nonempty
  unfold Apart Before OffsetRange.Precedes
  omega

/-- Two parts of one part that have something in common are the same. -/
theorem WellNested.eq_of_has (h : p.WellNested cs) (hq : q ∈ p.parts) (hr : r ∈ p.parts)
    (hqx : q.Has x) (hrx : r.Has x) : q = r := by
  by_contra hne
  exact ((h.part hq).of_has hqx).not_apart_self
    ((h.apart_of_ne hq hr hne).of_has (h.part hq) (h.part hr) hqx hrx)

/-- Of two parts that have something in common, one stands in the other. -/
theorem WellNested.comparable (h : p.WellNested cs) (ha : p.Has a) (hb : p.Has b)
    (hax : a.Has x) (hbx : b.Has x) : a.Has b ∨ b.Has a := by
  induction h with
  | @mk p hfits hparts ih =>
    rcases has_iff.1 ha with rfl | ⟨r, hr, hra⟩
    · exact .inl hb
    rcases has_iff.1 hb with rfl | ⟨s, hs, hsb⟩
    · exact .inr ha
    obtain rfl := (WellNested.mk hfits hparts).eq_of_has hr hs (hra.trans hax) (hsb.trans hbx)
    exact ih r hr hra hsb

/-- Nothing stands between a part and its parts. -/
theorem WellNested.eq_or_has (h : p.WellNested cs) (ha : p.Has a) (hq : q ∈ p.parts)
    (haq : a.Has q) : p = a ∨ q.Has a := by
  rcases has_iff.1 ha with rfl | ⟨r, hr, hra⟩
  · exact .inl rfl
  · obtain rfl := h.eq_of_has hr hq (hra.trans haq) .refl
    exact .inr hra

theorem nodes_sublist (hq : q ∈ p.parts) : q.nodes.Sublist (p.parts.flatMap nodes) := by
  rw [List.flatMap_def]
  exact List.sublist_flatten_of_mem (List.mem_map_of_mem hq)

theorem length_nodes (p : Part) :
    p.nodes.length = p.syntaxNode?.toList.length + (p.parts.flatMap nodes).length := by
  rw [p.nodes_perm.length_eq, List.length_append]

theorem Has.length_nodes_le (h : p.Has q) : q.nodes.length ≤ p.nodes.length := by
  induction h with
  | refl => exact Nat.le_refl _
  | @part q r _ hr ih =>
    have hsub := (nodes_sublist hr).length_le
    have hlength := q.length_nodes
    omega

/-- A member has more nodes than a part of it, so it does not stand in one. -/
theorem not_has_of_mem_parts {m : Member} (hq : q ∈ (Part.member m).parts) :
    ¬ q.Has (.member m) := by
  intro hhas
  have hle := hhas.length_nodes_le
  have hsub := (nodes_sublist hq).length_le
  have hlength := (Part.member m).length_nodes
  have hself : (Part.member m).syntaxNode?.toList.length = 1 := rfl
  omega

theorem Has.antisymm_member {m m' : Member} (h : (Part.member m).Has (.member m'))
    (h' : (Part.member m').Has (.member m)) : m = m' := by
  rcases has_iff.1 h with heq | ⟨r, hr, hhas⟩
  · exact Part.member.inj heq
  · exact absurd (hhas.trans h') (not_has_of_mem_parts hr)

/-- No member stands in a member that is no type, but itself. -/
theorem Has.eq_of_not_type {m m' : Member} (hm : m.isType = false)
    (h : (Part.member m).Has (.member m')) : m' = m := by
  rcases has_iff.1 h with heq | ⟨r, hr, hhas⟩
  · exact (Part.member.inj heq).symm
  · obtain ⟨m'', rfl⟩ := exists_member_of_has hhas
    obtain ⟨d, hd, -⟩ := exists_type_of_member_mem hr
    rw [Part.member.inj hd] at hm
    simp [Member.isType] at hm

end Part

namespace SyntaxTree

variable {file : FileId} {text : String} {t : SyntaxTree} {p q : Part} {d e : TypeDecl}
  {m : Member}

/-- A type around a part that stands in all types around it. -/
def Innermost (t : SyntaxTree) (p : Part) (d : TypeDecl) : Prop :=
  t.Holds (.member (.type d)) ∧ (Part.member (.type d)).Has p ∧
    ∀ e, t.Holds (.member (.type e)) → (Part.member (.type e)).Has p →
      (Part.member (.type e)).Has (.member (.type d))

/-- A member around a part that is no type. -/
def MemberAround (t : SyntaxTree) (p : Part) (m : Member) : Prop :=
  t.Holds (.member m) ∧ m.isType = false ∧ (Part.member m).Has p

theorem Innermost.eq (hd : t.Innermost p d) (he : t.Innermost p e) : d = e :=
  Member.type.inj (Part.Has.antisymm_member (he.2.2 d hd.1 hd.2.1) (hd.2.2 e he.1 he.2.1))

theorem Innermost.some_eq_iff (hd : t.Innermost p d) (e : TypeDecl) :
    some d = some e ↔ t.Innermost p e := by
  rw [Option.some.injEq]
  exact ⟨fun heq => heq ▸ hd, hd.eq⟩

section
variable (h : parse file text = .ok t)
include h

/-- The attributes and the types of a file lie apart. -/
theorem parts_apart : t.root.parts.Pairwise Part.Apart := by
  obtain ⟨ps, -, hordered, hattributes, htypes⟩ := exists_parts_of_parse h
  have hapart : ps.Pairwise Part.Apart := hordered.imp .inl
  unfold CompilationUnit.parts
  rw [List.pairwise_append]
  refine ⟨hapart.sublist hattributes, hapart.sublist htypes, fun p hp q hq => ?_⟩
  obtain ⟨a, ha, rfl⟩ := List.mem_map.1 hp
  obtain ⟨d, hd, rfl⟩ := List.mem_map.1 hq
  exact apart_of_parse h ha hd

/-- Two parts of a file itself that have something in common are the same. -/
theorem eq_of_has {a b x : Part} (ha : a ∈ t.root.parts) (hb : b ∈ t.root.parts)
    (hax : a.Has x) (hbx : b.Has x) : a = b := by
  by_contra hne
  have hnested {p : Part} (hp : p ∈ t.root.parts) := wellNested_of_mem_parts h hp
  exact ((hnested ha).of_has hax).not_apart_self
    (((parts_apart h).forall ha hb hne).of_has (hnested ha) (hnested hb) hax hbx)

/-- Of two parts in a file that have something in common, one stands in the other. -/
theorem comparable {a b x : Part} (ha : t.Holds a) (hb : t.Holds b) (hax : a.Has x)
    (hbx : b.Has x) : a.Has b ∨ b.Has a := by
  obtain ⟨r, hr, hra⟩ := holds_iff.1 ha
  obtain ⟨s, hs, hsb⟩ := holds_iff.1 hb
  obtain rfl := eq_of_has h hr hs (hra.trans hax) (hsb.trans hbx)
  exact (wellNested_of_mem_parts h hr).comparable hra hsb hax hbx

/-- No member stands around an attribute of the assembly. -/
theorem not_has_of_mem_attributes {a : Attribute} (ha : a ∈ t.root.attributes)
    (hm : t.Holds (.member m)) : ¬ (Part.member m).Has (.attr a) := by
  intro hhas
  obtain ⟨r, hr, hrm⟩ := holds_iff.1 hm
  have hattr : Part.attr a ∈ t.root.parts := List.mem_append_left _ (List.mem_map_of_mem ha)
  obtain rfl := eq_of_has h hr hattr (hrm.trans hhas) .refl
  obtain ⟨m', hm'⟩ := Part.exists_member_of_has hrm
  cases hm'

/-- Of the types around something in a part of a type, the type is the innermost one if the part is
no type. -/
theorem innermost_of_mem_parts (hd : t.Holds (.member (.type d)))
    (hq : q ∈ (Part.member (.type d)).parts) (hqt : ∀ e, ¬ q.Has (.member (.type e)))
    (hp : q.Has p) : t.Innermost p d := by
  refine ⟨hd, (Part.Has.of_mem hq).trans hp, fun e he hep => ?_⟩
  -- the part itself stands in the other type too
  have heq : (Part.member (.type e)).Has q :=
    (comparable h he (hd.part hq) hep hp).resolve_right (hqt e)
  rcases comparable h he hd heq (.of_mem hq) with hed | hde
  · exact hed
  · rcases (hd.wellNested h).eq_or_has hde hq heq with heq | hqe
    · rw [heq]
      exact .refl
    · exact absurd hqe (hqt e)

/-- At most one member that is no type stands around a part. -/
theorem MemberAround.eq {m' : Member} (hm : t.MemberAround p m) (hm' : t.MemberAround p m') :
    m = m' := by
  obtain ⟨hm, htype, hp⟩ := hm
  obtain ⟨hm', htype', hp'⟩ := hm'
  rcases comparable h hm hm' hp hp' with hhas | hhas
  · exact (hhas.eq_of_not_type htype).symm
  · exact hhas.eq_of_not_type htype'

theorem MemberAround.some_eq_iff (hm : t.MemberAround p m) (m' : Member) :
    some m = some m' ↔ t.MemberAround p m' := by
  rw [Option.some.injEq]
  exact ⟨fun heq => heq ▸ hm, MemberAround.eq h hm⟩

/-- No other member stands around a type or around its parts that hold no member. -/
theorem not_memberAround (hd : t.Holds (.member (.type d)))
    (hp : p = .member (.type d) ∨ p ∈ (Part.member (.type d)).parts ∧ ∀ m, ¬ p.Has (.member m)) :
    ¬ t.MemberAround p m := by
  rintro ⟨hm, htype, hhas⟩
  have hne : Member.type d ≠ m := by
    rintro rfl
    simp [Member.isType] at htype
  rcases hp with rfl | ⟨hp, hmembers⟩
  · exact hne (hhas.eq_of_not_type htype)
  · rcases comparable h hm hd hhas (.of_mem hp) with hmd | hdm
    · exact hne (hmd.eq_of_not_type htype)
    · rcases (hd.wellNested h).eq_or_has hdm hp hhas with heq | hpm
      · exact hne (Part.member.inj heq)
      · exact hmembers m hpm

end

end SyntaxTree

/-! ## Parts that overlap -/

namespace Part

variable {cs : List Char} {p q r a b : Part}

/-- Of two parts of a part that do not lie apart, one stands in the other. -/
theorem WellNested.apart_or_has (h : p.WellNested cs) (ha : p.Has a) (hb : p.Has b) :
    a.Apart b ∨ a.Has b ∨ b.Has a := by
  induction h with
  | @mk p hfits hparts ih =>
    rcases has_iff.1 ha with rfl | ⟨q, hq, hqa⟩
    · exact .inr (.inl hb)
    rcases has_iff.1 hb with rfl | ⟨r, hr, hrb⟩
    · exact .inr (.inr ha)
    by_cases hqr : q = r
    · subst hqr
      exact ih q hq hqa hrb
    · have hapart := (WellNested.mk hfits hparts).apart_of_ne hq hr hqr
      exact .inl (hapart.of_has (hparts q hq) (hparts r hr) hqa hrb)

/-- Parts that lie apart have no range in common. -/
theorem WellNested.range_ne_of_apart (h : p.WellNested cs) (hapart : p.Apart q) :
    p.range ≠ q.range := by
  intro heq
  have hne := h.fits.nonempty
  unfold Apart Before OffsetRange.Precedes at hapart
  rw [heq] at hapart hne
  omega

/-- A part whose range is in the one of another part does not lie apart from it. -/
theorem WellNested.not_apart_of_contains (h : p.WellNested cs)
    (hcontains : q.range.contains p.range = true) : ¬ q.Apart p := by
  have hne := h.fits.nonempty
  simp only [OffsetRange.contains, Bool.and_eq_true, decide_eq_true_eq] at hcontains
  unfold Apart Before OffsetRange.Precedes
  omega

/-- What stands in a part lies in its range. -/
theorem WellNested.contains_of_has (h : p.WellNested cs) (hq : p.Has q) :
    p.range.contains q.range = true := by
  simpa only [OffsetRange.contains, Bool.and_eq_true, decide_eq_true_eq] using h.le_of_has hq

/-- A type in another type starts behind the name of that one. -/
theorem start_lt_of_has_type {d e : TypeDecl} (h : (Part.member (.type d)).WellNested cs)
    (hhas : (Part.member (.type d)).Has (.member (.type e))) (hne : d ≠ e) :
    d.range.start < e.range.start := by
  rcases has_iff.1 hhas with heq | ⟨q, hq, hqe⟩
  · exact absurd (Member.type.inj (Part.member.inj heq)) hne
  obtain ⟨m, rfl⟩ := exists_member_of_has hqe
  have hname : Part.ident d.header.name ∈ (Part.member (.type d)).parts := by
    simp [parts, Member.parts]
  have hmember : m ∈ d.members := by simpa [parts, Member.parts] using hq
  have hbefore : (Part.ident d.header.name).Before (.member m) := by
    have hordered := h.fits.ordered
    simp only [parts, Member.parts] at hordered
    refine (List.pairwise_append.1 hordered).2.2 _ ?_ _ (List.mem_map_of_mem hmember)
    simp
  have hnameNe := (h.part hname).fits.nonempty
  have hnameStart := (h.le_of_has (.of_mem hname)).1
  have hstart := ((h.part hq).le_of_has hqe).1
  unfold Before OffsetRange.Precedes at hbefore
  exact Nat.lt_of_le_of_lt hnameStart (Nat.lt_of_lt_of_le hnameNe (hbefore.trans hstart))

end Part

/-- The members of a type stand one behind the other. -/
theorem TypeDecl.members_precede {cs : List Char} {d : TypeDecl}
    (h : (Part.member (.type d)).WellNested cs) :
    d.members.Pairwise fun m m' => m.range.Precedes m'.range := by
  have hordered := h.fits.ordered
  simp only [Part.parts, Member.parts] at hordered
  exact (List.pairwise_map.1 (List.pairwise_append.1 hordered).2.1).imp fun hbefore => hbefore

namespace SyntaxTree

variable {file : FileId} {text : String} {t : SyntaxTree} {p q : Part}

section
variable (h : parse file text = .ok t)
include h

/-- Of two parts of a file that do not lie apart, one stands in the other. -/
theorem apart_or_has (hp : t.Holds p) (hq : t.Holds q) : p.Apart q ∨ p.Has q ∨ q.Has p := by
  obtain ⟨r, hr, hrp⟩ := holds_iff.1 hp
  obtain ⟨s, hs, hsq⟩ := holds_iff.1 hq
  by_cases hrs : r = s
  · subst hrs
    exact (wellNested_of_mem_parts h hr).apart_or_has hrp hsq
  · have hapart := (parts_apart h).forall hr hs hrs
    exact .inl (hapart.of_has (wellNested_of_mem_parts h hr) (wellNested_of_mem_parts h hs) hrp hsq)

/-- A part whose range holds the one of another part, and that does not stand in it, has it in it. -/
theorem has_of_contains (hp : t.Holds p) (hq : t.Holds q) (hnot : ¬ p.Has q)
    (hcontains : q.range.contains p.range = true) : q.Has p := by
  rcases apart_or_has h hq hp with hapart | hhas | hhas
  · exact absurd hapart ((hp.wellNested h).not_apart_of_contains hcontains)
  · exact hhas
  · exact absurd hhas hnot

end

end SyntaxTree

end PropertyLint
