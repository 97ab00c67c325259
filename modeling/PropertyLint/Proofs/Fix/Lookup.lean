/-
# Looking up by range

The ranges of a file say what stands there: two parts of a tree either lie apart or one stands in
the other.  So the name of a member, a declared type and the value of an argument are found by their
ranges, and nothing else is (`SyntaxTree.memberNamedAt?_eq`, `SyntaxTree.declaredTypeAt?_eq`,
`SyntaxTree.argumentAt?_eq`).
-/
import PropertyLint.Fix.Place
import PropertyLint.Proofs.Lint.Visited
import PropertyLint.Proofs.Syntax.DeclReading
import PropertyLint.Proofs.Syntax.Around

namespace PropertyLint

theorem find?_eq_some_of_unique {α : Type} {p : α → Bool} {a : α} {as : List α} (ha : a ∈ as)
    (hp : p a = true) (h : ∀ b ∈ as, p b = true → b = a) : as.find? p = some a := by
  cases hfind : as.find? p with
  | none => exact absurd hp (List.find?_eq_none.1 hfind a ha)
  | some b => rw [h b (List.mem_of_find?_eq_some hfind) (List.find?_some hfind)]

/-! ## Types and members -/

namespace SyntaxTree

variable {file : FileId} {text : String} {t : SyntaxTree} {p q : Part} {d e : TypeDecl}
  {m : Member}

theorem shortest?_eq {ds : List TypeDecl} (hd : d ∈ ds)
    (h : ∀ e ∈ ds, e ≠ d → d.range.length < e.range.length) : shortest? ds = some d := by
  induction ds with
  | nil => cases hd
  | cons e ds ih =>
    have hrest : ∀ e ∈ ds, e ≠ d → d.range.length < e.range.length :=
      fun e he => h e (.tail _ he)
    rw [shortest?]
    by_cases hmem : d ∈ ds
    · rw [ih hmem hrest]
      dsimp only
      by_cases he : e = d
      · subst he
        exact ite_self _
      · rw [if_pos (h e (.head _) he)]
    · obtain rfl : d = e := (List.mem_cons.1 hd).resolve_right hmem
      cases hshort : shortest? ds with
      | none => rfl
      | some u =>
        have hu := shortest?_mem hshort
        have hne : u ≠ d := fun heq => hmem (heq ▸ hu)
        exact if_neg (Nat.lt_asymm (hrest u hu hne))

/-- A part of a member that is no type holds no type. -/
theorem not_has_type_of_member (hm : m ∈ d.ownMembers) (hp : (Part.member m).Has p) :
    ∀ e, ¬ p.Has (.member (.type e)) := by
  intro e hhas
  have htype := TypeDecl.isType_of_mem_ownMembers hm
  rw [← (hp.trans hhas).eq_of_not_type htype] at htype
  simp [Member.isType] at htype

section
variable (h : parse file text = .ok t)
include h

/-- The innermost type around a part that holds no type is found by the range of the part. -/
theorem containingType?_eq (hd : t.Innermost p d) (hp : t.Holds p)
    (hnot : ∀ e, ¬ p.Has (.member (.type e))) : t.containingType? p.range = some d := by
  obtain ⟨hholds, hhas, hinner⟩ := hd
  refine shortest?_eq (List.mem_filter.2 ⟨(mem_types_iff h).2 hholds, ?_⟩) fun e he hne => ?_
  · exact (hholds.wellNested h).contains_of_has hhas
  · obtain ⟨he, hcontains⟩ := List.mem_filter.1 he
    have he := (mem_types_iff h).1 he
    have hed := hinner e he (has_of_contains h hp he (hnot e) hcontains)
    -- the other type starts in front of this one and ends behind it
    have hlt := Part.start_lt_of_has_type (he.wellNested h) hed hne
    have hle : d.range.stop ≤ e.range.stop := ((he.wellNested h).le_of_has hed).2
    have hdne : d.range.start < d.range.stop := (hholds.wellNested h).fits.nonempty
    unfold OffsetRange.length
    omega

section
variable (hd : d ∈ t.types) (hm : m ∈ d.ownMembers)
include hd hm

theorem holds_of_mem_ownMembers : t.Holds (.member m) :=
  (exists_type_iff h (TypeDecl.isType_of_mem_ownMembers hm)).1 ⟨d, hd, hm⟩

theorem containingType?_of_member (hp : (Part.member m).Has p) :
    t.containingType? p.range = some d := by
  have hholds := (mem_types_iff h).1 hd
  have hpart := d.ownParts_sublist.subset (TypeDecl.member_mem_ownParts hm)
  have hnot := not_has_type_of_member hm (p := .member m) .refl
  refine containingType?_eq h (innermost_of_mem_parts h hholds hpart hnot hp) ?_
    (not_has_type_of_member hm hp)
  exact (holds_of_mem_ownMembers h hd hm).has hp

/-- The own member of a type whose range holds something in a member is that member. -/
theorem eq_of_contains_of_member {m' : Member} (hm' : m' ∈ d.ownMembers)
    (hp : (Part.member m).Has p) (hcontains : m'.range.contains p.range = true) : m' = m := by
  by_contra hne
  have hnested := wellNested_of_mem_types h hd
  have hmember := d.ownParts_sublist.subset (TypeDecl.member_mem_ownParts hm)
  have hmember' := d.ownParts_sublist.subset (TypeDecl.member_mem_ownParts hm')
  have hapart := hnested.apart_of_ne hmember' hmember fun heq => hne (Part.member.inj heq)
  have hp' := (hnested.part hmember).of_has hp
  exact hp'.not_apart_of_contains (q := .member m') hcontains
    (hapart.of_has (hnested.part hmember') (hnested.part hmember) .refl hp)

theorem containingMember?_eq (hp : (Part.member m).Has p) :
    t.containingMember? p.range = some m := by
  unfold containingMember?
  rw [containingType?_of_member h hd hm hp]
  refine find?_eq_some_of_unique hm ?_ fun m' hm' hcontains =>
    eq_of_contains_of_member h hd hm hm' hp hcontains
  exact ((holds_of_mem_ownMembers h hd hm).wellNested h).contains_of_has hp

/-- A member is found by the range of its name. -/
theorem memberNamedAt?_eq : t.memberNamedAt? m.name.range = some m := by
  have hname := Part.has_name m
  unfold memberNamedAt?
  rw [show m.name.range = (Part.ident m.name).range from rfl,
    containingType?_of_member h hd hm hname]
  refine find?_eq_some_of_unique hm (by simp [Part.range]) fun m' hm' hrange => ?_
  have hrange : m'.name.range = (Part.ident m.name).range := by simpa using hrange
  refine eq_of_contains_of_member h hd hm hm' hname ?_
  rw [← hrange]
  exact ((holds_of_mem_ownMembers h hd hm').wellNested h).contains_of_has (Part.has_name m')

end

end

end SyntaxTree

/-! ## Declared types -/

/-- The declared types of a member stand in it, one behind the other. -/
theorem Member.declaredTypes_ordered {cs : List Char} {m : Member}
    (h : (Part.member m).WellNested cs) :
    (∀ type ∈ m.declaredTypes, (Part.member m).Has (.type type)) ∧
      m.declaredTypes.Pairwise fun a b => (Part.type a).Apart (.type b) := by
  cases m with
  | property d =>
    refine ⟨?_, List.pairwise_singleton _ _⟩
    rw [declaredTypes, List.forall_mem_singleton]
    exact .of_mem (by simp [Part.parts, Member.parts])
  | method d =>
    have hreturn : Part.type d.returnType ∈ (Part.member (.method d)).parts := by
      simp [Part.parts, Member.parts]
    have hparam {p : Parameter} (hp : p ∈ d.params) :
        Part.parameter p ∈ (Part.member (.method d)).parts := by
      simp [Part.parts, Member.parts, hp]
    have htype (p : Parameter) : (Part.parameter p).Has (.type p.type) :=
      .of_mem (by simp [Part.parts, Parameter.parts])
    have hsub : (.type d.returnType :: d.params.map .parameter : List Part).Sublist
        (Part.member (.method d)).parts := by
      simp only [Part.parts, Member.parts, List.append_assoc, List.singleton_append]
      refine List.Sublist.trans ?_ (List.sublist_append_right _ _)
      refine List.Sublist.cons_cons _ (List.Sublist.trans ?_ (List.sublist_append_right _ _))
      refine List.Sublist.trans ?_ (List.sublist_cons_self _ _)
      exact (List.sublist_append_left _ _).trans (List.sublist_append_right _ _)
    have hapart := h.parts_apart.sublist hsub
    rw [List.pairwise_cons, List.forall_mem_map, List.pairwise_map] at hapart
    rw [declaredTypes, List.forall_mem_cons, List.forall_mem_map, List.pairwise_cons,
      List.forall_mem_map, List.pairwise_map]
    refine ⟨⟨.of_mem hreturn, fun p hp => (Part.Has.of_mem (hparam hp)).trans (htype p)⟩, ?_, ?_⟩
    · intro p hp
      exact (hapart.1 p hp).of_has (h.part hreturn) (h.part (hparam hp)) .refl (htype p)
    · exact hapart.2.imp_of_mem fun {p q} hp hq hpq =>
        hpq.of_has (h.part (hparam hp)) (h.part (hparam hq)) (htype p) (htype q)
  | _ => exact ⟨List.forall_mem_nil _, .nil⟩

namespace SyntaxTree

variable {file : FileId} {text : String} {t : SyntaxTree} {d : TypeDecl} {m : Member}

theorem declaredTypeAt?_eq_find? {r : OffsetRange} (hm : t.containingMember? r = some m) :
    t.declaredTypeAt? r = m.declaredTypes.find? fun type => type.range == r := by
  unfold declaredTypeAt?
  rw [hm]
  cases m <;> rfl

/-- A declared type is found by its range. -/
theorem declaredTypeAt?_eq {type : TypeRef} (h : parse file text = .ok t) (hd : d ∈ t.types)
    (hm : m ∈ d.ownMembers) (htype : type ∈ m.declaredTypes) :
    t.declaredTypeAt? type.range = some type := by
  have hnested := (holds_of_mem_ownMembers h hd hm).wellNested h
  obtain ⟨hhas, hordered⟩ := Member.declaredTypes_ordered hnested
  have hmember : t.containingMember? type.range = some m :=
    containingMember?_eq h hd hm (hhas type htype)
  rw [declaredTypeAt?_eq_find? hmember]
  refine find?_eq_some_of_unique htype (by simp) fun type' htype' hrange => ?_
  have hrange : type'.range = type.range := by simpa using hrange
  by_contra hne
  have hsymm : Std.Symm fun a b : TypeRef => (Part.type a).Apart (.type b) :=
    ⟨fun _ _ => Or.symm⟩
  have hapart := hordered.forall htype' htype hne
  exact (hnested.of_has (hhas type' htype')).range_ne_of_apart hapart hrange

end SyntaxTree

/-! ## Arguments -/

namespace Part

variable {cs : List Char} {p : Part} {l : ArgumentList Expr} {a a' : Argument Expr}

/-- An argument list is the second part of a call, a creation or an attribute. -/
theorem parts_of_args_mem (hl : .args l ∈ p.parts) : ∃ q, p.parts = [q, .args l] := by
  cases p with
  | expr e =>
    cases e with
    | invoke n callee args =>
      obtain rfl : l = args := by simpa [parts, Expr.parts] using hl
      exact ⟨_, rfl⟩
    | create n type args =>
      obtain rfl : args = some l := by simpa [parts, Expr.parts] using hl
      exact ⟨_, rfl⟩
    | _ => simp [parts, Expr.parts] at hl
  | attr b =>
    have hargs : b.args = some l := by simpa [parts, Attribute.parts] using hl
    exact ⟨.type b.name, by simp [parts, Attribute.parts, hargs]⟩
  | type t => cases t <;> simp [parts, TypeRef.parts, NameSegment.parts] at hl
  | argument a => simp [parts, Argument.parts] at hl
  | stmt s => cases s <;> simp [parts, Stmt.parts] at hl
  | parameter p => simp [parts, Parameter.parts] at hl
  | accessor a => simp [parts, Body.parts] at hl
  | member m => cases m <;> simp [parts, Member.parts, Body.parts] at hl
  | _ => simp [parts] at hl

theorem parts_of_argument_mem (ha : .argument a ∈ p.parts) : ∃ l, p = .args l := by
  cases p with
  | args l => exact ⟨l, rfl⟩
  | expr e => cases e <;> simp [parts, Expr.parts] at ha
  | attr b => simp [parts, Attribute.parts] at ha
  | type t => cases t <;> simp [parts, TypeRef.parts, NameSegment.parts] at ha
  | argument a => simp [parts, Argument.parts] at ha
  | stmt s => cases s <;> simp [parts, Stmt.parts] at ha
  | parameter p => simp [parts, Parameter.parts] at ha
  | accessor a => simp [parts, Body.parts] at ha
  | member m => cases m <;> simp [parts, Member.parts, Body.parts] at ha
  | _ => simp [parts] at ha

/-- In front of an argument list stands what the arguments are for. -/
theorem start_lt_of_args_mem (h : p.WellNested cs) (hl : .args l ∈ p.parts) :
    p.range.start < l.range.start := by
  obtain ⟨q, hq⟩ := parts_of_args_mem hl
  have hordered := h.fits.ordered
  rw [hq] at hordered
  have hmem : q ∈ p.parts := hq ▸ .head _
  have hbefore : q.Before (.args l) := (List.pairwise_cons.1 hordered).1 _ (.head _)
  have hstart := h.between.start q hmem
  have hne := (h.part hmem).fits.nonempty
  exact Nat.lt_of_le_of_lt hstart (Nat.lt_of_lt_of_le hne hbefore)

theorem has_value_of_argument (a : Argument Expr) : (Part.argument a).Has (.expr a.value) :=
  .of_mem (List.mem_append_right _ (.head _))

/-- The value of an argument in an expression starts behind the start of the expression. -/
theorem start_lt_of_has_argument {e : Expr} (h : (Part.expr e).WellNested cs)
    (ha : (Part.expr e).Has (.argument a)) : e.range.start < a.value.range.start := by
  have hvalue := ((h.of_has ha).le_of_has (has_value_of_argument a)).1
  cases ha with
  | part hq hmem =>
    obtain ⟨l, rfl⟩ := parts_of_argument_mem hmem
    have hlist := ((h.of_has hq).le_of_has (.of_mem hmem)).1
    cases hq with
    | part hr hl =>
      have hbehind := start_lt_of_args_mem (h.of_has hr) hl
      have hstart := (h.le_of_has hr).1
      exact Nat.lt_of_le_of_lt hstart (Nat.lt_of_lt_of_le hbehind (hlist.trans hvalue))

/-- An argument in another argument has a value with another range. -/
theorem eq_of_has_argument (h : (Part.argument a).WellNested cs)
    (ha : (Part.argument a).Has (.argument a')) (hrange : a'.value.range = a.value.range) :
    a' = a := by
  rcases has_iff.1 ha with heq | ⟨q, hq, hqa⟩
  · exact (Part.argument.inj heq).symm
  · rcases List.mem_append.1 hq with hq | hq
    · obtain ⟨name, -, rfl⟩ := List.mem_map.1 hq
      rcases has_iff.1 hqa with heq | ⟨r, hr, -⟩
      · cases heq
      · cases hr
    · obtain rfl := List.mem_singleton.1 hq
      have hlt := start_lt_of_has_argument (h.of_has (has_value_of_argument a)) hqa
      rw [hrange] at hlt
      exact absurd hlt (Nat.lt_irrefl _)

end Part

namespace SyntaxTree

variable {file : FileId} {text : String} {t : SyntaxTree} {d : TypeDecl} {a a' : Argument Expr}

section
variable (h : parse file text = .ok t)
include h

/-- Arguments whose values have the same range are the same. -/
theorem eq_of_value_range (ha : t.Holds (.argument a)) (ha' : t.Holds (.argument a'))
    (hrange : a'.value.range = a.value.range) : a' = a := by
  have hvalue (a : Argument Expr) := Part.has_value_of_argument a
  rcases apart_or_has h ha ha' with hapart | hhas | hhas
  · have hvalues := hapart.of_has (ha.wellNested h) (ha'.wellNested h) (hvalue a) (hvalue a')
    exact absurd hrange.symm
      (((ha.wellNested h).of_has (hvalue a)).range_ne_of_apart hvalues)
  · exact Part.eq_of_has_argument (ha.wellNested h) hhas hrange
  · exact (Part.eq_of_has_argument (ha'.wellNested h) hhas hrange.symm).symm

/-- The arguments that are looked through stand in the file. -/
theorem holds_of_mem_arguments (hd : d ∈ t.types)
    (ha : a ∈ d.attributeArguments ++ d.callArguments) : t.Holds (.argument a) := by
  have hholds := (mem_types_iff h).1 hd
  have hargument {p : Part} {l : ArgumentList Expr} (hp : t.Holds p) (hl : p.Has (.args l))
      (ha : a ∈ l.args) : t.Holds (.argument a) :=
    (hp.has hl).part (List.mem_map_of_mem ha)
  rcases List.mem_append.1 ha with ha | ha
  · obtain ⟨b, hb, ha⟩ := List.mem_flatMap.1 ha
    have hattr : t.Holds (.attr b) := by
      rcases List.mem_append.1 hb with hb | hb
      · exact hholds.part ((attributes_sublist (.type d)).subset (List.mem_map_of_mem hb))
      · obtain ⟨m, hm, hb⟩ := List.mem_flatMap.1 hb
        exact (holds_of_mem_ownMembers h hd hm).part
          ((attributes_sublist m).subset (List.mem_map_of_mem hb))
    cases hargs : b.args with
    | none => simp [hargs] at ha
    | some l =>
      have hlist : (Part.attr b).Has (.args l) :=
        .of_mem (by simp [Part.parts, Attribute.parts, hargs])
      exact hargument hattr hlist (by simpa [hargs] using ha)
  · obtain ⟨e, he, ha⟩ := List.mem_flatMap.1 ha
    obtain ⟨m, hm, he⟩ := List.mem_flatMap.1 he
    have hmember := holds_of_mem_ownMembers h hd hm
    cases hargs : e.argumentList? with
    | none => simp [hargs] at ha
    | some l =>
      have hlist := ((Part.exprs_leads (hmember.wellNested h)).1 e he).trans
        (Expr.has_of_argumentList? hargs)
      exact hargument hmember hlist (by simpa [hargs] using ha)

/-- An argument is found by the range of its value. -/
theorem argumentAt?_eq (hd : d ∈ t.types) (ha : a ∈ d.attributeArguments ++ d.callArguments) :
    t.argumentAt? a.value.range = some a := by
  refine find?_eq_some_of_unique (List.mem_flatMap.2 ⟨d, hd, ha⟩) (by simp) fun a' ha' hrange => ?_
  obtain ⟨d', hd', ha'⟩ := List.mem_flatMap.1 ha'
  exact eq_of_value_range h (holds_of_mem_arguments h hd ha) (holds_of_mem_arguments h hd' ha')
    (by simpa using hrange)

end

end SyntaxTree

end PropertyLint
