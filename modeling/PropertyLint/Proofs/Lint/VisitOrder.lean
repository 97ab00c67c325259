/-
# The order of visits

The visits of a file start with the attributes of the assembly, wherever they are written.  The
nodes of the types follow, each type with its own members in front of the types nested in it.  So
of two nodes of types the first one does not start behind the second one, unless it is in a member
of a type and the second one in a type nested in this type (`SyntaxTree.visits_order`).
-/
import PropertyLint.Proofs.Lint.Visits
import PropertyLint.Proofs.Syntax.Code

namespace PropertyLint

variable {cs : List Char} {d e : TypeDecl} {m : Member} {v w : Visit} {p q : Part}

namespace Visit

/-- The first node is in a member of a type and the second one in a type nested in it. -/
def PassesNested (v w : Visit) : Prop :=
  ∃ d m f, v.containingType = some d ∧ v.containingMember = some m ∧ f ∈ d.nestedTypes ∧
    (Part.member (.type f)).Has w.node.part

/-- The nodes are different and the first one does not start behind the second one, unless it passes
over it. -/
structure Leads (v w : Visit) : Prop where
  ne : v.node ≠ w.node
  order : v.node.range.start ≤ w.node.range.start ∨ v.PassesNested w

/-- The nodes in two parts that lie apart are different. -/
theorem ne_of_apart (hp : p.WellNested cs) (hq : q.WellNested cs) (hv : p.Has v.node.part)
    (hw : q.Has w.node.part) (h : p.Apart q) : v.node ≠ w.node := by
  intro heq
  rw [← heq] at hw
  exact (hp.of_has hv).not_apart_self (h.of_has hp hq hv hw)

/-- The nodes of a part lead those of a part behind it. -/
theorem Leads.of_before (hp : p.WellNested cs) (hq : q.WellNested cs) (hv : p.Has v.node.part)
    (hw : q.Has w.node.part) (h : p.Before q) : v.Leads w := by
  refine ⟨ne_of_apart hp hq hv hw (.inl h), .inl ?_⟩
  have hne := (hp.of_has hv).fits.nonempty
  have hv := hp.le_of_has hv
  have hw := hq.le_of_has hw
  rw [CheckedNode.range_part] at hv hw hne
  unfold Part.Before OffsetRange.Precedes at h
  omega

/-- A node leads what stands in it. -/
theorem Leads.of_has (h : v.node.part.WellNested cs) (hne : v.node ≠ w.node)
    (hw : v.node.part.Has w.node.part) : v.Leads w := by
  refine ⟨hne, .inl ?_⟩
  simpa using (h.le_of_has hw).1

end Visit

/-! ## Members -/

/-- The attributes of a member stand in front of its other parts. -/
theorem attributes_before (h : (Part.member m).WellNested cs) {a : Attribute}
    (ha : a ∈ m.attributes) (hp : p ∈ (Part.member m).parts) (hattr : p.isAttr = false) :
    (Part.attr a).Before p := by
  obtain ⟨rest, hparts⟩ : ∃ rest, (Part.member m).parts = m.attributes.map .attr ++ rest := by
    cases m <;>
      exact ⟨_, by simp only [Part.parts, Member.parts, List.append_assoc]; rfl⟩
  have hordered := h.fits.ordered
  rw [hparts, List.pairwise_append] at hordered
  rw [hparts, List.mem_append] at hp
  rcases hp with hp | hp
  · obtain ⟨b, -, rfl⟩ := List.mem_map.1 hp
    simp [Part.isAttr] at hattr
  · exact hordered.2.2 _ (List.mem_map_of_mem ha) p hp

theorem attributes_leads {as : List Attribute} {decl : Option TypeDecl} {member : Option Member}
    (hnested : ∀ a ∈ as, (Part.attr a).WellNested cs)
    (hordered : (as.map Part.attr).Pairwise Part.Before) :
    (as.map fun a => (⟨.attr a, decl, member⟩ : Visit)).Pairwise Visit.Leads := by
  rw [List.pairwise_map] at hordered ⊢
  exact hordered.imp_of_mem fun {a b} ha hb hbefore =>
    .of_before (hnested a ha) (hnested b hb) .refl .refl hbefore

/-- A creation starts in front of the creations behind it in a walk. -/
theorem Expr.Leads.start_lt {a b : Expr} (ha : (Part.expr a).WellNested cs)
    (hcreation : a.isCreation = true) (h : a.Leads b) : a.range.start < b.range.start := by
  rcases h with hbefore | ⟨c, hc, hcontains⟩
  · exact Nat.lt_of_lt_of_le ha.fits.nonempty hbefore
  · -- it starts with `new`, in front of the arguments
    have hplace : c.range ∈ a.argumentPlaces := by
      cases a with
      | create n type args =>
        cases args with
        | none => simp [children] at hc
        | some l => exact ⟨l, rfl, .inr ⟨c, hc, rfl⟩⟩
      | _ => simp [isCreation] at hcreation
    simp only [OffsetRange.contains, Bool.and_eq_true, decide_eq_true_eq] at hcontains
    exact Nat.lt_of_lt_of_le (lt_of_mem_argumentPlaces ha hcreation hplace).1 hcontains.1

/-- The creations of a member in the order in which they are visited. -/
theorem creations_leads (h : (Part.member m).WellNested cs) {decl : Option TypeDecl}
    {member : Option Member} :
    ((m.exprs.filter Expr.isCreation).map fun e =>
      (⟨.creation e, decl, member⟩ : Visit)).Pairwise Visit.Leads := by
  obtain ⟨hhas, hleads⟩ := Part.exprs_leads h
  rw [List.pairwise_map]
  refine (hleads.filter _).imp_of_mem fun {a b} ha _ hab => ?_
  obtain ⟨ha, hcreation⟩ := List.mem_filter.1 ha
  have hlt := hab.start_lt (h.of_has (hhas a ha)) hcreation
  refine ⟨?_, .inl (Nat.le_of_lt hlt)⟩
  rintro ⟨⟩
  exact Nat.lt_irrefl _ hlt

theorem visitsOfMember_leads (h : (Part.member m).WellNested cs) (hm : m.isType = false) :
    (visitsOfMember d m).Pairwise Visit.Leads := by
  have hattr {a : Attribute} (ha : a ∈ m.attributes) : .attr a ∈ (Part.member m).parts :=
    (attributes_sublist m).subset (List.mem_map_of_mem ha)
  unfold visitsOfMember
  rw [List.pairwise_append, List.pairwise_cons]
  refine ⟨⟨?_, ?_⟩, creations_leads h, ?_⟩
  · rw [List.forall_mem_map]
    exact fun a ha => .of_has h (by simp) (.of_mem (hattr ha))
  · exact attributes_leads (fun a ha => h.part (hattr ha))
      (h.fits.ordered.sublist (attributes_sublist m))
  · intro v hv w hw
    obtain ⟨e, he, rfl⟩ := List.mem_map.1 hw
    obtain ⟨he, -⟩ := List.mem_filter.1 he
    have hcode := ((Member.mem_exprs_iff h hm).1 he).1
    rcases List.mem_cons.1 hv with rfl | hv
    · exact .of_has h (by simp) hcode.has
    · obtain ⟨a, ha, rfl⟩ := List.mem_map.1 hv
      obtain heq | ⟨r, hr, hrattr, hcode⟩ := Part.hasCode_iff.1 hcode
      · cases heq
      · exact .of_before (h.part (hattr ha)) (h.part hr) .refl hcode.has
          (attributes_before h ha hr hrattr)

/-! ## Types -/

theorem visitsOfType_leads (h : (Part.member (.type d)).WellNested cs) :
    (visitsOfType d).Pairwise Visit.Leads := by
  have hmember {m : Member} (hm : m ∈ d.ownMembers) :
      (Part.member m) ∈ (Part.member (.type d)).parts :=
    d.ownParts_sublist.subset (TypeDecl.member_mem_ownParts hm)
  have hattr {a : Attribute} (ha : a ∈ d.attributes) :
      .attr a ∈ (Part.member (.type d)).parts :=
    (attributes_sublist (.type d)).subset (List.mem_map_of_mem ha)
  have hinside {m : Member} (hm : m ∈ d.ownMembers) {v : Visit} (hv : v ∈ visitsOfMember d m) :=
    (visitsOfMember_inside (h.part (hmember hm)) (TypeDecl.isType_of_mem_ownMembers hm) hv).1
  unfold visitsOfType
  rw [List.pairwise_append, List.pairwise_cons, List.pairwise_flatMap]
  refine ⟨⟨?_, ?_⟩, ⟨?_, ?_⟩, ?_⟩
  · rw [List.forall_mem_map]
    exact fun a ha => .of_has h (by simp) (.of_mem (hattr ha))
  · exact attributes_leads (fun a ha => h.part (hattr ha))
      (h.fits.ordered.sublist (attributes_sublist (.type d)))
  · exact fun m hm =>
      visitsOfMember_leads (h.part (hmember hm)) (TypeDecl.isType_of_mem_ownMembers hm)
  · have hordered := h.fits.ordered.sublist
      ((List.sublist_append_right _ _).trans d.ownParts_sublist)
    rw [List.pairwise_map] at hordered
    exact hordered.imp_of_mem fun {m m'} hm hm' hbefore v hv w hw =>
      .of_before (h.part (hmember hm)) (h.part (hmember hm')) (hinside hm hv) (hinside hm' hw)
        hbefore
  · intro v hv w hw
    obtain ⟨m, hm, hw⟩ := List.mem_flatMap.1 hw
    rcases List.mem_cons.1 hv with rfl | hv
    · refine .of_has h ?_ ((Part.Has.of_mem (hmember hm)).trans (hinside hm hw))
      intro heq
      exact kind_ne_type (TypeDecl.isType_of_mem_ownMembers hm) hw (heq ▸ rfl)
    · obtain ⟨a, ha, rfl⟩ := List.mem_map.1 hv
      exact .of_before (h.part (hattr ha)) (h.part (hmember hm)) .refl (hinside hm hw)
        (attributes_before (m := .type d) h ha (hmember hm) rfl)

theorem containing_of_mem_visitsOfMember (hv : v ∈ visitsOfMember d m) :
    v.containingType = some d ∧ v.containingMember = some m := by
  unfold visitsOfMember at hv
  simp only [List.mem_append, List.mem_cons, List.mem_map] at hv
  obtain (rfl | ⟨a, -, rfl⟩) | ⟨e, -, rfl⟩ := hv <;> exact ⟨rfl, rfl⟩

theorem containingType_of_mem_visitsOfType (hv : v ∈ visitsOfType d) :
    v.containingType = some d := by
  unfold visitsOfType at hv
  simp only [List.mem_append, List.mem_cons, List.mem_map, List.mem_flatMap] at hv
  obtain (rfl | ⟨a, -, rfl⟩) | ⟨m, -, hv⟩ := hv
  · rfl
  · rfl
  · exact (containing_of_mem_visitsOfMember hv).1

theorem has_of_mem_visits_withNested (h : (Part.member (.type d)).WellNested cs)
    (hv : v ∈ d.withNested.flatMap visitsOfType) :
    (Part.member (.type d)).Has v.node.part := by
  obtain ⟨e, he, hv⟩ := List.mem_flatMap.1 hv
  have he := TypeDecl.has_of_mem_withNested h he
  exact he.trans (visitsOfType_inside (h.of_has he) hv).1

/-- The visits of types that stand one behind the other, with those of the types nested in them. -/
theorem visits_withNested_leads {ds : List TypeDecl}
    (hnested : ∀ d ∈ ds, (Part.member (.type d)).WellNested cs)
    (hordered : (ds.map fun d => Part.member (.type d)).Pairwise Part.Before)
    (h : ∀ d ∈ ds, (d.withNested.flatMap visitsOfType).Pairwise Visit.Leads) :
    ((ds.flatMap TypeDecl.withNested).flatMap visitsOfType).Pairwise Visit.Leads := by
  rw [List.flatMap_assoc, List.pairwise_flatMap]
  rw [List.pairwise_map] at hordered
  refine ⟨h, hordered.imp_of_mem fun {d e} hd he hbefore v hv w hw => ?_⟩
  exact .of_before (hnested d hd) (hnested e he)
    (has_of_mem_visits_withNested (hnested d hd) hv)
    (has_of_mem_visits_withNested (hnested e he) hw) hbefore

/-- A node of a type and a node in a type nested in it. -/
theorem leads_nested (h : (Part.member (.type d)).WellNested cs) (he : e ∈ d.nestedTypes)
    (hv : v ∈ visitsOfType d) (hw : (Part.member (.type e)).Has w.node.part) : v.Leads w := by
  have hpart := TypeDecl.type_mem_parts he
  unfold visitsOfType at hv
  rw [List.mem_append, List.mem_cons, List.mem_map, List.mem_flatMap] at hv
  obtain (rfl | ⟨a, ha, rfl⟩) | ⟨m, hm, hv⟩ := hv
  · refine .of_has h ?_ ((Part.Has.of_mem hpart).trans hw)
    intro heq
    rw [← heq] at hw
    exact Part.not_has_of_mem_parts hpart hw
  · have hattr : Part.attr a ∈ (Part.member (.type d)).parts :=
      (attributes_sublist (.type d)).subset (List.mem_map_of_mem ha)
    exact .of_before (h.part hattr) (h.part hpart) .refl hw
      (attributes_before (m := .type d) h ha hpart rfl)
  · have hmember := TypeDecl.member_mem_ownParts hm
    have hmemberPart := d.ownParts_sublist.subset hmember
    have htype := TypeDecl.isType_of_mem_ownMembers hm
    have hinside := visitsOfMember_inside (h.part hmemberPart) htype hv
    obtain ⟨htype, hcontaining⟩ := containing_of_mem_visitsOfMember hv
    exact ⟨Visit.ne_of_apart (h.part hmemberPart) (h.part hpart) hinside.1 hw
      (h.apart_of_ne hmemberPart hpart (TypeDecl.ne_of_mem_ownParts hmember)),
      .inr ⟨d, m, e, htype, hcontaining, he, hw⟩⟩

/-- The visits of a type and of all types in it. -/
theorem visits_leads_of_type (h : (Part.member (.type d)).WellNested cs) :
    (d.withNested.flatMap visitsOfType).Pairwise Visit.Leads := by
  generalize hroot : Part.member (.type d) = root at h
  induction h generalizing d with
  | @mk root hfits hparts ih =>
    subst hroot
    have hroot : (Part.member (.type d)).WellNested cs := .mk hfits hparts
    rw [TypeDecl.withNested_eq, List.flatMap_cons, List.pairwise_append]
    refine ⟨visitsOfType_leads hroot, ?_, ?_⟩
    · exact visits_withNested_leads (fun e he => hparts _ (TypeDecl.type_mem_parts he))
        (hroot.fits.ordered.sublist d.nestedTypes_sublist)
        fun e he => ih _ (TypeDecl.type_mem_parts he) rfl
    · intro v hv w hw
      rw [List.flatMap_assoc] at hw
      obtain ⟨e, he, hw⟩ := List.mem_flatMap.1 hw
      exact leads_nested hroot he hv
        (has_of_mem_visits_withNested (hparts _ (TypeDecl.type_mem_parts he)) hw)

/-! ## Files -/

namespace SyntaxTree

variable {file : FileId} {text : String} {t : SyntaxTree}

/-- The visits of the attributes of the assembly. -/
def assemblyVisits (t : SyntaxTree) : List Visit :=
  t.root.attributes.map fun a => ⟨.attr a, none, none⟩

/-- The visits of all types. -/
def typeVisits (t : SyntaxTree) : List Visit := t.types.flatMap visitsOfType

section
variable (h : parse file text = .ok t)
include h

theorem assemblyVisits_leads : t.assemblyVisits.Pairwise Visit.Leads := by
  obtain ⟨ps, hnested, hordered, hattributes, -⟩ := exists_parts_of_parse h
  exact attributes_leads (fun a ha => hnested _ (hattributes.subset (List.mem_map_of_mem ha)))
    (hordered.sublist hattributes)

theorem typeVisits_leads : t.typeVisits.Pairwise Visit.Leads := by
  obtain ⟨ps, hnested, hordered, -, htypes⟩ := exists_parts_of_parse h
  have hnested (d : TypeDecl) (hd : d ∈ t.root.types) :
      (Part.member (.type d)).WellNested text.toList :=
    hnested _ (htypes.subset (List.mem_map.2 ⟨d, hd, rfl⟩))
  exact visits_withNested_leads hnested (hordered.sublist htypes)
    fun d hd => visits_leads_of_type (hnested d hd)

/-- **Order.**  The attributes of the assembly are visited first, in the order of the text, and the
nodes of the types after them.  Of two nodes of types the one that is visited first does not start
behind the other one, unless it is in a member of a type and the other one in a type nested in this
type. -/
theorem visits_order : ∃ front rest, t.visits = front ++ rest ∧
    (∀ v ∈ front, v.containingType = none) ∧ (∀ v ∈ rest, v.containingType ≠ none) ∧
    (front.Pairwise fun v w => v.node.range.start ≤ w.node.range.start) ∧
    rest.Pairwise fun v w => v.node.range.start ≤ w.node.range.start ∨ v.PassesNested w := by
  have hfront {v : Visit} (hv : v ∈ t.assemblyVisits) : v.containingType = none := by
    obtain ⟨a, -, rfl⟩ := List.mem_map.1 hv
    rfl
  refine ⟨t.assemblyVisits, t.typeVisits, rfl, fun v => hfront, ?_, ?_, ?_⟩
  · intro v hv
    obtain ⟨d, -, hv⟩ := List.mem_flatMap.1 hv
    simp [containingType_of_mem_visitsOfType hv]
  · refine (assemblyVisits_leads h).imp_of_mem fun hv _ hvw => hvw.order.resolve_right ?_
    rintro ⟨d, m, f, hd, -⟩
    simp [hfront hv] at hd
  · exact (typeVisits_leads h).imp Visit.Leads.order

end

/-- An attribute of the assembly behind a class. -/
def attributeBehind : String := "class A \x7b int F; class B \x7b \x7d \x7d [assembly: C]"

/-- The attribute is visited before the class. -/
theorem not_visits_ordered : ∃ t, parse 0 attributeBehind = .ok t ∧
    ¬ t.visits.Pairwise fun v w => v.node.range.start ≤ w.node.range.start := by
  have hread : ((parse 0 attributeBehind).toOption.map fun t =>
      t.visits.map fun v => v.node.range.start) = some [42, 0, 10, 17] := by decide +kernel
  obtain ⟨t, ht, hstarts⟩ := Option.map_eq_some_iff.1 hread
  rw [toOption_eq_some_iff] at ht
  refine ⟨t, ht, fun hordered => ?_⟩
  have hordered : (t.visits.map fun v => v.node.range.start).Pairwise (· ≤ ·) :=
    List.pairwise_map.2 hordered
  rw [hstarts] at hordered
  simp at hordered

theorem visits_order_attributeBehind : ∃ t, parse 0 attributeBehind = .ok t ∧
    (∃ front rest, t.visits = front ++ rest ∧
      (∀ v ∈ front, v.containingType = none) ∧ (∀ v ∈ rest, v.containingType ≠ none) ∧
      (front.Pairwise fun v w => v.node.range.start ≤ w.node.range.start) ∧
      rest.Pairwise fun v w => v.node.range.start ≤ w.node.range.start ∨ v.PassesNested w) := by
  have hread : (parse 0 attributeBehind).toOption.isSome := by decide +kernel
  obtain ⟨t, ht⟩ := Option.isSome_iff_exists.1 hread
  rw [toOption_eq_some_iff] at ht
  exact ⟨t, ht, visits_order ht⟩

end SyntaxTree

end PropertyLint
