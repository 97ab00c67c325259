/-
# Visits that lie apart

Of two visits of a file, either no check looks at both or their nodes have no place in common
(`SyntaxTree.visits_apart`).
-/
import PropertyLint.Proofs.Check.Reported

namespace PropertyLint

/-- No check looks at both nodes, or they have no place in common. -/
def Visit.Apart (v w : Visit) : Prop :=
  (∀ check : Check, v.node.kind ∈ check.kinds → w.node.kind ∉ check.kinds) ∨
    Disjoint v.node.places w.node.places

variable {cs : List Char} {d : TypeDecl} {m : Member} {v w : Visit}

theorem Visit.Apart.of_subset {places places' : Set OffsetRange} (hv : v.node.places ⊆ places)
    (hw : w.node.places ⊆ places') (h : Disjoint places places') : v.Apart w :=
  .inr (h.mono hv hw)

/-! ## Members -/

theorem attributes_sublist (m : Member) :
    (m.attributes.map Part.attr).Sublist (Part.member m).parts := by
  cases m <;> simp [Part.parts, Member.parts, Member.attributes, Member.header]

/-- Attributes that stand one behind the other are visited apart. -/
theorem attributes_apart {as : List Attribute} {decl : Option TypeDecl} {member : Option Member}
    (hnested : ∀ a ∈ as, (Part.attr a).WellNested cs)
    (hapart : (as.map Part.attr).Pairwise Part.Apart) :
    (as.map fun a => (⟨.attr a, decl, member⟩ : Visit)).Pairwise Visit.Apart := by
  rw [List.pairwise_map] at hapart ⊢
  refine hapart.imp_of_mem fun {a b} ha hb hab => .inr ?_
  exact Part.disjoint_places (hnested a ha) (hnested b hb) hab

theorem mem_visitsOfMember (hv : v ∈ visitsOfMember d m) : v.node = .member m ∨
    (∃ a ∈ m.attributes, v.node = .attr a) ∨
      ∃ e ∈ m.exprs, e.isCreation = true ∧ v.node = .creation e := by
  unfold visitsOfMember at hv
  rw [List.mem_append, List.mem_cons, List.mem_map, List.mem_map] at hv
  obtain (rfl | ⟨a, ha, rfl⟩) | ⟨e, he, rfl⟩ := hv
  · exact .inl rfl
  · exact .inr (.inl ⟨a, ha, rfl⟩)
  · obtain ⟨he, hcreation⟩ := List.mem_filter.1 he
    exact .inr (.inr ⟨e, he, hcreation, rfl⟩)

/-- The nodes that are visited in a member stand in it. -/
theorem visitsOfMember_inside (h : (Part.member m).WellNested cs) (hm : m.isType = false)
    (hv : v ∈ visitsOfMember d m) :
    (Part.member m).Has v.node.part ∧ v.node.places ⊆ (Part.member m).places := by
  obtain hnode | ⟨a, ha, hnode⟩ | ⟨e, he, -, hnode⟩ := mem_visitsOfMember hv
  · rw [hnode]
    cases m with
    | type d => simp [Member.isType] at hm
    | _ => exact ⟨.refl, subset_rfl⟩
  · have hattr : (Part.member m).Has (.attr a) :=
      .of_mem ((attributes_sublist m).subset (List.mem_map_of_mem ha))
    rw [hnode]
    exact ⟨hattr, hattr.places_subset⟩
  · have hexpr : (Part.member m).Has (.expr e) := (Part.exprs_leads h).1 e he
    rw [hnode]
    exact ⟨hexpr, (Expr.argumentPlaces_subset _).trans hexpr.places_subset⟩

theorem kind_ne_type (hm : m.isType = false) (hv : v ∈ visitsOfMember d m) :
    v.node.kind ≠ .type := by
  obtain hnode | ⟨a, -, hnode⟩ | ⟨e, -, -, hnode⟩ := mem_visitsOfMember hv
  · rw [hnode]
    cases m with
    | type d => simp [Member.isType] at hm
    | _ => simp [CheckedNode.kind]
  · simp [hnode, CheckedNode.kind]
  · simp [hnode, CheckedNode.kind]

/-- A check of members looks at no attributes and at no creations. -/
theorem not_mem_kinds_of_member {check : Check}
    (h : (CheckedNode.member m).kind ∈ check.kinds) :
    NodeKind.attr ∉ check.kinds ∧ NodeKind.creation ∉ check.kinds := by
  cases m <;> cases check <;> simp [CheckedNode.kind, Check.kinds] at h ⊢

/-- The creations of a member are nested or stand one behind the other. -/
theorem creations_apart (h : (Part.member m).WellNested cs) {decl : Option TypeDecl}
    {member : Option Member} :
    ((m.exprs.filter Expr.isCreation).map fun e =>
      (⟨.creation e, decl, member⟩ : Visit)).Pairwise Visit.Apart := by
  obtain ⟨hhas, hleads⟩ := Part.exprs_leads h
  rw [List.pairwise_map]
  refine (hleads.filter _).imp_of_mem fun {a b} ha hb hab => .inr ?_
  obtain ⟨ha, hac⟩ := List.mem_filter.1 ha
  obtain ⟨hb, hbc⟩ := List.mem_filter.1 hb
  exact Expr.disjoint_argumentPlaces (h.of_has (hhas a ha)) (h.of_has (hhas b hb)) hac hbc hab

theorem visitsOfMember_apart (h : (Part.member m).WellNested cs) :
    (visitsOfMember d m).Pairwise Visit.Apart := by
  have hattributes {a : Attribute} (ha : a ∈ m.attributes) : .attr a ∈ (Part.member m).parts :=
    (attributes_sublist m).subset (List.mem_map_of_mem ha)
  unfold visitsOfMember
  rw [List.pairwise_append, List.pairwise_cons]
  refine ⟨⟨?_, ?_⟩, creations_apart h, ?_⟩
  · rw [List.forall_mem_map]
    exact fun a _ => .inl fun check hcheck => (not_mem_kinds_of_member hcheck).1
  · exact attributes_apart (fun a ha => h.part (hattributes ha))
      (h.parts_apart.sublist (attributes_sublist m))
  · intro v hv w hw
    obtain ⟨e, -, rfl⟩ := List.mem_map.1 hw
    refine .inl fun check hcheck => ?_
    rcases List.mem_cons.1 hv with rfl | hv
    · exact (not_mem_kinds_of_member hcheck).2
    · obtain ⟨a, -, rfl⟩ := List.mem_map.1 hv
      revert hcheck
      cases check <;> simp [CheckedNode.kind, Check.kinds]

/-! ## Types -/

/-- A check of types looks at nothing else. -/
theorem eq_type_of_mem_kinds {check : Check} {kind : NodeKind} (h : NodeKind.type ∈ check.kinds)
    (h' : kind ∈ check.kinds) : kind = .type := by
  cases check <;> simp [Check.kinds] at h h' ⊢
  exact h'

/-- The nodes that are visited in a type belong to it alone. -/
theorem visitsOfType_inside (h : (Part.member (.type d)).WellNested cs) (hv : v ∈ visitsOfType d) :
    (Part.member (.type d)).Has v.node.part ∧ v.node.places ⊆ d.places := by
  unfold visitsOfType at hv
  rw [List.mem_append, List.mem_cons, List.mem_map, List.mem_flatMap] at hv
  obtain (rfl | ⟨a, ha, rfl⟩) | ⟨m, hm, hv⟩ := hv
  · exact ⟨.refl, subset_rfl⟩
  · have hattr := TypeDecl.attr_mem_ownParts ha
    exact ⟨TypeDecl.has_of_mem_ownParts hattr, TypeDecl.places_subset hattr⟩
  · have hmember := TypeDecl.member_mem_ownParts hm
    have hhas := TypeDecl.has_of_mem_ownParts hmember
    obtain ⟨hpart, hplaces⟩ := visitsOfMember_inside (h.of_has hhas)
      (TypeDecl.isType_of_mem_ownMembers hm) hv
    exact ⟨hhas.trans hpart, hplaces.trans (TypeDecl.places_subset hmember)⟩

theorem visitsOfType_apart (h : (Part.member (.type d)).WellNested cs) :
    (visitsOfType d).Pairwise Visit.Apart := by
  have hordered := h.parts_apart.sublist d.ownParts_sublist
  have hown {p : Part} (hp : p ∈ d.ownParts) : p.WellNested cs :=
    h.of_has (TypeDecl.has_of_mem_ownParts hp)
  have hmember {m : Member} (hm : m ∈ d.ownMembers) := hown (TypeDecl.member_mem_ownParts hm)
  have hinside {m : Member} (hm : m ∈ d.ownMembers) {v : Visit} (hv : v ∈ visitsOfMember d m) :=
    (visitsOfMember_inside (hmember hm) (TypeDecl.isType_of_mem_ownMembers hm) hv).2
  unfold TypeDecl.ownParts at hordered
  rw [List.pairwise_append, List.pairwise_append] at hordered
  obtain ⟨⟨hattributes, -, -⟩, -, hcross⟩ := hordered
  unfold visitsOfType
  rw [List.pairwise_append, List.pairwise_cons, List.pairwise_flatMap]
  refine ⟨⟨?_, ?_⟩, ⟨?_, ?_⟩, ?_⟩
  · rw [List.forall_mem_map]
    exact fun a _ => .inl fun check hcheck => (not_mem_kinds_of_member hcheck).1
  · exact attributes_apart (fun a ha => hown (TypeDecl.attr_mem_ownParts ha)) hattributes
  · exact fun m hm => visitsOfMember_apart (hmember hm)
  · refine (TypeDecl.ownMembers_disjoint h).imp_of_mem fun {m m'} hm hm' hdisjoint v hv w hw => ?_
    exact .of_subset (hinside hm hv) (hinside hm' hw) hdisjoint
  · intro v hv w hw
    obtain ⟨m, hm, hw⟩ := List.mem_flatMap.1 hw
    rcases List.mem_cons.1 hv with rfl | hv
    · exact .inl fun check hcheck hcheck' =>
        kind_ne_type (TypeDecl.isType_of_mem_ownMembers hm) hw (eq_type_of_mem_kinds hcheck hcheck')
    · obtain ⟨a, ha, rfl⟩ := List.mem_map.1 hv
      have hattr := TypeDecl.attr_mem_ownParts ha
      exact .of_subset subset_rfl (hinside hm hw) (Part.disjoint_places (hown hattr) (hmember hm)
        (hcross _ (List.mem_append_left _ (List.mem_map_of_mem ha)) _ (List.mem_map_of_mem hm)))

/-! ## Files -/

namespace SyntaxTree

variable {file : FileId} {text : String} {t : SyntaxTree}

theorem wellNested_of_mem_visits (h : parse file text = .ok t) (hv : v ∈ t.visits) :
    v.node.part.WellNested text.toList := by
  unfold visits at hv
  rw [List.mem_append, List.mem_map, List.mem_flatMap] at hv
  obtain ⟨a, ha, rfl⟩ | ⟨d, hd, hv⟩ := hv
  · exact (Holds.attr ha).wellNested h
  · have hd := wellNested_of_mem_types h hd
    exact hd.of_has (visitsOfType_inside hd hv).1

/-- Two visits of a file lie apart. -/
theorem visits_apart (h : parse file text = .ok t) : t.visits.Pairwise Visit.Apart := by
  have hnested {d : TypeDecl} (hd : d ∈ t.types) := wellNested_of_mem_types h hd
  have hown {p : Part} (hp : p ∈ t.ownParts) := wellNested_of_mem_ownParts h hp
  have hordered := ownParts_apart h
  unfold ownParts at hown hordered
  rw [List.pairwise_append, List.pairwise_flatMap] at hordered
  obtain ⟨hattributes, ⟨-, htypes⟩, hcross⟩ := hordered
  have hattr {a : Attribute} (ha : a ∈ t.root.attributes) : (Part.attr a).WellNested text.toList :=
    (Holds.attr ha).wellNested h
  have hpart {d : TypeDecl} (hd : d ∈ t.types) {p : Part} (hp : p ∈ d.ownParts) :
      p.WellNested text.toList := (hnested hd).of_has (TypeDecl.has_of_mem_ownParts hp)
  unfold visits
  rw [List.pairwise_append, List.pairwise_flatMap]
  refine ⟨attributes_apart (fun _ => hattr) hattributes, ⟨?_, ?_⟩, ?_⟩
  · exact fun d hd => visitsOfType_apart (hnested hd)
  · refine htypes.imp_of_mem fun {d e} hd he hapart v hv w hw => ?_
    refine .of_subset (visitsOfType_inside (hnested hd) hv).2
      (visitsOfType_inside (hnested he) hw).2 ?_
    refine TypeDecl.disjoint_places fun q hq => (TypeDecl.disjoint_places fun p hp => ?_).symm
    exact (Part.disjoint_places (hpart hd hp) (hpart he hq) (hapart p hp q hq)).symm
  · intro v hv w hw
    obtain ⟨a, ha, rfl⟩ := List.mem_map.1 hv
    obtain ⟨d, hd, hw⟩ := List.mem_flatMap.1 hw
    refine .of_subset subset_rfl (visitsOfType_inside (hnested hd) hw).2 ?_
    refine TypeDecl.disjoint_places fun q hq => ?_
    exact Part.disjoint_places (hattr ha) (hpart hd hq)
      (hcross _ (List.mem_map_of_mem ha) q (List.mem_flatMap.2 ⟨d, hd, hq⟩))

end SyntaxTree

end PropertyLint
