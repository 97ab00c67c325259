/-
# What is visited

The nodes that are to be checked are the attributes of the assembly, all declarations with their
attributes and the object creations in the code of members (`SyntaxTree.Checks`).  Each of them is
visited once, with the innermost type and the member around it, but for the creations in the default
values of a constructor's parameters, which are not visited (`SyntaxTree.visits_complete`).
-/
import PropertyLint.Proofs.Lint.VisitOrder

namespace PropertyLint

variable {d : TypeDecl} {m : Member} {v : Visit} {n : CheckedNode} {e : Expr}

/-! ## The visits of a declaration -/

theorem mem_visitsOfMember_iff : v ∈ visitsOfMember d m ↔ v = ⟨.member m, some d, some m⟩ ∨
    (∃ a ∈ m.attributes, v = ⟨.attr a, some d, some m⟩) ∨
      ∃ e ∈ m.exprs, e.isCreation = true ∧ v = ⟨.creation e, some d, some m⟩ := by
  simp only [visitsOfMember, List.mem_append, List.mem_cons, List.mem_map, List.mem_filter,
    or_assoc, and_assoc, eq_comm]

theorem mem_visitsOfType_iff : v ∈ visitsOfType d ↔ v = ⟨.member (.type d), some d, none⟩ ∨
    (∃ a ∈ d.attributes, v = ⟨.attr a, some d, none⟩) ∨
      ∃ m ∈ d.ownMembers, v ∈ visitsOfMember d m := by
  simp only [visitsOfType, List.mem_append, List.mem_cons, List.mem_map, List.mem_flatMap,
    or_assoc, eq_comm]

theorem SyntaxTree.mem_visits_iff {t : SyntaxTree} : v ∈ t.visits ↔
    (∃ a ∈ t.root.attributes, v = ⟨.attr a, none, none⟩) ∨ ∃ d ∈ t.types, v ∈ visitsOfType d := by
  simp only [SyntaxTree.visits, List.mem_append, List.mem_map, List.mem_flatMap, eq_comm]

/-- A member is visited with its type. -/
theorem SyntaxTree.member_mem_visits {t : SyntaxTree} (hd : d ∈ t.types) (hm : m ∈ d.ownMembers) :
    ⟨.member m, some d, some m⟩ ∈ t.visits :=
  mem_visits_iff.2 (.inr ⟨d, hd, mem_visitsOfType_iff.2 (.inr (.inr ⟨m, hm,
    mem_visitsOfMember_iff.2 (.inl rfl)⟩))⟩)

theorem Member.exists_eq_type (h : m.isType = true) : ∃ d, m = .type d := by
  cases m with
  | type d => exact ⟨d, rfl⟩
  | _ => simp [isType] at h

theorem Member.HasDefault.has (h : m.HasDefault e) :
    m.isType = false ∧ (Part.member m).Has (.expr e) := by
  obtain ⟨d, rfl, p, hp, hcode⟩ := h
  refine ⟨rfl, (Part.Has.of_mem ?_).trans hcode.has⟩
  simp [Part.parts, Member.parts, hp]

namespace SyntaxTree

variable {file : FileId} {text : String} {t : SyntaxTree}

/-! ## The nodes that are visited -/

/-- The nodes of a file that are to be checked. -/
inductive Checks (t : SyntaxTree) : CheckedNode → Prop where
  | assembly {a : Attribute} : a ∈ t.root.attributes → Checks t (.attr a)
  | member {m : Member} : t.Holds (.member m) → Checks t (.member m)
  | attr {m : Member} {a : Attribute} : t.Holds (.member m) → a ∈ m.attributes →
    Checks t (.attr a)
  | creation {m : Member} {e : Expr} : t.Holds (.member m) → m.isType = false →
    (Part.member m).HasCode (.expr e) → e.isCreation = true → Checks t (.creation e)

/-- The node is a creation in the default value of a parameter of a constructor. -/
def Skips (t : SyntaxTree) (n : CheckedNode) : Prop :=
  ∃ e m, n = .creation e ∧ t.Holds (.member m) ∧ m.HasDefault e

section
variable (h : parse file text = .ok t)
include h

theorem mem_types_iff : d ∈ t.types ↔ t.Holds (.member (.type d)) := by
  rw [← mem_declarations_iff h, declarations, List.mem_flatMap]
  constructor
  · exact fun hd => ⟨d, hd, .head _⟩
  · rintro ⟨e, he, hd⟩
    rwa [TypeDecl.type_mem_declarations hd]

/-- The members that are no types are the own members of the types. -/
theorem exists_type_iff (hm : m.isType = false) :
    (∃ d ∈ t.types, m ∈ d.ownMembers) ↔ t.Holds (.member m) := by
  rw [← mem_declarations_iff h, declarations, List.mem_flatMap]
  refine exists_congr fun d => and_congr_right fun _ => ?_
  rw [TypeDecl.declarations, List.mem_cons, or_iff_right]
  rintro rfl
  simp [Member.isType] at hm

/-- A creation that is visited is in no default value of a constructor's parameter. -/
theorem not_skips_creation (hm : t.Holds (.member m)) (htype : m.isType = false)
    (he : e ∈ m.exprs) : ¬ t.Skips (.creation e) := by
  rintro ⟨e', m', heq, hm', hdefault⟩
  obtain rfl := CheckedNode.creation.inj heq
  obtain ⟨hcode, hnot⟩ := (Member.mem_exprs_iff (hm.wellNested h) htype).1 he
  obtain ⟨htype', hhas⟩ := hdefault.has
  obtain rfl := MemberAround.eq h ⟨hm, htype, hcode.has⟩ ⟨hm', htype', hhas⟩
  exact hnot hdefault

theorem checks_of_mem_visits (hv : v ∈ t.visits) : t.Checks v.node ∧ ¬ t.Skips v.node := by
  have hother {n : CheckedNode} (hn : ∀ e, n ≠ .creation e) : ¬ t.Skips n :=
    fun ⟨e, _, he, _⟩ => hn e he
  rcases mem_visits_iff.1 hv with ⟨a, ha, rfl⟩ | ⟨d, hd, hv⟩
  · exact ⟨.assembly ha, hother (by simp)⟩
  have hholds := (mem_types_iff h).1 hd
  rcases mem_visitsOfType_iff.1 hv with rfl | ⟨a, ha, rfl⟩ | ⟨m, hm, hv⟩
  · exact ⟨.member hholds, hother (by simp)⟩
  · exact ⟨.attr hholds ha, hother (by simp)⟩
  have htype := TypeDecl.isType_of_mem_ownMembers hm
  have hholds := (exists_type_iff h htype).1 ⟨d, hd, hm⟩
  rcases mem_visitsOfMember_iff.1 hv with rfl | ⟨a, ha, rfl⟩ | ⟨e, he, hcreation, rfl⟩
  · exact ⟨.member hholds, hother (by simp)⟩
  · exact ⟨.attr hholds ha, hother (by simp)⟩
  · have hcode := ((Member.mem_exprs_iff (hholds.wellNested h) htype).1 he).1
    exact ⟨.creation hholds htype hcode hcreation, not_skips_creation h hholds htype he⟩

theorem exists_visit_of_checks (hn : t.Checks n) (hskips : ¬ t.Skips n) :
    ∃ v ∈ t.visits, v.node = n := by
  -- what is visited in a declaration is visited in the file
  have htype {d : TypeDecl} (hd : t.Holds (.member (.type d))) {v : Visit}
      (hv : v ∈ visitsOfType d) : v ∈ t.visits :=
    mem_visits_iff.2 (.inr ⟨d, (mem_types_iff h).2 hd, hv⟩)
  have hmember {m : Member} (hm : t.Holds (.member m)) (hmtype : m.isType = false) :
      ∃ d, ∀ v ∈ visitsOfMember d m, v ∈ t.visits := by
    obtain ⟨d, hd, hmem⟩ := (exists_type_iff h hmtype).2 hm
    refine ⟨d, fun v hv => htype ((mem_types_iff h).1 hd) ?_⟩
    exact mem_visitsOfType_iff.2 (.inr (.inr ⟨m, hmem, hv⟩))
  cases hn with
  | assembly ha => exact ⟨_, mem_visits_iff.2 (.inl ⟨_, ha, rfl⟩), rfl⟩
  | @member m hm =>
    cases hmtype : m.isType with
    | true =>
      obtain ⟨d, rfl⟩ := Member.exists_eq_type hmtype
      exact ⟨_, htype hm (mem_visitsOfType_iff.2 (.inl rfl)), rfl⟩
    | false =>
      obtain ⟨d, hd⟩ := hmember hm hmtype
      exact ⟨_, hd _ (mem_visitsOfMember_iff.2 (.inl rfl)), rfl⟩
  | @attr m a hm ha =>
    cases hmtype : m.isType with
    | true =>
      obtain ⟨d, rfl⟩ := Member.exists_eq_type hmtype
      exact ⟨_, htype hm (mem_visitsOfType_iff.2 (.inr (.inl ⟨a, ha, rfl⟩))), rfl⟩
    | false =>
      obtain ⟨d, hd⟩ := hmember hm hmtype
      exact ⟨_, hd _ (mem_visitsOfMember_iff.2 (.inr (.inl ⟨a, ha, rfl⟩))), rfl⟩
  | @creation m e hm hmtype hcode hcreation =>
    obtain ⟨d, hd⟩ := hmember hm hmtype
    have he := (Member.mem_exprs_iff (hm.wellNested h) hmtype).2
      ⟨hcode, fun hdefault => hskips ⟨e, m, rfl, hm, hdefault⟩⟩
    exact ⟨_, hd _ (mem_visitsOfMember_iff.2 (.inr (.inr ⟨e, he, hcreation, rfl⟩))), rfl⟩

/-! ## The declarations around a node -/

theorem around_of_mem_visits (hv : v ∈ t.visits) :
    (∀ d, v.containingType = some d ↔ t.Innermost v.node.part d) ∧
      ∀ m, v.containingMember = some m ↔ t.MemberAround v.node.part m := by
  rcases mem_visits_iff.1 hv with ⟨a, ha, rfl⟩ | ⟨d, hd, hv⟩
  · have hnot {m : Member} (hm : t.Holds (.member m)) := not_has_of_mem_attributes h ha hm
    exact ⟨fun d => iff_of_false (by simp) fun hd => hnot hd.1 hd.2.1,
      fun m => iff_of_false (by simp) fun hm => hnot hm.1 hm.2.2⟩
  have hholds := (mem_types_iff h).1 hd
  rcases mem_visitsOfType_iff.1 hv with rfl | ⟨a, ha, rfl⟩ | ⟨m, hm, hv⟩
  · exact ⟨Innermost.some_eq_iff ⟨hholds, .refl, fun _ _ he => he⟩,
      fun m => iff_of_false (by simp) (not_memberAround h hholds (.inl rfl))⟩
  · have hattr : Part.attr a ∈ (Part.member (.type d)).parts :=
      (attributes_sublist (.type d)).subset (List.mem_map_of_mem ha)
    have hmembers (m : Member) : ¬ (Part.attr a).Has (.member m) := fun hhas => by
      obtain ⟨m', hm'⟩ := Part.exists_member_of_has hhas
      cases hm'
    have hinnermost := innermost_of_mem_parts h hholds hattr (fun e => hmembers _) .refl
    exact ⟨hinnermost.some_eq_iff, fun m =>
      iff_of_false (by simp) (not_memberAround h hholds (.inr ⟨hattr, hmembers⟩))⟩
  · have htype := TypeDecl.isType_of_mem_ownMembers hm
    have hpart := d.ownParts_sublist.subset (TypeDecl.member_mem_ownParts hm)
    have hinside := (visitsOfMember_inside ((hholds.wellNested h).part hpart) htype hv).1
    obtain ⟨hcontaining, hmember⟩ := containing_of_mem_visitsOfMember hv
    rw [hcontaining, hmember]
    have hinnermost : t.Innermost v.node.part d := by
      refine innermost_of_mem_parts h hholds hpart (fun e hhas => ?_) hinside
      rw [← hhas.eq_of_not_type htype] at htype
      simp [Member.isType] at htype
    have haround : t.MemberAround v.node.part m := ⟨hholds.part hpart, htype, hinside⟩
    exact ⟨hinnermost.some_eq_iff, MemberAround.some_eq_iff h haround⟩

/-- No node is visited twice. -/
theorem visits_nodup : (t.visits.map Visit.node).Nodup := by
  refine List.pairwise_map.2 (List.pairwise_append.2
    ⟨(assemblyVisits_leads h).imp Visit.Leads.ne, (typeVisits_leads h).imp Visit.Leads.ne, ?_⟩)
  intro v hv w hw heq
  obtain ⟨a, ha, rfl⟩ := List.mem_map.1 hv
  obtain ⟨d, hd, hw⟩ := List.mem_flatMap.1 hw
  have hhas := (visitsOfType_inside (wellNested_of_mem_types h hd) hw).1
  rw [← heq] at hhas
  exact not_has_of_mem_attributes h ha ((mem_types_iff h).1 hd) hhas

/-- **Completeness.**  The attributes of the assembly, the declarations with their attributes and
the object creations in the code of members are visited, each once and nothing else, but for the
creations in the default values of a constructor's parameters.  A visit knows the innermost type and
the member around its node. -/
theorem visits_complete :
    (∀ n, (∃ v ∈ t.visits, v.node = n) ↔ t.Checks n ∧ ¬ t.Skips n) ∧
      (t.visits.map Visit.node).Nodup ∧
      ∀ v ∈ t.visits, (∀ d, v.containingType = some d ↔ t.Innermost v.node.part d) ∧
        ∀ m, v.containingMember = some m ↔ t.MemberAround v.node.part m := by
  refine ⟨fun n => ⟨?_, fun ⟨hn, hskips⟩ => exists_visit_of_checks h hn hskips⟩,
    visits_nodup h, fun v => around_of_mem_visits h⟩
  rintro ⟨v, hv, rfl⟩
  exact checks_of_mem_visits h hv

end

/-- A method and a constructor with creations for defaults. -/
def defaultCreations : String :=
  "class A \x7b void M(B b = new B()) \x7b \x7d A(B b = new B()) \x7b \x7d \x7d"

/-- The creation of the method is visited and that of the constructor is not. -/
theorem visits_complete_defaultCreations : ∃ t, parse 0 defaultCreations = .ok t ∧
    (t.visits.map fun v => v.node.kind) = [.type, .method, .creation, .constructor] ∧
    ((∀ n, (∃ v ∈ t.visits, v.node = n) ↔ t.Checks n ∧ ¬ t.Skips n) ∧
      (t.visits.map Visit.node).Nodup ∧
      ∀ v ∈ t.visits, (∀ d, v.containingType = some d ↔ t.Innermost v.node.part d) ∧
        ∀ m, v.containingMember = some m ↔ t.MemberAround v.node.part m) := by
  have hread : ((parse 0 defaultCreations).toOption.map fun t =>
      t.visits.map fun v => v.node.kind) =
        some [.type, .method, .creation, .constructor] := by decide +kernel
  obtain ⟨t, ht, hkinds⟩ := Option.map_eq_some_iff.1 hread
  rw [toOption_eq_some_iff] at ht
  exact ⟨t, ht, hkinds, visits_complete ht⟩

end SyntaxTree

end PropertyLint
