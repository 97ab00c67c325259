/-
# Fixes find what was reported

What a rule reports is found again on the same tree by its range: the name of the member, the type
or the argument that the rule was about, and nothing else (`proposeFix_finds`).  So a fix that
replaces a text is only declined where the text is the new one already.
-/
import PropertyLint.Proofs.Check.Targets
import PropertyLint.Proofs.Fix.Lookup
import PropertyLint.Proofs.Lint.Member

namespace PropertyLint

variable {file : FileId} {text : String} {t : SyntaxTree} {v : Visit}

/-! ## Visited nodes in their types -/

namespace SyntaxTree

theorem exists_type_of_visit {m : Member} (h : parse file text = .ok t) (hv : v ∈ t.visits)
    (hnode : v.node = .member m) (hm : m.isType = false) : ∃ d ∈ t.types, m ∈ d.ownMembers := by
  have hchecks := (checks_of_mem_visits h hv).1
  rw [hnode] at hchecks
  cases hchecks with
  | member hholds => exact (exists_type_iff h hm).2 hholds

theorem mem_types_of_visit {d : TypeDecl} (h : parse file text = .ok t) (hv : v ∈ t.visits)
    (hnode : v.node = .member (.type d)) : d ∈ t.types := by
  have hchecks := (checks_of_mem_visits h hv).1
  rw [hnode] at hchecks
  cases hchecks with
  | member hholds => exact (mem_types_iff h).2 hholds

/-- An attribute that is visited in a type is one of the type or of a member of it. -/
theorem mem_attributes_of_visit {b : Attribute} {d : TypeDecl} (hv : v ∈ t.visits)
    (hnode : v.node = .attr b) (hd : v.containingType = some d) :
    d ∈ t.types ∧ b ∈ d.attributes ++ d.ownMembers.flatMap Member.attributes := by
  rcases mem_visits_iff.1 hv with ⟨a, -, rfl⟩ | ⟨e, he, hv⟩
  · cases hd
  · obtain rfl : e = d := Option.some.inj ((containingType_of_mem_visitsOfType hv).symm.trans hd)
    refine ⟨he, ?_⟩
    rw [List.mem_append, List.mem_flatMap]
    rcases mem_visitsOfType_iff.1 hv with rfl | ⟨a, ha, rfl⟩ | ⟨m, hm, hv⟩
    · cases hnode
    · obtain rfl := CheckedNode.attr.inj hnode
      exact .inl ha
    rcases mem_visitsOfMember_iff.1 hv with rfl | ⟨a, ha, rfl⟩ | ⟨x, -, -, rfl⟩
    · cases hnode
    · obtain rfl := CheckedNode.attr.inj hnode
      exact .inr ⟨m, hm, ha⟩
    · cases hnode

theorem exists_member_of_visit {e : Expr} (hv : v ∈ t.visits) (hnode : v.node = .creation e) :
    ∃ d ∈ t.types, ∃ m ∈ d.ownMembers, e ∈ m.exprs := by
  rcases mem_visits_iff.1 hv with ⟨a, -, rfl⟩ | ⟨d, hd, hv⟩
  · cases hnode
  rcases mem_visitsOfType_iff.1 hv with rfl | ⟨a, -, rfl⟩ | ⟨m, hm, hv⟩
  · cases hnode
  · cases hnode
  rcases mem_visitsOfMember_iff.1 hv with rfl | ⟨a, -, rfl⟩ | ⟨x, hx, -, rfl⟩
  · cases hnode
  · cases hnode
  · obtain rfl := CheckedNode.creation.inj hnode
    exact ⟨d, hd, m, hm, hx⟩

end SyntaxTree

/-! ## The call that a member starts with -/

theorem Expr.unparenthesized_mem_walk (e : Expr) : e.unparenthesized ∈ e.walk := by
  fun_induction Expr.unparenthesized e with
  | case1 n inner ih => exact (Part.mem_walk_iff _).2 (.inr ⟨inner, .head _, ih⟩)
  | case2 e => exact (Part.mem_walk_iff _).2 (.inl rfl)

/-- The expressions in what a member starts with are expressions of the member. -/
theorem Member.walk_subset_exprs {m : Member} {e : Expr} (h : m.startValue? = some e) :
    e.walk ⊆ m.exprs := by
  intro x hx
  cases m with
  | field d =>
    have h : d.init = some e := h
    exact Part.mem_walkOption_iff.2 ⟨e, h, hx⟩
  | property d =>
    unfold Member.startValue? PropertyDecl.staticValue? at h
    unfold Member.exprs
    rw [List.mem_append, List.mem_append]
    rw [Option.orElse_eq_some] at h
    rcases h with hinit | ⟨-, h⟩
    · exact .inr (Part.mem_walkOption_iff.2 ⟨e, hinit, hx⟩)
    rw [Option.orElse_eq_some] at h
    rcases h with harrow | ⟨-, h⟩
    · exact .inl (.inl (Part.mem_walkOption_iff.2 ⟨e, harrow, hx⟩))
    obtain ⟨a, ha, h⟩ := Option.bind_eq_some_iff.1 h
    refine .inl (.inr (List.mem_flatMap.2 ⟨a, List.mem_of_find?_eq_some ha, ?_⟩))
    exact List.mem_append_right _ (Part.mem_walkOption_iff.2 ⟨e, h, hx⟩)
  | _ => simp [Member.startValue?] at h

theorem Expr.argumentList?_of_registrationCall? {e : Expr} {c : RegistrationCall}
    (h : e.registrationCall? = some c) : e.unparenthesized.argumentList? = some c.args := by
  unfold Expr.registrationCall? at h
  split at h
  · rename_i heq
    rw [Option.ite_none_right_eq_some] at h
    obtain rfl := Option.some.inj h.2
    rw [heq]
    rfl
  · cases h

/-! ## What is found -/

namespace Target

/-- The target is one of those that a file is looked through for. -/
def StandsIn (t : SyntaxTree) : Target → Prop
  | name m => ∃ d ∈ t.types, m ∈ d.ownMembers
  | type ty => ∃ d ∈ t.types, ∃ m ∈ d.ownMembers, ty ∈ m.declaredTypes
  | argument a => ∃ d ∈ t.types, a ∈ d.attributeArguments ++ d.callArguments

/-- The text that is to be replaced: an identifier without the sign in front of it. -/
def oldText (t : SyntaxTree) : Target → String
  | name m => m.name.text
  | type ty => t.textOf ty.range
  | argument a => t.textOf a.value.range

end Target

section
variable {d : TypeDecl} {a : Argument Expr} {l : ArgumentList Expr}

theorem TypeDecl.mem_attributeArguments {b : Attribute}
    (hb : b ∈ d.attributes ++ d.ownMembers.flatMap Member.attributes) (hl : b.args = some l)
    (ha : a ∈ l.args) : a ∈ d.attributeArguments ++ d.callArguments :=
  List.mem_append_left _ (List.mem_flatMap.2 ⟨b, hb, by rwa [hl]⟩)

theorem TypeDecl.mem_callArguments {m : Member} {e : Expr} (hm : m ∈ d.ownMembers)
    (he : e ∈ m.exprs) (hl : e.argumentList? = some l) (ha : a ∈ l.args) :
    a ∈ d.attributeArguments ++ d.callArguments :=
  List.mem_append_right _
    (List.mem_flatMap.2 ⟨e, List.mem_flatMap.2 ⟨m, hm, he⟩, by rwa [hl]⟩)

end

/-- What a rule is reported about at a visited node is looked through for. -/
theorem Context.Reports.standsIn {ctx : Context} {rule : Rule} {target : Target}
    (h : SyntaxTree.parse file text = .ok t) (hv : ctx.visit ∈ t.visits)
    (hreports : ctx.Reports rule target) : target.StandsIn t := by
  cases hreports with
  | name hnode hm _ => exact SyntaxTree.exists_type_of_visit h hv hnode hm
  | wrapperType hnode =>
    obtain ⟨d, hd, hm⟩ := SyntaxTree.exists_type_of_visit h hv hnode rfl
    exact ⟨d, hd, _, hm, List.mem_singleton_self _⟩
  | @accessorType m direction ty hnode hty =>
    obtain ⟨d, hd, hm⟩ := SyntaxTree.exists_type_of_visit h hv hnode rfl
    refine ⟨d, hd, _, hm, ?_⟩
    cases direction with
    | get =>
      obtain rfl := Option.some.inj hty
      exact .head _
    | set =>
      obtain ⟨p, hp, rfl⟩ := Option.map_eq_some_iff.1 hty
      exact .tail _ (List.mem_map_of_mem (List.mem_of_getElem? hp))
  | registeredOwner hnode hm he hr ha =>
    obtain ⟨d, hd, hmem⟩ := SyntaxTree.exists_type_of_visit h hv hnode hm
    obtain ⟨c, method, hc, howner, -⟩ := Model.exists_call_of_registrationBy? hr
    rw [howner] at ha
    have hcall := Member.walk_subset_exprs he (Expr.unparenthesized_mem_walk _)
    exact ⟨d, hd, TypeDecl.mem_callArguments hmem hcall
      (Expr.argumentList?_of_registrationCall? hc) (mem_of_argumentFor? ha)⟩
  | browsableArgument hnode ha =>
    obtain ⟨d, hd, hm⟩ := SyntaxTree.exists_type_of_visit h hv hnode rfl
    obtain ⟨b, hb, ha⟩ := List.exists_of_findSome?_eq_some ha
    split at ha
    · rename_i arg huse
      obtain rfl := Option.some.inj ha
      obtain ⟨l, hl, ha⟩ := Attribute.mem_args_of_use? huse (.head _)
      refine ⟨d, hd, TypeDecl.mem_attributeArguments (List.mem_append_right _ ?_) hl ha⟩
      exact List.mem_flatMap.2 ⟨_, hm, hb⟩
    · cases ha
  | @valueConversionTypes d source target a hnode hargs ha =>
    have hd := SyntaxTree.mem_types_of_visit h hv hnode
    obtain ⟨b, hb, l, hl, rfl, rfl⟩ :=
      Check.Converter.exists_of_conversionArguments? ctx d hargs
    exact ⟨d, hd, TypeDecl.mem_attributeArguments (List.mem_append_left _ hb) hl
      (ha.elim mem_of_namedOrAt? mem_of_namedOrAt?)⟩
  | constructorArgument hnode hcontaining huse | markupReturnType hnode hcontaining huse =>
    obtain ⟨hd, hb⟩ := SyntaxTree.mem_attributes_of_visit hv hnode hcontaining
    obtain ⟨l, hl, ha⟩ := Attribute.mem_args_of_use? huse (.head _)
    exact ⟨_, hd, TypeDecl.mem_attributeArguments hb hl ha⟩
  | creation hnode hl _ _ ha =>
    obtain ⟨d, hd, m, hm, he⟩ := SyntaxTree.exists_member_of_visit hv hnode
    exact ⟨d, hd, TypeDecl.mem_callArguments hm he hl (mem_of_argumentFor? ha)⟩

/-- What a provider that replaces a text finds at a range. -/
def FixProvider.target? (t : SyntaxTree) (r : OffsetRange) : FixProvider → Option Target
  | rename => (t.memberNamedAt? r).map .name
  | changeType => (t.declaredTypeAt? r).map .type
  | replaceArgument => (t.argumentAt? r).map .argument
  | _ => none

/-- A provider finds what it replaces by the range. -/
theorem Target.target?_eq {target : Target} (h : SyntaxTree.parse file text = .ok t)
    (hin : target.StandsIn t) : target.provider.target? t target.range = some target := by
  cases target with
  | name m =>
    obtain ⟨d, hd, hm⟩ := hin
    exact congrArg (Option.map Target.name) (SyntaxTree.memberNamedAt?_eq h hd hm)
  | type ty =>
    obtain ⟨d, hd, m, hm, hty⟩ := hin
    exact congrArg (Option.map Target.type) (SyntaxTree.declaredTypeAt?_eq h hd hm hty)
  | argument a =>
    obtain ⟨d, hd, ha⟩ := hin
    exact congrArg (Option.map Target.argument) (SyntaxTree.argumentAt?_eq h hd ha)

/-! ## Fixes -/

/-- The text that a fix puts in the place of the old one. -/
def PropertyKey.newText : PropertyKey → String → String
  | expectedType, text => "typeof(" ++ text ++ ")"
  | _, text => text

/-- A provider that has found the text to replace declines iff it is the new text. -/
theorem FixProvider.propose_eq_none_iff {d : Diagnostic} {key : PropertyKey} {new : String}
    {target : Target} (hkey : d.properties = [(key.name, new)])
    (hprovider : key.provider = target.provider)
    (hfound : target.provider.target? t d.range = some target) :
    key.provider.propose d t = none ↔ target.oldText t = key.newText new := by
  have hd := Diagnostic.property?_of_single hkey
  rw [hprovider]
  cases target with
  | name m =>
    have hm : t.memberNamedAt? d.range = some m := by simpa [target?, Target.provider] using hfound
    cases key <;> simp [PropertyKey.provider, Target.provider] at hprovider
    simp [propose, Target.provider, Fix.rename, hd, hm, Target.oldText, PropertyKey.newText]
  | type ty =>
    have hty : t.declaredTypeAt? d.range = some ty := by
      simpa [target?, Target.provider] using hfound
    cases key <;> simp [PropertyKey.provider, Target.provider] at hprovider
    simp [propose, Target.provider, Fix.changeType, Fix.replaceUnlessEqual, hd, hty, Target.oldText,
      PropertyKey.newText]
  | argument a =>
    have ha : t.argumentAt? d.range = some a := by simpa [target?, Target.provider] using hfound
    cases key <;> simp [PropertyKey.provider, Target.provider] at hprovider <;>
      simp [propose, Target.provider, Fix.replaceArgument, Fix.replaceUnlessEqual, hd, ha,
        Target.oldText, PropertyKey.newText]

/-- The three providers that replace a text fix different rules. -/
theorem FixProvider.eq_of_mem_rules {p : FixProvider} {target : Target} {rule : Rule}
    (hp : p ∈ [rename, changeType, replaceArgument]) (hrule : rule ∈ p.rules)
    (htarget : rule ∈ target.provider.rules) : p = target.provider := by
  cases rule <;> cases p <;> cases target <;>
    simp [rules, Target.provider] at hp hrule htarget ⊢

/-- **Diagnostics are located.**  A diagnostic about a file that carries what a provider needs to
replace a name, a type or an argument was reported at a visited node about such a target, and on the
tree of the file the provider finds exactly this target by the range of the diagnostic.  So the
diagnostic has a fix unless the text of the target is the new one. -/
theorem proposeFix_finds {model : Model} {config : LintConfig} {polls : Polls}
    {ds : List Diagnostic} {d : Diagnostic} {key : PropertyKey} {new : String}
    (hread : SyntaxTree.parse file text = .ok model.tree)
    (hrun : (analyzeTree config model).result polls = .ok ds) (hd : d ∈ ds)
    (hkey : d.property? key = some new)
    (hprovider : key.provider ∈ [.rename, .changeType, .replaceArgument])
    (hrule : d.rule ∈ key.provider.rules) :
    ∃ visit ∈ model.tree.visits, ∃ target, Context.Reports ⟨visit, model⟩ d.rule target ∧
      d.range = target.range ∧ key.provider.target? model.tree d.range = some target ∧
      (proposeFix d model.tree = none ↔ target.oldText model.tree = key.newText new) := by
  have hsingle : d.properties = [(key.name, new)] := by
    rcases carriesOne_of_mem_analyzeTree hrun hd with hnone | ⟨key', new', hsingle, -⟩
    · rw [Diagnostic.property?, hnone] at hkey
      cases hkey
    · rw [Diagnostic.property?_of_single hsingle, Option.ite_none_right_eq_some] at hkey
      obtain ⟨rfl, hnew⟩ := hkey
      rw [hsingle, Option.some.inj hnew]
  obtain ⟨visit, hvisit, check, hcheck, findings, f, hgives, hf, hdiagnostic⟩ :=
    exists_visit_of_mem_analyzeTree hrun hd
  have hlocation := location_of_diagnostic? hdiagnostic
  obtain ⟨severity, -, rfl⟩ := Option.map_eq_some_iff.1 hdiagnostic
  -- a finding with this text does not ask for arguments
  have hreplacing : f.rule ∈ replacingRules := by
    rcases List.mem_cons.1 hprovider with heq | hprovider
    · exact List.mem_append_left _ (List.mem_append_left _ (heq ▸ hrule))
    rcases List.mem_cons.1 hprovider with heq | hprovider
    · exact List.mem_append_left _ (List.mem_append_right _ (heq ▸ hrule))
    · exact List.mem_append_right _ (List.mem_singleton.1 hprovider ▸ hrule)
  have hlocated : AllLocated ⟨visit, model⟩ findings :=
    Check.run_located (mem_kinds_of_mem_checksFor hcheck) hgives
  rcases hlocated f hf hreplacing with ⟨target, hreports, hrange⟩ | ⟨args, hargs⟩
  · have heq := FixProvider.eq_of_mem_rules hprovider hrule hreports.rule_mem
    have hfound := Target.target?_eq hread (hreports.standsIn hread hvisit)
    rw [← hrange] at hfound
    refine ⟨visit, hvisit, target, hreports, hrange, heq ▸ hfound, ?_⟩
    rw [proposeFix_of_single hsingle, if_pos ⟨rfl, hrule⟩]
    exact FixProvider.propose_eq_none_iff hsingle heq hfound
  · have hname : key.name = PropertyKey.argumentList.name :=
      (Prod.mk.inj (List.cons.inj (hsingle.symm.trans hargs)).1).1
    exfalso
    revert hname hprovider
    cases key <;> simp [PropertyKey.name, PropertyKey.provider]

/-- A field with another name than the registered one, which is registered for another type than the
one it stands in, and a wrapper of another type than the registered one. -/
def misregistered : String :=
  "namespace System.Windows\x7b" ++
    "class DependencyObject\x7bT GetValue(S p)\x7b\x7d\x7d" ++
    "class DependencyProperty\x7bstatic T Register(S name,S propertyType,S ownerType)\x7b\x7d\x7d" ++
    "class A:DependencyObject\x7bstatic readonly DependencyProperty B=" ++
    "DependencyProperty.Register(\"C\",typeof(A),typeof(T));T C=>GetValue(B);\x7dclass T\x7b\x7d\x7d"

/-- A diagnostic with the text that its fix takes from it, and the fix. -/
structure FixedReport where
  diagnostic : Diagnostic
  key : PropertyKey
  new : String
  fix : CodeFix

/-- The reports about the name of the field, about the owner of its registration and about the type
of the wrapper. -/
def misregisteredReports : List FixedReport :=
  [{ diagnostic :=
      { rule := .backingFieldName
        severity := .warning
        location := ⟨0, ⟨206, 207⟩⟩
        message := "Field 'B' that is backing field for the DependencyProperty registered as 'C' " ++
          "must be named 'CProperty'"
        args := ["B", "C"]
        properties := [("ExpectedName", "CProperty")] }
     key := .expectedName
     new := "CProperty"
     fix := .replace "Rename to: 'CProperty'" ⟨206, 207⟩ "CProperty" },
   { diagnostic :=
      { rule := .registeredOwner
        severity := .warning
        location := ⟨0, ⟨250, 259⟩⟩
        message := "Register containing type: 'A' as owner."
        args := ["A"]
        properties := [("ExpectedType", "A")] }
     key := .expectedType
     new := "A"
     fix := .replace "Use typeof(A)" ⟨250, 259⟩ "typeof(A)" },
   { diagnostic :=
      { rule := .wrapperType
        severity := .warning
        location := ⟨0, ⟨261, 262⟩⟩
        message := "Property 'C' must be of type A"
        args := ["C", "A"]
        properties := [("TypeSyntax", "A")] }
     key := .typeText
     new := "A"
     fix := .replace "Change type to: A" ⟨261, 262⟩ "A" }]

/-- Each of the three providers finds what was reported. -/
theorem proposeFix_finds_misregistered : ∃ t ds,
    SyntaxTree.parse 0 misregistered = .ok (Model.alone t).tree ∧
    (analyzeTree .empty (Model.alone t)).result .never = .ok ds ∧
    ∀ r ∈ misregisteredReports, r.diagnostic ∈ ds ∧
      r.diagnostic.property? r.key = some r.new ∧
      proposeFix r.diagnostic (Model.alone t).tree = some r.fix ∧
      ∃ visit ∈ (Model.alone t).tree.visits, ∃ target,
        Context.Reports ⟨visit, Model.alone t⟩ r.diagnostic.rule target ∧
        r.diagnostic.range = target.range ∧
        r.key.provider.target? (Model.alone t).tree r.diagnostic.range = some target ∧
        (proposeFix r.diagnostic (Model.alone t).tree = none ↔
          target.oldText (Model.alone t).tree = r.key.newText r.new) := by
  -- the reports of the nodes, before they are sorted
  have hreports : ((SyntaxTree.parse 0 misregistered).toOption.bind fun t =>
      ((t.visits.mapM fun v => analyzeNode .empty ⟨v, Model.alone t⟩).result .never).toOption.map
        fun reports => misregisteredReports.all fun r =>
          decide (r.diagnostic ∈ reports.flatten ∧ proposeFix r.diagnostic t = some r.fix)) =
        some true := by
    decide +kernel
  obtain ⟨t, hread, hreports⟩ := Option.bind_eq_some_iff.1 hreports
  obtain ⟨reports, hnodes, hreports⟩ := Option.map_eq_some_iff.1 hreports
  rw [toOption_eq_some_iff] at hread hnodes
  have hrun : (analyzeTree .empty (Model.alone t)).result .never = .ok (joinReports reports) := by
    rw [analyzeTree, Polled.result_map]
    exact congrArg (Except.map _) hnodes
  have hkeys : ∀ r ∈ misregisteredReports, r.diagnostic.property? r.key = some r.new ∧
      r.key.provider ∈ [.rename, .changeType, .replaceArgument] ∧
      r.diagnostic.rule ∈ r.key.provider.rules := by
    decide
  refine ⟨t, _, hread, hrun, fun r hr => ?_⟩
  obtain ⟨hreported, hfix⟩ := of_decide_eq_true (List.all_eq_true.1 hreports r hr)
  obtain ⟨hkey, hprovider, hrule⟩ := hkeys r hr
  have hmem : r.diagnostic ∈ joinReports reports := List.mem_mergeSort.2 hreported
  exact ⟨hmem, hkey, hfix, proposeFix_finds hread hrun hmem hkey hprovider hrule⟩

end PropertyLint
