/-
# Diagnostics in nodes and members

A check may follow symbols from its node to other members, to other parts of a type and to other
files, but it reports only what stands in the node (`CheckedNode.exists_of_mem_places`).  So every
diagnostic about a node is at a range of the file that lies in the node (`analyzeNode_inside`).

A rule belongs to one check, and a check looks at members that lie apart.  So the diagnostics of a
rule that stand in a member are the findings of the check at this member, whatever else is analysed
(`analyzeTree_filter_perm`).
-/
import PropertyLint.Proofs.Check.Rules
import PropertyLint.Proofs.Lint.Order
import PropertyLint.Proofs.Lint.Visited
import PropertyLint.Proofs.Syntax.Around

namespace PropertyLint

/-! ## Nodes -/

/-- A place that checks of a node report is the one of something in the node. -/
theorem CheckedNode.exists_of_mem_places {n : CheckedNode} {r : OffsetRange} (hr : r ∈ n.places) :
    ∃ q, n.part.Has q ∧ q.range = r := by
  cases n with
  | member m =>
    cases m with
    | type d =>
      obtain ⟨p, hp, q, hq, rfl⟩ := hr
      exact ⟨q, (TypeDecl.has_of_mem_ownParts hp).trans hq, rfl⟩
    | _ => exact hr
  | attr a => exact hr
  | creation e => exact Expr.argumentPlaces_subset e hr

theorem location_of_diagnostic? {config : LintConfig} {file : FileId} {f : Finding}
    {d : Diagnostic} (h : config.diagnostic? file f = some d) : d.location = ⟨file, f.range⟩ := by
  obtain ⟨severity, -, rfl⟩ := Option.map_eq_some_iff.1 h
  rfl

/-- **Diagnostics are local.**  Whatever model the tree of a file has, and whatever configuration
and cancellation, a diagnostic that is reported about a node of the file names the file and a range
of its text that is not empty and lies in the node. -/
theorem analyzeNode_inside {file : FileId} {text : String} {model : Model} {config : LintConfig}
    {v : Visit} {polls : Polls} {ds : List Diagnostic} {d : Diagnostic}
    (hread : SyntaxTree.parse file text = .ok model.tree) (hv : v ∈ model.tree.visits)
    (hrun : (analyzeNode config ⟨v, model⟩).result polls = .ok ds) (hd : d ∈ ds) :
    d.location.file = file ∧ d.range.start < d.range.stop ∧
      (∃ inside, slice? text.toList d.range.start d.range.stop = some inside) ∧
      v.node.range.start ≤ d.range.start ∧ d.range.stop ≤ v.node.range.stop := by
  obtain ⟨check, findings, f, hcheck, hfindings, hf, hd⟩ :=
    exists_of_mem_analyzeNode (.of_result hrun) hd
  have hnested := SyntaxTree.wellNested_of_mem_visits hread hv
  have hreported := Check.run_reported ⟨v, model⟩ (mem_kinds_of_mem_checksFor hcheck) hnested
    hfindings
  -- what is found is something in the node
  obtain ⟨q, hhas, hrange⟩ := CheckedNode.exists_of_mem_places (hreported.place f hf)
  have hfits := (hnested.of_has hhas).fits
  have hwithin := hnested.le_of_has hhas
  have hlocation : d.location = ⟨model.tree.file, f.range⟩ := location_of_diagnostic? hd
  have hdrange : d.range = q.range := (congrArg Location.range hlocation).trans hrange.symm
  rw [CheckedNode.range_part] at hwithin
  obtain ⟨inside, hslice, -⟩ := hfits.slice
  rw [hdrange]
  refine ⟨?_, hfits.nonempty, ⟨inside, hslice⟩, hwithin⟩
  rw [hlocation]
  exact (SyntaxTree.isRead_of_parse hread).2.1

/-- The first report about a node of a text, with the range of the node. -/
def firstReport? (text : String) : Option (OffsetRange × Rule × OffsetRange) := do
  let t ← (SyntaxTree.parse 0 text).toOption
  t.visits.findSome? fun v => do
    let ds ← ((analyzeNode .empty ⟨v, Model.alone t⟩).result .never).toOption
    return (v.node.range, (← ds.head?).rule, (← ds.head?).range)

/-- The diagnostic about the field stands at the name of the field. -/
theorem analyzeNode_inside_misnamedField : ∃ t v ds d,
    SyntaxTree.parse 0 misnamedField = .ok (Model.alone t).tree ∧
    v ∈ (Model.alone t).tree.visits ∧
    (analyzeNode .empty ⟨v, Model.alone t⟩).result .never = .ok ds ∧ d ∈ ds ∧
    v.node.range = ⟨99, 168⟩ ∧ d.range = ⟨125, 134⟩ ∧
    d.location.file = 0 ∧ d.range.start < d.range.stop ∧
    (∃ inside, slice? misnamedField.toList d.range.start d.range.stop = some inside) ∧
    v.node.range.start ≤ d.range.start ∧ d.range.stop ≤ v.node.range.stop := by
  have hreport : firstReport? misnamedField =
      some (⟨99, 168⟩, .backingMemberReadonly, ⟨125, 134⟩) := by decide +kernel
  obtain ⟨t, ht, hreport⟩ := Option.bind_eq_some_iff.1 hreport
  obtain ⟨v, hv, hreport⟩ := List.exists_of_findSome?_eq_some hreport
  obtain ⟨ds, hds, hreport⟩ := Option.bind_eq_some_iff.1 hreport
  rw [toOption_eq_some_iff] at ht hds
  have hread : SyntaxTree.parse 0 misnamedField = .ok (Model.alone t).tree := ht
  cases hhead : ds.head? with
  | none => simp [hhead] at hreport
  | some d =>
    have hd : d ∈ ds := List.mem_of_head? hhead
    simp only [hhead, Option.bind_eq_bind, Option.bind_some, Option.pure_def, Option.some.injEq,
      Prod.mk.injEq] at hreport
    obtain ⟨hnode, -, hrange⟩ := hreport
    exact ⟨t, v, ds, d, hread, hv, hds, hd, hnode, hrange, analyzeNode_inside hread hv hds hd⟩

/-! ## Members -/

theorem flatMap_eq_of_unique {α β : Type} {g : α → List β} {a : α} {as : List α} (ha : a ∈ as)
    (hnodup : as.Nodup) (h : ∀ b ∈ as, b ≠ a → g b = []) : as.flatMap g = g a := by
  obtain ⟨before, behind, rfl⟩ := List.append_of_mem ha
  have hnot : a ∉ before ++ behind := (List.nodup_middle.1 hnodup).notMem
  have hnil {bs : List α} (hsub : bs ⊆ before ++ behind) : bs.flatMap g = [] := by
    rw [List.flatMap_eq_nil_iff]
    intro b hb
    have hmem : b ∈ before ++ a :: behind := List.perm_middle.symm.subset (.tail _ (hsub hb))
    exact h b hmem fun heq => hnot (heq ▸ hsub hb)
  rw [List.flatMap_append, List.flatMap_cons, hnil (List.subset_append_left _ _),
    hnil (List.subset_append_right _ _), List.nil_append, List.append_nil]

section

variable {file : FileId} {text : String} {model : Model} {config : LintConfig} {v w : Visit}
  {m : Member} {check : Check} {rule : Rule} {severity : Severity} {r : OffsetRange}
  {findings : Check → List Finding}

/-- The diagnostics of a rule at a visit are the findings of the check that the rule belongs to. -/
theorem filter_visitReport (hkind : v.node.kind ∈ check.kinds) (hrule : rule ∈ check.rules)
    (habout : ∀ check, AllAbout check.rules (findings check))
    (hseverity : (config.severity rule).severity? = some severity) :
    (visitReport config model v findings).filter
        (fun d => d.rule == rule && r.contains d.range) =
      ((findings check).filter fun f => f.rule == rule && r.contains f.range).map
        fun f => f.toDiagnostic model.tree.file severity := by
  have hchecks : Check.all.Nodup := by decide
  have henabled : config.enables check = true := by
    refine List.any_eq_true.2 ⟨rule, hrule, ?_⟩
    rw [LintConfig.isEnabled, RuleSeverity.isEnabled_eq_isSome, hseverity]
    rfl
  have hmem : check ∈ config.checksFor v.node.kind := by
    refine List.mem_filter.2 ⟨by cases check <;> decide, ?_⟩
    rw [henabled, Bool.and_true, List.contains_iff_mem]
    exact hkind
  rw [visitReport, List.filter_flatMap, flatMap_eq_of_unique hmem (hchecks.filter _)]
  · -- the findings of the rule have its severity
    rw [List.filter_filterMap, ← List.filterMap_eq_map, List.filterMap_filter]
    congr 1
    funext f
    unfold LintConfig.diagnostic?
    by_cases hf : f.rule = rule
    · rw [hf, hseverity, Option.map_some, Option.filter_some]
      simp [Finding.toDiagnostic, Diagnostic.range, hf]
    · rw [if_neg (by simp [hf]), Option.filter_eq_none_iff]
      intro d hd
      obtain ⟨_, -, rfl⟩ := Option.map_eq_some_iff.1 hd
      simp [Finding.toDiagnostic, hf]
  · -- no other check reports the rule
    intro check' _ hne
    rw [List.filter_eq_nil_iff]
    intro d hd
    obtain ⟨f, hf, hd⟩ := List.mem_filterMap.1 hd
    have hrule' := habout check' f hf
    rw [← (eq_of_diagnostic? hd).1] at hrule'
    rw [Bool.and_eq_true, beq_iff_eq]
    rintro ⟨rfl, -⟩
    exact hne (Check.eq_of_mem_rules hrule' hrule)

section
variable (hread : SyntaxTree.parse file text = .ok model.tree)
include hread

/-- What a check reports at another visit does not stand in the member. -/
theorem not_contains_of_ne (hv : v ∈ model.tree.visits) (hnode : v.node = .member m)
    (htype : m.isType = false) (hkind : v.node.kind ∈ check.kinds) (hw : w ∈ model.tree.visits)
    (hkind' : w.node.kind ∈ check.kinds) (hne : w ≠ v) (hr : m.range.contains r = true)
    {place : OffsetRange} (hplace : place ∈ w.node.places) : r.contains place = false := by
  have hnested := SyntaxTree.wellNested_of_mem_visits hread hw
  obtain ⟨q, hq, rfl⟩ := CheckedNode.exists_of_mem_places hplace
  -- the other visit is one of a member too, and of no type
  have hkinds := not_mem_kinds_of_member (hnode ▸ hkind)
  obtain ⟨m', hnode', htype'⟩ : ∃ m', w.node = .member m' ∧ m'.isType = false := by
    cases hw' : w.node with
    | member m' =>
      refine ⟨m', rfl, ?_⟩
      rw [hw'] at hkind'
      cases m' with
      | type d =>
        have heq : v.node.kind = .type := eq_type_of_mem_kinds hkind' hkind
        rw [hnode] at heq
        cases m <;> simp [CheckedNode.kind, Member.isType] at heq htype
      | _ => rfl
    | attr a =>
      rw [hw'] at hkind'
      exact absurd hkind' hkinds.1
    | creation e =>
      rw [hw'] at hkind'
      exact absurd hkind' hkinds.2
  rw [hnode'] at hq hnested
  have hholds {u : Visit} {n : Member} (hu : u ∈ model.tree.visits) (hun : u.node = .member n) :
      model.tree.Holds (.member n) := by
    have hchecks := (SyntaxTree.checks_of_mem_visits hread hu).1
    rw [hun] at hchecks
    cases hchecks with
    | member hholds => exact hholds
  have hmne : m ≠ m' := by
    rintro rfl
    exact hne (List.inj_on_of_nodup_map (SyntaxTree.visits_nodup hread) hw hv
      (hnode'.trans hnode.symm))
  rcases SyntaxTree.apart_or_has hread (hholds hv hnode) (hholds hw hnode') with
    hapart | hhas | hhas
  · rw [← Bool.not_eq_true]
    intro hcontains
    have hm := (hholds hv hnode).wellNested hread
    exact (hnested.of_has hq).not_apart_of_contains (q := .member m)
      (OffsetRange.contains_trans hr hcontains) (hapart.of_has hm hnested .refl hq)
  · exact absurd (hhas.eq_of_not_type htype).symm hmne
  · exact absurd (hhas.eq_of_not_type htype') hmne

/-- The diagnostics of a rule in a member are the findings of its check at the member. -/
theorem analyzeTree_filter_perm {fs : List Finding} (hv : v ∈ model.tree.visits)
    (hnode : v.node = .member m) (htype : m.isType = false) (hkind : v.node.kind ∈ check.kinds)
    (hrule : rule ∈ check.rules) (hseverity : (config.severity rule).severity? = some severity)
    (hfs : (check.run ⟨v, model⟩).Settles fs) (hr : m.range.contains r = true) :
    ∃ ds, (analyzeTree config model).result .never = .ok ds ∧
      (ds.filter fun d => d.rule == rule && r.contains d.range).Perm
        ((fs.filter fun f => f.rule == rule && r.contains f.range).map
          fun f => f.toDiagnostic model.tree.file severity) := by
  have hchecks (v : Visit) : ∃ findings : Check → List Finding,
      ∀ check : Check, (check.run ⟨v, model⟩).Settles (findings check) :=
    ⟨_, fun check => (check.exists_settles ⟨v, model⟩).choose_spec⟩
  choose findings hfindings using hchecks
  have hself : findings v check = fs := hfs.unique _ (hfindings v check).gives
  have htree := analyzeTree_settles fun v => analyzeNode_settles config (hfindings v)
  refine ⟨_, htree.result_never, ((List.mergeSort_perm _ _).filter _).trans ?_⟩
  have hvisits : model.tree.visits.Nodup := (SyntaxTree.visits_nodup hread).of_map _
  rw [List.filter_flatMap, flatMap_eq_of_unique hv hvisits,
    filter_visitReport hkind hrule ?_ hseverity, hself]
  · exact fun check => Check.rule_mem_rules (hfindings v check).gives
  · -- at another visit the check reports nothing here, and other checks do not report the rule
    intro w hw hne
    rw [List.filter_eq_nil_iff]
    intro d hd
    obtain ⟨check', f, hkind', hf, hdrule, hdrange⟩ := exists_of_mem_visitReport hd
    have hreported := Check.run_reported ⟨w, model⟩ hkind'
      (SyntaxTree.wellNested_of_mem_visits hread hw) (hfindings w check').gives
    rw [Bool.and_eq_true, beq_iff_eq, hdrule, hdrange]
    rintro ⟨rfl, hcontains⟩
    obtain rfl := Check.eq_of_mem_rules (hreported.rule f hf) hrule
    have hnot := not_contains_of_ne hread hv hnode htype hkind hw hkind' hne hr
      (hreported.place f hf)
    exact Bool.false_ne_true (hnot.symm.trans hcontains)

/-- If a check reports a rule at a member only inside of it, the diagnostics of the rule in the
member are its findings. -/
theorem analyzeTree_member_perm {fs : List Finding} (hv : v ∈ model.tree.visits)
    (hnode : v.node = .member m) (htype : m.isType = false) (hkind : v.node.kind ∈ check.kinds)
    (hrule : rule ∈ check.rules) (hseverity : (config.severity rule).severity? = some severity)
    (hfs : (check.run ⟨v, model⟩).Settles fs)
    (hinside : ∀ f ∈ fs, f.rule = rule → m.range.contains f.range = true) :
    ∃ ds, (analyzeTree config model).result .never = .ok ds ∧
      (ds.filter fun d => d.rule == rule && m.range.contains d.range).Perm
        ((fs.filter fun f => f.rule == rule).map
          fun f => f.toDiagnostic model.tree.file severity) := by
  have hall : (fs.filter fun f => f.rule == rule && m.range.contains f.range) =
      fs.filter fun f => f.rule == rule := by
    refine List.filter_congr fun f hf => ?_
    rw [Bool.and_eq_left_iff_imp, beq_iff_eq]
    exact hinside f hf
  rw [← hall]
  exact analyzeTree_filter_perm hread hv hnode htype hkind hrule hseverity hfs
    (OffsetRange.contains_refl m.range)

end

end

end PropertyLint
