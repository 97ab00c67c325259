/-
# What a configuration changes

A configuration selects diagnostics and gives them their severities (`LintConfig.relabel?`); it has
no other part in an analysis.  A check that is left out would report only rules that are off
(`visitReport_eq`), and sorting is stable, so diagnostics may be selected before it or behind it
(`filterMap_mergeSort`).  `analyzeTree_eq_filterMap` puts this together.
-/
import PropertyLint.Proofs.Check.Rules
import PropertyLint.Proofs.Lint.Order

namespace PropertyLint

/-! ## Selecting from a sorted list -/

section

variable {α β : Type} {le : α → α → Bool} {le' : β → β → Bool}

/-- Where one more element is put into a sorted list: those in front of it do not come after it, and
those behind it do. -/
theorem exists_mergeSort_cons (htrans : ∀ a b c, le a b = true → le b c = true → le a c = true)
    (htotal : ∀ a b, (le a b || le b a) = true) (a : α) (as : List α) :
    ∃ before after, (a :: as).mergeSort le = before ++ a :: after ∧
      as.mergeSort le = before ++ after ∧
      (∀ b ∈ before, le a b = false) ∧ ∀ b ∈ after, le a b = true := by
  obtain ⟨before, after, hsort, hrest, hbefore⟩ := List.mergeSort_cons htrans htotal a as
  have hsorted := List.pairwise_mergeSort htrans htotal (a :: as)
  rw [hsort, List.pairwise_append, List.pairwise_cons] at hsorted
  exact ⟨before, after, hsort, hrest, by simpa using hbefore, hsorted.2.1.1⟩

/-- There is one way to cut a list into elements that fail a test and elements that pass it. -/
theorem append_inj_of_test {p : α → Bool} {as as' bs bs' : List α} (h : as ++ bs = as' ++ bs')
    (has : ∀ a ∈ as, p a = false) (has' : ∀ a ∈ as', p a = false) (hbs : ∀ b ∈ bs, p b = true)
    (hbs' : ∀ b ∈ bs', p b = true) : as = as' ∧ bs = bs' := by
  have hcut {as bs : List α} (has : ∀ a ∈ as, p a = false) (hbs : ∀ b ∈ bs, p b = true) :
      (as ++ bs).filter p = bs := by
    rw [List.filter_append, List.filter_eq_nil_iff.2 (by simpa using has),
      List.filter_eq_self.2 hbs, List.nil_append]
  obtain rfl : bs = bs' := by rw [← hcut has hbs, h, hcut has' hbs']
  exact ⟨List.append_cancel_right h, rfl⟩

/-- Elements may be selected, and changed without a change of their order, before they are sorted or
afterwards. -/
theorem filterMap_mergeSort (htrans : ∀ a b c, le a b = true → le b c = true → le a c = true)
    (htotal : ∀ a b, (le a b || le b a) = true)
    (htrans' : ∀ a b c, le' a b = true → le' b c = true → le' a c = true)
    (htotal' : ∀ a b, (le' a b || le' b a) = true) {f : α → Option β}
    (hf : ∀ a a' b b', f a = some b → f a' = some b' → le' b b' = le a a') (as : List α) :
    (as.mergeSort le).filterMap f = (as.filterMap f).mergeSort le' := by
  induction as with
  | nil => simp
  | cons a as ih =>
    obtain ⟨before, after, hsort, hrest, hbefore, hafter⟩ := exists_mergeSort_cons htrans htotal a as
    rw [hrest, List.filterMap_append] at ih
    rw [hsort, List.filterMap_append, List.filterMap_cons, List.filterMap_cons]
    cases ha : f a with
    | none => exact ih
    | some b =>
      obtain ⟨before', after', hsort', hrest', hbefore', hafter'⟩ :=
        exists_mergeSort_cons htrans' htotal' b (as.filterMap f)
      -- both lists are cut where their elements begin to come after `b`
      have hmap {r : Bool} {cs : List α} (h : ∀ c ∈ cs, le a c = r) :
          ∀ d ∈ cs.filterMap f, le' b d = r := by
        intro d hd
        obtain ⟨c, hc, hd⟩ := List.mem_filterMap.1 hd
        rw [hf a c b d ha hd, h c hc]
      obtain ⟨hfront, hback⟩ := append_inj_of_test (ih.trans hrest') (hmap hbefore) hbefore'
        (hmap hafter) hafter'
      rw [hsort', hfront, hback]

end

/-! ## Configured diagnostics -/

namespace LintConfig

/-- The diagnostic with the severity that the configuration gives its rule, unless the rule is
off. -/
def relabel? (config : LintConfig) (d : Diagnostic) : Option Diagnostic :=
  (config.severity d.rule).severity?.map fun severity => { d with severity := severity }

variable (config : LintConfig)

@[simp] theorem isEnabled_everyRule (r : Rule) : everyRule.isEnabled r = true := by
  show (RuleSeverity.ofSeverity r.info.severity).isEnabled = true
  cases r.info.severity <;> rfl

/-- A finding that is reported is the one that is reported when every rule is on, relabelled. -/
theorem diagnostic?_eq_bind (file : FileId) (f : Finding) :
    config.diagnostic? file f = (everyRule.diagnostic? file f).bind config.relabel? := by
  have hevery : everyRule.diagnostic? file f = some (f.toDiagnostic file f.rule.info.severity) := by
    show (RuleSeverity.ofSeverity f.rule.info.severity).severity?.map _ = _
    rw [RuleSeverity.severity?_ofSeverity]
    rfl
  rw [hevery]
  rfl

theorem diagnostic?_eq_none {file : FileId} {f : Finding} (h : config.isEnabled f.rule = false) :
    config.diagnostic? file f = none := by
  rw [isEnabled, RuleSeverity.isEnabled_eq_isSome, Option.isSome_eq_false_iff,
    Option.isNone_iff_eq_none] at h
  rw [diagnostic?, h]
  rfl

theorem leWithMessage_relabel? {d d' e e' : Diagnostic} (hd : config.relabel? d = some d')
    (he : config.relabel? e = some e') : d'.leWithMessage e' = d.leWithMessage e := by
  obtain ⟨_, -, rfl⟩ := Option.map_eq_some_iff.1 hd
  obtain ⟨_, -, rfl⟩ := Option.map_eq_some_iff.1 he
  rfl

/-- Of one rule, what a configuration makes of diagnostics depends on the severity of the rule
alone. -/
theorem filter_filterMap_relabel? {config config' : LintConfig} {r : Rule}
    (h : config.severity r = config'.severity r) (ds : List Diagnostic) :
    (ds.filterMap config.relabel?).filter (·.rule == r) =
      (ds.filterMap config'.relabel?).filter (·.rule == r) := by
  rw [List.filter_filterMap, List.filter_filterMap]
  congr 1
  funext d
  by_cases hd : d.rule = r
  · rw [relabel?, relabel?, hd, h]
  · have hnone (config : LintConfig) : (config.relabel? d).filter (·.rule == r) = none := by
      rw [Option.filter_eq_none_iff]
      intro e he
      obtain ⟨_, -, rfl⟩ := Option.map_eq_some_iff.1 he
      simpa using hd
    rw [hnone, hnone]

end LintConfig

/-! ## Nodes and files -/

theorem flatMap_filter_of_eq_nil {α β : Type} {p : α → Bool} {g : α → List β}
    (h : ∀ a, p a = false → g a = []) (as : List α) :
    (as.filter p).flatMap g = as.flatMap g := by
  induction as with
  | nil => rfl
  | cons a as ih =>
    cases hp : p a with
    | false => rw [List.filter_cons_of_neg (by simp [hp]), List.flatMap_cons, h a hp, ih,
        List.nil_append]
    | true => rw [List.filter_cons_of_pos hp, List.flatMap_cons, List.flatMap_cons, ih]

section

variable (config : LintConfig) (model : Model) {findings : Check → List Finding} {v : Visit}

/-- What is reported at a visit is what all checks of such nodes have found, as configured. -/
theorem visitReport_eq (h : ∀ check, AllAbout check.rules (findings check)) :
    visitReport config model v findings =
      (Check.all.filter fun check => check.kinds.contains v.node.kind).flatMap fun check =>
        (findings check).filterMap (config.diagnostic? model.tree.file) := by
  unfold visitReport LintConfig.checksFor
  simp only [Bool.and_comm (List.contains _ _)]
  rw [← List.filter_filter]
  refine flatMap_filter_of_eq_nil (fun check hcheck => ?_) _
  rw [List.filterMap_eq_nil_iff]
  intro f hf
  rw [LintConfig.enables, List.any_eq_false] at hcheck
  exact config.diagnostic?_eq_none (Bool.eq_false_iff.2 (hcheck _ (h check f hf)))

theorem visitReport_eq_filterMap (h : ∀ check, AllAbout check.rules (findings check)) :
    visitReport config model v findings =
      (visitReport .everyRule model v findings).filterMap config.relabel? := by
  rw [visitReport_eq config model h, visitReport_eq .everyRule model h, List.filterMap_flatMap]
  congr 1
  funext check
  rw [List.filterMap_filterMap]
  congr 1
  funext f
  exact config.diagnostic?_eq_bind _ f

/-- **What a configuration changes.**  The answer about a file is the answer with every rule on,
without the diagnostics of rules that are off and with the configured severities of the others.  So
the diagnostics of a rule depend on the severity of this rule alone, and a check that is left out at
a node has nothing to report there. -/
theorem analyzeTree_eq_filterMap :
    (∀ r, LintConfig.everyRule.isEnabled r = true) ∧
    ∃ ds, (analyzeTree .everyRule model).result .never = .ok ds ∧
      (analyzeTree config model).result .never = .ok (ds.filterMap config.relabel?) ∧
      (∀ (config' : LintConfig) (r : Rule), config'.severity r = config.severity r →
        ∃ ds', (analyzeTree config' model).result .never = .ok ds' ∧
          ds'.filter (·.rule == r) = (ds.filterMap config.relabel?).filter (·.rule == r)) ∧
      ∀ v : Visit, ∃ findings : Check → List Finding,
        (∀ check : Check, (check.run ⟨v, model⟩).result .never = .ok (findings check)) ∧
          (analyzeNode config ⟨v, model⟩).result .never =
            .ok ((Check.all.filter fun check => check.kinds.contains v.node.kind).flatMap
              fun check => (findings check).filterMap (config.diagnostic? model.tree.file)) := by
  choose findings hfindings using fun (v : Visit) (check : Check) =>
    check.exists_settles ⟨v, model⟩
  have habout (v : Visit) (check : Check) := Check.rule_mem_rules (hfindings v check).gives
  have htree (config : LintConfig) :=
    analyzeTree_settles fun v => analyzeNode_settles config (hfindings v)
  let ds := (model.tree.visits.flatMap fun v =>
    visitReport .everyRule model v (findings v)).mergeSort Diagnostic.leWithMessage
  have hconfigured (config : LintConfig) :
      (analyzeTree config model).result .never = .ok (ds.filterMap config.relabel?) := by
    rw [(htree config).result_never, filterMap_mergeSort Diagnostic.leWithMessage_trans
      Diagnostic.leWithMessage_total Diagnostic.leWithMessage_trans Diagnostic.leWithMessage_total
      (fun _ _ _ _ => config.leWithMessage_relabel?), List.filterMap_flatMap]
    simp only [visitReport_eq_filterMap config model (habout _)]
  refine ⟨LintConfig.isEnabled_everyRule, ds, (htree .everyRule).result_never, hconfigured config,
    fun config' r h => ⟨_, hconfigured config', LintConfig.filter_filterMap_relabel? h ds⟩,
    fun v => ⟨findings v, fun check => (hfindings v check).result_never, ?_⟩⟩
  rw [(analyzeNode_settles config (hfindings v)).result_never,
    visitReport_eq config model (habout v)]

end

end PropertyLint
