/-
# The order of the analysis

The nodes of a file can be analysed in any order.  The token of an analysis decides only whether the
analysis ends (`Polled.Settles`), no two diagnostics are about one rule at one range
(`visitReports_differ`), and diagnostics of which this is true are sorted in one way only
(`Diagnostic.mergeSort_eq_of_perm`).
-/
import Mathlib.Data.Prod.Lex
import Mathlib.Data.String.Basic
import PropertyLint.Proofs.Binding.Files
import PropertyLint.Proofs.Fix.Stale
import PropertyLint.Proofs.Lint.Checkpoints
import PropertyLint.Proofs.Lint.Visits

namespace PropertyLint

/-! ## Results that do not depend on the token -/

namespace Polled

variable {α β : Type} {a : α} {b : β}

/-- The computation gives the result if it is never stopped, and it gives no other result. -/
structure Settles (p : Polled α) (a : α) : Prop where
  never : ∀ n, ∃ n', p.run .never n = .ok (a, n')
  unique : ∀ a', p.Gives a' → a' = a

namespace Settles

theorem gives {p : Polled α} (h : p.Settles a) : p.Gives a := by
  obtain ⟨n, hn⟩ := h.never 0
  exact ⟨.never, 0, n, hn⟩

theorem result_never {p : Polled α} (h : p.Settles a) : p.result .never = .ok a := by
  obtain ⟨n, hn⟩ := h.never 0
  rw [result, StateT.run', hn]
  rfl

theorem eq_of_result {p : Polled α} {polls : Polls} {a' : α} (h : p.Settles a)
    (hrun : p.result polls = .ok a') : a' = a :=
  h.unique a' (.of_result hrun)

/-- A computation that passes checkpoints on its way to a result has no other result. -/
theorem of_takes {p : Polled α} {count : Nat} (h : p.Takes count a) : p.Settles a := by
  refine ⟨fun n => ⟨n + count, h.pass .never n fun _ _ => rfl⟩, fun a' ⟨polls, n, n', hrun⟩ => ?_⟩
  rcases exists_or_forall (fun k => polls (n + k)) count with hstop | hpass
  · rw [h.stop polls n hstop] at hrun
    exact absurd hrun (by simp)
  · rw [h.pass polls n hpass] at hrun
    exact (Prod.mk.inj (Except.ok.inj hrun)).1.symm

theorem pure (a : α) : (Pure.pure a : Polled α).Settles a :=
  ⟨fun n => ⟨n, rfl⟩, fun _ h => h.pure.symm⟩

theorem poll : Polled.poll.Settles () :=
  ⟨fun n => ⟨n + 1, rfl⟩, fun _ _ => rfl⟩

theorem bind {p : Polled α} {f : α → Polled β} (hp : p.Settles a) (hf : (f a).Settles b) :
    (p >>= f).Settles b := by
  refine ⟨fun n => ?_, fun b' h => ?_⟩
  · obtain ⟨n', hn'⟩ := hp.never n
    obtain ⟨n'', hn''⟩ := hf.never n'
    refine ⟨n'', ?_⟩
    rw [ReaderT.run_bind]
    change StateT.bind _ _ n = _
    unfold StateT.bind
    rw [hn']
    exact hn''
  · obtain ⟨a', ha', h⟩ := h.bind
    obtain rfl := hp.unique a' ha'
    exact hf.unique b' h

theorem mapM {f : α → Polled β} {g : α → β} {as : List α} (h : ∀ a ∈ as, (f a).Settles (g a)) :
    (as.mapM f).Settles (as.map g) := by
  induction as with
  | nil =>
    rw [List.mapM_nil]
    exact .pure []
  | cons a as ih =>
    rw [List.mapM_cons]
    have ih := ih fun a' ha' => h a' (.tail _ ha')
    exact (h a (.head _)).bind (ih.bind (.pure _))

end Settles

end Polled

/-! ## Checks -/

namespace Check

theorem exists_settles (check : Check) (ctx : Context) : ∃ fs, (check.run ctx).Settles fs := by
  obtain ⟨fs, h⟩ := check.exists_takes ctx
  exact ⟨fs, .of_takes h⟩

/-- No two checks report the same rule. -/
theorem eq_of_mem_rules {check check' : Check} {rule : Rule} (h : rule ∈ check.rules)
    (h' : rule ∈ check'.rules) : check = check' := by
  revert rule
  cases check <;> cases check' <;> simp [rules]

end Check

/-! ## Diagnostics -/

namespace Rule

theorem number_inj {r s : Rule} (h : r.number = s.number) : r = s := by
  have hfind (r : Rule) : all.find? (fun s => s.number == r.number) = some r := by
    cases r <;> rfl
  have hr := hfind r
  rw [h, hfind s] at hr
  exact (Option.some.inj hr).symm

theorem id_inj {r s : Rule} (h : r.id = s.id) : r = s := by
  have hfind (r : Rule) : ofId? r.id = some r := by
    cases r <;> decide +kernel
  have hr := hfind r
  rw [h, hfind s] at hr
  exact (Option.some.inj hr).symm

end Rule

namespace Diagnostic

/-- The diagnostics are about different rules or at different ranges. -/
def Differs (d e : Diagnostic) : Prop := d.rule = e.rule → d.range ≠ e.range

instance : Std.Symm Differs where
  symm _ _ h hrule hrange := h hrule.symm hrange.symm

/-- What diagnostics are sorted by: the start and the end of the range, the number of the rule and
the message. -/
def sortKey (d : Diagnostic) : ℕ ×ₗ ℕ ×ₗ ℕ ×ₗ String :=
  toLex (d.range.start, toLex (d.range.stop, toLex (d.rule.number, d.message)))

theorem leWithMessage_iff {d e : Diagnostic} :
    d.leWithMessage e = true ↔ d.sortKey ≤ e.sortKey := by
  have hrange : d.range = e.range ↔
      d.range.start = e.range.start ∧ d.range.stop = e.range.stop := by
    cases d.range
    cases e.range
    simp
  simp only [leWithMessage, sortKey, Prod.Lex.toLex_le_toLex, OffsetRange.lt, Bool.or_eq_true,
    Bool.and_eq_true, decide_eq_true_eq, beq_iff_eq, hrange, and_or_left, or_assoc, and_assoc]

theorem leWithMessage_total (d e : Diagnostic) :
    (d.leWithMessage e || e.leWithMessage d) = true := by
  rw [Bool.or_eq_true, leWithMessage_iff, leWithMessage_iff]
  exact le_total _ _

theorem leWithMessage_trans (d e f : Diagnostic) (hde : d.leWithMessage e = true)
    (hef : e.leWithMessage f = true) : d.leWithMessage f = true := by
  rw [leWithMessage_iff] at *
  exact hde.trans hef

/-- Diagnostics at one place of the order are about one rule at one range. -/
theorem leWithMessage_antisymm {d e : Diagnostic} (hde : d.leWithMessage e = true)
    (hed : e.leWithMessage d = true) : d.rule = e.rule ∧ d.range = e.range := by
  rw [leWithMessage_iff] at hde hed
  have hkey : d.sortKey = e.sortKey := hde.antisymm hed
  obtain ⟨hstart, hkey⟩ := Prod.mk.inj (toLex.injective hkey)
  obtain ⟨hstop, hkey⟩ := Prod.mk.inj (toLex.injective hkey)
  obtain ⟨hnumber, -⟩ := Prod.mk.inj (toLex.injective hkey)
  refine ⟨Rule.number_inj hnumber, ?_⟩
  cases hd : d.range
  cases he : e.range
  simp_all

/-- Diagnostics that differ are sorted in one way only. -/
theorem mergeSort_eq_of_perm {ds es : List Diagnostic} (h : ds.Perm es)
    (hdiffer : ds.Pairwise Differs) :
    ds.mergeSort leWithMessage = es.mergeSort leWithMessage := by
  have hsorted (ds : List Diagnostic) :
      (ds.mergeSort leWithMessage).Pairwise fun d e => d.leWithMessage e = true :=
    List.pairwise_mergeSort leWithMessage_trans leWithMessage_total ds
  have hds := List.mergeSort_perm ds leWithMessage
  have hes := List.mergeSort_perm es leWithMessage
  refine List.Perm.eq_of_pairwise ?_ (hsorted ds) (hsorted es) (hds.trans (h.trans hes.symm))
  intro d e hd he hde hed
  obtain ⟨hrule, hrange⟩ := leWithMessage_antisymm hde hed
  by_contra hne
  have hd := hds.mem_iff.1 hd
  have he := h.mem_iff.2 (hes.mem_iff.1 he)
  exact hdiffer.forall hd he hne hrule hrange

end Diagnostic

/-! ## Nodes and files -/

section

variable {config : LintConfig} {model : Model} {findings : Check → List Finding} {v : Visit}

/-- The diagnostics at a visit where the checks have found something. -/
def visitReport (config : LintConfig) (model : Model) (v : Visit)
    (findings : Check → List Finding) : List Diagnostic :=
  (config.checksFor v.node.kind).flatMap fun check =>
    (findings check).filterMap (config.diagnostic? model.tree.file)

variable (config) in
theorem analyzeNode_settles (h : ∀ check : Check, (check.run ⟨v, model⟩).Settles (findings check)) :
    (analyzeNode config ⟨v, model⟩).Settles (visitReport config model v findings) := by
  unfold analyzeNode visitReport
  rw [List.flatMap_def]
  refine (Polled.Settles.mapM fun check _ => ?_).bind (.pure _)
  exact Polled.Settles.poll.bind ((h check).bind (.pure _))

theorem analyzeTree_settles {reports : Visit → List Diagnostic}
    (h : ∀ v, (analyzeNode config ⟨v, model⟩).Settles (reports v)) :
    (analyzeTree config model).Settles
      ((model.tree.visits.flatMap reports).mergeSort Diagnostic.leWithMessage) := by
  unfold analyzeTree
  rw [List.flatMap_def]
  exact (Polled.Settles.mapM fun v _ => h v).bind (.pure _)

theorem mem_kinds_of_mem_checksFor {kind : NodeKind} {check : Check}
    (h : check ∈ config.checksFor kind) : kind ∈ check.kinds := by
  have h := (List.mem_filter.1 h).2
  rw [Bool.and_eq_true, List.contains_iff_mem] at h
  exact h.1

theorem eq_of_diagnostic? {file : FileId} {f : Finding} {d : Diagnostic}
    (h : config.diagnostic? file f = some d) : d.rule = f.rule ∧ d.range = f.range := by
  obtain ⟨severity, -, rfl⟩ := Option.map_eq_some_iff.1 h
  exact ⟨rfl, rfl⟩

theorem exists_of_mem_visitReport {d : Diagnostic} (h : d ∈ visitReport config model v findings) :
    ∃ check f, v.node.kind ∈ check.kinds ∧ f ∈ findings check ∧ d.rule = f.rule ∧
      d.range = f.range := by
  obtain ⟨check, hcheck, h⟩ := List.mem_flatMap.1 h
  obtain ⟨f, hf, h⟩ := List.mem_filterMap.1 h
  exact ⟨check, f, mem_kinds_of_mem_checksFor hcheck, hf, eq_of_diagnostic? h⟩

/-- The diagnostics at a visit differ. -/
theorem visitReport_differs (h : ∀ check, v.node.kind ∈ check.kinds →
    Reported v.node.places check.rules (findings check)) :
    (visitReport config model v findings).Pairwise Diagnostic.Differs := by
  unfold visitReport
  rw [List.pairwise_flatMap]
  refine ⟨fun check hcheck => ?_, ?_⟩
  · have hreported := h check (mem_kinds_of_mem_checksFor hcheck)
    rw [List.pairwise_filterMap]
    refine hreported.apart.imp fun {f g} happart d hd e he hrule => ?_
    obtain ⟨hdf, hdf'⟩ := eq_of_diagnostic? hd
    obtain ⟨heg, heg'⟩ := eq_of_diagnostic? he
    rw [hdf', heg']
    exact happart (hdf.symm.trans (hrule.trans heg))
  · -- two checks at one visit report different rules
    have hchecks : Check.all.Pairwise (· ≠ ·) := by decide
    refine (hchecks.filter _).imp_of_mem fun {check check'} hc hc' hne d hd e he hrule => ?_
    obtain ⟨f, hf, hd⟩ := List.mem_filterMap.1 hd
    obtain ⟨g, hg, he⟩ := List.mem_filterMap.1 he
    have hf := (h check (mem_kinds_of_mem_checksFor hc)).rule f hf
    have hg := (h check' (mem_kinds_of_mem_checksFor hc')).rule g hg
    rw [← (eq_of_diagnostic? hd).1, hrule, (eq_of_diagnostic? he).1] at hf
    exact absurd (Check.eq_of_mem_rules hf hg) hne

variable (config) in
/-- The diagnostics of a file differ. -/
theorem visitReports_differ {file : FileId} {text : String}
    {findings : Visit → Check → List Finding}
    (hread : SyntaxTree.parse file text = .ok model.tree)
    (h : ∀ v ∈ model.tree.visits, ∀ check, v.node.kind ∈ check.kinds →
      Reported v.node.places check.rules (findings v check)) :
    (model.tree.visits.flatMap fun v => visitReport config model v (findings v)).Pairwise
      Diagnostic.Differs := by
  rw [List.pairwise_flatMap]
  refine ⟨fun v hv => visitReport_differs (h v hv), ?_⟩
  refine (SyntaxTree.visits_apart hread).imp_of_mem fun {v w} hv hw hapart d hd e he hrule => ?_
  obtain ⟨check, f, hcheck, hf, hdf, hdf'⟩ := exists_of_mem_visitReport hd
  obtain ⟨check', g, hcheck', hg, heg, heg'⟩ := exists_of_mem_visitReport he
  have hfv := h v hv check hcheck
  have hgw := h w hw check' hcheck'
  have hrule : f.rule = g.rule := hdf.symm.trans (hrule.trans heg)
  obtain rfl := Check.eq_of_mem_rules (hfv.rule f hf) (hrule ▸ hgw.rule g hg)
  rw [hdf', heg']
  rcases hapart with hkinds | hplaces
  · exact absurd hcheck' (hkinds check hcheck)
  · intro hrange
    exact Set.disjoint_left.1 hplaces (hfv.place f hf) (hrange ▸ hgw.place g hg)

end

/-! ## The order of the nodes -/

/-- **Order independence.**  An analysis that is not stopped has an answer, and one that is asked to
stop has the same answer or none.  No two diagnostics of the answer are about one rule at one range.
So the nodes of the file can be analysed in any order: what is reported about them, sorted, is the
answer. -/
theorem analyzeTree_eq_of_perm {file : FileId} {text : String} {model : Model}
    (hread : SyntaxTree.parse file text = .ok model.tree) (config : LintConfig) :
    ∃ (ds : List Diagnostic) (reports : Visit → List Diagnostic),
      ((analyzeTree config model).result .never = .ok ds ∧
        ∀ polls ds', (analyzeTree config model).result polls = .ok ds' → ds' = ds) ∧
      (∀ v, (analyzeNode config ⟨v, model⟩).result .never = .ok (reports v) ∧
        ∀ polls ds', (analyzeNode config ⟨v, model⟩).result polls = .ok ds' → ds' = reports v) ∧
      (ds.Pairwise fun d e => ¬ (d.range = e.range ∧ d.rule.id = e.rule.id)) ∧
      ∀ vs : List Visit, vs.Perm model.tree.visits →
        (vs.flatMap reports).mergeSort Diagnostic.leWithMessage = ds := by
  have hchecks (v : Visit) : ∃ findings : Check → List Finding,
      ∀ check : Check, (check.run ⟨v, model⟩).Settles (findings check) :=
    ⟨_, fun check => (check.exists_settles ⟨v, model⟩).choose_spec⟩
  choose findings hfindings using hchecks
  have hnode (v : Visit) := analyzeNode_settles config (hfindings v)
  have htree := analyzeTree_settles hnode
  have hdiffer := visitReports_differ config hread fun v hv check hcheck =>
    Check.run_reported ⟨v, model⟩ hcheck (SyntaxTree.wellNested_of_mem_visits hread hv)
      (hfindings v check).gives
  refine ⟨_, _, ⟨htree.result_never, fun polls ds' => htree.eq_of_result⟩,
    fun v => ⟨(hnode v).result_never, fun polls ds' => (hnode v).eq_of_result⟩, ?_, ?_⟩
  · have hsorted := hdiffer.perm (List.mergeSort_perm _ Diagnostic.leWithMessage).symm
      fun {d e} => Std.Symm.symm d e
    refine hsorted.imp fun {d e} hde h => ?_
    exact hde (Rule.id_inj h.2) h.1
  · intro vs hvs
    exact (Diagnostic.mergeSort_eq_of_perm (hvs.flatMap_right _).symm hdiffer).symm

/-- A field that can be changed and has another name than the registered one. -/
def misnamedField : String :=
  "namespace System.Windows\x7bclass DependencyProperty\x7b" ++
    "static DependencyProperty Register(string name)\x7b\x7d" ++
    "static DependencyProperty BProperty=DependencyProperty.Register(\"C\");\x7d\x7d"

/-- What is reported about the nodes of a text, one node after the other. -/
def reportedRules? (text : String) : Option (List (Rule × OffsetRange)) := do
  let t ← (SyntaxTree.parse 0 text).toOption
  let reports ← (t.visits.mapM fun v =>
    (analyzeNode .empty ⟨v, Model.alone t⟩).result .never).toOption
  return reports.flatten.map fun d => (d.rule, d.range)

/-- The field has two diagnostics at one range, about different rules. -/
theorem analyzeTree_misnamedField : ∃ t ds reports,
    SyntaxTree.parse 0 misnamedField = .ok (Model.alone t).tree ∧
    (((Model.alone t).tree.visits.flatMap reports).map fun d => (d.rule, d.range)) =
      [(.backingMemberReadonly, ⟨125, 134⟩), (.backingFieldName, ⟨125, 134⟩)] ∧
    ((analyzeTree .empty (Model.alone t)).result .never = .ok ds ∧
      ∀ polls ds', (analyzeTree .empty (Model.alone t)).result polls = .ok ds' → ds' = ds) ∧
    (∀ v, (analyzeNode .empty ⟨v, Model.alone t⟩).result .never = .ok (reports v) ∧
      ∀ polls ds', (analyzeNode .empty ⟨v, Model.alone t⟩).result polls = .ok ds' →
        ds' = reports v) ∧
    (ds.Pairwise fun d e => ¬ (d.range = e.range ∧ d.rule.id = e.rule.id)) ∧
    ∀ vs : List Visit, vs.Perm (Model.alone t).tree.visits →
      (vs.flatMap reports).mergeSort Diagnostic.leWithMessage = ds := by
  have hreported : reportedRules? misnamedField =
      some [(.backingMemberReadonly, ⟨125, 134⟩), (.backingFieldName, ⟨125, 134⟩)] := by
    decide +kernel
  obtain ⟨t, ht, hreported⟩ := Option.bind_eq_some_iff.1 hreported
  obtain ⟨listed, hlisted, hreported⟩ := Option.bind_eq_some_iff.1 hreported
  rw [toOption_eq_some_iff] at ht hlisted
  have hread : SyntaxTree.parse 0 misnamedField = .ok (Model.alone t).tree := ht
  obtain ⟨ds, reports, htree, hnode, hdiffer, hperm⟩ := analyzeTree_eq_of_perm hread .empty
  refine ⟨t, ds, reports, hread, ?_, htree, hnode, hdiffer, hperm⟩
  have hreports : (fun v => (analyzeNode .empty ⟨v, Model.alone t⟩).result .never) =
      fun v => Except.ok (reports v) := funext fun v => (hnode v).1
  rw [hreports] at hlisted
  have hmap : t.visits.mapM (fun v => Except.ok (reports v)) =
      (.ok (t.visits.map reports) : Except Cancelled _) := List.mapM_pure
  obtain rfl := Except.ok.inj (hmap.symm.trans hlisted)
  exact Option.some.inj hreported

end PropertyLint
