/-
# What an analysis may report

`Polled.Gives` forgets the checkpoints of a computation and keeps what it may give.  Every
diagnostic of a file is a finding of a check at a node of the file (`exists_of_mem_analyzeTree`).
-/
import PropertyLint.Lint.Analysis

namespace PropertyLint

/-! ## What a computation with checkpoints may give -/

namespace Polled

variable {α β : Type}

/-- The computation gives the result for some answers of its token. -/
def Gives (p : Polled α) (a : α) : Prop := ∃ polls n n', p.run polls n = .ok (a, n')

theorem Gives.of_result {p : Polled α} {polls : Polls} {a : α} (h : p.result polls = .ok a) :
    p.Gives a := by
  unfold result StateT.run' at h
  cases hrun : p.run polls 0 with
  | error e => simp [hrun, Functor.map, Except.map] at h
  | ok r =>
    obtain ⟨b, n⟩ := r
    obtain rfl : b = a := by simpa [hrun, Functor.map, Except.map] using h
    exact ⟨polls, 0, n, hrun⟩

theorem Gives.bind {p : Polled α} {f : α → Polled β} {b : β} (h : (p >>= f).Gives b) :
    ∃ a, p.Gives a ∧ (f a).Gives b := by
  obtain ⟨polls, n, n', h⟩ := h
  rw [ReaderT.run_bind] at h
  change StateT.bind _ _ n = _ at h
  unfold StateT.bind at h
  cases hrun : p.run polls n with
  | error e => simp [hrun, Bind.bind, Except.bind] at h
  | ok r =>
    obtain ⟨a, m⟩ := r
    rw [hrun] at h
    exact ⟨a, ⟨polls, n, m, hrun⟩, polls, m, n', h⟩

theorem Gives.pure {a b : α} (h : (Pure.pure a : Polled α).Gives b) : a = b := by
  obtain ⟨polls, n, n', h⟩ := h
  exact (Prod.mk.inj (Except.ok.inj h)).1

theorem Gives.mapM {f : α → Polled β} {as : List α} {bs : List β} (h : (as.mapM f).Gives bs) :
    ∀ b ∈ bs, ∃ a ∈ as, (f a).Gives b := by
  induction as generalizing bs with
  | nil =>
    rw [List.mapM_nil] at h
    obtain rfl := h.pure
    exact List.forall_mem_nil _
  | cons a as ih =>
    rw [List.mapM_cons] at h
    obtain ⟨b, hb, h⟩ := h.bind
    obtain ⟨bs, hbs, h⟩ := h.bind
    obtain rfl := h.pure
    intro x hx
    rcases List.mem_cons.1 hx with rfl | hx
    · exact ⟨a, .head _, hb⟩
    · obtain ⟨a', ha', hx⟩ := ih hbs x hx
      exact ⟨a', .tail _ ha', hx⟩

end Polled

/-- Every diagnostic at a node is a finding of a check that runs there. -/
theorem exists_of_mem_analyzeNode {config : LintConfig} {ctx : Context} {ds : List Diagnostic}
    {d : Diagnostic} (h : (analyzeNode config ctx).Gives ds) (hd : d ∈ ds) :
    ∃ (check : Check) (findings : List Finding) (f : Finding),
      check ∈ config.checksFor ctx.node.kind ∧ (check.run ctx).Gives findings ∧ f ∈ findings ∧
        config.diagnostic? ctx.model.tree.file f = some d := by
  unfold analyzeNode at h
  -- the reports of the checks, in order
  obtain ⟨reports, hreports, h⟩ := h.bind
  obtain rfl := h.pure
  obtain ⟨report, hreport, hd⟩ := List.mem_flatten.1 hd
  obtain ⟨check, hcheck, h⟩ := hreports.mapM report hreport
  obtain ⟨-, -, h⟩ := h.bind
  obtain ⟨findings, hfindings, h⟩ := h.bind
  obtain rfl := h.pure
  obtain ⟨f, hf, hd⟩ := List.mem_filterMap.1 hd
  exact ⟨check, findings, f, hcheck, hfindings, hf, hd⟩

/-- Every diagnostic of a file is a finding of a check at a visited node. -/
theorem exists_visit_of_mem_analyzeTree {config : LintConfig} {model : Model} {polls : Polls}
    {ds : List Diagnostic} {d : Diagnostic}
    (h : (analyzeTree config model).result polls = .ok ds) (hd : d ∈ ds) :
    ∃ visit ∈ model.tree.visits, ∃ check ∈ config.checksFor visit.node.kind,
      ∃ (findings : List Finding) (f : Finding), (check.run ⟨visit, model⟩).Gives findings ∧
        f ∈ findings ∧ config.diagnostic? model.tree.file f = some d := by
  have h := Polled.Gives.of_result h
  unfold analyzeTree at h
  -- the reports of the nodes, in order
  obtain ⟨reports, hreports, h⟩ := h.bind
  obtain rfl := h.pure
  rw [List.mem_mergeSort] at hd
  obtain ⟨report, hreport, hd⟩ := List.mem_flatten.1 hd
  obtain ⟨visit, hvisit, h⟩ := hreports.mapM report hreport
  obtain ⟨check, findings, f, hcheck, hfindings, hf, hd⟩ := exists_of_mem_analyzeNode h hd
  exact ⟨visit, hvisit, check, hcheck, findings, f, hfindings, hf, hd⟩

/-- Every diagnostic of a file is a finding of a check. -/
theorem exists_of_mem_analyzeTree {config : LintConfig} {model : Model} {polls : Polls}
    {ds : List Diagnostic} {d : Diagnostic}
    (h : (analyzeTree config model).result polls = .ok ds) (hd : d ∈ ds) :
    ∃ (visit : Visit) (check : Check) (findings : List Finding) (f : Finding),
      (check.run ⟨visit, model⟩).Gives findings ∧ f ∈ findings ∧
        config.diagnostic? model.tree.file f = some d := by
  obtain ⟨visit, -, check, -, findings, f, h⟩ := exists_visit_of_mem_analyzeTree h hd
  exact ⟨visit, check, findings, f, h⟩

end PropertyLint
