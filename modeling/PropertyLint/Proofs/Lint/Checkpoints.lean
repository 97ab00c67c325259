/-
# Cancelled analyses

`Polled.Takes` says how many checkpoints a computation passes if it is never stopped: it gives its
result exactly if the token lets it pass all of them.  Every check takes some number of checkpoints
at a node (`Check.exists_takes`), and so do the analyses of a node and of a file.  The nodes of a
file may also be analysed side by side, each with its own answers of the token
(`analyzeSideBySide`).  Either way the analysis of a file has all of its diagnostics or none
(`analyzeTree_all_or_nothing`).
-/
import Mathlib.Algebra.GroupWithZero.Nat
import Mathlib.Tactic.Choose
import PropertyLint.Proofs.Lint.Analysis

namespace PropertyLint

/-! ## Counting checkpoints -/

namespace Polled

variable {α β : Type} {a : α} {b : β} {m n : Nat}

/-- The computation passes the given number of checkpoints on its way to the result, and it is
cancelled if the token says stop at one of them. -/
structure Takes (p : Polled α) (count : Nat) (a : α) : Prop where
  pass : ∀ (polls : Polls) (n : Nat), (∀ k < count, polls (n + k) = false) →
    p.run polls n = .ok (a, n + count)
  stop : ∀ (polls : Polls) (n : Nat), (∃ k < count, polls (n + k) = true) →
    p.run polls n = .error .cancelled

/-- The token says stop at one of the checkpoints, or at none of them. -/
theorem exists_or_forall (polls : Polls) (count : Nat) :
    (∃ k < count, polls k = true) ∨ ∀ k < count, polls k = false := by
  by_cases h : ∃ k < count, polls k = true
  · exact .inl h
  · exact .inr fun k hk => Bool.eq_false_iff.2 fun hpoll => h ⟨k, hk, hpoll⟩

theorem run_poll (polls : Polls) (n : Nat) : poll.run polls n =
    if polls n then .error .cancelled else .ok ((), n + 1) := by
  show (if polls n then throw .cancelled else pure () : Polled Unit).run polls (n + 1) = _
  split <;> rfl

theorem run_bind (p : Polled α) (f : α → Polled β) (polls : Polls) (n : Nat) :
    (p >>= f).run polls n = match p.run polls n with
      | .ok (a, n') => (f a).run polls n'
      | .error e => .error e := by
  rw [ReaderT.run_bind]
  change StateT.bind _ _ n = _
  unfold StateT.bind
  cases p.run polls n <;> rfl

/-- What is made of a result needs no answer of the token. -/
theorem result_map (p : Polled α) (f : α → β) (polls : Polls) :
    (p >>= fun a => pure (f a)).result polls = (p.result polls).map f := by
  unfold result StateT.run'
  rw [run_bind]
  cases p.run polls 0 <;> rfl

namespace Takes

theorem pure (a : α) : (Pure.pure a : Polled α).Takes 0 a :=
  ⟨fun _ _ _ => rfl, fun _ _ ⟨_, hk, _⟩ => absurd hk (Nat.not_lt_zero _)⟩

theorem poll : Polled.poll.Takes 1 () := by
  refine ⟨fun polls n h => ?_, fun polls n h => ?_⟩
  · have h : polls n = false := h 0 Nat.one_pos
    rw [run_poll, h]
    rfl
  · obtain ⟨k, hk, h⟩ := h
    obtain rfl : k = 0 := Nat.lt_one_iff.1 hk
    have h : polls n = true := h
    rw [run_poll, h]
    rfl

theorem bind {p : Polled α} {f : α → Polled β} (hp : p.Takes m a) (hf : (f a).Takes n b) :
    (p >>= f).Takes (m + n) b := by
  refine ⟨fun polls k h => ?_, fun polls k h => ?_⟩
  · have hfirst := hp.pass polls k fun i hi => h i (by omega)
    have hsecond := hf.pass polls (k + m) fun i hi => by
      rw [Nat.add_assoc]
      exact h (m + i) (by omega)
    rw [run_bind, hfirst, ← Nat.add_assoc]
    exact hsecond
  · obtain ⟨i, hi, hstop⟩ := h
    -- the first computation may be stopped before the second one begins
    rcases exists_or_forall (fun i => polls (k + i)) m with hfirst | hfirst
    · rw [run_bind, hp.stop polls k hfirst]
    · have hmi : m ≤ i := Nat.le_of_not_lt fun hlt =>
        Bool.false_ne_true ((hfirst i hlt).symm.trans hstop)
      rw [run_bind, hp.pass polls k hfirst]
      refine hf.stop polls (k + m) ⟨i - m, by omega, ?_⟩
      rwa [Nat.add_assoc, Nat.add_sub_cancel' hmi]

/-- What is made of a result needs no checkpoint. -/
theorem map {p : Polled α} (f : α → β) (h : p.Takes n a) :
    (p >>= fun a => Pure.pure (f a)).Takes n (f a) :=
  h.bind (f := fun a => Pure.pure (f a)) (.pure (f a))

theorem mapM {f : α → Polled β} {count : α → Nat} {g : α → β} {as : List α}
    (h : ∀ a ∈ as, (f a).Takes (count a) (g a)) :
    (as.mapM f).Takes (as.map count).sum (as.map g) := by
  induction as with
  | nil =>
    rw [List.mapM_nil]
    exact .pure []
  | cons a as ih =>
    rw [List.mapM_cons]
    have ih := ih fun a' ha' => h a' (.tail _ ha')
    exact (h a (.head _)).bind (ih.map (g a :: ·))

variable {p : Polled α}

/-- A computation is cancelled, or it has its one result. -/
theorem result_eq (h : p.Takes n a) (polls : Polls) :
    (∃ k < n, polls k = true) ∧ p.result polls = .error .cancelled ∨
      (∀ k < n, polls k = false) ∧ p.result polls = .ok a := by
  unfold result StateT.run'
  rcases exists_or_forall polls n with hstop | hpass
  · refine .inl ⟨hstop, ?_⟩
    rw [h.stop polls 0 (by simpa using hstop)]
    rfl
  · refine .inr ⟨hpass, ?_⟩
    rw [h.pass polls 0 (by simpa using hpass)]
    rfl

theorem result_never (h : p.Takes n a) : p.result .never = .ok a := by
  obtain ⟨⟨k, -, hk⟩, -⟩ | ⟨-, h⟩ := h.result_eq .never
  · exact absurd hk Bool.false_ne_true
  · exact h

end Takes

end Polled

/-! ## Checks -/

namespace Check

open Polled (Takes)

namespace BackingMember

/-- The checkpoints of the check of backing members: one, at a static member. -/
def checkpoints (ctx : Context) : Nat :=
  match ctx.node.member?, ctx.containingSymbol?.bind ctx.comp.backingMember? with
  | some _, some backing => backing.isStatic.toNat
  | _, _ => 0

theorem exists_takes (ctx : Context) : ∃ fs, (run ctx).Takes (checkpoints ctx) fs := by
  unfold run checkpoints
  cases ctx.node.member? with
  | none => exact ⟨_, .pure _⟩
  | some member =>
    cases ctx.containingSymbol?.bind ctx.comp.backingMember? with
    | none => exact ⟨_, .pure _⟩
    | some backing =>
      dsimp only
      cases backing.isStatic with
      | false => exact ⟨_, .pure _⟩
      | true => exact ⟨_, Takes.poll.map fun _ => _⟩

end BackingMember

namespace Wrapper

/-- The property has the accessor, and what the accessor calls reads or sets a dependency
property. -/
def isConfirmed (ctx : Context) (accessor : Option Accessor) (call : Option Expr) : Bool :=
  accessor.isSome && (call.bind ctx.model.confirmCall?).isSome

/-- The checkpoints of the check of wrappers: one for each accessor with a confirmed call. -/
def checkpoints (ctx : Context) : Nat :=
  match ctx.node with
  | .member (.property property) =>
    let onObject := ctx.containingTypeSymbol?.any fun t =>
      ctx.comp.isAssignableToKnown t .dependencyObject
    match property.wrapperCalls?, onObject with
    | some calls, true =>
      (isConfirmed ctx property.getter? calls.getCall).toNat +
        (isConfirmed ctx property.setter? calls.setCall).toNat
    | _, _ => 0
  | _ => 0

theorem exists_takes_accessorEffects (ctx : Context) (accessor : Option Accessor)
    (call : Option Expr) :
    ∃ fs, (accessorEffects accessor (call.bind ctx.model.confirmCall?)).Takes
      (isConfirmed ctx accessor call).toNat fs := by
  unfold isConfirmed accessorEffects
  cases accessor with
  | none => exact ⟨_, .pure _⟩
  | some accessor =>
    cases call.bind ctx.model.confirmCall? with
    | none => exact ⟨_, .pure _⟩
    | some access => exact ⟨_, Takes.poll.map fun _ => _⟩

theorem exists_takes_wrapper (ctx : Context) (property : PropertyDecl) (calls : WrapperCalls) :
    ∃ fs, (wrapper ctx property calls).Takes
      ((isConfirmed ctx property.getter? calls.getCall).toNat +
        (isConfirmed ctx property.setter? calls.setCall).toNat) fs := by
  obtain ⟨get, hget⟩ := exists_takes_accessorEffects ctx property.getter? calls.getCall
  obtain ⟨set, hset⟩ := exists_takes_accessorEffects ctx property.setter? calls.setCall
  unfold wrapper
  exact ⟨_, hget.bind (hset.map fun _ => _)⟩

theorem exists_takes (ctx : Context) : ∃ fs, (run ctx).Takes (checkpoints ctx) fs := by
  unfold run checkpoints
  rcases ctx.node with m | _ | _
  · cases m with
    | property property =>
      dsimp only
      cases property.wrapperCalls? with
      | none => exact ⟨_, .pure _⟩
      | some calls =>
        cases ctx.containingTypeSymbol?.any _ with
        | false => exact ⟨_, .pure _⟩
        | true => exact exists_takes_wrapper ctx property calls
    | _ => exact ⟨_, .pure _⟩
  · exact ⟨_, .pure _⟩
  · exact ⟨_, .pure _⟩

end Wrapper

namespace AttachedAccessor

/-- The checkpoints of the check of attached properties: one, at a method that is an accessor. -/
def checkpoints (ctx : Context) : Nat :=
  match ctx.node with
  | .member (.method method) => (accessed? ctx method).isSome.toNat
  | _ => 0

theorem exists_takes (ctx : Context) : ∃ fs, (run ctx).Takes (checkpoints ctx) fs := by
  unfold run checkpoints
  rcases ctx.node with m | _ | _
  · cases m with
    | method method =>
      dsimp only
      cases accessed? ctx method with
      | none => exact ⟨_, .pure _⟩
      | some found =>
        unfold accessor
        exact ⟨_, Takes.poll.map fun _ => _⟩
    | _ => exact ⟨_, .pure _⟩
  · exact ⟨_, .pure _⟩
  · exact ⟨_, .pure _⟩

end AttachedAccessor

/-- The number of the checkpoints inside a check at a node. -/
def checkpoints (ctx : Context) : Check → Nat
  | backingMember => BackingMember.checkpoints ctx
  | wrapper => Wrapper.checkpoints ctx
  | attachedAccessor => AttachedAccessor.checkpoints ctx
  | attributeArguments | converter | resourceKey | routedCommand => 0

/-- A check passes its checkpoints at a node, whatever it finds. -/
theorem exists_takes (check : Check) (ctx : Context) :
    ∃ fs, (check.run ctx).Takes (check.checkpoints ctx) fs := by
  cases check with
  | backingMember => exact BackingMember.exists_takes ctx
  | wrapper => exact Wrapper.exists_takes ctx
  | attachedAccessor => exact AttachedAccessor.exists_takes ctx
  | attributeArguments =>
    show ∃ fs, (AttributeArguments.run ctx).Takes 0 fs
    unfold AttributeArguments.run
    repeat' split
    all_goals exact ⟨_, .pure _⟩
  | converter =>
    show ∃ fs, (Converter.run ctx).Takes 0 fs
    unfold Converter.run
    split <;> exact ⟨_, .pure _⟩
  | resourceKey => exact ⟨_, .pure _⟩
  | routedCommand => exact ⟨_, .pure _⟩

end Check

/-! ## Nodes and files -/

/-- The number of the checkpoints at a node: one in front of every check that looks at nodes of its
kind and can report a rule that is on, and those inside of the check. -/
def checkpointsAt (config : LintConfig) (ctx : Context) : Nat :=
  (Check.all.map fun check =>
    if ctx.node.kind ∈ check.kinds ∧ ∃ rule ∈ check.rules, config.isEnabled rule = true then
      1 + check.checkpoints ctx
    else 0).sum

/-- The number of the checkpoints in a file. -/
def checkpointsIn (config : LintConfig) (model : Model) : Nat :=
  (model.tree.visits.map fun v => checkpointsAt config ⟨v, model⟩).sum

section

variable (config : LintConfig) (model : Model)

theorem checkpointsAt_eq (ctx : Context) :
    checkpointsAt config ctx =
      ((config.checksFor ctx.node.kind).map fun check => 1 + check.checkpoints ctx).sum := by
  have hruns (check : Check) :
      (check.kinds.contains ctx.node.kind && config.enables check) = true ↔
        ctx.node.kind ∈ check.kinds ∧ ∃ rule ∈ check.rules, config.isEnabled rule = true := by
    simp [LintConfig.enables]
  rw [checkpointsAt, LintConfig.checksFor]
  induction Check.all with
  | nil => rfl
  | cons check checks ih =>
    rw [List.map_cons, List.sum_cons, ih, List.filter_cons]
    simp only [hruns]
    split
    · rw [List.map_cons, List.sum_cons]
    · rw [Nat.zero_add]

theorem exists_takes_analyzeNode (v : Visit) :
    ∃ ds, (analyzeNode config ⟨v, model⟩).Takes (checkpointsAt config ⟨v, model⟩) ds := by
  choose findings hchecks using fun check : Check => check.exists_takes ⟨v, model⟩
  have hreport (check : Check) : (do
      Polled.poll
      let found ← check.run ⟨v, model⟩
      return found.filterMap (config.diagnostic? model.tree.file)).Takes
        (1 + check.checkpoints ⟨v, model⟩)
        ((findings check).filterMap (config.diagnostic? model.tree.file)) :=
    Polled.Takes.poll.bind ((hchecks check).map _)
  rw [checkpointsAt_eq]
  exact ⟨_, (Polled.Takes.mapM fun check _ => hreport check).map List.flatten⟩

/-- The diagnostics of the nodes, as the answer about their file lists them. -/
def joinReports (reports : List (List Diagnostic)) : List Diagnostic :=
  reports.flatten.mergeSort Diagnostic.leWithMessage

theorem analyzeTree_takes {reports : Visit → List Diagnostic}
    (h : ∀ v, (analyzeNode config ⟨v, model⟩).Takes (checkpointsAt config ⟨v, model⟩) (reports v)) :
    (analyzeTree config model).Takes (checkpointsIn config model)
      (joinReports (model.tree.visits.map reports)) :=
  (Polled.Takes.mapM fun v _ => h v).map joinReports

/-- The analysis of a file with its nodes side by side.  The token answers each node on its own, by
the number of the node and of the checkpoint, so the answers of all nodes may come in any order.
A node that is not analysed any more, because another one has been stopped, may have any answers. -/
def analyzeSideBySide (answers : Nat → Polls) : Except Cancelled (List Diagnostic) := do
  let reports ← model.tree.visits.zipIdx.mapM fun (v, i) =>
    (analyzeNode config ⟨v, model⟩).result (answers i)
  return joinReports reports

end

/-- Of computations that may be stopped, one that is stopped decides. -/
theorem mapM_all_or_nothing {α β : Type} {f : α → Except Cancelled β} {g : α → β}
    (p : α → Prop) {as : List α}
    (h : ∀ a ∈ as, p a ∧ f a = .error .cancelled ∨ ¬ p a ∧ f a = .ok (g a)) :
    (∃ a ∈ as, p a) ∧ as.mapM f = .error .cancelled ∨
      (∀ a ∈ as, ¬ p a) ∧ as.mapM f = .ok (as.map g) := by
  induction as with
  | nil => exact .inr ⟨List.forall_mem_nil _, rfl⟩
  | cons a as ih =>
    rw [List.mapM_cons]
    obtain ⟨hstop, ha⟩ | ⟨hpass, ha⟩ := h a (.head _)
    · rw [ha]
      exact .inl ⟨⟨a, .head _, hstop⟩, rfl⟩
    · rw [ha]
      obtain ⟨⟨a', ha', hstop⟩, has⟩ | ⟨hall, has⟩ := ih fun a' ha' => h a' (.tail _ ha')
      · rw [has]
        exact .inl ⟨⟨a', .tail _ ha', hstop⟩, rfl⟩
      · rw [has]
        exact .inr ⟨List.forall_mem_cons.2 ⟨hpass, hall⟩, rfl⟩

theorem analyzeSideBySide_cases {config : LintConfig} {model : Model}
    {reports : Visit → List Diagnostic}
    (h : ∀ v, (analyzeNode config ⟨v, model⟩).Takes (checkpointsAt config ⟨v, model⟩) (reports v))
    (answers : Nat → Polls) :
    (∃ p ∈ model.tree.visits.zipIdx, ∃ k < checkpointsAt config ⟨p.1, model⟩,
        answers p.2 k = true) ∧
        analyzeSideBySide config model answers = .error .cancelled ∨
      (∀ p ∈ model.tree.visits.zipIdx, ∀ k < checkpointsAt config ⟨p.1, model⟩,
        answers p.2 k = false) ∧
        analyzeSideBySide config model answers =
          .ok (joinReports (model.tree.visits.map reports)) := by
  let count (v : Visit) : Nat := checkpointsAt config ⟨v, model⟩
  have hnode (p : Visit × Nat) :
      (∃ k < count p.1, answers p.2 k = true) ∧
          (analyzeNode config ⟨p.1, model⟩).result (answers p.2) = .error .cancelled ∨
        ¬ (∃ k < count p.1, answers p.2 k = true) ∧
          (analyzeNode config ⟨p.1, model⟩).result (answers p.2) = .ok (reports p.1) := by
    obtain hstop | ⟨hpass, hresult⟩ := (h p.1).result_eq (answers p.2)
    · exact .inl hstop
    · exact .inr ⟨fun ⟨k, hk, hstop⟩ => Bool.false_ne_true ((hpass k hk).symm.trans hstop), hresult⟩
  obtain ⟨hstop, hrun⟩ | ⟨hpass, hrun⟩ :=
    mapM_all_or_nothing (fun p : Visit × Nat => ∃ k < count p.1, answers p.2 k = true)
      fun p (_ : p ∈ model.tree.visits.zipIdx) => hnode p
  · refine .inl ⟨hstop, ?_⟩
    rw [analyzeSideBySide, hrun]
    rfl
  · refine .inr ⟨fun p hp k hk => Bool.eq_false_iff.2 fun hk' => hpass p hp ⟨k, hk, hk'⟩, ?_⟩
    have hreports : model.tree.visits.zipIdx.map (fun p => reports p.1) =
        model.tree.visits.map reports := by
      rw [← Function.comp_def reports Prod.fst, ← List.map_map, List.zipIdx_map_fst]
    rw [analyzeSideBySide, hrun, hreports]
    rfl

/-- **Cancellation.**  Without a cancellation the analysis of a file has an answer.  On its way to
it, it asks its token once in front of every check that can report a rule that is on, and once at
each checkpoint inside of the check (`checkpointsIn`): if the token says stop at one of them there
is no answer, and otherwise there is this one, whatever the token says besides, and all of these
checkpoints have been passed.  The same is true if the nodes are analysed side by side, in any
order, each with its own checkpoints (`checkpointsAt`). -/
theorem analyzeTree_all_or_nothing (config : LintConfig) (model : Model) :
    ∃ ds : List Diagnostic,
      (analyzeTree config model).result .never = .ok ds ∧
      (∀ polls : Polls,
        (∃ k < checkpointsIn config model, polls k = true) ∧
            (analyzeTree config model).result polls = .error .cancelled ∨
          (∀ k < checkpointsIn config model, polls k = false) ∧
            (analyzeTree config model).result polls = .ok ds ∧
            (analyzeTree config model).run polls 0 = .ok (ds, checkpointsIn config model)) ∧
      ∀ answers : Nat → Polls,
        (∃ p ∈ model.tree.visits.zipIdx, ∃ k < checkpointsAt config ⟨p.1, model⟩,
            answers p.2 k = true) ∧
            analyzeSideBySide config model answers = .error .cancelled ∨
          (∀ p ∈ model.tree.visits.zipIdx, ∀ k < checkpointsAt config ⟨p.1, model⟩,
            answers p.2 k = false) ∧
            analyzeSideBySide config model answers = .ok ds := by
  choose reports hnode using exists_takes_analyzeNode config model
  have htree := analyzeTree_takes config model hnode
  refine ⟨_, htree.result_never, fun polls => ?_, analyzeSideBySide_cases hnode⟩
  obtain hstop | ⟨hpass, hresult⟩ := htree.result_eq polls
  · exact .inl hstop
  · refine .inr ⟨hpass, hresult, ?_⟩
    simpa using htree.pass polls 0 (by simpa using hpass)

end PropertyLint
