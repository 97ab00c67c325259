/-
# What binding records about expressions

The symbol of an expression is recorded once, and constants are recorded only for expressions that
are worth them.  `Records` says both of a step: of the expressions among the nodes that a step may
record symbols of, it records each at most once and leaves some for later steps, and all constants
that are known after it are right if those before it are.  There is a rule for each way to put steps
together and for each primitive step.
-/
import Mathlib.Data.List.Perm.Subperm
import PropertyLint.Proofs.Binding.Evaluation

namespace PropertyLint

namespace Project

/-- The node is an expression of a file. -/
def IsExpr (p : Project) (n : NodeRef) : Prop := ∃ e, p.Writes n.file e ∧ e.id = n.node

/-- The expression at the node, if there is one, has the value. -/
def IsWorth (p : Project) (n : NodeRef) (v : Constant) : Prop :=
  ∀ e, p.Writes n.file e → e.id = n.node → p.Evaluates n.file e v

/-- The nodes that are no expressions. -/
def others (p : Project) : Set NodeRef := {n | ¬ p.IsExpr n}

/-- No expression is more often among the first nodes than among the second ones. -/
def AtMost (p : Project) (ns ms : List NodeRef) : Prop :=
  ∀ n, p.IsExpr n → ns.count n ≤ ms.count n

end Project

variable {p : Project} {given : Prop} {ns ns' ms ms' : List NodeRef} {n : NodeRef} {v : Constant}
  {e : Expr} {s s' : BindState} {scope : Scope} {α β : Type}

namespace Project.AtMost

theorem refl (ms : List NodeRef) : p.AtMost ms ms := fun _ _ => Nat.le_refl _

theorem trans (h : p.AtMost ns ms) (h' : p.AtMost ms ms') : p.AtMost ns ms' :=
  fun n hn => Nat.le_trans (h n hn) (h' n hn)

theorem of_sublist (h : ns.Sublist ms) : p.AtMost ns ms := fun n _ => h.count_le n

theorem of_perm (h : ns.Perm ms) : p.AtMost ns ms := fun n _ => Nat.le_of_eq (h.count_eq n)

theorem append (h : p.AtMost ns ms) (h' : p.AtMost ns' ms') : p.AtMost (ns ++ ns') (ms ++ ms') := by
  intro n hn
  rw [List.count_append, List.count_append]
  exact Nat.add_le_add (h n hn) (h' n hn)

/-- Nodes that are no expressions do not count. -/
theorem of_not_isExpr (h : ¬ p.IsExpr n) : p.AtMost (n :: ns) ns := by
  intro m hm
  have hne : n ≠ m := fun heq => h (heq ▸ hm)
  rw [List.count_cons_of_ne hne]

end Project.AtMost

/-! ## States -/

/-- The symbols that are recorded for expressions are those that the project knows for them. -/
def BindState.Follows (s : BindState) (p : Project) : Prop :=
  ∀ r ∈ s.facts.symbols, p.IsExpr r.1 → p.facts.symbol? r.1 = some r.2

/-- The constants that are recorded for expressions are their values, and those of fields are the
values of their initial values. -/
def BindState.Evaluated (s : BindState) (p : Project) : Prop :=
  (∀ r ∈ s.facts.constants, p.IsWorth r.1 r.2) ∧
    ∀ r ∈ s.fieldConstants, ∃ file init, p.HasInitialValue r.1 file init ∧
      p.Evaluates file init r.2

theorem BindState.Follows.of_append {new : List (NodeRef × SymbolId)} (h : s'.Follows p)
    (hnew : s'.facts.symbols = new ++ s.facts.symbols) : s.Follows p :=
  fun r hr => h r (by rw [hnew]; exact List.mem_append_right _ hr)

/-! ## Steps -/

namespace Binder

/-- Among the nodes the step may record symbols of expressions, each as often as it is given, and
those that are left it has not recorded.  What is said about constants holds under a condition on
what has been read before. -/
def Records (p : Project) (given : Prop) (ms : List NodeRef) (step : Binder α)
    (left : α → List NodeRef) : Prop :=
  ∀ s : BindState, ∃ new, (step.run s).2.facts.symbols = new ++ s.facts.symbols ∧
    p.AtMost (left (step.run s).1 ++ new.map Prod.fst) ms ∧
    s.facts.constants <:+ (step.run s).2.facts.constants ∧
    (given → (step.run s).2.Follows p → s.Evaluated p → (step.run s).2.Evaluated p)

/-- The step records no symbols and no constants. -/
def Quiet (step : Binder α) : Prop :=
  ∀ s : BindState, (step.run s).2.facts.symbols = s.facts.symbols ∧
    (step.run s).2.facts.constants = s.facts.constants ∧
    (step.run s).2.fieldConstants = s.fieldConstants

variable {step : Binder α} {f : α → Binder β} {left left' : α → List NodeRef}
  {leftB : β → List NodeRef}

theorem append_append_perm (as bs cs : List NodeRef) : (as ++ bs ++ cs).Perm (as ++ cs ++ bs) := by
  rw [List.append_assoc, List.append_assoc]
  exact List.perm_append_comm.append_left as

namespace Records

/-- A step may be given more nodes. -/
theorem mono (h : Records p given ms step left) (hms : p.AtMost ms ms') :
    Records p given ms' step left := by
  intro s
  obtain ⟨new, hnew, hleft, hconstants, heval⟩ := h s
  exact ⟨new, hnew, hleft.trans hms, hconstants, heval⟩

/-- A step may be said to leave fewer nodes. -/
theorem leave (h : Records p given ms step left) (hleft : ∀ a, p.AtMost (left' a) (left a)) :
    Records p given ms step left' := by
  intro s
  obtain ⟨new, hnew, hmost, hconstants, heval⟩ := h s
  exact ⟨new, hnew, ((hleft _).append (.refl _)).trans hmost, hconstants, heval⟩

theorem pure {a : α} (h : p.AtMost (left a) ms) : Records p given ms (pure a) left :=
  fun _ => ⟨[], rfl, by rwa [List.map_nil, List.append_nil], List.suffix_refl _,
    fun _ _ hs => hs⟩

/-- The second step may record what the first one has left, and more. -/
theorem bind (h : Records p given ms step left)
    (hf : ∀ a, Records p given (left a ++ ms') (f a) leftB) :
    Records p given (ms ++ ms') (step >>= f) leftB := by
  intro s
  obtain ⟨new, hnew, hleft, hconstants, heval⟩ := h s
  obtain ⟨new', hnew', hleft', hconstants', heval'⟩ := hf (step.run s).1 (step.run s).2
  refine ⟨new' ++ new, ?_, ?_, hconstants.trans hconstants', fun hgiven hfollows hs => ?_⟩
  · rw [List.append_assoc, ← hnew]
    exact hnew'
  · have hboth := (hleft'.append (.refl (new.map Prod.fst))).trans
      (.of_perm (append_append_perm _ _ _))
    rw [List.append_assoc, ← List.map_append] at hboth
    exact hboth.trans (hleft.append (.refl ms'))
  · exact heval' hgiven hfollows (heval hgiven (BindState.Follows.of_append hfollows hnew') hs)

/-- What the first step has left is of no use to the second one. -/
theorem next (h : Records p given ms step left) (hf : ∀ a, Records p given ms' (f a) leftB) :
    Records p given (ms ++ ms') (step >>= f) leftB :=
  h.bind fun a => (hf a).mono (.of_sublist (List.sublist_append_right _ _))

theorem discard (h : Records p given ms step left) :
    Records p given ms (Functor.discard step) fun _ => [] := by
  intro s
  obtain ⟨new, hnew, hleft, hconstants, heval⟩ := h s
  have hmost := Project.AtMost.trans (.of_sublist (List.sublist_append_right _ _)) hleft
  exact ⟨new, hnew, hmost, hconstants, heval⟩

/-- A step that looks at the state. -/
theorem get {f : BindState → Binder β} (h : ∀ s, Records p given ms (f s) leftB) :
    Records p given ms (MonadState.get >>= f) leftB := fun s => h s s

/-- A step that looks at the symbols. -/
theorem comp {f : Compilation → Binder β} (h : ∀ c, Records p given ms (f c) leftB) :
    Records p given ms (Binder.comp >>= f) leftB := fun s => h s.comp s

/-- A step that looks at the constant of a node.  If those that are known are right, it is what the
expression is worth. -/
theorem constant? {node : NodeId} {f : Option Constant → Binder β}
    (h : ∀ found, Records p (given ∧ ∀ v ∈ found, p.IsWorth ⟨scope.file, node⟩ v) ms (f found)
      leftB) : Records p given ms (Binder.constant? scope node >>= f) leftB := by
  intro s
  obtain ⟨new, hnew, hleft, hconstants, heval⟩ := h (s.facts.constant? ⟨scope.file, node⟩) s
  refine ⟨new, hnew, hleft, hconstants, fun hgiven hfollows hs => heval ⟨hgiven, ?_⟩ hfollows hs⟩
  exact fun v hv => hs.1 _ (mem_of_lookup hv)

theorem withLocals (h : Records p given ms step left) :
    Records p given ms (Binder.withLocals step) left := fun s => h s

theorem inFreshScope (locals : List (String × SymbolId)) (h : Records p given ms step left) :
    Records p given ms (Binder.inFreshScope locals step) left :=
  fun s => h { s with locals }

end Records

namespace Quiet

theorem pure (a : α) : Quiet (pure a) := fun _ => ⟨rfl, rfl, rfl⟩

theorem bind (h : Quiet step) (hf : ∀ a, Quiet (f a)) : Quiet (step >>= f) := by
  intro s
  obtain ⟨hsymbols, hconstants, hfields⟩ := h s
  obtain ⟨hsymbols', hconstants', hfields'⟩ := hf (step.run s).1 (step.run s).2
  exact ⟨hsymbols'.trans hsymbols, hconstants'.trans hconstants, hfields'.trans hfields⟩

/-- A step that looks at the symbols. -/
theorem comp {f : Compilation → Binder β} (h : ∀ c, Quiet (f c)) : Quiet (Binder.comp >>= f) :=
  fun s => h s.comp s

theorem firstFound {search : α → Binder (Option SymbolId)} (h : ∀ a, Quiet (search a)) :
    ∀ as : List α, Quiet (PropertyLint.firstFound search as)
  | [] => .pure none
  | a :: rest => (h a).bind fun found => by
    cases found with
    | some found => exact .pure _
    | none => exact firstFound h rest

end Quiet

theorem Quiet.records (h : Quiet step) : Records p given ms step fun _ => ms := by
  intro s
  obtain ⟨hsymbols, hconstants, hfields⟩ := h s
  refine ⟨[], hsymbols, by simpa using .refl _, ?_, fun _ _ hs => ?_⟩
  · rw [hconstants]
  · unfold BindState.Evaluated
    rw [hconstants, hfields]
    exact hs

theorem Quiet.next (h : Quiet step) (hf : ∀ a, Records p given ms (f a) leftB) :
    Records p given ms (step >>= f) leftB := by
  have hstep : Records p given [] step fun _ => [] := h.records
  exact hstep.next hf

/-! ## Primitive steps -/

theorem quiet_change (g : Compilation → α × Compilation) : Quiet (change g) :=
  fun _ => ⟨rfl, rfl, rfl⟩

theorem quiet_typeNamed? (name : String) : Quiet (typeNamed? name) := fun _ => ⟨rfl, rfl, rfl⟩

theorem quiet_declare (node : NodeId) (id : SymbolId) : Quiet (declare scope node id) :=
  fun _ => ⟨rfl, rfl, rfl⟩

theorem quiet_recordType (node : NodeId) (id : SymbolId) : Quiet (recordType scope node id) :=
  fun _ => ⟨rfl, rfl, rfl⟩

theorem quiet_addLocal (name : String) (id : SymbolId) : Quiet (addLocal name id) :=
  fun _ => ⟨rfl, rfl, rfl⟩

theorem recordSymbol_records (node : NodeId) (id : SymbolId) :
    Records p given [⟨scope.file, node⟩] (recordSymbol scope node id) fun _ => [] :=
  fun _ => ⟨[(⟨scope.file, node⟩, id)], rfl, .refl _, List.suffix_refl _, fun _ _ hs => hs⟩

/-- The symbol of a node that is no expression. -/
theorem recordSymbol_records_other {node : NodeId} (h : ¬ p.IsExpr ⟨scope.file, node⟩)
    (id : SymbolId) : Records p given [] (recordSymbol scope node id) fun _ => [] :=
  (recordSymbol_records node id).mono (.of_not_isExpr h)

theorem recordConstant_records {node : NodeId} (h : given → p.IsWorth ⟨scope.file, node⟩ v) :
    Records p given [] (recordConstant scope node v) fun _ => [] := by
  refine fun s => ⟨[], rfl, .refl _, List.suffix_cons _ _, fun hgiven _ hs => ⟨?_, hs.2⟩⟩
  exact List.forall_mem_cons.2 ⟨h hgiven, hs.1⟩

theorem forM_records {as : List α} {f : α → Binder Unit} {ms : α → List NodeRef}
    (h : ∀ a ∈ as, Records p given (ms a) (f a) fun _ => []) :
    Records p given (as.flatMap ms) (as.forM f) fun _ => [] := by
  induction as with
  | nil => exact .pure (.refl _)
  | cons a as ih =>
    rw [List.forM_eq_forM, List.forM_cons, List.flatMap_cons]
    exact (h a (.head _)).next fun _ => ih fun b hb => h b (.tail _ hb)

/-! ## Written types -/

theorem quiet_typeInNamespace (container : Option String) (name : String) (args : List SymbolId) :
    Quiet (typeInNamespace container name args) :=
  (quiet_typeNamed? _).bind fun found => by
    cases found with
    | some definition => exact (quiet_change _).bind fun _ => .pure _
    | none => exact .pure _

theorem quiet_nestedType (outer : SymbolId) (name : String) (args : List SymbolId) :
    Quiet (nestedType outer name args) :=
  .comp fun _ => quiet_typeInNamespace _ _ _

theorem quiet_typeInType (name : String) (args : List SymbolId) (owner : SymbolId) :
    Quiet (typeInType name args owner) := by
  refine .comp fun c => ?_
  dsimp only
  split
  · exact .pure _
  · exact .firstFound (fun _ => quiet_nestedType _ _ _) _

theorem quiet_simpleType (name : String) (args : List SymbolId) :
    Quiet (simpleType scope name args) := by
  refine .comp fun c => ?_
  split
  · exact quiet_typeNamed? _
  split
  · exact .pure _
  refine (Quiet.firstFound (fun _ => quiet_typeInType _ _ _) _).bind fun found => ?_
  cases found with
  | some found => exact .pure _
  | none =>
    refine (Quiet.firstFound (fun _ => quiet_typeInNamespace _ _ _) _).bind fun found => ?_
    cases found with
    | some found => exact .pure _
    | none => exact .firstFound (fun _ => quiet_typeInNamespace _ _ _) _

theorem quiet_nullableForm (underlying : SymbolId) : Quiet (nullableForm underlying) := by
  refine .comp fun c => ?_
  split
  · split
    · exact quiet_change _
    · exact .pure _
  · exact .pure _

theorem recordResolved_records {node : Node} (h : ⟨scope.file, node.id⟩ ∈ p.others)
    (resolved : Option SymbolId) :
    Records p given [] (recordResolved scope node resolved) fun _ => [] := by
  cases resolved with
  | some t => exact (recordSymbol_records_other h t).next fun _ => .pure (.refl _)
  | none => exact .pure (.refl _)

mutual

/-- A written type says nothing about expressions. -/
theorem resolveType_records : ∀ type : TypeRef, scope.Covers p.others type.nodes →
    Records p given [] (resolveType scope type) fun _ => []
  | .keyword node k, hcovers => by
    rw [resolveType]
    exact (quiet_typeNamed? _).next fun found => recordResolved_records (hcovers _ (.head _)) found
  | .named node segments, hcovers => by
    rw [TypeRef.nodes, Scope.covers_cons] at hcovers
    rw [resolveType]
    exact (resolveName_records segments hcovers.2).next fun found =>
      recordResolved_records hcovers.1 found
  | .array node element, hcovers => by
    rw [TypeRef.nodes, Scope.covers_cons] at hcovers
    rw [resolveType]
    refine (resolveType_records element hcovers.2).next fun found => ?_
    cases found with
    | some t => exact (quiet_change _).next fun _ => recordResolved_records hcovers.1 _
    | none => exact .pure (.refl _)
  | .nullable node underlying, hcovers => by
    rw [TypeRef.nodes, Scope.covers_cons] at hcovers
    rw [resolveType]
    refine (resolveType_records underlying hcovers.2).next fun found => ?_
    cases found with
    | some t => exact (quiet_nullableForm t).next fun _ => recordResolved_records hcovers.1 _
    | none => exact .pure (.refl _)

theorem resolveName_records : ∀ segments : List NameSegment,
    scope.Covers p.others (nodesOfSegments segments) →
      Records p given [] (resolveName scope segments) fun _ => []
  | [], _ => .pure (.refl _)
  | .mk name args :: rest, hcovers => by
    rw [nodesOfSegments, Scope.covers_append] at hcovers
    rw [resolveName]
    refine (resolveArgs_records args hcovers.1).next fun found => ?_
    cases found with
    | none => exact .pure (.refl _)
    | some args =>
      refine (quiet_simpleType _ _).next fun found => ?_
      cases found with
      | some t => exact resolveInType_records rest t hcovers.2
      | none => exact resolveInNamespace_records rest _ hcovers.2

theorem resolveInType_records : ∀ (segments : List NameSegment) (outer : SymbolId),
    scope.Covers p.others (nodesOfSegments segments) →
      Records p given [] (resolveInType scope outer segments) fun _ => []
  | [], _, _ => .pure (.refl _)
  | .mk name args :: rest, outer, hcovers => by
    rw [nodesOfSegments, Scope.covers_append] at hcovers
    rw [resolveInType]
    refine (resolveArgs_records args hcovers.1).next fun found => ?_
    cases found with
    | none => exact .pure (.refl _)
    | some args =>
      refine (quiet_nestedType _ _ _).next fun found => ?_
      cases found with
      | some t => exact resolveInType_records rest t hcovers.2
      | none => exact .pure (.refl _)

theorem resolveInNamespace_records : ∀ (segments : List NameSegment) (container : String),
    scope.Covers p.others (nodesOfSegments segments) →
      Records p given [] (resolveInNamespace scope container segments) fun _ => []
  | [], _, _ => .pure (.refl _)
  | .mk name args :: rest, container, hcovers => by
    rw [nodesOfSegments, Scope.covers_append] at hcovers
    rw [resolveInNamespace]
    refine (resolveArgs_records args hcovers.1).next fun found => ?_
    cases found with
    | none => exact .pure (.refl _)
    | some args =>
      refine (quiet_typeInNamespace _ _ _).next fun found => ?_
      cases found with
      | some t => exact resolveInType_records rest t hcovers.2
      | none => exact resolveInNamespace_records rest _ hcovers.2

theorem resolveArgs_records : ∀ types : List TypeRef, scope.Covers p.others (nodesOfTypes types) →
    Records p given [] (resolveArgs scope types) fun _ => []
  | [], _ => .pure (.refl _)
  | t :: rest, hcovers => by
    rw [nodesOfTypes, Scope.covers_append] at hcovers
    rw [resolveArgs]
    refine (resolveType_records t hcovers.1).next fun found => ?_
    cases found with
    | none => exact .pure (.refl _)
    | some t =>
      refine (resolveArgs_records rest hcovers.2).next fun found => ?_
      cases found with
      | none => exact .pure (.refl _)
      | some ts => exact .pure (.refl _)

end

theorem resolveAttributeClass_records {type : TypeRef}
    (hcovers : scope.Covers p.others type.nodes) :
    Records p given [] (resolveAttributeClass scope type) fun _ => [] := by
  have hplain : Records p given [] (resolveType scope type) fun _ => [] :=
    resolveType_records type hcovers
  unfold resolveAttributeClass
  split
  · refine (resolveType_records _ (TypeRef.covers_appendToName _ hcovers)).next fun found => ?_
    cases found with
    | some t => exact .pure (.refl _)
    | none => exact hplain
  · exact hplain

end Binder

end PropertyLint
