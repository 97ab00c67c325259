/-
# What binding an expression records

Binding an expression records the symbols of the expressions in it once, and constants that they are
worth (`bindExpr_records`).  A group of methods is left without a symbol, until a call chooses one
of them.  Statements and bodies record what their expressions do (`bindBody_records`).
-/
import PropertyLint.Proofs.Binding.Exprs
import PropertyLint.Proofs.Binding.Recording

namespace PropertyLint

open Binder

/-- The identities of nodes in the file of the scope. -/
def Scope.refs (scope : Scope) (ns : List SyntaxNode) : List NodeRef :=
  ns.map fun n => ⟨scope.file, n.node.id⟩

/-- The nodes are some of those of the scope's file. -/
def Scope.Within (scope : Scope) (p : Project) (ns : List SyntaxNode) : Prop :=
  ∃ t ∈ p.trees, scope.file = some t.file ∧ ns ⊆ t.root.nodes

variable {p : Project} {given : Prop} {scope : Scope} {ns ns' : List SyntaxNode}
  {ms ms' : List NodeRef} {n : NodeRef} {node : Node} {e : Expr} {v : Constant} {m : Meaning}

@[simp] theorem Scope.refs_cons (x : SyntaxNode) :
    scope.refs (x :: ns) = ⟨scope.file, x.node.id⟩ :: scope.refs ns := rfl

@[simp] theorem Scope.refs_append : scope.refs (ns ++ ns') = scope.refs ns ++ scope.refs ns' :=
  List.map_append

namespace Scope.Within

theorem mono (h : scope.Within p ns) (hns : ns' ⊆ ns) : scope.Within p ns' := by
  obtain ⟨t, ht, hfile, hnodes⟩ := h
  exact ⟨t, ht, hfile, List.Subset.trans hns hnodes⟩

theorem tail {x : SyntaxNode} (h : scope.Within p (x :: ns)) : scope.Within p ns :=
  h.mono (List.subset_cons_self _ _)

theorem left (h : scope.Within p (ns ++ ns')) : scope.Within p ns :=
  h.mono (List.subset_append_left _ _)

theorem right (h : scope.Within p (ns ++ ns')) : scope.Within p ns' :=
  h.mono (List.subset_append_right _ _)

theorem writes (h : scope.Within p ns) (he : .expr e ∈ ns) : p.Writes scope.file e := by
  obtain ⟨t, ht, hfile, hnodes⟩ := h
  exact ⟨t, ht, hfile, hnodes he⟩

/-- The value of an expression is what its node is worth. -/
theorem isWorth (h : scope.Within p ns) (hp : p.IsRead) (he : .expr e ∈ ns)
    (hv : p.Evaluates scope.file e v) : p.IsWorth ⟨scope.file, e.id⟩ v := by
  intro e' hwrites hid
  obtain rfl := (h.writes he).unique hp hwrites hid
  exact hv

/-- Only the expression itself has the identity of a name. -/
theorem isReference (h : scope.Within p ns) (hp : p.IsRead) (he : .expr e ∈ ns)
    (hreference : e.isReference = true) :
    ∀ e', p.Writes scope.file e' → e'.id = e.id → e'.isReference = true := by
  intro e' hwrites hid
  obtain rfl := (h.writes he).unique hp hwrites hid
  exact hreference

/-- A node that is no expression has not the identity of one. -/
theorem not_isExpr (h : scope.Within p ns) (hp : p.IsRead) {x : SyntaxNode} (hx : x ∈ ns)
    (hne : ∀ e, x ≠ .expr e) : ⟨scope.file, x.node.id⟩ ∈ p.others := by
  rintro ⟨e, hwrites, hid⟩
  obtain ⟨t, ht, hfile, hnodes⟩ := h
  exact hne e (hwrites.node_unique hp ht hfile (hnodes hx) hid.symm)

theorem covers_type (h : scope.Within p ns) (hp : p.IsRead) {t : TypeRef} (ht : t.nodes ⊆ ns) :
    scope.Covers p.others t.nodes := by
  intro x hx
  obtain ⟨u, rfl⟩ := t.exists_type_of_mem_nodes hx
  exact h.not_isExpr hp (ht hx) fun _ => SyntaxNode.noConfusion

end Scope.Within

namespace Binder.Records

variable {α β : Type} {step : Binder α} {left : α → List NodeRef}

/-- The node around others is written in front of them and bound behind them. -/
theorem around (h : Records p given (ms ++ [n]) step left) :
    Records p given (n :: ms) step left :=
  h.mono (.of_perm (List.perm_append_singleton n ms))

/-- Nodes in front may not be needed. -/
theorem drop (h : Records p given ms step left) : Records p given (ms' ++ ms) step left :=
  h.mono (.of_sublist (List.sublist_append_right _ _))

/-- The first node may not be needed. -/
theorem skip (h : Records p given ms step left) : Records p given (n :: ms) step left :=
  h.mono (.of_sublist (List.sublist_cons_self _ _))

/-- A step that records nothing leaves what it is given. -/
theorem free (h : Records p given [] step left) : Records p given ms step left :=
  h.mono (.of_sublist (List.nil_sublist _))

/-- The result of the first step is known. -/
theorem known {a : α} {f : α → Binder β} {leftB : β → List NodeRef}
    (ha : ∀ s, (step.run s).1 = a) (h : Records p given ms step left)
    (hf : Records p given ms' (f a) leftB) : Records p given (ms ++ ms') (step >>= f) leftB := by
  have heq : step >>= f = step >>= fun _ => f a := by
    refine StateT.ext fun s => ?_
    rw [StateT.run_bind, StateT.run_bind, ← ha s]
    rfl
  rw [heq]
  exact h.next fun _ => hf

/-- A step that looks at the state.  If the constants that are known are right, later ones may be
made of them. -/
theorem get_evaluated {f : BindState → Binder α}
    (h : ∀ s : BindState, Records p (given ∧ s.Evaluated p) ms (f s) left) :
    Records p given ms (MonadState.get >>= f) left := by
  intro s
  obtain ⟨new, hnew, hleft, hconstants, heval⟩ := h s s
  exact ⟨new, hnew, hleft, hconstants, fun hgiven hfollows hs => heval ⟨hgiven, hs⟩ hfollows hs⟩

/-- After the symbol of a node has been recorded, it is the symbol that the project knows. -/
theorem recordSymbol {node : NodeId} {id : SymbolId} {f : Unit → Binder α}
    (h : ∀ u, Records p (given ∧ (p.IsExpr ⟨scope.file, node⟩ →
      p.facts.symbol? ⟨scope.file, node⟩ = some id)) ms (f u) left) :
    Records p given (⟨scope.file, node⟩ :: ms) (Binder.recordSymbol scope node id >>= f) left := by
  intro s
  let s₁ := { s with facts := s.facts.addSymbol ⟨scope.file, node⟩ id }
  obtain ⟨new, hnew, hleft, hconstants, heval⟩ := h () s₁
  refine ⟨new ++ [(⟨scope.file, node⟩, id)], ?_, ?_, hconstants, fun hgiven hfollows hs => ?_⟩
  · rw [List.append_assoc]
    exact hnew
  · rw [List.map_append, ← List.append_assoc]
    exact (hleft.append (.refl _)).trans (.of_perm (List.perm_append_singleton _ _))
  · refine heval ⟨hgiven, hfollows (⟨scope.file, node⟩, id) ?_⟩ hfollows hs
    change _ ∈ ((f ()).run s₁).2.facts.symbols
    rw [hnew]
    exact List.mem_append_right _ (.head _)

end Binder.Records

/-! ## Meanings -/

/-- The node of an expression, if its meaning has not been recorded yet. -/
def Meaning.unrecorded (n : NodeRef) : Meaning → List NodeRef
  | .value _ => []
  | _ => [n]

/-- The node of an expression, if its meaning is recorded by a call. -/
def Meaning.spare (n : NodeRef) : Meaning → List NodeRef
  | .methods _ => [n]
  | _ => []

theorem recordMeaning_records (m : Meaning) :
    Records p given (m.unrecorded ⟨scope.file, node.id⟩) (recordMeaning scope node m)
      fun m => m.spare ⟨scope.file, node.id⟩ := by
  cases m with
  | value found =>
    cases found with
    | some t => exact (quiet_recordType _ _).next fun _ => .pure (.refl _)
    | none => exact .pure (.refl _)
  | type t =>
    refine .recordSymbol fun _ => ?_
    exact .pure (.refl _)
  | methods candidates => exact .pure (.refl _)
  | namespaceName _ | nothing => exact .pure (.of_sublist (List.nil_sublist _))

/-- The meaning of another expression is recorded. -/
theorem recordMeaning_spare_records (m : Meaning) :
    Records p given [⟨scope.file, node.id⟩] (recordMeaning scope node m)
      fun m => m.spare ⟨scope.file, node.id⟩ := by
  refine (recordMeaning_records m).mono ?_
  cases m with
  | value _ => exact .of_sublist (List.nil_sublist _)
  | _ => exact .refl _

/-- The meaning that a step finds is recorded. -/
theorem recordStep_records {step : Binder Meaning}
    (h : Records p given ms step fun m => m.unrecorded ⟨scope.file, node.id⟩) :
    Records p given ms (do recordMeaning scope node (← step))
      fun m => m.spare ⟨scope.file, node.id⟩ := by
  rw [← List.append_nil ms]
  refine h.bind fun m => ?_
  rw [List.append_nil]
  exact recordMeaning_records m

/-- Values are recorded without a symbol. -/
theorem recordMeaning_value_records (found : Option SymbolId) :
    Records p given ms (recordMeaning scope node (.value found))
      fun m => m.spare ⟨scope.file, node.id⟩ :=
  (recordMeaning_records (.value found)).free

/-- What is found is recorded as the type of a value. -/
theorem recordFound_records {step : Binder (Option SymbolId)}
    (h : Records p given [] step fun _ => []) :
    Records p given ms (do recordMeaning scope node (.value (← step)))
      fun m => m.spare ⟨scope.file, node.id⟩ :=
  h.next fun found => recordMeaning_value_records found

/-! ## Names -/

theorem bindLiteral_records {l : Literal}
    (h : ∀ v, l.constant? = some v → p.IsWorth ⟨scope.file, node.id⟩ v) :
    Records p given [] (bindLiteral scope node l) fun m => m.unrecorded ⟨scope.file, node.id⟩ := by
  have hvalue (k : KeywordType) : Records p given [] (do return .value (← keywordType? k))
      fun m : Meaning => m.unrecorded ⟨scope.file, node.id⟩ :=
    (quiet_typeNamed? _).next fun _ => .pure (.refl _)
  have hnone : Records p given [] (pure (.value none))
      fun m : Meaning => m.unrecorded ⟨scope.file, node.id⟩ := .pure (.refl _)
  unfold bindLiteral
  cases hv : l.constant? with
  | some v =>
    refine (recordConstant_records fun _ => h v hv).next fun _ => ?_
    cases l.type? with
    | some k => exact hvalue k
    | none => exact hnone
  | none =>
    cases l.type? with
    | some k => exact hvalue k
    | none => exact hnone

/-- A name gets the constant of the field that it is bound to. -/
theorem memberMeaning_records
    (h : ∀ e, p.Writes scope.file e → e.id = node.id → e.isReference = true)
    (members : List SymbolId) :
    Records p given [⟨scope.file, node.id⟩] (memberMeaning scope node members)
      fun m => m.unrecorded ⟨scope.file, node.id⟩ := by
  refine .get_evaluated fun s => ?_
  cases members with
  | nil => exact .pure (.refl _)
  | cons first rest =>
    dsimp only
    split
    · exact .pure (.refl _)
    · refine .recordSymbol fun _ => ?_
      split
      next v hlookup =>
        refine (recordConstant_records fun ⟨⟨_, hs⟩, hsymbol⟩ => ?_).next fun _ =>
          .pure (.refl _)
        intro e hwrites hid
        obtain ⟨file, init, hinit, hvalue⟩ := hs.2 _ (mem_of_lookup hlookup)
        refine .name (h e hwrites hid) ?_ hinit hvalue
        rw [show e.id = node.id from hid]
        exact hsymbol ⟨e, hwrites, hid⟩
      next => exact .pure (.refl _)

theorem bindIdentifier_records
    (h : ∀ e, p.Writes scope.file e → e.id = node.id → e.isReference = true) (name : String) :
    Records p given [⟨scope.file, node.id⟩] (bindIdentifier scope node name)
      fun m => m.unrecorded ⟨scope.file, node.id⟩ := by
  refine .get fun s => ?_
  split
  · exact .recordSymbol fun _ => .pure (.refl _)
  · dsimp only
    split
    · exact memberMeaning_records h _
    · refine (quiet_simpleType _ _).next fun found => ?_
      cases found with
      | some t => exact .pure (.refl _)
      | none =>
        refine .comp fun c => ?_
        split <;> exact .pure (.refl _)

theorem bindMember_records
    (h : ∀ e, p.Writes scope.file e → e.id = node.id → e.isReference = true) (target : Meaning)
    (name : String) :
    Records p given [⟨scope.file, node.id⟩] (bindMember scope node target name)
      fun m => m.unrecorded ⟨scope.file, node.id⟩ := by
  refine .comp fun c => ?_
  cases target with
  | namespaceName container =>
    dsimp only
    split
    · exact .pure (.refl _)
    · split <;> exact .pure (.refl _)
  | type t =>
    dsimp only
    split
    · refine (quiet_nestedType _ _ _).next fun found => ?_
      cases found <;> exact .pure (.refl _)
    · exact memberMeaning_records h _
  | value found =>
    cases found with
    | some t => exact memberMeaning_records h _
    | none => exact .pure (.refl _)
  | methods _ | nothing => exact .pure (.refl _)

/-! ## Calls -/

/-- The chosen method is recorded for the call and for what is called, which has been left. -/
theorem bindCall_records (callee : Node) (m : Meaning) (args : List PassedArg) :
    Records p given (m.spare ⟨scope.file, callee.id⟩ ++ [⟨scope.file, node.id⟩])
      (bindCall scope node callee m args) fun m => m.unrecorded ⟨scope.file, node.id⟩ := by
  cases m with
  | methods candidates =>
    refine (quiet_change _).next fun known => ?_
    split
    · refine .mono ?_ (.of_perm (List.Perm.swap _ _ _))
      refine .recordSymbol fun _ => .recordSymbol fun _ => ?_
      exact .pure (.refl _)
    · exact .pure (.of_sublist (List.nil_sublist _))
  | _ => exact .pure (.of_sublist (List.nil_sublist _))

theorem bindConstructor_records (node : NodeId) (type : SymbolId) (args : List PassedArg) :
    Records p given [⟨scope.file, node⟩] (bindConstructor scope node type args) fun _ => [] := by
  refine (quiet_change _).next fun known => ?_
  split
  · exact recordSymbol_records _ _
  · exact .pure (.of_sublist (List.nil_sublist _))

/-! ## Operators -/

theorem bindSum_records {left right : Node}
    (h : ∀ a b, p.IsWorth ⟨scope.file, left.id⟩ (.string a) →
      p.IsWorth ⟨scope.file, right.id⟩ (.string b) →
      p.IsWorth ⟨scope.file, node.id⟩ (.string (a ++ b))) (leftType rightType : Option SymbolId) :
    Records p given [] (bindSum scope node left right leftType rightType)
      fun m => m.unrecorded ⟨scope.file, node.id⟩ := by
  refine (quiet_typeNamed? _).next fun string => ?_
  dsimp only
  split
  · refine .constant? fun a => .constant? fun b => ?_
    split
    · refine (recordConstant_records fun ⟨⟨_, ha⟩, hb⟩ => ?_).next fun _ =>
        .pure (.refl _)
      exact h _ _ (ha _ rfl) (hb _ rfl)
    · exact .pure (.refl _)
  · exact .pure (.refl _)

theorem bindBinary_records {op : BinaryOp} {left right : Node}
    (h : op = .add → ∀ a b, p.IsWorth ⟨scope.file, left.id⟩ (.string a) →
      p.IsWorth ⟨scope.file, right.id⟩ (.string b) →
      p.IsWorth ⟨scope.file, node.id⟩ (.string (a ++ b))) (leftType rightType : Option SymbolId) :
    Records p given [] (bindBinary scope node op left right leftType rightType)
      fun m => m.unrecorded ⟨scope.file, node.id⟩ := by
  cases op with
  | add => exact bindSum_records (h rfl) _ _
  | sub | mul | div | rem | coalesce => exact .pure (.refl _)
  | _ => exact (quiet_typeNamed? _).next fun _ => .pure (.refl _)

theorem arrayType_records {element : TypeRef} (hcovers : scope.Covers p.others element.nodes) :
    Records p given [] (arrayType scope element) fun _ => [] := by
  refine (resolveType_records element hcovers).next fun found => ?_
  cases found with
  | some t => exact (quiet_change _).next fun _ => .pure (.refl _)
  | none => exact .pure (.refl _)

/-- Another node is worth the constant of a node. -/
theorem copyConstant_records {source target : NodeId}
    (h : ∀ v, p.IsWorth ⟨scope.file, source⟩ v → p.IsWorth ⟨scope.file, target⟩ v) :
    Records p given [] (copyConstant scope source target) fun _ => [] := by
  refine .constant? fun found => ?_
  cases found with
  | some v => exact recordConstant_records fun ⟨_, hv⟩ => h v (hv v rfl)
  | none => exact .pure (.refl _)

/-! ## Expressions -/

theorem bindFirst_result (args : List (Argument Expr)) (s : BindState) :
    ((bindFirst scope args).run s).1 = args.head?.bind fun a => a.value.nameText? := by
  cases args <;> rfl

theorem Expr.mem_nodes (e : Expr) : .expr e ∈ e.nodes := by
  unfold Expr.nodes
  split <;> exact .head _

/-- The node of an expression is bound behind the nodes in it. -/
theorem expr_records {α : Type} {step : Binder α} {left : α → List NodeRef}
    (hnodes : e.nodes = .expr e :: ns)
    (h : Records p given (scope.refs ns ++ [⟨scope.file, e.id⟩]) step left) :
    Records p given (scope.refs e.nodes) step left := by
  rw [hnodes]
  exact h.around

mutual

/-- Binding an expression records its symbols once and what is worth a constant. -/
theorem bindExpr_records (hp : p.IsRead) : ∀ e : Expr, scope.Within p e.nodes →
    Records p given (scope.refs e.nodes) (bindExpr scope e) fun m => m.spare ⟨scope.file, e.id⟩
  | .literal node value, hwithin => by
    rw [bindExpr]
    refine (recordStep_records (bindLiteral_records fun v hv => ?_)).free
    exact hwithin.isWorth hp (Expr.mem_nodes _) (.literal hv)
  | .identifier node name, hwithin => by
    have hname := hwithin.isReference hp (Expr.mem_nodes _) rfl
    rw [bindExpr]
    exact recordStep_records (bindIdentifier_records hname name.text)
  | .self node, _ => by
    rw [bindExpr]
    exact recordMeaning_value_records _
  | .base node, _ => by
    rw [bindExpr]
    exact .comp fun c => recordMeaning_value_records _
  | .member node target name, hwithin => by
    have hname := hwithin.isReference hp (Expr.mem_nodes _) rfl
    have htarget : scope.Within p target.nodes := hwithin.tail
    rw [bindExpr]
    exact expr_records rfl <| (bindExpr_records hp target htarget).next fun m =>
      recordStep_records (bindMember_records hname m name.text)
  | .invoke node callee ⟨range, args⟩, hwithin => by
    have hparts : scope.Within p (callee.nodes ++ nodesOfArgs args) := hwithin.tail
    rw [bindExpr]
    refine expr_records rfl ?_
    rw [Scope.refs_append]
    split
    next hnameof =>
      rw [List.append_assoc]
      refine .drop (.known (bindFirst_result args) (bindFirst_records hp args hparts.right) ?_)
      have hstring : Records p given [⟨scope.file, node.id⟩] (do
          recordMeaning scope node (.value (← knownType? .string)))
          fun m => m.spare ⟨scope.file, node.id⟩ :=
        recordFound_records (quiet_typeNamed? _).records
      split
      next text htext =>
        refine (recordConstant_records fun _ => ?_).next fun _ => hstring
        refine hwithin.isWorth hp (Expr.mem_nodes _) ?_
        cases args with
        | nil => cases htext
        | cons arg rest => exact .nameof hnameof htext
      next => exact hstring
    next =>
      refine .mono ?_ (.of_perm (List.perm_append_comm.append_right _))
      rw [List.append_assoc]
      refine (bindArgs_records hp args hparts.right).next fun passed => ?_
      exact (bindExpr_records hp callee hparts.left).bind fun m =>
        recordStep_records (bindCall_records callee.node m passed)
  | .create node type none, hwithin => by
    have htype := hwithin.covers_type hp (List.subset_cons_self _ _)
    rw [bindExpr]
    refine expr_records rfl (.drop ((resolveType_records type htype).next fun created => ?_))
    cases created with
    | some t =>
      exact (bindConstructor_records node.id t []).next fun _ => recordMeaning_value_records _
    | none => exact recordMeaning_value_records _
  | .create node type (some ⟨_, args⟩), hwithin => by
    have hparts : scope.Within p (type.nodes ++ nodesOfArgs args) := hwithin.tail
    have htype := hparts.covers_type hp (List.subset_append_left _ _)
    rw [bindExpr]
    refine expr_records rfl ?_
    rw [Scope.refs_append, List.append_assoc]
    refine .drop ((resolveType_records type htype).next fun created => ?_)
    refine (bindArgs_records hp args hparts.right).next fun passed => ?_
    cases created with
    | some t =>
      exact (bindConstructor_records node.id t passed).next fun _ => recordMeaning_value_records _
    | none => exact recordMeaning_value_records _
  | .createArray node type none, hwithin => by
    have htype := hwithin.covers_type hp (List.subset_cons_self _ _)
    rw [bindExpr]
    exact recordFound_records (arrayType_records htype)
  | .createArray node type (some size), hwithin => by
    have hparts : scope.Within p (type.nodes ++ size.nodes) := hwithin.tail
    have htype := hparts.covers_type hp (List.subset_append_left _ _)
    rw [bindExpr]
    refine expr_records rfl ?_
    rw [Scope.refs_append, List.append_assoc]
    exact .drop <| (bindExpr_records hp size hparts.right).next fun _ =>
      recordFound_records (arrayType_records htype)
  | .typeOf node type, hwithin => by
    have htype := hwithin.covers_type hp (List.subset_cons_self _ _)
    rw [bindExpr]
    refine Records.free ?_
    exact (resolveType_records type htype).next fun _ =>
      recordFound_records (quiet_typeNamed? _).records
  | .default node none, _ => by
    rw [bindExpr]
    exact recordMeaning_value_records _
  | .default node (some type), hwithin => by
    have htype := hwithin.covers_type hp (List.subset_cons_self _ _)
    rw [bindExpr]
    exact recordFound_records (resolveType_records type htype)
  | .cast node type operand, hwithin => by
    have hparts : scope.Within p (type.nodes ++ operand.nodes) := hwithin.tail
    have htype := hparts.covers_type hp (List.subset_append_left _ _)
    rw [bindExpr]
    refine expr_records rfl ?_
    rw [Scope.refs_append, List.append_assoc]
    exact .drop <| (bindExpr_records hp operand hparts.right).next fun _ =>
      recordFound_records (resolveType_records type htype)
  | .asType node operand type, hwithin => by
    have hparts : scope.Within p (type.nodes ++ operand.nodes) := hwithin.tail
    have htype := hparts.covers_type hp (List.subset_append_left _ _)
    rw [bindExpr]
    refine expr_records rfl ?_
    rw [Scope.refs_append, List.append_assoc]
    exact .drop <| (bindExpr_records hp operand hparts.right).next fun _ =>
      recordFound_records (resolveType_records type htype)
  | .isType node operand type designation, hwithin => by
    have hparts : scope.Within p (type.nodes ++ operand.nodes) := hwithin.tail
    have htype := hparts.covers_type hp (List.subset_append_left _ _)
    rw [bindExpr]
    refine expr_records rfl ?_
    rw [Scope.refs_append, List.append_assoc]
    refine .drop <| (bindExpr_records hp operand hparts.right).next fun _ => ?_
    refine Records.free ((resolveType_records type htype).next fun found => ?_)
    have hbool : Records p given [] (do
        recordMeaning scope node (.value (← knownType? .boolean)))
        fun m => m.spare ⟨scope.file, node.id⟩ :=
      recordFound_records (quiet_typeNamed? _).records
    cases designation with
    | some name =>
      exact (quiet_change _).next fun _ => (quiet_addLocal _ _).next fun _ => hbool
    | none => exact hbool
  | .binary node op left right, hwithin => by
    have hparts : scope.Within p (left.nodes ++ right.nodes) := hwithin.tail
    have hleft := hparts.writes (List.mem_append_left _ left.mem_nodes)
    have hright := hparts.writes (List.mem_append_right _ right.mem_nodes)
    rw [bindExpr]
    refine expr_records rfl ?_
    rw [Scope.refs_append, List.append_assoc]
    refine (bindExpr_records hp left hparts.left).next fun m => ?_
    refine (bindExpr_records hp right hparts.right).next fun m' => ?_
    refine (recordStep_records (bindBinary_records ?_ _ _)).free
    rintro rfl a b ha hb
    refine hwithin.isWorth hp (Expr.mem_nodes _) ?_
    exact .sum (ha left hleft rfl) (hb right hright rfl)
  | .unary node .not operand, hwithin => by
    have hoperand : scope.Within p operand.nodes := hwithin.tail
    rw [bindExpr]
    exact expr_records rfl <| (bindExpr_records hp operand hoperand).next fun _ =>
      recordFound_records (quiet_typeNamed? _).records
  | .unary node .neg operand, hwithin => by
    have hoperand : scope.Within p operand.nodes := hwithin.tail
    have hwrites := hoperand.writes operand.mem_nodes
    rw [bindExpr]
    refine expr_records rfl <| (bindExpr_records hp operand hoperand).next fun m => ?_
    refine .constant? fun found => ?_
    split
    next value =>
      refine (recordConstant_records fun ⟨_, hvalue⟩ => ?_).next fun _ =>
        recordMeaning_value_records _
      refine hwithin.isWorth hp (Expr.mem_nodes _) ?_
      exact .neg (hvalue _ rfl operand hwrites rfl)
    next => exact recordMeaning_value_records _
  | .conditional node condition whenTrue whenFalse, hwithin => by
    have hparts : scope.Within p (condition.nodes ++ (whenTrue.nodes ++ whenFalse.nodes)) :=
      hwithin.tail
    rw [bindExpr]
    refine expr_records rfl ?_
    rw [Scope.refs_append, Scope.refs_append, List.append_assoc, List.append_assoc]
    refine (bindExpr_records hp condition hparts.left).next fun _ => ?_
    refine (bindExpr_records hp whenTrue hparts.right.left).next fun yes => ?_
    refine (bindExpr_records hp whenFalse hparts.right.right).next fun no => ?_
    exact (quiet_change _).next fun c => recordMeaning_value_records _
  | .assign node target value, hwithin => by
    have hparts : scope.Within p (target.nodes ++ value.nodes) := hwithin.tail
    rw [bindExpr]
    refine expr_records rfl ?_
    rw [Scope.refs_append, List.append_assoc]
    refine (bindExpr_records hp target hparts.left).next fun m => ?_
    exact (bindExpr_records hp value hparts.right).next fun _ => recordMeaning_value_records _
  | .paren node inner, hwithin => by
    have hinner : scope.Within p inner.nodes := hwithin.tail
    have hwrites := hinner.writes inner.mem_nodes
    rw [bindExpr]
    refine expr_records rfl <| (bindExpr_records hp inner hinner).next fun m => ?_
    refine (copyConstant_records fun v hv => ?_).next fun _ => recordMeaning_spare_records m
    exact hwithin.isWorth hp (Expr.mem_nodes _) (.paren (hv inner hwrites rfl))

theorem bindArgs_records (hp : p.IsRead) : ∀ args : List (Argument Expr),
    scope.Within p (nodesOfArgs args) →
      Records p given (scope.refs (nodesOfArgs args)) (bindArgs scope args) fun _ => []
  | [], _ => .pure (.refl _)
  | ⟨node, name, value⟩ :: rest, hwithin => by
    have hparts : scope.Within p (value.nodes ++ nodesOfArgs rest) := hwithin.tail
    rw [bindArgs, nodesOfArgs, Scope.refs_cons, Scope.refs_append]
    refine .skip <| (bindExpr_records hp value hparts.left).next fun m => ?_
    rw [← List.append_nil (scope.refs _)]
    exact (bindArgs_records hp rest hparts.right).next fun _ => .pure (.refl _)

theorem bindFirst_records (hp : p.IsRead) : ∀ args : List (Argument Expr),
    scope.Within p (nodesOfArgs args) →
      Records p given (scope.refs (nodesOfArgs args)) (bindFirst scope args) fun _ => []
  | [], _ => .pure (.refl _)
  | ⟨node, name, value⟩ :: rest, hwithin => by
    have hparts : scope.Within p (value.nodes ++ nodesOfArgs rest) := hwithin.tail
    rw [bindFirst, nodesOfArgs, Scope.refs_cons, Scope.refs_append]
    exact .skip <| (bindExpr_records hp value hparts.left).next fun _ =>
      .pure (.of_sublist (List.nil_sublist _))

end

theorem bindValue_records (hp : p.IsRead) (hwithin : scope.Within p e.nodes) :
    Records p given (scope.refs e.nodes) (bindValue scope e) fun _ => [] := by
  rw [← List.append_nil (scope.refs _)]
  exact (bindExpr_records hp e hwithin).next fun _ => .pure (.refl _)

theorem bindOption_records (hp : p.IsRead) {o : Option Expr}
    (hwithin : scope.Within p (nodesOfOption Expr.nodes o)) :
    Records p given (scope.refs (nodesOfOption Expr.nodes o)) (bindOption scope o)
      fun _ => [] := by
  cases o with
  | some e => exact (bindExpr_records hp e hwithin).discard
  | none => exact .pure (.refl _)

/-! ## Statements -/

theorem bindLocal_records (hp : p.IsRead) {type : TypeRef} {name : Ident} {init : Option Expr}
    (hwithin : scope.Within p (type.nodes ++ nodesOfOption Expr.nodes init)) :
    Records p given (scope.refs (nodesOfOption Expr.nodes init))
      (bindLocal scope node type name init) fun _ => [] := by
  have htype := hwithin.covers_type hp (List.subset_append_left _ _)
  -- what follows the initial value
  have hdeclare (initType : Option SymbolId) : Records p given [] (do
      let type ← if type.isVar then pure initType else resolveType scope type
      let id ← add (.localVar ⟨name.text, type, scope.sourceRef node⟩)
      declare scope node.id id
      addLocal name.text id) fun _ => [] := by
    have hadd (found : Option SymbolId) : Records p given [] (do
        let id ← add (.localVar ⟨name.text, found, scope.sourceRef node⟩)
        declare scope node.id id
        addLocal name.text id) fun _ => [] :=
      (quiet_change _).next fun _ => (quiet_declare _ _).next fun _ =>
        (quiet_addLocal _ _).records
    dsimp only
    split
    · exact hadd initType
    · exact (resolveType_records type htype).next fun found => hadd found
  unfold bindLocal
  cases init with
  | some e =>
    rw [← List.append_nil (scope.refs _)]
    exact (bindValue_records hp hwithin.right).next fun found => hdeclare found
  | none => exact hdeclare none

mutual

theorem bindStmt_records (hp : p.IsRead) : ∀ s : Stmt, scope.Within p s.nodes →
    Records p given (scope.refs s.nodes) (bindStmt scope s) fun _ => []
  | .expression _ value, hwithin => by
    rw [bindStmt]
    exact .skip (bindExpr_records hp value hwithin.tail).discard
  | .returning _ value, hwithin | .throwing _ value, hwithin => by
    rw [bindStmt]
    exact .skip (bindOption_records hp hwithin.tail)
  | .localDecl node type name init, hwithin => by
    rw [Stmt.nodes, Scope.refs_cons, Scope.refs_append]
    rw [bindStmt]
    exact .skip (.drop (bindLocal_records hp hwithin.tail))
  | .branch _ condition yes none, hwithin => by
    have hparts : scope.Within p (condition.nodes ++ yes.nodes) := hwithin.tail
    rw [Stmt.nodes, Scope.refs_cons, Scope.refs_append]
    rw [bindStmt]
    exact .skip <| (bindExpr_records hp condition hparts.left).next fun _ =>
      (bindStmt_records hp yes hparts.right).withLocals
  | .branch _ condition yes (some no), hwithin => by
    have hparts : scope.Within p (condition.nodes ++ (yes.nodes ++ no.nodes)) := hwithin.tail
    rw [Stmt.nodes, Scope.refs_cons, Scope.refs_append, Scope.refs_append]
    rw [bindStmt]
    refine .skip <| (bindExpr_records hp condition hparts.left).next fun _ => ?_
    refine (bindStmt_records hp yes hparts.right.left).withLocals.next fun _ => ?_
    exact (bindStmt_records hp no hparts.right.right).withLocals
  | .block _ ⟨_, statements⟩, hwithin => by
    rw [bindStmt]
    exact .skip (bindStmts_records hp statements hwithin.tail).withLocals
  | .empty _, _ => .pure (.of_sublist (List.nil_sublist _))

theorem bindStmts_records (hp : p.IsRead) : ∀ ss : List Stmt, scope.Within p (nodesOfStmts ss) →
    Records p given (scope.refs (nodesOfStmts ss)) (bindStmts scope ss) fun _ => []
  | [], _ => .pure (.refl _)
  | s :: rest, hwithin => by
    rw [nodesOfStmts] at hwithin ⊢
    rw [bindStmts, Scope.refs_append]
    exact (bindStmt_records hp s hwithin.left).next fun _ =>
      bindStmts_records hp rest hwithin.right

end

theorem bindBody_records (hp : p.IsRead) {body : Body} (hwithin : scope.Within p body.nodes) :
    Records p given (scope.refs body.nodes) (bindBody scope body) fun _ => [] := by
  rw [Body.nodes] at hwithin ⊢
  rw [Scope.refs_append]
  unfold bindBody
  have hblock := hwithin.left
  cases hbody : body.block with
  | some block =>
    rw [hbody] at hblock
    exact (bindStmts_records hp block.statements hblock).withLocals.next fun _ =>
      bindOption_records hp hwithin.right
  | none => exact bindOption_records hp hwithin.right

end PropertyLint
