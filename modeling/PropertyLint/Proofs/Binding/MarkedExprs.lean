/-
# Names in expressions are marked

Binding an expression or a statement marks the names in it (`bindExpr_marks`, `bindBody_marks`):
only names refer to fields, and the constants of literals, sums and the like are those of nodes that
are no names.
-/
import PropertyLint.Proofs.Binding.Marks

namespace PropertyLint

open Binder

variable {p : Project} {c c' : Compilation} {scope : Scope} {node : Node} {ns : List SyntaxNode}
  {e : Expr} {m : Meaning}

/-- Only an identifier or a name behind a dot has the node of a name. -/
theorem Scope.Within.not_isName (h : scope.Within p ns) (hp : p.IsRead) (he : .expr e ∈ ns)
    (hnot : e.isReference = false) : ¬ p.IsName ⟨scope.file, e.id⟩ := by
  rintro ⟨e', hwrites, hid, hreference⟩
  obtain rfl := (h.writes he).unique hp hwrites hid
  rw [hnot] at hreference
  cases hreference

/-! ## Names -/

theorem bindLiteral_marks (h : ¬ p.IsName ⟨scope.file, node.id⟩) (l : Literal) :
    Marks p c (bindLiteral scope node l) := by
  have hvalue {c : Compilation} (k : KeywordType) :
      Marks p c (do return Meaning.value (← keywordType? k)) :=
    (typeNamed?_marks _).bind (finds_typeNamed? _) fun _ _ _ _ => .pure _
  unfold bindLiteral
  cases l.constant? with
  | some v =>
    refine (recordConstant_marks h v).bind (finds_recordConstant (Set.mem_univ _) v)
      fun _ _ _ _ => ?_
    cases l.type? with
    | some k => exact hvalue k
    | none => exact .pure _
  | none =>
    cases l.type? with
    | some k => exact hvalue k
    | none => exact .pure _

theorem bindIdentifier_marks (hscope : scope.Sound c) (node : Node) (name : String) :
    Marks p c (bindIdentifier scope node name) := by
  refine Marks.get fun s hs hle hapart => ?_
  split
  next found hfound =>
    have hvalid := hs.locals _ (mem_of_lookup hfound)
    have hlocal := hapart.locals _ (mem_of_lookup hfound)
    exact (recordSymbol_marks (.inl hlocal)).bind (finds_recordSymbol (Set.mem_univ _) hvalid)
      fun _ _ _ _ => .pure _
  next =>
    dsimp only
    split
    · exact memberMeaning_marks node _
    · refine (simpleType_marks name []).bind
        (simpleType_finds (hscope.mono hle) (List.forall_mem_nil _)) fun c₁ found _ _ => ?_
      cases found with
      | some t => exact .pure _
      | none => exact .comp fun _ _ _ => .pure _

theorem bindMember_marks (node : Node) (target : Meaning) (name : String) :
    Marks p c (bindMember scope node target name) := by
  refine Marks.comp fun c₁ hc₁ _ => ?_
  cases target with
  | namespaceName container =>
    dsimp only
    split <;> exact .pure _
  | type t =>
    dsimp only
    split
    · exact (nestedType_marks t name []).bind (nestedType_finds (List.forall_mem_nil _))
        fun _ _ _ _ => .pure _
    · exact memberMeaning_marks node _
  | value found =>
    cases found with
    | some t => exact memberMeaning_marks node _
    | none => exact .pure _
  | methods _ | nothing => exact .pure _

/-! ## Calls -/

theorem bindCall_marks (callee : Node) (hm : m.Sound c) (args : List PassedArg) :
    Marks p c (bindCall scope node callee m args) := by
  cases m with
  | methods candidates =>
    refine compWithKnown_marks.bind finds_compWithKnown fun c₁ known _ ⟨_, _, hle₁⟩ => ?_
    split
    next method hmethod =>
      have hno := (Compilation.isNoField_of_pickOverload hmethod).mono hle₁
      have hhas := hno.has
      refine (recordSymbol_marks (.inl hno)).bind (finds_recordSymbol (Set.mem_univ _) hhas)
        fun c₂ _ hle₂ _ => ?_
      exact (recordSymbol_marks (.inl (hno.mono hle₂))).bind
        (finds_recordSymbol (Set.mem_univ _) (hhas.mono hle₂)) fun _ _ _ _ => .pure _
    next => exact .pure _
  | _ => exact .pure _

theorem bindConstructor_marks (node : NodeId) (type : SymbolId) (args : List PassedArg) :
    Marks p c (bindConstructor scope node type args) := by
  refine compWithKnown_marks.bind finds_compWithKnown fun c₁ known _ ⟨_, _, hle₁⟩ => ?_
  split
  next method hmethod =>
    exact recordSymbol_marks (.inl ((Compilation.isNoField_of_pickOverload hmethod).mono hle₁))
  next => exact .pure _

/-! ## Operators -/

theorem bindSum_marks (h : ¬ p.IsName ⟨scope.file, node.id⟩) (left right : Node)
    (leftType rightType : Option SymbolId) :
    Marks p c (bindSum scope node left right leftType rightType) := by
  refine (typeNamed?_marks _).bind (finds_typeNamed? _) fun c₁ string _ _ => ?_
  dsimp only
  split
  · refine .constant? fun a => .constant? fun b => ?_
    split
    · exact (recordConstant_marks h _).bind (finds_recordConstant (Set.mem_univ _) _)
        fun _ _ _ _ => .pure _
    · exact .pure _
  · exact .pure _

theorem bindBinary_marks (h : ¬ p.IsName ⟨scope.file, node.id⟩) (op : BinaryOp)
    (left right : Node) (leftType rightType : Option SymbolId) :
    Marks p c (bindBinary scope node op left right leftType rightType) := by
  cases op with
  | add => exact bindSum_marks h _ _ _ _
  | sub | mul | div | rem | coalesce => exact .pure _
  | _ => exact (typeNamed?_marks _).bind (finds_typeNamed? _) fun _ _ _ _ => .pure _

theorem arrayType_marks (hp : p.IsRead) {element : TypeRef}
    (hwithin : scope.Within p element.nodes) : Marks p c (arrayType scope element) :=
  (arrayType_calm element).marks
    (arrayType_records (hwithin.covers_type hp (List.Subset.refl _)))

theorem resolveType_marks (hp : p.IsRead) {type : TypeRef} (hwithin : scope.Within p type.nodes) :
    Marks p c (resolveType scope type) :=
  (resolveType_calm type).marks (resolveType_records type
    (hwithin.covers_type hp (List.Subset.refl _)))

/-! ## Expressions -/

theorem recordMeaning_marks (node : Node) (hm : m.Sound c) :
    Marks p c (recordMeaning scope node m) := by
  unfold recordMeaning
  split
  next t =>
    exact (recordType_marks _ t).bind (finds_recordType (hm t rfl)) fun _ _ _ _ => .pure _
  next t =>
    have ht : c.IsType t := hm
    exact (recordSymbol_marks (.inl ht.isNoField)).bind
      (finds_recordSymbol (Set.mem_univ _) ht.has) fun _ _ _ _ => .pure _
  next => exact .pure _

/-- The meaning that a step finds is recorded. -/
theorem recordStep_marks {step : Binder Meaning} (hfinds : FindsMeaning Set.univ c step)
    (h : Marks p c step) : Marks p c (do recordMeaning scope node (← step)) :=
  h.bind hfinds fun _ _ _ hm => recordMeaning_marks node hm

/-- What is found is recorded as the type of a value. -/
theorem recordFound_marks {step : Binder (Option SymbolId)} (hfinds : FindsType Set.univ c step)
    (h : Marks p c step) : Marks p c (do recordMeaning scope node (.value (← step))) :=
  h.bind hfinds fun _ _ _ hfound => recordMeaning_marks node hfound

theorem recordNamed_marks (name : String) :
    Marks p c (do recordMeaning scope node (.value (← typeNamed? name))) :=
  recordFound_marks (finds_typeNamed? name) (typeNamed?_marks name)

theorem recordWritten_marks (hp : p.IsRead) (hscope : scope.Sound c) {type : TypeRef}
    (hwithin : scope.Within p type.nodes) :
    Marks p c (do recordMeaning scope node (.value (← resolveType scope type))) :=
  recordFound_marks (resolveType_finds hscope type Scope.covers_univ) (resolveType_marks hp hwithin)

mutual

/-- Binding an expression marks the names in it. -/
theorem bindExpr_marks {c : Compilation} (hp : p.IsRead) (hscope : scope.Sound c) :
    ∀ e : Expr, scope.Within p e.nodes → Marks p c (bindExpr scope e)
  | .literal node value, hwithin => by
    have hnode := hwithin.not_isName hp (Expr.mem_nodes _) rfl
    rw [bindExpr]
    exact recordStep_marks (bindLiteral_finds (Set.mem_univ _) value)
      (bindLiteral_marks hnode value)
  | .identifier node name, _ => by
    rw [bindExpr]
    exact recordStep_marks (bindIdentifier_finds hscope (Set.mem_univ _) name.text)
      (bindIdentifier_marks hscope node name.text)
  | .self node, _ => by
    rw [bindExpr]
    exact recordMeaning_marks node hscope.type
  | .base node, _ => by
    rw [bindExpr]
    refine Marks.comp fun c₁ hc₁ _ => recordMeaning_marks node fun t ht => ?_
    obtain ⟨type, htype, hbase⟩ := Option.bind_eq_some_iff.1 ht
    obtain ⟨id, -, hid⟩ := Option.bind_eq_some_iff.1 htype
    exact (hc₁.sound hid).base t hbase
  | .member node target name, hwithin => by
    rw [bindExpr]
    refine (bindExpr_marks hp hscope target hwithin.tail).bind
      (bindExpr_finds hscope target Scope.covers_univ) fun c₁ m _ _ => ?_
    exact recordStep_marks (bindMember_finds (Set.mem_univ _) m name.text)
      (bindMember_marks node m name.text)
  | .invoke node callee ⟨range, args⟩, hwithin => by
    have hnode := hwithin.not_isName hp (Expr.mem_nodes _) rfl
    have hparts : scope.Within p (callee.nodes ++ nodesOfArgs args) := hwithin.tail
    rw [bindExpr]
    split
    · refine (bindFirst_marks hp hscope args hparts.right).bind
        (bindFirst_finds hscope args Scope.covers_univ) fun c₁ text _ _ => ?_
      cases text with
      | some text =>
        exact (recordConstant_marks hnode _).bind (finds_recordConstant (Set.mem_univ _) _)
          fun _ _ _ _ => recordNamed_marks _
      | none => exact recordNamed_marks _
    · refine (bindArgs_marks hp hscope args hparts.right).bind
        (bindArgs_finds hscope args Scope.covers_univ) fun c₁ passed hle₁ _ => ?_
      have hscope₁ := hscope.mono hle₁
      refine (bindExpr_marks hp hscope₁ callee hparts.left).bind
        (bindExpr_finds hscope₁ callee Scope.covers_univ) fun c₂ m _ hm => ?_
      exact recordStep_marks (bindCall_finds (Set.mem_univ _) (Set.mem_univ _) hm passed)
        (bindCall_marks callee.node hm passed)
  | .create node type none, hwithin => by
    have htype : scope.Within p type.nodes := hwithin.tail
    rw [bindExpr]
    refine (resolveType_marks hp htype).bind (resolveType_finds hscope type Scope.covers_univ)
      fun c₁ created _ hcreated => ?_
    cases created with
    | some t =>
      exact (bindConstructor_marks _ t []).bind (bindConstructor_finds (Set.mem_univ _) t [])
        fun _ _ hle _ => recordMeaning_marks node fun t ht => (hcreated t ht).mono hle
    | none => exact recordMeaning_marks node hcreated
  | .create node type (some ⟨_, args⟩), hwithin => by
    have hparts : scope.Within p (type.nodes ++ nodesOfArgs args) := hwithin.tail
    rw [bindExpr]
    refine (resolveType_marks hp hparts.left).bind (resolveType_finds hscope type Scope.covers_univ)
      fun c₁ created hle₁ hcreated => ?_
    have hscope₁ := hscope.mono hle₁
    refine (bindArgs_marks hp hscope₁ args hparts.right).bind
      (bindArgs_finds hscope₁ args Scope.covers_univ) fun c₂ passed hle₂ _ => ?_
    have hcreated : ∀ t ∈ created, c₂.IsType t := fun t ht => (hcreated t ht).mono hle₂
    cases created with
    | some t =>
      exact (bindConstructor_marks _ t passed).bind
        (bindConstructor_finds (Set.mem_univ _) t passed) fun _ _ hle _ =>
          recordMeaning_marks node fun t ht => (hcreated t ht).mono hle
    | none => exact recordMeaning_marks node hcreated
  | .createArray node type none, hwithin => by
    have htype : scope.Within p type.nodes := hwithin.tail
    rw [bindExpr]
    exact recordFound_marks (arrayType_finds hscope type Scope.covers_univ)
      (arrayType_marks hp htype)
  | .createArray node type (some size), hwithin => by
    have hparts : scope.Within p (type.nodes ++ size.nodes) := hwithin.tail
    rw [bindExpr]
    refine (bindExpr_marks hp hscope size hparts.right).bind
      (bindExpr_finds hscope size Scope.covers_univ) fun c₁ _ hle₁ _ => ?_
    exact recordFound_marks (arrayType_finds (hscope.mono hle₁) type Scope.covers_univ)
      (arrayType_marks hp hparts.left)
  | .typeOf node type, hwithin => by
    have htype : scope.Within p type.nodes := hwithin.tail
    rw [bindExpr]
    exact (resolveType_marks hp htype).bind (resolveType_finds hscope type Scope.covers_univ)
      fun _ _ _ _ => recordNamed_marks _
  | .default node none, _ => by
    rw [bindExpr]
    exact recordMeaning_marks node fun _ ht => by cases ht
  | .default node (some type), hwithin => by
    have htype : scope.Within p type.nodes := hwithin.tail
    rw [bindExpr]
    exact recordWritten_marks hp hscope htype
  | .cast node type operand, hwithin => by
    have hparts : scope.Within p (type.nodes ++ operand.nodes) := hwithin.tail
    rw [bindExpr]
    refine (bindExpr_marks hp hscope operand hparts.right).bind
      (bindExpr_finds hscope operand Scope.covers_univ) fun c₁ _ hle₁ _ => ?_
    exact recordWritten_marks hp (hscope.mono hle₁) hparts.left
  | .asType node operand type, hwithin => by
    have hparts : scope.Within p (type.nodes ++ operand.nodes) := hwithin.tail
    rw [bindExpr]
    refine (bindExpr_marks hp hscope operand hparts.right).bind
      (bindExpr_finds hscope operand Scope.covers_univ) fun c₁ _ hle₁ _ => ?_
    exact recordWritten_marks hp (hscope.mono hle₁) hparts.left
  | .isType node operand type designation, hwithin => by
    have hparts : scope.Within p (type.nodes ++ operand.nodes) := hwithin.tail
    rw [bindExpr]
    refine (bindExpr_marks hp hscope operand hparts.right).bind
      (bindExpr_finds hscope operand Scope.covers_univ) fun c₁ _ hle₁ _ => ?_
    refine (resolveType_marks hp hparts.left).bind
      (resolveType_finds (hscope.mono hle₁) type Scope.covers_univ) fun c₂ found _ hfound => ?_
    cases designation with
    | some name =>
      refine (add_marks (Symbol.orderly_localVar _)).bind
        (finds_add hfound fun _ => Symbol.noConfusion) fun c₃ id _ hid => ?_
      have hno : c₃.IsNoField id := ⟨_, hid, fun _ => Symbol.noConfusion⟩
      exact (addLocal_marks hno _).bind (finds_addLocal (Compilation.has_of_symbol? hid))
        fun _ _ _ _ => recordNamed_marks _
    | none => exact recordNamed_marks _
  | .binary node op left right, hwithin => by
    have hnode := hwithin.not_isName hp (Expr.mem_nodes _) rfl
    have hparts : scope.Within p (left.nodes ++ right.nodes) := hwithin.tail
    rw [bindExpr]
    refine (bindExpr_marks hp hscope left hparts.left).bind
      (bindExpr_finds hscope left Scope.covers_univ) fun c₁ m hle₁ hm => ?_
    have hscope₁ := hscope.mono hle₁
    refine (bindExpr_marks hp hscope₁ right hparts.right).bind
      (bindExpr_finds hscope₁ right Scope.covers_univ) fun c₂ m' hle₂ hm' => ?_
    exact recordStep_marks
      (bindBinary_finds (Set.mem_univ _) (hm.mono hle₂).valueType? hm'.valueType? op)
      (bindBinary_marks hnode op _ _ _ _)
  | .unary node .not operand, hwithin => by
    have hoperand : scope.Within p operand.nodes := hwithin.tail
    rw [bindExpr]
    exact (bindExpr_marks hp hscope operand hoperand).bind
      (bindExpr_finds hscope operand Scope.covers_univ) fun _ _ _ _ => recordNamed_marks _
  | .unary node .neg operand, hwithin => by
    have hnode := hwithin.not_isName hp (Expr.mem_nodes _) rfl
    have hoperand : scope.Within p operand.nodes := hwithin.tail
    rw [bindExpr]
    refine (bindExpr_marks hp hscope operand hoperand).bind
      (bindExpr_finds hscope operand Scope.covers_univ) fun c₁ m _ hm => ?_
    refine .constant? fun found => ?_
    split
    · exact (recordConstant_marks hnode _).bind (finds_recordConstant (Set.mem_univ _) _)
        fun _ _ hle _ => recordMeaning_marks node (hm.mono hle).valueType?
    · exact recordMeaning_marks node hm.valueType?
  | .conditional node condition whenTrue whenFalse, hwithin => by
    have hparts : scope.Within p (condition.nodes ++ (whenTrue.nodes ++ whenFalse.nodes)) :=
      hwithin.tail
    rw [bindExpr]
    refine (bindExpr_marks hp hscope condition hparts.left).bind
      (bindExpr_finds hscope condition Scope.covers_univ) fun c₁ _ hle₁ _ => ?_
    have hscope₁ := hscope.mono hle₁
    refine (bindExpr_marks hp hscope₁ whenTrue hparts.right.left).bind
      (bindExpr_finds hscope₁ whenTrue Scope.covers_univ) fun c₂ yes hle₂ hyes => ?_
    have hscope₂ := hscope₁.mono hle₂
    refine (bindExpr_marks hp hscope₂ whenFalse hparts.right.right).bind
      (bindExpr_finds hscope₂ whenFalse Scope.covers_univ) fun c₃ no hle₃ hno => ?_
    refine compWithKnown_marks.bind finds_compWithKnown fun c₄ known hle₄ _ =>
      recordMeaning_marks node ?_
    exact Compilation.isType_unify (hyes.mono (le_trans hle₃ hle₄)).valueType?
      (hno.mono hle₄).valueType?
  | .assign node target value, hwithin => by
    have hparts : scope.Within p (target.nodes ++ value.nodes) := hwithin.tail
    rw [bindExpr]
    refine (bindExpr_marks hp hscope target hparts.left).bind
      (bindExpr_finds hscope target Scope.covers_univ) fun c₁ m hle₁ hm => ?_
    have hscope₁ := hscope.mono hle₁
    refine (bindExpr_marks hp hscope₁ value hparts.right).bind
      (bindExpr_finds hscope₁ value Scope.covers_univ) fun c₂ _ hle₂ _ => ?_
    exact recordMeaning_marks node (hm.mono hle₂).valueType?
  | .paren node inner, hwithin => by
    have hnode := hwithin.not_isName hp (Expr.mem_nodes _) rfl
    have hinner : scope.Within p inner.nodes := hwithin.tail
    rw [bindExpr]
    refine (bindExpr_marks hp hscope inner hinner).bind
      (bindExpr_finds hscope inner Scope.covers_univ) fun c₁ m _ hm => ?_
    exact (copyConstant_marks hnode).bind (finds_copyConstant (Set.mem_univ _))
      fun _ _ hle _ => recordMeaning_marks node (hm.mono hle)

theorem bindArgs_marks {c : Compilation} (hp : p.IsRead) (hscope : scope.Sound c) :
    ∀ args : List (Argument Expr), scope.Within p (nodesOfArgs args) →
      Marks p c (bindArgs scope args)
  | [], _ => .pure _
  | ⟨node, name, value⟩ :: rest, hwithin => by
    have hparts : scope.Within p (value.nodes ++ nodesOfArgs rest) := hwithin.tail
    rw [bindArgs]
    refine (bindExpr_marks hp hscope value hparts.left).bind
      (bindExpr_finds hscope value Scope.covers_univ) fun c₁ _ hle₁ _ => ?_
    have hscope₁ := hscope.mono hle₁
    exact (bindArgs_marks hp hscope₁ rest hparts.right).bind
      (bindArgs_finds hscope₁ rest Scope.covers_univ) fun _ _ _ _ => .pure _

theorem bindFirst_marks {c : Compilation} (hp : p.IsRead) (hscope : scope.Sound c) :
    ∀ args : List (Argument Expr), scope.Within p (nodesOfArgs args) →
      Marks p c (bindFirst scope args)
  | [], _ => .pure _
  | ⟨node, name, value⟩ :: rest, hwithin => by
    have hparts : scope.Within p (value.nodes ++ nodesOfArgs rest) := hwithin.tail
    rw [bindFirst]
    exact (bindExpr_marks hp hscope value hparts.left).bind
      (bindExpr_finds hscope value Scope.covers_univ) fun _ _ _ _ => .pure _

end

theorem bindValue_marks (hp : p.IsRead) (hscope : scope.Sound c)
    (hwithin : scope.Within p e.nodes) : Marks p c (bindValue scope e) :=
  (bindExpr_marks hp hscope e hwithin).bind (bindExpr_finds hscope e Scope.covers_univ)
    fun _ _ _ _ => .pure _

theorem bindOption_marks (hp : p.IsRead) (hscope : scope.Sound c) {e : Option Expr}
    (hwithin : scope.Within p (nodesOfOption Expr.nodes e)) : Marks p c (bindOption scope e) := by
  cases e with
  | some e =>
    exact (bindExpr_marks hp hscope e hwithin).discard (bindExpr_finds hscope e Scope.covers_univ)
  | none => exact .pure _

/-! ## Statements -/

theorem bindLocal_marks (hp : p.IsRead) (hscope : scope.Sound c) {type : TypeRef} {name : Ident}
    {init : Option Expr} (hwithin : scope.Within p (type.nodes ++ nodesOfOption Expr.nodes init)) :
    Marks p c (bindLocal scope node type name init) := by
  have hadd {c : Compilation} {found : Option SymbolId} (hfound : ∀ t ∈ found, c.IsType t) :
      Marks p c (do
        let id ← add (.localVar ⟨name.text, found, scope.sourceRef node⟩)
        declare scope node.id id
        addLocal name.text id) := by
    refine (add_marks (Symbol.orderly_localVar _)).bind
      (finds_add hfound fun _ => Symbol.noConfusion) fun c₁ id _ hid => ?_
    have hno : c₁.IsNoField id := ⟨_, hid, fun _ => Symbol.noConfusion⟩
    exact (declare_marks hno).bind (finds_declare (Compilation.has_of_symbol? hid))
      fun _ _ hle _ => addLocal_marks (hno.mono hle) _
  -- what follows the initial value
  have hdeclare {c : Compilation} {initType : Option SymbolId} (hscope : scope.Sound c)
      (hinit : ∀ t ∈ initType, c.IsType t) : Marks p c (do
        let type ← if type.isVar then pure initType else resolveType scope type
        let id ← add (.localVar ⟨name.text, type, scope.sourceRef node⟩)
        declare scope node.id id
        addLocal name.text id) := by
    dsimp only
    split
    · exact hadd hinit
    · exact (resolveType_marks hp hwithin.left).bind
        (resolveType_finds hscope type Scope.covers_univ) fun _ _ _ hfound => hadd hfound
  unfold bindLocal
  cases init with
  | some e =>
    exact (bindValue_marks hp hscope hwithin.right).bind (bindValue_finds hscope Scope.covers_univ)
      fun _ _ hle h => hdeclare (hscope.mono hle) h
  | none => exact hdeclare hscope fun _ ht => by cases ht

mutual

theorem bindStmt_marks {c : Compilation} (hp : p.IsRead) (hscope : scope.Sound c) :
    ∀ s : Stmt, scope.Within p s.nodes → Marks p c (bindStmt scope s)
  | .expression _ value, hwithin => by
    have hvalue : scope.Within p value.nodes := hwithin.tail
    rw [bindStmt]
    exact (bindExpr_marks hp hscope value hvalue).discard
      (bindExpr_finds hscope value Scope.covers_univ)
  | .returning _ value, hwithin | .throwing _ value, hwithin => by
    have hvalue : scope.Within p (nodesOfOption Expr.nodes value) := hwithin.tail
    rw [bindStmt]
    exact bindOption_marks hp hscope hvalue
  | .localDecl node type name init, hwithin => by
    have hparts : scope.Within p (type.nodes ++ nodesOfOption Expr.nodes init) := hwithin.tail
    rw [bindStmt]
    exact bindLocal_marks hp hscope hparts
  | .branch _ condition yes none, hwithin => by
    have hparts : scope.Within p (condition.nodes ++ yes.nodes) := hwithin.tail
    rw [bindStmt]
    refine (bindExpr_marks hp hscope condition hparts.left).bind
      (bindExpr_finds hscope condition Scope.covers_univ) fun c₁ _ hle₁ _ => ?_
    have hscope₁ := hscope.mono hle₁
    exact (bindStmt_marks hp hscope₁ yes hparts.right).withLocals
      (bindStmt_finds hscope₁ yes Scope.covers_univ)
  | .branch _ condition yes (some no), hwithin => by
    have hparts : scope.Within p (condition.nodes ++ (yes.nodes ++ no.nodes)) := hwithin.tail
    rw [bindStmt]
    refine (bindExpr_marks hp hscope condition hparts.left).bind
      (bindExpr_finds hscope condition Scope.covers_univ) fun c₁ _ hle₁ _ => ?_
    have hscope₁ := hscope.mono hle₁
    have hyes := bindStmt_finds hscope₁ yes Scope.covers_univ
    refine ((bindStmt_marks hp hscope₁ yes hparts.right.left).withLocals hyes).bind
      (finds_withLocals hyes) fun c₂ _ hle₂ _ => ?_
    have hscope₂ := hscope₁.mono hle₂
    exact (bindStmt_marks hp hscope₂ no hparts.right.right).withLocals
      (bindStmt_finds hscope₂ no Scope.covers_univ)
  | .block _ ⟨_, statements⟩, hwithin => by
    have hparts : scope.Within p (nodesOfStmts statements) := hwithin.tail
    rw [bindStmt]
    exact (bindStmts_marks hp hscope statements hparts).withLocals
      (bindStmts_finds hscope statements Scope.covers_univ)
  | .empty _, _ => .pure _

theorem bindStmts_marks {c : Compilation} (hp : p.IsRead) (hscope : scope.Sound c) :
    ∀ ss : List Stmt, scope.Within p (nodesOfStmts ss) → Marks p c (bindStmts scope ss)
  | [], _ => .pure _
  | s :: rest, hwithin => by
    rw [nodesOfStmts] at hwithin
    rw [bindStmts]
    exact (bindStmt_marks hp hscope s hwithin.left).bind
      (bindStmt_finds hscope s Scope.covers_univ) fun _ _ hle _ =>
        bindStmts_marks hp (hscope.mono hle) rest hwithin.right

end

theorem bindBody_marks (hp : p.IsRead) (hscope : scope.Sound c) {body : Body}
    (hwithin : scope.Within p body.nodes) : Marks p c (bindBody scope body) := by
  rw [Body.nodes] at hwithin
  have hblock := hwithin.left
  unfold bindBody
  cases hbody : body.block with
  | some block =>
    rw [hbody] at hblock
    have hfinds := bindStmts_finds hscope block.statements Scope.covers_univ
    refine ((bindStmts_marks hp hscope block.statements hblock).withLocals hfinds).bind
      (finds_withLocals hfinds) fun _ _ hle _ => ?_
    exact bindOption_marks hp (hscope.mono hle) hwithin.right
  | none => exact bindOption_marks hp hscope hwithin.right

end PropertyLint
