/-
# What binding a project records

The initial values of constant fields are bound when the fields are evaluated, all other expressions
with the attributes of the assembly (`bindAssembly_records`) or the bodies of their types
(`bindTypeBody_records`).
-/
import PropertyLint.Proofs.Binding.Bodies
import PropertyLint.Proofs.Binding.RecordedExprs

namespace PropertyLint

open Binder

variable {p : Project} {given : Prop} {scope : Scope} {ns : List SyntaxNode} {v : Constant}

/-! ## Attributes -/

theorem bindAttributeArgs_records (hp : p.IsRead) (class? : Option SymbolId)
    (args : List (Argument Expr)) (hwithin : scope.Within p (nodesOfArgs args)) :
    Records p given (scope.refs (nodesOfArgs args)) (bindAttributeArgs scope class? args)
      fun _ => [] := by
  induction args with
  | nil => exact .pure (.refl _)
  | cons arg rest ih =>
    have hparts : scope.Within p (arg.value.nodes ++ nodesOfArgs rest) := hwithin.tail
    have ih := ih hparts.right
    rw [bindAttributeArgs, nodesOfArgs, Scope.refs_cons, Scope.refs_append]
    refine .around ?_
    rw [List.append_assoc]
    refine (bindValue_records hp hparts.left).next fun type => ?_
    split
    next ident _ =>
      cases class? with
      | none => exact ih.mono (.of_sublist (List.sublist_append_left _ _))
      | some owner =>
        refine .comp fun c => ?_
        dsimp only
        split
        · refine .mono ?_ (.of_perm List.perm_append_comm)
          exact (recordSymbol_records _ _).next fun _ => ih
        · exact ih.mono (.of_sublist (List.sublist_append_left _ _))
    next =>
      exact ih.next fun _ => .pure (.of_sublist (List.nil_sublist _))

theorem bindAttribute_records (hp : p.IsRead) (a : Attribute) (hwithin : scope.Within p a.nodes) :
    Records p given (scope.refs a.nodes) (bindAttribute scope a) fun _ => [] := by
  rw [Attribute.nodes] at hwithin ⊢
  have hname := hwithin.tail.left.covers_type hp (List.Subset.refl _)
  have hargs : scope.Within p (nodesOfArgs ((a.args.map ArgumentList.args).getD [])) :=
    hwithin.tail.right.mono (by cases a.args <;> simp [nodesOfOption, nodesOfArgs])
  have hrefs : scope.refs (nodesOfArgs ((a.args.map ArgumentList.args).getD [])) =
      scope.refs (nodesOfOption (fun list => nodesOfArgs list.args) a.args) := by
    cases a.args <;> rfl
  rw [Scope.refs_cons, Scope.refs_append, ← hrefs]
  unfold bindAttribute
  refine .around ?_
  rw [List.append_assoc]
  refine .drop <| (resolveAttributeClass_records hname).next fun class? => ?_
  refine (bindAttributeArgs_records hp class? _ hargs).next fun passed => ?_
  cases class? with
  | none => exact .pure (.of_sublist (List.nil_sublist _))
  | some owner => exact (quiet_recordType _ _).next fun _ => bindConstructor_records _ _ _

theorem Scope.refs_flatMap {α : Type} (f : α → List SyntaxNode) (as : List α) :
    scope.refs (as.flatMap f) = as.flatMap fun a => scope.refs (f a) :=
  List.map_flatMap

theorem bindAttributes_records (hp : p.IsRead) (as : List Attribute)
    (hwithin : scope.Within p (nodesOfAttributes as)) :
    Records p given (scope.refs (nodesOfAttributes as)) (bindAttributes scope as)
      fun _ => [] := by
  rw [nodesOfAttributes, Scope.refs_flatMap]
  refine forM_records fun a ha => bindAttribute_records hp a (hwithin.mono fun n hn => ?_)
  exact List.mem_flatMap.2 ⟨a, ha, hn⟩

/-! ## Bodies -/

theorem bindParams_records (hp : p.IsRead) (params : List Parameter)
    (hwithin : scope.Within p (params.flatMap Parameter.nodes)) :
    Records p given (scope.refs (params.flatMap Parameter.nodes)) (bindParams scope params)
      fun _ => [] := by
  rw [Scope.refs_flatMap]
  refine forM_records fun q hq => ?_
  have hwithin : scope.Within p q.nodes := hwithin.mono fun n hn => List.mem_flatMap.2 ⟨q, hq, hn⟩
  rw [Parameter.nodes] at hwithin ⊢
  rw [Scope.refs_cons, Scope.refs_append, Scope.refs_append, List.append_assoc]
  refine .skip <| (bindAttributes_records hp _ hwithin.tail.left.left).next fun _ => ?_
  exact .drop (bindOption_records hp hwithin.tail.right)

theorem bindCallable_records (hp : p.IsRead) (params : List Parameter) (body : Body)
    (hwithin : scope.Within p (params.flatMap Parameter.nodes ++ body.nodes)) :
    Records p given (scope.refs (params.flatMap Parameter.nodes ++ body.nodes))
      (bindCallable scope params body) fun _ => [] := by
  rw [Scope.refs_append]
  exact .get fun _ => .inFreshScope _ <| (bindParams_records hp params hwithin.left).next fun _ =>
    bindBody_records hp hwithin.right

theorem bindAccessor_records (hp : p.IsRead) (propertyType : Option SymbolId) (isSetter : Bool)
    (a : Accessor) (hwithin : scope.Within p a.nodes) :
    Records p given (scope.refs a.nodes) (bindAccessor scope propertyType isSetter a)
      fun _ => [] := by
  rw [Accessor.nodes] at hwithin ⊢
  have hbody : Records p given (scope.refs a.body.nodes) (bindBody scope a.body) fun _ => [] :=
    bindBody_records hp hwithin.tail
  refine .skip (.inFreshScope _ ?_)
  dsimp only
  split
  · exact (quiet_change _).next fun _ => (quiet_addLocal _ _).next fun _ => hbody
  · exact hbody

theorem bindProperty_records (hp : p.IsRead) (d : PropertyDecl)
    (hwithin : scope.Within p (nodesOfOption Expr.nodes d.arrow ++
      d.accessors.flatMap Accessor.nodes ++ nodesOfOption Expr.nodes d.init)) :
    Records p given (scope.refs (nodesOfOption Expr.nodes d.arrow ++
      d.accessors.flatMap Accessor.nodes ++ nodesOfOption Expr.nodes d.init))
      (bindProperty scope d) fun _ => [] := by
  rw [Scope.refs_append, Scope.refs_append, Scope.refs_flatMap, List.append_assoc]
  refine .get fun s => .inFreshScope _ ?_
  refine (bindOption_records hp hwithin.left.left).next fun _ => ?_
  refine Records.next (forM_records fun a ha => ?_) fun _ => bindOption_records hp hwithin.right
  refine bindAccessor_records hp _ _ a (hwithin.left.right.mono fun n hn => ?_)
  exact List.mem_flatMap.2 ⟨a, ha, hn⟩

theorem methodTypeParamsOf_quiet (m : MethodDecl) : Quiet (methodTypeParamsOf scope m) :=
  fun _ => ⟨rfl, rfl, rfl⟩

theorem bindMemberBody_records (hp : p.IsRead) {m : Member} (hm : m.isType = false)
    (hwithin : scope.Within p m.boundNodes) :
    Records p given (scope.refs m.boundNodes) (bindMemberBody scope m) fun _ => [] := by
  unfold bindMemberBody
  cases m with
  | field d =>
    rw [Member.boundNodes] at hwithin ⊢
    rw [Scope.refs_append]
    refine (bindAttributes_records hp _ hwithin.left).next fun _ => ?_
    have hinit := hwithin.right
    by_cases hconst : d.modifiers.has .const = true
    · rw [if_pos hconst]
      dsimp only
      rw [if_neg (by simp [hconst])]
      exact .pure (.refl _)
    · rw [if_neg hconst] at hinit ⊢
      dsimp only
      rw [if_pos (by simp [hconst])]
      exact bindOption_records hp hinit
  | property d =>
    rw [Member.boundNodes, PropertyDecl.nodes] at hwithin ⊢
    simp only [List.append_assoc] at hwithin ⊢
    rw [Scope.refs_append, Scope.refs_append]
    refine (bindAttributes_records hp _ hwithin.left).next fun _ => .drop ?_
    rw [← List.append_assoc]
    refine bindProperty_records hp d ?_
    rw [List.append_assoc]
    exact hwithin.right.right
  | method d =>
    rw [Member.boundNodes, MethodDecl.nodes] at hwithin ⊢
    simp only [List.append_assoc] at hwithin ⊢
    rw [Scope.refs_append, Scope.refs_append, Scope.refs_append]
    refine (bindAttributes_records hp _ hwithin.left).next fun _ => .drop (.drop ?_)
    refine (methodTypeParamsOf_quiet d).next fun typeParams => ?_
    exact bindCallable_records hp d.params d.body hwithin.right.right.right
  | constructor d =>
    rw [Member.boundNodes, ConstructorDecl.nodes] at hwithin ⊢
    rw [List.append_assoc] at hwithin ⊢
    rw [Scope.refs_append]
    exact (bindAttributes_records hp _ hwithin.left).next fun _ =>
      bindCallable_records hp d.params d.body hwithin.right
  | type d => cases hm

theorem bindTypeBody_records (hp : p.IsRead) (d : DeclaredType)
    (hwithin : d.scope.Within p d.decl.boundNodes) :
    Records p given (d.scope.refs d.decl.boundNodes) (bindTypeBody d) fun _ => [] := by
  rw [TypeDecl.boundNodes] at hwithin ⊢
  rw [Scope.refs_append, Scope.refs_flatMap]
  refine .inFreshScope _ ((bindAttributes_records hp _ hwithin.left).next fun _ => ?_)
  refine forM_records fun m hm => bindMemberBody_records hp ?_ (hwithin.right.mono fun n hn => ?_)
  · simpa using (List.mem_filter.1 hm).2
  · exact List.mem_flatMap.2 ⟨m, hm, hn⟩

theorem bindAssembly_records (hp : p.IsRead) (source : Source)
    (hwithin : source.scope.Within p (nodesOfAttributes source.root.attributes)) :
    Records p given (source.scope.refs (nodesOfAttributes source.root.attributes))
      (bindAssembly source) fun _ => [] :=
  .inFreshScope _ (bindAttributes_records hp _ hwithin)

/-! ## Constant fields -/

/-- A literal is recorded with its own constant. -/
theorem bindExpr_literal_constants (scope : Scope) (node : Node) {l : Literal}
    (hv : l.constant? = some v) (s : BindState) :
    ((bindExpr scope (.literal node l)).run s).2.facts.constants =
      (⟨scope.file, node.id⟩, v) :: s.facts.constants := by
  have hmeaning (found : Option SymbolId) :
      Quiet (recordMeaning scope node (.value found)) := by
    cases found with
    | some t => exact (quiet_recordType _ _).bind fun _ => .pure _
    | none => exact .pure _
  rw [bindExpr, bindLiteral, hv]
  cases l.type? with
  | some k =>
    have hrest : Quiet (do recordMeaning scope node (.value (← keywordType? k))) :=
      (quiet_typeNamed? _).bind hmeaning
    exact (hrest { s with facts := s.facts.addConstant ⟨scope.file, node.id⟩ v }).2.1
  | none => exact (hmeaning none { s with facts := s.facts.addConstant _ v }).2.1

theorem recordMeaning_constants (scope : Scope) (node : Node) (m : Meaning) (s : BindState) :
    ((recordMeaning scope node m).run s).2.facts.constants = s.facts.constants := by
  cases m with
  | value found => cases found <;> rfl
  | _ => rfl

/-- A value that is put together from literals is recorded for the whole of it. -/
theorem bindExpr_plainValue (scope : Scope) {e : Expr} (hv : e.plainValue? = some v)
    (s : BindState) :
    ((bindExpr scope e).run s).2.facts.constant? ⟨scope.file, e.id⟩ = some v := by
  fun_induction Expr.plainValue? e generalizing v with
  | case1 node l =>
    rw [Facts.constant?, bindExpr_literal_constants scope node hv]
    exact List.lookup_cons_self
  | case2 node inner ih =>
    have hinner := ih hv
    cases hrun : (bindExpr scope inner).run s with
    | mk m s' =>
      rw [hrun] at hinner
      have hknown : (Binder.constant? scope inner.id).run s' = (some v, s') := by
        rw [← hinner]
        rfl
      have hcopy : (Binder.copyConstant scope inner.id node.id).run s' =
          ((), { s' with facts := s'.facts.addConstant ⟨scope.file, node.id⟩ v }) := by
        rw [Binder.copyConstant, bind_run hknown]
        rfl
      rw [bindExpr, bind_run hrun, bind_run hcopy, Facts.constant?, recordMeaning_constants]
      exact List.lookup_cons_self
  | case3 node operand value hvalue ih =>
    obtain rfl := Option.some.inj hv
    have hoperand := ih hvalue
    cases hrun : (bindExpr scope operand).run s with
    | mk m s' =>
      rw [hrun] at hoperand
      have hknown : (Binder.constant? scope operand.id).run s' = (some (.integer value), s') := by
        rw [← hoperand]
        rfl
      have hrecord : (Binder.recordConstant scope node.id (.integer (-value))).run s' =
          ((), { s' with
            facts := s'.facts.addConstant ⟨scope.file, node.id⟩ (.integer (-value)) }) := rfl
      rw [bindExpr, bind_run hrun, bind_run hknown]
      dsimp only
      rw [bind_run hrecord, Facts.constant?, recordMeaning_constants]
      exact List.lookup_cons_self
  | case4 => cases hv
  | case5 => cases hv

theorem ConstField.bound_plainValue {f : ConstField} (hv : f.init.plainValue? = some v)
    (s : BindState) : (f.bound s).facts.constant? ⟨f.scope.file, f.init.id⟩ = some v :=
  bindExpr_plainValue f.scope hv { s with locals := [] }

theorem ConstField.mem_constants {f : ConstField} (hv : f.init.plainValue? = some v)
    (s : BindState) :
    (⟨f.scope.file, f.init.id⟩, v) ∈ ((bindConstField f).run s).2.facts.constants := by
  rw [bindConstField_run]
  exact mem_of_lookup (f.bound_plainValue hv s)

/-- The constant of a field is the value of its initial value. -/
theorem bindConstField_records {f : ConstField} {ms : List NodeRef}
    (hinit : p.HasInitialValue f.symbol f.scope.file f.init)
    (hexpr : Records p given ms (bindExpr f.scope f.init) fun _ => [])
    (hvalue : ∀ s v, (f.bound s).Evaluated p →
      (f.bound s).facts.constant? ⟨f.scope.file, f.init.id⟩ = some v →
      p.Evaluates f.scope.file f.init v) :
    Records p given ms (bindConstField f) fun _ => [] := by
  intro s
  obtain ⟨new, hnew, hmost, hconstants, heval⟩ := hexpr.discard.inFreshScope [] s
  rw [bindConstField_run]
  refine ⟨new, hnew, hmost, hconstants, fun hgiven hfollows hs => ?_⟩
  have hbound : (f.bound s).Evaluated p := heval hgiven hfollows hs
  refine ⟨hbound.1, List.forall_mem_append.2 ⟨fun r hr => ?_, hbound.2⟩⟩
  obtain ⟨v, hv, rfl⟩ := Option.map_eq_some_iff.1 (Option.mem_toList.1 hr)
  exact ⟨_, _, hinit, hvalue s v hbound hv⟩

/-- Initial values that are written in the files. -/
theorem bindConstField_records_written (hp : p.IsRead) {f : ConstField}
    (hinit : p.HasInitialValue f.symbol f.scope.file f.init)
    (hwithin : f.scope.Within p f.init.nodes) :
    Records p given (f.scope.refs f.init.nodes) (bindConstField f) fun _ => [] := by
  refine bindConstField_records hinit ?_ fun s v hs hv => ?_
  · exact (bindExpr_records hp f.init hwithin).leave fun _ => .of_sublist (List.nil_sublist _)
  · exact hs.1 _ (mem_of_lookup hv) f.init (hwithin.writes f.init.mem_nodes) rfl

/-- Initial values of the framework. -/
theorem bindConstField_records_framework {f : ConstField} {node : Node} {value : Nat}
    (hinit : p.HasInitialValue f.symbol f.scope.file f.init) (hfile : f.scope.file = none)
    (hliteral : f.init = .literal node (.integer value)) :
    Records p given (f.scope.refs f.init.nodes) (bindConstField f) fun _ => [] := by
  refine bindConstField_records hinit ?_ fun s v hs hv => ?_
  · rw [hliteral, bindExpr]
    refine ((recordStep_records (bindLiteral_records fun v hv e hwrites => ?_)).free).leave
      fun _ => .of_sublist (List.nil_sublist _)
    -- the framework is no file
    obtain ⟨t, -, hsome, -⟩ := hwrites
    rw [hfile] at hsome
    cases hsome
  · have hplain : f.init.plainValue? = some (.integer value) := by rw [hliteral]; rfl
    obtain rfl := Option.some.inj ((f.bound_plainValue hplain s).symm.trans hv)
    exact .plain hplain

end PropertyLint
