/-
# Expressions are bound one by one

Binding an expression binds each expression in it once, and its type is that of its meaning
(`bindExpr_closes`).  Only a name that is called gets its symbol later, from the call
(`bindCalled_binds`).  Statements and bodies bind the expressions in them (`bindBody_binds`).
-/
import PropertyLint.Proofs.Binding.Bound
import PropertyLint.Proofs.Binding.Marks
import PropertyLint.Proofs.Binding.Overload

namespace PropertyLint

open Binder

variable {p : Project} {c : Compilation} {own refs : List NodeRef} {scope : Scope} {node : Node}
  {ns : List SyntaxNode} {e callee : Expr} {m : Meaning} {s s' t : BindState} {id : SymbolId}
  {name : String} {x : SyntaxNode} {n : NodeRef}

theorem Scope.Within.hasNode (h : scope.Within p ns) (hx : x ∈ ns) :
    p.HasNode ⟨scope.file, x.node.id⟩ x := by
  obtain ⟨t, ht, hfile, hnodes⟩ := h
  exact ⟨t, ht, hfile, hnodes hx, rfl⟩

theorem Project.HasNode.not_mem_typeRefs (h : p.HasNode n x) (hp : p.IsRead)
    (hno : ∀ d, x ≠ .member (.type d)) : n ∉ p.typeRefs := by
  obtain ⟨file, id⟩ := n
  obtain ⟨t, ht, rfl, hx, rfl⟩ := h
  exact hp.not_mem_typeRefs ht hx hno

theorem Project.HasNode.not_mem_declarationRefs (h : p.HasNode n x) (hp : p.IsRead)
    (hno : ∀ m, x ≠ .member m) : n ∉ p.declarationRefs := by
  obtain ⟨file, id⟩ := n
  obtain ⟨t, ht, rfl, hx, rfl⟩ := h
  exact hp.not_mem_declarationRefs ht hx hno

/-! ## Primitive steps -/

theorem lookup_cons_of_ne {n' : NodeRef} (hne : n ≠ n') (id : SymbolId)
    (rs : List (NodeRef × SymbolId)) : ((n', id) :: rs).lookup n = rs.lookup n := by
  rw [List.lookup_cons, beq_eq_false_iff_ne.2 hne]

/-- The symbol of a node that is given or no expression. -/
theorem recordSymbol_keeps {node : NodeId}
    (h : ⟨scope.file, node⟩ ∈ own ∨ ⟨scope.file, node⟩ ∈ p.others) (id : SymbolId) :
    Keeps p own (recordSymbol scope node id) := by
  intro s
  have hrefl : s.Keeps p own s := .refl s
  refine { hrefl with symbols := fun n hn hexpr => ?_ }
  have hne : n ≠ ⟨scope.file, node⟩ := fun heq =>
    h.elim (fun hown => hn (heq ▸ hown)) fun hother => hother (heq ▸ hexpr)
  exact lookup_cons_of_ne hne id _

/-- The type of a node that is no expression. -/
theorem recordType_keeps {node : NodeId} (h : ⟨scope.file, node⟩ ∈ p.others)
    (id : SymbolId) : Keeps p own (recordType scope node id) := by
  intro s
  have hrefl : s.Keeps p own s := .refl s
  refine { hrefl with types := fun n hexpr => ?_ }
  have hne : n ≠ ⟨scope.file, node⟩ := fun heq => h (heq ▸ hexpr)
  exact lookup_cons_of_ne hne id _

theorem recordConstant_keeps (node : NodeId) (v : Constant) :
    Keeps p own (recordConstant scope node v) := fun _ => { BindState.Keeps.refl _ with }

theorem constant?_keeps (node : NodeId) : Keeps p own (constant? scope node) := fun s => .refl s

theorem copyConstant_keeps (source target : NodeId) :
    Keeps p own (copyConstant scope source target) :=
  (constant?_keeps source).bind fun found => by
    cases found with
    | some v => exact recordConstant_keeps target v
    | none => exact .pure _

theorem typeNamed?_keeps (name : String) : Keeps p own (typeNamed? name) :=
  (typeNamed?_calm name).keeps_of_quiet (quiet_typeNamed? name)

theorem compWithKnown_keeps : Keeps p own compWithKnown :=
  compWithKnown_calm.keeps_of_quiet (quiet_change _)

theorem comp_keeps : Keeps p own Binder.comp := fun s => .refl s

theorem simpleType_keeps (name : String) (args : List SymbolId) :
    Keeps p own (simpleType scope name args) :=
  (simpleType_calm name args).keeps_of_quiet (quiet_simpleType name args)

theorem nestedType_keeps (outer : SymbolId) (name : String) (args : List SymbolId) :
    Keeps p own (nestedType outer name args) :=
  (nestedType_calm outer name args).keeps_of_quiet (quiet_nestedType outer name args)

theorem resolveType_keeps (hp : p.IsRead) {type : TypeRef} (hwithin : scope.Within p type.nodes) :
    Keeps p own (resolveType scope type) :=
  (resolveType_calm type).keeps
    (resolveType_records type (hwithin.covers_type hp (List.Subset.refl _)))

theorem arrayType_keeps (hp : p.IsRead) {element : TypeRef}
    (hwithin : scope.Within p element.nodes) : Keeps p own (arrayType scope element) :=
  (arrayType_calm element).keeps
    (arrayType_records (hwithin.covers_type hp (List.Subset.refl _)))

/-- A symbol has been added and has come into scope under the name that one of the nodes brings. -/
theorem BindState.bound_introduce {symbol : Symbol} {declared : List (NodeRef × SymbolId)}
    (horderly : ∀ c, symbol.Orderly c) (hn : n ∈ own ++ refs) (hx : p.HasNode n x)
    (hintro : ∃ type, x.introduced? n.file type = some symbol) (hname : symbol.name = name)
    (hdeclares : s.Declares p.declarationRefs []
      { s with comp := (s.comp.add symbol).2, facts := { s.facts with declared } }) :
    s.Bound p s.locals own refs
      { s with
        comp := (s.comp.add symbol).2
        facts := { s.facts with declared }
        locals := (name, (s.comp.add symbol).1) :: s.locals } where
  comp := Compilation.extends_add (horderly s.comp)
  types _ _ _ := rfl
  symbols _ _ _ := rfl
  declared := { hdeclares with }
  locals l hl := by
    rcases List.mem_cons.1 hl with rfl | hl
    · obtain ⟨type, hintro⟩ := hintro
      exact .inr ⟨n, hn, x, hx, .inl ⟨type, symbol, hintro, hname, Nat.le_refl _,
        Compilation.symbol?_add_size symbol⟩⟩
    · exact .inl hl
  exprs _ _ _ _ := .inl rfl

theorem add_addLocal_binds {symbol : Symbol} (horderly : ∀ c, symbol.Orderly c)
    (hn : n ∈ own ++ refs) (hx : p.HasNode n x)
    (hintro : ∃ type, x.introduced? n.file type = some symbol) (hname : symbol.name = name) :
    Binds p c own refs (add symbol >>= fun id => addLocal name id) := fun _ _ _ =>
  BindState.bound_introduce horderly hn hx hintro hname
    (.of_eq (Compilation.keepsPlaces_add _ symbol) rfl)

/-! ## Names -/

theorem bindLiteral_keeps (node : Node) (l : Literal) : Keeps p own (bindLiteral scope node l) := by
  have hvalue (k : KeywordType) : Keeps p own (do return Meaning.value (← keywordType? k)) :=
    (typeNamed?_keeps _).bind fun _ => .pure _
  unfold bindLiteral
  cases l.constant? with
  | some v =>
    refine (recordConstant_keeps node.id v).bind fun _ => ?_
    cases l.type? with
    | some k => exact hvalue k
    | none => exact .pure _
  | none =>
    cases l.type? with
    | some k => exact hvalue k
    | none => exact .pure _

theorem memberMeaning_keeps (h : ⟨scope.file, node.id⟩ ∈ own) (members : List SymbolId) :
    Keeps p own (memberMeaning scope node members) := by
  refine .get fun s => ?_
  cases members with
  | nil => exact .pure _
  | cons first rest =>
    dsimp only
    split
    · exact .pure _
    · refine (recordSymbol_keeps (.inl h) first).bind fun _ => ?_
      split
      · exact (recordConstant_keeps node.id _).bind fun _ => .pure _
      · exact .pure _

theorem bindIdentifier_keeps (h : ⟨scope.file, node.id⟩ ∈ own) (name : String) :
    Keeps p own (bindIdentifier scope node name) := by
  refine .get fun s => ?_
  split
  · exact (recordSymbol_keeps (.inl h) _).bind fun _ => .pure _
  · dsimp only
    split
    · exact memberMeaning_keeps h _
    · refine (simpleType_keeps name []).bind fun found => ?_
      cases found with
      | some t => exact .pure _
      | none => exact .comp fun _ => .pure _

theorem bindMember_keeps (h : ⟨scope.file, node.id⟩ ∈ own) (target : Meaning) (name : String) :
    Keeps p own (bindMember scope node target name) := by
  refine .comp fun c => ?_
  cases target with
  | namespaceName container =>
    dsimp only
    split <;> exact .pure _
  | type t =>
    dsimp only
    split
    · exact (nestedType_keeps t name []).bind fun _ => .pure _
    · exact memberMeaning_keeps h _
  | value found =>
    cases found with
    | some t => exact memberMeaning_keeps h _
    | none => exact .pure _
  | methods _ | nothing => exact .pure _

/-! ## Operators -/

theorem bindSum_keeps (node left right : Node) (leftType rightType : Option SymbolId) :
    Keeps p own (bindSum scope node left right leftType rightType) := by
  refine (typeNamed?_keeps _).bind fun string => ?_
  dsimp only
  split
  · refine (constant?_keeps left.id).bind fun a => (constant?_keeps right.id).bind fun b => ?_
    split
    · exact (recordConstant_keeps node.id _).bind fun _ => .pure _
    · exact .pure _
  · exact .pure _

theorem bindBinary_keeps (node : Node) (op : BinaryOp) (left right : Node)
    (leftType rightType : Option SymbolId) :
    Keeps p own (bindBinary scope node op left right leftType rightType) := by
  cases op with
  | add => exact bindSum_keeps _ _ _ _ _
  | sub | mul | div | rem | coalesce => exact .pure _
  | _ => exact (typeNamed?_keeps _).bind fun _ => .pure _

/-! ## Calls -/

theorem bindConstructor_keeps {node : NodeId}
    (h : ⟨scope.file, node⟩ ∈ own ∨ ⟨scope.file, node⟩ ∈ p.others) (type : SymbolId)
    (args : List PassedArg) : Keeps p own (bindConstructor scope node type args) := by
  refine compWithKnown_keeps.bind fun c => ?_
  split
  · exact recordSymbol_keeps h _
  · exact .pure _

/-- The step gives a value. -/
def Binder.GivesValue (step : Binder Meaning) : Prop := ∀ s, ∃ found, (step.run s).1 = .value found

namespace Binder.GivesValue

theorem pure (found : Option SymbolId) : GivesValue (pure (.value found)) := fun _ => ⟨found, rfl⟩

theorem bind {α : Type} {step : Binder α} {f : α → Binder Meaning} (h : ∀ a, GivesValue (f a)) :
    GivesValue (step >>= f) := fun s => h (step.run s).1 (step.run s).2

theorem recordMeaning (found : Option SymbolId) :
    GivesValue (PropertyLint.recordMeaning scope node (.value found)) :=
  fun s => ⟨found, recordMeaning_result scope node _ s⟩

end Binder.GivesValue

theorem bindCall_givesValue (scope : Scope) (node callee : Node) (m : Meaning)
    (args : List PassedArg) : GivesValue (bindCall scope node callee m args) := by
  cases m with
  | methods candidates =>
    refine .bind fun c => ?_
    split
    · exact .bind fun _ => .bind fun _ => .pure _
    · exact .pure _
  | _ => exact .pure _

/-- Calls and creations are values. -/
theorem bindExpr_givesValue (scope : Scope) {l : ArgumentList Expr}
    (h : e.argumentList? = some l) : GivesValue (bindExpr scope e) := by
  cases e with
  | invoke node callee args =>
    obtain ⟨range, args⟩ := args
    rw [bindExpr]
    split
    · refine .bind fun text => ?_
      cases text with
      | some text => exact .bind fun _ => .bind fun found => .recordMeaning found
      | none => exact .bind fun found => .recordMeaning found
    · refine .bind fun passed => .bind fun m s => ?_
      obtain ⟨found, hfound⟩ := bindCall_givesValue scope node callee.node m passed s
      exact ⟨found, (recordMeaning_result _ _ _ _).trans hfound⟩
  | create node type args =>
    cases h
    obtain ⟨range, args⟩ := l
    rw [bindExpr]
    refine .bind fun created => .bind fun passed => ?_
    cases created with
    | some t => exact .bind fun _ => .recordMeaning _
    | none => exact .recordMeaning _
  | _ => simp [Expr.argumentList?] at h

/-- The expression that is called gets the symbol of a method. -/
theorem BindState.Bound.called (h : s.Bound p s.locals own (scope.refs e.nodes) s') (hp : p.IsRead)
    (hruns : s.Runs p scope e s') (hargs : e.argumentList? = none)
    (hid : (s'.comp.method? id).isSome = true) : s.Bound p s.locals own (scope.refs e.nodes)
      { s' with facts := s'.facts.addSymbol ⟨scope.file, e.id⟩ id } := by
  have hmem : ⟨scope.file, e.id⟩ ∈ scope.refs e.nodes := List.mem_map_of_mem e.mem_nodes
  refine
    { comp := h.comp
      types := h.types
      symbols := fun n hn hexpr => ?_
      declared := { h.declared with }
      locals := h.locals
      exprs := fun file e' hwrites hmem' => ?_ }
  · have hne : n ≠ ⟨scope.file, e.id⟩ := by
      rintro rfl
      exact hn (List.mem_append_right _ hmem)
    exact (lookup_cons_of_ne hne id _).trans (h.symbols n hn hexpr)
  by_cases heq : (⟨file, e'.id⟩ : NodeRef) = ⟨scope.file, e.id⟩
  · obtain ⟨rfl, hsame⟩ := NodeRef.mk.inj heq
    obtain rfl := (hruns.within.writes e.mem_nodes).unique hp hwrites hsame
    refine .inr ⟨scope, s, rfl, List.Subset.refl _, ?_, .refl _, fun l hl => .inl hl⟩
    exact { hruns with symbol := .inr ⟨hargs, id, List.lookup_cons_self, hid⟩ }
  · have hsame := lookup_cons_of_ne heq id s'.facts.symbols
    refine (h.exprs file e' hwrites hmem').imp hsame.trans ?_
    rintro ⟨scope', t, rfl, hsubset, hruns', hext, hseen⟩
    exact ⟨scope', t, rfl, hsubset, hruns'.later (.refl _) (fun _ _ _ => rfl) hsame, hext, hseen⟩

/-- The method that is chosen is the symbol of the call and of what is called. -/
theorem bindCall_run (node callee : Node) (candidates : List SymbolId) (args : List PassedArg)
    (s : BindState) : ((bindCall scope node callee (.methods candidates) args).run s).2 =
      match s.comp.withKnown.pickOverload candidates args with
      | some method =>
        { s with
          comp := s.comp.withKnown
          facts := (s.facts.addSymbol ⟨scope.file, node.id⟩ method).addSymbol
            ⟨scope.file, callee.id⟩ method }
      | none => { s with comp := s.comp.withKnown } := by
  have hrun : (bindCall scope node callee (.methods candidates) args).run s =
      (match s.comp.withKnown.pickOverload candidates args with
        | some method => do
          recordSymbol scope node.id method
          recordSymbol scope callee.id method
          return .value ((s.comp.withKnown.method? method).bind MethodSymbol.returnType)
        | none => return .value none : Binder Meaning).run { s with comp := s.comp.withKnown } := rfl
  rw [hrun]
  cases s.comp.withKnown.pickOverload candidates args <;> rfl

theorem Compilation.isSome_method?_of_pickOverload {candidates : List SymbolId}
    {args : List PassedArg} (h : c.pickOverload candidates args = some id) :
    (c.method? id).isSome = true := by
  obtain ⟨score, -, -, -, hscore, -, -⟩ := callScore?_of_pickOverload h
  obtain ⟨params, hparams, -⟩ := callScore?_eq_some_iff.1 hscore
  obtain ⟨method, hmethod, -⟩ := Option.map_eq_some_iff.1 hparams
  rw [hmethod]
  rfl

/-- A call that is chosen among methods binds what is called. -/
theorem bindCalled_binds (hp : p.IsRead) (hscope : scope.Sound c)
    (hwithin : scope.Within p callee.nodes)
    (hcallee : Closes p c scope callee callee.nodes.tail (bindExpr scope callee)) (node : Node)
    (args : List PassedArg) :
    Binds p c [⟨scope.file, node.id⟩] (scope.refs callee.nodes)
      (bindExpr scope callee >>= fun m => bindCall scope node callee.node m args) := by
  intro s hready hle
  have hexpr : p.IsExpr ⟨scope.file, callee.id⟩ := ⟨callee, hwithin.writes callee.mem_nodes, rfl⟩
  have hmem : ⟨scope.file, callee.id⟩ ∈ scope.refs callee.nodes :=
    List.mem_map_of_mem callee.mem_nodes
  have hbound := hcallee.binds hp hscope hwithin s hready hle
  have hruns : s.Runs p scope callee ((bindExpr scope callee).run s).2 :=
    { ready := hready.within
      sound := hscope.mono hle
      within := hwithin
      comp := .refl _
      types := fun _ _ _ => rfl
      symbol := .inl rfl }
  have hargs {candidates : List SymbolId}
      (hm : ((bindExpr scope callee).run s).1 = .methods candidates) :
      callee.argumentList? = none := by
    cases hargs : callee.argumentList? with
    | none => rfl
    | some l =>
      obtain ⟨found, hfound⟩ := bindExpr_givesValue scope hargs s
      rw [hm] at hfound
      cases hfound
  change s.Bound p _ _ _ ((bindCall scope node callee.node ((bindExpr scope callee).run s).1 args).run
    ((bindExpr scope callee).run s).2).2
  generalize ((bindExpr scope callee).run s).1 = m at hargs
  generalize ((bindExpr scope callee).run s).2 = s₁ at hbound hruns
  cases m with
  | methods candidates =>
    rw [bindCall_run]
    have hext := s₁.comp.extends_withKnown
    split
    next method hmethod =>
      have hisMethod := Compilation.isSome_method?_of_pickOverload hmethod
      have hne : (⟨scope.file, callee.id⟩ : NodeRef) ≠ ⟨scope.file, node.id⟩ := fun heq =>
        hready.not_mem_own hexpr hmem (heq ▸ .head _)
      have hown : Keeps p [⟨scope.file, node.id⟩] (recordSymbol scope node.id method) :=
        recordSymbol_keeps (.inl (.head _)) method
      have hkeeps : s₁.Keeps p [⟨scope.file, node.id⟩]
          { s₁ with
            comp := s₁.comp.withKnown
            facts := s₁.facts.addSymbol ⟨scope.file, node.id⟩ method } :=
        { hown s₁ with comp := hext }
      exact (hbound.keep hready hkeeps).called hp
        (hruns.later hext (fun _ _ _ => rfl) (lookup_cons_of_ne hne _ _)) (hargs rfl) hisMethod
    next => exact hbound.keep hready { BindState.Keeps.refl s₁ with comp := hext }
  | _ => exact hbound

/-! ## Expressions -/

/-- What a step without a trace finds is recorded. -/
theorem recordStep_closes {step : Binder Meaning} (h : Keeps p [⟨scope.file, e.id⟩] step) :
    Closes p c scope e ns (do recordMeaning scope e.node (← step)) :=
  .record h.binds fun m => m

theorem recordFound_closes {step : Binder (Option SymbolId)}
    (h : Keeps p [⟨scope.file, e.id⟩] step) :
    Closes p c scope e ns (do recordMeaning scope e.node (.value (← step))) :=
  .record h.binds fun found => .value found

namespace Binder.Closes

variable {part : Expr} {f : Meaning → Binder Meaning} {ns' : List SyntaxNode}

/-- An operand is bound first. -/
theorem operand (hp : p.IsRead) (hscope : scope.Sound c) (hwithin : scope.Within p part.nodes)
    (h : Closes p c scope part part.nodes.tail (bindExpr scope part))
    (hf : ∀ c' m, c ≤ c' → Closes p c' scope e ns' (f m)) :
    Closes p c scope e (part.nodes ++ ns') (bindExpr scope part >>= f) :=
  .bind (bindExpr_finds hscope part Scope.covers_univ) (h.binds hp hscope hwithin)
    fun c' m hle _ => hf c' m hle

/-- The last operand is bound. -/
theorem lastOperand (hp : p.IsRead) (hscope : scope.Sound c)
    (hwithin : scope.Within p part.nodes)
    (h : Closes p c scope part part.nodes.tail (bindExpr scope part))
    (hf : ∀ c' m, c ≤ c' → Closes p c' scope e [] (f m)) :
    Closes p c scope e part.nodes (bindExpr scope part >>= f) :=
  .last (bindExpr_finds hscope part Scope.covers_univ) (h.binds hp hscope hwithin)
    fun c' m hle _ => hf c' m hle

end Binder.Closes

/-- A constructor is chosen for a creation. -/
theorem bindCreated_closes (created : Option SymbolId) (args : List PassedArg) :
    Closes p c scope e ns (do
      if let some t := created then bindConstructor scope e.node.id t args
      recordMeaning scope e.node (.value created)) := by
  cases created with
  | some t => exact .record (bindConstructor_keeps (.inl (.head _)) t args).binds fun _ => .value (some t)
  | none => exact .meaning _

mutual

/-- Binding an expression binds its parts and then records its meaning. -/
theorem bindExpr_closes {c : Compilation} (hp : p.IsRead) (hscope : scope.Sound c) :
    ∀ e : Expr, scope.Within p e.nodes → Closes p c scope e e.nodes.tail (bindExpr scope e)
  | .literal node value, _ => by
    rw [bindExpr]
    exact recordStep_closes (bindLiteral_keeps node value)
  | .identifier node name, _ => by
    rw [bindExpr]
    exact recordStep_closes (bindIdentifier_keeps (.head _) name.text)
  | .self node, _ => by
    rw [bindExpr]
    exact .meaning _
  | .base node, _ => by
    rw [bindExpr]
    exact .record (comp_keeps.binds) fun c => .value ((scope.type.bind c.type?).bind TypeSymbol.baseType)
  | .member node target name, hwithin => by
    rw [bindExpr]
    exact Closes.lastOperand hp hscope hwithin.tail (bindExpr_closes hp hscope target hwithin.tail)
      fun _ m _ => recordStep_closes (bindMember_keeps (.head _) m name.text)
  | .invoke node callee ⟨range, args⟩, hwithin => by
    have hparts : scope.Within p (callee.nodes ++ nodesOfArgs args) := hwithin.tail
    rw [bindExpr]
    split
    · -- the name in `nameof` is not bound
      refine Closes.swap (Closes.bind (bindFirst_finds hscope args Scope.covers_univ)
        (bindFirst_binds hp hscope args hparts.right) fun _ text _ _ => ?_)
      cases text with
      | some text =>
        exact recordFound_closes ((recordConstant_keeps node.id _).bind fun _ => typeNamed?_keeps _)
      | none => exact recordFound_closes (typeNamed?_keeps _)
    · refine Closes.swap (Closes.bind (bindArgs_finds hscope args Scope.covers_univ)
        (bindArgs_binds hp hscope args hparts.right) fun c₁ passed hle₁ _ => ?_)
      have hscope₁ := hscope.mono hle₁
      have hcallee := bindExpr_closes hp hscope₁ callee hparts.left
      rw [← bind_assoc]
      exact .record (bindCalled_binds hp hscope₁ hparts.left hcallee node passed) fun m => m
  | .create node type none, hwithin => by
    have htype : scope.Within p type.nodes := hwithin.tail
    rw [bindExpr]
    exact Closes.last (resolveType_finds hscope type Scope.covers_univ)
      (resolveType_keeps hp htype).binds fun _ created _ _ => bindCreated_closes created []
  | .create node type (some ⟨_, args⟩), hwithin => by
    have hparts : scope.Within p (type.nodes ++ nodesOfArgs args) := hwithin.tail
    rw [bindExpr]
    refine Closes.bind (resolveType_finds hscope type Scope.covers_univ)
      (resolveType_keeps hp hparts.left).binds fun c₁ created hle₁ _ => ?_
    have hscope₁ := hscope.mono hle₁
    exact Closes.last (bindArgs_finds hscope₁ args Scope.covers_univ)
      (bindArgs_binds hp hscope₁ args hparts.right) fun _ passed _ _ =>
        bindCreated_closes created passed
  | .createArray node type none, hwithin => by
    have htype : scope.Within p type.nodes := hwithin.tail
    rw [bindExpr]
    exact recordFound_closes (arrayType_keeps hp htype)
  | .createArray node type (some size), hwithin => by
    have hparts : scope.Within p (type.nodes ++ size.nodes) := hwithin.tail
    rw [bindExpr]
    exact Closes.swap (Closes.operand hp hscope hparts.right
      (bindExpr_closes hp hscope size hparts.right) fun _ _ _ =>
        recordFound_closes (arrayType_keeps hp hparts.left))
  | .typeOf node type, hwithin => by
    have htype : scope.Within p type.nodes := hwithin.tail
    rw [bindExpr]
    exact .last (resolveType_finds hscope type Scope.covers_univ) (resolveType_keeps hp htype).binds
      fun _ _ _ _ => recordFound_closes (typeNamed?_keeps _)
  | .default node none, _ => by
    rw [bindExpr]
    exact .meaning _
  | .default node (some type), hwithin => by
    have htype : scope.Within p type.nodes := hwithin.tail
    rw [bindExpr]
    exact recordFound_closes (resolveType_keeps hp htype)
  | .cast node type operand, hwithin | .asType node operand type, hwithin => by
    have hparts : scope.Within p (type.nodes ++ operand.nodes) := hwithin.tail
    rw [bindExpr]
    exact Closes.swap (Closes.operand hp hscope hparts.right
      (bindExpr_closes hp hscope operand hparts.right) fun _ _ _ =>
        recordFound_closes (resolveType_keeps hp hparts.left))
  | .isType node operand type designation, hwithin => by
    have hparts : scope.Within p (type.nodes ++ operand.nodes) := hwithin.tail
    have hnode := hwithin.hasNode (Expr.mem_nodes _)
    rw [bindExpr]
    refine Closes.swap (Closes.operand hp hscope hparts.right
      (bindExpr_closes hp hscope operand hparts.right) fun c₁ _ hle₁ => ?_)
    refine Closes.last (resolveType_finds (hscope.mono hle₁) type Scope.covers_univ)
      (resolveType_keeps hp hparts.left).binds fun c₂ found _ hfound => ?_
    cases designation with
    | some name =>
      have hsound : Symbol.Sound c₂ (.localVar ⟨name.text, found, none⟩) := hfound
      have hfinds : Finds Set.univ c₂ (add (.localVar ⟨name.text, found, none⟩) >>= fun id =>
          addLocal name.text id) fun _ _ => True :=
        (finds_add hsound fun _ => Symbol.noConfusion).bind fun _ _ _ hid =>
          finds_addLocal (Compilation.has_of_symbol? hid)
      exact Closes.last hfinds (add_addLocal_binds (Symbol.orderly_localVar _) (.head _) hnode
        ⟨found, rfl⟩ rfl) fun _ _ _ _ => recordFound_closes (typeNamed?_keeps _)
    | none => exact recordFound_closes (typeNamed?_keeps _)
  | .binary node op left right, hwithin => by
    have hparts : scope.Within p (left.nodes ++ right.nodes) := hwithin.tail
    rw [bindExpr]
    refine Closes.operand hp hscope hparts.left (bindExpr_closes hp hscope left hparts.left)
      fun c₁ _ hle₁ => ?_
    have hscope₁ := hscope.mono hle₁
    exact Closes.lastOperand hp hscope₁ hparts.right
      (bindExpr_closes hp hscope₁ right hparts.right) fun _ _ _ =>
        recordStep_closes (bindBinary_keeps node op _ _ _ _)
  | .unary node .not operand, hwithin => by
    rw [bindExpr]
    exact Closes.lastOperand hp hscope hwithin.tail
      (bindExpr_closes hp hscope operand hwithin.tail) fun _ _ _ =>
        recordFound_closes (typeNamed?_keeps _)
  | .unary node .neg operand, hwithin => by
    rw [bindExpr]
    refine Closes.lastOperand hp hscope hwithin.tail
      (bindExpr_closes hp hscope operand hwithin.tail) fun _ m _ => ?_
    refine Closes.last finds_constant? (constant?_keeps operand.id).binds fun _ found _ _ => ?_
    split
    · exact .record (recordConstant_keeps node.id _).binds fun _ => .value m.valueType?
    · exact .meaning _
  | .conditional node condition whenTrue whenFalse, hwithin => by
    have hparts : scope.Within p (condition.nodes ++ (whenTrue.nodes ++ whenFalse.nodes)) :=
      hwithin.tail
    rw [bindExpr]
    refine Closes.operand hp hscope hparts.left
      (bindExpr_closes hp hscope condition hparts.left) fun c₁ _ hle₁ => ?_
    have hscope₁ := hscope.mono hle₁
    refine Closes.operand hp hscope₁ hparts.right.left
      (bindExpr_closes hp hscope₁ whenTrue hparts.right.left) fun c₂ yes hle₂ => ?_
    have hscope₂ := hscope₁.mono hle₂
    refine Closes.lastOperand hp hscope₂ hparts.right.right
      (bindExpr_closes hp hscope₂ whenFalse hparts.right.right) fun _ no _ => ?_
    exact .record compWithKnown_keeps.binds fun c => .value (c.unify yes.valueType? no.valueType?)
  | .assign node target value, hwithin => by
    have hparts : scope.Within p (target.nodes ++ value.nodes) := hwithin.tail
    rw [bindExpr]
    refine Closes.operand hp hscope hparts.left (bindExpr_closes hp hscope target hparts.left)
      fun c₁ m hle₁ => ?_
    have hscope₁ := hscope.mono hle₁
    exact Closes.lastOperand hp hscope₁ hparts.right
      (bindExpr_closes hp hscope₁ value hparts.right) fun _ _ _ => .meaning _
  | .paren node inner, hwithin => by
    rw [bindExpr]
    exact Closes.lastOperand hp hscope hwithin.tail (bindExpr_closes hp hscope inner hwithin.tail)
      fun _ m _ => .record (copyConstant_keeps _ _).binds fun _ => m

theorem bindArgs_binds {c : Compilation} {own : List NodeRef} (hp : p.IsRead)
    (hscope : scope.Sound c) : ∀ args : List (Argument Expr), scope.Within p (nodesOfArgs args) →
      Binds p c own (scope.refs (nodesOfArgs args)) (bindArgs scope args)
  | [], _ => .pure _
  | ⟨node, name, value⟩ :: rest, hwithin => by
    have hparts : scope.Within p (value.nodes ++ nodesOfArgs rest) := hwithin.tail
    rw [nodesOfArgs, Scope.refs_cons, Scope.refs_append, bindArgs]
    refine Binds.skip (Binds.bind (bindExpr_finds hscope value Scope.covers_univ)
      ((bindExpr_closes hp hscope value hparts.left).binds hp hscope hparts.left)
      fun c₁ _ hle₁ _ => ?_)
    exact (bindArgs_binds hp (hscope.mono hle₁) rest hparts.right).map _

theorem bindFirst_binds {c : Compilation} {own : List NodeRef} (hp : p.IsRead)
    (hscope : scope.Sound c) : ∀ args : List (Argument Expr), scope.Within p (nodesOfArgs args) →
      Binds p c own (scope.refs (nodesOfArgs args)) (bindFirst scope args)
  | [], _ => .pure _
  | ⟨node, name, value⟩ :: rest, hwithin => by
    have hparts : scope.Within p (value.nodes ++ nodesOfArgs rest) := hwithin.tail
    have hvalue := bindExpr_closes hp hscope value hparts.left
    rw [nodesOfArgs, Scope.refs_cons, Scope.refs_append, bindFirst]
    exact .skip (.more ((hvalue.binds hp hscope hparts.left).map _))

end

theorem bindExpr_binds (hp : p.IsRead) (hscope : scope.Sound c) (hwithin : scope.Within p e.nodes) :
    Binds p c own (scope.refs e.nodes) (bindExpr scope e) :=
  (bindExpr_closes hp hscope e hwithin).binds hp hscope hwithin

theorem bindValue_binds (hp : p.IsRead) (hscope : scope.Sound c)
    (hwithin : scope.Within p e.nodes) :
    Binds p c own (scope.refs e.nodes) (bindValue scope e) :=
  (bindExpr_binds hp hscope hwithin).map _

theorem bindOption_binds (hp : p.IsRead) (hscope : scope.Sound c) {e : Option Expr}
    (hwithin : scope.Within p (nodesOfOption Expr.nodes e)) :
    Binds p c own (scope.refs (nodesOfOption Expr.nodes e)) (bindOption scope e) := by
  cases e with
  | some e => exact (bindExpr_binds hp hscope hwithin).discard
  | none => exact .pure _

/-! ## Statements -/

theorem bindLocal_binds (hp : p.IsRead) (hscope : scope.Sound c) {type : TypeRef} {name : Ident}
    {init : Option Expr} (hwithin : scope.Within p (Stmt.localDecl node type name init).nodes) :
    Binds p c own (scope.refs (Stmt.localDecl node type name init).nodes)
      (bindLocal scope node type name init) := by
  have hnode := hwithin.hasNode (.head _)
  have hno : ⟨scope.file, node.id⟩ ∉ p.declarationRefs := hnode.not_mem_declarationRefs hp fun _ =>
    SyntaxNode.noConfusion
  have hparts : scope.Within p (type.nodes ++ nodesOfOption Expr.nodes init) := hwithin.tail
  -- the local itself
  have hadd {c : Compilation} (found : Option SymbolId) :
      Binds p c own [⟨scope.file, node.id⟩] (do
        let id ← add (.localVar ⟨name.text, found, scope.sourceRef node⟩)
        declare scope node.id id
        addLocal name.text id) := fun s _ _ =>
    BindState.bound_introduce (Symbol.orderly_localVar _) (List.mem_append_right _ (.head _)) hnode
      ⟨found, rfl⟩ rfl (.mono (.of_cons (s.comp.keepsPlaces_add _) rfl (Compilation.symbol?_add_size _)
        (fun _ => Symbol.noConfusion) rfl hno) (List.nil_subset _))
  -- what follows the initial value
  have hdeclare {c : Compilation} (hscope : scope.Sound c) (initType : Option SymbolId) :
      Binds p c own (scope.refs type.nodes ++ [⟨scope.file, node.id⟩]) (do
        let type ← if type.isVar then pure initType else resolveType scope type
        let id ← add (.localVar ⟨name.text, type, scope.sourceRef node⟩)
        declare scope node.id id
        addLocal name.text id) := by
    dsimp only
    split
    · exact Binds.perm (Binds.more (hadd initType)) List.perm_append_comm
    · exact Binds.bind (resolveType_finds hscope type Scope.covers_univ)
        (resolveType_keeps hp hparts.left).binds fun _ found _ _ => hadd found
  have hperm : (scope.refs (nodesOfOption Expr.nodes init) ++
      (scope.refs type.nodes ++ [(⟨scope.file, node.id⟩ : NodeRef)])).Perm
        (scope.refs (Stmt.localDecl node type name init).nodes) := by
    rw [Stmt.nodes, Scope.refs_cons, Scope.refs_append, ← List.append_assoc]
    exact (List.perm_append_singleton _ _).trans (List.perm_append_comm.cons _)
  refine Binds.perm ?_ hperm
  unfold bindLocal
  cases init with
  | some e =>
    exact Binds.bind (bindValue_finds hscope Scope.covers_univ)
      (bindValue_binds hp hscope hparts.right) fun _ _ hle _ => hdeclare (hscope.mono hle) _
  | none => exact hdeclare hscope none

mutual

theorem bindStmt_binds {c : Compilation} (hp : p.IsRead) (hscope : scope.Sound c) :
    ∀ s : Stmt, scope.Within p s.nodes → Binds p c own (scope.refs s.nodes) (bindStmt scope s)
  | .expression _ value, hwithin => by
    rw [bindStmt]
    exact .skip (bindExpr_binds hp hscope hwithin.tail).discard
  | .returning _ value, hwithin | .throwing _ value, hwithin => by
    rw [bindStmt]
    exact .skip (bindOption_binds hp hscope hwithin.tail)
  | .localDecl node type name init, hwithin => by
    rw [bindStmt]
    exact bindLocal_binds hp hscope hwithin
  | .branch _ condition yes none, hwithin => by
    have hparts : scope.Within p (condition.nodes ++ yes.nodes) := hwithin.tail
    rw [bindStmt, Stmt.nodes, Scope.refs_cons, Scope.refs_append]
    refine Binds.skip (Binds.bind (bindExpr_finds hscope condition Scope.covers_univ)
      (bindExpr_binds hp hscope hparts.left) fun c₁ _ hle₁ _ => ?_)
    exact (bindStmt_binds hp (hscope.mono hle₁) yes hparts.right).withLocals
  | .branch _ condition yes (some no), hwithin => by
    have hparts : scope.Within p (condition.nodes ++ (yes.nodes ++ no.nodes)) := hwithin.tail
    rw [bindStmt, Stmt.nodes, Scope.refs_cons, Scope.refs_append, Scope.refs_append]
    refine Binds.skip (Binds.bind (bindExpr_finds hscope condition Scope.covers_univ)
      (bindExpr_binds hp hscope hparts.left) fun c₁ _ hle₁ _ => ?_)
    have hscope₁ := hscope.mono hle₁
    refine Binds.bind (finds_withLocals (bindStmt_finds hscope₁ yes Scope.covers_univ))
      (bindStmt_binds hp hscope₁ yes hparts.right.left).withLocals fun c₂ _ hle₂ _ => ?_
    exact (bindStmt_binds hp (hscope₁.mono hle₂) no hparts.right.right).withLocals
  | .block _ ⟨_, statements⟩, hwithin => by
    have hparts : scope.Within p (nodesOfStmts statements) := hwithin.tail
    rw [bindStmt]
    exact .skip (bindStmts_binds hp hscope statements hparts).withLocals
  | .empty _, _ => .skip (.pure _)

theorem bindStmts_binds {c : Compilation} (hp : p.IsRead) (hscope : scope.Sound c) :
    ∀ ss : List Stmt, scope.Within p (nodesOfStmts ss) →
      Binds p c own (scope.refs (nodesOfStmts ss)) (bindStmts scope ss)
  | [], _ => .pure _
  | s :: rest, hwithin => by
    rw [nodesOfStmts] at hwithin
    rw [bindStmts, nodesOfStmts, Scope.refs_append]
    exact Binds.bind (bindStmt_finds hscope s Scope.covers_univ)
      (bindStmt_binds hp hscope s hwithin.left) fun _ _ hle _ =>
        bindStmts_binds hp (hscope.mono hle) rest hwithin.right

end

theorem bindBody_binds (hp : p.IsRead) (hscope : scope.Sound c) {body : Body}
    (hwithin : scope.Within p body.nodes) :
    Binds p c own (scope.refs body.nodes) (bindBody scope body) := by
  rw [Body.nodes] at hwithin
  have hblock := hwithin.left
  unfold bindBody
  rw [Body.nodes, Scope.refs_append]
  cases hbody : body.block with
  | some block =>
    rw [hbody] at hblock
    have hfinds := bindStmts_finds hscope block.statements Scope.covers_univ
    exact Binds.bind (finds_withLocals hfinds)
      (bindStmts_binds hp hscope block.statements hblock).withLocals fun _ _ hle _ =>
        bindOption_binds hp (hscope.mono hle) hwithin.right
  | none => exact bindOption_binds hp hscope hwithin.right

end PropertyLint
