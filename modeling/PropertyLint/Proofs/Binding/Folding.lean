/-
# Which expressions are folded

A text is folded from literals, `nameof`, parentheses, sums with a string on one side and names of
constant fields that have been evaluated before and are folded themselves (`Project.Folds`).  What
binding the initial value of a constant field finds out is just that (`bindExpr_settles`).
-/
import PropertyLint.Proofs.Binding.Stages

namespace PropertyLint

open Binder

variable {p : Project} {scope : Scope} {node : Node} {ns ns' : List SyntaxNode} {n : NodeRef}
  {file : Option FileId} {e : Expr} {id : SymbolId} {s s' : BindState} {nodes : Set NodeRef}
  {v : String} {k : Nat}

/-- The type `string`. -/
def Compilation.stringType? (c : Compilation) : Option SymbolId :=
  c.typeNamed? KnownType.string.metadataName

theorem Compilation.stringType?_congr {c c' : Compilation} (h : c.registry = c'.registry) :
    c.stringType? = c'.stringType? := by
  simp only [stringType?, typeNamed?, h]

namespace Project

/-- The type of an expression that is worth a text: a name has the type of what it is bound to, and
what is put together is a string. -/
def textType? (p : Project) (file : Option FileId) : Expr → Option SymbolId
  | .paren _ inner => p.textType? file inner
  | .identifier node _ | .member node _ _ =>
    (p.facts.symbol? ⟨file, node.id⟩).bind p.comp.valueType?
  | _ => p.comp.stringType?

/-- The expression is of type `string`, if it is worth a text. -/
def IsText (p : Project) (file : Option FileId) (e : Expr) : Prop :=
  ∃ t, p.comp.stringType? = some t ∧ p.textType? file e = some t

/-- When the first `k` constant fields have been evaluated, the text is folded from the expression.
-/
inductive Folds (p : Project) : Nat → Option FileId → Expr → String → Prop where
  | literal {k : Nat} {file : Option FileId} {node : Node} {v : String} :
      Folds p k file (.literal node (.string v)) v
  | nameof {k : Nat} {file : Option FileId} {node : Node} {callee : Expr} {range : OffsetRange}
      {arg : Argument Expr} {rest : List (Argument Expr)} {v : String} :
      (Expr.invoke node callee ⟨range, arg :: rest⟩).isNameof = true →
      arg.value.nameText? = some v → Folds p k file (.invoke node callee ⟨range, arg :: rest⟩) v
  | paren {k : Nat} {file : Option FileId} {node : Node} {inner : Expr} {v : String} :
      Folds p k file inner v → Folds p k file (.paren node inner) v
  | sum {k : Nat} {file : Option FileId} {node : Node} {left right : Expr} {a b : String} :
      Folds p k file left a → Folds p k file right b → p.IsText file left ∨ p.IsText file right →
      Folds p k file (.binary node .add left right) (a ++ b)
  | name {k i : Nat} {file : Option FileId} {e : Expr} {f : ConstField} {v : String} :
      e.isReference = true → p.facts.symbol? ⟨file, e.id⟩ = some f.symbol →
      p.constFields[i]? = some f → i < k → Folds p i f.scope.file f.init v → Folds p k file e v

/-- What is folded is the value of the expression. -/
theorem Folds.evaluates (h : p.Folds k file e v) (hp : p.IsBound) :
    p.Evaluates file e (.string v) := by
  induction h with
  | literal => exact .string
  | nameof hnameof htext => exact .nameof hnameof htext
  | paren _ ih => exact .paren ih
  | sum _ _ _ ihleft ihright => exact .sum ihleft ihright
  | name hname hsymbol hf _ _ ih =>
    obtain ⟨hinit, -⟩ := hp.constField_cases (mem_constFields.1 (List.mem_of_getElem? hf))
    exact .name hname hsymbol hinit ih

theorem folds_literal_iff {v' : String} :
    p.Folds k file (.literal node (.string v)) v' ↔ v' = v := by
  refine ⟨fun h => ?_, ?_⟩
  · cases h with
    | literal => rfl
    | name hname => cases hname
  · rintro rfl
    exact .literal

theorem folds_paren_iff {inner : Expr} :
    p.Folds k file (.paren node inner) v ↔ p.Folds k file inner v := by
  refine ⟨fun h => ?_, .paren⟩
  cases h with
  | paren h => exact h
  | name hname => cases hname

theorem folds_sum_iff {left right : Expr} : p.Folds k file (.binary node .add left right) v ↔
    ∃ a b, p.Folds k file left a ∧ p.Folds k file right b ∧
      (p.IsText file left ∨ p.IsText file right) ∧ v = a ++ b := by
  refine ⟨fun h => ?_, ?_⟩
  · cases h with
    | sum hleft hright htext => exact ⟨_, _, hleft, hright, htext, rfl⟩
    | name hname => cases hname
  · rintro ⟨a, b, hleft, hright, htext, rfl⟩
    exact .sum hleft hright htext

end Project

/-- The state has the texts of the first `k` constant fields. -/
def BindState.Knows (p : Project) (k : Nat) (s : BindState) : Prop :=
  ∀ id v, s.fieldConstants.lookup id = some (.string v) ↔
    ∃ i f, i < k ∧ p.constFields[i]? = some f ∧ f.symbol = id ∧ p.Folds i f.scope.file f.init v

theorem BindState.Knows.name_iff (h : s.Knows p k) (hname : e.isReference = true) :
    ((p.facts.symbol? ⟨file, e.id⟩).bind fun id => s.fieldConstants.lookup id) =
      some (.string v) ↔ p.Folds k file e v := by
  rw [Option.bind_eq_some_iff]
  refine ⟨?_, fun hfolds => ?_⟩
  · rintro ⟨id, hsymbol, hlookup⟩
    obtain ⟨i, f, hik, hf, rfl, hinit⟩ := (h id v).1 hlookup
    exact .name hname hsymbol hf hik hinit
  · cases hfolds with
    | name _ hsymbol hf hik hinit => exact ⟨_, hsymbol, (h _ _).2 ⟨_, _, hik, hf, rfl, hinit⟩⟩
    | _ => cases hname

/-! ## Steps -/

theorem Binder.run_bind {α β : Type} (step : Binder α) (f : α → Binder β) (s : BindState) :
    (step >>= f).run s = (f (step.run s).1).run (step.run s).2 := rfl

/-- What an expression means is recorded without constants. -/
theorem recordMeaning_run (scope : Scope) (node : Node) (m : Meaning) (s : BindState) :
    ((recordMeaning scope node m).run s).1 = m ∧
      s.facts.symbols ⊆ ((recordMeaning scope node m).run s).2.facts.symbols ∧
      ∀ n, ((recordMeaning scope node m).run s).2.facts.constant? n = s.facts.constant? n := by
  cases m with
  | value found => cases found <;> exact ⟨rfl, List.Subset.refl _, fun _ => rfl⟩
  | type t => exact ⟨rfl, List.subset_cons_self _ _, fun _ => rfl⟩
  | _ => exact ⟨rfl, List.Subset.refl _, fun _ => rfl⟩

/-- A constant is copied if there is one. -/
theorem copyConstant_constant? {source target : NodeId} (s : BindState)
    (hunknown : s.facts.constant? ⟨scope.file, target⟩ = none) :
    ((copyConstant scope source target).run s).2.facts.constant? ⟨scope.file, target⟩ =
      s.facts.constant? ⟨scope.file, source⟩ := by
  unfold copyConstant
  rw [StateT.run_bind, show (Binder.constant? scope source).run s =
    (s.facts.constant? ⟨scope.file, source⟩, s) from rfl]
  cases s.facts.constant? ⟨scope.file, source⟩ with
  | some v => exact List.lookup_cons_self
  | none => exact hunknown

/-- A sum looks at the constants of both sides, if one of them is a string. -/
theorem bindSum_run (left right : Node) (leftType rightType : Option SymbolId) (s : BindState) :
    (bindSum scope node left right leftType rightType).run s =
      StateT.run (let string := s.comp.stringType?
        if string.isSome && (leftType == string || rightType == string) then do
          match s.facts.constant? ⟨scope.file, left.id⟩,
            s.facts.constant? ⟨scope.file, right.id⟩ with
          | some (.string a), some (.string b) => recordConstant scope node.id (.string (a ++ b))
          | _, _ => pure ()
          return .value string
        else return .value (leftType <|> rightType) : Binder Meaning) s := by
  have hrun : (bindSum scope node left right leftType rightType).run s =
      StateT.run (let string := s.comp.stringType?
        if string.isSome && (leftType == string || rightType == string) then do
          match ← Binder.constant? scope left.id, ← Binder.constant? scope right.id with
          | some (.string a), some (.string b) => recordConstant scope node.id (.string (a ++ b))
          | _, _ => pure ()
          return .value string
        else return .value (leftType <|> rightType) : Binder Meaning) s := rfl
  rw [hrun]
  dsimp only
  split <;> rfl

/-- The sum of two texts is known if one side is a string, and nothing else becomes known. -/
theorem bindSum_cases (left right : Node) (leftType rightType : Option SymbolId) (s : BindState) :
    (∃ t a b, s.comp.stringType? = some t ∧
      (leftType = some t ∨ rightType = some t) ∧
      s.facts.constant? ⟨scope.file, left.id⟩ = some (.string a) ∧
      s.facts.constant? ⟨scope.file, right.id⟩ = some (.string b) ∧
      (bindSum scope node left right leftType rightType).run s = (.value (some t),
        { s with facts := s.facts.addConstant ⟨scope.file, node.id⟩ (.string (a ++ b)) })) ∨
    ((bindSum scope node left right leftType rightType).run s).2 = s ∧
      ∀ t a b, s.comp.stringType? = some t →
        leftType = some t ∨ rightType = some t →
        s.facts.constant? ⟨scope.file, left.id⟩ = some (.string a) →
        s.facts.constant? ⟨scope.file, right.id⟩ ≠ some (.string b) := by
  rw [bindSum_run]
  dsimp only
  split
  next htext =>
    rw [Bool.and_eq_true, Bool.or_eq_true, beq_iff_eq, beq_iff_eq, Option.isSome_iff_exists]
      at htext
    obtain ⟨⟨t, ht⟩, hsides⟩ := htext
    rw [ht] at hsides ⊢
    split
    next a b ha hb => exact .inl ⟨t, a, b, rfl, hsides, ha, hb, rfl⟩
    next hnot => exact .inr ⟨rfl, fun _ a b _ _ ha hb => hnot a b ha hb⟩
  next htext =>
    refine .inr ⟨rfl, fun t a b ht hsides _ _ => htext ?_⟩
    simpa [ht] using hsides

/-! ## Names -/

/-- If a name has got a constant, it is bound to a field and has the type of the field. -/
def BindState.Named (n : NodeRef) (s s' : BindState) (m : Meaning) : Prop :=
  s'.facts.constant? n = s.facts.constant? n ∨
    ∃ id, (n, id) ∈ s'.facts.symbols ∧ s.comp.IsField id ∧ m.valueType? = s.comp.valueType? id

/-- The step binds a name as `BindState.Named` says. -/
def Binder.Names (p : Project) (n : NodeRef) (step : Binder Meaning) : Prop :=
  ∀ s : BindState, s.Apart p → s.Named n (step.run s).2 (step.run s).1

namespace Binder

/-- A step that looks at the state. -/
theorem Names.get {f : BindState → Binder Meaning} (h : ∀ s, Names p n (f s)) :
    Names p n (MonadState.get >>= f) := fun s hs => h s s hs

/-- A step that looks at the symbols. -/
theorem Names.comp {f : Compilation → Binder Meaning} (h : ∀ c, Names p n (f c)) :
    Names p n (Binder.comp >>= f) := fun s hs => h s.comp s hs

/-- A step that tells no constant. -/
theorem Calm.names {step : Binder Meaning} (h : Calm step) : Names p n step :=
  fun s _ => .inl (by rw [Facts.constant?, (h s).constants, Facts.constant?])

/-- What is recorded for a name does not change the constant of it. -/
theorem Names.record {step : Binder Meaning} (h : Names p n step) :
    Names p n (do recordMeaning scope node (← step)) := by
  intro s hapart
  obtain ⟨hresult, hsymbols, hconstants⟩ :=
    recordMeaning_run scope node (step.run s).1 (step.run s).2
  have hnamed := h s hapart
  rw [run_bind]
  unfold BindState.Named at hnamed ⊢
  rw [hresult, hconstants]
  exact hnamed.imp_right fun ⟨id, hid, hrest⟩ => ⟨id, hsymbols hid, hrest⟩

end Binder

theorem memberMeaning_names (node : Node) (members : List SymbolId) :
    Names p ⟨scope.file, node.id⟩ (memberMeaning scope node members) := by
  intro s hapart
  rcases memberMeaning_cases scope node members s with ⟨heq, -⟩ | ⟨first, -, heq⟩
  · rw [heq]
    exact .inl rfl
  · rw [heq]
    unfold BindState.mark
    cases hlookup : s.fieldConstants.lookup first with
    | none => exact .inl rfl
    | some v =>
      exact .inr ⟨first, .head _, hapart.fields _ (mem_of_lookup hlookup), rfl⟩

theorem bindIdentifier_names (node : Node) (name : String) :
    Names p ⟨scope.file, node.id⟩ (bindIdentifier scope node name) := by
  refine .get fun s => ?_
  split
  · exact Calm.names (.bind (recordSymbol_calm _ _) fun _ => .pure _)
  · dsimp only
    split
    · exact memberMeaning_names node _
    · refine Calm.names (.bind (simpleType_calm name []) fun found => ?_)
      cases found with
      | some t => exact .pure _
      | none => exact .comp fun _ => .pure _

theorem bindMember_names (node : Node) (target : Meaning) (name : String) :
    Names p ⟨scope.file, node.id⟩ (bindMember scope node target name) := by
  refine .comp fun c => ?_
  cases target with
  | namespaceName container =>
    dsimp only
    split <;> exact Calm.names (.pure _)
  | type t =>
    dsimp only
    split
    · exact Calm.names (.bind (nestedType_calm t name []) fun _ => .pure _)
    · exact memberMeaning_names node _
  | value found =>
    cases found with
    | some t => exact memberMeaning_names node _
    | none => exact Calm.names (.pure _)
  | methods _ | nothing => exact Calm.names (.pure _)

/-! ## Before and after binding an expression -/

/-- The nodes stand in the file of the scope, and are bound once and in the stage of the next
constant field, or behind all stages. -/
structure Scope.At (scope : Scope) (p : Project) (k : Nat) (ns : List SyntaxNode) : Prop where
  within : scope.Within p ns
  once : ∀ n, p.IsExpr n → (scope.refs ns).count n ≤ 1
  stage : scope.refs ns ⊆ p.refsAt k

/-- In the state the nodes can be bound, and nothing is known about them. -/
structure BindState.Before (p : Project) (scope : Scope) (ns : List SyntaxNode) (s : BindState) :
    Prop where
  valid : s.Valid
  sound : scope.Sound s.comp
  apart : s.Apart p
  registry : s.comp.registry = p.comp.registry
  unknown : ∀ n ∈ scope.refs ns, p.IsExpr n → s.facts.constant? n = none

/-- The state is on the way to the project, and nothing more becomes known about the nodes. -/
structure BindState.After (p : Project) (scope : Scope) (ns : List SyntaxNode) (s : BindState) :
    Prop where
  comp : s.comp ≤ p.comp
  follows : s.Follows p
  settled : ∀ n ∈ scope.refs ns, p.IsExpr n → p.facts.constant? n = s.facts.constant? n

namespace Scope.At

theorem sublist (h : scope.At p k ns) (hns : ns'.Sublist ns) : scope.At p k ns' where
  within := h.within.mono hns.subset
  once n hn := ((hns.map _).count_le n).trans (h.once n hn)
  stage := List.Subset.trans (hns.map _).subset h.stage

/-- Of two lists of nodes, only one has an expression. -/
theorem disjoint (h : scope.At p k (ns ++ ns')) (hn : n ∈ scope.refs ns) (hexpr : p.IsExpr n) :
    n ∉ scope.refs ns' := by
  intro hn'
  have hcount := h.once n hexpr
  have hpos := List.count_pos_iff.2 hn
  have hpos' := List.count_pos_iff.2 hn'
  rw [Scope.refs_append, List.count_append] at hcount
  omega

/-- An expression is none of those in it. -/
theorem head_not_mem (h : scope.At p k (.expr e :: ns)) : ⟨scope.file, e.id⟩ ∉ scope.refs ns := by
  have hparts : scope.At p k ([.expr e] ++ ns) := h
  exact hparts.disjoint (.head _) ⟨e, h.within.writes (.head _), rfl⟩

end Scope.At

namespace BindState

theorem Before.step (h : s.Before p scope ns) (hlead : s.Leads nodes s') (hmarked : s.Marked p s')
    (hns : ns' ⊆ ns) (hnot : ∀ n ∈ scope.refs ns', p.IsExpr n → n ∉ nodes) :
    s'.Before p scope ns' where
  valid := hlead.valid
  sound := h.sound.mono hlead.comp
  apart := hmarked.apart
  registry := hmarked.registry.trans h.registry
  unknown n hn hexpr := by
    rw [hlead.constants n (hnot n hn hexpr)]
    exact h.unknown n (List.map_subset _ hns hn) hexpr

theorem After.back (h : s'.After p scope ns) (hlead : s.Leads nodes s') (hmarked : s.Marked p s')
    (hns : ns' ⊆ ns) (hnot : ∀ n ∈ scope.refs ns', p.IsExpr n → n ∉ nodes) :
    s.After p scope ns' where
  comp := le_trans hlead.comp h.comp
  follows r hr hexpr := h.follows r (hmarked.symbols hr) hexpr
  settled n hn hexpr := by
    rw [← hlead.constants n (hnot n hn hexpr)]
    exact h.settled n (List.map_subset _ hns hn) hexpr

theorem Before.mono (h : s.Before p scope ns) (hns : ns' ⊆ ns) : s.Before p scope ns' :=
  { h with unknown := fun n hn => h.unknown n (List.map_subset _ hns hn) }

theorem After.mono (h : s.After p scope ns) (hns : ns' ⊆ ns) : s.After p scope ns' :=
  { h with settled := fun n hn => h.settled n (List.map_subset _ hns hn) }

/-- Nothing is known about an expression before it has been bound. -/
theorem Before.constant?_eq_none (h : s.Before p scope ns) (hat : scope.At p k ns')
    (he : .expr e ∈ ns) (he' : .expr e ∈ ns') : s.facts.constant? ⟨scope.file, e.id⟩ = none :=
  h.unknown _ (List.mem_map.2 ⟨_, he, rfl⟩) ⟨e, hat.within.writes he', rfl⟩

/-- What is known about an expression after it has been bound is known in the end. -/
theorem After.constant? (h : s.After p scope ns) (hat : scope.At p k ns) (he : .expr e ∈ ns) :
    p.facts.constant? ⟨scope.file, e.id⟩ = s.facts.constant? ⟨scope.file, e.id⟩ :=
  h.settled _ (List.mem_map.2 ⟨_, he, rfl⟩) ⟨e, hat.within.writes he, rfl⟩

/-- When what is in an expression has been bound, nothing is known about the expression. -/
theorem Before.behind (h : s.Before p scope (.expr e :: ns)) (hat : scope.At p k (.expr e :: ns))
    (hlead : s.Leads {n | n ∈ scope.refs ns} s') (hmarked : s.Marked p s') :
    s'.Before p scope [.expr e] := by
  refine h.step hlead hmarked (List.cons_subset_cons _ (List.nil_subset _)) fun n hn _ => ?_
  rw [List.mem_singleton.1 hn]
  exact hat.head_not_mem

/-- Recording the expression itself says nothing more about what is in it. -/
theorem After.inside (h : s'.After p scope (.expr e :: ns)) (hat : scope.At p k (.expr e :: ns))
    (hlead : s.Leads {⟨scope.file, e.id⟩} s') (hmarked : s.Marked p s') : s.After p scope ns :=
  h.back hlead hmarked (List.subset_cons_self _ _) fun _ hn _ heq => hat.head_not_mem (heq ▸ hn)

end BindState

/-! ## Expressions -/

namespace Project

variable {m m' : Meaning}

/-- The expression is worth a text just if it is folded, and then what it means has its type. -/
structure Settles (p : Project) (k : Nat) (file : Option FileId) (e : Expr) (m : Meaning) :
    Prop where
  worth : ∀ v, p.facts.constant? ⟨file, e.id⟩ = some (.string v) ↔ p.Folds k file e v
  type : ∀ v, p.facts.constant? ⟨file, e.id⟩ = some (.string v) →
    m.valueType? = p.textType? file e

/-- An expression that has no text as value. -/
theorem IsBound.settles_of_not_evaluates (hp : p.IsBound) (hwrites : p.Writes file e)
    (hnot : ∀ v, ¬ p.Evaluates file e (.string v)) : p.Settles k file e m where
  worth v := by
    refine ⟨fun hv => absurd ?_ (hnot v), fun hfolds => absurd (hfolds.evaluates hp) (hnot v)⟩
    exact hp.isWorth hv e hwrites rfl
  type v hv := absurd (hp.isWorth hv e hwrites rfl) (hnot v)

/-- An expression that is a string and is known to be worth what it is folded to. -/
theorem settles_of_folds (hv : p.facts.constant? ⟨file, e.id⟩ = some (.string v))
    (hfolds : ∀ v', p.Folds k file e v' ↔ v' = v) (htype : m.valueType? = p.textType? file e) :
    p.Settles k file e m where
  worth v' := by
    rw [hv, hfolds, Option.some.injEq, Constant.string.injEq]
    exact eq_comm
  type _ _ := htype

theorem textType?_of_isReference (h : e.isReference = true) :
    p.textType? file e = (p.facts.symbol? ⟨file, e.id⟩).bind p.comp.valueType? := by
  cases e with
  | identifier | member => rfl
  | _ => cases h

/-- A name is worth what the field is worth that it is bound to. -/
theorem IsBound.settles_of_isReference (hp : p.IsBound) (hk : k ≤ p.constFields.length)
    (hknows : (p.evaluated k).Knows p k) (hname : e.isReference = true)
    (hat : scope.At p k [.expr e]) (hbefore : s.Before p scope [.expr e])
    (hafter : s'.After p scope [.expr e]) (hle : s.comp ≤ s'.comp)
    (hnamed : s.Named ⟨scope.file, e.id⟩ s' m) : p.Settles k scope.file e m where
  worth v := by
    have hmem : ⟨scope.file, e.id⟩ ∈ p.refsAt k := hat.stage (.head _)
    have hwrites := hat.within.writes (.head _)
    rw [hp.name_constant? ⟨e, hwrites, rfl, hname⟩ hk hmem]
    exact hknows.name_iff hname
  type v hv := by
    rw [hafter.constant? hat (.head _)] at hv
    rcases hnamed with heq | ⟨id, hid, ⟨f, hf⟩, htype⟩
    · rw [heq, hbefore.constant?_eq_none hat (.head _) (.head _)] at hv
      cases hv
    · have hsymbol := hafter.follows _ hid ⟨e, hat.within.writes (.head _), rfl⟩
      have hfield : p.comp.symbol? id = some (.field f) :=
        Compilation.symbol?_of_le hf (fun _ => Symbol.noConfusion) (le_trans hle hafter.comp)
      rw [htype, textType?_of_isReference hname, hsymbol, Option.bind_some, Compilation.valueType?,
        Compilation.valueType?, hf, hfield]

theorem settles_paren {inner : Expr} (h : p.Settles k file inner m)
    (hv : p.facts.constant? ⟨file, node.id⟩ = p.facts.constant? ⟨file, inner.id⟩) :
    p.Settles k file (.paren node inner) m where
  worth v := by
    rw [folds_paren_iff, ← h.worth v, ← hv]
    rfl
  type v hvalue := by
    have hinner : p.facts.constant? ⟨file, inner.id⟩ = some (.string v) := hv.symm.trans hvalue
    rw [h.type v hinner, textType?]

/-- A sum is worth the texts of both sides behind each other, if one of them is a string. -/
theorem settles_sum {left right : Expr} (hregistry : s.comp.registry = p.comp.registry)
    (hleft : p.facts.constant? ⟨scope.file, left.id⟩ = s.facts.constant? ⟨scope.file, left.id⟩)
    (hright : p.facts.constant? ⟨scope.file, right.id⟩ = s.facts.constant? ⟨scope.file, right.id⟩)
    (hunknown : s.facts.constant? ⟨scope.file, node.id⟩ = none)
    (ihleft : p.Settles k scope.file left m) (ihright : p.Settles k scope.file right m')
    (hsum : p.facts.constant? ⟨scope.file, node.id⟩ = ((bindSum scope node left.node right.node
      m.valueType? m'.valueType?).run s).2.facts.constant? ⟨scope.file, node.id⟩) :
    p.Settles k scope.file (.binary node .add left right)
      ((bindSum scope node left.node right.node m.valueType? m'.valueType?).run s).1 := by
  have hstring : s.comp.stringType? = p.comp.stringType? := Compilation.stringType?_congr hregistry
  rcases bindSum_cases left.node right.node m.valueType? m'.valueType? s with
    ⟨t, a, b, ht, hsides, ha, hb, hrun⟩ | ⟨hrun, hnot⟩
  · have ha := hleft.trans ha
    have hb := hright.trans hb
    rw [hrun] at hsum ⊢
    refine settles_of_folds (hsum.trans List.lookup_cons_self) (fun v' => ?_)
      (ht.symm.trans hstring)
    rw [folds_sum_iff]
    constructor
    · rintro ⟨a', b', ha', hb', -, rfl⟩
      rw [← ihleft.worth, ha] at ha'
      rw [← ihright.worth, hb] at hb'
      obtain rfl := Constant.string.inj (Option.some.inj ha')
      obtain rfl := Constant.string.inj (Option.some.inj hb')
      rfl
    · rintro rfl
      refine ⟨a, b, (ihleft.worth a).1 ha, (ihright.worth b).1 hb, ?_, rfl⟩
      rw [hstring] at ht
      rw [ihleft.type a ha, ihright.type b hb] at hsides
      exact hsides.imp (fun h => ⟨t, ht, h⟩) fun h => ⟨t, ht, h⟩
  · rw [hrun, hunknown] at hsum
    have hnone (v : String) : p.facts.constant? ⟨scope.file, node.id⟩ ≠ some (.string v) := by
      rw [hsum]
      exact (Option.some_ne_none _).symm
    refine ⟨fun v => ⟨fun hv => absurd hv (hnone v), fun hfolds => ?_⟩,
      fun v hv => absurd hv (hnone v)⟩
    obtain ⟨a, b, ha, hb, htext, -⟩ := folds_sum_iff.1 hfolds
    rw [← ihleft.worth] at ha
    rw [← ihright.worth] at hb
    have hsides : ∃ t, s.comp.stringType? = some t ∧
        (m.valueType? = some t ∨ m'.valueType? = some t) := by
      rw [hstring, ihleft.type a ha, ihright.type b hb]
      rcases htext with ⟨t, ht, h⟩ | ⟨t, ht, h⟩
      · exact ⟨t, ht, .inl h⟩
      · exact ⟨t, ht, .inr h⟩
    obtain ⟨t, ht, hsides⟩ := hsides
    exact absurd (hright.symm.trans hb) (hnot t a b ht hsides (hleft.symm.trans ha))

end Project

open Project

/-- Binding an expression says something about its nodes only, and marks the names in it. -/
theorem bindExpr_leads (hp : p.IsRead) (hwithin : scope.Within p e.nodes)
    (hbefore : s.Before p scope ns) :
    s.Leads {n | n ∈ scope.refs e.nodes} ((bindExpr scope e).run s).2 ∧
      s.Marked p ((bindExpr scope e).run s).2 ∧
      ((bindExpr scope e).run s).1.Sound ((bindExpr scope e).run s).2.comp := by
  have hcovers : scope.Covers {n | n ∈ scope.refs e.nodes} e.nodes :=
    fun x hx => List.mem_map.2 ⟨x, hx, rfl⟩
  obtain ⟨hlead, hsound⟩ := bindExpr_finds hbefore.sound e hcovers s hbefore.valid (le_refl _)
  exact ⟨hlead, bindExpr_marks hp hbefore.sound e hwithin s hbefore.valid (le_refl _) hbefore.apart,
    hsound⟩

variable {m : Meaning}

theorem bindLiteral_settles (hat : scope.At p k (Expr.literal node (.string v)).nodes)
    (hbefore : s.Before p scope ns)
    (hafter : ((bindExpr scope (.literal node (.string v))).run s).2.After p scope
      (Expr.literal node (.string v)).nodes) :
    p.Settles k scope.file (.literal node (.string v))
      ((bindExpr scope (.literal node (.string v))).run s).1 := by
  have hv : p.facts.constant? ⟨scope.file, node.id⟩ = some (.string v) := by
    refine (hafter.constant? hat (Expr.mem_nodes _)).trans ?_
    rw [Facts.constant?, bindExpr_literal_constants scope node rfl]
    exact List.lookup_cons_self
  refine settles_of_folds hv (fun _ => folds_literal_iff)
    (Eq.trans ?_ (Compilation.stringType?_congr hbefore.registry))
  rw [bindExpr, run_bind, (recordMeaning_run scope node _ _).1]
  rfl

/-- A name behind a dot, when what is before the dot has been bound. -/
theorem bindMember_settles (hp : p.IsBound) (hk : k ≤ p.constFields.length)
    (hknows : (p.evaluated k).Knows p k) {target : Expr} {name : Ident}
    (hat : scope.At p k (Expr.member node target name).nodes)
    (hbefore : s.Before p scope [.expr (.member node target name)])
    (hafter : ((do recordMeaning scope node (← bindMember scope node m name.text)).run s).2.After p
      scope (Expr.member node target name).nodes) :
    p.Settles k scope.file (.member node target name)
      ((do recordMeaning scope node (← bindMember scope node m name.text)).run s).1 := by
  have hself : scope.At p k [.expr (.member node target name)] :=
    hat.sublist (List.singleton_sublist.2 (Expr.mem_nodes _))
  have hrecord : FindsMeaning Set.univ s.comp (do
      recordMeaning scope node (← bindMember scope node m name.text)) :=
    (bindMember_finds (Set.mem_univ _) m name.text).bind fun _ _ _ hm =>
      recordMeaning_finds (Set.mem_univ _) hm
  exact hp.settles_of_isReference hk hknows rfl hself hbefore
    (hafter.mono (List.cons_subset_cons _ (List.nil_subset _)))
    (hrecord s hbefore.valid (le_refl _)).1.comp
    ((bindMember_names node m name.text).record s hbefore.apart)

/-- `nameof` is worth the last name in its argument. -/
theorem bindNameof_settles (hp : p.IsBound) {callee : Expr} {range : OffsetRange}
    {args : List (Argument Expr)}
    (hnameof : (Expr.invoke node callee ⟨range, args⟩).isNameof = true)
    (hv : (args.head?.bind fun a => a.value.nameText?) = some v)
    (hat : scope.At p k (Expr.invoke node callee ⟨range, args⟩).nodes)
    (hbefore : s.Before p scope ns)
    (hafter : ((bindExpr scope (.invoke node callee ⟨range, args⟩)).run s).2.After p scope
      (Expr.invoke node callee ⟨range, args⟩).nodes) :
    p.Settles k scope.file (.invoke node callee ⟨range, args⟩)
      ((bindExpr scope (.invoke node callee ⟨range, args⟩)).run s).1 := by
  have hwithin : scope.Within p (callee.nodes ++ nodesOfArgs args) := hat.within.tail
  have hregistry : ((bindFirst scope args).run s).2.comp.registry = p.comp.registry :=
    (bindFirst_marks hp.toIsRead hbefore.sound args hwithin.right s hbefore.valid (le_refl _)
      hbefore.apart).registry.trans hbefore.registry
  have hfirst : ((bindFirst scope args).run s).1 = some v := (bindFirst_result args s).trans hv
  have hsettled := hafter.constant? hat (Expr.mem_nodes _)
  rw [bindExpr, if_pos hnameof, run_bind, hfirst] at hsettled ⊢
  generalize ((bindFirst scope args).run s).2 = s₁ at *
  obtain ⟨hresult, -, hconstants⟩ := recordMeaning_run scope node
    (.value s₁.comp.stringType?) { s₁ with
      facts := s₁.facts.addConstant ⟨scope.file, node.id⟩ (.string v) }
  have hfolds : p.Folds k scope.file (.invoke node callee ⟨range, args⟩) v := by
    cases args with
    | nil => cases hv
    | cons arg rest => exact .nameof hnameof hv
  refine settles_of_folds ((hsettled.trans (hconstants _)).trans List.lookup_cons_self) (fun v' =>
    ⟨fun h => ?_, fun heq => heq ▸ hfolds⟩) ?_
  · exact Constant.string.inj ((h.evaluates hp).unique (hfolds.evaluates hp))
  · exact (congrArg Meaning.valueType? hresult).trans (Compilation.stringType?_congr hregistry)

/-- Before the last step, which is about the expression itself, all that is in it is known. -/
theorem BindState.After.last {step : Binder Meaning}
    (hafter : (step.run s).2.After p scope (.expr e :: ns)) (hat : scope.At p k (.expr e :: ns))
    (hbefore : s.Before p scope ns') (hfinds : FindsMeaning {⟨scope.file, e.id⟩} s.comp step)
    (hmarks : Marks p s.comp step) : s.After p scope ns :=
  hafter.inside hat (hfinds s hbefore.valid (le_refl _)).1
    (hmarks s hbefore.valid (le_refl _) hbefore.apart)

/-- Parentheses, when what is in them has been bound. -/
theorem bindParen_settles (hp : p.IsBound) {inner : Expr}
    (hat : scope.At p k (Expr.paren node inner).nodes)
    (hbefore : s.Before p scope [.expr (.paren node inner)]) (hm : m.Sound s.comp)
    (ih : s.After p scope inner.nodes → p.Settles k scope.file inner m)
    (hafter : ((do
      copyConstant scope inner.id node.id
      recordMeaning scope node m).run s).2.After p scope (Expr.paren node inner).nodes) :
    p.Settles k scope.file (.paren node inner) ((do
      copyConstant scope inner.id node.id
      recordMeaning scope node m).run s).1 := by
  have hnode := hat.within.not_isName hp.toIsRead (Expr.mem_nodes _) rfl
  have hcopy {nodes : Set NodeRef} (hmem : ⟨scope.file, node.id⟩ ∈ nodes) :
      Finds nodes s.comp (copyConstant scope inner.id node.id) fun _ _ => True :=
    finds_copyConstant hmem
  have hmem : (⟨scope.file, node.id⟩ : NodeRef) ∈ ({⟨scope.file, node.id⟩} : Set NodeRef) := rfl
  have hafter₁ : s.After p scope inner.nodes := by
    refine hafter.last hat hbefore ?_ ?_
    · exact (hcopy hmem).bind fun _ _ hle _ => recordMeaning_finds hmem (hm.mono hle)
    · exact (copyConstant_marks hnode).bind (hcopy (Set.mem_univ _))
        fun _ _ hle _ => recordMeaning_marks node (hm.mono hle)
  have hinner : scope.At p k inner.nodes := hat.sublist (List.sublist_cons_self _ _)
  obtain ⟨hresult, -, hconstants⟩ := recordMeaning_run scope node m
    ((copyConstant scope inner.id node.id).run s).2
  rw [run_bind, hresult]
  refine settles_paren (ih hafter₁) ?_
  calc p.facts.constant? ⟨scope.file, node.id⟩
      = _ := hafter.constant? hat (Expr.mem_nodes _)
    _ = ((copyConstant scope inner.id node.id).run s).2.facts.constant? ⟨scope.file, node.id⟩ :=
        hconstants _
    _ = s.facts.constant? ⟨scope.file, inner.id⟩ := copyConstant_constant? s
        (hbefore.constant?_eq_none hat (.head _) (Expr.mem_nodes _))
    _ = p.facts.constant? ⟨scope.file, inner.id⟩ :=
        (hafter₁.constant? hinner (Expr.mem_nodes _)).symm

/-- A sum, when both sides have been bound. -/
theorem bindSum_settles (hp : p.IsBound) {left right : Expr} {m' : Meaning}
    (hat : scope.At p k (Expr.binary node .add left right).nodes)
    (hbefore : s.Before p scope [.expr (.binary node .add left right)]) (hm : m.Sound s.comp)
    (hm' : m'.Sound s.comp)
    (ih : s.After p scope (left.nodes ++ right.nodes) →
      p.Settles k scope.file left m ∧ p.Settles k scope.file right m')
    (hafter : ((do recordMeaning scope node (← bindBinary scope node .add left.node right.node
      m.valueType? m'.valueType?)).run s).2.After p scope
        (Expr.binary node .add left right).nodes) :
    p.Settles k scope.file (.binary node .add left right)
      ((do recordMeaning scope node (← bindBinary scope node .add left.node right.node
        m.valueType? m'.valueType?)).run s).1 := by
  have hnode := hat.within.not_isName hp.toIsRead (Expr.mem_nodes _) rfl
  have hsum {nodes : Set NodeRef} (hmem : ⟨scope.file, node.id⟩ ∈ nodes) :
      FindsMeaning nodes s.comp (bindBinary scope node .add left.node right.node m.valueType?
        m'.valueType?) := bindBinary_finds hmem hm.valueType? hm'.valueType? .add
  have hmem : (⟨scope.file, node.id⟩ : NodeRef) ∈ ({⟨scope.file, node.id⟩} : Set NodeRef) := rfl
  have hafter₁ : s.After p scope (left.nodes ++ right.nodes) := by
    refine hafter.last hat hbefore ?_ ?_
    · exact (hsum hmem).bind fun _ _ _ hm => recordMeaning_finds hmem hm
    · exact recordStep_marks (hsum (Set.mem_univ _)) (bindBinary_marks hnode _ _ _ _ _)
  have hparts : scope.At p k (left.nodes ++ right.nodes) := hat.sublist (List.sublist_cons_self _ _)
  have hside {side : Expr} (hside : side.nodes ⊆ left.nodes ++ right.nodes) :
      p.facts.constant? ⟨scope.file, side.id⟩ = s.facts.constant? ⟨scope.file, side.id⟩ :=
    hafter₁.constant? hparts (hside (Expr.mem_nodes _))
  obtain ⟨ihleft, ihright⟩ := ih hafter₁
  obtain ⟨hresult, -, hconstants⟩ := recordMeaning_run scope node
    ((bindSum scope node left.node right.node m.valueType? m'.valueType?).run s).1
    ((bindSum scope node left.node right.node m.valueType? m'.valueType?).run s).2
  rw [bindBinary, run_bind, hresult]
  refine settles_sum hbefore.registry (hside (List.subset_append_left _ _))
    (hside (List.subset_append_right _ _))
    (hbefore.constant?_eq_none hat (.head _) (Expr.mem_nodes _)) ihleft ihright ?_
  exact (hafter.constant? hat (Expr.mem_nodes _)).trans (hconstants _)

theorem bindExpr_settles_of_evaluates (hp : p.IsBound) (hk : k ≤ p.constFields.length)
    (hknows : (p.evaluated k).Knows p k) {c : Constant} (h : p.Evaluates scope.file e c)
    (hc : c = .string v) (hat : scope.At p k e.nodes) (hbefore : s.Before p scope e.nodes)
    (hafter : ((bindExpr scope e).run s).2.After p scope e.nodes) :
    p.Settles k scope.file e ((bindExpr scope e).run s).1 := by
  generalize hfile : scope.file = file at h
  induction h generalizing s v with
  | string =>
    subst hfile
    exact bindLiteral_settles hat hbefore hafter
  | integer | real | bool | null | neg => cases hc
  | nameof hnameof htext =>
    subst hfile
    exact bindNameof_settles hp hnameof htext hat hbefore hafter
  | @paren _ node inner _ _ ih =>
    have hinner : scope.At p k inner.nodes := hat.sublist (List.sublist_cons_self _ _)
    obtain ⟨hlead, hmarked, hm⟩ := bindExpr_leads hp.toIsRead hinner.within hbefore
    subst hfile
    rw [bindExpr] at hafter ⊢
    exact bindParen_settles hp hat (hbefore.behind hat hlead hmarked) hm
      (fun h => ih hc hinner (hbefore.mono (List.subset_cons_self _ _)) h rfl) hafter
  | @sum _ node left right _ _ _ _ ihleft ihright =>
    have hparts : scope.At p k (left.nodes ++ right.nodes) :=
      hat.sublist (List.sublist_cons_self _ _)
    have hleft := hparts.sublist (List.sublist_append_left _ _)
    have hright := hparts.sublist (List.sublist_append_right _ _)
    have hbefore₀ := hbefore.mono (List.subset_cons_self _ _)
    obtain ⟨hlead₁, hmarked₁, hm⟩ := bindExpr_leads hp.toIsRead hleft.within hbefore
    have hbefore₁ := hbefore₀.step hlead₁ hmarked₁ (List.subset_append_right _ _)
      fun n hn hexpr hn' => hparts.disjoint hn' hexpr hn
    obtain ⟨hlead₂, hmarked₂, hm'⟩ := bindExpr_leads hp.toIsRead hright.within hbefore₁
    subst hfile
    rw [bindExpr] at hafter ⊢
    refine bindSum_settles hp hat ?_ (hm.mono hlead₂.comp) hm' (fun hafter₂ => ⟨?_, ?_⟩) hafter
    · refine hbefore.behind hat (BindState.Leads.trans (hlead₁.mono fun n hn => ?_)
        (hlead₂.mono fun n hn => ?_)) (hmarked₁.trans hmarked₂)
      · exact List.map_subset _ (List.subset_append_left _ _) hn
      · exact List.map_subset _ (List.subset_append_right _ _) hn
    · refine ihleft rfl hleft (hbefore₀.mono (List.subset_append_left _ _)) ?_ rfl
      exact hafter₂.back hlead₂ hmarked₂ (List.subset_append_left _ _) fun n => hparts.disjoint
    · exact ihright rfl hright hbefore₁ (hafter₂.mono (List.subset_append_right _ _)) rfl
  | @name _ _ e _ _ _ hname =>
    subst hfile
    cases e with
    | identifier node name =>
      have hlead := bindExpr_leads hp.toIsRead hat.within hbefore
      rw [bindExpr] at hafter hlead ⊢
      exact hp.settles_of_isReference hk hknows rfl hat hbefore hafter hlead.1.comp
        ((bindIdentifier_names node name.text).record s hbefore.apart)
    | member node target name =>
      have htarget : scope.At p k target.nodes := hat.sublist (List.sublist_cons_self _ _)
      obtain ⟨hlead, hmarked, -⟩ := bindExpr_leads hp.toIsRead htarget.within hbefore
      rw [bindExpr] at hafter ⊢
      exact bindMember_settles hp hk hknows hat (hbefore.behind hat hlead hmarked) hafter
    | _ => cases hname

/-- **Expressions.**  Binding an expression in its stage finds out what is folded from it. -/
theorem bindExpr_settles (hp : p.IsBound) (hk : k ≤ p.constFields.length)
    (hknows : (p.evaluated k).Knows p k) (hat : scope.At p k e.nodes)
    (hbefore : s.Before p scope e.nodes)
    (hafter : ((bindExpr scope e).run s).2.After p scope e.nodes) :
    p.Settles k scope.file e ((bindExpr scope e).run s).1 := by
  by_cases hvalue : ∃ v, p.Evaluates scope.file e (.string v)
  · obtain ⟨v, hvalue⟩ := hvalue
    exact bindExpr_settles_of_evaluates hp hk hknows hvalue rfl hat hbefore hafter
  · exact hp.settles_of_not_evaluates (hat.within.writes (Expr.mem_nodes _))
      (not_exists.1 hvalue)

end PropertyLint
