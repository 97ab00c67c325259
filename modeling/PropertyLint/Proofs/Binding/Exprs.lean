/-
# Bound expressions are valid

What an expression means is given by valid numbers, and binding it says something only about the
nodes of the expression (`bindExpr_finds`); so it is with statements and bodies (`bindBody_finds`).
-/
import PropertyLint.Proofs.Binding.Types

namespace PropertyLint

open Binder

/-- The numbers in a meaning are valid. -/
def Meaning.Sound (c : Compilation) : Meaning → Prop
  | .value found => ∀ t ∈ found, c.IsType t
  | .type t => c.IsType t
  | .methods candidates => ∀ m ∈ candidates, c.Has m
  | .namespaceName _ | .nothing => True

variable {c c' : Compilation} {nodes : Set NodeRef} {scope : Scope} {m : Meaning}

theorem Meaning.Sound.mono (h : m.Sound c) (hle : c ≤ c') : m.Sound c' := by
  cases m with
  | value found => exact fun t ht => (h t ht).mono hle
  | type t => exact Compilation.IsType.mono h hle
  | methods candidates => exact fun m hm => (h m hm).mono hle
  | namespaceName _ | nothing => trivial

theorem Meaning.Sound.valueType? (h : m.Sound c) : ∀ t ∈ m.valueType?, c.IsType t := by
  cases m with
  | value found => exact h
  | _ => exact fun _ ht => by cases ht

theorem Meaning.sound_ofType? {found : Option SymbolId} (h : ∀ t ∈ found, c.IsType t) :
    (Meaning.ofType? found).Sound c := by
  cases found with
  | none => trivial
  | some t => exact h t rfl

/-- The step gives a meaning with valid numbers. -/
def Binder.FindsMeaning (nodes : Set NodeRef) (c : Compilation) (step : Binder Meaning) : Prop :=
  Finds nodes c step fun c' m => m.Sound c'

theorem finds_meaning (h : m.Sound c) : FindsMeaning nodes c (pure m) :=
  Finds.pure fun _ hle => h.mono hle

/-! ## Names -/

theorem bindLiteral_finds {node : Node} (hnode : ⟨scope.file, node.id⟩ ∈ nodes) (l : Literal) :
    FindsMeaning nodes c (bindLiteral scope node l) := by
  have hvalue {c : Compilation} (k : KeywordType) :
      FindsMeaning nodes c (do return .value (← keywordType? k)) :=
    (finds_typeNamed? _).bind fun _ _ _ hfound => finds_meaning hfound
  have hnone {c : Compilation} : FindsMeaning nodes c (pure (.value none)) :=
    finds_meaning fun _ ht => by cases ht
  unfold bindLiteral
  cases l.constant? with
  | some v =>
    refine (finds_recordConstant hnode v).bind fun _ _ _ _ => ?_
    cases l.type? with
    | some k => exact hvalue k
    | none => exact hnone
  | none =>
    cases l.type? with
    | some k => exact hvalue k
    | none => exact hnone

theorem memberMeaning_finds {node : Node} (hnode : ⟨scope.file, node.id⟩ ∈ nodes)
    {members : List SymbolId} (hmembers : ∀ m ∈ members, c.Has m) :
    FindsMeaning nodes c (memberMeaning scope node members) := by
  refine Finds.get fun s hs hle => ?_
  cases members with
  | nil => exact finds_meaning trivial
  | cons first rest =>
    dsimp only
    split
    · refine finds_meaning fun m hm => ?_
      exact (hmembers m (List.mem_filter.1 hm).1).mono hle
    · have hvalue {c : Compilation} (hle : s.comp ≤ c) :
          FindsMeaning nodes c (pure (.value (s.comp.valueType? first))) :=
        finds_meaning fun t ht => (hs.comp.isType_valueType? t ht).mono hle
      refine (finds_recordSymbol hnode ((hmembers first (.head _)).mono hle)).bind
        fun c₁ _ hle₁ _ => ?_
      split
      · exact (finds_recordConstant hnode _).bind fun _ _ hle₂ _ => hvalue (le_trans hle₁ hle₂)
      · exact hvalue hle₁

theorem bindIdentifier_finds {node : Node} (hscope : scope.Sound c)
    (hnode : ⟨scope.file, node.id⟩ ∈ nodes) (name : String) :
    FindsMeaning nodes c (bindIdentifier scope node name) := by
  refine Finds.get fun s hs hle => ?_
  have hscope := hscope.mono hle
  split
  next found hfound =>
    have hhas := hs.locals _ (mem_of_lookup hfound)
    refine (finds_recordSymbol hnode hhas).bind fun c₁ _ hle₁ _ => finds_meaning fun t ht => ?_
    exact (hs.comp.isType_valueType? t ht).mono hle₁
  next =>
    dsimp only
    split
    next members hfind =>
      refine memberMeaning_finds hnode fun m hm => ?_
      obtain ⟨owner, -, rfl⟩ := List.mem_map.1 (List.mem_of_find?_eq_some hfind)
      exact hs.comp.has_lookupMembers m hm
    next =>
      refine (simpleType_finds hscope (List.forall_mem_nil _)).bind fun c₁ found hle₁ hfound => ?_
      cases found with
      | some t => exact finds_meaning (hfound t rfl)
      | none =>
        refine Finds.comp fun c₂ _ _ => finds_meaning ?_
        split <;> trivial

theorem bindMember_finds {node : Node} (hnode : ⟨scope.file, node.id⟩ ∈ nodes) (target : Meaning)
    (name : String) : FindsMeaning nodes c (bindMember scope node target name) := by
  refine Finds.comp fun c₁ hc₁ _ => ?_
  cases target with
  | namespaceName container =>
    dsimp only
    split
    next t ht => exact finds_meaning (hc₁.isType_typeNamed? t ht)
    next =>
      refine finds_meaning ?_
      split <;> trivial
  | type t =>
    dsimp only
    split
    · exact (nestedType_finds (List.forall_mem_nil _)).bind
        fun _ _ _ hfound => finds_meaning (Meaning.sound_ofType? hfound)
    · exact memberMeaning_finds hnode hc₁.has_lookupMembers
  | value found =>
    cases found with
    | some t => exact memberMeaning_finds hnode hc₁.has_lookupMembers
    | none => exact finds_meaning trivial
  | methods _ | nothing => exact finds_meaning trivial

/-! ## Calls -/

theorem bindCall_finds {node callee : Node} (hnode : ⟨scope.file, node.id⟩ ∈ nodes)
    (hcallee : ⟨scope.file, callee.id⟩ ∈ nodes) (hm : m.Sound c) (args : List PassedArg) :
    FindsMeaning nodes c (bindCall scope node callee m args) := by
  have hnone {c : Compilation} : FindsMeaning nodes c (pure (.value none)) :=
    finds_meaning fun _ ht => by cases ht
  cases m with
  | methods candidates =>
    refine finds_compWithKnown.bind fun c₁ known _ ⟨hknown, hle, hle₁⟩ => ?_
    split
    next method hmethod =>
      have hhas : c₁.Has method :=
        (hm method (Compilation.mem_of_pickOverload hmethod)).mono (le_trans hle hle₁)
      refine (finds_recordSymbol hnode hhas).bind fun c₂ _ hle₂ _ => ?_
      refine (finds_recordSymbol hcallee (hhas.mono hle₂)).bind fun c₃ _ hle₃ _ => finds_meaning ?_
      exact fun t ht => (hknown.isType_returnType t ht).mono (le_trans hle₁ (le_trans hle₂ hle₃))
    next => exact hnone
  | _ => exact hnone

theorem bindConstructor_finds {node : NodeId} (hnode : ⟨scope.file, node⟩ ∈ nodes) (type : SymbolId)
    (args : List PassedArg) :
    Finds nodes c (bindConstructor scope node type args) fun _ _ => True := by
  refine finds_compWithKnown.bind fun c₁ known _ ⟨hknown, _, hle₁⟩ => ?_
  split
  next method hmethod =>
    refine finds_recordSymbol hnode ?_
    exact (hknown.has_membersNamed method (Compilation.mem_of_pickOverload hmethod)).mono hle₁
  next => exact Finds.pure fun _ _ => trivial

/-! ## Operators -/

theorem Compilation.isType_unify {c₁ : Compilation} {a b : Option SymbolId}
    (ha : ∀ t ∈ a, c.IsType t) (hb : ∀ t ∈ b, c.IsType t) : ∀ t ∈ c₁.unify a b, c.IsType t := by
  intro t ht
  unfold Compilation.unify at ht
  split at ht
  · split at ht
    · exact ha t ht
    · split at ht
      · exact hb t ht
      · cases ht
  · exact ha t ht
  · exact hb t ht

theorem isType_orElse {a b : Option SymbolId} (ha : ∀ t ∈ a, c.IsType t)
    (hb : ∀ t ∈ b, c.IsType t) : ∀ t ∈ (a <|> b), c.IsType t := by
  cases a with
  | none => exact hb
  | some t => exact ha

theorem bindSum_finds {node left right : Node} (hnode : ⟨scope.file, node.id⟩ ∈ nodes)
    {leftType rightType : Option SymbolId} (hleft : ∀ t ∈ leftType, c.IsType t)
    (hright : ∀ t ∈ rightType, c.IsType t) :
    FindsMeaning nodes c (bindSum scope node left right leftType rightType) := by
  refine (finds_typeNamed? _).bind fun c₁ string hle₁ hstring => ?_
  dsimp only
  split
  · have hvalue {c : Compilation} (hle : c₁ ≤ c) : FindsMeaning nodes c (pure (.value string)) :=
      finds_meaning fun t ht => (hstring t ht).mono hle
    refine finds_constant?.bind fun c₂ _ hle₂ _ => finds_constant?.bind fun c₃ _ hle₃ _ => ?_
    have hle := le_trans hle₂ hle₃
    split
    · exact (finds_recordConstant hnode _).bind fun _ _ hle₄ _ => hvalue (le_trans hle hle₄)
    · exact hvalue hle
  · exact finds_meaning fun t ht => (isType_orElse hleft hright t ht).mono hle₁

theorem bindBinary_finds {node left right : Node} (hnode : ⟨scope.file, node.id⟩ ∈ nodes)
    {leftType rightType : Option SymbolId} (hleft : ∀ t ∈ leftType, c.IsType t)
    (hright : ∀ t ∈ rightType, c.IsType t) (op : BinaryOp) :
    FindsMeaning nodes c (bindBinary scope node op left right leftType rightType) := by
  cases op with
  | add => exact bindSum_finds hnode hleft hright
  | sub | mul | div | rem => exact finds_meaning (isType_orElse hleft hright)
  | coalesce => exact finds_meaning (isType_orElse hright hleft)
  | _ => exact (finds_typeNamed? _).bind fun _ _ _ hfound => finds_meaning hfound

theorem arrayType_finds (hscope : scope.Sound c) (element : TypeRef)
    (hcovers : scope.Covers nodes element.nodes) : FindsType nodes c (arrayType scope element) :=
  FindsType.andThen (resolveType_finds hscope element hcovers) fun _ _ _ ht =>
    .made (finds_change_arrayOf ht)

/-! ## Expressions -/

theorem recordMeaning_finds {node : Node} (hnode : ⟨scope.file, node.id⟩ ∈ nodes)
    (hm : m.Sound c) : FindsMeaning nodes c (recordMeaning scope node m) := by
  have hpure {c' : Compilation} (hle : c ≤ c') : FindsMeaning nodes c' (pure m) :=
    finds_meaning (hm.mono hle)
  unfold recordMeaning
  split
  next t => exact (finds_recordType (hm t rfl)).bind fun _ _ hle _ => hpure hle
  next t =>
    exact (finds_recordSymbol hnode (Compilation.IsType.has hm)).bind fun _ _ hle _ => hpure hle
  next => exact hpure (le_refl c)

/-- The type of a value is found, and what the expression means is recorded. -/
theorem recordMeaning_value_finds {node : Node} {step : Binder (Option SymbolId)}
    (hnode : ⟨scope.file, node.id⟩ ∈ nodes) (h : FindsType nodes c step) :
    FindsMeaning nodes c (do recordMeaning scope node (.value (← step))) :=
  Finds.bind h fun _ _ _ hfound => recordMeaning_finds hnode hfound

theorem Expr.mem_of_covers {e : Expr} (h : scope.Covers nodes e.nodes) :
    ⟨scope.file, e.id⟩ ∈ nodes := by
  have he : .expr e ∈ e.nodes := by
    unfold Expr.nodes
    split <;> exact .head _
  exact h _ he

mutual

/-- An expression means something valid. -/
theorem bindExpr_finds {c : Compilation} (hscope : scope.Sound c) :
    ∀ e : Expr, scope.Covers nodes e.nodes → FindsMeaning nodes c (bindExpr scope e)
  | .literal node value, hcovers => by
    have hnode := Expr.mem_of_covers hcovers
    rw [bindExpr]
    exact (bindLiteral_finds hnode value).bind fun _ _ _ hm => recordMeaning_finds hnode hm
  | .identifier node name, hcovers => by
    have hnode := Expr.mem_of_covers hcovers
    rw [bindExpr]
    exact (bindIdentifier_finds hscope hnode _).bind fun _ _ _ hm => recordMeaning_finds hnode hm
  | .self node, hcovers => by
    rw [bindExpr]
    exact recordMeaning_finds (Expr.mem_of_covers hcovers) hscope.type
  | .base node, hcovers => by
    rw [bindExpr]
    refine Finds.comp fun c₁ hc₁ _ => ?_
    refine recordMeaning_finds (Expr.mem_of_covers hcovers) fun t ht => ?_
    obtain ⟨type, htype, hbase⟩ := Option.bind_eq_some_iff.1 ht
    obtain ⟨id, -, hid⟩ := Option.bind_eq_some_iff.1 htype
    exact (hc₁.sound hid).base t hbase
  | .member node target name, hcovers => by
    have hnode := Expr.mem_of_covers hcovers
    rw [Expr.nodes, Scope.covers_cons] at hcovers
    rw [bindExpr]
    refine (bindExpr_finds hscope target hcovers.2).bind fun c₁ m _ _ => ?_
    exact (bindMember_finds hnode m _).bind fun _ _ _ hm => recordMeaning_finds hnode hm
  | .invoke node callee ⟨_, args⟩, hcovers => by
    have hnode := Expr.mem_of_covers hcovers
    rw [Expr.nodes, Scope.covers_cons, Scope.covers_append] at hcovers
    have hcallee := Expr.mem_of_covers hcovers.2.1
    rw [bindExpr]
    split
    · refine (bindFirst_finds hscope args hcovers.2.2).bind fun c₁ text _ _ => ?_
      have hstring {c : Compilation} : FindsMeaning nodes c (do
          recordMeaning scope node (.value (← knownType? .string))) :=
        recordMeaning_value_finds hnode (finds_typeNamed? _)
      cases text with
      | some text => exact (finds_recordConstant hnode _).bind fun _ _ _ _ => hstring
      | none => exact hstring
    · refine (bindArgs_finds hscope args hcovers.2.2).bind fun c₁ passed hle₁ _ => ?_
      refine (bindExpr_finds (hscope.mono hle₁) callee hcovers.2.1).bind fun c₂ m _ hm => ?_
      exact (bindCall_finds hnode hcallee hm passed).bind
        fun _ _ _ hm => recordMeaning_finds hnode hm
  | .create node type none, hcovers => by
    have hnode := Expr.mem_of_covers hcovers
    rw [Expr.nodes, Scope.covers_cons] at hcovers
    rw [bindExpr]
    refine (resolveType_finds hscope type hcovers.2).bind fun c₁ created _ hcreated => ?_
    cases created with
    | some t =>
      exact (bindConstructor_finds hnode t []).bind fun _ _ hle _ =>
        recordMeaning_finds hnode fun t ht => (hcreated t ht).mono hle
    | none => exact recordMeaning_finds hnode hcreated
  | .create node type (some ⟨_, args⟩), hcovers => by
    have hnode := Expr.mem_of_covers hcovers
    rw [Expr.nodes, Scope.covers_cons, Scope.covers_append] at hcovers
    rw [bindExpr]
    refine (resolveType_finds hscope type hcovers.2.1).bind fun c₁ created hle₁ hcreated => ?_
    refine (bindArgs_finds (hscope.mono hle₁) args hcovers.2.2).bind fun c₂ passed hle₂ _ => ?_
    have hcreated : ∀ t ∈ created, c₂.IsType t := fun t ht => (hcreated t ht).mono hle₂
    cases created with
    | some t =>
      exact (bindConstructor_finds hnode t passed).bind fun _ _ hle _ =>
        recordMeaning_finds hnode fun t ht => (hcreated t ht).mono hle
    | none => exact recordMeaning_finds hnode hcreated
  | .createArray node type none, hcovers => by
    have hnode := Expr.mem_of_covers hcovers
    rw [Expr.nodes, Scope.covers_cons] at hcovers
    rw [bindExpr]
    exact recordMeaning_value_finds hnode (arrayType_finds hscope type hcovers.2)
  | .createArray node type (some size), hcovers => by
    have hnode := Expr.mem_of_covers hcovers
    rw [Expr.nodes, Scope.covers_cons, Scope.covers_append] at hcovers
    rw [bindExpr]
    refine (bindExpr_finds hscope size hcovers.2.2).bind fun c₁ _ hle₁ _ => ?_
    exact recordMeaning_value_finds hnode (arrayType_finds (hscope.mono hle₁) type hcovers.2.1)
  | .typeOf node type, hcovers => by
    have hnode := Expr.mem_of_covers hcovers
    rw [Expr.nodes, Scope.covers_cons] at hcovers
    rw [bindExpr]
    exact Finds.bind (resolveType_finds hscope type hcovers.2) fun _ _ _ _ =>
      recordMeaning_value_finds hnode (finds_typeNamed? _)
  | .default node none, hcovers => by
    rw [bindExpr]
    exact recordMeaning_finds (Expr.mem_of_covers hcovers) fun _ ht => by cases ht
  | .default node (some type), hcovers => by
    have hnode := Expr.mem_of_covers hcovers
    rw [Expr.nodes, Scope.covers_cons] at hcovers
    rw [bindExpr]
    exact recordMeaning_value_finds hnode (resolveType_finds hscope type hcovers.2)
  | .cast node type operand, hcovers => by
    have hnode := Expr.mem_of_covers hcovers
    rw [Expr.nodes, Scope.covers_cons, Scope.covers_append] at hcovers
    rw [bindExpr]
    refine (bindExpr_finds hscope operand hcovers.2.2).bind fun c₁ _ hle₁ _ => ?_
    exact recordMeaning_value_finds hnode (resolveType_finds (hscope.mono hle₁) type hcovers.2.1)
  | .asType node operand type, hcovers => by
    have hnode := Expr.mem_of_covers hcovers
    rw [Expr.nodes, Scope.covers_cons, Scope.covers_append] at hcovers
    rw [bindExpr]
    refine (bindExpr_finds hscope operand hcovers.2.2).bind fun c₁ _ hle₁ _ => ?_
    exact recordMeaning_value_finds hnode (resolveType_finds (hscope.mono hle₁) type hcovers.2.1)
  | .isType node operand type designation, hcovers => by
    have hnode := Expr.mem_of_covers hcovers
    rw [Expr.nodes, Scope.covers_cons, Scope.covers_append] at hcovers
    rw [bindExpr]
    refine (bindExpr_finds hscope operand hcovers.2.2).bind fun c₁ _ hle₁ _ => ?_
    refine (resolveType_finds (hscope.mono hle₁) type hcovers.2.1).bind fun c₂ found _ hfound => ?_
    have hbool {c : Compilation} : FindsMeaning nodes c (do
        recordMeaning scope node (.value (← knownType? .boolean))) :=
      recordMeaning_value_finds hnode (finds_typeNamed? _)
    cases designation with
    | some name =>
      refine (finds_add ?_ fun _ => Symbol.noConfusion).bind fun c₃ id _ hid => ?_
      · exact hfound
      · exact (finds_addLocal (Compilation.has_of_symbol? hid)).bind fun _ _ _ _ => hbool
    | none => exact hbool
  | .binary node op left right, hcovers => by
    have hnode := Expr.mem_of_covers hcovers
    rw [Expr.nodes, Scope.covers_cons, Scope.covers_append] at hcovers
    rw [bindExpr]
    refine (bindExpr_finds hscope left hcovers.2.1).bind fun c₁ m hle₁ hm => ?_
    refine (bindExpr_finds (hscope.mono hle₁) right hcovers.2.2).bind fun c₂ m' hle₂ hm' => ?_
    exact (bindBinary_finds hnode (hm.mono hle₂).valueType? hm'.valueType? op).bind
      fun _ _ _ hm => recordMeaning_finds hnode hm
  | .unary node .not operand, hcovers => by
    have hnode := Expr.mem_of_covers hcovers
    rw [Expr.nodes, Scope.covers_cons] at hcovers
    rw [bindExpr]
    exact (bindExpr_finds hscope operand hcovers.2).bind fun _ _ _ _ =>
      recordMeaning_value_finds hnode (finds_typeNamed? _)
  | .unary node .neg operand, hcovers => by
    have hnode := Expr.mem_of_covers hcovers
    rw [Expr.nodes, Scope.covers_cons] at hcovers
    rw [bindExpr]
    refine (bindExpr_finds hscope operand hcovers.2).bind fun c₁ m _ hm => ?_
    refine finds_constant?.bind fun c₂ v hle₂ _ => ?_
    have hvalue {c : Compilation} (hle : c₂ ≤ c) :
        FindsMeaning nodes c (recordMeaning scope node (.value m.valueType?)) :=
      recordMeaning_finds hnode ((hm.mono hle₂).mono hle).valueType?
    split
    · exact (finds_recordConstant hnode _).bind fun _ _ hle _ => hvalue hle
    · exact hvalue (le_refl _)
  | .conditional node condition whenTrue whenFalse, hcovers => by
    have hnode := Expr.mem_of_covers hcovers
    rw [Expr.nodes, Scope.covers_cons, Scope.covers_append, Scope.covers_append] at hcovers
    obtain ⟨-, hcondition, htrue, hfalse⟩ := hcovers
    rw [bindExpr]
    refine (bindExpr_finds hscope condition hcondition).bind fun c₁ _ hle₁ _ => ?_
    have hscope₁ := hscope.mono hle₁
    refine (bindExpr_finds hscope₁ whenTrue htrue).bind fun c₂ yes hle₂ hyes => ?_
    refine (bindExpr_finds (hscope₁.mono hle₂) whenFalse hfalse).bind fun c₃ no hle₃ hno => ?_
    refine finds_compWithKnown.bind fun c₄ known hle₄ _ => recordMeaning_finds hnode ?_
    exact Compilation.isType_unify (hyes.mono (le_trans hle₃ hle₄)).valueType?
      (hno.mono hle₄).valueType?
  | .assign node target value, hcovers => by
    have hnode := Expr.mem_of_covers hcovers
    rw [Expr.nodes, Scope.covers_cons, Scope.covers_append] at hcovers
    rw [bindExpr]
    refine (bindExpr_finds hscope target hcovers.2.1).bind fun c₁ m hle₁ hm => ?_
    refine (bindExpr_finds (hscope.mono hle₁) value hcovers.2.2).bind fun c₂ _ hle₂ _ => ?_
    exact recordMeaning_finds hnode (hm.mono hle₂).valueType?
  | .paren node inner, hcovers => by
    have hnode := Expr.mem_of_covers hcovers
    rw [Expr.nodes, Scope.covers_cons] at hcovers
    rw [bindExpr]
    refine (bindExpr_finds hscope inner hcovers.2).bind fun c₁ m _ hm => ?_
    exact (finds_copyConstant hnode).bind fun _ _ hle _ => recordMeaning_finds hnode (hm.mono hle)

theorem bindArgs_finds {c : Compilation} (hscope : scope.Sound c) : ∀ args : List (Argument Expr),
    scope.Covers nodes (nodesOfArgs args) → Finds nodes c (bindArgs scope args) fun _ _ => True
  | [], _ => .pure fun _ _ => trivial
  | ⟨node, name, value⟩ :: rest, hcovers => by
    rw [nodesOfArgs, Scope.covers_cons, Scope.covers_append] at hcovers
    rw [bindArgs]
    refine (bindExpr_finds hscope value hcovers.2.1).bind fun c₁ _ hle₁ _ => ?_
    exact (bindArgs_finds (hscope.mono hle₁) rest hcovers.2.2).bind fun _ _ _ _ =>
      .pure fun _ _ => trivial

theorem bindFirst_finds {c : Compilation} (hscope : scope.Sound c) : ∀ args : List (Argument Expr),
    scope.Covers nodes (nodesOfArgs args) → Finds nodes c (bindFirst scope args) fun _ _ => True
  | [], _ => .pure fun _ _ => trivial
  | ⟨node, name, value⟩ :: rest, hcovers => by
    rw [nodesOfArgs, Scope.covers_cons, Scope.covers_append] at hcovers
    rw [bindFirst]
    exact (bindExpr_finds hscope value hcovers.2.1).bind fun _ _ _ _ => .pure fun _ _ => trivial

end

theorem bindValue_finds (hscope : scope.Sound c) {e : Expr} (hcovers : scope.Covers nodes e.nodes) :
    FindsType nodes c (bindValue scope e) :=
  Finds.bind (bindExpr_finds hscope e hcovers) fun _ _ _ hm =>
    Finds.pure fun _ hle => (hm.mono hle).valueType?

theorem bindOption_finds (hscope : scope.Sound c) {e : Option Expr}
    (hcovers : scope.Covers nodes (nodesOfOption Expr.nodes e)) :
    Finds nodes c (bindOption scope e) fun _ _ => True := by
  cases e with
  | some e => exact Finds.discard (bindExpr_finds hscope e hcovers)
  | none => exact .pure fun _ _ => trivial

/-! ## Statements -/

theorem bindLocal_finds (hscope : scope.Sound c) {node : Node} {type : TypeRef} {name : Ident}
    {init : Option Expr} (htype : scope.Covers nodes type.nodes)
    (hinit : scope.Covers nodes (nodesOfOption Expr.nodes init)) :
    Finds nodes c (bindLocal scope node type name init) fun _ _ => True := by
  -- what follows the initial value
  have hdeclare {c : Compilation} {initType : Option SymbolId} (hscope : scope.Sound c)
      (hinit : ∀ t ∈ initType, c.IsType t) : Finds nodes c (do
        let type ← if type.isVar then pure initType else resolveType scope type
        let id ← add (.localVar ⟨name.text, type, scope.sourceRef node⟩)
        declare scope node.id id
        addLocal name.text id) fun _ _ => True := by
    have hadd {c : Compilation} {found : Option SymbolId} (hfound : ∀ t ∈ found, c.IsType t) :
        Finds nodes c (do
          let id ← add (.localVar ⟨name.text, found, scope.sourceRef node⟩)
          declare scope node.id id
          addLocal name.text id) fun _ _ => True := by
      refine (finds_add ?_ fun _ => Symbol.noConfusion).bind fun c₁ id _ hid => ?_
      · exact hfound
      have hhas := Compilation.has_of_symbol? hid
      exact (finds_declare hhas).bind fun _ _ hle _ => finds_addLocal (hhas.mono hle)
    dsimp only
    split
    · exact hadd hinit
    · exact (resolveType_finds hscope type htype).bind fun _ _ _ hfound => hadd hfound
  unfold bindLocal
  cases init with
  | some e =>
    exact (bindValue_finds hscope hinit).bind fun _ _ hle h => hdeclare (hscope.mono hle) h
  | none => exact hdeclare hscope fun _ ht => by cases ht

mutual

theorem bindStmt_finds {c : Compilation} (hscope : scope.Sound c) : ∀ s : Stmt,
    scope.Covers nodes s.nodes → Finds nodes c (bindStmt scope s) fun _ _ => True
  | .expression _ value, hcovers => by
    rw [Stmt.nodes, Scope.covers_cons] at hcovers
    rw [bindStmt]
    exact Finds.discard (bindExpr_finds hscope value hcovers.2)
  | .returning _ value, hcovers | .throwing _ value, hcovers => by
    rw [Stmt.nodes, Scope.covers_cons] at hcovers
    rw [bindStmt]
    exact bindOption_finds hscope hcovers.2
  | .localDecl node type name init, hcovers => by
    rw [Stmt.nodes, Scope.covers_cons, Scope.covers_append] at hcovers
    rw [bindStmt]
    exact bindLocal_finds hscope hcovers.2.1 hcovers.2.2
  | .branch _ condition yes none, hcovers => by
    rw [Stmt.nodes, Scope.covers_cons, Scope.covers_append] at hcovers
    rw [bindStmt]
    refine (bindExpr_finds hscope condition hcovers.2.1).bind fun c₁ _ hle₁ _ => ?_
    exact finds_withLocals (bindStmt_finds (hscope.mono hle₁) yes hcovers.2.2)
  | .branch _ condition yes (some no), hcovers => by
    rw [Stmt.nodes, Scope.covers_cons, Scope.covers_append, Scope.covers_append] at hcovers
    obtain ⟨-, hcondition, hyes, hno⟩ := hcovers
    rw [bindStmt]
    refine (bindExpr_finds hscope condition hcondition).bind fun c₁ _ hle₁ _ => ?_
    have hscope₁ := hscope.mono hle₁
    refine (finds_withLocals (bindStmt_finds hscope₁ yes hyes)).bind fun c₂ _ hle₂ _ => ?_
    exact finds_withLocals (bindStmt_finds (hscope₁.mono hle₂) no hno)
  | .block _ ⟨_, statements⟩, hcovers => by
    rw [Stmt.nodes, Scope.covers_cons] at hcovers
    rw [bindStmt]
    exact finds_withLocals (bindStmts_finds hscope statements hcovers.2)
  | .empty _, _ => .pure fun _ _ => trivial

theorem bindStmts_finds {c : Compilation} (hscope : scope.Sound c) : ∀ ss : List Stmt,
    scope.Covers nodes (nodesOfStmts ss) → Finds nodes c (bindStmts scope ss) fun _ _ => True
  | [], _ => .pure fun _ _ => trivial
  | s :: rest, hcovers => by
    rw [nodesOfStmts, Scope.covers_append] at hcovers
    rw [bindStmts]
    exact (bindStmt_finds hscope s hcovers.1).bind fun _ _ hle _ =>
      bindStmts_finds (hscope.mono hle) rest hcovers.2

end

theorem bindBody_finds (hscope : scope.Sound c) {body : Body}
    (hcovers : scope.Covers nodes body.nodes) :
    Finds nodes c (bindBody scope body) fun _ _ => True := by
  rw [Body.nodes, Scope.covers_append] at hcovers
  obtain ⟨hblock, harrow⟩ := hcovers
  unfold bindBody
  cases hbody : body.block with
  | some block =>
    rw [hbody] at hblock
    refine (finds_withLocals (bindStmts_finds hscope block.statements hblock)).bind
      fun _ _ hle _ => ?_
    exact bindOption_finds (hscope.mono hle) harrow
  | none => exact bindOption_finds hscope harrow

end PropertyLint
