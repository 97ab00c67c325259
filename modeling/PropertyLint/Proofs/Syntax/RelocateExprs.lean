/-
# Types and expressions on moved tokens

On moved tokens the parsers of types and expressions give the moved types and expressions
(`type_relocates`, `expression_relocates`).
-/
import PropertyLint.Proofs.Syntax.RelocateParser

namespace PropertyLint.Grammar

variable {φ : Nat → Nat} (hφ : Monotone φ)

/-! ## Types -/

theorem nullableHere_relocates (place : TypePlace) :
    Relocates φ (fun b => b) (nullableHere place) (nullableHere place) := by
  cases place with
  | declaration => exact .pure rfl
  | expression => exact .bind .peekSecond fun _ => .pure rfl

theorem atDottedWord_relocates : Relocates φ (fun b => b) atDottedWord atDottedWord :=
  .bind .peekSecond fun _ => .bind (.atMark _) fun _ => .pure rfl

section
variable {typeArg typeArg' : Parser TypeRef}
  (harg : Relocates φ (TypeRef.relocate φ) typeArg typeArg')
include harg

theorem nameSegment_relocates :
    Relocates φ (NameSegment.relocate φ) (nameSegment typeArg) (nameSegment typeArg') := by
  refine .bind .identifier fun _ => .bind (.takeMark _) fun _ => .ite ?_ (.pure rfl)
  exact .bind (.byComma harg) fun _ => .bind (.expectMark _) fun _ => .pure rfl

theorem nameSegments_relocates (rounds : Nat) :
    Relocates φ (List.map (NameSegment.relocate φ)) (nameSegments typeArg rounds)
      (nameSegments typeArg' rounds) := by
  induction rounds with
  | zero => exact .failTooDeep
  | succ rounds ih =>
    refine .bind (nameSegment_relocates harg) fun _ => .bind atDottedWord_relocates fun _ =>
      .ite ?_ (.pure rfl)
    exact .bind .advance fun _ => .bind ih fun _ => .pure rfl

end

section
include hφ

theorem typeSuffixes_relocates (place : TypePlace) (start rounds : Nat) (t : TypeRef) :
    Relocates φ (TypeRef.relocate φ) (typeSuffixes place start rounds t)
      (typeSuffixes place (φ start) rounds (t.relocate φ)) := by
  induction rounds generalizing t with
  | zero => exact .failTooDeep
  | succ rounds ih =>
    refine .bind (.atMark _) fun _ => .bind .peekSecond fun _ => .ite ?_ ?_
    · exact .bind .advance fun _ => .bind .advance fun _ => .bind (.newNode hφ start) fun _ => ih _
    · refine .bind (.atMark _) fun _ => .bind (nullableHere_relocates _) fun _ =>
        .ite ?_ (.pure rfl)
      exact .bind .advance fun _ => .bind (.newNode hφ start) fun _ => ih _

theorem typeWith_relocates {typeArg typeArg' : Parser TypeRef}
    (harg : Relocates φ (TypeRef.relocate φ) typeArg typeArg') (place : TypePlace) :
    Relocates φ (TypeRef.relocate φ) (typeWith typeArg place) (typeWith typeArg' place) := by
  refine .bind .position fun start => .bind .peek fun next => ?_
  split
  · split
    · exact .bind .advance fun _ => .bind (.newNode hφ start) fun _ => .bind .bound fun _ =>
        typeSuffixes_relocates hφ _ _ _ _
    · refine .bind .bound fun _ => .bind (nameSegments_relocates harg _) fun segments =>
        .bind (.newNode hφ start) fun node => .bind .bound fun rounds => ?_
      rw [← TypeRef.relocate_named]
      exact typeSuffixes_relocates hφ place start rounds _
  · exact .failExpecting _

theorem typeToDepth_relocates (depth : Nat) (place : TypePlace) :
    Relocates φ (TypeRef.relocate φ) (typeToDepth depth place) (typeToDepth depth place) := by
  induction depth generalizing place with
  | zero => exact .failTooDeep
  | succ depth ih => exact typeWith_relocates hφ (ih .declaration) place

theorem type_relocates (place : TypePlace) :
    Relocates φ (TypeRef.relocate φ) (type place) (type place) :=
  .bind .bound fun _ => typeToDepth_relocates hφ _ _

theorem typeInParens_relocates : Relocates φ (TypeRef.relocate φ) typeInParens typeInParens :=
  .bind (.expectMark _) fun _ => .bind (type_relocates hφ _) fun _ => .bind (.expectMark _) fun _ =>
    .pure rfl

theorem castType_relocates : Relocates φ (TypeRef.relocate φ) castType castType :=
  .bind (typeInParens_relocates hφ) fun _ => .bind .peek fun _ => .check (.pure rfl)

end

/-! ## Arguments -/

theorem argumentName_relocates (inAttribute : Bool) :
    Relocates φ (Option.map (ArgumentName.relocate φ)) (argumentName inAttribute)
      (argumentName inAttribute) := by
  refine .bind .peek fun _ => .bind .peekSecond fun _ => .ite ?_ (.ite ?_ (.pure rfl))
  · exact .bind .identifier fun _ => .bind .advance fun _ => .pure rfl
  · exact .bind .identifier fun _ => .bind .advance fun _ => .pure rfl

section
variable {expression expression' : Parser Expr}
  (hexpr : Relocates φ (Expr.relocate φ) expression expression')
include hφ hexpr

theorem argument_relocates (inAttribute : Bool) :
    Relocates φ (Argument.relocate φ) (argument expression inAttribute)
      (argument expression' inAttribute) := by
  refine .bind .position fun start => .bind (argumentName_relocates _) fun _ =>
    .bind (.atAnyWord _) fun _ => .bind .peekSecond fun _ => .optional .advance ?_
  exact .bind hexpr fun _ => .bind (.newNode hφ start) fun _ => .pure rfl

theorem argumentList_relocates (inAttribute : Bool) :
    Relocates φ (ArgumentList.relocate φ) (argumentList expression inAttribute)
      (argumentList expression' inAttribute) :=
  .bind .position fun start => .bind (.inParens (argument_relocates hφ hexpr _)) fun _ =>
    .bind (.rangeFrom hφ start) fun _ => .pure rfl

theorem creation_relocates (start : Nat) :
    Relocates φ (Expr.relocate φ) (creation expression start) (creation expression' (φ start)) := by
  refine .bind (type_relocates hφ _) fun created => .bind (.takeMark _) fun _ => .ite ?_ ?_
  · exact .bind hexpr fun _ => .bind (.expectMark _) fun _ => .bind (.newNode hφ start) fun _ =>
      .pure rfl
  · cases created with
    | array n element =>
      refine .bind (.atMark _) fun _ => .optional (.skipPair _ _) ?_
      exact .bind (.newNode hφ start) fun _ => .pure rfl
    | _ =>
      refine .bind (.atMark _) fun _ => .join (.some (argumentList_relocates hφ hexpr _))
        (.pure rfl) fun args => ?_
      refine .bind (.atMark _) fun _ => .optional (.skipPair _ _) ?_
      exact .bind (.newNode hφ start) fun _ => .pure (Expr.relocate_create ..)

theorem wordExpression_relocates (word : String) (range : OffsetRange) :
    Relocates φ (Expr.relocate φ) (wordExpression expression word range)
      (wordExpression expression' word (range.relocate φ)) := by
  refine .bind .advance fun _ => ?_
  have hnode := Relocates.newNode hφ range.start
  split
  case h_6 => exact .bind (typeInParens_relocates hφ) fun _ => .bind hnode fun _ => .pure rfl
  case h_7 =>
    exact .bind (.atMark _) fun _ => .join (.some (typeInParens_relocates hφ)) (.pure rfl)
      fun _ => .bind hnode fun _ => .pure rfl
  case h_8 => exact creation_relocates hφ hexpr range.start
  all_goals exact .bind hnode fun _ => .pure rfl

theorem primary_relocates :
    Relocates φ (Expr.relocate φ) (primary expression) (primary expression') := by
  refine .bind .position fun start => .bind .get fun c => ?_
  have hliteral (value : Literal) : Relocates φ (Expr.relocate φ)
      (advance >>= fun _ => newNode start >>= fun n => pure (.literal n value))
      (advance >>= fun _ => newNode (φ start) >>= fun n => pure (.literal n value)) :=
    .bind .advance fun _ => .bind (.newNode hφ start) fun _ => .pure rfl
  rcases h : c.tokens with _ | ⟨⟨kind, range, doc⟩, rest⟩
  · simpa only [Cursor.relocate, h] using .failExpecting _
  · simp only [Cursor.relocate, h, List.map_cons, Token.relocate]
    cases kind with
    | word w => exact wordExpression_relocates hφ hexpr w range
    | punct m =>
      cases m with
      | openParen =>
        exact .bind .advance fun _ => .bind hexpr fun _ => .bind (.expectMark _) fun _ =>
          .bind (.newNode hφ start) fun _ => .pure rfl
      | _ => exact .failExpecting _
    | endOfText => exact .failExpecting _
    | _ => exact hliteral _

theorem postfixes_relocates (start rounds : Nat) (target : Expr) :
    Relocates φ (Expr.relocate φ) (postfixes expression start rounds target)
      (postfixes expression' (φ start) rounds (target.relocate φ)) := by
  induction rounds generalizing target with
  | zero => exact .failTooDeep
  | succ rounds ih =>
    refine .bind (.takeMark _) fun _ => .ite ?_ (.bind (.atMark _) fun _ => .ite ?_ (.pure rfl))
    · exact .bind .identifier fun _ => .bind (.newNode hφ start) fun _ => ih _
    · refine .bind (argumentList_relocates hφ hexpr _) fun _ =>
        .bind (.newNode hφ start) fun _ => ?_
      rw [← Expr.relocate_invoke]
      exact ih _

theorem postfixed_relocates :
    Relocates φ (Expr.relocate φ) (postfixed expression) (postfixed expression') :=
  .bind .position fun _ => .bind (primary_relocates hφ hexpr) fun _ => .bind .bound fun _ =>
    postfixes_relocates hφ hexpr _ _ _

/-! ## Operators -/

omit hφ hexpr in
theorem unaryOp_relocates : Relocates φ (fun op => op) unaryOp unaryOp :=
  .bind (.takeMark _) fun _ => .ite (.pure rfl) <| .bind (.takeMark _) fun _ =>
    .ite (.pure rfl) (.pure rfl)

theorem unaryWith_relocates {unary unary' : Parser Expr}
    (hunary : Relocates φ (Expr.relocate φ) unary unary') :
    Relocates φ (Expr.relocate φ) (unaryWith unary expression) (unaryWith unary' expression') := by
  refine .bind .position fun start => .bind unaryOp_relocates fun op => ?_
  cases op with
  | some op => exact .bind hunary fun _ => .bind (.newNode hφ start) fun _ => .pure rfl
  | none =>
    refine .bind (.atMark _) fun _ => .join (.attempt (castType_relocates hφ)) (.pure rfl)
      fun cast => ?_
    cases cast with
    | some t => exact .bind hunary fun _ => .bind (.newNode hφ start) fun _ => .pure rfl
    | none => exact postfixed_relocates hφ hexpr

end

section
include hφ

theorem isPattern_relocates (start : Nat) (left : Expr) :
    Relocates φ (Expr.relocate φ) (isPattern start left)
      (isPattern (φ start) (left.relocate φ)) := by
  refine .bind (.atWord _) fun _ => .ite ?_ ?_
  · exact .bind .position fun nullStart => .bind .advance fun _ =>
      .bind (.newNode hφ nullStart) fun _ => .bind (.newNode hφ start) fun _ => .pure rfl
  · refine .bind (type_relocates hφ _) fun _ => .bind .peek fun _ => ?_
    exact .join (.some .identifier) (.pure rfl) fun _ =>
      .bind (.newNode hφ start) fun _ => .pure rfl

theorem binaryRest_relocates {operand operand' : Parser Expr}
    (hoperand : Relocates φ (Expr.relocate φ) operand operand') (level : BinaryLevel)
    (start rounds : Nat) (left : Expr) :
    Relocates φ (Expr.relocate φ) (binaryRest operand level start rounds left)
      (binaryRest operand' level (φ start) rounds (left.relocate φ)) := by
  induction rounds generalizing left with
  | zero => exact .failTooDeep
  | succ rounds ih =>
    refine .bind (.atWord _) fun _ => .ite ?_ (.bind (.atWord _) fun _ => .ite ?_ ?_)
    · exact .bind .advance fun _ => .bind (isPattern_relocates hφ start left) fun _ => ih _
    · exact .bind .advance fun _ => .bind (type_relocates hφ _) fun _ =>
        .bind (.newNode hφ start) fun _ => ih _
    · refine .bind .peek fun next => ?_
      cases level.op? next with
      | some op =>
        exact .bind .advance fun _ => .bind hoperand fun _ =>
          .bind (.newNode hφ start) fun _ => ih _
      | none => exact .pure rfl

theorem binary_relocates {unary unary' : Parser Expr}
    (hunary : Relocates φ (Expr.relocate φ) unary unary') (levels : List BinaryLevel) :
    Relocates φ (Expr.relocate φ) (binary unary levels) (binary unary' levels) := by
  induction levels with
  | nil => exact hunary
  | cons level tighter ih =>
    exact .bind .position fun _ => .bind ih fun _ => .bind .bound fun _ =>
      binaryRest_relocates hφ ih _ _ _ _

theorem coalesceWith_relocates {coalesce coalesce' unary unary' : Parser Expr}
    (hcoalesce : Relocates φ (Expr.relocate φ) coalesce coalesce')
    (hunary : Relocates φ (Expr.relocate φ) unary unary') :
    Relocates φ (Expr.relocate φ) (coalesceWith coalesce unary)
      (coalesceWith coalesce' unary') := by
  refine .bind .position fun start => .bind (binary_relocates hφ hunary _) fun _ =>
    .bind (.takeMark _) fun _ => .ite ?_ (.pure rfl)
  exact .bind hcoalesce fun _ => .bind (.newNode hφ start) fun _ => .pure rfl

section
variable {expression expression' coalesce coalesce' : Parser Expr}
  (hexpr : Relocates φ (Expr.relocate φ) expression expression')
  (hcoalesce : Relocates φ (Expr.relocate φ) coalesce coalesce')
include hexpr hcoalesce

theorem conditionalWith_relocates :
    Relocates φ (Expr.relocate φ) (conditionalWith expression coalesce)
      (conditionalWith expression' coalesce') := by
  refine .bind .position fun start => .bind hcoalesce fun _ => .bind (.takeMark _) fun _ =>
    .ite ?_ (.pure rfl)
  exact .bind hexpr fun _ => .bind (.expectMark _) fun _ => .bind hexpr fun _ =>
    .bind (.newNode hφ start) fun _ => .pure rfl

theorem assignmentWith_relocates :
    Relocates φ (Expr.relocate φ) (assignmentWith expression coalesce)
      (assignmentWith expression' coalesce') := by
  refine .bind .position fun start => .bind (conditionalWith_relocates hφ hexpr hcoalesce) fun _ =>
    .bind (.takeMark _) fun _ => .ite ?_ (.pure rfl)
  exact .bind hexpr fun _ => .bind (.newNode hφ start) fun _ => .pure rfl

end

/-! ## Expressions -/

theorem toDepth_relocates (depth : Nat) :
    Relocates φ (Expr.relocate φ) (expressionToDepth depth) (expressionToDepth depth) ∧
      Relocates φ (Expr.relocate φ) (coalesceToDepth depth) (coalesceToDepth depth) ∧
      Relocates φ (Expr.relocate φ) (unaryToDepth depth) (unaryToDepth depth) := by
  induction depth with
  | zero => exact ⟨.failTooDeep, .failTooDeep, .failTooDeep⟩
  | succ depth ih =>
    obtain ⟨hexpr, hcoalesce, hunary⟩ := ih
    exact ⟨assignmentWith_relocates hφ hexpr hcoalesce,
      coalesceWith_relocates hφ hcoalesce hunary, unaryWith_relocates hφ hexpr hunary⟩

theorem expression_relocates : Relocates φ (Expr.relocate φ) expression expression :=
  .bind .bound fun _ => (toDepth_relocates hφ _).1

end

end PropertyLint.Grammar
