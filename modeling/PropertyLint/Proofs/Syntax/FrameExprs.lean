/-
# Types and expressions on a piece of two texts

Where the parser of types or the one of expressions stops inside of a piece, it does the same in the
other text (`type_frames`, `expression_tracks`).  Of a type the range matters, and whether it is an
array; of an expression nothing does.
-/
import PropertyLint.Proofs.Syntax.Frame

namespace PropertyLint.Grammar

variable {c c' : Cursor}

namespace Frame

variable {F : Frame}

/-- The second parser comes to the same place as the first one. -/
def Tracks (F : Frame) {α β : Type} (p : Parser α) (q : Parser β) : Prop :=
  F.Frames (fun _ _ => True) p q

/-! ## Types -/

theorem atDottedWord_frames : F.Frames Eq atDottedWord atDottedWord :=
  .look (f := fun next s => next == .punct .dot && isWord s) (fun _ => rfl) (fun _ => rfl)
    (.of_marks (fun _ _ => rfl) (fun _ _ => rfl) fun _ _ => rfl)

section
variable {typeArg typeArg' : Parser TypeRef} [Onward typeArg] (harg : F.Tracks typeArg typeArg')
include harg

theorem nameSegment_tracks : F.Tracks (nameSegment typeArg) (nameSegment typeArg') := by
  refine .any .identifier fun _ _ => .same (.takeMark _) fun _ => .ite ?_ (.pure trivial)
  exact .any (.byComma harg) fun _ _ => .any (.expectMark _) fun _ _ => .pure trivial

theorem nameSegments_tracks (rounds rounds' : Nat) :
    F.Tracks (nameSegments typeArg rounds) (nameSegments typeArg' rounds') := by
  induction rounds generalizing rounds' with
  | zero => exact .failTooDeep
  | succ rounds ih =>
    cases rounds' with
    | zero => exact .tooDeep
    | succ rounds' =>
      refine .any (nameSegment_tracks harg) fun _ _ => .same atDottedWord_frames fun _ =>
        .ite ?_ (.pure trivial)
      exact .any .advance fun _ _ => .any (ih rounds') fun _ _ => .pure trivial

end

/-- The type is an array. -/
def IsArray : TypeRef → Prop
  | .array _ _ => True
  | _ => False

theorem exists_of_isArray {t : TypeRef} (h : IsArray t) : ∃ n element, t = .array n element := by
  cases t with
  | array n element => exact ⟨n, element, rfl⟩
  | _ => cases h

theorem typeSuffixes_frames (place : TypePlace) (start start' rounds rounds' : Nat)
    {t t' : TypeRef} (ht : IsArray t ↔ IsArray t') :
    F.Frames (fun t t' => IsArray t ↔ IsArray t') (typeSuffixes place start rounds t)
      (typeSuffixes place start' rounds' t') := by
  induction rounds generalizing rounds' t t' with
  | zero => exact .failTooDeep
  | succ rounds ih =>
    cases rounds' with
    | zero => exact .tooDeep
    | succ rounds' =>
      refine .choose (f := fun next s => next == .punct .openBracket && s == .punct .closeBracket)
        (fun _ => rfl) (fun _ => rfl)
        (.of_marks (fun _ _ => rfl) (fun _ _ => rfl) fun _ _ => rfl) ?_ ?_
      · exact .any .advance fun _ _ => .any .advance fun _ _ => .any (.someNode _ _) fun _ _ =>
          ih _ Iff.rfl
      cases place with
      | declaration =>
        refine .choose (f := fun next _ => next == .punct .question && true) (fun _ => rfl)
          (fun _ => rfl) (fun _ _ _ _ _ _ => rfl) ?_ (.pure ht)
        exact .any .advance fun _ _ => .any (.someNode _ _) fun _ _ => ih _ Iff.rfl
      | expression =>
        refine .choose (f := fun next s => next == .punct .question &&
            expressionEnds.any fun p => s == .punct p) (fun _ => rfl) (fun _ => rfl)
          (.of_marks (fun _ _ => rfl) (fun _ _ => rfl) fun _ _ => rfl) ?_ (.pure ht)
        exact .any .advance fun _ _ => .any (.someNode _ _) fun _ _ => ih _ Iff.rfl

theorem typeWith_frames {typeArg typeArg' : Parser TypeRef} [Onward typeArg]
    (harg : F.Tracks typeArg typeArg') (place : TypePlace) :
    F.Frames (fun t t' => IsArray t ↔ IsArray t') (typeWith typeArg place)
      (typeWith typeArg' place) := by
  refine .somewhere fun start start' => .same (o := fun next => ?_) .peek fun next => ?_
  · split
    · split <;> infer_instance
    · infer_instance
  split
  · split
    · exact .any .advance fun _ _ => .any (.someNode _ _) fun _ _ => .bound fun _ _ =>
        typeSuffixes_frames _ _ _ _ _ Iff.rfl
    · exact .bound fun _ _ => .any (nameSegments_tracks harg _ _) fun _ _ =>
        .any (.someNode _ _) fun _ _ => .bound fun _ _ => typeSuffixes_frames _ _ _ _ _ Iff.rfl
  · exact .failExpecting _

theorem typeToDepth_frames (depth depth' : Nat) (place : TypePlace) :
    F.Frames (fun t t' => IsArray t ↔ IsArray t') (typeToDepth depth place)
      (typeToDepth depth' place) := by
  induction depth generalizing depth' place with
  | zero => exact .failTooDeep
  | succ depth ih =>
    cases depth' with
    | zero => exact .tooDeep
    | succ depth' => exact typeWith_frames ((ih depth' _).mono fun _ _ _ => trivial) place

/-- Both types have one place in the piece, and both are arrays or none is. -/
def TypeAt (F : Frame) (t t' : TypeRef) : Prop :=
  F.RangeAt t.range t'.range ∧ (IsArray t ↔ IsArray t')

/-- **Types.**  The range of a type is what has been read. -/
theorem type_frames (place : TypePlace) : F.Frames F.TypeAt (type place) (type place) := by
  intro ws ws₁ c c' t c₁ hc hrun h₁ hopen
  have hframes : F.Frames (fun t t' => IsArray t ↔ IsArray t') (type place) (type place) :=
    .bound fun _ _ => typeToDepth_frames _ _ _
  have hne : ws ≠ [] := by
    rintro rfl
    have hlt := lt_of_type hrun
    rw [hc.tokens, h₁, List.length_append] at hlt
    exact absurd hlt (by simp)
  refine (hframes hc hrun h₁ hopen).imp_right ?_
  rintro ⟨t', c₁', hrun', hc₁, hform⟩
  refine ⟨t', c₁', hrun', hc₁, ?_, hform⟩
  rw [(type_reads hrun).2, (type_reads hrun').2]
  exact hc₁.rangeSince (hc.position hne)

theorem type_tracks (place : TypePlace) : F.Tracks (type place) (type place) :=
  (type_frames place).mono fun _ _ _ => trivial

theorem typeInParens_tracks : F.Tracks typeInParens typeInParens :=
  .any (.expectMark _) fun _ _ => .any (type_tracks _) fun _ _ => .any (.expectMark _) fun _ _ =>
    .pure trivial

theorem castType_tracks : F.Tracks castType castType :=
  .any typeInParens_tracks fun _ _ => .same .peek fun _ =>
    .ite (.pure trivial) (.of_not_runs fun c a c' => by simp)

/-- No border is among the tokens of a type. -/
theorem type_unbordered (place : TypePlace) : Unbordered (type place) := by
  have hstep {s s' : TypeState} {k : TokenKind} (h : s.step k = some s') : isBorder k = false := by
    rw [← Bool.not_eq_true]
    intro hk
    obtain rfl | rfl | rfl := isBorder_iff.1 hk <;> simp [TypeState.step] at h
  have hall {s s' : TypeState} {read : List Token} (h : s.run (read.map Token.kind) = some s') :
      ∀ u ∈ read, isBorder u.kind = false := by
    induction read generalizing s with
    | nil => exact List.forall_mem_nil _
    | cons u read ih =>
      obtain ⟨s₁, hs₁, hrun⟩ := Option.bind_eq_some_iff.1 h
      exact List.forall_mem_cons.2 ⟨hstep hs₁, ih hrun⟩
  intro c t c' h
  obtain ⟨⟨read, hread, hrun⟩, -⟩ := type_reads h
  exact ⟨read, hread, hall hrun⟩

theorem castType_unbordered : Unbordered castType := by
  have htype : Unbordered typeInParens :=
    .bind (.expectMark rfl) fun _ => .bind (type_unbordered _) fun _ =>
      .bind (.expectMark rfl) fun _ => .of_eq fun c a c' h => (runs_pure.1 h).2
  refine .bind htype fun _ => .bind (.of_eq fun c a c' h => (runs_peek.1 h).1) fun _ => .ite ?_ ?_
  · exact .of_eq fun c a c' h => (runs_pure.1 h).2
  · exact .of_not_runs fun c a c' => by simp

/-! ## Arguments -/

theorem argumentName_tracks (inAttribute : Bool) :
    F.Tracks (argumentName inAttribute) (argumentName inAttribute) := by
  have hnamed (kind : ArgumentNameKind) :
      F.Tracks (do let ident ← identifier; advance; return some (⟨ident, kind⟩ : ArgumentName))
        (do let ident ← identifier; advance; return some (⟨ident, kind⟩ : ArgumentName)) :=
    .any .identifier fun _ _ => .any .advance fun _ _ => .pure trivial
  refine .choice (f := fun next s => (isFreeWord next && s == .punct .colon,
      isFreeWord next && inAttribute && s == .punct .assign))
    (k := fun d => if d.1 then do let ident ← identifier; advance; return some ⟨ident, .colon⟩
      else if d.2 then do let ident ← identifier; advance; return some ⟨ident, .equals⟩
      else return none) (fun _ => rfl) (fun _ => rfl) ?_
    fun _ => .ite (hnamed _) (.ite (hnamed _) (.pure trivial))
  exact .of_marks (fun _ _ => rfl) (fun _ _ => rfl) fun _ _ => rfl

section
variable {expression expression' : Parser Expr} [Onward expression]
  (hexpr : F.Tracks expression expression')
include hexpr

theorem argument_tracks (inAttribute : Bool) :
    F.Tracks (argument expression inAttribute) (argument expression' inAttribute) := by
  have hvalue (start start' : Nat) (name name' : Option ArgumentName) : F.Tracks
      (expression >>= fun value => newNode start >>= fun n =>
        pure (⟨n, name, value⟩ : Argument Expr))
      (expression' >>= fun value => newNode start' >>= fun n =>
        pure (⟨n, name', value⟩ : Argument Expr)) :=
    .any hexpr fun _ _ => .any (.someNode _ _) fun _ _ => .pure trivial
  refine .somewhere fun _ _ => .any (argumentName_tracks _) fun _ _ => ?_
  refine .choose (f := fun next s => (["ref", "out"].any fun w => next == .word w) && isWord s)
    (fun _ => rfl) (fun _ => rfl) (.of_marks (fun _ _ => rfl) (fun _ _ => rfl) fun _ _ => rfl)
    (.any .advance fun _ _ => hvalue _ _ _ _) (hvalue _ _ _ _)

theorem argumentList_tracks (inAttribute : Bool) :
    F.Tracks (argumentList expression inAttribute) (argumentList expression' inAttribute) :=
  .somewhere fun _ _ => .any (.inParens (argument_tracks hexpr _)) fun _ _ =>
    .any (.someRange _ _) fun _ _ => .pure trivial

/-! ## Words, literals and postfix forms -/

omit hexpr [Onward expression] in
theorem initialized_tracks (start start' : Nat) (make make' : Node → Expr) :
    F.Tracks (initialized start make) (initialized start' make') := by
  have hnode : F.Tracks (newNode start >>= fun n => pure (make n))
      (newNode start' >>= fun n => pure (make' n)) :=
    .any (.someNode _ _) fun _ _ => .pure trivial
  exact .same (.atMark _) fun _ => .ite (.any (.skipPair _ _) fun _ _ => hnode) hnode

theorem createdOf_tracks (start start' : Nat) {type type' : TypeRef}
    (htype : IsArray type ↔ IsArray type') :
    F.Tracks (createdOf expression start type) (createdOf expression' start' type') := by
  unfold createdOf
  split <;> split
  · exact initialized_tracks _ _ _ _
  · rename_i hnot
    obtain ⟨n, element, rfl⟩ := exists_of_isArray (htype.1 trivial)
    exact absurd rfl (hnot n element)
  · rename_i hnot _ _ _
    obtain ⟨n, element, rfl⟩ := exists_of_isArray (htype.2 trivial)
    exact absurd rfl (hnot n element)
  · exact .same (.atMark _) fun _ => .ite (.any (.mapAny (argumentList_tracks hexpr _)) fun _ _ =>
      initialized_tracks _ _ _ _) (initialized_tracks _ _ _ _)

theorem creation_tracks (start start' : Nat) :
    F.Tracks (creation expression start) (creation expression' start') := by
  rw [creation_eq, creation_eq]
  refine .bind (type_frames _) fun _ _ htype => .same (.takeMark _) fun _ => .ite ?_
    (createdOf_tracks hexpr start start' htype.2)
  exact .any hexpr fun _ _ => .any (.expectMark _) fun _ _ => .any (.someNode _ _) fun _ _ =>
    .pure trivial

theorem wordExpression_tracks (word : String) (range range' : OffsetRange) :
    F.Tracks (wordExpression expression word range) (wordExpression expression' word range') := by
  have hnode (make make' : Node → Expr) :
      F.Tracks (newNode range.start >>= fun n => pure (make n))
        (newNode range'.start >>= fun n => pure (make' n)) :=
    .any (.someNode _ _) fun _ _ => .pure trivial
  refine .any (o := fun _ => ?_) .advance fun _ _ => ?_
  · split <;> infer_instance
  split
  case h_6 => exact .any typeInParens_tracks fun _ _ => hnode _ _
  case h_7 =>
    exact .same (.atMark _) fun _ => .ite (.any (.mapAny typeInParens_tracks) fun _ _ => hnode _ _)
      (.any .done fun _ _ => hnode _ _)
  case h_8 => exact creation_tracks hexpr _ _
  all_goals exact hnode _ _

theorem primary_tracks : F.Tracks (primary expression) (primary expression') := by
  refine .somewhere fun start start' => .get (o := fun _ => ?_) fun ws c c' hc hopen => ?_
  · split <;> infer_instance
  have hliteral (value : Literal) :
      F.Tracks (advance >>= fun _ => newNode start >>= fun n => pure (Expr.literal n value))
        (advance >>= fun _ => newNode start' >>= fun n => pure (Expr.literal n value)) :=
    .any .advance fun _ _ => .any (.someNode _ _) fun _ _ => .pure trivial
  obtain ⟨ws', htokens', hws⟩ := hc.tokens'
  have htokens := hc.tokens
  cases hws with
  | nil =>
    rw [(hopen rfl).1] at htokens
    simp only [htokens, List.append_nil]
    exact .failExpecting _
  | @cons t t' _ _ ht _ =>
    obtain ⟨kind, range, doc⟩ := t
    obtain ⟨kind', range', doc'⟩ := t'
    obtain rfl : kind = kind' := ht.1
    simp only [htokens, htokens', List.cons_append]
    cases kind with
    | word w => exact wordExpression_tracks hexpr w range range'
    | punct m =>
      cases m with
      | openParen =>
        exact .any .advance fun _ _ => .any hexpr fun _ _ => .any (.expectMark _) fun _ _ =>
          .any (.someNode _ _) fun _ _ => .pure trivial
      | _ => exact .failExpecting _
    | endOfText => exact .failExpecting _
    | _ => exact hliteral _

theorem postfixes_tracks (start start' rounds rounds' : Nat) (target target' : Expr) :
    F.Tracks (postfixes expression start rounds target)
      (postfixes expression' start' rounds' target') := by
  induction rounds generalizing rounds' target target' with
  | zero => exact .failTooDeep
  | succ rounds ih =>
    cases rounds' with
    | zero => exact .tooDeep
    | succ rounds' =>
      refine .same (.takeMark _) fun _ => .ite ?_ (.same (.atMark _) fun _ =>
        .ite ?_ (.pure trivial))
      · exact .any .identifier fun _ _ => .any (.someNode _ _) fun _ _ => ih _ _ _
      · exact .any (argumentList_tracks hexpr _) fun _ _ => .any (.someNode _ _) fun _ _ => ih _ _ _

theorem postfixed_tracks : F.Tracks (postfixed expression) (postfixed expression') :=
  .somewhere fun _ _ => .any (primary_tracks hexpr) fun _ _ => .bound fun _ _ =>
    postfixes_tracks hexpr _ _ _ _ _ _

/-! ## Operators -/

omit hexpr [Onward expression] in
theorem unaryOp_frames : F.Frames Eq unaryOp unaryOp :=
  .same (.takeMark _) fun _ => .ite (.pure rfl) <| .same (.takeMark _) fun _ =>
    .ite (.pure rfl) (.pure rfl)

theorem unaryWith_tracks {unary unary' : Parser Expr} [Onward unary]
    (hunary : F.Tracks unary unary') :
    F.Tracks (unaryWith unary expression) (unaryWith unary' expression') := by
  have hcast : F.Frames (Option.Rel fun _ _ => True) (attempt castType) (attempt castType) :=
    .attempt castType_tracks castType_tracks castType_unbordered
  have hbehind {start start' : Nat} {cast cast' : Option TypeRef}
      (h : Option.Rel (fun _ _ => True) cast cast') :
      F.Tracks (behindCast unary expression start cast)
        (behindCast unary' expression' start' cast') := by
    cases h with
    | some _ => exact .any hunary fun _ _ => .any (.someNode _ _) fun _ _ => .pure trivial
    | none => exact postfixed_tracks hexpr
  rw [unaryWith_eq, unaryWith_eq]
  refine .somewhere fun start start' => .same unaryOp_frames fun op => ?_
  cases op with
  | some op => exact .any hunary fun _ _ => .any (.someNode _ _) fun _ _ => .pure trivial
  | none =>
    exact .same (.atMark _) fun _ => .ite (.bind hcast fun _ _ => hbehind)
      (.bind (.pure .none) fun _ _ => hbehind)

end

theorem isPattern_tracks (start start' : Nat) (left left' : Expr) :
    F.Tracks (isPattern start left) (isPattern start' left') := by
  refine .same (.atWord _) fun _ => .ite ?_ ?_
  · exact .somewhere fun _ _ => .any .advance fun _ _ => .any (.someNode _ _) fun _ _ =>
      .any (.someNode _ _) fun _ _ => .pure trivial
  · refine .any (type_tracks _) fun _ _ => .same .peek fun _ => .ite (.any (.mapAny .identifier) ?_)
      (.any .done ?_) <;>
      exact fun _ _ => .any (.someNode _ _) fun _ _ => .pure trivial

set_option synthInstance.maxSize 512 in
theorem binaryRest_tracks {operand operand' : Parser Expr} [Onward operand]
    (hoperand : F.Tracks operand operand') (level : BinaryLevel) (start start' rounds rounds' : Nat)
    (left left' : Expr) :
    F.Tracks (binaryRest operand level start rounds left)
      (binaryRest operand' level start' rounds' left') := by
  induction rounds generalizing rounds' left left' with
  | zero => exact .failTooDeep
  | succ rounds ih =>
    cases rounds' with
    | zero => exact .tooDeep
    | succ rounds' =>
      rw [binaryRest_succ, binaryRest_succ]
      refine .same (.atWord _) fun _ => .ite ?_ (.same (.atWord _) fun _ => .ite ?_ ?_)
      · exact .any .advance fun _ _ => .any (isPattern_tracks _ _ _ _) fun _ _ => ih _ _ _
      · exact .any .advance fun _ _ => .any (type_tracks _) fun _ _ =>
          .any (.someNode _ _) fun _ _ => ih _ _ _
      · refine .same .peek fun next => ?_
        cases level.op? next with
        | some op =>
          exact .any .advance fun _ _ => .any hoperand fun _ _ =>
            .any (.someNode _ _) fun _ _ => ih _ _ _
        | none => exact .done

theorem binary_tracks {unary unary' : Parser Expr} [Onward unary] (hunary : F.Tracks unary unary')
    (levels : List BinaryLevel) : F.Tracks (binary unary levels) (binary unary' levels) := by
  induction levels with
  | nil => exact hunary
  | cons level tighter ih =>
    exact .somewhere fun _ _ => .any ih fun _ _ => .bound fun _ _ =>
      binaryRest_tracks ih _ _ _ _ _ _ _

theorem coalesceWith_tracks {coalesce coalesce' unary unary' : Parser Expr} [Onward coalesce]
    [Onward unary] (hcoalesce : F.Tracks coalesce coalesce') (hunary : F.Tracks unary unary') :
    F.Tracks (coalesceWith coalesce unary) (coalesceWith coalesce' unary') := by
  refine .somewhere fun _ _ => .any (binary_tracks hunary _) fun _ _ => .same (.takeMark _)
    fun _ => .ite ?_ (.pure trivial)
  exact .any hcoalesce fun _ _ => .any (.someNode _ _) fun _ _ => .pure trivial

section
variable {expression expression' coalesce coalesce' : Parser Expr} [Onward expression]
  [Onward coalesce] (hexpr : F.Tracks expression expression')
  (hcoalesce : F.Tracks coalesce coalesce')
include hexpr hcoalesce

omit [Onward coalesce] in
theorem conditionalWith_tracks :
    F.Tracks (conditionalWith expression coalesce) (conditionalWith expression' coalesce') := by
  refine .somewhere fun _ _ => .any hcoalesce fun _ _ => .same (.takeMark _) fun _ =>
    .ite ?_ (.pure trivial)
  exact .any hexpr fun _ _ => .any (.expectMark _) fun _ _ => .any hexpr fun _ _ =>
    .any (.someNode _ _) fun _ _ => .pure trivial

omit [Onward coalesce] in
theorem assignmentWith_tracks :
    F.Tracks (assignmentWith expression coalesce) (assignmentWith expression' coalesce') := by
  refine .somewhere fun _ _ => .any (conditionalWith_tracks hexpr hcoalesce) fun _ _ =>
    .same (.takeMark _) fun _ => .ite ?_ (.pure trivial)
  exact .any hexpr fun _ _ => .any (.someNode _ _) fun _ _ => .pure trivial

end

/-! ## Expressions -/

theorem toDepth_tracks (depth depth' : Nat) :
    F.Tracks (expressionToDepth depth) (expressionToDepth depth') ∧
      F.Tracks (coalesceToDepth depth) (coalesceToDepth depth') ∧
      F.Tracks (unaryToDepth depth) (unaryToDepth depth') := by
  induction depth generalizing depth' with
  | zero => exact ⟨.failTooDeep, .failTooDeep, .failTooDeep⟩
  | succ depth ih =>
    cases depth' with
    | zero => exact ⟨.tooDeep, .tooDeep, .tooDeep⟩
    | succ depth' =>
      obtain ⟨hexpr, hcoalesce, hunary⟩ := ih depth'
      exact ⟨assignmentWith_tracks hexpr hcoalesce, coalesceWith_tracks hcoalesce hunary,
        unaryWith_tracks hexpr hunary⟩

/-- **Expressions.** -/
theorem expression_tracks : F.Tracks expression expression :=
  .bound fun _ _ => (toDepth_tracks _ _).1

end Frame

end PropertyLint.Grammar
