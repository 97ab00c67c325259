/-
# How types and expressions are laid out

Every type and every expression that is read is well nested (`type_lays`, `expression_lays`).  The
operand that a postfix form or a binary operator takes over has been read already, so the loops
carry what has been laid out since the start of the first operand.
-/
import PropertyLint.Proofs.Syntax.Laid

namespace PropertyLint.Grammar

variable {s : Source} {c₀ c c' : Cursor}

/-! ## Types -/

section
variable {typeArg : Parser TypeRef} (harg : Lays s typeArg fun t => [.type t])
include harg

theorem nameSegment_lays : Lays s (nameSegment typeArg) NameSegment.parts := by
  intro c seg c' hin h
  simp [nameSegment] at h
  obtain ⟨i, c₁, hi, ⟨⟨-, rfl⟩, rfl⟩ | ⟨-, args, c₂, hargs, ⟨-, rfl⟩, rfl⟩⟩ := h
  · exact identifier_lays hin hi
  · have hname := (identifier_lays hin hi).advance
    have hlist := (byComma_lays harg hname.right hargs).advance
    exact hname.append hlist

theorem nameSegments_lays (rounds : Nat) :
    Lays s (nameSegments typeArg rounds) fun segments => segments.flatMap NameSegment.parts := by
  induction rounds with
  | zero =>
    intro c ss c' hin h
    simp [nameSegments] at h
  | succ rounds ih =>
    intro c ss c' hin h
    simp [nameSegments, atDottedWord] at h
    obtain ⟨seg, c₁, hfirst, ⟨-, ss', hrest, rfl⟩ | ⟨-, rfl, rfl⟩⟩ := h
    · have hfirst := (nameSegment_lays harg hin hfirst).advance
      exact hfirst.append (ih hfirst.right hrest)
    · simpa using nameSegment_lays harg hin hfirst

omit harg in
theorem ne_nil_of_nameSegments {rounds : Nat} {segments : List NameSegment}
    (h : Runs (nameSegments typeArg rounds) c segments c') : segments ≠ [] := by
  cases rounds with
  | zero => simp [nameSegments] at h
  | succ rounds =>
    simp [nameSegments, atDottedWord] at h
    obtain ⟨seg, c₁, -, ⟨-, ss', -, rfl⟩ | ⟨-, rfl, rfl⟩⟩ := h <;> simp

end

theorem typeSuffixes_lays {place : TypePlace} {rounds : Nat} {type t : TypeRef}
    (htype : Laid s c₀ [.type type] c)
    (h : Runs (typeSuffixes place c₀.position rounds type) c t c') : Laid s c₀ [.type t] c' := by
  induction rounds generalizing type c with
  | zero => simp [typeSuffixes] at h
  | succ rounds ih =>
    simp [typeSuffixes] at h
    obtain ⟨-, h⟩ | ⟨-, ⟨-, h⟩ | ⟨-, rfl, rfl⟩⟩ := h
    · exact ih (htype.advance.advance.parent (p := .type (.array _ type))
        (List.cons_ne_nil _ _) rfl) h
    · exact ih (htype.advance.parent (p := .type (.nullable _ type))
        (List.cons_ne_nil _ _) rfl) h
    · exact htype

theorem typeWith_lays {typeArg : Parser TypeRef} (harg : Lays s typeArg fun t => [.type t])
    (place : TypePlace) : Lays s (typeWith typeArg place) fun t => [.type t] := by
  intro c t c' hin h
  cases hhead : c.head with
  | word w =>
    cases hkeyword : KeywordType.ofKeyword? w with
    | some k =>
      simp [typeWith, hhead, hkeyword] at h
      have hlt := here_lt_advance hin hhead (by simp)
      exact typeSuffixes_lays
        ((Laid.nil hin c.reaches_advance).node (p := .type (.keyword _ k)) hlt rfl
          (Part.integerIn_of_none rfl)) h
    | none =>
      simp [typeWith, hhead, hkeyword] at h
      obtain ⟨segments, c₁, hsegments, h⟩ := h
      have hne : (Part.type (.named ⟨c₁.fresh, c₁.rangeSince c.position⟩ segments)).parts ≠ [] := by
        obtain ⟨seg, segments, rfl⟩ :=
          List.exists_cons_of_ne_nil (ne_nil_of_nameSegments hsegments)
        simp [Part.parts, TypeRef.parts, NameSegment.parts]
      exact typeSuffixes_lays ((nameSegments_lays harg _ hin hsegments).parent hne rfl) h
  | _ => simp [typeWith, hhead] at h

theorem typeToDepth_lays (depth : Nat) (place : TypePlace) :
    Lays s (typeToDepth depth place) fun t => [.type t] := by
  induction depth generalizing place with
  | zero =>
    intro c t c' hin h
    simp [typeToDepth] at h
  | succ depth ih => exact typeWith_lays (ih .declaration) place

theorem type_lays (place : TypePlace) : Lays s (type place) fun t => [.type t] := by
  intro c t c' hin h
  simp only [type, runs_bind, runs_bound] at h
  obtain ⟨n, c₁, ⟨rfl, rfl⟩, h⟩ := h
  exact typeToDepth_lays _ place hin h

theorem typeInParens_lays : Lays s typeInParens fun t => [.type t] := by
  intro c t c' hin h
  simp [typeInParens] at h
  obtain ⟨-, c₁, ht, -, rfl⟩ := h
  have hopen := Laid.nil hin c.reaches_advance
  exact (hopen.append (type_lays _ hopen.right ht)).advance

/-! ## Arguments -/

theorem argumentName_lays (inAttribute : Bool) :
    Lays s (argumentName inAttribute) fun name => name.toList.map fun n => .ident n.ident := by
  intro c name c' hin h
  simp [argumentName] at h
  obtain ⟨-, i, c₁, hi, rfl, rfl⟩ | ⟨-, ⟨-, i, c₁, hi, rfl, rfl⟩ | ⟨-, rfl, rfl⟩⟩ := h
  · exact (identifier_lays hin hi).advance
  · exact (identifier_lays hin hi).advance
  · exact .nil hin (.refl c)

section
variable {expression : Parser Expr} (hexpr : Lays s expression fun e => [.expr e])
include hexpr

theorem argument_lays (inAttribute : Bool) :
    Lays s (argument expression inAttribute) fun a => [.argument a] := by
  intro c a c' hin h
  simp [argument] at h
  obtain ⟨name, c₁, hname, h⟩ := h
  have hname := argumentName_lays inAttribute hin hname
  obtain ⟨-, e, c₂, he, rfl, rfl⟩ | ⟨-, e, c₂, he, rfl, rfl⟩ := h
  · have hname := hname.advance
    have hvalue := hname.append (hexpr hname.right he)
    exact hvalue.parent (p := .argument ⟨_, name, e⟩) (by simp [Part.parts, Argument.parts]) rfl
  · have hvalue := hname.append (hexpr hname.right he)
    exact hvalue.parent (p := .argument ⟨_, name, e⟩) (by simp [Part.parts, Argument.parts]) rfl

theorem argumentList_lays (inAttribute : Bool) :
    Lays s (argumentList expression inAttribute) fun list => [.args list] := by
  intro c list c' hin h
  simp [argumentList] at h
  obtain ⟨args, hargs, rfl⟩ := h
  obtain ⟨hlaid, hlt⟩ := inParens_lays (argument_lays hexpr inAttribute) hin hargs
  exact hlaid.close (p := .args ⟨_, args⟩) hlt rfl rfl rfl

/-! ## Words, literals and postfix forms -/

omit hexpr in
/-- A node around parts, with an initializer between braces behind them or without one. -/
theorem braces_lays {ps : List Part} {e : Expr} (h₀ : Laid s c₀ ps c) (hne : ps ≠ [])
    (make : Node → Expr) (hparts : ∀ n, (make n).parts = ps)
    (hnode : ∀ n, (make n).node = n)
    (h : (c.head = .punct .openBrace ∧ ∃ u c₁, Runs (skipPair .openBrace .closeBrace) c u c₁ ∧
        c₁.renew = c' ∧ make ⟨c₁.fresh, c₁.rangeSince c₀.position⟩ = e) ∨
      ¬ c.head = .punct .openBrace ∧ c.renew = c' ∧
        make ⟨c.fresh, c.rangeSince c₀.position⟩ = e) : Laid s c₀ [.expr e] c' := by
  have hmake {c₁ : Cursor} (hlaid : Laid s c₀ ps c₁) :
      Laid s c₀ [.expr (make ⟨c₁.fresh, c₁.rangeSince c₀.position⟩)] c₁.renew :=
    Laid.parent (p := .expr (make _)) (by rwa [Part.parts, hparts])
      (by rwa [Part.parts, hparts]) (congrArg some (hnode _))
  obtain ⟨-, u, c₁, hu, rfl, rfl⟩ | ⟨-, rfl, rfl⟩ := h
  · exact hmake (h₀.reach (reaches_of_skipPair hu))
  · exact hmake h₀

theorem creation_lays {e : Expr} (hnew : Laid s c₀ [] c)
    (h : Runs (creation expression c₀.position) c e c') : Laid s c₀ [.expr e] c' := by
  simp [creation] at h
  obtain ⟨created, c₁, htype, h⟩ := h
  have htype := hnew.append (type_lays _ hnew.right htype)
  -- the size of an array between brackets
  have hsized {size : Expr} {c₂ : Cursor} (h : Runs expression c₁.advance size c₂) :
      Laid s c₀ [.expr (.createArray ⟨c₂.advance.fresh, c₂.advance.rangeSince c₀.position⟩ created
        (some size))] c₂.advance.renew := by
    have hsize := (htype.advance.append (hexpr htype.advance.right h)).advance
    exact hsize.parent (p := .expr (.createArray _ created (some size)))
      (List.cons_ne_nil _ _) rfl
  cases created with
  | array n element =>
    simp at h
    -- the type of the elements is the only part of the array type
    have helement : Laid s c₀ [.type element] c₁ := htype.parts
    obtain ⟨-, h⟩ | ⟨-, size, c₂, hsize, -, rfl, rfl⟩ := h
    · exact braces_lays helement (List.cons_ne_nil _ _) (fun n => .createArray n element none)
        (fun _ => rfl) (fun _ => rfl) h
    · exact hsized hsize
  | _ =>
    simp at h
    obtain ⟨-, ⟨-, args, c₂, hargs, h⟩ | ⟨-, h⟩⟩ | ⟨-, size, c₂, hsize, -, rfl, rfl⟩ := h
    · have hargs := htype.append (argumentList_lays hexpr false htype.right hargs)
      exact braces_lays hargs (List.cons_ne_nil _ _) (fun n => .create n _ (some args))
        (fun _ => rfl) (fun _ => rfl) h
    · exact braces_lays htype (List.cons_ne_nil _ _) (fun n => .create n _ none)
        (fun _ => rfl) (fun _ => rfl) h
    · exact hsized hsize

theorem wordExpression_lays {word : String} {range : OffsetRange} {doc : Option OffsetRange}
    {rest : List Token} {e : Expr} (hin : Within s.tokens c)
    (htokens : c.tokens = ⟨.word word, range, doc⟩ :: rest)
    (h : Runs (wordExpression expression word range) c e c') : Laid s c [.expr e] c' := by
  have hposition : c.position = range.start := by rw [Cursor.position, htokens]
  have hlt : c.here < c.advance.last := s.here_lt_last hin (Cursor.reads_advance htokens)
  have hword := Laid.nil hin c.reaches_advance
  simp [wordExpression] at h
  rw [← hposition] at h
  -- a word that stands for itself
  have hleaf {e : Expr} (hparts : e.parts = [])
      (hnode : e.node = ⟨c.advance.fresh, c.advance.rangeSince c.position⟩)
      (hinteger : (Part.expr e).integer? = none) : Laid s c [.expr e] c.advance.renew :=
    Laid.node (p := .expr e) (by rwa [Part.parts, hparts]) hlt (congrArg some hnode)
      (Part.integerIn_of_none hinteger)
  split at h
  case h_1 | h_2 | h_3 | h_4 | h_5 =>
    simp at h
    obtain ⟨rfl, rfl⟩ := h
    exact hleaf rfl rfl rfl
  case h_6 =>
    simp at h
    obtain ⟨t, c₁, ht, rfl, rfl⟩ := h
    have ht := hword.append (typeInParens_lays hword.right ht)
    exact ht.parent (p := .expr (.typeOf _ t)) (List.cons_ne_nil _ _) rfl
  case h_7 =>
    simp at h
    obtain ⟨-, t, c₁, ht, rfl, rfl⟩ | ⟨-, rfl, rfl⟩ := h
    · have ht := hword.append (typeInParens_lays hword.right ht)
      exact ht.parent (p := .expr (.default _ (some t))) (List.cons_ne_nil _ _) rfl
    · exact hleaf rfl rfl rfl
  case h_8 => exact creation_lays hexpr hword h
  case h_9 =>
    simp at h
    obtain ⟨rfl, rfl⟩ := h
    have hrun : Runs identifier c ⟨word, range⟩ c.advance :=
      runs_identifier.2 ⟨rfl, doc, rest, htokens⟩
    exact (identifier_lays hin hrun).parent (p := .expr (.identifier _ ⟨word, range⟩))
      (List.cons_ne_nil _ _) rfl

theorem primary_lays : Lays s (primary expression) fun e => [.expr e] := by
  intro c e c' hin h
  cases htokens : c.tokens with
  | nil => simp [primary, htokens] at h
  | cons t rest =>
    obtain ⟨kind, range, doc⟩ := t
    have hlt : c.here < c.advance.last := s.here_lt_last hin (Cursor.reads_advance htokens)
    have hfirst := Laid.nil hin c.reaches_advance
    cases kind with
    | word w =>
      simp [primary, htokens] at h
      exact wordExpression_lays hexpr hin htokens h
    | punct p =>
      -- of all marks only the opening parenthesis starts an expression
      by_cases hp : p = .openParen
      · subst hp
        simp [primary, htokens] at h
        obtain ⟨inner, c₁, hinner, -, rfl, rfl⟩ := h
        have hinner := (hfirst.append (hexpr hfirst.right hinner)).advance
        exact hinner.parent (p := .expr (.paren _ inner)) (List.cons_ne_nil _ _) rfl
      · simp [primary, htokens, hp] at h
    | endOfText => simp [primary, htokens] at h
    | integer value =>
      simp [primary, htokens] at h
      obtain ⟨rfl, rfl⟩ := h
      refine hfirst.node (p := .expr (.literal _ (.integer value))) hlt rfl ?_
      rintro _ ⟨⟩
      obtain ⟨front, hfront, -⟩ := hin
      exact ⟨⟨.integer value, range, doc⟩, by simp [hfront, htokens], rfl⟩
    | _ =>
      simp [primary, htokens] at h
      obtain ⟨rfl, rfl⟩ := h
      exact hfirst.node (p := .expr (.literal _ _)) hlt rfl (Part.integerIn_of_none rfl)

theorem postfixes_lays {rounds : Nat} {target e : Expr} (htarget : Laid s c₀ [.expr target] c)
    (h : Runs (postfixes expression c₀.position rounds target) c e c') :
    Laid s c₀ [.expr e] c' := by
  induction rounds generalizing target c with
  | zero => simp [postfixes] at h
  | succ rounds ih =>
    simp [postfixes] at h
    obtain ⟨-, ⟨-, args, c₁, hargs, h⟩ | ⟨-, rfl, rfl⟩⟩ | ⟨-, name, c₁, hname, h⟩ := h
    · have hargs := htarget.append (argumentList_lays hexpr false htarget.right hargs)
      exact ih (hargs.parent (p := .expr (.invoke _ target args)) (List.cons_ne_nil _ _) rfl) h
    · exact htarget
    · have htarget := htarget.advance
      have hname := htarget.append (identifier_lays htarget.right hname)
      exact ih (hname.parent (p := .expr (.member _ target name)) (List.cons_ne_nil _ _) rfl) h

theorem postfixed_lays : Lays s (postfixed expression) fun e => [.expr e] := by
  intro c e c' hin h
  simp [postfixed] at h
  obtain ⟨target, c₁, htarget, h⟩ := h
  exact postfixes_lays hexpr (primary_lays hexpr hin htarget) h

/-! ## Operators -/

omit hexpr in
theorem castType_lays : Lays s castType fun t => [.type t] := by
  intro c t c' hin h
  simp [castType] at h
  exact typeInParens_lays hin h.1

theorem unaryWith_lays {unary : Parser Expr} (hunary : Lays s unary fun e => [.expr e]) :
    Lays s (unaryWith unary expression) fun e => [.expr e] := by
  intro c e c' hin h
  -- an operator in front of its operand
  have hoperator {op : UnaryOp} {operand : Expr} {c₁ : Cursor}
      (h : Runs unary c.advance operand c₁) :
      Laid s c [.expr (.unary ⟨c₁.fresh, c₁.rangeSince c.position⟩ op operand)] c₁.renew := by
    have hsign := Laid.nil hin c.reaches_advance
    exact (hsign.append (hunary hsign.right h)).parent (p := .expr (.unary _ op operand))
      (List.cons_ne_nil _ _) rfl
  simp [unaryWith, unaryOp] at h
  obtain ⟨-, op, c₁, ⟨⟨-, rfl⟩, rfl⟩ | ⟨⟨-, rfl⟩, rfl⟩, h⟩ | ⟨-, operand, c₁, h, rfl, rfl⟩ := h
  · simp at h
    obtain ⟨-, cast, c₁, ⟨t, ht, rfl⟩ | ⟨hno, rfl⟩, h⟩ | ⟨-, h⟩ := h
    · simp at h
      obtain ⟨operand, c₂, h, rfl, rfl⟩ := h
      have ht := castType_lays hin ht
      exact (ht.append (hunary ht.right h)).parent (p := .expr (.cast _ t operand))
        (List.cons_ne_nil _ _) rfl
    · have hno := Laid.nil hin (hno.reaches .castType)
      exact hno.append (postfixed_lays hexpr hno.right h)
    · exact postfixed_lays hexpr hin h
  · simp at h
    obtain ⟨operand, c₁, h, rfl, rfl⟩ := h
    exact hoperator h
  · exact hoperator h

end

theorem isPattern_lays {left e : Expr} (hleft : Laid s c₀ [.expr left] c)
    (h : Runs (isPattern c₀.position left) c e c') : Laid s c₀ [.expr e] c' := by
  simp [isPattern] at h
  obtain ⟨hnull, rfl, rfl⟩ | ⟨-, t, c₁, ht, h⟩ := h
  · have hnull := (Laid.nil hleft.right c.reaches_advance).node
      (p := .expr (.literal ⟨c.advance.fresh, c.advance.rangeSince c.position⟩ .null))
      (here_lt_advance hleft.right hnull (by simp)) rfl (Part.integerIn_of_none rfl)
    exact (hleft.append hnull).parent (p := .expr (.binary _ .eq left (.literal _ .null)))
      (List.cons_ne_nil _ _) rfl
  · have ht := hleft.append (type_lays _ hleft.right ht)
    obtain ⟨-, i, c₂, hi, rfl, rfl⟩ | ⟨-, rfl, rfl⟩ := h
    · exact (ht.append (identifier_lays ht.right hi)).parent
        (p := .expr (.isType _ left t (some i))) (List.cons_ne_nil _ _) rfl
    · exact ht.parent (p := .expr (.isType _ left t none)) (List.cons_ne_nil _ _) rfl

theorem binaryRest_lays {operand : Parser Expr} (hoperand : Lays s operand fun e => [.expr e])
    {level : BinaryLevel} {rounds : Nat} {left e : Expr} (hleft : Laid s c₀ [.expr left] c)
    (h : Runs (binaryRest operand level c₀.position rounds left) c e c') :
    Laid s c₀ [.expr e] c' := by
  induction rounds generalizing left c with
  | zero => simp [binaryRest] at h
  | succ rounds ih =>
    have hnext := hleft.advance
    have hcast {t : TypeRef} {c₁ : Cursor} (ht : Runs (type .expression) c.advance t c₁) :
        Laid s c₀ [.expr (.asType ⟨c₁.fresh, c₁.rangeSince c₀.position⟩ left t)] c₁.renew :=
      (hnext.append (type_lays _ hnext.right ht)).parent (p := .expr (.asType _ left t))
        (List.cons_ne_nil _ _) rfl
    cases hop : level.op? c.head with
    | some op =>
      simp [binaryRest, hop] at h
      obtain ⟨-, right, c₁, hright, h⟩ | ⟨-, ⟨-, t, c₁, ht, h⟩ | ⟨-, right, c₁, hright, h⟩⟩ := h
      · exact ih (isPattern_lays hnext hright) h
      · exact ih (hcast ht) h
      · have hright := hnext.append (hoperand hnext.right hright)
        exact ih (hright.parent (p := .expr (.binary _ op left right))
          (List.cons_ne_nil _ _) rfl) h
    | none =>
      simp [binaryRest, hop] at h
      obtain ⟨-, right, c₁, hright, h⟩ | ⟨-, ⟨-, t, c₁, ht, h⟩ | ⟨-, rfl, rfl⟩⟩ := h
      · exact ih (isPattern_lays hnext hright) h
      · exact ih (hcast ht) h
      · exact hleft

theorem binary_lays {unary : Parser Expr} (hunary : Lays s unary fun e => [.expr e])
    (levels : List BinaryLevel) : Lays s (binary unary levels) fun e => [.expr e] := by
  induction levels with
  | nil => exact hunary
  | cons level tighter ih =>
    intro c e c' hin h
    simp [binary] at h
    obtain ⟨left, c₁, hleft, h⟩ := h
    exact binaryRest_lays ih (ih hin hleft) h

theorem coalesceWith_lays {coalesce unary : Parser Expr}
    (hcoalesce : Lays s coalesce fun e => [.expr e]) (hunary : Lays s unary fun e => [.expr e]) :
    Lays s (coalesceWith coalesce unary) fun e => [.expr e] := by
  intro c e c' hin h
  simp [coalesceWith] at h
  obtain ⟨left, c₁, hleft, h⟩ := h
  have hleft := binary_lays hunary binaryLevels hin hleft
  obtain ⟨⟨-, rfl⟩, rfl⟩ | ⟨-, right, c₂, hright, rfl, rfl⟩ := h
  · exact hleft
  · have hleft := hleft.advance
    exact (hleft.append (hcoalesce hleft.right hright)).parent
      (p := .expr (.binary _ .coalesce left right)) (List.cons_ne_nil _ _) rfl

section
variable {expression coalesce : Parser Expr} (hexpr : Lays s expression fun e => [.expr e])
  (hcoalesce : Lays s coalesce fun e => [.expr e])
include hexpr hcoalesce

theorem conditionalWith_lays :
    Lays s (conditionalWith expression coalesce) fun e => [.expr e] := by
  intro c e c' hin h
  simp [conditionalWith] at h
  obtain ⟨condition, c₁, hcondition, h⟩ := h
  have hcondition := hcoalesce hin hcondition
  obtain ⟨⟨-, rfl⟩, rfl⟩ | ⟨-, yes, c₂, hyes, -, no, c₃, hno, rfl, rfl⟩ := h
  · exact hcondition
  · have hcondition := hcondition.advance
    have hyes := (hcondition.append (hexpr hcondition.right hyes)).advance
    exact (hyes.append (hexpr hyes.right hno)).parent
      (p := .expr (.conditional _ condition yes no)) (List.cons_ne_nil _ _) rfl

theorem assignmentWith_lays :
    Lays s (assignmentWith expression coalesce) fun e => [.expr e] := by
  intro c e c' hin h
  simp [assignmentWith] at h
  obtain ⟨target, c₁, htarget, h⟩ := h
  have htarget := conditionalWith_lays hexpr hcoalesce hin htarget
  obtain ⟨⟨-, rfl⟩, rfl⟩ | ⟨-, value, c₂, hvalue, rfl, rfl⟩ := h
  · exact htarget
  · have htarget := htarget.advance
    exact (htarget.append (hexpr htarget.right hvalue)).parent
      (p := .expr (.assign _ target value)) (List.cons_ne_nil _ _) rfl

end

/-! ## Expressions -/

theorem toDepth_lays (depth : Nat) :
    (Lays s (expressionToDepth depth) fun e => [.expr e]) ∧
      (Lays s (coalesceToDepth depth) fun e => [.expr e]) ∧
      (Lays s (unaryToDepth depth) fun e => [.expr e]) := by
  induction depth with
  | zero =>
    refine ⟨?_, ?_, ?_⟩ <;> intro c e c' hin h <;>
      simp [expressionToDepth, coalesceToDepth, unaryToDepth] at h
  | succ depth ih =>
    obtain ⟨hexpr, hcoalesce, hunary⟩ := ih
    exact ⟨assignmentWith_lays hexpr hcoalesce, coalesceWith_lays hcoalesce hunary,
      unaryWith_lays hexpr hunary⟩

theorem expression_lays : Lays s expression fun e => [.expr e] := by
  intro c e c' hin h
  obtain ⟨depth, h⟩ := expression_readsToDepth h
  exact (toDepth_lays depth).1 hin h

end PropertyLint.Grammar
