/-
# Precedence

How tightly an expression holds together is decided by its outermost operator (`Expr.tightness`),
and in a binary expression by the token between the operands.  An expression is grouped by
precedence if its operands, unless they stand in parentheses, hold together as tightly as their
place asks for (`Expr.Grouped`).  Each parser of the grammar of expressions reads what holds
together as tightly as its own level (`Forms`), so every expression of a file is grouped by
precedence (`SyntaxTree.parse_groups`).
-/
import PropertyLint.Proofs.Syntax.EachExpr
import PropertyLint.Proofs.Syntax.Tiling

namespace PropertyLint

open Grammar

/-! ## Levels -/

namespace Grammar

/-- The level of binary operators that a token belongs to. -/
def levelOf? (token : TokenKind) : Option Nat :=
  binaryLevels.findIdx? fun level =>
    (level.op? token).isSome || level.tests && (token == .word "is" || token == .word "as")

/-- The relational level, which `is` and `as` belong to. -/
def relationalLevel : Nat := binaryLevels.findIdx BinaryLevel.tests

/-- A mark is an operator of one level only, and none of them is `??`. -/
theorem levelOf?_punct : ∀ level ∈ binaryLevels.zipIdx, ∀ op ∈ level.1.ops,
    levelOf? (.punct op.1) = some level.2 ∧ op.2 ≠ .coalesce := by
  decide

/-- Only one level has `is` and `as`. -/
theorem eq_relationalLevel :
    ∀ level ∈ binaryLevels.zipIdx, level.1.tests = true → level.2 = relationalLevel := by
  decide

theorem BinaryLevel.levelOf?_of_op? {l : Nat} {level : BinaryLevel} {token : TokenKind}
    {op : BinaryOp} (hl : binaryLevels[l]? = some level) (h : level.op? token = some op) :
    token ≠ .endOfText ∧ levelOf? token = some l ∧ op ≠ .coalesce := by
  obtain ⟨⟨p, op⟩, hfind, rfl⟩ := Option.map_eq_some_iff.1 h
  obtain rfl : token = .punct p := by simpa using List.find?_some hfind
  exact ⟨by simp, levelOf?_punct (level, l) (List.mk_mem_zipIdx_iff_getElem?.2 hl) _
    (List.mem_of_find?_eq_some hfind)⟩

end Grammar

/-! ## Tightness -/

namespace Tightness

/-- How tightly an assignment holds together.  What holds together more tightly has a greater
number. -/
def assignment : Nat := 0

/-- How tightly a conditional holds together. -/
def conditional : Nat := 1

/-- How tightly `??` holds its operands together. -/
def coalesce : Nat := 2

/-- How tightly the operators of a level hold their operands together. -/
def level (l : Nat) : Nat := 3 + l

/-- How tightly a unary operator or a cast holds its operand. -/
def unary : Nat := level binaryLevels.length

/-- How tightly words, literals, calls and expressions in parentheses hold together. -/
def primary : Nat := unary + 1

end Tightness

/-- The kinds of the tokens between two expressions. -/
def kindsBetween (tokens : List Token) (left right : Expr) : List TokenKind :=
  (tokens.filter fun t =>
    left.range.stop ≤ t.range.start && t.range.stop ≤ right.range.start).map Token.kind

namespace Expr

variable {tokens : List Token}

/-- How tightly the outermost operator of an expression holds it together.  An operator of two
operands is the token between them. -/
def tightness (tokens : List Token) : Expr → Nat
  | assign _ _ _ => Tightness.assignment
  | conditional _ _ _ _ => Tightness.conditional
  | binary _ .coalesce _ _ => Tightness.coalesce
  | binary _ _ left right =>
    match (kindsBetween tokens left right).head?.bind levelOf? with
    | some l => Tightness.level l
    | none => Tightness.assignment
  | isType _ _ _ _ | asType _ _ _ => Tightness.level relationalLevel
  | unary _ _ _ | cast _ _ _ => Tightness.unary
  | _ => Tightness.primary

/-- The token is an operator of the level, or it is the word in front of a `null` that the left
operand is compared to. -/
def WrittenWith (token : TokenKind) (level : BinaryLevel) (op : BinaryOp) (right : Expr) : Prop :=
  level.op? token = some op ∨
    level.tests = true ∧ token = .word "is" ∧ op = .eq ∧ ∃ node, right = literal node .null

/-- The operands that an expression does not put in parentheses hold together as tightly as their
places ask for.  Operators of a level take what holds together as tightly on their left and more
tightly on their right, `??` the other way round. -/
def Grouped (tokens : List Token) : Expr → Prop
  | binary _ .coalesce left right =>
    kindsBetween tokens left right = [.punct .coalesce] ∧
      Tightness.level 0 ≤ left.tightness tokens ∧ Tightness.coalesce ≤ right.tightness tokens
  | binary _ op left right =>
    ∃ l level token, binaryLevels[l]? = some level ∧ kindsBetween tokens left right = [token] ∧
      WrittenWith token level op right ∧
      Tightness.level l ≤ left.tightness tokens ∧ Tightness.level l < right.tightness tokens
  | isType _ operand _ _ | asType _ operand _ =>
    Tightness.level relationalLevel ≤ operand.tightness tokens
  | unary _ _ operand | cast _ _ operand => Tightness.unary ≤ operand.tightness tokens
  | member _ target _ | invoke _ target _ => Tightness.primary ≤ target.tightness tokens
  | conditional _ condition _ _ => Tightness.coalesce ≤ condition.tightness tokens
  | assign _ target _ => Tightness.conditional ≤ target.tightness tokens
  | _ => True

/-- An operator of a level holds its operands together as tightly as the level says. -/
theorem tightness_binary {node : Node} {op : BinaryOp} {left right : Expr} {token : TokenKind}
    {l : Nat} (hop : op ≠ .coalesce) (hkinds : kindsBetween tokens left right = [token])
    (hl : levelOf? token = some l) :
    (binary node op left right).tightness tokens = Tightness.level l := by
  have hoperator : (kindsBetween tokens left right).head?.bind levelOf? = some l := by
    rw [hkinds]
    exact hl
  cases op with
  | coalesce => exact absurd rfl hop
  | _ => simp only [tightness, hoperator]

theorem grouped_binary {node : Node} {op : BinaryOp} {left right : Expr} (hop : op ≠ .coalesce) :
    (binary node op left right).Grouped tokens ↔
      ∃ l level token, binaryLevels[l]? = some level ∧ kindsBetween tokens left right = [token] ∧
        WrittenWith token level op right ∧
        Tightness.level l ≤ left.tightness tokens ∧
        Tightness.level l < right.tightness tokens := by
  cases op with
  | coalesce => exact absurd rfl hop
  | _ => rfl

end Expr

namespace Grammar

variable {s : Source} {c₀ c c' c'' : Cursor} {n m : Nat}

/-! ## What is read between cursors -/

/-- From the first cursor to the second one some tokens have been read. -/
structure Moved (s : Source) (c c' : Cursor) : Prop where
  within : Within s.tokens c
  reaches : c.Reaches c'
  lt : c.here < c'.last

namespace Moved

theorem of_head {k : TokenKind} (hin : Within s.tokens c) (h : c.head = k)
    (hk : k ≠ .endOfText) : Moved s c c.advance :=
  ⟨hin, c.reaches_advance, here_lt_advance hin h hk⟩

theorem right (h : Moved s c c') : Within s.tokens c' := h.within.reaches h.reaches

theorem reach (h : Moved s c c') (h' : c'.Reaches c'') : Moved s c c'' :=
  ⟨h.within, h.reaches.trans h', Nat.lt_of_lt_of_le h.lt (s.last_le h.right h')⟩

theorem advance (h : Moved s c c') : Moved s c c'.advance := h.reach c'.reaches_advance

theorem rangeSince (h : Moved s c c') : c'.rangeSince c.position = ⟨c.here, c'.last⟩ :=
  (s.exists_slice h.within h.reaches h.lt).1

end Moved

/-- From the first cursor to the second one the expression has been read.  It holds together as
tightly as the number says, and it is grouped by precedence with all expressions in it. -/
structure Formed (s : Source) (n : Nat) (c : Cursor) (e : Expr) (c' : Cursor) : Prop where
  moved : Moved s c c'
  range : e.range = ⟨c.here, c'.last⟩
  tight : n ≤ e.tightness s.tokens
  each : (Part.expr e).Each (Expr.Grouped s.tokens)

namespace Formed

variable {e : Expr}

theorem mono (h : Formed s n c e c') (hle : m ≤ n) : Formed s m c e c' :=
  ⟨h.moved, h.range, Nat.le_trans hle h.tight, h.each⟩

theorem right (h : Formed s n c e c') : Within s.tokens c' := h.moved.right

/-- Identities that have been handed out in front of the expression are passed over. -/
theorem of_withFresh {k : NodeId} (hreaches : c.Reaches (c.withFresh k))
    (h : Formed s n (c.withFresh k) e c') : Formed s n c e c' :=
  ⟨⟨h.moved.within, hreaches.trans h.moved.reaches, h.moved.lt⟩, h.range, h.tight, h.each⟩

/-- A new node around parts. -/
theorem node (h : Moved s c c') (hnode : e.node = ⟨c'.fresh, c'.rangeSince c.position⟩)
    (htight : n ≤ e.tightness s.tokens) (hgrouped : e.Grouped s.tokens)
    (hparts : ∀ q ∈ e.parts, q.Each (Expr.Grouped s.tokens)) : Formed s n c e c'.renew := by
  refine ⟨h.reach c'.reaches_renew, ?_, htight, Part.each_expr.2 ⟨hgrouped, hparts⟩⟩
  rw [Expr.range, hnode]
  exact h.rangeSince

end Formed

theorem Source.lt {t : Token} (ht : t ∈ s.tokens) : t.range.start < t.range.stop := by
  obtain ⟨front, rest, hsplit⟩ := List.append_of_mem ht
  obtain ⟨before, spelling, after, -, -, hspelled, -⟩ :=
    exists_spelledBy (s.tokenized.trans (congrArg _ hsplit))
  exact hspelled.lt

theorem Spaced.lt_lastStop {start : Nat} {front rest : List Token}
    (h : Spaced start (front ++ rest)) :
    ∀ t ∈ front, t.range.start < Cursor.lastStop start front := by
  induction front generalizing start with
  | nil => exact List.forall_mem_nil _
  | cons t front ih =>
    obtain ⟨-, hlt, hrest⟩ := h
    exact List.forall_mem_cons.2 ⟨Nat.lt_of_lt_of_le hlt (Spaced.le_lastStop hrest), ih hrest⟩

theorem Source.here_le_start (hin : Within s.tokens c) :
    ∀ t ∈ c.tokens, c.here ≤ t.range.start := by
  have h := s.spaced hin
  unfold Cursor.here
  cases htokens : c.tokens with
  | nil => exact List.forall_mem_nil _
  | cons t rest =>
    rw [htokens] at h
    obtain ⟨-, hlt, hrest⟩ := h
    refine List.forall_mem_cons.2 ⟨Nat.le_refl _, fun u hu => ?_⟩
    exact Nat.le_trans (Nat.le_of_lt hlt) (hrest.le_start u hu)

/-- Between an expression and one that starts behind the next token there is this token alone. -/
theorem Formed.kindsBetween {left right : Expr} {k : TokenKind} (hleft : Formed s n c₀ left c)
    (hhead : c.head = k) (hk : k ≠ .endOfText) (hright : Formed s m c.advance right c') :
    kindsBetween s.tokens left right = [k] := by
  have hin := hleft.right
  obtain ⟨t, rfl, hread⟩ := exists_reads_advance hhead hk
  have htokens : c.tokens = t :: c.advance.tokens := hread.tokens
  obtain ⟨front, hfront, hlast⟩ := id hin
  rw [htokens] at hfront
  have hspaced := spaced_of_tokensFrom s.tokenized
  rw [hfront] at hspaced
  -- the tokens up to the end of the left operand start in front of it
  have hbefore : front.filter (fun u => left.range.stop ≤ u.range.start &&
      u.range.stop ≤ right.range.start) = [] := by
    refine List.filter_eq_nil_iff.2 fun u hu => ?_
    have hlt := Spaced.lt_lastStop hspaced u hu
    rw [← hlast] at hlt
    rw [hleft.range]
    simp only [Bool.and_eq_true, decide_eq_true_eq]
    omega
  -- those from the start of the right operand on end behind it
  have hbehind : c.advance.tokens.filter (fun u => left.range.stop ≤ u.range.start &&
      u.range.stop ≤ right.range.start) = [] := by
    refine List.filter_eq_nil_iff.2 fun u hu => ?_
    have hle := s.here_le_start hright.moved.within u hu
    have hlt := s.lt (t := u) (by rw [hfront]; simp [hu])
    rw [hright.range]
    simp only [Bool.and_eq_true, decide_eq_true_eq]
    omega
  have hstart : left.range.stop ≤ t.range.start := by
    have hle := s.last_le_here hin
    rw [Cursor.here, htokens] at hle
    rwa [hleft.range]
  have hstop : t.range.stop ≤ right.range.start := by
    have hle := s.last_le_here hright.moved.within
    rw [show c.advance.last = t.range.stop by rw [Cursor.advance, htokens]] at hle
    rwa [hright.range]
  rw [PropertyLint.kindsBetween, hfront, List.filter_append, hbefore, List.filter_cons, hbehind]
  simp [hstart, hstop]

/-- The parser reads expressions that hold together as tightly as the number says. -/
def Forms (s : Source) (n : Nat) (p : Parser Expr) : Prop :=
  ∀ ⦃c e c'⦄, Within s.tokens c → Runs p c e c' → Formed s n c e c'

theorem Forms.each {p : Parser Expr} (h : Forms s n p) :
    Yields s.tokens p fun e _ => (Part.expr e).Each (Expr.Grouped s.tokens) :=
  fun _ _ _ hin hrun => ⟨(h hin hrun).moved.reaches, (h hin hrun).each⟩

/-! ## Words, literals and postfix forms -/

section
variable {expression : Parser Expr} (hexpr : Forms s Tightness.assignment expression)
include hexpr

omit hexpr in
/-- A node around parts, with an initializer between braces behind them or without one. -/
theorem braces_forms {e : Expr} (h₀ : Moved s c₀ c) (make : Node → Expr)
    (hnode : ∀ n, (make n).node = n)
    (htight : ∀ n, (make n).tightness s.tokens = Tightness.primary)
    (hgrouped : ∀ n, (make n).Grouped s.tokens)
    (hparts : ∀ n, ∀ q ∈ (make n).parts, q.Each (Expr.Grouped s.tokens))
    (h : (c.head = .punct .openBrace ∧ ∃ u c₁, Runs (skipPair .openBrace .closeBrace) c u c₁ ∧
        c₁.renew = c' ∧ make ⟨c₁.fresh, c₁.rangeSince c₀.position⟩ = e) ∨
      ¬ c.head = .punct .openBrace ∧ c.renew = c' ∧
        make ⟨c.fresh, c.rangeSince c₀.position⟩ = e) : Formed s Tightness.primary c₀ e c' := by
  have hmake {c₁ : Cursor} (h : Moved s c₀ c₁) : Formed s Tightness.primary c₀
      (make ⟨c₁.fresh, c₁.rangeSince c₀.position⟩) c₁.renew :=
    .node h (hnode _) (htight _).ge (hgrouped _) (hparts _)
  obtain ⟨-, u, c₁, hu, rfl, rfl⟩ | ⟨-, rfl, rfl⟩ := h
  · exact hmake (h₀.reach (reaches_of_skipPair hu))
  · exact hmake h₀

theorem creation_forms {e : Expr} (hnew : Moved s c₀ c)
    (h : Runs (creation expression c₀.position) c e c') : Formed s Tightness.primary c₀ e c' := by
  simp [creation] at h
  obtain ⟨created, c₁, hcreated, h⟩ := h
  have htype := hnew.reach (reaches_of_type hcreated)
  -- the size of an array between brackets
  have hsized {size : Expr} {c₂ : Cursor} (h : Runs expression c₁.advance size c₂) :
      Formed s Tightness.primary c₀ (.createArray
        ⟨c₂.advance.fresh, c₂.advance.rangeSince c₀.position⟩ created (some size))
        c₂.advance.renew := by
    have hsize := hexpr htype.advance.right h
    exact .node (htype.advance.reach hsize.moved.reaches).advance rfl (Nat.le_refl _) trivial
      (by simpa [Expr.parts] using hsize.each)
  cases created with
  | array n element =>
    simp at h
    obtain ⟨-, h⟩ | ⟨-, size, c₂, hsize, -, rfl, rfl⟩ := h
    · exact braces_forms htype (fun n => .createArray n element none) (fun _ => rfl)
        (fun _ => rfl) (fun _ => trivial) (by simp [Expr.parts]) h
    · exact hsized hsize
  | _ =>
    simp at h
    obtain ⟨-, ⟨-, args, c₂, hargs, h⟩ | ⟨-, h⟩⟩ | ⟨-, size, c₂, hsize, -, rfl, rfl⟩ := h
    · obtain ⟨hreaches, hargs⟩ := argumentList_each hexpr.each false htype.right hargs
      exact braces_forms (htype.reach hreaches) (fun n => .create n _ (some args)) (fun _ => rfl)
        (fun _ => rfl) (fun _ => trivial) (by simpa [Expr.parts] using hargs) h
    · exact braces_forms htype (fun n => .create n _ none) (fun _ => rfl) (fun _ => rfl)
        (fun _ => trivial) (by simp [Expr.parts]) h
    · exact hsized hsize

theorem wordExpression_forms {word : String} {range : OffsetRange} {doc : Option OffsetRange}
    {rest : List Token} {e : Expr} (hin : Within s.tokens c)
    (htokens : c.tokens = ⟨.word word, range, doc⟩ :: rest)
    (h : Runs (wordExpression expression word range) c e c') :
    Formed s Tightness.primary c e c' := by
  have hposition : c.position = range.start := by rw [Cursor.position, htokens]
  have hword : Moved s c c.advance :=
    ⟨hin, c.reaches_advance, s.here_lt_last hin (Cursor.reads_advance htokens)⟩
  simp [wordExpression] at h
  rw [← hposition] at h
  -- a word that stands for itself
  have hleaf {e : Expr} (hnode : e.node = ⟨c.advance.fresh, c.advance.rangeSince c.position⟩)
      (htight : e.tightness s.tokens = Tightness.primary) (hgrouped : e.Grouped s.tokens)
      (hparts : ∀ q ∈ e.parts, q.Each (Expr.Grouped s.tokens)) :
      Formed s Tightness.primary c e c.advance.renew :=
    .node hword hnode htight.ge hgrouped hparts
  have htype {t : TypeRef} {c₁ : Cursor} (h : Runs typeInParens c.advance t c₁) :
      Moved s c c₁ := hword.reach (reaches_of_typeInParens h)
  split at h
  case h_1 | h_2 | h_3 | h_4 | h_5 =>
    simp at h
    obtain ⟨rfl, rfl⟩ := h
    exact hleaf rfl rfl trivial (List.forall_mem_nil _)
  case h_6 =>
    simp at h
    obtain ⟨t, c₁, ht, rfl, rfl⟩ := h
    exact .node (htype ht) rfl (Nat.le_refl _) trivial (by simp [Expr.parts])
  case h_7 =>
    simp at h
    obtain ⟨-, t, c₁, ht, rfl, rfl⟩ | ⟨-, rfl, rfl⟩ := h
    · exact .node (htype ht) rfl (Nat.le_refl _) trivial (by simp [Expr.parts])
    · exact hleaf rfl rfl trivial (List.forall_mem_nil _)
  case h_8 => exact creation_forms hexpr hword h
  case h_9 =>
    simp at h
    obtain ⟨rfl, rfl⟩ := h
    exact hleaf rfl rfl trivial (by simp [Expr.parts])

theorem primary_forms : Forms s Tightness.primary (primary expression) := by
  intro c e c' hin h
  cases htokens : c.tokens with
  | nil => simp [primary, htokens] at h
  | cons t rest =>
    obtain ⟨kind, range, doc⟩ := t
    have hfirst : Moved s c c.advance :=
      ⟨hin, c.reaches_advance, s.here_lt_last hin (Cursor.reads_advance htokens)⟩
    cases kind with
    | word w =>
      simp [primary, htokens] at h
      exact wordExpression_forms hexpr hin htokens h
    | punct p =>
      -- of all marks only the opening parenthesis starts an expression
      by_cases hp : p = .openParen
      · subst hp
        simp [primary, htokens] at h
        obtain ⟨inner, c₁, hinner, -, rfl, rfl⟩ := h
        have hinner := hexpr hfirst.right hinner
        exact .node (hfirst.reach hinner.moved.reaches).advance rfl (Nat.le_refl _) trivial
          (by simpa [Expr.parts] using hinner.each)
      · simp [primary, htokens, hp] at h
    | endOfText => simp [primary, htokens] at h
    | _ =>
      simp [primary, htokens] at h
      obtain ⟨rfl, rfl⟩ := h
      exact .node hfirst rfl (Nat.le_refl _) trivial (List.forall_mem_nil _)

theorem postfixes_forms {rounds : Nat} {target e : Expr}
    (htarget : Formed s Tightness.primary c₀ target c)
    (h : Runs (postfixes expression c₀.position rounds target) c e c') :
    Formed s Tightness.primary c₀ e c' := by
  induction rounds generalizing target c with
  | zero => simp [postfixes] at h
  | succ rounds ih =>
    simp [postfixes] at h
    obtain ⟨-, ⟨-, args, c₁, hargs, h⟩ | ⟨-, rfl, rfl⟩⟩ | ⟨-, name, c₁, hname, h⟩ := h
    · obtain ⟨hreaches, hargs⟩ := argumentList_each hexpr.each false htarget.right hargs
      exact ih (.node (e := .invoke _ target args) (htarget.moved.reach hreaches) rfl
        (Nat.le_refl _) htarget.tight
        (List.forall_mem_cons.2 ⟨htarget.each, List.forall_mem_singleton.2 hargs⟩)) h
    · exact htarget
    · have hreaches := c.reaches_advance.trans (reaches_of_identifier hname)
      exact ih (.node (e := .member _ target name) (htarget.moved.reach hreaches) rfl
        (Nat.le_refl _) htarget.tight (List.forall_mem_cons.2 ⟨htarget.each, by simp⟩)) h

theorem postfixed_forms : Forms s Tightness.primary (postfixed expression) := by
  intro c e c' hin h
  simp [postfixed] at h
  obtain ⟨target, c₁, htarget, h⟩ := h
  exact postfixes_forms hexpr (primary_forms hexpr hin htarget) h

/-! ## Unary operators and casts -/

omit hexpr in
theorem castType_moved {t : TypeRef} (hin : Within s.tokens c) (h : Runs castType c t c') :
    Moved s c c' := by
  simp [castType, typeInParens] at h
  obtain ⟨hopen, c₁, ht, -, -, rfl⟩ := h
  exact ((Moved.of_head hin hopen (by simp)).reach (reaches_of_type ht)).advance

theorem unaryWith_forms {unary : Parser Expr} (hunary : Forms s Tightness.unary unary) :
    Forms s Tightness.unary (unaryWith unary expression) := by
  intro c e c' hin h
  have hpostfixed {c : Cursor} (hin : Within s.tokens c) (h : Runs (postfixed expression) c e c') :
      Formed s Tightness.unary c e c' :=
    (postfixed_forms hexpr hin h).mono (Nat.le_succ _)
  -- an operator in front of its operand
  have hoperator {k : TokenKind} {op : UnaryOp} {operand : Expr} {c₁ : Cursor} (hhead : c.head = k)
      (hk : k ≠ .endOfText) (h : Runs unary c.advance operand c₁) :
      Formed s Tightness.unary c (.unary ⟨c₁.fresh, c₁.rangeSince c.position⟩ op operand)
        c₁.renew := by
    have hsign := Moved.of_head hin hhead hk
    have hoperand := hunary hsign.right h
    exact .node (hsign.reach hoperand.moved.reaches) rfl (Nat.le_refl _) hoperand.tight
      (List.forall_mem_singleton.2 hoperand.each)
  simp [unaryWith, unaryOp] at h
  obtain ⟨-, op, c₁, ⟨⟨-, rfl⟩, rfl⟩ | ⟨⟨hminus, rfl⟩, rfl⟩, h⟩ |
    ⟨hbang, operand, c₁, h, rfl, rfl⟩ := h
  · simp at h
    obtain ⟨hopen, cast, c₁, ⟨t, ht, rfl⟩ | ⟨hno, rfl⟩, h⟩ | ⟨-, h⟩ := h
    · simp at h
      obtain ⟨operand, c₂, h, rfl, rfl⟩ := h
      have ht := castType_moved hin ht
      have hoperand := hunary ht.right h
      exact .node (e := .cast _ t operand) (ht.reach hoperand.moved.reaches) rfl (Nat.le_refl _)
        hoperand.tight (by simpa [Expr.parts] using hoperand.each)
    · have hreaches := hno.reaches .castType
      obtain ⟨_, _, -, -, rfl⟩ := hno
      exact .of_withFresh hreaches (hpostfixed (hin.reaches hreaches) h)
    · exact hpostfixed hin h
  · simp at h
    obtain ⟨operand, c₁, h, rfl, rfl⟩ := h
    exact hoperator hminus (by simp) h
  · exact hoperator hbang (by simp) h

end

/-! ## Binary operators -/

/-- A comparison with `null` behind `is`, or a test for a type. -/
theorem isPattern_forms {left e : Expr} {l : Nat} {level : BinaryLevel}
    (hl : binaryLevels[l]? = some level) (htests : level.tests = true)
    (hleft : Formed s (Tightness.level l) c₀ left c) (hhead : c.head = .word "is")
    (h : Runs (isPattern c₀.position left) c.advance e c') :
    Formed s (Tightness.level l) c₀ e c' := by
  obtain rfl : l = relationalLevel :=
    eq_relationalLevel (level, l) (List.mk_mem_zipIdx_iff_getElem?.2 hl) htests
  have hnext := hleft.moved.advance
  simp [isPattern] at h
  obtain ⟨hnull, rfl, rfl⟩ | ⟨-, t, c₁, ht, h⟩ := h
  · have hword := Moved.of_head hnext.right ((Cursor.advance_head c).trans hnull) (by simp)
    have hright : Formed s Tightness.primary c.advance (.literal
        ⟨c.advance.advance.fresh, c.advance.advance.rangeSince c.advance.position⟩ .null)
        c.advance.advance.renew :=
      .node hword rfl (Nat.le_refl _) trivial (List.forall_mem_nil _)
    have hkinds := hleft.kindsBetween hhead (by simp) hright
    refine .node (e := .binary _ .eq left (.literal _ .null))
      (hnext.reach hright.moved.reaches) rfl ?_ ?_ ?_
    · have hlevel : levelOf? (.word "is") = some relationalLevel := by decide
      rw [Expr.tightness_binary (by simp) hkinds hlevel]
    · refine (Expr.grouped_binary (by simp)).2 ⟨_, level, _, hl, hkinds,
        .inr ⟨htests, rfl, rfl, _, rfl⟩, hleft.tight, ?_⟩
      exact Nat.lt_of_lt_of_le (by decide) hright.tight
    · simpa [Expr.parts] using ⟨hleft.each, hright.each⟩
  · have htype := hnext.reach (reaches_of_type ht)
    obtain ⟨-, i, c₂, hi, rfl, rfl⟩ | ⟨-, rfl, rfl⟩ := h
    · exact .node (e := .isType _ left t (some i)) (htype.reach (reaches_of_identifier hi)) rfl
        (Nat.le_refl _) hleft.tight (by simpa [Expr.parts] using hleft.each)
    · exact .node (e := .isType _ left t none) htype rfl (Nat.le_refl _) hleft.tight
        (by simpa [Expr.parts] using hleft.each)

theorem binaryRest_forms {operand : Parser Expr} {l : Nat} {level : BinaryLevel}
    (hl : binaryLevels[l]? = some level) (hoperand : Forms s (Tightness.level (l + 1)) operand)
    {rounds : Nat} {left e : Expr} (hleft : Formed s (Tightness.level l) c₀ left c)
    (h : Runs (binaryRest operand level c₀.position rounds left) c e c') :
    Formed s (Tightness.level l) c₀ e c' := by
  induction rounds generalizing left c with
  | zero => simp [binaryRest] at h
  | succ rounds ih =>
    have hnext := hleft.moved.advance
    have hcast {t : TypeRef} {c₁ : Cursor} (htests : level.tests = true)
        (ht : Runs (type .expression) c.advance t c₁) : Formed s (Tightness.level l) c₀
          (.asType ⟨c₁.fresh, c₁.rangeSince c₀.position⟩ left t) c₁.renew := by
      obtain rfl : l = relationalLevel :=
        eq_relationalLevel (level, l) (List.mk_mem_zipIdx_iff_getElem?.2 hl) htests
      exact .node (hnext.reach (reaches_of_type ht)) rfl (Nat.le_refl _) hleft.tight
        (by simpa [Expr.parts] using hleft.each)
    cases hop : level.op? c.head with
    | some op =>
      simp [binaryRest, hop] at h
      obtain ⟨⟨htests, his⟩, tested, c₁, htested, h⟩ |
        ⟨-, ⟨⟨htests, -⟩, t, c₁, ht, h⟩ | ⟨-, right, c₁, hright, h⟩⟩ := h
      · exact ih (isPattern_forms hl htests hleft his htested) h
      · exact ih (hcast htests ht) h
      · obtain ⟨hend, hlevel, hcoalesce⟩ := BinaryLevel.levelOf?_of_op? hl hop
        have hright := hoperand hnext.right hright
        have hkinds := hleft.kindsBetween rfl hend hright
        refine ih (.node (e := .binary _ op left right) (hnext.reach hright.moved.reaches) rfl
          ?_ ?_ ?_) h
        · rw [Expr.tightness_binary hcoalesce hkinds hlevel]
        · exact (Expr.grouped_binary hcoalesce).2
            ⟨l, level, _, hl, hkinds, .inl hop, hleft.tight, hright.tight⟩
        · simpa [Expr.parts] using ⟨hleft.each, hright.each⟩
    | none =>
      simp [binaryRest, hop] at h
      obtain ⟨⟨htests, his⟩, tested, c₁, htested, h⟩ |
        ⟨-, ⟨⟨htests, -⟩, t, c₁, ht, h⟩ | ⟨-, rfl, rfl⟩⟩ := h
      · exact ih (isPattern_forms hl htests hleft his htested) h
      · exact ih (hcast htests ht) h
      · exact hleft

theorem binary_forms {unary : Parser Expr} (hunary : Forms s Tightness.unary unary)
    (levels : List BinaryLevel) (looser : List BinaryLevel)
    (hlevels : binaryLevels = looser ++ levels) :
    Forms s (Tightness.level looser.length) (binary unary levels) := by
  induction levels generalizing looser with
  | nil =>
    have hlength : looser.length = binaryLevels.length := by simp [hlevels]
    rw [hlength]
    exact hunary
  | cons level tighter ih =>
    intro c e c' hin h
    simp [binary] at h
    obtain ⟨left, c₁, hleft, h⟩ := h
    have hl : binaryLevels[looser.length]? = some level := by simp [hlevels]
    have htighter : Forms s (Tightness.level (looser.length + 1)) (binary unary tighter) := by
      simpa using ih (looser ++ [level]) (by simp [hlevels])
    exact binaryRest_forms hl htighter ((htighter hin hleft).mono (Nat.le_succ _)) h

/-! ## Expressions -/

theorem coalesceWith_forms {coalesce unary : Parser Expr}
    (hcoalesce : Forms s Tightness.coalesce coalesce) (hunary : Forms s Tightness.unary unary) :
    Forms s Tightness.coalesce (coalesceWith coalesce unary) := by
  intro c e c' hin h
  simp [coalesceWith] at h
  obtain ⟨left, c₁, hleft, h⟩ := h
  have hleft : Formed s (Tightness.level 0) c left c₁ :=
    binary_forms hunary binaryLevels [] rfl hin hleft
  obtain ⟨⟨-, rfl⟩, rfl⟩ | ⟨hmark, right, c₂, hright, rfl, rfl⟩ := h
  · exact hleft.mono (Nat.le_succ _)
  · have hright := hcoalesce hleft.moved.advance.right hright
    exact .node (e := .binary _ .coalesce left right)
      (hleft.moved.advance.reach hright.moved.reaches) rfl (Nat.le_refl _)
      ⟨hleft.kindsBetween hmark (by simp) hright, hleft.tight, hright.tight⟩
      (by simpa [Expr.parts] using ⟨hleft.each, hright.each⟩)

section
variable {expression coalesce : Parser Expr} (hexpr : Forms s Tightness.assignment expression)
  (hcoalesce : Forms s Tightness.coalesce coalesce)
include hexpr hcoalesce

theorem conditionalWith_forms :
    Forms s Tightness.conditional (conditionalWith expression coalesce) := by
  intro c e c' hin h
  simp [conditionalWith] at h
  obtain ⟨condition, c₁, hcondition, h⟩ := h
  have hcondition := hcoalesce hin hcondition
  obtain ⟨⟨-, rfl⟩, rfl⟩ | ⟨-, yes, c₂, hyes, -, no, c₃, hno, rfl, rfl⟩ := h
  · exact hcondition.mono (Nat.le_succ _)
  · have hmark := hcondition.moved.advance
    have hyes := hexpr hmark.right hyes
    have hcolon := (hmark.reach hyes.moved.reaches).advance
    have hno := hexpr hcolon.right hno
    exact .node (e := .conditional _ condition yes no) (hcolon.reach hno.moved.reaches) rfl
      (Nat.le_refl _) hcondition.tight
      (by simpa [Expr.parts] using ⟨hcondition.each, hyes.each, hno.each⟩)

theorem assignmentWith_forms :
    Forms s Tightness.assignment (assignmentWith expression coalesce) := by
  intro c e c' hin h
  simp [assignmentWith] at h
  obtain ⟨target, c₁, htarget, h⟩ := h
  have htarget := conditionalWith_forms hexpr hcoalesce hin htarget
  obtain ⟨⟨-, rfl⟩, rfl⟩ | ⟨-, value, c₂, hvalue, rfl, rfl⟩ := h
  · exact htarget.mono (Nat.zero_le _)
  · have hvalue := hexpr htarget.moved.advance.right hvalue
    exact .node (e := .assign _ target value)
      (htarget.moved.advance.reach hvalue.moved.reaches) rfl (Nat.zero_le _) htarget.tight
      (by simpa [Expr.parts] using ⟨htarget.each, hvalue.each⟩)

end

theorem toDepth_forms (depth : Nat) :
    Forms s Tightness.assignment (expressionToDepth depth) ∧
      Forms s Tightness.coalesce (coalesceToDepth depth) ∧
      Forms s Tightness.unary (unaryToDepth depth) := by
  induction depth with
  | zero =>
    refine ⟨?_, ?_, ?_⟩ <;> intro c e c' hin h <;>
      simp [expressionToDepth, coalesceToDepth, unaryToDepth] at h
  | succ depth ih =>
    obtain ⟨hexpr, hcoalesce, hunary⟩ := ih
    exact ⟨assignmentWith_forms hexpr hcoalesce, coalesceWith_forms hcoalesce hunary,
      unaryWith_forms hexpr hunary⟩

end Grammar

namespace SyntaxTree

/-- **Operators group by precedence**, in every expression of a file. -/
theorem parse_groups {file : FileId} {text : String} {t : SyntaxTree} {tokens : List Token}
    (h : parse file text = .ok t) (htokens : tokenize text = .ok tokens) :
    ∀ e, t.Holds (.expr e) → e.Grouped tokens := by
  intro e he
  have hread : Grammar.ReadsEach tokens (Expr.Grouped tokens) := fun depth =>
    (Grammar.toDepth_forms (s := ⟨text.toList, tokens, htokens⟩) depth).1.each
  exact each_of_parse h htokens hread he

/-- The ranges of the operands of binary operators, the outermost operator first. -/
def operandRanges : Expr → List (OffsetRange × OffsetRange)
  | .binary _ _ left right =>
    (left.range, right.range) :: (operandRanges left ++ operandRanges right)
  | _ => []

/-- A field with a comparison with `null` that is compared to `a`. -/
def comparedNullTest : String := "class A \x7b bool F = a == b is null ?? c ?? d; \x7d"

/-- The second `??` stands on the right of the first one, and `is` holds together more tightly than
`==`. -/
theorem parse_groups_comparedNullTest : ∃ t tokens, parse 0 comparedNullTest = .ok t ∧
    tokenize comparedNullTest = .ok tokens ∧
    (t.types.flatMap fun d => d.members.map fun
      | .field f => f.init.map operandRanges
      | _ => none) =
      [some [(⟨19, 33⟩, ⟨37, 43⟩), (⟨19, 20⟩, ⟨24, 33⟩), (⟨24, 25⟩, ⟨29, 33⟩),
        (⟨37, 38⟩, ⟨42, 43⟩)]] ∧
    ∀ e, t.Holds (.expr e) → e.Grouped tokens := by
  have hread : (parse 0 comparedNullTest).toOption.map (fun t =>
      t.types.flatMap fun d => d.members.map fun
        | .field f => f.init.map operandRanges
        | _ => none) =
      some [some [(⟨19, 33⟩, ⟨37, 43⟩), (⟨19, 20⟩, ⟨24, 33⟩), (⟨24, 25⟩, ⟨29, 33⟩),
        (⟨37, 38⟩, ⟨42, 43⟩)]] := by
    decide +kernel
  obtain ⟨t, ht, hranges⟩ := Option.map_eq_some_iff.1 hread
  rw [toOption_eq_some_iff] at ht
  obtain ⟨-, -, tokens, -, htokens, -⟩ := exists_run_of_parse ht
  exact ⟨t, tokens, ht, htokens, hranges, parse_groups ht htokens⟩

end SyntaxTree

end PropertyLint
