/-
# Reading expressions

From loose to tight: assignment, conditional, `??`, six levels of binary operators, unary operators
and casts, calls and member accesses, single words and literals.  `??`, conditionals and assignments
group to the right, the other binary operators to the left, and `is` and `as` belong to the
relational level.
-/
import PropertyLint.Syntax.Grammar.Types
import PropertyLint.Syntax.Expr

namespace PropertyLint.Grammar

/-- The words that cannot start a type where an expression may stand. -/
def reservedWords : List String :=
  ["is", "as", "new", "typeof", "default", "this", "base", "true", "false", "null", "return",
    "throw", "if", "else"]

/-- The token is a word that is not reserved. -/
def isFreeWord : TokenKind → Bool
  | .word w => !reservedWords.contains w
  | _ => false

/-- The token is a word. -/
def isWord : TokenKind → Bool
  | .word _ => true
  | _ => false

/-! ## Arguments -/

/-- Reads the name in front of an argument, if there is one; only attributes set properties. -/
def argumentName (inAttribute : Bool) : Parser (Option ArgumentName) := do
  let free := isFreeWord (← peek)
  let second ← peekSecond
  if free && second == .punct .colon then
    let ident ← identifier
    advance
    return some ⟨ident, .colon⟩
  else if free && inAttribute && second == .punct .assign then
    let ident ← identifier
    advance
    return some ⟨ident, .equals⟩
  else return none

/-- Reads an argument. -/
def argument (expression : Parser Expr) (inAttribute : Bool) : Parser (Argument Expr) := do
  let start ← position
  let name ← argumentName inAttribute
  if (← atAnyWord ["ref", "out"]) && isWord (← peekSecond) then advance
  let value ← expression
  return ⟨← newNode start, name, value⟩

/-- Reads an argument list with its parentheses. -/
def argumentList (expression : Parser Expr) (inAttribute : Bool) : Parser (ArgumentList Expr) := do
  let start ← position
  let args ← inParens (argument expression inAttribute)
  return ⟨← rangeFrom start, args⟩

/-! ## Words, literals and postfix forms -/

/-- Reads what follows `new`, for a creation that starts at `start`.  Initializers between braces
are passed over. -/
def creation (expression : Parser Expr) (start : Nat) : Parser Expr := do
  let created ← type .expression
  if ← takeMark .openBracket then
    let size ← expression
    expectMark .closeBracket
    return .createArray (← newNode start) created (some size)
  match created with
  | .array _ element =>
    if ← atMark .openBrace then skipPair .openBrace .closeBrace
    return .createArray (← newNode start) element none
  | _ =>
    let args ← if ← atMark .openParen then some <$> argumentList expression false else pure none
    if ← atMark .openBrace then skipPair .openBrace .closeBrace
    return .create (← newNode start) created args

/-- Reads a type between parentheses. -/
def typeInParens : Parser TypeRef := do
  expectMark .openParen
  let t ← type .declaration
  expectMark .closeParen
  return t

/-- Reads the expression that a word starts. -/
def wordExpression (expression : Parser Expr) (word : String) (range : OffsetRange) :
    Parser Expr := do
  let start := range.start
  advance
  match word with
  | "true" => return .literal (← newNode start) (.bool true)
  | "false" => return .literal (← newNode start) (.bool false)
  | "null" => return .literal (← newNode start) .null
  | "this" => return .self (← newNode start)
  | "base" => return .base (← newNode start)
  | "typeof" =>
    let t ← typeInParens
    return .typeOf (← newNode start) t
  | "default" =>
    let t ← if ← atMark .openParen then some <$> typeInParens else pure none
    return .default (← newNode start) t
  | "new" => creation expression start
  | _ => return .identifier (← newNode start) ⟨word, range⟩

/-- Reads a literal, a word or an expression between parentheses. -/
def primary (expression : Parser Expr) : Parser Expr := do
  let start ← position
  let literal (value : Literal) : Parser Expr := do
    advance
    return .literal (← newNode start) value
  match (← get).tokens with
  | ⟨.string value, _, _⟩ :: _ => literal (.string value)
  | ⟨.char value, _, _⟩ :: _ => literal (.char value)
  | ⟨.integer value, _, _⟩ :: _ => literal (.integer value)
  | ⟨.real text, _, _⟩ :: _ => literal (.real text)
  | ⟨.punct .openParen, _, _⟩ :: _ =>
    advance
    let inner ← expression
    expectMark .closeParen
    return .paren (← newNode start) inner
  | ⟨.word word, range, _⟩ :: _ => wordExpression expression word range
  | _ => failExpecting .expression

/-- Reads the member accesses and calls behind an expression, in at most the given number of
rounds. -/
def postfixes (expression : Parser Expr) (start : Nat) : Nat → Expr → Parser Expr
  | 0, _ => failTooDeep
  | rounds + 1, target => do
    if ← takeMark .dot then
      let name ← identifier
      let node ← newNode start
      postfixes expression start rounds (.member node target name)
    else if ← atMark .openParen then
      let args ← argumentList expression false
      let node ← newNode start
      postfixes expression start rounds (.invoke node target args)
    else return target

/-- Reads a primary expression and what is accessed or called on it. -/
def postfixed (expression : Parser Expr) : Parser Expr := do
  let start ← position
  let target ← primary expression
  postfixes expression start (← bound) target

/-! ## Unary operators and casts -/

/-- A cast may be applied to an expression that starts with the token. -/
def startsCastOperand : TokenKind → Bool
  | .word w => w != "is" && w != "as"
  | .string _ | .char _ | .integer _ | .real _ => true
  | .punct p => p == .openParen || p == .bang
  | .endOfText => false

/-- Reads the type of a cast: a type between parentheses, with an operand behind it. -/
def castType : Parser TypeRef := do
  let t ← typeInParens
  unless startsCastOperand (← peek) do failExpecting .expression
  return t

/-- Reads a unary operator, if one is next. -/
def unaryOp : Parser (Option UnaryOp) := do
  if ← takeMark .bang then return some .not
  else if ← takeMark .minus then return some .neg
  else return none

/-- Reads a unary expression, a cast or a postfix expression; operands are read by `unary`. -/
def unaryWith (unary expression : Parser Expr) : Parser Expr := do
  let start ← position
  match ← unaryOp with
  | some op =>
    let operand ← unary
    return .unary (← newNode start) op operand
  | none =>
    let cast ← if ← atMark .openParen then attempt castType else pure none
    match cast with
    | some t =>
      let operand ← unary
      return .cast (← newNode start) t operand
    | none => postfixed expression

/-! ## Binary operators -/

/-- The operators of one level; `tests` tells whether `is` and `as` belong to it. -/
structure BinaryLevel where
  ops : List (Punct × BinaryOp)
  tests : Bool

/-- The levels of binary operators below `??`, from loose to tight. -/
def binaryLevels : List BinaryLevel :=
  [⟨[(.orOr, .or)], false⟩,
    ⟨[(.andAnd, .and)], false⟩,
    ⟨[(.equal, .eq), (.notEqual, .notEq)], false⟩,
    ⟨[(.less, .less), (.greater, .greater), (.lessEqual, .lessEq), (.greaterEqual, .greaterEq)],
      true⟩,
    ⟨[(.plus, .add), (.minus, .sub)], false⟩,
    ⟨[(.star, .mul), (.slash, .div), (.percent, .rem)], false⟩]

/-- The operator of a level that a token is. -/
def BinaryLevel.op? (level : BinaryLevel) (token : TokenKind) : Option BinaryOp :=
  (level.ops.find? fun (p, _) => token == .punct p).map Prod.snd

/-- Reads what follows `is`: `null`, or a type and perhaps a name for the value. -/
def isPattern (start : Nat) (left : Expr) : Parser Expr := do
  if ← atWord "null" then
    let nullStart ← position
    advance
    let right := Expr.literal (← newNode nullStart) .null
    return .binary (← newNode start) .eq left right
  let t ← type .expression
  let designation ← if isFreeWord (← peek) then some <$> identifier else pure none
  return .isType (← newNode start) left t designation

/-- Reads the operators of a level and their right operands, in at most the given number of
rounds. -/
def binaryRest (operand : Parser Expr) (level : BinaryLevel) (start : Nat) :
    Nat → Expr → Parser Expr
  | 0, _ => failTooDeep
  | rounds + 1, left => do
    if level.tests && (← atWord "is") then
      advance
      let tested ← isPattern start left
      binaryRest operand level start rounds tested
    else if level.tests && (← atWord "as") then
      advance
      let t ← type .expression
      let node ← newNode start
      binaryRest operand level start rounds (.asType node left t)
    else
      match level.op? (← peek) with
      | some op =>
        advance
        let right ← operand
        let node ← newNode start
        binaryRest operand level start rounds (.binary node op left right)
      | none => return left

/-- Reads binary operators of the given levels. -/
def binary (unary : Parser Expr) : List BinaryLevel → Parser Expr
  | [] => unary
  | level :: tighter => do
    let start ← position
    let left ← binary unary tighter
    binaryRest (binary unary tighter) level start (← bound) left

/-! ## Expressions -/

/-- Reads operands between `??`. -/
def coalesceWith (coalesce unary : Parser Expr) : Parser Expr := do
  let start ← position
  let left ← binary unary binaryLevels
  if ← takeMark .coalesce then
    let right ← coalesce
    return .binary (← newNode start) .coalesce left right
  return left

/-- Reads a conditional or what stands below it. -/
def conditionalWith (expression coalesce : Parser Expr) : Parser Expr := do
  let start ← position
  let condition ← coalesce
  if ← takeMark .question then
    let whenTrue ← expression
    expectMark .colon
    let whenFalse ← expression
    return .conditional (← newNode start) condition whenTrue whenFalse
  return condition

/-- Reads an assignment or what stands below it. -/
def assignmentWith (expression coalesce : Parser Expr) : Parser Expr := do
  let start ← position
  let target ← conditionalWith expression coalesce
  if ← takeMark .assign then
    let value ← expression
    return .assign (← newNode start) target value
  return target

mutual

/-- Reads an expression of at most the given depth. -/
def expressionToDepth : Nat → Parser Expr
  | 0 => failTooDeep
  | depth + 1 => assignmentWith (expressionToDepth depth) (coalesceToDepth depth)

/-- Reads operands between `??` of at most the given depth. -/
def coalesceToDepth : Nat → Parser Expr
  | 0 => failTooDeep
  | depth + 1 => coalesceWith (coalesceToDepth depth) (unaryToDepth depth)

/-- Reads a unary expression of at most the given depth. -/
def unaryToDepth : Nat → Parser Expr
  | 0 => failTooDeep
  | depth + 1 => unaryWith (unaryToDepth depth) (expressionToDepth depth)

end

/-- Reads an expression.  Three levels are entered before a token is read. -/
def expression : Parser Expr := do expressionToDepth (3 * (← bound))

end PropertyLint.Grammar
