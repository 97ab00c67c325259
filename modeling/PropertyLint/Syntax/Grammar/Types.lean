/-
# Reading types

A type is a keyword or a dotted name, followed by any number of `[]` and `?`.
-/
import PropertyLint.Syntax.Grammar.Cursor
import PropertyLint.Syntax.TypeRef

namespace PropertyLint.Grammar

/-- Where a type stands.  In an expression `T ?` may start a conditional, so there a question mark
belongs to the type only in front of a mark that ends the expression. -/
inductive TypePlace where
  | declaration
  | expression
deriving DecidableEq, Repr

/-- The marks behind which no expression goes on. -/
def expressionEnds : List Punct :=
  [.closeParen, .semicolon, .comma, .coalesce, .closeBracket, .closeBrace]

/-- The question mark that is next belongs to the type before it. -/
def nullableHere (place : TypePlace) : Parser Bool := do
  match place with
  | .declaration => return true
  | .expression =>
    let next ← peekSecond
    return expressionEnds.any fun p => next == .punct p

/-- A dot is next, and a word behind it. -/
def atDottedWord : Parser Bool := do
  let second ← peekSecond
  return (← atMark .dot) && second matches .word _

/-- Reads one segment of a dotted name. -/
def nameSegment (typeArg : Parser TypeRef) : Parser NameSegment := do
  let name ← identifier
  if ← takeMark .less then
    let args ← byComma typeArg
    expectMark .greater
    return .mk name args
  return .mk name []

/-- Reads the segments of a dotted name, in at most the given number of rounds. -/
def nameSegments (typeArg : Parser TypeRef) : Nat → Parser (List NameSegment)
  | 0 => failTooDeep
  | rounds + 1 => do
    let first ← nameSegment typeArg
    if ← atDottedWord then
      advance
      let rest ← nameSegments typeArg rounds
      return first :: rest
    return [first]

/-- Reads the `[]` and `?` behind a type, in at most the given number of rounds. -/
def typeSuffixes (place : TypePlace) (start : Nat) : Nat → TypeRef → Parser TypeRef
  | 0, _ => failTooDeep
  | rounds + 1, type => do
    if (← atMark .openBracket) && (← peekSecond) == .punct .closeBracket then
      advance
      advance
      let node ← newNode start
      typeSuffixes place start rounds (.array node type)
    else if (← atMark .question) && (← nullableHere place) then
      advance
      let node ← newNode start
      typeSuffixes place start rounds (.nullable node type)
    else return type

/-- Reads a type whose type arguments are read by `typeArg`. -/
def typeWith (typeArg : Parser TypeRef) (place : TypePlace) : Parser TypeRef := do
  let start ← position
  match ← peek with
  | .word word =>
    match KeywordType.ofKeyword? word with
    | some keyword =>
      advance
      let node ← newNode start
      typeSuffixes place start (← bound) (.keyword node keyword)
    | none =>
      let segments ← nameSegments typeArg (← bound)
      let node ← newNode start
      typeSuffixes place start (← bound) (.named node segments)
  | _ => failExpecting .type

/-- Reads a type whose type arguments nest to at most the given depth. -/
def typeToDepth : Nat → TypePlace → Parser TypeRef
  | 0, _ => failTooDeep
  | depth + 1, place => typeWith (typeToDepth depth .declaration) place

/-- Reads a type. -/
def type (place : TypePlace) : Parser TypeRef := do typeToDepth (← bound) place

end PropertyLint.Grammar
