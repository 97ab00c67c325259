/-
# From text to tokens

`scan` reads the first piece of a text: a blank, a comment or a token.  It names the piece by its
kind and the number of characters behind the first one, so a piece is never empty, and `tokensFrom`
cuts the pieces off one after the other and counts their bytes.  White space is ASCII; a line that
starts with `#` anywhere is skipped to its end.
-/
import PropertyLint.Syntax.Token
import PropertyLint.Text.Slice

namespace PropertyLint

/-- White space between tokens. -/
def isSpace (c : Char) : Bool :=
  c == ' ' || c == '\t' || c == '\n' || c == '\r' || c == '\x0c'

/-- A letter that a word may start with. -/
def isWordStart (c : Char) : Bool :=
  ('a' ≤ c && c ≤ 'z') || ('A' ≤ c && c ≤ 'Z') || c == '_'

/-- A decimal digit. -/
def isDigit (c : Char) : Bool := '0' ≤ c && c ≤ '9'

/-- A character that a word may go on with. -/
def isWordChar (c : Char) : Bool := isWordStart c || isDigit c

/-- What a piece of a text is. -/
inductive Piece where
  | blank
  | comment
  | docComment
  | token (kind : TokenKind)
deriving DecidableEq, Repr

/-! ## Literals -/

/-- The character that an escape stands for. -/
def unescape (c : Char) : Char :=
  if c = 'n' then '\n'
  else if c = 't' then '\t'
  else if c = 'r' then '\r'
  else if c = '0' then '\x00'
  else c

/-- The value of a string from behind its opening quote, and the number of its characters with the
closing quote. -/
def stringBody : List Char → Except SyntaxCause (List Char × Nat)
  | [] => .error .unterminatedString
  | '"' :: _ => .ok ([], 1)
  | '\\' :: [] => .error .unterminatedString
  | '\\' :: c :: rest => do
    let (value, count) ← stringBody rest
    return (unescape c :: value, count + 2)
  | '\n' :: _ => .error .newlineInString
  | c :: rest => do
    let (value, count) ← stringBody rest
    return (c :: value, count + 1)

/-- The value of a verbatim string from behind its opening quote, and the number of its characters
with the closing quote.  Two quotes stand for one. -/
def verbatimBody : List Char → Except SyntaxCause (List Char × Nat)
  | [] => .error .unterminatedString
  | '"' :: '"' :: rest => do
    let (value, count) ← verbatimBody rest
    return ('"' :: value, count + 2)
  | '"' :: _ => .ok ([], 1)
  | c :: rest => do
    let (value, count) ← verbatimBody rest
    return (c :: value, count + 1)

/-- The value of a character literal from behind its opening quote, and the number of its characters
with the closing quote. -/
def charBody : List Char → Except SyntaxCause (Char × Nat)
  | '\\' :: c :: '\'' :: _ => .ok (unescape c, 3)
  | '\\' :: _ => .error .unterminatedChar
  | c :: '\'' :: _ => .ok (c, 2)
  | _ => .error .unterminatedChar

/-- The value of decimal digits. -/
def decimalValue (digits : List Char) : Nat :=
  digits.foldl (fun n c => 10 * n + (c.toNat - '0'.toNat)) 0

/-- The greatest integer literal. -/
def maxInteger : Nat := 0x7fffffffffffffff

/-- The suffixes that make a number real. -/
def realSuffixes : List Char := ['d', 'D', 'f', 'F', 'm', 'M']

/-- The suffixes that leave a number as it is. -/
def integerSuffixes : List Char := ['L', 'l', 'u', 'U']

/-- The point and the digits of a fraction, if digits follow the point. -/
def fractionPart : List Char → List Char
  | '.' :: d :: rest => if isDigit d then '.' :: d :: rest.takeWhile isDigit else []
  | _ => []

/-- A number from its first digit on, and the number of its characters.  A fraction or a suffix may
make it real; a real number keeps its text, suffix included. -/
def number (cs : List Char) : Except SyntaxCause (TokenKind × Nat) :=
  let whole := cs.takeWhile isDigit
  let fraction := fractionPart (cs.drop whole.length)
  let body := whole ++ fraction
  let suffix := ((cs.drop body.length).take 1).filter (· ∈ realSuffixes ++ integerSuffixes)
  let count := body.length + suffix.length
  if !fraction.isEmpty || suffix.any (· ∈ realSuffixes) then
    .ok (.real (String.ofList (body ++ suffix)), count)
  else if decimalValue whole ≤ maxInteger then .ok (.integer (decimalValue whole), count)
  else .error .integerOutOfRange

/-! ## Pieces -/

/-- The number of characters before the first `*/`. -/
def commentEnd? : List Char → Option Nat
  | [] => none
  | '*' :: '/' :: _ => some 0
  | _ :: rest => (commentEnd? rest).map (· + 1)

/-- The number of characters before the end of the line. -/
def restOfLine (cs : List Char) : Nat := (cs.takeWhile (· != '\n')).length

/-- A word that starts with the given characters. -/
def wordOf (cs : List Char) : String := String.ofList (cs.takeWhile isWordChar)

/-- The first piece of the text `c :: cs`, and the number of its characters behind `c`. -/
def scan (c : Char) (cs : List Char) : Except SyntaxCause (Piece × Nat) :=
  if isSpace c then .ok (.blank, 0)
  else if ['/', '/', '/'].isPrefixOf (c :: cs) then .ok (.docComment, restOfLine cs)
  else if ['/', '/'].isPrefixOf (c :: cs) then .ok (.comment, restOfLine cs)
  else if ['/', '*'].isPrefixOf (c :: cs) then
    match commentEnd? cs.tail with
    | some inside => .ok (.comment, inside + 3)
    | none => .error .unterminatedComment
  else if c = '#' then .ok (.comment, restOfLine cs)
  else if isWordStart c then
    .ok (.token (.word (wordOf (c :: cs))), (cs.takeWhile isWordChar).length)
  else if c = '@' ∧ cs.head?.any isWordStart then
    .ok (.token (.word (wordOf cs)), (cs.takeWhile isWordChar).length)
  else if isDigit c then do
    let (kind, count) ← number (c :: cs)
    return (.token kind, count - 1)
  else if c = '"' then do
    let (value, count) ← stringBody cs
    return (.token (.string (String.ofList value)), count)
  else if c = '@' ∧ cs.head? = some '"' then do
    let (value, count) ← verbatimBody cs.tail
    return (.token (.string (String.ofList value)), count + 1)
  else if c = '\'' then do
    let (value, count) ← charBody cs
    return (.token (.char value), count)
  else
    match Punct.ofPrefix? (c :: cs) with
    | some mark => .ok (.token (.punct mark), mark.chars.length - 1)
    | none => .error (.unexpectedChar c)

/-- The tokens of the rest of a text that starts at `position`; `doc` covers the `///` comments
since the last token. -/
def tokensFrom (cs : List Char) (position : Nat) (doc : Option OffsetRange) :
    Except SyntaxError (List Token) :=
  match cs with
  | [] => .ok []
  | c :: cs =>
    match scan c cs with
    | .error cause => .error ⟨cause, position⟩
    | .ok (piece, count) =>
      let stop := position + byteLength (c :: cs.take count)
      match piece with
      | .blank | .comment => tokensFrom (cs.drop count) stop doc
      | .docComment =>
        let range : OffsetRange := ⟨position, stop⟩
        tokensFrom (cs.drop count) stop (some ((doc.map fun d => d.cover range).getD range))
      | .token kind => do
        let rest ← tokensFrom (cs.drop count) stop none
        return ⟨kind, ⟨position, stop⟩, doc⟩ :: rest
termination_by cs.length
decreasing_by all_goals (simp only [List.length_drop, List.length_cons]; omega)

/-- The tokens of a text. -/
def tokenize (text : String) : Except SyntaxError (List Token) := tokensFrom text.toList 0 none

end PropertyLint
