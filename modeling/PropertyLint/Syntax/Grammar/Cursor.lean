/-
# Reading tokens

A parser reads tokens off a `Cursor`, which also remembers where the last token ended and hands out
node identities.  Loops and nested forms recurse on a bound; every round and every level reads at
least one token, so the number of tokens that are left is bound enough.
-/
import PropertyLint.Syntax.Token
import PropertyLint.Syntax.Name

namespace PropertyLint.Grammar

/-- The tokens that are left, and what has been read of a text of `size` bytes. -/
structure Cursor where
  tokens : List Token
  /-- The end of the token that was read last. -/
  last : Nat
  /-- The identity that the next node gets. -/
  fresh : NodeId
  size : Nat

namespace Cursor

/-- The kind of the next token. -/
def head (c : Cursor) : TokenKind :=
  match c.tokens with
  | t :: _ => t.kind
  | [] => .endOfText

/-- The kind of the token behind the next one. -/
def second (c : Cursor) : TokenKind :=
  match c.tokens with
  | _ :: t :: _ => t.kind
  | _ => .endOfText

/-- The offset of the next token. -/
def position (c : Cursor) : Nat :=
  match c.tokens with
  | t :: _ => t.range.start
  | [] => c.size

/-- The doc comment in front of the next token. -/
def doc (c : Cursor) : Option OffsetRange := c.tokens.head?.bind Token.doc

/-- The cursor behind the next token; the end of the text is never passed. -/
def advance (c : Cursor) : Cursor :=
  match c.tokens with
  | t :: rest => { c with tokens := rest, last := t.range.stop }
  | [] => c

/-- The cursor with another identity for the next node. -/
def withFresh (c : Cursor) (fresh : NodeId) : Cursor := { c with fresh }

end Cursor

/-- A parser: the first error ends the reading, and the cursor stays where it happened. -/
abbrev Parser (α : Type) := ExceptT SyntaxError (StateM Cursor) α

/-- What a parser gives from a cursor on, and the cursor at which it stops. -/
def Parser.outcome {α : Type} (p : Parser α) (c : Cursor) : Except SyntaxError α × Cursor := p c

/-! ## Single tokens -/

/-- The kind of the next token. -/
def peek : Parser TokenKind := return (← get).head

/-- The kind of the token behind the next one. -/
def peekSecond : Parser TokenKind := return (← get).second

/-- The offset of the next token. -/
def position : Parser Nat := return (← get).position

/-- The number of rounds that a loop over the tokens that are left can take. -/
def bound : Parser Nat := return (← get).tokens.length + 1

/-- Reads the next token. -/
def advance : Parser Unit := modify Cursor.advance

/-- Fails at the next token, which is not what is looked for. -/
def failExpecting {α : Type} (expected : Expected) : Parser α := do
  let c ← get
  throw ⟨.unexpectedToken expected c.head, c.position⟩

/-- Fails because a bound is used up. -/
def failTooDeep {α : Type} : Parser α := do throw ⟨.tooDeep, ← position⟩

/-- The next token is the mark. -/
def atMark (p : Punct) : Parser Bool := return (← peek) == .punct p

/-- Reads the mark if it is next. -/
def takeMark (p : Punct) : Parser Bool := do
  if ← atMark p then
    advance
    return true
  return false

/-- Reads the mark. -/
def expectMark (p : Punct) : Parser Unit := do
  unless ← takeMark p do failExpecting (.mark p)

/-- The next token is the word. -/
def atWord (w : String) : Parser Bool := return (← peek) == .word w

/-- The next token is one of the words. -/
def atAnyWord (ws : List String) : Parser Bool := do
  let next ← peek
  return ws.any fun w => next == .word w

/-- Reads the word if it is next. -/
def takeWord (w : String) : Parser Bool := do
  if ← atWord w then
    advance
    return true
  return false

/-- Reads an identifier. -/
def identifier : Parser Ident := do
  match (← get).tokens with
  | ⟨.word text, range, _⟩ :: _ =>
    advance
    return ⟨text, range⟩
  | _ => failExpecting .identifier

/-! ## Nodes -/

/-- The range from an offset to the end of the last token. -/
def rangeFrom (start : Nat) : Parser OffsetRange := return ⟨start, max (← get).last start⟩

/-- An identity that no node has yet. -/
def freshId : Parser NodeId := do
  let c ← get
  set (c.withFresh (c.fresh + 1))
  return c.fresh

/-- A new node from an offset to the end of the last token. -/
def newNode (start : Nat) : Parser Node := do
  let id ← freshId
  return ⟨id, ← rangeFrom start⟩

/-! ## Combinations -/

/-- Tries a parser; where it fails at a token nothing has been read, but the identities that it has
taken are not given out again.  A bound that is used up is no such failure and is passed on. -/
def attempt {α : Type} (p : Parser α) : Parser (Option α) := fun c =>
  match p.outcome c with
  | (.ok a, c') => (.ok (some a), c')
  | (.error e, c') =>
    if e.cause = .tooDeep then (.error e, c') else (.ok none, c.withFresh c'.fresh)

/-- Reads items up to a closing mark, in at most the given number of rounds. -/
def itemsUntil {α : Type} (close : Punct) (item : Parser α) : Nat → Parser (List α)
  | 0 => failTooDeep
  | rounds + 1 => do
    if ← takeMark close then return []
    if (← peek) == .endOfText then failExpecting (.mark close)
    let first ← item
    let rest ← itemsUntil close item rounds
    return first :: rest

/-- Reads items up to a closing mark. -/
def untilMark {α : Type} (close : Punct) (item : Parser α) : Parser (List α) := do
  itemsUntil close item (← bound)

/-- Reads one item and one more behind every comma, in at most the given number of rounds. -/
def itemsByComma {α : Type} (item : Parser α) : Nat → Parser (List α)
  | 0 => failTooDeep
  | rounds + 1 => do
    let first ← item
    if ← takeMark .comma then
      let rest ← itemsByComma item rounds
      return first :: rest
    return [first]

/-- Reads one item and one more behind every comma. -/
def byComma {α : Type} (item : Parser α) : Parser (List α) := do itemsByComma item (← bound)

/-- Reads items between commas in parentheses; there may be none. -/
def inParens {α : Type} (item : Parser α) : Parser (List α) := do
  expectMark .openParen
  let items ← if ← atMark .closeParen then pure [] else byComma item
  expectMark .closeParen
  return items

/-- Passes over tokens until the given number of open pairs is closed. -/
def closePairs (opening closing : Punct) : Nat → Nat → Parser Unit
  | _, 0 => pure ()
  | 0, _ => failTooDeep
  | rounds + 1, depth + 1 => do
    if (← peek) == .endOfText then failExpecting (.mark closing)
    let next ← peek
    advance
    if next == .punct opening then closePairs opening closing rounds (depth + 2)
    else if next == .punct closing then closePairs opening closing rounds depth
    else closePairs opening closing rounds (depth + 1)

/-- Passes over everything between a pair of marks. -/
def skipPair (opening closing : Punct) : Parser Unit := do
  expectMark opening
  closePairs opening closing (← bound) 1

/-- Passes over tokens up to one that satisfies the test, or to the end of the text. -/
def skipTo (stop : TokenKind → Bool) : Nat → Parser Unit
  | 0 => failTooDeep
  | rounds + 1 => do
    let next ← peek
    if next == .endOfText || stop next then return
    advance
    skipTo stop rounds

end PropertyLint.Grammar
