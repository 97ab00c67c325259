/-
# The layout of a YAML text

What the text so far says about the tokens to come: where it stands, which collections are open,
how far they are indented, and where a key may have started.  A key is known as such only at its
colon; then its marks are put in front of it.
-/
import PropertyLint.Config.Yaml.Token

namespace PropertyLint.Config.Yaml

/-! ## Places -/

/-- A place in a text, and the text from there.  It is `fresh` if only blanks stand in front of it
on its line. -/
structure Cursor where
  rest : List Char
  line : Nat := 0
  column : Nat := 0
  offset : Nat := 0
  fresh : Bool := true

namespace Cursor

/-- The place behind the next character. -/
def next (c : Cursor) : Cursor :=
  match c.rest with
  | [] => c
  | x :: rest =>
    if x = '\n' then ⟨rest, c.line + 1, 0, c.offset + 1, true⟩
    else ⟨rest, c.line, c.column + 1, c.offset + 1, c.fresh && isGap x⟩

/-- The place some characters further on. -/
def skip (c : Cursor) (count : Nat) : Cursor := count.repeat next c

/-- The place where only a rest of the text is left. -/
def skipTo (c : Cursor) (rest : List Char) : Cursor := c.skip (c.rest.length - rest.length)

end Cursor

/-! ## State -/

/-- The indentation inside a node.  A block collection has its own, and the value of an entry has
one that lasts until something starts in it. -/
structure Level where
  column : Nat
  block : Bool

/-- A place where a key may have started: in front of which token, and whether only a key can stand
there. -/
structure KeyStart where
  place : Cursor
  token : Nat
  required : Bool

/-- A list or a map in flow form that is open, and the key that may have started in front of it. -/
structure Bracket where
  isList : Bool
  key : Option KeyStart

/-- What the text so far says. -/
structure Layout where
  /-- The place of the next character. -/
  cursor : Cursor
  /-- The tokens so far. -/
  tokens : Array Token := #[]
  /-- The indentations, from the innermost one on. -/
  levels : List Level := []
  /-- The open brackets, from the innermost one on. -/
  brackets : List Bracket := []
  /-- The key that may have started in the innermost bracket. -/
  key : Option KeyStart := none
  /-- A key may start here. -/
  allowsKey : Bool := true
  /-- The offset at which a colon is a mark whatever follows. -/
  adjacent : Option Nat := none
  /-- The line with a comment behind a plain scalar. -/
  comment : Option Nat := none

namespace Layout

/-- The text is inside brackets. -/
def inFlow (s : Layout) : Bool := !s.brackets.isEmpty

/-- The innermost open bracket is that of a list. -/
def inList (s : Layout) : Bool := s.brackets.head?.any Bracket.isList

/-- The least column of what stands inside the innermost level. -/
def margin (s : Layout) : Nat := (s.levels.head?.map fun l => l.column + 1).getD 0

/-- The number of tokens that no later text can change: those in front of the first possible key. -/
def settled (s : Layout) : Nat :=
  let keys := s.key :: s.brackets.map Bracket.key
  keys.foldl (fun n key => (key.map KeyStart.token).getD n) s.tokens.size

/-- The layout with tokens put in front of a token. -/
def insert (s : Layout) (index : Nat) (tokens : List Token) : Layout :=
  { s with tokens := s.tokens.take index ++ tokens ++ s.tokens.drop index }

end Layout

/-! ## Steps -/

/-- A step that reads a part of a text. -/
abbrev Lexing (α : Type) := StateT Layout Option α

/-- The place of the next character. -/
def place : Lexing Cursor := return (← get).cursor

/-- Moves to a place. -/
def moveTo (c : Cursor) : Lexing Unit := modify fun s => { s with cursor := c }

/-- Skips characters. -/
def advance (count : Nat) : Lexing Unit :=
  modify fun s => { s with cursor := s.cursor.skip count }

/-- Adds a token. -/
def emit (token : Token) : Lexing Unit :=
  modify fun s => { s with tokens := s.tokens.push token }

/-- Says whether a key may start next. -/
def allowKey (allows : Bool) : Lexing Unit := modify fun s => { s with allowsKey := allows }

/-! ## Keys -/

/-- Notes that a key may start with the next token.  In the column of a block collection nothing
but a key starts. -/
def startKey : Lexing Unit :=
  modify fun s =>
    if s.allowsKey then
      let column := s.cursor.column
      let required := !s.inFlow && s.levels.head?.any fun l => l.block && l.column == column
      { s with key := some ⟨s.cursor, s.tokens.size, required⟩ }
    else s

/-- Gives up the possible key. -/
def dropKey : Lexing Unit := do
  if (← get).key.any KeyStart.required then failure
  modify fun s => { s with key := none }

/-- The most characters that a key in block form has. -/
def keyLimit : Nat := 1024

/-- The text has gone on too far for a possible key; outside brackets a key is short and stands on
one line. -/
def Layout.keyIsStale (s : Layout) : Bool :=
  !s.inFlow && s.key.any fun k =>
    k.place.line < s.cursor.line || k.place.offset + keyLimit < s.cursor.offset

/-- Gives up the possible key if the text has gone on too far. -/
def dropStaleKey : Lexing Unit := do if (← get).keyIsStale then dropKey

/-! ## Indentation -/

/-- The levels without those that stand right of a column, and the number of block collections
among those. -/
def closedAt (column : Nat) : List Level → List Level × Nat
  | [] => ([], 0)
  | l :: rest =>
    if column < l.column then
      let (levels, count) := closedAt column rest
      (levels, count + if l.block then 1 else 0)
    else (l :: rest, 0)

/-- Ends block collections. -/
def closeLevels (closed : List Level × Nat) : Lexing Unit :=
  modify fun s =>
    { s with levels := closed.1, tokens := s.tokens ++ List.replicate closed.2 Token.blockEnd }

/-- Starts a block collection in front of a token, unless one is open in the column. -/
def openLevel (column index : Nat) (token : Token) : Lexing Unit :=
  modify fun s =>
    if s.inFlow then s
    else
      let levels := match s.levels with
        | l :: rest => if !l.block && l.column ≤ column then rest else s.levels
        | [] => []
      let s := { s with levels }
      if s.margin ≤ column then
        { s.insert index [token] with levels := ⟨column, true⟩ :: levels }
      else s

/-- Asks that what follows stands further right than the block collection. -/
def indent : Lexing Unit :=
  modify fun s =>
    match s.levels with
    | ⟨column, true⟩ :: _ =>
      if s.inFlow then s else { s with levels := ⟨column + 1, false⟩ :: s.levels }
    | _ => s

end PropertyLint.Config.Yaml
