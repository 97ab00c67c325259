/-
# Reading the tokens of a YAML text

Each step reads one token, with the marks that the indentation or a key puts in front of it, and at
least one character, so the length of the text bounds the number of steps.  Where no token can be
read, the text has the tokens up to there.  Anchors, tags, directives and scalars in block form are
no tokens.
-/
import PropertyLint.Config.Yaml.Layout
import PropertyLint.Config.Yaml.Plain
import PropertyLint.Config.Yaml.Quoted

namespace PropertyLint.Config.Yaml

/-! ## Between tokens -/

/-- What stands between two tokens: whether there is a line break, and whether there is a tab left
of the margin on the line of the second token. -/
structure Space where
  broken : Bool := false
  tabbed : Bool := false

/-- The space in front of the next token, and the text from that token on.  A comment ends with its
line. -/
def spaceFrom (margin : Nat) (space : Space) (fresh comment : Bool) (column : Nat) :
    List Char → Space × List Char
  | [] => ({ space with tabbed := false }, [])
  | c :: rest =>
    if c = '\n' then spaceFrom margin ⟨true, false⟩ true false 0 rest
    else if comment then spaceFrom margin space fresh true (column + 1) rest
    else if isGap c then
      let tabbed := space.tabbed || (c == '\t' && fresh && decide (column + 1 < margin))
      spaceFrom margin { space with tabbed } fresh false (column + 1) rest
    else if c = '#' then spaceFrom margin space fresh true (column + 1) rest
    else (space, c :: rest)

/-- A comment must not stand between two lines of a plain scalar: the next token must not go on with
the scalar on the line behind the comment. -/
def checkComment : Lexing Unit := do
  let s ← get
  set { s with comment := none }
  let c := s.cursor
  let follows := s.comment.any fun line => c.line == line + 1
  let goesOn := !s.inFlow && decide (s.margin ≤ c.column) && !c.rest.isEmpty &&
    !separatesDocuments c.rest && !startsWithMark ':' c.rest
  if follows && goesOn then failure

/-- Skips the space in front of the next token.  Outside brackets a key may start on a new line. -/
def skipSpace : Lexing Unit := do
  let s ← get
  let c := s.cursor
  let (space, rest) := spaceFrom s.margin {} c.fresh false c.column c.rest
  if space.tabbed then failure
  moveTo (c.skipTo rest)
  if space.broken && !s.inFlow then allowKey true
  checkComment

/-- Skips blanks and a comment up to the end of the line, and gives the blanks.  A comment stands
behind a blank. -/
def skipGap : Lexing (List Char) := do
  let gap := (← place).rest.takeWhile isGap
  advance gap.length
  let rest := (← place).rest
  if rest.head? = some '#' then
    if gap.isEmpty then failure
    advance (rest.takeWhile (· != '\n')).length
  return gap

/-- The text behind the space and the comments in front of a key; there are no tabs. -/
def keySpaceFrom (comment : Bool) : List Char → List Char
  | [] => []
  | c :: rest =>
    if c = '\n' then keySpaceFrom false rest
    else if comment then keySpaceFrom true rest
    else if c = ' ' then keySpaceFrom false rest
    else if c = '#' then keySpaceFrom true rest
    else c :: rest

/-! ## Scalars -/

/-- Reads the lines with which a plain scalar goes on, and tells where it ends. -/
def plainMore? (flow : Bool) (margin : Nat) : Nat → Cursor → Option (List Char × Cursor)
  | 0, c => some ([], c)
  | bound + 1, c => do
    let c := c.skip (c.rest.takeWhile isGap).length
    if c.rest.head? ≠ some '\n' then return ([], c)
    let (breaks, rest) ← plainBreaks? margin false 0 c.column c.rest
    let c := c.skipTo rest
    let ends := (!flow && decide (c.column < margin)) || rest.head? == some '#' ||
      (c.column == 0 && separatesDocuments rest)
    if ends then return ([], c)
    let part ← plainPart? flow true rest
    if part.isEmpty then return ([], c)
    let (more, last) ← plainMore? flow margin bound (c.skip part.length)
    return (folded breaks ++ part ++ more, last)

/-- Reads a plain scalar.  The text from here is no longer the value that a level waits for. -/
def readPlain : Lexing Unit := do
  startKey
  allowKey false
  modify fun s => { s with levels := s.levels.dropWhile fun l => !l.block }
  let s ← get
  let c := s.cursor
  if s.inFlow && c.column < s.margin then failure
  let part ← StateT.lift (plainPart? s.inFlow false c.rest)
  if part.isEmpty then failure
  let (more, last) ← StateT.lift
    (plainMore? s.inFlow s.margin c.rest.length (c.skip part.length))
  moveTo last
  if last.fresh then allowKey true
  else if last.rest.head? == some '#' && !s.inFlow then
    modify fun s => { s with comment := some last.line }
  emit (.scalar true (String.ofList (part ++ more)))

/-- Reads a quoted scalar.  On its line nothing follows but a colon, or inside brackets another
mark. -/
def readQuoted (pieces? : List Char → Option (List Piece × List Char)) : Lexing Unit := do
  startKey
  allowKey false
  let s ← get
  let c := s.cursor
  let (pieces, rest) ← StateT.lift (pieces? (c.rest.drop 1))
  let text ← StateT.lift (joined? s.margin (.blanks []) pieces)
  moveTo (c.skipTo rest)
  let _ ← skipGap
  let last ← place
  match last.rest.head? with
  | some ':' => unless s.inFlow || last.line == c.line do failure
  | some x => unless x == '\n' || (s.inFlow && (x == ',' || x == ']' || x == '\x7d')) do failure
  | none => pure ()
  skipSpace
  modify fun s => { s with adjacent := some s.cursor.offset }
  emit (.scalar false (String.ofList text))

/-! ## Flow form -/

/-- Reads an opening bracket, in front of which a key may start. -/
def openBracket (isList : Bool) : Lexing Unit := do
  startKey
  indent
  modify fun s => { s with brackets := ⟨isList, s.key⟩ :: s.brackets, key := none }
  allowKey true
  advance 1
  let _ ← skipGap
  emit (if isList then .listStart else .mapStart)

/-- Reads a closing bracket. -/
def closeBracket (token : Token) : Lexing Unit := do
  let s ← get
  match s.brackets with
  | [] => failure
  | b :: rest =>
    dropKey
    modify fun s => { s with brackets := rest, key := b.key }
    allowKey false
    advance 1
    let _ ← skipGap
    unless rest.isEmpty do modify fun s => { s with adjacent := some s.cursor.offset }
    emit token

/-- Reads a comma. -/
def readComma : Lexing Unit := do
  dropKey
  allowKey true
  advance 1
  let _ ← skipGap
  emit .comma

/-! ## Block form -/

/-- Starts a block collection in front of the next token. -/
def openHere (token : Token) : Lexing Unit := do
  let s ← get
  openLevel s.cursor.column s.tokens.size token

/-- Reads the dash of an item. -/
def readItem : Lexing Unit := do
  let s ← get
  if s.inFlow || !s.allowsKey then failure
  openHere .blockList
  advance 1
  let gap ← skipGap
  let rest := (← place).rest
  if gap.contains '\t' && startsWithMark '-' rest then failure
  if rest.head? = some '\n' || atFlowMark rest then indent
  dropKey
  allowKey true
  emit .item

/-- Reads the question mark in front of a key of any form. -/
def readKeyMark : Lexing Unit := do
  let s ← get
  unless s.inFlow do
    unless s.allowsKey do failure
    openHere .blockMap
  dropKey
  allowKey (!s.inFlow)
  advance 1
  let c ← place
  let rest := keySpaceFrom false c.rest
  if rest.length = c.rest.length || rest.head? = some '\t' then failure
  moveTo (c.skipTo rest)
  emit .key

/-- A letter, a digit, a dash or an underscore. -/
def isWordChar (c : Char) : Bool := c.isAlphanum || c == '-' || c == '_'

/-- Reads the colon behind a key.  If a key has started, its marks are put in front of it now; in a
list it stands on the line of its colon.  A value does not stand behind tabs alone. -/
def readColon : Lexing Unit := do
  let s ← get
  advance 1
  if (← place).rest.head? = some '\t' then
    let gap ← skipGap
    if !gap.contains ' ' && (← place).rest.head?.any isWordChar then failure
  match s.key with
  | some k =>
    if s.inList && k.place.line < s.cursor.line then failure
    modify fun s => { s.insert k.token [.key] with key := none }
    openLevel k.place.column k.token .blockMap
    indent
    allowKey false
  | none =>
    unless s.inFlow do
      unless s.allowsKey do failure
      openLevel s.cursor.column s.tokens.size .blockMap
    indent
    allowKey (!s.inFlow)
  emit .value

/-! ## Tokens -/

/-- Reads the end of the text. -/
def readEnd : Lexing Unit := do
  if (← get).inFlow then failure
  dropKey
  closeLevels ([], (← get).levels.countP Level.block)
  emit .textEnd

/-- Reads the line that starts or ends a document. -/
def readRule (token : Token) : Lexing Unit := do
  if (← get).inFlow then failure
  closeLevels ([], (← get).levels.countP Level.block)
  dropKey
  allowKey false
  advance 3
  if token = .documentEnd then
    let _ ← skipGap
    unless atGap (← place).rest do failure
  emit token

/-- The characters with which no token starts. -/
def isReserved (flow : Bool) (c : Char) : Bool :=
  ['%', '@', '\x60', '&', '*', '!'].contains c || (!flow && (c == '|' || c == '>'))

/-- Reads the token that starts with a character.  A colon in front of other characters is a mark
behind a quoted scalar or a bracket, and a part of a plain scalar elsewhere. -/
def readFrom (s : Layout) (c : Char) (rest : List Char) : Lexing Unit :=
  if isReserved s.inFlow c then failure
  else if c = '[' then openBracket true
  else if c = '\x7b' then openBracket false
  else if c = ']' then closeBracket .listEnd
  else if c = '\x7d' then closeBracket .mapEnd
  else if c = ',' then readComma
  else if c = '-' && atGap rest then readItem
  else if c = '?' && atGap rest then readKeyMark
  else if c = ':' && atGap rest then readColon
  else if c = ':' && s.inFlow && s.adjacent = some s.cursor.offset then readColon
  else if c = ':' && s.inFlow && atFlowMark rest then
    if rest.head? = some '[' || rest.head? = some '\x7b' then failure else readColon
  else if c = '\'' then readQuoted singleQuoted?
  else if c = '"' then readQuoted doubleQuoted?
  else readPlain

/-- Reads the next token. -/
def readToken : Lexing Unit := do
  skipSpace
  dropStaleKey
  let c ← place
  unless (← get).inFlow do closeLevels (closedAt c.column (← get).levels)
  match c.rest with
  | [] => readEnd
  | x :: rest =>
    if c.column = 0 && startsWithRule '-' c.rest then readRule .documentStart
    else if c.column = 0 && startsWithRule '.' c.rest then readRule .documentEnd
    else
      let s ← get
      let closes := s.inFlow && (x == ']' || x == '\x7d' || x == ',')
      if c.column + 1 < s.margin && !closes then failure
      readFrom s x rest

/-- The tokens of what is left of a text, behind those so far. -/
def tokensFrom : Nat → Layout → List Token
  | 0, s => s.tokens.toList
  | bound + 1, s =>
    match readToken.run s with
    | some (_, next) =>
      if next.tokens.back? = some .textEnd then next.tokens.toList else tokensFrom bound next
    | none =>
      let s := if s.keyIsStale then { s with key := s.key.filter KeyStart.required } else s
      s.tokens.toList.take s.settled

/-- The tokens of a text; the last one is `textEnd` unless the text breaks off. -/
def Token.ofText (cs : List Char) : List Token :=
  tokensFrom (cs.length + 1) { cursor := { rest := cs } }

end PropertyLint.Config.Yaml
