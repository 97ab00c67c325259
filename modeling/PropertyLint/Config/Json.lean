/-
# Reading JSON

The reader accepts exactly the texts of the JSON grammar: one value with blanks around it.  Loops
and nested values recurse on a bound; every other step reads a character, so twice the length of
the text is bound enough.
-/
import PropertyLint.Config.Document
import PropertyLint.Text.Quoted

namespace PropertyLint.Config.Json

/-- A reader of the rest of a text. -/
abbrev Reader (α : Type) := StateT (List Char) Option α

/-- A blank between tokens. -/
def isBlank (c : Char) : Bool := c == ' ' || c == '\t' || c == '\n' || c == '\r'

/-- Skips blanks. -/
def blanks : Reader Unit := modify fun cs => cs.dropWhile isBlank

/-- Reads a character if it is next. -/
def take (c : Char) : Reader Bool := do
  match ← get with
  | d :: rest =>
    if c = d then
      set rest
      return true
    return false
  | [] => return false

/-- Reads one of two characters if it is next. -/
def takeEither (c d : Char) : Reader Bool := do
  if ← take c then return true
  take d

/-- Reads a word. -/
def word (w : String) : Reader Unit := do
  let cs ← get
  if w.toList.isPrefixOf cs then set (cs.drop w.length) else failure

/-! ## Strings -/

/-- The character that a letter behind a backslash stands for. -/
def escaped? (c : Char) : Option Char :=
  [('"', '"'), ('\\', '\\'), ('/', '/'), ('b', '\x08'), ('f', '\x0c'), ('n', '\n'), ('r', '\r'),
    ('t', '\t')].lookup c

/-- The first half of a pair of codes for one character. -/
def isHighSurrogate (code : Nat) : Bool := 0xD800 ≤ code && code ≤ 0xDBFF

/-- The second half of a pair of codes for one character. -/
def isLowSurrogate (code : Nat) : Bool := 0xDC00 ≤ code && code ≤ 0xDFFF

/-- The character for a pair of codes. -/
def pairChar? (high low : Nat) : Option Char :=
  if isHighSurrogate high && isLowSurrogate low then
    charOfCode? (0x10000 + (high - 0xD800) * 0x400 + (low - 0xDC00))
  else none

/-- The character for four hexadecimal digits. -/
def codeChar? (digits : List Char) : Option Char := do charOfCode? (← hexValue? digits)

/-- The character for two times four hexadecimal digits. -/
def codePairChar? (high low : List Char) : Option Char := do
  pairChar? (← hexValue? high) (← hexValue? low)

/-- The characters of a string behind its opening quote, and the text behind the closing one. -/
def stringBody : List Char → Option (List Char × List Char)
  | '"' :: rest => some ([], rest)
  | '\\' :: 'u' :: a :: b :: c :: d :: rest =>
    match codeChar? [a, b, c, d], rest with
    | some x, rest => do
      let (value, rest) ← stringBody rest
      return (x :: value, rest)
    | none, '\\' :: 'u' :: e :: f :: g :: h :: rest => do
      let x ← codePairChar? [a, b, c, d] [e, f, g, h]
      let (value, rest) ← stringBody rest
      return (x :: value, rest)
    | none, _ => none
  | '\\' :: c :: rest => do
    let x ← escaped? c
    let (value, rest) ← stringBody rest
    return (x :: value, rest)
  | c :: rest => do
    if c.toNat < 0x20 then none
    let (value, rest) ← stringBody rest
    return (c :: value, rest)
  | [] => none

/-- Reads a string behind its opening quote. -/
def string : Reader String := do
  let (value, rest) ← StateT.lift (stringBody (← get))
  set rest
  return String.ofList value

/-! ## Numbers -/

/-- Reads one or more digits. -/
def digits : Reader Unit := do
  let cs ← get
  if cs.head?.any Char.isDigit then set (cs.dropWhile Char.isDigit) else failure

/-- Reads a number. -/
def number : Reader Unit := do
  let _ ← take '-'
  unless ← take '0' do digits
  if ← take '.' then digits
  if ← takeEither 'e' 'E' then
    let _ ← takeEither '+' '-'
    digits

/-! ## Values -/

mutual

/-- Reads a value. -/
def value : Nat → Reader Document
  | 0 => failure
  | bound + 1 => do
    blanks
    match ← get with
    | '"' :: rest =>
      set rest
      return .scalar (.text (← string))
    | '[' :: rest =>
      set rest
      blanks
      if ← take ']' then return .list []
      return .list (← items bound)
    | '\x7b' :: rest =>
      set rest
      blanks
      if ← take '\x7d' then return .map []
      return .map (← entries bound)
    | 't' :: _ =>
      word "true"
      return .scalar (.bool true)
    | 'f' :: _ =>
      word "false"
      return .scalar (.bool false)
    | 'n' :: _ =>
      word "null"
      return .scalar .null
    | _ =>
      number
      return .scalar .number

/-- Reads the items of a list and its closing bracket. -/
def items : Nat → Reader (List Document)
  | 0 => failure
  | bound + 1 => do
    let first ← value bound
    blanks
    if ← take ',' then return first :: (← items bound)
    if ← take ']' then return [first]
    failure

/-- Reads the entries of a map and its closing brace. -/
def entries : Nat → Reader (List (Scalar × Document))
  | 0 => failure
  | bound + 1 => do
    blanks
    unless ← take '"' do failure
    let key ← string
    blanks
    unless ← take ':' do failure
    let first := (Scalar.text key, ← value bound)
    blanks
    if ← take ',' then return first :: (← entries bound)
    if ← take '\x7d' then return [first]
    failure

end

/-- The document that a JSON text holds. -/
def read? (text : String) : Option Document := do
  let cs := text.toList
  let (document, rest) ← (value (2 * cs.length + 2)).run cs
  if rest.all isBlank then some document else none

end PropertyLint.Config.Json
