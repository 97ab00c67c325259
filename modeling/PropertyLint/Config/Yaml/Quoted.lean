/-
# Quoted scalars

A quoted scalar ends with its quote.  In double quotes a backslash starts an escape, and in single
quotes two quotes stand for one.  Blanks around line breaks are dropped.
-/
import PropertyLint.Config.Yaml.Token
import PropertyLint.Text.Quoted

namespace PropertyLint.Config.Yaml

/-- A piece of a quoted scalar. -/
inductive Piece where
  | char (value : Char)
  | blank (value : Char)
  | lineBreak
  | hiddenBreak
deriving DecidableEq, Repr

/-- The character for an escape of one letter. -/
def escapedLetter? (c : Char) : Option Char :=
  [('0', '\x00'), ('a', '\x07'), ('b', '\x08'), ('t', '\t'), ('\t', '\t'), ('n', '\n'),
    ('v', '\x0b'), ('f', '\x0c'), ('r', '\r'), ('e', '\x1b'), (' ', ' '), ('"', '"'), ('/', '/'),
    ('\\', '\\'), ('N', '\u0085'), ('_', '\u00a0'), ('L', '\u2028'), ('P', '\u2029')].lookup c

/-- The character for an escape by hexadecimal digits. -/
def escapedCode? (digits : List Char) : Option Char := do charOfCode? (← hexValue? digits)

/-- A piece in front of what follows. -/
def consPiece (piece : Piece) (read : List Piece × List Char) : List Piece × List Char :=
  (piece :: read.1, read.2)

/-- The piece that a character is by itself. -/
def Piece.ofChar (c : Char) : Piece := if isGap c then .blank c else .char c

/-- The pieces of a scalar in double quotes behind its opening quote, and the text behind the
closing one.  A backslash in front of a line break hides it. -/
def doubleQuoted? : List Char → Option (List Piece × List Char)
  | [] => none
  | '"' :: rest => some ([], rest)
  | '\n' :: rest =>
    if separatesDocuments rest then none else (doubleQuoted? rest).map (consPiece .lineBreak)
  | '\\' :: '\n' :: rest =>
    if separatesDocuments rest then none else (doubleQuoted? rest).map (consPiece .hiddenBreak)
  | '\\' :: 'x' :: a :: b :: rest => do
    return consPiece (.char (← escapedCode? [a, b])) (← doubleQuoted? rest)
  | '\\' :: 'u' :: a :: b :: c :: d :: rest => do
    return consPiece (.char (← escapedCode? [a, b, c, d])) (← doubleQuoted? rest)
  | '\\' :: 'U' :: a :: b :: c :: d :: e :: f :: g :: h :: rest => do
    return consPiece (.char (← escapedCode? [a, b, c, d, e, f, g, h])) (← doubleQuoted? rest)
  | '\\' :: c :: rest => do
    return consPiece (.char (← escapedLetter? c)) (← doubleQuoted? rest)
  | c :: rest => (doubleQuoted? rest).map (consPiece (.ofChar c))

/-- The pieces of a scalar in single quotes behind its opening quote, and the text behind the
closing one; two quotes stand for one. -/
def singleQuoted? : List Char → Option (List Piece × List Char)
  | [] => none
  | '\'' :: '\'' :: rest => (singleQuoted? rest).map (consPiece (.char '\''))
  | '\'' :: rest => some ([], rest)
  | '\n' :: rest =>
    if separatesDocuments rest then none else (singleQuoted? rest).map (consPiece .lineBreak)
  | c :: rest => (singleQuoted? rest).map (consPiece (.ofChar c))

/-- What stands between two characters of a quoted scalar: blanks, from the last one on, or line
breaks and the column behind them. -/
inductive Gap where
  | blanks (values : List Char)
  | breaks (hidden : Bool) (count column : Nat)

/-- What a gap stands for.  Behind a hidden break every other break stays. -/
def Gap.chars : Gap → List Char
  | blanks values => values.reverse
  | breaks true count _ => List.replicate count '\n'
  | breaks false count _ => folded count

/-- The gap with one more blank.  A new line has no tab left of `margin`. -/
def Gap.blank? (margin : Nat) (c : Char) : Gap → Option Gap
  | blanks values => some (blanks (c :: values))
  | breaks hidden count column =>
    if c = '\t' && column + 1 < margin then none else some (breaks hidden count (column + 1))

/-- The gap with one more line break. -/
def Gap.lineBreak : Gap → Gap
  | blanks _ => breaks false 1 0
  | breaks hidden count _ => breaks hidden (count + 1) 0

/-- The characters that pieces stand for behind a gap. -/
def joined? (margin : Nat) (gap : Gap) : List Piece → Option (List Char)
  | [] => some gap.chars
  | .char c :: rest => (joined? margin (.blanks []) rest).map (gap.chars ++ c :: ·)
  | .blank c :: rest => do joined? margin (← gap.blank? margin c) rest
  | .lineBreak :: rest => joined? margin gap.lineBreak rest
  | .hiddenBreak :: rest => (joined? margin (.breaks true 0 0) rest).map (gap.chars ++ ·)

end PropertyLint.Config.Yaml
