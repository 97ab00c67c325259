/-
# YAML scalars

A plain scalar is read by what it looks like: nothing, a truth value, a number or else a text.  A
number that is not finite is a text too, and all its spellings are the same text.  A quoted scalar
is always a text.

A number is an integer in one of four bases, between whose digits underscores may stand, or a
decimal with a point and an exponent, or one of the words for infinity and for no number.  An
integer lies between -2^63 and 2^64 - 1.  A decimal is read as a double, and one that is too large
is infinite.
-/
import PropertyLint.Config.Document
import PropertyLint.Text.Ends
import PropertyLint.Text.Quoted

namespace PropertyLint.Config.Yaml

/-- A number, as far as its value can matter. -/
inductive Number where
  | natural (value : Nat)
  | negative
  | decimal
  | infinite (negative : Bool)
  | undefined
deriving DecidableEq, Repr

/-! ## Integers -/

/-- The value of the digits of a base, at least one, among underscores. -/
def digitsValue? (base : Nat) (cs : List Char) : Option Nat :=
  let digits := cs.filter (· != '_')
  if digits.isEmpty then none
  else digits.foldlM (fun n c => do
    let d ← hexDigit? c
    if d < base then some (base * n + d) else none) 0

/-- The value of an integer without its sign, in lower case. -/
def magnitude? : List Char → Option Nat
  | '0' :: 'x' :: rest => digitsValue? 16 rest
  | '0' :: 'o' :: rest => digitsValue? 8 rest
  | '0' :: 'b' :: rest => digitsValue? 2 rest
  | cs => digitsValue? 10 cs

/-- The text without a sign in front. -/
def unsigned : List Char → List Char
  | '+' :: rest | '-' :: rest => rest
  | cs => cs

/-- An integer that is neither too small nor too large. -/
def integer? (cs : List Char) : Option Number := do
  let n ← magnitude? (unsigned cs)
  if cs.head? = some '-' then if n ≤ Nat.pow 2 63 then some .negative else none
  else if n < Nat.pow 2 64 then some (.natural n) else none

/-! ## Decimals -/

/-- The value of decimal digits. -/
def decimalValue (digits : List Char) : Nat :=
  digits.foldl (fun n c => 10 * n + (c.toNat - '0'.toNat)) 0

/-- The exponent of a decimal; it may be left out. -/
def exponent? : List Char → Option Int
  | [] => some 0
  | 'e' :: rest =>
    let digits := unsigned rest
    if digits.isEmpty || !digits.all Char.isDigit then none
    else if rest.head? = some '-' then some (-decimalValue digits) else some (decimalValue digits)
  | _ => none

/-- The digits of a decimal without its sign, in lower case, and the power of ten of the
last one. -/
def decimal? (cs : List Char) : Option (List Char × Int) := do
  let whole := cs.takeWhile Char.isDigit
  let (fraction, rest) := match cs.dropWhile Char.isDigit with
    | '.' :: rest => (rest.takeWhile Char.isDigit, rest.dropWhile Char.isDigit)
    | rest => ([], rest)
  if whole.isEmpty && fraction.isEmpty then none
  return (whole ++ fraction, (← exponent? rest) - fraction.length)

/-- The least number that is too large for a double: half a unit past the largest one. -/
def doubleLimit : Nat := (Nat.pow 2 54 - 1) * Nat.pow 2 970

/-- The digits times a power of ten are too large for a double.  Both sides of the comparison have
309 digits in front of the point. -/
def isInfinite (digits : List Char) (exponent : Int) : Bool :=
  let digits := digits.dropWhile (· == '0')
  let size := digits.length + exponent
  if digits.isEmpty then false
  else if size = 309 then
    decide (doubleLimit * Nat.pow 10 (-exponent).toNat ≤
      decimalValue digits * Nat.pow 10 exponent.toNat)
  else decide (309 < size)

/-! ## Numbers -/

/-- The words for infinity. -/
def infinityWords : List String := [".inf", "inf", "infinity"]

/-- The words for no number. -/
def undefinedWords : List String := [".nan", "nan"]

/-- The number that a text in lower case is. -/
def Number.ofText? (text : String) : Option Number :=
  let cs := text.toList
  let negative := cs.head? = some '-'
  let word := String.ofList (unsigned cs)
  integer? cs <|>
    if infinityWords.contains word then some (.infinite negative)
    else if undefinedWords.contains word then some .undefined
    else (decimal? (unsigned cs)).map fun (digits, exponent) =>
      if isInfinite digits exponent then .infinite negative else .decimal

/-! ## Scalars -/

/-- The words for nothing. -/
def nullWords : List String := ["", "~", "null"]

/-- The words for true. -/
def trueWords : List String := ["true", "yes", "y", "on"]

/-- The words for false. -/
def falseWords : List String := ["false", "no", "n", "off"]

/-- What a number is in a document. -/
def Number.scalar : Number → Scalar
  | natural n => .natural n
  | negative | decimal => .number
  | infinite false => .text ".inf"
  | infinite true => .text "-.inf"
  | undefined => .text ".nan"

/-- What a plain scalar stands for.  White space at its ends does not count for truth values and
numbers. -/
def plainScalar (text : String) : Scalar :=
  let word := String.ofList (trimBlank (text.toList.map Char.toLower))
  if nullWords.contains (text.map Char.toLower) then .null
  else if trueWords.contains word then .bool true
  else if falseWords.contains word then .bool false
  else ((Number.ofText? word).map Number.scalar).getD (.text text)

end PropertyLint.Config.Yaml
