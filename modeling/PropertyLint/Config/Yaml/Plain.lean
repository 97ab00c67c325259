/-
# Plain scalars

A plain scalar ends in front of a colon or a comment, and in flow form in front of a mark.  It goes
on with the next line if that line is indented; blanks around line breaks are dropped.
-/
import PropertyLint.Config.Yaml.Token

namespace PropertyLint.Config.Yaml

/-- A colon in front of the text is a mark and no part of a plain scalar. -/
def endsKey (flow : Bool) (cs : List Char) : Bool := atGap cs || flow && atFlowMark cs

/-- The characters of a line that belong to a plain scalar, with the blanks behind them. -/
def plainLine (flow afterGap : Bool) : List Char → List Char
  | [] => []
  | c :: rest =>
    if c = '\n' || (c = '#' && afterGap) || (c = ':' && endsKey flow rest) ||
      (flow && isFlowMark c) then []
    else c :: plainLine flow (isGap c) rest

/-- The text without the blanks at its end. -/
def dropGaps (cs : List Char) : List Char := (cs.reverse.dropWhile isGap).reverse

/-- The last word of a line is a dash. -/
def endsWithDash (cs : List Char) : Bool :=
  match cs.reverse with
  | '-' :: c :: _ => isGap c
  | cs => cs == ['-']

/-- The characters of a line that belong to a plain scalar.  In flow form no dash stands in front of
a mark. -/
def plainPart? (flow afterGap : Bool) (cs : List Char) : Option (List Char) :=
  let part := dropGaps (plainLine flow afterGap cs)
  if flow && endsWithDash part && atFlowMark (cs.drop part.length) then none else some part

/-- Only blanks or a comment are left on the line. -/
def isClear (cs : List Char) : Bool :=
  let rest := cs.dropWhile isGap
  rest.isEmpty || rest.head? == some '\n' || rest.head? == some '#'

/-- The line breaks in front of the next character that is no blank, and the text from there.  A tab
left of `margin` stands only on a line without content, where a comment behind it does not count. -/
def plainBreaks? (margin : Nat) (skip : Bool) (breaks column : Nat) :
    List Char → Option (Nat × List Char)
  | [] => some (breaks, [])
  | c :: rest =>
    if c = '\n' then plainBreaks? margin false (breaks + 1) 0 rest
    else if skip then plainBreaks? margin true breaks (column + 1) rest
    else if c = '\t' && column < margin then
      if isClear rest then plainBreaks? margin true breaks (column + 1) rest else none
    else if isGap c then plainBreaks? margin false breaks (column + 1) rest
    else some (breaks, c :: rest)

end PropertyLint.Config.Yaml
