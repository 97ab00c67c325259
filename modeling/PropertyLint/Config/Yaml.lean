/-
# Reading YAML

The reader knows the part of YAML that configurations use: maps and lists in block and in flow
form, plain and quoted scalars, and comments.  A text holds one document.  What follows the document
does not count, as long as it starts with a token and not with another document.
-/
import PropertyLint.Config.Yaml.Node.Grammar
import PropertyLint.Config.Yaml.Token.Lexer

namespace PropertyLint.Config.Yaml

/-- What follows the node of a document: nothing, a token that belongs to no document, or the mark
of its end, behind which no other document starts. -/
def endsDocument : List Token → Bool
  | [] | .documentStart :: _ => false
  | .documentEnd :: rest =>
    let next := rest.find? (· != .documentEnd)
    next.isNone || next == some .textEnd
  | _ => true

/-- The node of a document. -/
def Node.ofTokens? (tokens : List Token) : Option Node := do
  let tokens := tokens.dropWhile (· == .documentEnd)
  let tokens := if tokens.head? = some .documentStart then tokens.tail else tokens
  let (root, rest) ← (node ⟨true, false⟩ (4 * tokens.length + 4)).run tokens
  if endsDocument rest then some root else none

/-- The characters of a text that count.  A byte order mark in front does not count, and a null
character ends the text. -/
def content (text : String) : List Char :=
  let cs := text.toList
  let cs := if cs.head? = some '\ufeff' then cs.tail else cs
  normalizeBreaks (cs.takeWhile (· != '\x00'))

/-- The document that a YAML text holds. -/
def read? (text : String) : Option Document :=
  (Node.ofTokens? (Token.ofText (content text))).bind Node.document?

end PropertyLint.Config.Yaml
