/-
# Checking a configuration

A configuration may name presets and rules that do not exist; they have no effect.  `validate`
reports the first unknown preset, or else the first unknown rule in alphabetical order with the
rules that it resembles.
-/
import PropertyLint.Config.Basic
import PropertyLint.Text.EditDistance

namespace PropertyLint

/-- What is wrong with a configuration. -/
inductive ConfigError where
  | unknownPreset (name : String)
  | unknownRule (name : String) (suggestions : List String)
deriving DecidableEq, Repr

/-- The message of a configuration error. -/
def ConfigError.message : ConfigError → String
  | unknownPreset name =>
    "unknown preset '" ++ name ++ "', valid presets are: " ++
      ", ".intercalate Config.Presets.known
  | unknownRule name suggestions =>
    "unknown rule '" ++ name ++ "'" ++
      if suggestions.isEmpty then "" else ", did you mean: " ++ ", ".intercalate suggestions ++ "?"

namespace Config

/-! ## Suggestions -/

/-- A character in lower case, for all characters that have an ASCII letter in their lower case;
others are left as they are. -/
def lowerCase (c : Char) : List Char :=
  if c = '\u212a' then ['k']
  else if c = '\u0130' then ['i', '\u0307']
  else [c.toLower]

/-- A name that might be meant, with its distance from the given one and the length of the longer of
the two. -/
structure Candidate where
  name : String
  distance : Nat
  length : Nat

namespace Candidate

/-- A candidate for a name in lower case. -/
def of (needle : List Char) (name : String) : Candidate :=
  let cs := name.toList.flatMap lowerCase
  ⟨name, editDistance cs needle, max cs.length needle.length⟩

/-- At least seven tenths of the candidate agree. -/
def isClose (c : Candidate) : Bool := 7 * c.length ≤ 10 * (c.length - c.distance)

/-- Order by the part that differs, then by name. -/
def le (a b : Candidate) : Bool :=
  a.distance * b.length < b.distance * a.length ||
    (a.distance * b.length == b.distance * a.length && a.name ≤ b.name)

end Candidate

/-- The greatest number of suggestions. -/
def maxSuggestions : Nat := 3

/-- The ids and names of rules that resemble a name, the closest first. -/
def suggestions (name : String) : List String :=
  let candidates := (Rule.all.flatMap fun r => [r.id, r.name]).map
    (Candidate.of (name.toList.flatMap lowerCase))
  (((candidates.filter Candidate.isClose).mergeSort Candidate.le).take maxSuggestions).map
    Candidate.name

end Config

open Config

/-- The first thing that is wrong with a configuration. -/
def LintConfig.validate (c : LintConfig) : Except ConfigError Unit := do
  let presets := (c.presets?.map Presets.names).getD []
  match presets.find? fun p => !Presets.known.contains p with
  | some name => throw (.unknownPreset name)
  | none => pure ()
  let keys := (c.entries.map Prod.fst).mergeSort fun a b => a ≤ b
  match keys.find? fun key => (Rule.find? key).isNone with
  | some name => throw (.unknownRule name (suggestions name))
  | none => pure ()

end PropertyLint
