/-
# Configurations

A configuration says how the findings of each rule are reported.  It names presets, or it gives
entries for single rules over presets; a rule is named by its id or by its name, and the id comes
first.  `merge` lays one configuration over another.
-/
import PropertyLint.Lint.Rule

namespace PropertyLint.Config

/-- One preset or a list of presets, by name. -/
inductive Presets where
  | one (name : String)
  | many (names : List String)
deriving DecidableEq, Repr

/-- The names of the presets. -/
def Presets.names : Presets → List String
  | one name => [name]
  | many names => names

/-- The names that presets have. -/
def Presets.known : List String := ["recommended", "all"]

/-- The severity of a rule under a preset, if the preset is known: `recommended` leaves rules as
they are, and `all` turns every rule on. -/
def presetSeverity? (preset : String) (r : Rule) : Option RuleSeverity :=
  if preset = "recommended" then some r.defaultSeverity
  else if preset = "all" then some (.ofSeverity r.info.severity)
  else none

/-- The severity of a rule under presets; the last known one decides. -/
def Presets.severity (p : Presets) (r : Rule) : RuleSeverity :=
  p.names.foldl (fun s preset => (presetSeverity? preset r).getD s) r.defaultSeverity

/-- What a configuration says about one rule. -/
inductive Entry where
  | severity (value : RuleSeverity)
  | detailed (severity : Option RuleSeverity) (enabled : Option Bool)
deriving DecidableEq, Repr

/-- The severity that an entry gives a rule.  An entry that turns the rule off wins over its own
severity, and one that only turns it on leaves the severity to the rule. -/
def Entry.severityFor? : Entry → Rule → Option RuleSeverity
  | severity s, _ => some s
  | detailed _ (some false), _ => some .off
  | detailed (some s) _, _ => some s
  | detailed none (some true), r => some (.ofSeverity r.info.severity)
  | detailed none none, _ => none

/-- Entries by rule; no two have the same key. -/
abbrev Entries := List (String × Entry)

/-- The entries with one more, which takes the place of an entry with the same key. -/
def Entries.insert (es : Entries) (key : String) (entry : Entry) : Entries :=
  (es.filter fun e => e.1 != key) ++ [(key, entry)]

/-- The first entries with the second ones over them. -/
def Entries.override (base layer : Entries) : Entries :=
  layer.foldl (fun es e => es.insert e.1 e.2) base

/-- The severity that entries give a rule, by its id or else by its name. -/
def Entries.severityFor? (es : Entries) (r : Rule) : Option RuleSeverity :=
  [r.id, r.name].findSome? fun key => (es.lookup key).bind fun e => e.severityFor? r

end PropertyLint.Config

namespace PropertyLint

open Config

/-- A configuration: presets alone, or entries over presets. -/
inductive LintConfig where
  | preset (presets : Presets)
  | full (presets : Option Presets) (entries : Entries)
deriving DecidableEq, Repr

namespace LintConfig

/-- The configuration that says nothing. -/
def empty : LintConfig := full none []

/-- Rules as they are. -/
def recommended : LintConfig := preset (.one "recommended")

/-- Every rule is on. -/
def everyRule : LintConfig := preset (.one "all")

/-- The presets of a configuration. -/
def presets? : LintConfig → Option Presets
  | preset p => some p
  | full p _ => p

/-- The entries of a configuration. -/
def entries : LintConfig → Entries
  | preset _ => []
  | full _ es => es

/-- How the findings of a rule are reported. -/
def severity (c : LintConfig) (r : Rule) : RuleSeverity :=
  match c.entries.severityFor? r, c.presets? with
  | some s, _ => s
  | none, some p => p.severity r
  | none, none => r.defaultSeverity

/-- Findings of the rule are reported. -/
def isEnabled (c : LintConfig) (r : Rule) : Bool := (c.severity r).isEnabled

/-- The first configuration with the second one laid over it.  Presets alone replace everything;
otherwise entries are laid over entries, and presets are kept unless there are others. -/
def merge (base layer : LintConfig) : LintConfig :=
  match layer with
  | preset p => preset p
  | full none [] => base
  | full p es => full (p <|> base.presets?) (base.entries.override es)

end LintConfig

end PropertyLint
