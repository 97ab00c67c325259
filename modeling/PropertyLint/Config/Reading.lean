/-
# What configuration documents mean

A document is a configuration if it is a preset, a list of presets, a map with `extends` and
`rules`, or a list of the values of these two.  A rule's entry is a severity, a truth value, a list
of one severity, or a map with `severity` and `enabled`.  Any other document is refused as a whole.
-/
import PropertyLint.Config.Basic
import PropertyLint.Config.Json
import PropertyLint.Config.Yaml

namespace PropertyLint.Config

/-- One preset or a list of presets. -/
def Presets.ofDocument? : Document → Option Presets
  | .scalar (.text name) => some (.one name)
  | .list items => (items.mapM Document.text?).map .many
  | _ => none

/-- The meaning of a value that may be left out, or be empty. -/
def optional? {α : Type} (read : Document → Option α) : Option Document → Option (Option α)
  | none => some none
  | some d => if d.isNull then some none else (read d).map some

/-! ## Entries -/

/-- A severity by its name, or as a map from its name or its place to nothing. -/
def severityOf? : Document → Option RuleSeverity
  | .scalar (.text name) => RuleSeverity.ofName? name
  | .map [(key, .scalar .null)] =>
    (key.nameAmong? (RuleSeverity.all.map RuleSeverity.name)).bind RuleSeverity.ofName?
  | _ => none

/-- An entry for a rule. -/
def Entry.ofDocument? : Document → Option Entry
  | .scalar (.text word) | .list [.scalar (.text word)] =>
    (RuleSeverity.ofWord? word).map .severity
  | .scalar (.bool b) => some (.detailed none (some b))
  | d => do
    let fields ← d.fields? ["severity", "enabled"]
    return .detailed (← optional? severityOf? (fields.lookup "severity"))
      (← optional? Document.bool? (fields.lookup "enabled"))

/-- The entries of a map from rules; of two entries for one key the last one counts. -/
def Entries.ofDocument? (d : Document) : Option Entries := do
  let entries ← (← d.entries?).mapM fun (key, value) => return (key, ← Entry.ofDocument? value)
  return entries.foldl (fun es e => es.insert e.1 e.2) []

/-! ## Configurations -/

/-- Presets and entries, which may be left out. -/
def full? (presets entries : Option Document) : Option LintConfig := do
  let presets ← optional? Presets.ofDocument? presets
  match entries with
  | some d => return .full presets (← Entries.ofDocument? d)
  | none => return .full presets []

/-- A configuration that is more than presets. -/
def fullOfDocument? : Document → Option LintConfig
  | .list [presets] => full? (some presets) none
  | .list [presets, entries] => full? (some presets) (some entries)
  | d => do
    let fields ← d.fields? ["extends", "rules"]
    full? (fields.lookup "extends") (fields.lookup "rules")

end PropertyLint.Config

namespace PropertyLint.LintConfig

open Config

/-- The configuration that a document means. -/
def ofDocument? (d : Document) : Option LintConfig :=
  (Presets.ofDocument? d).map preset <|> fullOfDocument? d

/-- The configuration in a JSON text. -/
def ofJson? (text : String) : Option LintConfig := (Json.read? text).bind ofDocument?

/-- The configuration in a YAML text. -/
def ofYaml? (text : String) : Option LintConfig := (Yaml.read? text).bind ofDocument?

end PropertyLint.LintConfig
