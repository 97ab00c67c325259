/-
# Merged configurations

A rule has two keys, its id and its name, and a configuration may have entries for both.  Merging
lays entries over entries key by key (`Entries.lookup_override`), while the severity of a rule is
looked up by its id first.  So an entry of the first configuration for the id stays in front of an
entry of the second one for the name: `LintConfig.severity_merge_iff` says when the second
configuration has its way.

That no two entries have the same key is true of every configuration that is read
(`LintConfig.distinct_of_ofDocument?`), and merging keeps it (`LintConfig.distinct_merge`).
-/
import PropertyLint.Config.Reading

namespace PropertyLint

namespace Config

/-! ## Entries by key -/

namespace Entries

variable {es base layer : Entries} {key : String}

/-- No two entries have the same key. -/
def Distinct (es : Entries) : Prop := (es.map Prod.fst).Nodup

instance (es : Entries) : Decidable es.Distinct := inferInstanceAs (Decidable (List.Nodup _))

theorem lookup_insert (es : Entries) (key other : String) (entry : Entry) :
    (es.insert key entry).lookup other = if other = key then some entry else es.lookup other := by
  unfold insert
  rw [List.lookup_append]
  by_cases h : other = key
  · subst h
    have hgone : List.lookup other (es.filter fun e => e.1 != other) = none := by
      rw [List.lookup_eq_none_iff]
      intro e he
      rw [bne_comm]
      exact (List.mem_filter.1 he).2
    rw [if_pos rfl, hgone, List.lookup_cons_self, Option.none_or]
  · have hkept : List.lookup other (es.filter fun e => e.1 != key) = List.lookup other es := by
      induction es with
      | nil => rfl
      | cons e es ih => grind
    have hnew : [(key, entry)].lookup other = none := by grind
    rw [if_neg h, hkept, hnew, Option.or_none]

theorem Distinct.insert (h : es.Distinct) (key : String) (entry : Entry) :
    (es.insert key entry).Distinct := by
  unfold Distinct Entries.insert
  rw [List.map_append, List.nodup_append]
  refine ⟨h.sublist (List.filter_sublist.map _), List.pairwise_singleton _ _, ?_⟩
  intro k hk k' hk'
  obtain ⟨e, he, rfl⟩ := List.mem_map.1 hk
  obtain rfl := List.mem_singleton.1 hk'
  simpa using (List.mem_filter.1 he).2

theorem Distinct.override (h : base.Distinct) (layer : Entries) :
    (base.override layer).Distinct := by
  unfold Entries.override
  induction layer generalizing base with
  | nil => exact h
  | cons e layer ih => exact ih (h.insert e.1 e.2)

/-- An entry of the layer wins over one with the same key. -/
theorem lookup_override (h : layer.Distinct) (key : String) :
    (base.override layer).lookup key = (layer.lookup key).or (base.lookup key) := by
  induction layer generalizing base with
  | nil => rfl
  | cons e layer ih =>
    obtain ⟨k, entry⟩ := e
    obtain ⟨hnew, hrest⟩ := List.nodup_cons.1 h
    have hstep : base.override ((k, entry) :: layer) = (base.insert k entry).override layer := rfl
    rw [hstep, ih hrest, lookup_insert]
    by_cases hkey : key = k
    · subst hkey
      have hgone : layer.lookup key = none := by
        rw [List.lookup_eq_none_iff]
        intro e he
        rw [bne_iff_ne]
        rintro rfl
        exact hnew (List.mem_map.2 ⟨e, he, rfl⟩)
      rw [if_pos rfl, hgone, List.lookup_cons_self]
      rfl
    · rw [if_neg hkey, List.lookup_cons, beq_false_of_ne hkey]

theorem distinct_of_ofDocument? {d : Document} (h : Entries.ofDocument? d = some es) :
    es.Distinct := by
  obtain ⟨_, -, h⟩ := Option.bind_eq_some_iff.1 h
  obtain ⟨read, -, h⟩ := Option.bind_eq_some_iff.1 h
  obtain rfl := Option.some.inj h
  have hempty : Distinct ([] : Entries) := List.nodup_nil
  exact hempty.override read

/-- An entry that gives the rule a severity under one of its keys; the id comes first. -/
theorem severityFor?_eq_or (es : Entries) (r : Rule) :
    es.severityFor? r = ((es.lookup r.id).bind (·.severityFor? r)).or
      ((es.lookup r.name).bind (·.severityFor? r)) := by
  unfold Entries.severityFor?
  rw [List.findSome?_cons, List.findSome?_cons, List.findSome?_nil]
  generalize (es.lookup r.id).bind (·.severityFor? r) = byId
  generalize (es.lookup r.name).bind (·.severityFor? r) = byName
  cases byId <;> cases byName <;> rfl

end Entries

end Config

/-! ## Configurations -/

namespace LintConfig

open Config

theorem distinct_full? {presets entries : Option Document} {c : LintConfig}
    (h : full? presets entries = some c) : c.entries.Distinct := by
  obtain ⟨p, -, h⟩ := Option.bind_eq_some_iff.1 h
  cases entries with
  | none =>
    obtain rfl := Option.some.inj h
    exact List.nodup_nil
  | some d =>
    obtain ⟨es, hes, h⟩ := Option.bind_eq_some_iff.1 h
    obtain rfl := Option.some.inj h
    exact Entries.distinct_of_ofDocument? hes

/-- A configuration that is read has no two entries with one key. -/
theorem distinct_of_ofDocument? {d : Document} {c : LintConfig} (h : ofDocument? d = some c) :
    c.entries.Distinct := by
  unfold ofDocument? at h
  cases hpresets : Presets.ofDocument? d with
  | some p =>
    rw [hpresets] at h
    obtain rfl := Option.some.inj h
    exact List.nodup_nil
  | none =>
    rw [hpresets] at h
    have h : fullOfDocument? d = some c := h
    unfold fullOfDocument? at h
    split at h
    · exact distinct_full? h
    · exact distinct_full? h
    · obtain ⟨_, -, h⟩ := Option.bind_eq_some_iff.1 h
      exact distinct_full? h

theorem distinct_merge {base layer : LintConfig} (hbase : base.entries.Distinct) :
    (base.merge layer).entries.Distinct := by
  unfold merge
  split
  · exact List.nodup_nil
  · exact hbase
  · exact hbase.override _

theorem entries_merge {base layer : LintConfig} {r : Rule}
    (h : (layer.entries.severityFor? r).isSome = true) :
    (base.merge layer).entries = base.entries.override layer.entries := by
  cases layer with
  | preset p => simp [entries, Entries.severityFor?] at h
  | full p es =>
    obtain _ | ⟨e, es⟩ := es
    · simp [entries, Entries.severityFor?] at h
    · cases p <;> rfl

theorem severity_of_entries {c : LintConfig} {r : Rule} {s : RuleSeverity}
    (h : c.entries.severityFor? r = some s) : c.severity r = s := by
  rw [severity, h]

/-- The severity that the base gives a rule by its id, where the layer has no entry for the id: it
stays in force. -/
def kept? (base layer : LintConfig) (r : Rule) : Option RuleSeverity :=
  if (layer.entries.lookup r.id).isNone then
    (base.entries.lookup r.id).bind fun e => e.severityFor? r
  else none

/-- The severity of a rule to which the layer gives one. -/
theorem severity_merge {base layer : LintConfig} {r : Rule} (hdistinct : layer.entries.Distinct)
    (h : (layer.entries.severityFor? r).isSome = true) :
    (base.merge layer).severity r = (base.kept? layer r).getD (layer.severity r) := by
  obtain ⟨s, hs⟩ := Option.isSome_iff_exists.1 h
  suffices hmerged : (base.merge layer).entries.severityFor? r =
      some ((base.kept? layer r).getD s) by
    rw [severity_of_entries hmerged, severity_of_entries hs]
  rw [entries_merge h, Entries.severityFor?_eq_or, Entries.lookup_override hdistinct,
    Entries.lookup_override hdistinct]
  rw [Entries.severityFor?_eq_or] at hs
  -- an entry of the layer for the name that decides in the layer decides in the merged entries too
  have hname (es : Entries) (hs : (layer.entries.lookup r.name).bind (·.severityFor? r) = some s) :
      ((layer.entries.lookup r.name).or (es.lookup r.name)).bind (·.severityFor? r) = some s := by
    obtain ⟨e, he, hs⟩ := Option.bind_eq_some_iff.1 hs
    rw [he]
    exact hs
  cases hid : layer.entries.lookup r.id with
  | some e =>
    have hkept : base.kept? layer r = none := by rw [kept?, hid]; rfl
    rw [hid, Option.bind_some] at hs
    rw [hkept, Option.getD_none, Option.some_or, Option.bind_some]
    cases hsev : e.severityFor? r with
    | some s' =>
      rw [hsev] at hs
      exact hs
    | none =>
      rw [hsev, Option.none_or] at hs
      rw [Option.none_or, hname _ hs]
  | none =>
    have hkept : base.kept? layer r = (base.entries.lookup r.id).bind (·.severityFor? r) := by
      rw [kept?, hid]
      rfl
    rw [hid, Option.bind_none, Option.none_or] at hs
    rw [hkept, Option.none_or, hname _ hs]
    cases (base.entries.lookup r.id).bind (·.severityFor? r) <;> rfl

/-- **Which configuration decides.**  A severity that the second configuration gives a rule is the
one that counts after merging, exactly if the first one has no other severity for the id of the rule
where the second one has no entry for the id. -/
theorem severity_merge_iff {base layer : LintConfig} {r : Rule}
    (hdistinct : layer.entries.Distinct) (h : (layer.entries.severityFor? r).isSome = true) :
    (base.merge layer).severity r = layer.severity r ↔
      (layer.entries.lookup r.id = none → ∀ e s, base.entries.lookup r.id = some e →
        e.severityFor? r = some s → s = layer.severity r) := by
  rw [severity_merge hdistinct h, kept?]
  cases hid : layer.entries.lookup r.id with
  | some e => simp
  | none =>
    cases hbase : (base.entries.lookup r.id).bind (·.severityFor? r) with
    | none =>
      have hnone (e : Entry) (he : base.entries.lookup r.id = some e) : e.severityFor? r = none := by
        simpa [he] using hbase
      simp +contextual [hnone]
    | some s =>
      obtain ⟨e, he, hs⟩ := Option.bind_eq_some_iff.1 hbase
      simp only [Option.isNone_none, if_true, Option.getD_some, forall_const]
      refine ⟨fun hdecides e' s' he' hs' => ?_, fun hall => hall e s he hs⟩
      obtain rfl := Option.some.inj (he.symm.trans he')
      obtain rfl := Option.some.inj (hs.symm.trans hs')
      exact hdecides

/-- A rule is turned off by its id. -/
def offById : LintConfig := .full none [("WPF0001", .severity .off)]

/-- A rule is an error, by its name. -/
def errorByName : LintConfig :=
  .full none [("backing_field_matches_registered_name", .severity .error)]

/-- The rule stays off. -/
theorem severity_merge_offById :
    errorByName.entries.Distinct ∧
      errorByName.entries.severityFor? .backingFieldName = some .error ∧
      (offById.merge errorByName).severity .backingFieldName = .off ∧
      ((offById.merge errorByName).severity .backingFieldName =
          errorByName.severity .backingFieldName ↔
        (errorByName.entries.lookup Rule.backingFieldName.id = none → ∀ e s,
          offById.entries.lookup Rule.backingFieldName.id = some e →
            e.severityFor? .backingFieldName = some s →
              s = errorByName.severity .backingFieldName)) := by
  have hdistinct : errorByName.entries.Distinct := by decide
  have herror : errorByName.entries.severityFor? .backingFieldName = some .error := by
    decide +kernel
  have hmerged : (offById.merge errorByName).severity .backingFieldName = .off := by
    decide +kernel
  exact ⟨hdistinct, herror, hmerged, severity_merge_iff hdistinct (by rw [herror]; rfl)⟩

end LintConfig

end PropertyLint
