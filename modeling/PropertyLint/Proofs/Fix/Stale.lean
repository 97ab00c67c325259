/-
# Fixes that are offered again

After a fix the ranges of the diagnostics are out of date.  A provider looks for what stands at the
range now, and offers its fix again iff it finds something there: `proposeFix_eq_none_iff`.  Behind
a replaced name, type or argument it finds the new text and nothing else, if the new text can be
read as what it is meant to be (`NamePlace.settled`, `TypePlace.settled`,
`ArgumentPlace.settled`); then it declines.
-/
import PropertyLint.Fix.Provider
import PropertyLint.Proofs.Check.Carried
import PropertyLint.Proofs.Syntax.Payload
import PropertyLint.Proofs.Syntax.Places
import PropertyLint.Proofs.Text.Splice

namespace PropertyLint

/-! ## What stands where a text has been replaced -/

section

variable {cs : List Char} {r : OffsetRange} {before inside after before' inside' after' : List Char}

/-- In a changed text, what stands at the start of the range is the new text with what was behind
the range. -/
theorem Around.changed {new : List Char} (h : Around cs r before inside after)
    (h' : Around (before ++ (new ++ after)) r before' inside' after') :
    inside' ++ after' = new ++ after :=
  (append_inj_of_byteLength h'.chars (h.start.symm.trans h'.start)).2.symm

theorem takeWhile_of_ends {w after : List Char} (hw : ∀ c ∈ w, isWordChar c = true)
    (hafter : after.takeWhile isWordChar = []) : (w ++ after).takeWhile isWordChar = w := by
  rw [List.takeWhile_append_of_pos hw, hafter, List.append_nil]

/-- A word in the place of a word. -/
theorem NamePlace.settled {w w' e : String} (h : NamePlace cs r w before inside after)
    (he : spellsWord e = true)
    (h' : NamePlace (before ++ (e.toList ++ after)) r w' before' inside' after') : w' = e := by
  have htext := h.toAround.changed h'.toAround
  obtain ⟨c, cs, hlist, hstart, hall⟩ := exists_of_spellsWord he
  obtain ⟨_, _, hlist', -, hall'⟩ := exists_of_spellsWord h'.isWord
  obtain hspelling | hspelling := h'.spelling
  · rw [hspelling] at htext
    have hword := congrArg (List.takeWhile isWordChar) htext
    rw [takeWhile_of_ends (hlist' ▸ hall') h'.ends,
      takeWhile_of_ends (hlist ▸ hall) h.ends] at hword
    exact String.toList_inj.1 hword
  · -- no word starts with the sign
    rw [hspelling, hlist, List.cons_append, List.cons_append, List.cons.injEq] at htext
    rw [← htext.1] at hstart
    exact absurd hstart (by decide)

/-- A type in the place of a type. -/
theorem TypePlace.settled {e : String} (h : TypePlace cs r before inside after)
    (he : isTypeText e = true)
    (h' : TypePlace (before ++ (e.toList ++ after)) r before' inside' after') :
    inside' = e.toList := by
  have htext := h.toAround.changed h'.toAround
  obtain ⟨-, -, t, rest, w, -, -, -, hafter, ht, hstops⟩ := h.reads
  obtain ⟨doc, read, t', rest', w', hread, hrun, hstop, -, ht', -⟩ := h'.reads
  rw [htext] at hread
  -- what has been read from the start of the new text ends where the new text ends
  have hlast := lastStop_of_isTypeText he hafter ht hstops hread hrun
    (by rw [List.map_cons, ht'])
  have hrange := h'.stop
  exact (append_inj_of_byteLength htext (by omega)).1

theorem Grammar.EndsArgument.congr {ts ts' : List Token} (h : EndsArgument ts)
    (hkinds : ts'.map Token.kind = ts.map Token.kind) : EndsArgument ts' := by
  obtain ⟨t, rest, rfl, ht⟩ := h
  obtain ⟨t', rest', rfl, ht', -⟩ := List.map_eq_cons_iff.1 hkinds
  exact ⟨t', rest', rfl, by rwa [ht']⟩

/-- An argument in the place of an argument. -/
theorem ArgumentPlace.settled {e : String} (h : ArgumentPlace cs r before inside after)
    (he : ArgumentText e)
    (h' : ArgumentPlace (before ++ (e.toList ++ after)) r before' inside' after') :
    inside' = e.toList := by
  have htext := h.toAround.changed h'.toAround
  obtain ⟨-, -, c₀, -, -, -, -, -, -, hafter, hends⟩ := h.reads
  obtain ⟨doc, c, c', depth, value, htokens, hrun, hr, ⟨read, hread⟩, -, -⟩ := h'.reads
  rw [htext] at htokens
  obtain ⟨kinds, hkinds, hreads⟩ := he.reads after
  obtain ⟨init, last, rest, hsplit, rfl, hstop, hrest⟩ := hreads.exists_of_tokensFrom htokens
  have hends := hends.congr (map_kind_of_tokensFrom hrest hafter)
  -- the parser stops behind the tokens of the new text, so they are what it has read
  have hstopped := Grammar.tokens_of_argument hkinds hends hsplit depth hrun
  obtain rfl : read = init ++ [last] := by
    have := hread.tokens.symm.trans hsplit
    rw [hstopped] at this
    exact List.append_cancel_right this
  have hlast := hread.last
  rw [Grammar.Cursor.lastStop_concat] at hlast
  have hrange := h'.stop
  have hrstop := congrArg OffsetRange.stop hr
  have hrstart := congrArg OffsetRange.start hr
  simp only [Grammar.Cursor.rangeSince] at hrstop hrstart
  exact (append_inj_of_byteLength htext (by omega)).1

end

/-! ## One text, one provider -/

variable {d : Diagnostic} {t t' : SyntaxTree}

/-- The text of the argument that a diagnostic asks for. -/
def Diagnostic.newArgument? (d : Diagnostic) : Option String :=
  d.property? .expectedArgument <|>
    (d.property? .expectedType).map fun type => "typeof(" ++ type ++ ")"

/-- The provider that looks for a text. -/
def PropertyKey.provider : PropertyKey → FixProvider
  | expectedName => .rename
  | typeText => .changeType
  | expectedType | expectedArgument => .replaceArgument
  | moveBefore => .moveMember
  | attributeText => .addAttribute
  | argumentList => .addArgumentList

theorem Diagnostic.property?_of_single {key : PropertyKey} {text : String}
    (h : d.properties = [(key.name, text)]) (k : PropertyKey) :
    d.property? k = if k = key then some text else none := by
  rw [Diagnostic.property?, h]
  cases k <;> cases key <;> rfl

theorem FixProvider.propose_eq_none {key : PropertyKey} {text : String}
    (h : d.properties = [(key.name, text)]) {p : FixProvider} (hp : key.provider ≠ p) :
    p.propose d t = none := by
  have hd := Diagnostic.property?_of_single h
  cases p <;> cases key <;>
    simp_all [PropertyKey.provider, propose, Fix.rename, Fix.changeType, Fix.replaceArgument,
      Fix.addArgumentList, Fix.moveMember, Fix.addAttribute]

theorem proposeFix_of_nil (h : d.properties = []) : proposeFix d t = none := by
  have hd (k : PropertyKey) : d.property? k = none := by
    rw [Diagnostic.property?, h]
    rfl
  have hpropose (p : FixProvider) : p.propose d t = none := by
    cases p <;>
      simp [FixProvider.propose, hd, Fix.rename, Fix.changeType, Fix.replaceArgument,
        Fix.addArgumentList, Fix.moveMember, Fix.addAttribute]
  unfold proposeFix
  rw [List.findSome?_eq_none_iff.2 fun p _ => hpropose p, ite_self]

theorem findSome?_of_only {α β : Type} {f : α → Option β} {a : α} {as : List α}
    (h : ∀ b, a ≠ b → f b = none) (ha : f a = none ∨ a ∈ as) : as.findSome? f = f a := by
  induction as with
  | nil =>
    obtain ha | ha := ha
    · exact ha.symm
    · exact absurd ha List.not_mem_nil
  | cons b as ih =>
    rw [List.findSome?_cons]
    by_cases hab : a = b
    · subst hab
      cases hf : f a with
      | some c => rfl
      | none => exact (ih (.inl hf)).trans hf
    · rw [h b hab]
      exact ih (ha.imp_right fun ha => (List.mem_cons.1 ha).resolve_left hab)

/-- Only the provider of the text that a diagnostic carries can have a fix for it. -/
theorem proposeFix_of_single {key : PropertyKey} {text : String}
    (h : d.properties = [(key.name, text)]) :
    proposeFix d t = if d.location.file = t.file ∧ d.rule ∈ key.provider.rules then
      key.provider.propose d t else none := by
  have hother (p : FixProvider) (hp : key.provider ≠ p) : p.propose d t = none :=
    FixProvider.propose_eq_none h hp
  -- the provider is asked iff the rule is one of its rules
  have hmem : key.provider ∈ FixProvider.all.filter (fun p => p.rules.contains d.rule) ↔
      d.rule ∈ key.provider.rules := by
    rw [List.mem_filter, List.contains_iff_mem]
    cases key <;> simp [FixProvider.all, PropertyKey.provider]
  unfold proposeFix
  by_cases hfile : d.location.file = t.file
  · by_cases hrule : d.rule ∈ key.provider.rules
    · rw [if_pos hfile, if_pos ⟨hfile, hrule⟩]
      exact findSome?_of_only hother (.inr (hmem.2 hrule))
    · rw [if_pos hfile, if_neg fun h => hrule h.2]
      rw [List.findSome?_eq_none_iff]
      intro p hp
      refine hother p ?_
      rintro rfl
      exact hrule (hmem.1 hp)
  · rw [if_neg hfile, if_neg fun h => hfile h.1]

/-! ## A place to insert at -/

theorem moveMember_ne_none {name : String} (hd : d.property? .moveBefore = some name) :
    Fix.moveMember d t' ≠ none ↔ ∃ decl key target,
      t'.containingType? d.range = some decl ∧
      decl.ownMembers.find? (fun m => m.range == d.range) = some key ∧
      decl.fieldOrProperty? name = some target ∧ key.isFieldOrProperty = true ∧
      target.fullRange.start ≤ key.fullRange.start ∧
      startsLine t'.chars key.fullRange.start = true := by
  simp [Fix.moveMember, hd]

theorem addAttribute_ne_none {text : String} (hd : d.property? .attributeText = some text) :
    Fix.addAttribute d t' ≠ none ↔ ∃ member name,
      (t'.memberNamedAt? d.range <|> (t'.typeNamedAt? d.range).map Member.type) = some member ∧
      Fix.attributeName? text = some name ∧
      (∀ a ∈ member.attributes, a.shortName? ≠ some name) ∧
      startsLine t'.chars member.range.start = true := by
  simp [Fix.addAttribute, hd]

/-! ## One replacement -/

theorem apply_replace {text text' label new : String} {r : OffsetRange}
    {before inside after : List Char} (h : Around text.toList r before inside after)
    (happly : (CodeFix.replace label r new).apply text = .ok text') :
    text'.toList = before ++ (new.toList ++ after) := by
  have hsplice : Splice 0 text.toList [⟨r, new⟩] (before ++ (new.toList ++ after)) := by
    rw [h.chars]
    exact .cons (by rw [h.start, Nat.zero_add]) h.stop (.nil _ _)
  have hpass := spliceFrom_of_splice hsplice [] rfl
  rw [List.nil_append] at hpass
  unfold CodeFix.apply CodeFix.replace applyEdits at happly
  simp only [sortEdits, List.mergeSort_singleton, adjacentConflict?, hpass, Except.map,
    Except.ok.injEq] at happly
  rw [← happly, String.toList_ofList]

section
variable {fix : CodeFix} (ht : t.IsRead) (ht' : t'.IsRead)
  (happly : fix.apply t.text = .ok t'.text)
include ht ht' happly

theorem rename_again {e : String} (hd : d.property? .expectedName = some e)
    (hfix : Fix.rename d t = some fix) :
    Fix.rename d t' ≠ none ↔
      spellsWord e = false ∧ ∃ m, t'.memberNamedAt? d.range = some m := by
  simp [Fix.rename, hd, Option.bind_eq_some_iff] at hfix
  obtain ⟨m, hm, hne, rfl⟩ := hfix
  obtain ⟨before, inside, after, hplace⟩ := SyntaxTree.exists_namePlace ht hm
  rw [SyntaxTree.range_of_memberNamedAt? hm] at happly
  have hchars : t'.chars = before ++ (e.toList ++ after) := apply_replace hplace.toAround happly
  cases hm' : t'.memberNamedAt? d.range with
  | none => simp [Fix.rename, hm']
  | some m' =>
    obtain ⟨before', inside', after', hplace'⟩ := SyntaxTree.exists_namePlace ht' hm'
    -- names in a tree are words, so a text that is no word never is the name
    have hname : m'.name.text = e → spellsWord e = true := fun h => h ▸ hplace'.isWord
    cases he : spellsWord e with
    | false =>
      have hne' : m'.name.text ≠ e := fun h => Bool.false_ne_true (he.symm.trans (hname h))
      simp [Fix.rename, hd, hm', hne']
    | true =>
      rw [hchars] at hplace'
      have hsame := hplace.settled he hplace'
      simp [Fix.rename, hd, hm', hsame]

theorem changeType_again {e : String} (hd : d.property? .typeText = some e)
    (hfix : Fix.changeType d t = some fix) :
    Fix.changeType d t' ≠ none ↔
      isTypeText e = false ∧ (∃ type, t'.declaredTypeAt? d.range = some type) ∧
        t'.textOf d.range ≠ e := by
  simp [Fix.changeType, Fix.replaceUnlessEqual, hd, Option.bind_eq_some_iff] at hfix
  obtain ⟨type, htype, hne, rfl⟩ := hfix
  obtain ⟨hrange, before, inside, after, hplace⟩ := SyntaxTree.exists_typePlace ht htype
  rw [hrange] at happly
  have hchars : t'.chars = before ++ (e.toList ++ after) := apply_replace hplace.toAround happly
  cases htype' : t'.declaredTypeAt? d.range with
  | none => simp [Fix.changeType, htype']
  | some type' =>
    obtain ⟨hrange', before', inside', after', hplace'⟩ := SyntaxTree.exists_typePlace ht' htype'
    cases he : isTypeText e with
    | false => simp [Fix.changeType, Fix.replaceUnlessEqual, hd, htype', hrange']
    | true =>
      have htext := hplace'.toAround.textOf
      rw [hchars] at hplace'
      rw [hplace.settled he hplace', String.ofList_toList] at htext
      simp [Fix.changeType, Fix.replaceUnlessEqual, hd, htype', hrange', htext]

theorem replaceArgument_again {e : String} (hd : d.newArgument? = some e)
    (hfix : Fix.replaceArgument d t = some fix) :
    Fix.replaceArgument d t' ≠ none ↔
      ¬ ArgumentText e ∧ (∃ a, t'.argumentAt? d.range = some a) ∧ t'.textOf d.range ≠ e := by
  unfold Diagnostic.newArgument? at hd
  simp only [Fix.replaceArgument, hd, Option.bind_eq_bind, Option.bind_some,
    Option.bind_eq_some_iff, Fix.replaceUnlessEqual] at hfix
  obtain ⟨a, ha, hfix⟩ := hfix
  obtain ⟨hrange, before, inside, after, hplace⟩ := SyntaxTree.exists_argumentPlace ht ha
  rw [hrange, Option.ite_none_left_eq_some, Option.some.injEq] at hfix
  obtain ⟨-, rfl⟩ := hfix
  have hchars : t'.chars = before ++ (e.toList ++ after) := apply_replace hplace.toAround happly
  cases ha' : t'.argumentAt? d.range with
  | none => simp [Fix.replaceArgument, ha']
  | some a' =>
    obtain ⟨hrange', before', inside', after', hplace'⟩ := SyntaxTree.exists_argumentPlace ht' ha'
    have htext := hplace'.toAround.textOf
    rw [hchars] at hplace'
    simp only [Fix.replaceArgument, hd, ha', hrange', Fix.replaceUnlessEqual, Option.bind_eq_bind,
      Option.bind_some]
    by_cases he : ArgumentText e
    · rw [hplace.settled he hplace', String.ofList_toList] at htext
      simp [htext, he]
    · simp [he]

omit ht ht' in
theorem addArgumentList_again {args : String} (hd : d.property? .argumentList = some args)
    (hargs : args.toList.head?.any isWordStart = true)
    (hfix : Fix.addArgumentList d t = some fix) : Fix.addArgumentList d t' = none := by
  simp [Fix.addArgumentList, hd] at hfix
  obtain ⟨hempty, rfl⟩ := hfix
  obtain ⟨before, after, haround⟩ := Around.of_textOf hempty (by decide)
  have hchars := apply_replace haround happly
  have hfilled : t'.textOf d.range ≠ "()" := by
    intro hempty'
    obtain ⟨before', after', haround'⟩ := Around.of_textOf hempty' (by decide)
    rw [SyntaxTree.chars, hchars] at haround'
    obtain ⟨c, rest, hc⟩ : ∃ c rest, args.toList = c :: rest := by
      cases h : args.toList with
      | nil => simp [h] at hargs
      | cons c rest => exact ⟨c, rest, rfl⟩
    have htext := haround.changed haround'
    simp [hc] at htext
    rw [hc, ← htext.1] at hargs
    revert hargs
    simp
    decide
  simp [Fix.addArgumentList, hd, hfilled]

end

/-! ## The exact condition -/

/-- Something stands at the range of a diagnostic that the provider's fix can still be about.
Behind a replacement this takes a new text that does not read as what it replaces. -/
def FixProvider.Relands (d : Diagnostic) (t : SyntaxTree) : FixProvider → Prop
  | rename => ∃ e m, d.property? .expectedName = some e ∧ spellsWord e = false ∧
      t.memberNamedAt? d.range = some m
  | changeType => ∃ e type, d.property? .typeText = some e ∧ isTypeText e = false ∧
      t.declaredTypeAt? d.range = some type ∧ t.textOf d.range ≠ e
  | replaceArgument => ∃ e a, d.newArgument? = some e ∧ ¬ ArgumentText e ∧
      t.argumentAt? d.range = some a ∧ t.textOf d.range ≠ e
  | addArgumentList => False
  | moveMember => ∃ name decl key target, d.property? .moveBefore = some name ∧
      t.containingType? d.range = some decl ∧
      decl.ownMembers.find? (fun m => m.range == d.range) = some key ∧
      decl.fieldOrProperty? name = some target ∧ key.isFieldOrProperty = true ∧
      target.fullRange.start ≤ key.fullRange.start ∧
      startsLine t.chars key.fullRange.start = true
  | addAttribute => ∃ text member name, d.property? .attributeText = some text ∧
      (t.memberNamedAt? d.range <|> (t.typeNamedAt? d.range).map Member.type) = some member ∧
      Fix.attributeName? text = some name ∧ (∀ a ∈ member.attributes, a.shortName? ≠ some name) ∧
      startsLine t.chars member.range.start = true

/-- Some provider's fix can still be about what stands at the range of a diagnostic. -/
def Relanded (d : Diagnostic) (t : SyntaxTree) : Prop := ∃ p : FixProvider, p.Relands d t

theorem FixProvider.relands_unique {key : PropertyKey} {text : String}
    (h : d.properties = [(key.name, text)]) {p : FixProvider} (hp : p.Relands d t) :
    p = key.provider := by
  have hd := Diagnostic.property?_of_single h
  cases p <;> cases key <;>
    simp_all [PropertyKey.provider, Relands, Diagnostic.newArgument?]

theorem relanded_iff_of_single {key : PropertyKey} {text : String}
    (h : d.properties = [(key.name, text)]) : Relanded d t ↔ key.provider.Relands d t := by
  refine ⟨?_, fun hp => ⟨_, hp⟩⟩
  rintro ⟨p, hp⟩
  exact FixProvider.relands_unique h hp ▸ hp

theorem FixProvider.propose_again {p : FixProvider} {fix : CodeFix}
    (hargs : ∀ args, d.property? .argumentList = some args →
      args.toList.head?.any isWordStart = true)
    (ht : t.IsRead) (ht' : t'.IsRead) (happly : fix.apply t.text = .ok t'.text)
    (hfix : p.propose d t = some fix) : p.propose d t' ≠ none ↔ p.Relands d t' := by
  cases p with
  | rename =>
    obtain ⟨e, hd, -⟩ := Option.bind_eq_some_iff.1 hfix
    simpa [Relands, propose, hd] using rename_again ht ht' happly hd hfix
  | changeType =>
    obtain ⟨e, hd, -⟩ := Option.bind_eq_some_iff.1 hfix
    simpa [Relands, propose, hd] using changeType_again ht ht' happly hd hfix
  | replaceArgument =>
    obtain ⟨e, hd, -⟩ := Option.bind_eq_some_iff.1 hfix
    have hd : d.newArgument? = some e := hd
    simpa [Relands, propose, hd] using replaceArgument_again ht ht' happly hd hfix
  | addArgumentList =>
    obtain ⟨args, hd, -⟩ := Option.bind_eq_some_iff.1 hfix
    exact iff_of_false (fun h => h (addArgumentList_again happly hd (hargs _ hd) hfix)) id
  | moveMember =>
    obtain ⟨name, hd, -⟩ := Option.bind_eq_some_iff.1 hfix
    simpa [Relands, propose, hd] using moveMember_ne_none hd
  | addAttribute =>
    obtain ⟨text, hd, -⟩ := Option.bind_eq_some_iff.1 hfix
    simpa [Relands, propose, hd] using addAttribute_ne_none hd

/-- **Fixes that are offered again.**  After a fix for a diagnostic of an analysis, as long as the
new text can be read, the diagnostic has no fix iff nothing stands at its range that it can still be
about. -/
theorem proposeFix_eq_none_iff {config : LintConfig} {model : Model} {polls : Polls}
    {file : FileId} {source text : String} {ds : List Diagnostic} {fix : CodeFix}
    (hread : SyntaxTree.parse file source = .ok model.tree)
    (hrun : (analyzeTree config model).result polls = .ok ds) (hd : d ∈ ds)
    (hfix : proposeFix d model.tree = some fix) (happly : fix.apply source = .ok text)
    (hread' : SyntaxTree.parse file text = .ok t) :
    proposeFix d t = none ↔ ¬ Relanded d t := by
  obtain ⟨htree, hfile, rfl⟩ := SyntaxTree.isRead_of_parse hread
  obtain ⟨ht, hfile', rfl⟩ := SyntaxTree.isRead_of_parse hread'
  rcases carriesOne_of_mem_analyzeTree hrun hd with hnone | ⟨key, e, hsingle, hargs⟩
  · rw [proposeFix_of_nil hnone] at hfix
    exact absurd hfix (by simp)
  · rw [proposeFix_of_single hsingle, Option.ite_none_right_eq_some] at hfix
    obtain ⟨hcond, hfix⟩ := hfix
    have hargs (args : String) (h : d.property? .argumentList = some args) :
        args.toList.head?.any isWordStart = true := by
      rw [Diagnostic.property?_of_single hsingle, Option.ite_none_right_eq_some] at h
      obtain ⟨hkey, h⟩ := h
      exact Option.some.inj h ▸ hargs hkey.symm
    rw [proposeFix_of_single hsingle, hfile', ← hfile, if_pos hcond,
      relanded_iff_of_single hsingle,
      ← FixProvider.propose_again hargs htree ht happly hfix, not_not]

/-! ## A key that is moved back -/

/-- The model of a file that declares all that it uses. -/
def Model.alone (t : SyntaxTree) : Model :=
  let bound := ((bindSources [⟨some t.file, t.root⟩]).run {}).2
  ⟨⟨[t], [[]], bound.comp.withKnown, bound.facts⟩, t⟩

@[simp] theorem Model.tree_alone (t : SyntaxTree) : (alone t).tree = t := rfl

/-- The fix for a diagnostic that is reported in a text. -/
def reportedFix? (text : String) (d : Diagnostic) : Option CodeFix := do
  let t ← (SyntaxTree.parse 0 text).toOption
  let ds ← ((analyzeTree .empty (Model.alone t)).result .never).toOption
  if d ∈ ds then proposeFix d t else none

theorem reportedFix?_eq_some_iff {text : String} {fix : CodeFix} :
    reportedFix? text d = some fix ↔ ∃ t ds,
      SyntaxTree.parse 0 text = .ok (Model.alone t).tree ∧
      (analyzeTree .empty (Model.alone t)).result .never = .ok ds ∧ d ∈ ds ∧
      proposeFix d (Model.alone t).tree = some fix := by
  simp [reportedFix?, Option.bind_eq_some_iff, toOption_eq_some_iff]

/-- Two keys that are made from each other, behind the type that they need. -/
def circularKeys (first second : String) : String :=
  "namespace System.Windows\x7bclass DependencyPropertyKey\x7bK DependencyProperty;\x7d" ++
    "class K\x7b" ++
    "\nstatic DependencyPropertyKey " ++ first ++ "=" ++ second ++ ".DependencyProperty;\n" ++
    "\nstatic DependencyPropertyKey " ++ second ++ "=" ++ first ++ ".DependencyProperty;\n\x7d\x7d"

/-- The diagnostic about the second key. -/
def secondKey : Diagnostic where
  rule := .keyDeclaredFirst
  severity := .warning
  location := ⟨0, ⟨138, 190⟩⟩
  message := "Field 'B' must be declared before 'A'"
  args := ["B", "A"]
  properties := [("MoveBefore", "A")]

/-- The fix for the second key puts it in front of the first one. -/
def moveSecondKey : CodeFix where
  label := "Move 'B' before 'A'"
  edits := [.insert 84 "static DependencyPropertyKey B=A.DependencyProperty;\n\n",
    .delete 137 191]

theorem moveSecondKey_apply :
    moveSecondKey.apply (circularKeys "A" "B") = .ok (circularKeys "B" "A") := by
  rw [← toOption_eq_some_iff]
  unfold CodeFix.apply applyEdits sortEdits
  rw [List.mergeSort_of_pairwise (by decide)]
  decide +kernel

/-- Of two keys that are made from each other, the one that is passed by the other takes its range:
the diagnostic about the moved key now moves the other one. -/
theorem proposeFix_moves_back : ∃ t t' ds,
    SyntaxTree.parse 0 (circularKeys "A" "B") = .ok (Model.alone t).tree ∧
    (analyzeTree .empty (Model.alone t)).result .never = .ok ds ∧ secondKey ∈ ds ∧
    proposeFix secondKey (Model.alone t).tree = some moveSecondKey ∧
    moveSecondKey.apply (circularKeys "A" "B") = .ok (circularKeys "B" "A") ∧
    SyntaxTree.parse 0 (circularKeys "B" "A") = .ok t' ∧
    proposeFix secondKey t' ≠ none ∧ Relanded secondKey t' := by
  have hfix : reportedFix? (circularKeys "A" "B") secondKey = some moveSecondKey := by
    decide +kernel
  have hagain : ((SyntaxTree.parse 0 (circularKeys "B" "A")).toOption.bind
      (proposeFix secondKey)).isSome = true := by
    decide +kernel
  obtain ⟨t, ds, hread, hrun, hmem, hfix⟩ := reportedFix?_eq_some_iff.1 hfix
  obtain ⟨fix', hagain⟩ := Option.isSome_iff_exists.1 hagain
  obtain ⟨t', hread', hagain⟩ := Option.bind_eq_some_iff.1 hagain
  rw [toOption_eq_some_iff] at hread'
  have hne : proposeFix secondKey t' ≠ none := by
    rw [hagain]
    exact Option.some_ne_none _
  have hiff : proposeFix secondKey t' = none ↔ ¬ Relanded secondKey t' :=
    proposeFix_eq_none_iff hread hrun hmem hfix moveSecondKey_apply hread'
  exact ⟨t, t', ds, hread, hrun, hmem, hfix, moveSecondKey_apply, hread', hne,
    not_not.1 (mt hiff.2 hne)⟩

end PropertyLint
