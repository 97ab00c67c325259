/-
# Where things stand in a text

The name, the type or the argument that a tree has at a range stands in its text between what is in
front of it and what is behind it, and both are read the same way whatever stands between them:
`SyntaxTree.exists_namePlace`, `SyntaxTree.exists_typePlace` and `SyntaxTree.exists_argumentPlace`.
-/
import PropertyLint.Fix.Place
import PropertyLint.Proofs.Syntax.MemberReading
import PropertyLint.Proofs.Syntax.ArgumentEnd
import PropertyLint.Proofs.Syntax.Spelling

namespace PropertyLint

/-! ## The text around a range -/

/-- The range is the one of `inside` in the text. -/
structure Around (cs : List Char) (r : OffsetRange) (before inside after : List Char) : Prop where
  chars : cs = before ++ (inside ++ after)
  start : r.start = byteLength before
  stop : r.stop = r.start + byteLength inside

namespace Around

variable {cs before inside after before' inside' after' : List Char} {r : OffsetRange}

theorem slice? (h : Around cs r before inside after) :
    PropertyLint.slice? cs r.start r.stop = some inside :=
  slice?_eq_some_iff.2 ⟨before, after, h.chars, h.start.symm, h.stop.symm⟩

theorem textOf {t : SyntaxTree} (h : Around t.chars r before inside after) :
    t.textOf r = String.ofList inside := by
  rw [SyntaxTree.textOf, h.slice?, Option.getD_some]

theorem of_textOf {t : SyntaxTree} {text : String} (h : t.textOf r = text) (hne : text ≠ "") :
    ∃ before after, Around t.chars r before text.toList after := by
  unfold SyntaxTree.textOf at h
  cases hslice : PropertyLint.slice? t.chars r.start r.stop with
  | none =>
    rw [hslice] at h
    exact absurd h.symm hne
  | some inside =>
    rw [hslice, Option.getD_some] at h
    obtain ⟨before, after, hchars, hstart, hstop⟩ := slice?_eq_some_iff.1 hslice
    rw [← h, String.toList_ofList]
    exact ⟨before, after, hchars, hstart.symm, hstop.symm⟩

end Around

/-! ## Cursors and characters -/

namespace Grammar

variable {cs : List Char} {tokens : List Token} {c c' : Cursor}

/-- What has been read between two cursors, and how the text goes on there and behind it. -/
theorem exists_around {read : List Token} {r : OffsetRange}
    (htokens : tokensFrom cs 0 none = .ok tokens) (hin : Within tokens c) (h : c.Reads read c')
    (hne : read ≠ []) (hr : r = c'.rangeSince c.position) :
    ∃ before inside after doc, Around cs r before inside after ∧ c'.last = r.stop ∧
      tokensFrom (inside ++ after) r.start doc = .ok (read ++ c'.tokens) ∧
      tokensFrom after r.stop none = .ok c'.tokens := by
  obtain ⟨front, hfront, -⟩ := hin
  obtain rfl | ⟨init, last, hconcat⟩ := List.eq_nil_or_concat read
  · exact absurd rfl hne
  obtain rfl : read = init ++ [last] := hconcat.trans List.concat_eq_append
  obtain ⟨u, us, hu⟩ : ∃ u us, init ++ [last] ++ c'.tokens = u :: us :=
    List.exists_cons_of_ne_nil (by simp)
  have hposition : c.position = u.range.start := by
    rw [Cursor.position, h.tokens, hu]
  have hclast : c'.last = last.range.stop := by
    rw [h.last, Cursor.lastStop_concat]
  -- the first token decides where the text goes on, and the last one where it ends
  rw [hfront, h.tokens, hu] at htokens
  obtain ⟨before, spelling, rest, rfl, hstart, -, hfirst, -⟩ := exists_spelledBy htokens
  rw [← hu, List.append_assoc, List.singleton_append] at hfirst
  obtain ⟨before', spelling', after, hrest, hstart', hspelled, -, hlast⟩ := exists_spelledBy hfirst
  have hstop := hspelled.stop
  obtain ⟨hrstart, hrstop⟩ : r.start = u.range.start ∧ r.stop = last.range.stop := by
    rw [hr, Cursor.rangeSince, hposition, hclast]
    exact ⟨rfl, by dsimp only; omega⟩
  refine ⟨before, before' ++ spelling', after, u.doc, ⟨?_, ?_, ?_⟩, ?_, ?_, ?_⟩
  · rw [hrest, List.append_assoc]
  · omega
  · rw [byteLength_append]
    omega
  · rw [hclast, hrstop]
  · rw [List.append_assoc, ← hrest, hrstart, hfirst]
    simp
  · rw [hrstop, hlast]

end Grammar

/-! ## The places of names, types and arguments -/

/-- A word stands at the range, and it does not go on behind it. -/
structure NamePlace (cs : List Char) (r : OffsetRange) (w : String)
    (before inside after : List Char) : Prop extends Around cs r before inside after where
  isWord : spellsWord w = true
  spelling : inside = w.toList ∨ inside = '@' :: w.toList
  ends : after.takeWhile isWordChar = []

/-- A type stands at the range, in front of a word behind which no longer type can end. -/
structure TypePlace (cs : List Char) (r : OffsetRange) (before inside after : List Char) : Prop
    extends Around cs r before inside after where
  reads : ∃ doc read t rest w, tokensFrom (inside ++ after) r.start doc = .ok (read ++ t :: rest) ∧
    TypeState.start.run (read.map Token.kind) = some .done ∧
    Grammar.Cursor.lastStop 0 read = r.stop ∧ tokensFrom after r.stop none = .ok (t :: rest) ∧
    t.kind = .word w ∧ TypeState.done.Stops (rest.map Token.kind)

/-- An expression stands at the range, in front of a comma or a closing parenthesis. -/
structure ArgumentPlace (cs : List Char) (r : OffsetRange) (before inside after : List Char) : Prop
    extends Around cs r before inside after where
  reads : ∃ doc c c' depth e, tokensFrom (inside ++ after) r.start doc = .ok c.tokens ∧
    Grammar.Runs (Grammar.expressionToDepth depth) c e c' ∧ r = c'.rangeSince c.position ∧
    c.Reaches c' ∧ tokensFrom after r.stop none = .ok c'.tokens ∧ Grammar.EndsArgument c'.tokens

theorem IdentRead.place {cs : List Char} {tokens : List Token} {i : Ident}
    (htokens : tokensFrom cs 0 none = .ok tokens) (h : Grammar.IdentRead tokens i) :
    ∃ before inside after, NamePlace cs i.range i.text before inside after := by
  obtain ⟨read, doc, rest, rfl⟩ := h
  obtain ⟨before, spelling, after, hcs, hstart, hspelled, -⟩ := exists_spelledBy htokens
  obtain ⟨hw, hspelling, hends⟩ := hspelled.word rfl
  exact ⟨before, spelling, after, ⟨hcs, by simpa using hstart, hspelled.stop⟩, hw, hspelling, hends⟩

theorem TypeRead.place {cs : List Char} {tokens : List Token} {type : TypeRef}
    (htokens : tokensFrom cs 0 none = .ok tokens) (h : Grammar.TypeRead tokens type) :
    ∃ before inside after, TypePlace cs type.range before inside after := by
  obtain ⟨c, read, c', hin, hread, hrun, hrange, w, rest, hw, hstops⟩ := h
  have hne : read ≠ [] := by
    rintro rfl
    simp [TypeState.start, TypeState.done] at hrun
  obtain ⟨before, inside, after, doc, haround, hlast, hfirst, hafter⟩ :=
    Grammar.exists_around htokens hin hread hne hrange
  obtain ⟨t, ts, hts, ht, rfl⟩ := List.map_eq_cons_iff.1 hw
  rw [hts] at hfirst hafter
  have hlast : Grammar.Cursor.lastStop 0 read = type.range.stop := by
    rw [← hlast, hread.last]
    exact Grammar.Cursor.lastStop_congr hne _ _
  exact ⟨before, inside, after, haround, doc, read, t, ts, w, hfirst, hrun, hlast, hafter, ht,
    hstops⟩

theorem ArgumentRead.place {cs : List Char} {tokens : List Token} {a : Argument Expr}
    (htokens : tokensFrom cs 0 none = .ok tokens) (h : Grammar.ArgumentRead tokens a) :
    ∃ before inside after, ArgumentPlace cs a.value.range before inside after := by
  obtain ⟨depth, c, c', hin, hrun, hnext⟩ := h
  obtain ⟨⟨read, hread⟩, hlength, hrange, -⟩ :=
    (Grammar.expressionToDepth_reads depth).reads hin hrun
  have hne : read ≠ [] := by
    rintro rfl
    rw [hread.tokens] at hlength
    simp at hlength
  obtain ⟨before, inside, after, doc, haround, -, hfirst, hafter⟩ :=
    Grammar.exists_around htokens hin hread hne hrange
  rw [← hread.tokens] at hfirst
  exact ⟨before, inside, after, haround, doc, c, c', depth, _, hfirst, hrun, hrange, ⟨read, hread⟩,
    hafter, Grammar.endsArgument_of_head hnext⟩

/-! ## What a tree finds at a range -/

theorem exists_of_bind_eq_ok {ε α β : Type} {x : Except ε α} {f : α → Except ε β} {b : β}
    (h : x >>= f = .ok b) : ∃ a, x = .ok a ∧ f a = .ok b := by
  cases x with
  | error e => simp [bind, Except.bind] at h
  | ok a => exact ⟨a, rfl, h⟩

theorem toOption_eq_some_iff {ε α : Type} {x : Except ε α} {a : α} :
    x.toOption = some a ↔ x = .ok a := by
  cases x <;> simp [Except.toOption]

namespace SyntaxTree

variable {t : SyntaxTree} {r : OffsetRange}

theorem shortest?_mem {decls : List TypeDecl} {decl : TypeDecl} (h : shortest? decls = some decl) :
    decl ∈ decls := by
  induction decls generalizing decl with
  | nil => simp [shortest?] at h
  | cons d decls ih =>
    unfold shortest? at h
    cases hrest : shortest? decls with
    | none =>
      obtain rfl : d = decl := by simpa [hrest] using h
      exact .head _
    | some u =>
      rw [hrest] at h
      dsimp only at h
      split at h
      · obtain rfl := Option.some.inj h
        exact .tail _ (ih hrest)
      · obtain rfl := Option.some.inj h
        exact .head _

theorem containingType?_mem {decl : TypeDecl} (h : t.containingType? r = some decl) :
    decl ∈ t.types := (List.mem_filter.1 (shortest?_mem h)).1

/-- The tree has been read from its text. -/
def IsRead (t : SyntaxTree) : Prop := parse t.file t.text = .ok t

/-- The run that has read a tree. -/
theorem exists_run_of_parse {file : FileId} {text : String} (h : parse file text = .ok t) :
    t.file = file ∧ t.text = text ∧ ∃ tokens c, tokensFrom text.toList 0 none = .ok tokens ∧
      Grammar.Runs Grammar.compilationUnit ⟨tokens, 0, 0, byteLength text.toList⟩ t.root c := by
  unfold parse at h
  obtain ⟨tokens, htokens, h⟩ := exists_of_bind_eq_ok h
  obtain ⟨root, hroot, h⟩ := exists_of_bind_eq_ok h
  obtain rfl := Except.ok.inj h
  exact ⟨rfl, rfl, tokens, _, htokens, Prod.ext hroot rfl⟩

theorem isRead_of_parse {file : FileId} {text : String} (h : parse file text = .ok t) :
    t.IsRead ∧ t.file = file ∧ t.text = text := by
  obtain ⟨rfl, rfl, -⟩ := exists_run_of_parse h
  exact ⟨h, rfl, rfl⟩

theorem IsRead.exists_tokens (h : t.IsRead) : ∃ tokens, tokensFrom t.chars 0 none = .ok tokens ∧
    ∀ decl ∈ t.types, Grammar.TypeDeclRead tokens decl := by
  obtain ⟨-, -, tokens, c, htokens, hrun⟩ := exists_run_of_parse h
  exact ⟨tokens, htokens, Grammar.compilationUnit_reads hrun⟩

theorem range_of_memberNamedAt? {m : Member} (h : t.memberNamedAt? r = some m) :
    m.name.range = r := by
  obtain ⟨decl, -, hm⟩ := Option.bind_eq_some_iff.1 h
  simpa using List.find?_some hm

theorem exists_namePlace (h : t.IsRead) {m : Member} (hm : t.memberNamedAt? r = some m) :
    ∃ before inside after, NamePlace t.chars r m.name.text before inside after := by
  obtain ⟨tokens, htokens, hread⟩ := h.exists_tokens
  obtain rfl := range_of_memberNamedAt? hm
  obtain ⟨decl, hdecl, hm⟩ := Option.bind_eq_some_iff.1 hm
  exact IdentRead.place htokens ((hread decl (containingType?_mem hdecl)).members m
    (List.mem_of_find?_eq_some hm)).name

theorem exists_typePlace (h : t.IsRead) {type : TypeRef} (htype : t.declaredTypeAt? r = some type) :
    type.range = r ∧ ∃ before inside after, TypePlace t.chars r before inside after := by
  obtain ⟨tokens, htokens, hread⟩ := h.exists_tokens
  obtain ⟨m, hm, htype⟩ := Option.bind_eq_some_iff.1 htype
  obtain ⟨decl, hdecl, hm⟩ := Option.bind_eq_some_iff.1 hm
  have hfind : m.declaredTypes.find? (fun type => type.range == r) = some type := by
    cases m with
    | property p => exact htype
    | method d => exact htype
    | _ => simp at htype
  obtain rfl : type.range = r := by simpa using List.find?_some hfind
  have hmember := (hread decl (containingType?_mem hdecl)).members m (List.mem_of_find?_eq_some hm)
  exact ⟨rfl, TypeRead.place htokens (hmember.types type (List.mem_of_find?_eq_some hfind))⟩

theorem argumentRead_of_mem {tokens : List Token} {decl : TypeDecl}
    (hdecl : Grammar.TypeDeclRead tokens decl) {a : Argument Expr}
    (ha : a ∈ decl.attributeArguments ++ decl.callArguments) : Grammar.ArgumentRead tokens a := by
  rcases List.mem_append.1 ha with ha | ha
  · obtain ⟨b, hb, ha⟩ := List.mem_flatMap.1 ha
    -- the attributes of the type and of its members
    have hread : Grammar.AttributesRead tokens
        (decl.attributes ++ decl.ownMembers.flatMap Member.attributes) := by
      intro b hb
      rcases List.mem_append.1 hb with hb | hb
      · exact hdecl.attributes b hb
      · obtain ⟨m, hm, hb⟩ := List.mem_flatMap.1 hb
        exact (hdecl.members m hm).attributes b hb
    cases hargs : b.args with
    | none => simp [hargs] at ha
    | some list => exact hread b hb list hargs a (by simpa [hargs] using ha)
  · obtain ⟨e, he, ha⟩ := List.mem_flatMap.1 ha
    obtain ⟨m, hm, he⟩ := List.mem_flatMap.1 he
    cases hargs : e.argumentList? with
    | none => simp [hargs] at ha
    | some list => exact (hdecl.members m hm).exprs e he list hargs a (by simpa [hargs] using ha)

theorem exists_argumentPlace (h : t.IsRead) {a : Argument Expr} (ha : t.argumentAt? r = some a) :
    a.value.range = r ∧ ∃ before inside after, ArgumentPlace t.chars r before inside after := by
  obtain ⟨tokens, htokens, hread⟩ := h.exists_tokens
  obtain rfl : a.value.range = r := by simpa using List.find?_some ha
  obtain ⟨decl, hdecl, ha⟩ := List.mem_flatMap.1 (List.mem_of_find?_eq_some ha)
  exact ⟨rfl, ArgumentRead.place htokens (argumentRead_of_mem (hread decl hdecl) ha)⟩

end SyntaxTree

end PropertyLint
