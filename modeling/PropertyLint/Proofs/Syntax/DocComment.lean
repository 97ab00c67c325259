/-
# Members with their doc comments

A member starts with a token, and the doc comment of the member stands between that token and the
one in front of it (`compilationUnit_begins`).  So the full range of a member starts with a
character that is no blank (`Token.visibleAt_fullStart`), behind all tokens in front of the member
(`Token.stop_le_fullStart`), and the full ranges of two members start in the same order as the
members (`fullRange_start_lt`).
-/
import PropertyLint.Proofs.Syntax.Apart
import PropertyLint.Proofs.Text.Lines

namespace PropertyLint

/-! ## The first character of a piece -/

theorem toNat_of_isBlank {c : Char} (h : isBlank c = true) : c.toNat ≤ 32 ∨ 127 ≤ c.toNat := by
  simp only [isBlank, blankRanges, List.any_cons, List.any_nil, Bool.or_eq_true, Bool.and_eq_true,
    decide_eq_true_eq, Bool.false_eq_true, or_false] at h
  omega

theorem exists_chars_eq_cons (p : Punct) : ∃ c cs, p.chars = c :: cs ∧ isBlank c = false := by
  cases p <;> exact ⟨_, _, rfl, by decide⟩

/-- The lexer reads no white space but its own. -/
theorem scan_of_isBlank {c : Char} (h : isBlank c = true) (hspace : ¬ isSpace c = true)
    (cs : List Char) : scan c cs = .error (.unexpectedChar c) := by
  have hc := toNat_of_isBlank h
  have hne {d : Char} (hd : 32 < d.toNat ∧ d.toNat < 127) : c ≠ d := by
    rintro rfl
    omega
  have hbetween {lo hi : Char} (hlo : 32 < lo.toNat) (hhi : hi.toNat < 127) :
      ¬ (lo ≤ c ∧ c ≤ hi) := by
    simp only [Char.le_def, UInt32.le_iff_toNat_le]
    unfold Char.toNat at *
    omega
  have hslash (cs ds : List Char) : ¬ ('/' :: ds).isPrefixOf (c :: cs) = true := by
    simp [Ne.symm (hne (d := '/') (by decide))]
  have hstart : ¬ isWordStart c = true := by
    simp only [isWordStart, Bool.or_eq_true, Bool.and_eq_true, decide_eq_true_eq, beq_iff_eq]
    rintro ((h | h) | h)
    · exact hbetween (by decide) (by decide) h
    · exact hbetween (by decide) (by decide) h
    · exact hne (by decide) h
  have hdigit : ¬ isDigit c = true := by
    simp only [isDigit, Bool.and_eq_true, decide_eq_true_eq]
    exact hbetween (by decide) (by decide)
  have hpunct : Punct.ofPrefix? (c :: cs) = none := by
    refine List.find?_eq_none.2 fun p _ hp => ?_
    obtain ⟨d, ds, hchars, hd⟩ := exists_chars_eq_cons p
    rw [hchars, List.isPrefixOf, Bool.and_eq_true, beq_iff_eq] at hp
    rw [hp.1, h] at hd
    exact Bool.false_ne_true hd.symm
  unfold scan
  rw [if_neg hspace, if_neg (hslash _ _), if_neg (hslash _ _), if_neg (hslash _ _),
    if_neg (hne (by decide)), if_neg hstart, if_neg fun hat => hne (by decide) hat.1, if_neg hdigit,
    if_neg (hne (by decide)), if_neg fun hat => hne (by decide) hat.1, if_neg (hne (by decide)),
    hpunct]

theorem not_isBlank_of_scan {c : Char} {cs : List Char} {piece : Piece} {count : Nat}
    (h : scan c cs = .ok (piece, count)) (hpiece : piece ≠ .blank) : isBlank c = false := by
  rw [← Bool.not_eq_true]
  intro hblank
  by_cases hspace : isSpace c = true
  · rw [scan, if_pos hspace] at h
    simp only [Except.ok.injEq, Prod.mk.injEq] at h
    exact hpiece h.1.symm
  · rw [scan_of_isBlank hblank hspace] at h
    simp at h

/-! ## Where a token starts with its doc comment -/

namespace Token

/-- The start of the token or of the doc comment in front of it. -/
def fullStart (t : Token) : Nat :=
  match t.doc with
  | some doc => min doc.start t.range.start
  | none => t.range.start

variable {cs : List Char} {position : Nat} {front rest : List Token} {t : Token}

/-- The first token of a text: a comment that has been read before starts in front of the text. -/
theorem fullStart_of_first {doc : Option OffsetRange}
    (h : tokensFrom cs position doc = .ok (t :: rest)) (hdoc : ∀ d ∈ doc, d.start ≤ position) :
    (∃ d ∈ doc, t.fullStart = d.start) ∨ doc = none ∧ VisibleAt cs position t.fullStart := by
  -- one more piece in front of the rest of the text
  have hskip {c : Char} {cs : List Char} {count position : Nat} {doc : Option OffsetRange}
      (hrec : (∃ d ∈ doc, t.fullStart = d.start) ∨ doc = none ∧
        VisibleAt (cs.drop count) (position + byteLength (c :: cs.take count)) t.fullStart) :
      (∃ d ∈ doc, t.fullStart = d.start) ∨
        doc = none ∧ VisibleAt (c :: cs) position t.fullStart := by
    refine hrec.imp_right (And.imp_right fun hrec => ?_)
    have hrec := hrec.append (c :: cs.take count)
    rwa [List.cons_append, List.take_append_drop] at hrec
  fun_induction tokensFrom cs position doc with
  | case1 => simp at h
  | case2 => simp at h
  | case3 =>
    rename_i ih
    exact hskip (ih h fun d hd => Nat.le_trans (hdoc d hd) (Nat.le_add_right _ _))
  | case4 =>
    rename_i ih
    exact hskip (ih h fun d hd => Nat.le_trans (hdoc d hd) (Nat.le_add_right _ _))
  | case5 position doc c cs count stop range hscan =>
    rename_i ih
    have hc := not_isBlank_of_scan hscan (by simp)
    cases doc with
    | none =>
      -- the comment starts here
      obtain ⟨d, hd, hstart⟩ | ⟨hnone, -⟩ := ih h (by simp [range, stop])
      · obtain rfl := Option.some.inj hd
        exact .inr ⟨rfl, by rw [hstart]; exact .head hc cs position⟩
      · simp at hnone
    | some doc =>
      have hle := hdoc doc rfl
      have hcover : (doc.cover range).start = doc.start := Nat.min_eq_left hle
      obtain ⟨d, hd, hstart⟩ | ⟨hnone, -⟩ := ih h (by simp [hcover, stop]; omega)
      · obtain rfl := Option.some.inj hd
        exact .inl ⟨doc, rfl, hstart.trans hcover⟩
      · simp at hnone
  | case6 position doc c cs count stop kind hscan =>
    have hc := not_isBlank_of_scan hscan (by simp)
    cases htail : tokensFrom (cs.drop count) stop none with
    | error e => simp [htail, bind, Except.bind] at h
    | ok tail =>
      simp only [htail, bind, Except.bind, pure, Except.pure, Except.ok.injEq, List.cons.injEq] at h
      obtain ⟨rfl, -⟩ := h
      cases doc with
      | none => exact .inr ⟨rfl, .head hc cs position⟩
      | some doc => exact .inl ⟨doc, rfl, Nat.min_eq_left (hdoc doc rfl)⟩

/-- A token with its doc comment starts with a character that is no blank. -/
theorem visibleAt_fullStart (h : tokensFrom cs position none = .ok (front ++ t :: rest)) :
    VisibleAt cs position t.fullStart := by
  induction front generalizing cs position with
  | nil => simpa using fullStart_of_first h (by simp)
  | cons u front ih =>
    have hu : tokensFrom cs position none = .ok ([] ++ u :: (front ++ t :: rest)) := h
    obtain ⟨before, spelling, after, rfl, hstart, hspelled, -, hrest⟩ := exists_spelledBy hu
    rw [hspelled.stop, hstart, Nat.add_assoc, ← byteLength_append] at hrest
    rw [← List.append_assoc]
    exact (ih hrest).append _

/-- The doc comment of a token stands behind all tokens in front of it. -/
theorem stop_le_fullStart (h : tokensFrom cs position none = .ok (front ++ t :: rest)) {u : Token}
    (hu : u ∈ front) : u.range.stop ≤ t.fullStart := by
  obtain ⟨read, behind, rfl⟩ := List.append_of_mem hu
  rw [List.append_assoc, List.cons_append] at h
  obtain ⟨before, spelling, after, -, -, -, -, hrest⟩ := exists_spelledBy h
  exact (visibleAt_fullStart hrest).le

end Token

/-! ## Where a member starts -/

/-- The member starts with a token and has the doc comment in front of it. -/
def Member.BeginsWith (m : Member) (t : Token) : Prop :=
  m.range.start = t.range.start ∧ m.header.doc = t.doc

theorem Member.BeginsWith.fullRange_start {m : Member} {t : Token} (h : m.BeginsWith t) :
    m.fullRange.start = t.fullStart := by
  obtain ⟨hstart, hdoc⟩ := h
  unfold fullRange Token.fullStart
  rw [hdoc]
  cases t.doc with
  | none => exact hstart
  | some doc => exact congrArg (min doc.start) hstart

namespace Grammar

variable {c c' : Cursor} {tokens : List Token} {l : Leading}

/-- The declaration starts with its attributes and modifiers, and has the doc comment in front of
them. -/
def Leading.Opens (l : Leading) (header : DeclHeader) : Prop :=
  header.node.range.start = l.start ∧ header.doc = l.doc

theorem opens_of_constructor {d : ConstructorDecl} (h : Runs (constructor_ l) c d c') :
    l.Opens d.toDeclHeader := by
  simp [constructor_] at h
  grind [Leading.Opens, Cursor.rangeSince]

theorem opens_of_method {t : TypeRef} {interface : Option TypeRef} {name : Ident} {d : MethodDecl}
    (h : Runs (method l t interface name) c d c') : l.Opens d.toDeclHeader := by
  simp [method] at h
  grind [Leading.Opens, Cursor.rangeSince]

theorem opens_of_property {t : TypeRef} {name : Ident} {d : PropertyDecl}
    (h : Runs (property l t name) c d c') : l.Opens d.toDeclHeader := by
  simp [property] at h
  grind [Leading.Opens, Cursor.rangeSince]

theorem opens_of_field {t : TypeRef} {name : Ident} {d : FieldDecl}
    (h : Runs (field l t name) c d c') : l.Opens d.toDeclHeader := by
  simp [field] at h
  grind [Leading.Opens, Cursor.rangeSince]

theorem opens_of_typedMember {m : Member} (h : Runs (typedMember l) c m c') :
    m.isType = false ∧ l.Opens m.header := by
  simp [typedMember] at h
  obtain ⟨t, c₁, -, is, c₂, -, h⟩ := h
  split at h
  · simp at h
    obtain ⟨o, c₄, -, ⟨-, d, hd, rfl⟩ | ⟨-, ⟨-, d, hd, rfl⟩ | ⟨-, d, hd, rfl⟩⟩⟩ := h
    · exact ⟨rfl, opens_of_method hd⟩
    · exact ⟨rfl, opens_of_property hd⟩
    · exact ⟨rfl, opens_of_field hd⟩
  · simp at h

theorem opens_of_typeDeclWith {member : String → Parser Member} {namespaceName : Option String}
    {d : TypeDecl} (h : Runs (typeDeclWith member l namespaceName) c d c') :
    l.Opens d.header.toDeclHeader := by
  simp [typeDeclWith] at h
  grind [Leading.Opens, Cursor.rangeSince, TypeDecl.header]

theorem opens_of_typeDeclToDepth {namespaceName : Option String} {depth : Nat} {d : TypeDecl}
    (h : Runs (typeDeclToDepth namespaceName depth l) c d c') : l.Opens d.header.toDeclHeader := by
  cases depth with
  | zero => simp [typeDeclToDepth] at h
  | succ depth => exact opens_of_typeDeclWith h

/-- The member starts with one of the tokens. -/
def MemberBegins (tokens : List Token) (m : Member) : Prop :=
  ∃ front t rest, tokens = front ++ t :: rest ∧ m.BeginsWith t

theorem tokens_ne_nil_of_head {k : TokenKind} (h : c.head = k) (hk : k ≠ .endOfText) :
    c.tokens ≠ [] := by
  obtain ⟨t, -, hread⟩ := exists_reads_advance h hk
  rw [hread.tokens]
  exact List.cons_ne_nil _ _

theorem tokens_ne_nil_of_typedMember {m : Member} (h : Runs (typedMember l) c m c') :
    c.tokens ≠ [] := by
  simp [typedMember] at h
  obtain ⟨t, c₁, ht, -⟩ := h
  obtain ⟨⟨read, hread, hrun⟩, -⟩ := type_reads ht
  obtain _ | ⟨u, read⟩ := read
  · simp [TypeState.start, TypeState.done] at hrun
  · rw [hread.tokens]
    exact List.cons_ne_nil _ _

/-- A member starts with the next token. -/
theorem exists_begins_of_memberWith {namespaceName : Option String} {depth : Nat}
    {typeName : String} {m : Member} (hin : Within tokens c)
    (h : Runs (memberWith (typeDeclToDepth namespaceName depth) typeName) c m c') :
    ∃ t rest, c.tokens = t :: rest ∧ m.BeginsWith t := by
  simp [memberWith] at h
  obtain ⟨l, c₁, hl, h⟩ := h
  obtain ⟨hreaches, -⟩ := leading_yields hin hl
  have hleading : l.doc = c.doc ∧ l.start = c.position := by
    simp [leading] at hl
    grind
  obtain ⟨hne, hopens⟩ : c₁.tokens ≠ [] ∧ l.Opens m.header := by
    obtain ⟨hword, d, hd, rfl⟩ | ⟨-, ⟨hword, d, hd, rfl⟩ | ⟨-, hm⟩⟩ := h
    · refine ⟨?_, opens_of_typeDeclToDepth hd⟩
      obtain hword | hword | hword := hword <;> exact tokens_ne_nil_of_head hword (by simp)
    · exact ⟨tokens_ne_nil_of_head hword.1 (by simp), opens_of_constructor hd⟩
    · exact ⟨tokens_ne_nil_of_typedMember hm, (opens_of_typedMember hm).2⟩
  -- so a token stands where the attributes and modifiers start
  cases hc : c.tokens with
  | nil =>
    have hlength := hreaches.length_le
    rw [hc, List.length_nil, Nat.le_zero, List.length_eq_zero_iff] at hlength
    exact absurd hlength hne
  | cons t rest =>
    refine ⟨t, rest, rfl, ?_, ?_⟩
    · rw [show m.range.start = l.start from hopens.1, hleading.2, Cursor.position, hc]
    · rw [hopens.2, hleading.1, Cursor.doc, hc]
      rfl

theorem begins_of_memberWith {namespaceName : Option String} {depth : Nat} {typeName : String}
    {m : Member} (hin : Within tokens c)
    (h : Runs (memberWith (typeDeclToDepth namespaceName depth) typeName) c m c') :
    MemberBegins tokens m := by
  obtain ⟨t, rest, htokens, hbegins⟩ := exists_begins_of_memberWith hin h
  obtain ⟨front, rfl, -⟩ := hin
  exact ⟨front, t, rest, by rw [htokens], hbegins⟩

/-- What holds of every member that is read holds of all members of a type and of the types in
it. -/
theorem typeDeclToDepth_members {Q : Member → Prop} {namespaceName : Option String}
    (hQ : ∀ depth name ⦃c m c'⦄, Within tokens c →
      Runs (memberWith (typeDeclToDepth namespaceName depth) name) c m c' → Q m)
    (depth : Nat) {l : Leading} (hl : AttributesRead tokens l.attributes) :
    Yields tokens (typeDeclToDepth namespaceName depth l) fun decl _ =>
      ∀ d ∈ decl.withNested, ∀ m ∈ d.members, Q m := by
  induction depth generalizing l with
  | zero =>
    intro c decl c' hin h
    simp [typeDeclToDepth] at h
  | succ depth ih =>
    have hmember (name : String) :
        Yields tokens (memberWith (typeDeclToDepth namespaceName depth) name) fun m _ =>
          Q m ∧ ∀ decl, m = .type decl → ∀ d ∈ decl.withNested, ∀ m ∈ d.members, Q m := by
      have hreads : Yields tokens (memberWith (typeDeclToDepth namespaceName depth) name)
          fun m _ => MemberOrTypeRead tokens m :=
        memberWith_yields (fun l hl => typeDeclToDepth_yields namespaceName depth hl) name
      intro c m c' hin h
      refine ⟨(hreads hin h).1, hQ depth name hin h, ?_⟩
      rintro decl rfl
      simp [memberWith] at h
      obtain ⟨l, c₁, hl, h⟩ := h
      obtain ⟨hreaches, hl⟩ := leading_yields hin hl
      obtain ⟨-, h⟩ | ⟨-, -, h⟩ := h
      · exact (ih hl (hin.reaches hreaches) h).2
      · exact absurd (opens_of_typedMember h).1 (by simp [Member.isType])
    refine (typeDeclWith_yields hmember l namespaceName).mono ?_
    rintro ⟨header, ms⟩ - ⟨-, hmembers⟩
    rw [TypeDecl.withNested, List.forall_mem_cons]
    exact ⟨fun m hm => (hmembers m hm).1,
      forall_mem_nestedIn fun decl hdecl => (hmembers _ hdecl).2 decl rfl⟩

/-- All members of the type and of the types in it start with tokens. -/
def NestedBegins (tokens : List Token) (decl : TypeDecl) : Prop :=
  ∀ d ∈ decl.withNested, ∀ m ∈ d.members, MemberBegins tokens m

theorem typeDeclToDepth_begins (namespaceName : Option String) (depth : Nat) {l : Leading}
    (hl : AttributesRead tokens l.attributes) :
    Yields tokens (typeDeclToDepth namespaceName depth l) fun decl _ =>
      NestedBegins tokens decl :=
  typeDeclToDepth_members (fun _ _ _ _ _ hin h => begins_of_memberWith hin h) depth hl

/-- **Where members start.**  Every member of a file starts with a token and has the doc comment
that stands in front of that token. -/
theorem compilationUnit_begins {size : Nat} {u : CompilationUnit}
    (h : Runs compilationUnit ⟨tokens, 0, 0, size⟩ u c') :
    ∀ decl ∈ u.allTypes, ∀ m ∈ decl.members, MemberBegins tokens m :=
  (compilationUnit_yields (fun namespaceName depth _ hl =>
    typeDeclToDepth_begins namespaceName depth hl) ⟨[], rfl, rfl⟩ h).2

end Grammar

/-! ## The members of a type -/

namespace Token

variable {cs : List Char} {front rest : List Token} {t u : Token}

theorem lt_of_tokensFrom (h : tokensFrom cs 0 none = .ok (front ++ t :: rest)) :
    t.range.start < t.range.stop := by
  obtain ⟨before, spelling, after, -, -, hspelled, -⟩ := exists_spelledBy h
  exact hspelled.lt

theorem fullStart_le (t : Token) : t.fullStart ≤ t.range.start := by
  unfold fullStart
  cases t.doc with
  | none => exact Nat.le_refl _
  | some doc => exact Nat.min_le_right _ _

/-- A token that starts in front of another one starts in front of the doc comment of that one. -/
theorem start_lt_fullStart (h : tokensFrom cs 0 none = .ok (front ++ t :: rest))
    (hu : u ∈ front ++ t :: rest) (hlt : u.range.start < t.range.start) :
    u.range.start < t.fullStart := by
  rcases List.mem_append.1 hu with hu | hu
  · have hstop := stop_le_fullStart h hu
    obtain ⟨read, behind, rfl⟩ := List.append_of_mem hu
    rw [List.append_assoc, List.cons_append] at h
    exact Nat.lt_of_lt_of_le (lt_of_tokensFrom h) hstop
  rcases List.mem_cons.1 hu with rfl | hu
  · exact absurd hlt (Nat.lt_irrefl _)
  · -- behind the token
    obtain ⟨read, behind, rfl⟩ := List.append_of_mem hu
    have hlt' := lt_of_tokensFrom h
    rw [← List.cons_append, ← List.append_assoc] at h
    have hstop := stop_le_fullStart h (List.mem_append_right _ (.head _))
    have hle := u.fullStart_le
    omega

end Token

namespace Member

theorem fullRange_start_le (m : Member) : m.fullRange.start ≤ m.range.start := by
  unfold fullRange
  cases m.header.doc with
  | none => exact Nat.le_refl _
  | some doc => exact Nat.min_le_right _ _

theorem le_fullRange_stop (m : Member) : m.range.stop ≤ m.fullRange.stop := by
  unfold fullRange
  cases m.header.doc with
  | none => exact Nat.le_refl _
  | some doc => exact Nat.le_max_right _ _

end Member

namespace SyntaxTree

variable {file : FileId} {text : String} {t : SyntaxTree} {decl : TypeDecl} {m m' : Member}

theorem exists_begins (h : parse file text = .ok t) :
    ∃ tokens, tokensFrom text.toList 0 none = .ok tokens ∧
      ∀ decl ∈ t.types, ∀ m ∈ decl.members, Grammar.MemberBegins tokens m := by
  obtain ⟨-, -, tokens, c, htokens, hrun⟩ := exists_run_of_parse h
  exact ⟨tokens, htokens, Grammar.compilationUnit_begins hrun⟩

section
variable (h : parse file text = .ok t) (hdecl : decl ∈ t.types)
include h hdecl

/-- A member with its doc comment starts with a character that is no blank. -/
theorem visibleAt_fullRange (hm : m ∈ decl.members) :
    VisibleAt text.toList 0 m.fullRange.start := by
  obtain ⟨tokens, htokens, hbegins⟩ := exists_begins h
  obtain ⟨front, u, rest, rfl, hu⟩ := hbegins decl hdecl m hm
  rw [hu.fullRange_start]
  exact Token.visibleAt_fullStart htokens

/-- Members with their doc comments start in the order of the members. -/
theorem fullRange_start_lt (hm : m ∈ decl.members) (hm' : m' ∈ decl.members)
    (hlt : m.range.start < m'.range.start) : m.fullRange.start < m'.fullRange.start := by
  obtain ⟨tokens, htokens, hbegins⟩ := exists_begins h
  obtain ⟨front, u, rest, rfl, hu⟩ := hbegins decl hdecl m hm
  obtain ⟨front', u', rest', heq, hu'⟩ := hbegins decl hdecl m' hm'
  have hmem : u ∈ front' ++ u' :: rest' := heq ▸ List.mem_append_right _ (.head _)
  rw [heq] at htokens
  rw [hu.1, hu'.1] at hlt
  have hbehind := Token.start_lt_fullStart htokens hmem hlt
  rw [hu.fullRange_start, hu'.fullRange_start]
  exact Nat.lt_of_le_of_lt u.fullStart_le hbehind

/-- Two members of a type start at different places. -/
theorem range_start_ne (hm : m ∈ decl.members) (hm' : m' ∈ decl.members) (hne : m ≠ m') :
    m.range.start ≠ m'.range.start := by
  have hnested := wellNested_of_mem_types h hdecl
  have hpart {m : Member} (hm : m ∈ decl.members) :
      .member m ∈ (Part.member (.type decl)).parts :=
    List.mem_append_right _ (List.mem_map_of_mem hm)
  have hapart := hnested.apart_of_ne (hpart hm) (hpart hm') (by simpa using hne)
  have hlt := (hnested.part (hpart hm)).fits.nonempty
  have hlt' := (hnested.part (hpart hm')).fits.nonempty
  unfold Part.Apart Part.Before OffsetRange.Precedes at hapart
  simp only [Part.range_member] at *
  omega

theorem eq_of_fullRange_start (hm : m ∈ decl.members) (hm' : m' ∈ decl.members)
    (heq : m.fullRange.start = m'.fullRange.start) : m = m' := by
  by_contra hne
  rcases Nat.lt_or_gt_of_ne (range_start_ne h hdecl hm hm' hne) with hlt | hgt
  · exact Nat.ne_of_lt (fullRange_start_lt h hdecl hm hm' hlt) heq
  · exact Nat.ne_of_gt (fullRange_start_lt h hdecl hm' hm hgt) heq

end

end SyntaxTree

end PropertyLint
