/-
# Parts laid out between cursors

The tokens of a text stand one behind the other, so the parts that a parser reads between two
cursors are laid out between the start of the first token that it reads and the end of the last one
(`Laid`).  A node that starts with the first of these tokens and ends with the last one is well
nested around such parts (`Laid.node`).  The nodes in them are numbered with the identities that the
cursors hand out in between.  What loops and lists read is laid out item by item.
-/
import PropertyLint.Proofs.Syntax.Numbering
import PropertyLint.Proofs.Syntax.Part
import PropertyLint.Proofs.Syntax.Places

namespace PropertyLint

/-! ## The order of tokens -/

/-- The tokens start at the offset or behind it, none is empty and none starts before the end of the
one in front of it. -/
def Spaced : Nat → List Token → Prop
  | _, [] => True
  | start, t :: rest =>
    start ≤ t.range.start ∧ t.range.start < t.range.stop ∧ Spaced t.range.stop rest

theorem SpelledBy.lt {t : Token} {spelling after : List Char} (h : SpelledBy t spelling after) :
    t.range.start < t.range.stop := by
  obtain ⟨c, inside, count, rfl, -⟩ := h.scanned
  have hpos := c.utf8Size_pos
  rw [h.stop, byteLength_cons]
  omega

theorem spaced_of_tokensFrom {tokens : List Token} {cs : List Char} {position : Nat}
    {doc : Option OffsetRange} (h : tokensFrom cs position doc = .ok tokens) :
    Spaced position tokens := by
  induction tokens generalizing cs position doc with
  | nil => trivial
  | cons t rest ih =>
    rw [← List.nil_append (t :: rest)] at h
    obtain ⟨before, spelling, after, -, hstart, hspelled, -, hrest⟩ := exists_spelledBy h
    exact ⟨by omega, hspelled.lt, ih hrest⟩

namespace Grammar

variable {c c' c'' : Cursor}

theorem Spaced.behind {start : Nat} {read rest : List Token} (h : Spaced start (read ++ rest)) :
    Spaced (Cursor.lastStop start read) rest := by
  induction read generalizing start with
  | nil => exact h
  | cons t read ih => exact ih h.2.2

theorem Spaced.le_lastStop {start : Nat} {read rest : List Token}
    (h : Spaced start (read ++ rest)) : start ≤ Cursor.lastStop start read := by
  induction read generalizing start with
  | nil => exact Nat.le_refl _
  | cons t read ih =>
    obtain ⟨hstart, hlt, hrest⟩ := h
    have := ih hrest
    rw [Cursor.lastStop]
    omega

/-- The start of the next token, or the end of the last one at the end of the text. -/
def Cursor.here (c : Cursor) : Nat :=
  match c.tokens with
  | t :: _ => t.range.start
  | [] => c.last

@[simp] theorem Cursor.here_renew (c : Cursor) : c.renew.here = c.here := rfl

/-- A text with its tokens. -/
structure Source where
  chars : List Char
  tokens : List Token
  tokenized : tokensFrom chars 0 none = .ok tokens

variable {s : Source}

theorem Source.spaced (hin : Within s.tokens c) : Spaced c.last c.tokens := by
  obtain ⟨read, htokens, hlast⟩ := hin
  have h := spaced_of_tokensFrom s.tokenized
  rw [htokens] at h
  rw [hlast]
  exact Spaced.behind h

theorem Source.last_le_here (hin : Within s.tokens c) : c.last ≤ c.here := by
  have h := s.spaced hin
  unfold Cursor.here
  cases htokens : c.tokens with
  | nil => exact Nat.le_refl _
  | cons t rest =>
    rw [htokens] at h
    exact h.1

theorem Source.last_le (hin : Within s.tokens c) (h : c.Reaches c') : c.last ≤ c'.last := by
  obtain ⟨read, hread⟩ := h
  have hspaced := s.spaced hin
  rw [hread.tokens] at hspaced
  rw [hread.last]
  exact Spaced.le_lastStop hspaced

/-- Tokens that have been read take some room. -/
theorem Source.here_lt_last {t : Token} {read : List Token} (hin : Within s.tokens c)
    (h : c.Reads (t :: read) c') : c.here < c'.last := by
  have hspaced := s.spaced hin
  rw [h.tokens, List.cons_append] at hspaced
  have hle := Spaced.le_lastStop hspaced.2.2
  have hlt := hspaced.2.1
  rw [Cursor.here, h.tokens, h.last, List.cons_append, Cursor.lastStop]
  dsimp only
  omega

theorem Source.here_le (hin : Within s.tokens c) (h : c.Reaches c') : c.here ≤ c'.here := by
  obtain ⟨read, hread⟩ := h
  have hle := s.last_le_here (hin.reaches ⟨read, hread⟩)
  cases read with
  | nil =>
    have htokens := hread.tokens
    have hlast := hread.last
    rw [List.nil_append] at htokens
    unfold Cursor.here
    rw [htokens]
    cases c'.tokens with
    | nil => exact Nat.le_of_eq hlast.symm
    | cons t rest => exact Nat.le_refl _
  | cons t read => exact Nat.le_trans (Nat.le_of_lt (s.here_lt_last hin hread)) hle

/-- The text from the next token to the end of the last token that has been read. -/
theorem Source.exists_slice (hin : Within s.tokens c) (h : c.Reaches c')
    (hlt : c.here < c'.last) :
    c'.rangeSince c.position = ⟨c.here, c'.last⟩ ∧
      ∃ inside, slice? s.chars c.here c'.last = some inside := by
  obtain ⟨read, hread⟩ := h
  have hle := s.last_le_here hin
  obtain _ | ⟨t, read⟩ := read
  · have hlast : c'.last = c.last := hread.last
    omega
  · have hposition : c.position = c.here := by
      rw [Cursor.position, Cursor.here, hread.tokens]
      rfl
    obtain ⟨before, inside, after, doc, haround, hstop, -⟩ :=
      exists_around s.tokenized hin hread (List.cons_ne_nil _ _) rfl
    refine ⟨?_, inside, ?_⟩
    · rw [Cursor.rangeSince, hposition, Nat.max_eq_left (Nat.le_of_lt hlt)]
    · rw [hstop, ← hposition]
      exact haround.slice?

theorem Cursor.lastStop_mem {read : List Token} (hne : read ≠ []) (last : Nat) :
    ∃ t ∈ read, t.range.stop = lastStop last read := by
  obtain rfl | ⟨init, t, rfl⟩ := List.eq_nil_or_concat read
  · exact absurd rfl hne
  · rw [List.concat_eq_append, lastStop_concat]
    exact ⟨t, by simp, rfl⟩

/-- What has been read starts with a token and ends with one. -/
theorem Source.onTokens (hin : Within s.tokens c) (h : c.Reaches c') (hlt : c.here < c'.last) :
    OffsetRange.OnTokens s.tokens ⟨c.here, c'.last⟩ := by
  have hle := s.last_le_here hin
  obtain ⟨front, hfront, -⟩ := hin
  obtain ⟨read, hread⟩ := h
  obtain _ | ⟨t, read⟩ := read
  · have hlast : c'.last = c.last := hread.last
    omega
  · have hmem {u : Token} (hu : u ∈ t :: read) : u ∈ s.tokens := by
      rw [hfront, hread.tokens]
      exact List.mem_append_right _ (List.mem_append_left _ hu)
    obtain ⟨u, hu, hstop⟩ := Cursor.lastStop_mem (List.cons_ne_nil t read) c.last
    refine ⟨⟨t, hmem (.head _), ?_⟩, u, hmem hu, hstop.trans hread.last.symm⟩
    rw [Cursor.here, hread.tokens]
    rfl

/-! ## Parts between cursors -/

/-- From the first cursor to the second one the parts have been read, one behind the other, each
from a token to a token, and the nodes in them have got their identities. -/
structure Laid (s : Source) (c : Cursor) (ps : List Part) (c' : Cursor) : Prop where
  within : Within s.tokens c
  reaches : c.Reaches c'
  between : Part.Between s.chars c.here ps c'.last
  onTokens : ∀ p ∈ ps, p.OnTokens s.tokens
  numbered : Numbered c.fresh (ps.flatMap Part.nodes) c'.fresh

namespace Laid

variable {ps qs : List Part} {p : Part}

theorem nil (hin : Within s.tokens c) (h : c.Reaches c') : Laid s c [] c' :=
  ⟨hin, h, .nil, List.forall_mem_nil _, .nil⟩

/-- The second cursor is at some place in the text as well. -/
theorem right (h : Laid s c ps c') : Within s.tokens c' := h.within.reaches h.reaches

theorem append (h : Laid s c ps c') (h' : Laid s c' qs c'') : Laid s c (ps ++ qs) c'' := by
  refine ⟨h.within, h.reaches.trans h'.reaches,
    h.between.append h'.between (s.last_le_here h.right) (s.here_le h.within h.reaches)
      (s.last_le h.right h'.reaches), List.forall_mem_append.2 ⟨h.onTokens, h'.onTokens⟩, ?_⟩
  rw [List.flatMap_append]
  exact h.numbered.append h'.numbered h.reaches.fresh_le h'.reaches.fresh_le

/-- Tokens behind the parts are passed over. -/
theorem reach (h : Laid s c ps c') (h' : c'.Reaches c'') : Laid s c ps c'' :=
  ⟨h.within, h.reaches.trans h', h.between.mono (Nat.le_refl _) (s.last_le h.right h'),
    h.onTokens, h.numbered.mono (Nat.le_refl _) h'.fresh_le⟩

/-- Tokens in front of the parts are passed over. -/
theorem skip (h : c.Reaches c') (hin : Within s.tokens c) (h' : Laid s c' ps c'') :
    Laid s c ps c'' :=
  (nil hin h).append h'

theorem renew (h : Laid s c ps c') : Laid s c ps c'.renew := h.reach c'.reaches_renew

theorem advance (h : Laid s c ps c') : Laid s c ps c'.advance := h.reach c'.reaches_advance

theorem lt (h : Laid s c ps c') (hne : ps ≠ []) : c.here < c'.last := h.between.lt hne

/-- What starts with the first token that has been read and ends with the last one is well nested
around the parts. -/
theorem enclosed (h : Laid s c p.parts c') (hlt : c.here < c'.last) (hname : p.name? = none)
    (hrange : p.range = c'.rangeSince c.position) (hinteger : p.IntegerIn s.tokens) :
    Part.Between s.chars c.here [p] c'.last ∧ p.OnTokens s.tokens := by
  obtain ⟨hspan, hslice⟩ := s.exists_slice h.within h.reaches hlt
  rw [hspan] at hrange
  refine ⟨?_, .mk (by rw [hrange]; exact s.onTokens h.within h.reaches hlt) hinteger h.onTokens⟩
  have hnested : p.WellNested s.chars :=
    Part.Between.node (by rw [hrange]; exact h.between) (by rw [hrange]; exact hlt) hname
      (by rw [hrange]; exact hslice)
  have hbetween := Part.Between.singleton hnested
  rwa [hrange] at hbetween

/-- A list or a block around parts, which is no node. -/
theorem close (h : Laid s c p.parts c') (hlt : c.here < c'.last) (hname : p.name? = none)
    (hnode : p.syntaxNode? = none) (hrange : p.range = c'.rangeSince c.position) :
    Laid s c [p] c' := by
  have hinteger : p.integer? = none := by
    cases p with
    | expr e => cases hnode
    | _ => rfl
  obtain ⟨hbetween, htokens⟩ := h.enclosed hlt hname hrange (Part.integerIn_of_none hinteger)
  refine ⟨h.within, h.reaches, hbetween, List.forall_mem_singleton.2 htokens, h.numbered.perm ?_⟩
  simpa [hnode] using p.nodes_perm

/-- The parts of what has been read. -/
theorem parts (h : Laid s c [p] c') : Laid s c p.parts c' := by
  refine ⟨h.within, h.reaches, (h.between.wellNested p (.head _)).between.mono
    (h.between.start p (.head _)) (h.between.stop p (.head _)),
    fun _ hq => (h.onTokens p (.head _)).part hq, ?_⟩
  have hnumbered : Numbered c.fresh p.nodes c'.fresh := by simpa using h.numbered
  exact (hnumbered.perm p.nodes_perm.symm).sublist (List.sublist_append_right _ _)

/-- A new node around parts. -/
theorem node (h : Laid s c p.parts c') (hlt : c.here < c'.last)
    (hnode : p.node? = some ⟨c'.fresh, c'.rangeSince c.position⟩)
    (hinteger : p.IntegerIn s.tokens) : Laid s c [p] c'.renew := by
  obtain ⟨hbetween, htokens⟩ :=
    h.enclosed hlt (Part.name?_of_node? hnode) (Part.range_of_node? hnode) hinteger
  refine ⟨h.within, h.reaches.trans c'.reaches_renew, hbetween,
    List.forall_mem_singleton.2 htokens, ?_⟩
  obtain ⟨n, hn, hid⟩ := Option.map_eq_some_iff.1 hnode
  have hperm := p.nodes_perm
  rw [hn] at hperm
  simpa using (h.numbered.cons (congrArg Node.id hid) h.reaches.fresh_le).perm hperm

/-- A new node around some part. -/
theorem parent (h : Laid s c p.parts c') (hne : p.parts ≠ [])
    (hnode : p.node? = some ⟨c'.fresh, c'.rangeSince c.position⟩) : Laid s c [p] c'.renew :=
  h.node (h.lt hne) hnode (Part.integerIn_of_none (Part.integer?_eq_none hne))

end Laid

/-- The parser reads the given parts of what it gives. -/
def Lays (s : Source) {α : Type} (p : Parser α) (parts : α → List Part) : Prop :=
  ∀ ⦃c a c'⦄, Within s.tokens c → Runs p c a c' → Laid s c (parts a) c'

/-! ## Single tokens -/

theorem here_lt_advance {k : TokenKind} (hin : Within s.tokens c) (h : c.head = k)
    (hk : k ≠ .endOfText) : c.here < c.advance.last := by
  obtain ⟨t, -, hread⟩ := exists_reads_advance h hk
  exact s.here_lt_last hin hread

/-- A token has been read in front of what follows. -/
theorem here_lt_of_advance {k : TokenKind} (hin : Within s.tokens c) (h : c.head = k)
    (hk : k ≠ .endOfText) (h' : c.advance.Reaches c') : c.here < c'.last :=
  Nat.lt_of_lt_of_le (here_lt_advance hin h hk)
    (s.last_le (hin.reaches c.reaches_advance) h')

theorem identifier_lays : Lays s identifier fun i => [.ident i] := by
  intro c i c' hin h
  obtain ⟨rfl, doc, rest, htokens⟩ := runs_identifier.1 h
  obtain ⟨front, hfront, -⟩ := id hin
  obtain ⟨before, spelling, after, hcs, hstart, hspelled, -, -⟩ :=
    exists_spelledBy (s.tokenized.trans (by rw [hfront, htokens]))
  obtain ⟨-, hspelling, -⟩ := hspelled.word rfl
  have hslice : slice? s.chars i.range.start i.range.stop = some spelling :=
    slice?_eq_some_iff.2 ⟨before, after, hcs, by simpa using hstart.symm, hspelled.stop.symm⟩
  have hnested : (Part.ident i).WellNested s.chars := by
    refine .mk ⟨hspelled.lt, ⟨spelling, hslice, ?_⟩, List.forall_mem_nil _, .nil⟩
      (List.forall_mem_nil _)
    rintro w ⟨⟩
    exact hspelling
  have hhere : c.here = i.range.start := by rw [Cursor.here, htokens]
  have hlast : c.advance.last = i.range.stop := by rw [Cursor.advance, htokens]
  have hon := s.onTokens hin c.reaches_advance (by rw [hhere, hlast]; exact hspelled.lt)
  rw [hhere, hlast] at hon
  refine ⟨hin, c.reaches_advance, ?_, List.forall_mem_singleton.2
    (.mk hon (Part.integerIn_of_none rfl) (List.forall_mem_nil _)), .nil⟩
  rw [hhere, hlast]
  exact .singleton hnested

/-! ## Lists -/

variable {α : Type} {item : Parser α} {part : α → Part}

theorem itemsUntil_lays {close : Punct} (hitem : Lays s item fun a => [part a]) (rounds : Nat) :
    Lays s (itemsUntil close item rounds) fun as => as.map part := by
  induction rounds with
  | zero =>
    intro c as c' hin h
    simp [itemsUntil] at h
  | succ rounds ih =>
    intro c as c' hin h
    simp only [itemsUntil, runs_bind, runs_ite] at h
    simp at h
    obtain ⟨-, -, a, c₁, ha, as', has, rfl⟩ | ⟨⟨-, rfl⟩, rfl⟩ := h
    · have hfirst := hitem hin ha
      exact hfirst.append (ih hfirst.right has)
    · exact .nil hin c.reaches_advance

theorem untilMark_lays (close : Punct) (hitem : Lays s item fun a => [part a]) :
    Lays s (untilMark close item) fun as => as.map part := by
  intro c as c' hin h
  simp only [untilMark, runs_bind, runs_bound] at h
  obtain ⟨n, c₁, ⟨rfl, rfl⟩, h⟩ := h
  exact itemsUntil_lays hitem _ hin h

theorem itemsByComma_lays (hitem : Lays s item fun a => [part a]) (rounds : Nat) :
    Lays s (itemsByComma item rounds) fun as => as.map part := by
  induction rounds with
  | zero =>
    intro c as c' hin h
    simp [itemsByComma] at h
  | succ rounds ih =>
    intro c as c' hin h
    simp [itemsByComma] at h
    obtain ⟨a, c₁, ha, ⟨⟨-, rfl⟩, rfl⟩ | ⟨-, as', has, rfl⟩⟩ := h
    · exact hitem hin ha
    · have hfirst := (hitem hin ha).advance
      exact hfirst.append (ih hfirst.right has)

theorem byComma_lays (hitem : Lays s item fun a => [part a]) :
    Lays s (byComma item) fun as => as.map part := by
  intro c as c' hin h
  simp only [byComma, runs_bind, runs_bound] at h
  obtain ⟨n, c₁, ⟨rfl, rfl⟩, h⟩ := h
  exact itemsByComma_lays hitem _ hin h

/-- The parentheses are tokens even if there is nothing between them. -/
theorem inParens_lays (hitem : Lays s item fun a => [part a]) {as : List α}
    (hin : Within s.tokens c) (h : Runs (inParens item) c as c') :
    Laid s c (as.map part) c' ∧ c.here < c'.last := by
  simp [inParens] at h
  obtain ⟨hopen, h⟩ := h
  have hbegin := Laid.nil hin c.reaches_advance
  suffices hlaid : Laid s c.advance (as.map part) c' from
    ⟨hbegin.append hlaid, here_lt_of_advance hin hopen (by simp) hlaid.reaches⟩
  obtain ⟨-, ⟨-, rfl⟩, rfl⟩ | ⟨-, c₁, has, -, rfl⟩ := h
  · exact .nil hbegin.right (Cursor.reaches_advance _)
  · exact (byComma_lays hitem hbegin.right has).advance

end Grammar

end PropertyLint
