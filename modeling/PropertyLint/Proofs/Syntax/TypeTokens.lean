/-
# The tokens of a type

Which tokens a type consists of can be told by going over them once with a depth and a mode: after a
name, brackets, a question mark, a dot or type arguments may come, but never another name.  So a
type that is followed by a name ends at a place that its tokens alone determine:

* `type_reads` : the tokens that the parser of types passes over are accepted;
* `TypeState.unique` : one list of tokens has at most one accepted part in front of a word.
-/
import PropertyLint.Proofs.Syntax.Reading

namespace PropertyLint

/-! ## Going over tokens -/

/-- What may come next in a type. -/
inductive TypeMode where
  /-- A name. -/
  | name
  /-- Anything that may stand behind a name, or the end. -/
  | suffix
  /-- A closing bracket. -/
  | bracket
deriving DecidableEq, Repr

/-- How far a type has been read; `depth` counts the open lists of type arguments. -/
structure TypeState where
  depth : Nat
  mode : TypeMode
deriving DecidableEq, Repr

namespace TypeState

/-- The state before a type. -/
def start : TypeState := ⟨0, .name⟩

/-- The state behind a type. -/
def done : TypeState := ⟨0, .suffix⟩

/-- One token further. -/
def step : TypeState → TokenKind → Option TypeState
  | ⟨depth, .name⟩, .word _ => some ⟨depth, .suffix⟩
  | ⟨depth, .suffix⟩, .punct .dot => some ⟨depth, .name⟩
  | ⟨depth, .suffix⟩, .punct .question => some ⟨depth, .suffix⟩
  | ⟨depth, .suffix⟩, .punct .openBracket => some ⟨depth, .bracket⟩
  | ⟨depth, .bracket⟩, .punct .closeBracket => some ⟨depth, .suffix⟩
  | ⟨depth, .suffix⟩, .punct .less => some ⟨depth + 1, .name⟩
  | ⟨depth + 1, .suffix⟩, .punct .comma => some ⟨depth + 1, .name⟩
  | ⟨depth + 1, .suffix⟩, .punct .greater => some ⟨depth, .suffix⟩
  | _, _ => none

/-- The state behind tokens of the given kinds. -/
def run (s : TypeState) (kinds : List TokenKind) : Option TypeState := kinds.foldlM step s

@[simp] theorem run_nil (s : TypeState) : s.run [] = some s := rfl

@[simp] theorem run_cons (s : TypeState) (k : TokenKind) (kinds : List TokenKind) :
    s.run (k :: kinds) = (s.step k).bind fun s' => s'.run kinds := rfl

theorem run_append (s : TypeState) (kinds more : List TokenKind) :
    s.run (kinds ++ more) = (s.run kinds).bind fun s' => s'.run more := by
  unfold run
  rw [List.foldlM_append]
  rfl

theorem run_done_of_step {k : TokenKind} (hk : done.step k = none) (kinds : List TokenKind) :
    done.run (k :: kinds) = none := by
  rw [run_cons, hk, Option.bind_none]

/-- **One end.**  Of two types that the same tokens start with, both in front of a token that cannot
be part of a type behind its last name, neither is longer than the other. -/
theorem unique {us vs rest rest' : List TokenKind} {k k' : TokenKind}
    (h : us ++ k :: rest = vs ++ k' :: rest') (hk : done.step k = none) (hk' : done.step k' = none)
    (hus : start.run us = some done) (hvs : start.run vs = some done) : us = vs := by
  rcases List.append_eq_append_iff.1 h with ⟨mid, rfl, hmid⟩ | ⟨mid, rfl, hmid⟩
  · obtain _ | ⟨j, mid⟩ := mid
    · rw [List.append_nil]
    · rw [List.cons_append, List.cons.injEq] at hmid
      rw [run_append, hus, Option.bind_some, ← hmid.1, run_done_of_step hk] at hvs
      exact absurd hvs (by simp)
  · obtain _ | ⟨j, mid⟩ := mid
    · rw [List.append_nil]
    · rw [List.cons_append, List.cons.injEq] at hmid
      rw [run_append, hvs, Option.bind_some, ← hmid.1, run_done_of_step hk'] at hus
      exact absurd hus (by simp)

/-- From the state on, the tokens never come to the end of a type with a word behind it. -/
def Stops : TypeState → List TokenKind → Prop
  | _, [] => True
  | s, k :: kinds =>
    (s = done → ∀ w, k ≠ .word w) ∧ ∀ s', s.step k = some s' → s'.Stops kinds

theorem Stops.ne_done {s : TypeState} {us rest : List TokenKind} {w : String}
    (h : s.Stops (us ++ .word w :: rest)) : s.run us ≠ some done := by
  induction us generalizing s with
  | nil =>
    rw [run_nil]
    intro hs
    exact h.1 (Option.some.inj hs) w rfl
  | cons k us ih =>
    rw [run_cons]
    cases hstep : s.step k with
    | none => simp
    | some s' => exact ih (h.2 s' hstep)

/-- Behind a type that is not followed by a word, no type in front of a word ends. -/
theorem not_followed {us vs rest rest' : List TokenKind} {w : String}
    (h : us ++ rest = vs ++ .word w :: rest') (hus : start.run us = some done)
    (hrest : done.Stops rest) : start.run vs ≠ some done := by
  intro hvs
  rcases List.append_eq_append_iff.1 h with ⟨mid, rfl, hmid⟩ | ⟨mid, rfl, hmid⟩
  · rw [run_append, hus, Option.bind_some] at hvs
    exact (hmid ▸ hrest).ne_done hvs
  · obtain _ | ⟨k, mid⟩ := mid
    · obtain rfl : .word w :: rest' = rest := hmid
      exact hrest.1 rfl w rfl
    · rw [List.cons_append, List.cons.injEq] at hmid
      rw [run_append, hvs, Option.bind_some, ← hmid.1, run_done_of_step rfl] at hus
      exact absurd hus (by simp)

end TypeState

namespace Grammar

variable {α : Type} {c c' : Cursor}

/-! ## What the parser of types passes over -/

/-- The tokens that the parser passes over lead from one mode to the other, at any depth from
`least` on. -/
def Spells (least : Nat) (m m' : TypeMode) (p : Parser α) : Prop :=
  ∀ ⦃c a c'⦄, Runs p c a c' → ∃ read, c.Reads read c' ∧
    ∀ depth, least ≤ depth →
      TypeState.run ⟨depth, m⟩ (read.map Token.kind) = some ⟨depth, m'⟩

theorem itemsByComma_spells {typeArg : Parser α} (harg : Spells 0 .name .suffix typeArg)
    (rounds : Nat) : Spells 1 .name .suffix (itemsByComma typeArg rounds) := by
  induction rounds with
  | zero =>
    intro c as c' h
    simp [itemsByComma] at h
  | succ rounds ih =>
    intro c as c' h
    simp [itemsByComma] at h
    obtain ⟨a, c₁, hfirst, ⟨⟨-, rfl⟩, -⟩ | ⟨hcomma, as', hrest, -⟩⟩ := h
    · obtain ⟨read, hread, hrun⟩ := harg hfirst
      exact ⟨read, hread, fun depth _ => hrun depth (Nat.zero_le _)⟩
    · obtain ⟨read, hread, hrun⟩ := harg hfirst
      obtain ⟨t, ht, htread⟩ := exists_reads_advance hcomma (by simp)
      obtain ⟨more, hmore, hrun'⟩ := ih hrest
      refine ⟨read ++ ([t] ++ more), hread.trans (htread.trans hmore), ?_⟩
      intro depth hdepth
      -- a comma is part of a type only inside of type arguments
      obtain ⟨n, rfl⟩ : ∃ n, depth = n + 1 := ⟨depth - 1, by omega⟩
      rw [List.map_append, TypeState.run_append, hrun _ (Nat.zero_le _)]
      simpa [ht, TypeState.step] using hrun' (n + 1) hdepth

theorem nameSegment_spells {typeArg : Parser TypeRef} (harg : Spells 0 .name .suffix typeArg) :
    Spells 0 .name .suffix (nameSegment typeArg) := by
  intro c s c' h
  simp [nameSegment] at h
  obtain ⟨i, c₁, hname, ⟨⟨-, rfl⟩, -⟩ | ⟨hless, args, c₂, hargs, ⟨hgreater, rfl⟩, -⟩⟩ := h
  · obtain ⟨t, ht, -, htread⟩ := exists_reads_identifier hname
    exact ⟨[t], htread, fun depth _ => by simp [ht, TypeState.step]⟩
  · obtain ⟨t, ht, -, htread⟩ := exists_reads_identifier hname
    obtain ⟨u, hu, huread⟩ := exists_reads_advance hless (by simp)
    simp only [byComma, runs_bind, runs_bound] at hargs
    obtain ⟨n, c₃, ⟨rfl, rfl⟩, hargs⟩ := hargs
    obtain ⟨read, hread, hrun⟩ := itemsByComma_spells harg _ hargs
    obtain ⟨v, hv, hvread⟩ := exists_reads_advance hgreater (by simp)
    refine ⟨[t, u] ++ (read ++ [v]), (htread.trans huread).trans (hread.trans hvread), ?_⟩
    intro depth _
    have hinner := hrun (depth + 1) (by omega)
    simp [ht, hu, hv, TypeState.step, TypeState.run_append, hinner]

theorem nameSegments_spells {typeArg : Parser TypeRef} (harg : Spells 0 .name .suffix typeArg)
    (rounds : Nat) : Spells 0 .name .suffix (nameSegments typeArg rounds) := by
  induction rounds with
  | zero =>
    intro c ss c' h
    simp [nameSegments] at h
  | succ rounds ih =>
    intro c ss c' h
    simp [nameSegments, atDottedWord] at h
    obtain ⟨s, c₁, hfirst, h⟩ := h
    obtain ⟨read, hread, hrun⟩ := nameSegment_spells harg hfirst
    obtain ⟨⟨hdot, -⟩, ss', hrest, -⟩ | ⟨-, -, rfl⟩ := h
    · obtain ⟨t, ht, htread⟩ := exists_reads_advance hdot (by simp)
      obtain ⟨more, hmore, hrun'⟩ := ih hrest
      refine ⟨read ++ ([t] ++ more), hread.trans (htread.trans hmore), ?_⟩
      intro depth hdepth
      simp [TypeState.run_append, hrun depth hdepth, ht, TypeState.step, hrun' depth hdepth]
    · exact ⟨read, hread, hrun⟩

@[simp] theorem runs_nullableHere {place : TypePlace} {b : Bool} :
    Runs (nullableHere place) c b c' ↔
      c = c' ∧ (place == .declaration ||
        expressionEnds.any fun p => c.second == .punct p) = b := by
  cases place with
  | declaration => simp [nullableHere, and_comm]
  | expression =>
    rw [show (TypePlace.expression == TypePlace.declaration) = false from rfl, Bool.false_or]
    simp [nullableHere]

theorem typeSuffixes_spells (place : TypePlace) (start rounds : Nat) (type : TypeRef) :
    Spells 0 .suffix .suffix (typeSuffixes place start rounds type) := by
  induction rounds generalizing type with
  | zero =>
    intro c t c' h
    simp [typeSuffixes] at h
  | succ rounds ih =>
    intro c t c' h
    simp [typeSuffixes] at h
    obtain ⟨⟨hopen, hclose⟩, h⟩ | ⟨-, ⟨⟨hquestion, -⟩, h⟩ | ⟨-, -, rfl⟩⟩ := h
    · obtain ⟨u, hu, huread⟩ := exists_reads_advance hopen (by simp)
      obtain ⟨v, hv, hvread⟩ := exists_reads_advance (c.advance_head.trans hclose) (by simp)
      obtain ⟨read, hread, hrun⟩ := ih _ h
      refine ⟨[u] ++ ([v] ++ read), huread.trans (hvread.trans hread.of_renew), ?_⟩
      intro depth hdepth
      simp [hu, hv, TypeState.step, hrun depth hdepth]
    · obtain ⟨u, hu, huread⟩ := exists_reads_advance hquestion (by simp)
      obtain ⟨read, hread, hrun⟩ := ih _ h
      refine ⟨[u] ++ read, huread.trans hread.of_renew, ?_⟩
      intro depth hdepth
      simp [hu, TypeState.step, hrun depth hdepth]
    · exact ⟨[], .refl c, fun depth _ => rfl⟩

/-- The range of the type is what has been read. -/
theorem range_of_typeSuffixes {place : TypePlace} {start rounds : Nat} {type t : TypeRef}
    (h : Runs (typeSuffixes place start rounds type) c t c')
    (hrange : type.range = c.rangeSince start) : t.range = c'.rangeSince start := by
  induction rounds generalizing type c with
  | zero => simp [typeSuffixes] at h
  | succ rounds ih =>
    simp [typeSuffixes] at h
    obtain ⟨-, h⟩ | ⟨-, ⟨-, h⟩ | ⟨-, rfl, rfl⟩⟩ := h
    · exact ih h rfl
    · exact ih h rfl
    · exact hrange

/-- What is known of a parser of types. -/
structure ReadsType (p : Parser TypeRef) : Prop where
  spells : Spells 0 .name .suffix p
  range : ∀ ⦃c t c'⦄, Runs p c t c' → t.range = c'.rangeSince c.position

theorem typeWith_reads {typeArg : Parser TypeRef} (harg : ReadsType typeArg) (place : TypePlace) :
    ReadsType (typeWith typeArg place) := by
  -- a keyword or a dotted name, and what stands behind it
  have hstep {c c' : Cursor} {t : TypeRef} (h : Runs (typeWith typeArg place) c t c') :
      ∃ c₁ type, Runs (typeSuffixes place c.position (c₁.tokens.length + 1) type) c₁.renew t c' ∧
        type.range = c₁.rangeSince c.position ∧
        ∃ read, c.Reads read c₁ ∧ ∀ depth,
          TypeState.run ⟨depth, .name⟩ (read.map Token.kind) = some ⟨depth, .suffix⟩ := by
    cases hhead : c.head with
    | word w =>
      cases hkeyword : KeywordType.ofKeyword? w with
      | some k =>
        simp [typeWith, hhead, hkeyword] at h
        obtain ⟨u, hu, huread⟩ := exists_reads_advance hhead (by simp)
        exact ⟨c.advance, _, h, rfl, [u], huread, fun depth => by simp [hu, TypeState.step]⟩
      | none =>
        simp [typeWith, hhead, hkeyword] at h
        obtain ⟨segments, c₁, hsegments, h⟩ := h
        obtain ⟨read, hread, hrun⟩ := nameSegments_spells harg.spells _ hsegments
        exact ⟨c₁, _, h, rfl, read, hread, fun depth => hrun depth (Nat.zero_le _)⟩
    | _ => simp [typeWith, hhead] at h
  refine ⟨?_, ?_⟩
  · intro c t c' h
    obtain ⟨c₁, type, hsuffixes, -, read, hread, hrun⟩ := hstep h
    obtain ⟨more, hmore, hrun'⟩ := typeSuffixes_spells _ _ _ _ hsuffixes
    refine ⟨read ++ more, hread.trans hmore.of_renew, ?_⟩
    intro depth hdepth
    rw [List.map_append, TypeState.run_append, hrun, Option.bind_some, hrun' depth hdepth]
  · intro c t c' h
    obtain ⟨c₁, type, hsuffixes, hrange, -⟩ := hstep h
    exact range_of_typeSuffixes hsuffixes hrange

theorem typeToDepth_reads (depth : Nat) (place : TypePlace) :
    ReadsType (typeToDepth depth place) := by
  induction depth generalizing place with
  | zero => exact ⟨fun c t c' h => by simp [typeToDepth] at h, fun c t c' h => by
      simp [typeToDepth] at h⟩
  | succ depth ih => exact typeWith_reads (ih .declaration) place

/-- The tokens that the parser of types passes over are accepted, and the type has their range. -/
theorem type_reads {place : TypePlace} {t : TypeRef} (h : Runs (type place) c t c') :
    (∃ read, c.Reads read c' ∧ TypeState.start.run (read.map Token.kind) = some .done) ∧
      t.range = c'.rangeSince c.position := by
  simp only [type, runs_bind, runs_bound] at h
  obtain ⟨n, c₁, ⟨rfl, rfl⟩, h⟩ := h
  have hreads := typeToDepth_reads (c.tokens.length + 1) place
  obtain ⟨read, hread, hrun⟩ := hreads.spells h
  exact ⟨⟨read, hread, hrun 0 (Nat.zero_le _)⟩, hreads.range h⟩

@[grind →]
theorem reaches_of_type {place : TypePlace} {t : TypeRef} (h : Runs (type place) c t c') :
    c.Reaches c' := by
  obtain ⟨⟨read, hread, -⟩, -⟩ := type_reads h
  exact ⟨read, hread⟩

end Grammar

end PropertyLint
