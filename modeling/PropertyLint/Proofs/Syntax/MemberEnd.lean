/-
# The last character of a member

Members end with a semicolon or with a closing brace (`compilationUnit_closes`), so the last
character of one takes a single byte, and the offset in front of its end is a character boundary
(`SyntaxTree.exists_fullPlace`).
-/
import PropertyLint.Proofs.Syntax.DocComment
import PropertyLint.Proofs.Syntax.Layout
import PropertyLint.Proofs.Syntax.Onward

namespace PropertyLint

namespace Grammar

variable {α β γ : Type} {c c' c'' : Cursor} {tokens : List Token} {l : Leading}

/-! ## The last token -/

/-- The token is a semicolon or a closing brace. -/
def Closes (t : Token) : Prop := t.kind = .punct .semicolon ∨ t.kind = .punct .closeBrace

/-- What has been read between the two cursors ends with a semicolon or a closing brace. -/
def ReadsClosing (c c' : Cursor) : Prop := ∃ read t, c.Reads (read ++ [t]) c' ∧ Closes t

theorem ReadsClosing.behind (h : ReadsClosing c' c'') (h₁ : c.Reaches c') : ReadsClosing c c'' := by
  obtain ⟨read, t, hread, ht⟩ := h
  obtain ⟨more, hmore⟩ := h₁
  exact ⟨more ++ read, t, by rw [List.append_assoc]; exact hmore.trans hread, ht⟩

theorem ReadsClosing.reaches (h : ReadsClosing c c') : c.Reaches c' := by
  obtain ⟨read, t, hread, -⟩ := h
  exact ⟨_, hread⟩

/-- Nothing more is read. -/
theorem ReadsClosing.rest (h : ReadsClosing c c') (h' : c'.Reads [] c'') : ReadsClosing c c'' := by
  obtain ⟨read, t, hread, ht⟩ := h
  exact ⟨read, t, by simpa using hread.trans h', ht⟩

theorem readsClosing_advance
    (h : c.head = .punct .semicolon ∨ c.head = .punct .closeBrace) : ReadsClosing c c.advance := by
  obtain h | h := h
  · obtain ⟨t, ht, hread⟩ := exists_reads_advance h (by simp)
    exact ⟨[], t, hread, .inl ht⟩
  · obtain ⟨t, ht, hread⟩ := exists_reads_advance h (by simp)
    exact ⟨[], t, hread, .inr ht⟩

/-- The parser reads no token. -/
def Still (p : Parser α) : Prop := ∀ ⦃c a c'⦄, Runs p c a c' → c.Reads [] c'

theorem Still.pure (a : α) : Still (Pure.pure a : Parser α) := by
  intro c b c' h
  obtain ⟨-, rfl⟩ := runs_pure.1 h
  exact .refl c

theorem Still.bind {p : Parser α} {k : α → Parser β} (hp : Still p) (hk : ∀ a, Still (k a)) :
    Still (p >>= k) := by
  intro c b c' h
  obtain ⟨a, c₁, ha, hb⟩ := runs_bind.1 h
  exact (hp ha).trans (hk a hb)

theorem rangeFrom_still (start : Nat) : Still (rangeFrom start) := by
  intro c r c' h
  obtain ⟨rfl, -⟩ := runs_rangeFrom.1 h
  exact .refl c

/-- The parser ends with a semicolon or a closing brace. -/
def Closing (p : Parser α) : Prop := ∀ ⦃c a c'⦄, Runs p c a c' → ReadsClosing c c'

namespace Closing

variable {p q : Parser α} {k : α → Parser β}

theorem next [hp : Onward p] (hk : ∀ a, Closing (k a)) : Closing (p >>= k) := by
  intro c b c' h
  obtain ⟨a, c₁, ha, hb⟩ := runs_bind.1 h
  exact (hk a hb).behind (hp.moves ha)

theorem last (hp : Closing p) (hk : ∀ a, Still (k a)) : Closing (p >>= k) := by
  intro c b c' h
  obtain ⟨a, c₁, ha, hb⟩ := runs_bind.1 h
  exact (hp ha).rest (hk a hb)

theorem ite {P : Prop} [Decidable P] (hp : Closing p) (hq : Closing q) :
    Closing (if P then p else q) := by
  split
  · exact hp
  · exact hq

theorem expectMark {m : Punct} (hm : m = .semicolon ∨ m = .closeBrace) :
    Closing (Grammar.expectMark m) := by
  intro c u c' h
  obtain ⟨hhead, rfl⟩ := runs_expectMark.1 h
  refine readsClosing_advance ?_
  obtain rfl | rfl := hm
  · exact .inl hhead
  · exact .inr hhead

theorem itemsUntil [hp : Onward p] (rounds : Nat) : Closing (itemsUntil .closeBrace p rounds) := by
  induction rounds with
  | zero =>
    intro c as c' h
    simp [Grammar.itemsUntil] at h
  | succ rounds ih =>
    intro c as c' h
    simp only [Grammar.itemsUntil, runs_bind, runs_ite] at h
    simp at h
    obtain ⟨-, -, a, c₁, ha, as', has, rfl⟩ | ⟨⟨hclose, rfl⟩, rfl⟩ := h
    · exact (ih has).behind (hp.moves ha)
    · exact readsClosing_advance (.inr hclose)

theorem untilMark [Onward p] : Closing (untilMark .closeBrace p) := next fun _ => itemsUntil _

theorem block : Closing block :=
  next fun _ => next fun _ => next fun _ => untilMark.last fun _ =>
    (rangeFrom_still _).bind fun _ => .pure _

theorem semicolon (make : Unit → α) :
    Closing (Grammar.expectMark .semicolon >>= fun u => pure (make u)) :=
  last (expectMark (.inl rfl)) fun _ => .pure _

theorem body : Closing body := by
  refine next fun _ => ite (block.last fun _ => .pure _) (next fun _ => ite ?_ ?_)
  · exact next fun _ => semicolon _
  · exact semicolon _

end Closing

/-! ## Where declarations end -/

/-- What the parser reads is a declaration that ends with the last token, a semicolon or a closing
brace. -/
def Declares (header : α → DeclHeader) (p : Parser α) : Prop :=
  ∀ ⦃c a c'⦄, Runs p c a c' →
    ReadsClosing c c' ∧ (header a).node.range.stop = max c'.last (header a).node.range.start

namespace Declares

variable {header : β → DeclHeader} {p q : Parser β} {x : Parser α} {k : α → Parser β}

theorem next [hx : Onward x] (hk : ∀ a, Declares header (k a)) : Declares header (x >>= k) := by
  intro c b c' h
  obtain ⟨a, c₁, ha, hb⟩ := runs_bind.1 h
  exact (hk a hb).imp_left fun hread => hread.behind (hx.moves ha)

theorem ite {P : Prop} [Decidable P] (hp : Declares header p) (hq : Declares header q) :
    Declares header (if P then p else q) := by
  split
  · exact hp
  · exact hq

theorem map {header' : γ → DeclHeader} {f : β → γ} (hp : Declares header p)
    (hf : ∀ b, header' (f b) = header b) : Declares header' (p >>= fun b => pure (f b)) := by
  intro c b c' h
  obtain ⟨a, c₁, ha, hb⟩ := runs_bind.1 h
  obtain ⟨rfl, rfl⟩ := runs_pure.1 hb
  rw [hf]
  exact hp ha

/-- The header is closed behind the mark. -/
theorem close {name : Ident} {make : α → DeclHeader → β} (hx : Closing x)
    (hmake : ∀ a h, header (make a h) = h) :
    Declares header (x >>= fun a => l.close name >>= fun h => pure (make a h)) := by
  intro c b c' h
  simp [Leading.close] at h
  obtain ⟨a, c₁, ha, rfl, rfl⟩ := h
  rw [hmake]
  exact ⟨(hx ha).rest (Cursor.Reads.refl c₁).renew, rfl⟩

end Declares

theorem field_declares (l : Leading) (t : TypeRef) (name : Ident) :
    Declares FieldDecl.toDeclHeader (field l t name) :=
  .next fun _ => .close (.expectMark (.inl rfl)) fun _ _ => rfl

theorem property_declares (l : Leading) (t : TypeRef) (name : Ident) :
    Declares PropertyDecl.toDeclHeader (property l t name) := by
  intro c d c' h
  simp [property] at h
  obtain ⟨-, -, as, c₁, has, e, c₂, he, h⟩ | ⟨-, e, c₁, he, hsemicolon, rfl, rfl⟩ := h
  · have hbrace := (Closing.untilMark has).behind c.reaches_advance
    obtain ⟨-, hsemicolon, rfl, rfl⟩ | ⟨hnone, rfl, rfl⟩ := h
    · have hvalue := (readsClosing_advance (.inl hsemicolon)).behind (reaches_of_initializer he)
      exact ⟨(hvalue.behind hbrace.reaches).rest (Cursor.Reads.refl _).renew, rfl⟩
    · -- without a value the last token is the brace behind the accessors
      simp [initializer, hnone] at he
      obtain ⟨-, rfl⟩ := he
      exact ⟨hbrace.rest (Cursor.Reads.refl _).renew, rfl⟩
  · have hvalue := (readsClosing_advance (.inl hsemicolon)).behind (reaches_of_expression he)
    exact ⟨(hvalue.behind c.reaches_advance).rest (Cursor.Reads.refl _).renew, rfl⟩

theorem method_declares (l : Leading) (t : TypeRef) (interface : Option TypeRef) (name : Ident) :
    Declares MethodDecl.toDeclHeader (method l t interface name) :=
  .next fun _ => .next fun _ => .next fun _ => .close .body fun _ _ => rfl

set_option synthInstance.maxSize 1024 in
theorem constructor_declares (l : Leading) :
    Declares ConstructorDecl.toDeclHeader (constructor_ l) := by
  unfold constructor_
  dsimp only
  refine .next fun _ => .next fun _ => .next fun _ => ?_
  split
  · refine .next fun _ => .ite (.next fun _ => ?_) (.next fun _ => ?_)
    all_goals exact .next fun _ => .close .body fun _ _ => rfl
  · exact .close .body fun _ _ => rfl

theorem memberBehind_declares (l : Leading) (t : TypeRef) (interface : Option TypeRef)
    (name : Ident) : Declares Member.header (memberBehind l t interface name) :=
  .next fun _ => .next fun _ => .ite ((method_declares _ _ _ _).map fun _ => rfl) <|
    .next fun _ => .next fun _ => .ite ((property_declares _ _ _).map fun _ => rfl)
      ((field_declares _ _ _).map fun _ => rfl)

theorem typedMember_declares (l : Leading) : Declares Member.header (typedMember l) := by
  rw [typedMember_eq]
  refine .next fun t => .next fun _ => .next fun is => ?_
  unfold namedMember
  split
  · exact .next fun _ => memberBehind_declares _ _ _ _
  · intro c m c' h
    simp at h

theorem typeBack_declares (l : Leading) (namespaceName : Option String) (f : TypeFront)
    {member : Parser Member} [Onward member] : Declares (fun d : TypeDecl => d.header.toDeclHeader)
      (untilMark .closeBrace member >>= typeBack l namespaceName f) := by
  intro c d c' h
  simp [typeBack, Leading.close] at h
  obtain ⟨ms, c₁, hms, c₂, hsemicolon, rfl, rfl⟩ := h
  have hbrace := Closing.untilMark hms
  obtain ⟨-, rfl⟩ | ⟨hhead, rfl⟩ := hsemicolon
  · exact ⟨hbrace.rest (Cursor.Reads.refl _).renew, rfl⟩
  · exact ⟨((readsClosing_advance (.inl hhead)).behind hbrace.reaches).rest
      (Cursor.Reads.refl _).renew, rfl⟩

theorem typeDeclWith_declares {member : String → Parser Member} [∀ name, Onward (member name)]
    (l : Leading) (namespaceName : Option String) :
    Declares (fun d : TypeDecl => d.header.toDeclHeader) (typeDeclWith member l namespaceName) := by
  rw [typeDeclWith_eq]
  exact .next fun f => typeBack_declares l namespaceName f

theorem typeDeclToDepth_declares (namespaceName : Option String) (depth : Nat) (l : Leading) :
    Declares (fun d : TypeDecl => d.header.toDeclHeader)
      (typeDeclToDepth namespaceName depth l) := by
  cases depth with
  | zero =>
    intro c d c' h
    simp [typeDeclToDepth] at h
  | succ depth => exact typeDeclWith_declares l namespaceName

/-- Every member ends with its last token, a semicolon or a closing brace. -/
theorem memberWith_declares (namespaceName : Option String) (depth : Nat) (typeName : String) :
    Declares Member.header (memberWith (typeDeclToDepth namespaceName depth) typeName) := by
  rw [memberWith_eq]
  refine .next fun l => .next fun _ => .ite ?_ (.next fun _ => .next fun _ => .ite ?_ ?_)
  · exact (typeDeclToDepth_declares namespaceName depth l).map fun _ => rfl
  · exact (constructor_declares l).map fun _ => rfl
  · exact typedMember_declares l

/-- A member ends with one of the tokens, which closes it. -/
def MemberCloses (tokens : List Token) (m : Member) : Prop :=
  ∃ t ∈ tokens, Closes t ∧ m.range.stop = max t.range.stop m.range.start

theorem closes_of_memberWith {namespaceName : Option String} {depth : Nat} {typeName : String}
    {m : Member} (hin : Within tokens c)
    (h : Runs (memberWith (typeDeclToDepth namespaceName depth) typeName) c m c') :
    MemberCloses tokens m := by
  obtain ⟨⟨read, t, hread, ht⟩, hstop⟩ := memberWith_declares namespaceName depth typeName h
  obtain ⟨front, rfl, -⟩ := hin
  refine ⟨t, ?_, ht, ?_⟩
  · rw [hread.tokens]
    simp
  · rw [← Cursor.lastStop_concat c.last read t, ← hread.last]
    exact hstop

/-- **Where members end.**  Every member of a file ends with a semicolon or with a closing brace. -/
theorem compilationUnit_closes {size : Nat} {u : CompilationUnit}
    (h : Runs compilationUnit ⟨tokens, 0, 0, size⟩ u c') :
    ∀ decl ∈ u.allTypes, ∀ m ∈ decl.members, MemberCloses tokens m :=
  (compilationUnit_yields (fun _ depth _ hl =>
    typeDeclToDepth_members (fun _ _ _ _ _ hin hrun => closes_of_memberWith hin hrun) depth hl)
    ⟨[], rfl, rfl⟩ h).2

end Grammar

/-! ## The last character -/

theorem Member.BeginsWith.fullRange_stop {m : Member} {t : Token} (h : m.BeginsWith t)
    (hdoc : ∀ d ∈ t.doc, d.stop ≤ t.range.start) (hle : m.range.start ≤ m.range.stop) :
    m.fullRange.stop = m.range.stop := by
  obtain ⟨hstart, hsame⟩ := h
  unfold fullRange
  rw [hsame]
  cases hd : t.doc with
  | none => rfl
  | some d =>
    have hstop := hdoc d hd
    exact Nat.max_eq_right (by omega)

namespace SyntaxTree

variable {file : FileId} {text : String} {t : SyntaxTree} {decl : TypeDecl} {m : Member}

theorem range_start_lt_stop (h : parse file text = .ok t) (hdecl : decl ∈ t.types)
    (hm : m ∈ decl.members) : m.range.start < m.range.stop := by
  have hfits := ((wellNested_of_mem_types h hdecl).part
    (List.mem_append_right _ (List.mem_map_of_mem hm) : .member m ∈ _)).fits
  exact hfits.nonempty

/-- A member ends where it ends without its doc comment. -/
theorem fullRange_stop_eq (h : parse file text = .ok t) (hdecl : decl ∈ t.types)
    (hm : m ∈ decl.members) : m.fullRange.stop = m.range.stop := by
  obtain ⟨tokens, htokens, hbegins⟩ := exists_begins h
  obtain ⟨front, u, rest, rfl, hu⟩ := hbegins decl hdecl m hm
  -- its doc comment stands in front of its first token
  obtain ⟨-, hdoc, -⟩ := (placed_of_tokenize htokens).append
  exact hu.fullRange_stop (fun d hd => (hdoc d hd).2.2)
    (Nat.le_of_lt (range_start_lt_stop h hdecl hm))

/-- A member with its doc comment stands in the text, and its last character is a semicolon or a
closing brace. -/
theorem exists_fullPlace (h : parse file text = .ok t) (hdecl : decl ∈ t.types)
    (hm : m ∈ decl.members) :
    ∃ before inside c behind, Around text.toList m.fullRange before (inside ++ [c]) behind ∧
      (c = ';' ∨ c = '\x7d') := by
  obtain ⟨-, -, tokens, c', htokens, hrun⟩ := exists_run_of_parse h
  obtain ⟨v, hv, hcloses, hstop⟩ := Grammar.compilationUnit_closes hrun decl hdecl m hm
  have hne := range_start_lt_stop h hdecl hm
  have hstop : m.range.stop = v.range.stop := by omega
  have hfull := fullRange_stop_eq h hdecl hm
  -- where the first token starts with its doc comment
  obtain ⟨before, d, after, htext, hbefore, -⟩ := visibleAt_fullRange h hdecl hm
  rw [Nat.zero_add] at hbefore
  have hle := m.fullRange_start_le
  -- where the last token ends
  obtain ⟨read, unread, rfl⟩ := List.append_of_mem hv
  obtain ⟨front', spelling, behind, htext', hstart, hspelled, -⟩ := exists_spelledBy htokens
  obtain ⟨c, rfl, hc⟩ : ∃ c, spelling = [c] ∧ (c = ';' ∨ c = '\x7d') := by
    obtain hkind | hkind := hcloses
    · exact ⟨';', (hspelled.punct hkind).1, .inl rfl⟩
    · exact ⟨'\x7d', (hspelled.punct hkind).1, .inr rfl⟩
  have hwidth : byteLength [c] = 1 := by obtain rfl | rfl := hc <;> rfl
  have hend := hspelled.stop
  rw [hwidth] at hend
  obtain ⟨inside, rfl, -⟩ := exists_between (htext.symm.trans htext') (by omega)
  refine ⟨before, inside, c, behind, ⟨?_, hbefore.symm, ?_⟩, hc⟩
  · rw [htext']
    simp
  · rw [hfull, byteLength_append, hwidth]
    rw [byteLength_append] at hstart
    omega

end SyntaxTree

end PropertyLint
