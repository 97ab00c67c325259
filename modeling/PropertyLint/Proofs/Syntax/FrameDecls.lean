/-
# Declarations on a piece of two texts

A member that the parser reads in a piece, even up to its end, is read in the other text as well,
with the same places in the piece (`memberWith_closes`).
-/
import PropertyLint.Proofs.Syntax.DocComment
import PropertyLint.Proofs.Syntax.FrameExprs
import PropertyLint.Proofs.Syntax.Outline

namespace PropertyLint.Grammar

variable {α β : Type} {c c' : Cursor}

namespace Frame

variable {F : Frame}

/-! ## Statements -/

theorem optionalExpression_tracks : F.Tracks optionalExpression optionalExpression :=
  .same (.atMark _) fun _ => .ite .done (.mapAny expression_tracks)

theorem initializer_frames :
    F.Frames (fun e e' => e.isSome = e'.isSome) initializer initializer :=
  .same (.takeMark _) fun _ => .ite (.map expression_tracks fun _ _ _ => rfl) (.pure rfl)

theorem initializer_bind {α : Type} (k : Option Expr → Parser α) :
    initializer >>= k = (do
      if ← takeMark .assign then
        let value ← expression
        k (some value)
      else k none) := by
  unfold initializer
  rw [bind_assoc]
  congr
  funext b
  cases b <;> simp

theorem initializer_tracks : F.Tracks initializer initializer :=
  initializer_frames.mono fun _ _ _ => trivial

/-- Reads the type of a local declaration behind its first word. -/
def namedType : Parser TypeRef := do
  let t ← type .declaration
  let second ← peekSecond
  unless isFreeWord (← peek) && (second == .punct .assign || second == .punct .semicolon) do
    failExpecting .identifier
  return t

theorem localType_eq : localType = (do
    unless isFreeWord (← peek) do failExpecting .type
    namedType) :=
  rfl

instance : Onward namedType where
  moves c t c' h := by
    simp [namedType] at h
    exact reaches_of_type h.1

/-- What stands behind a type decides whether it is the type of a local declaration. -/
theorem namedType_tracks : F.Tracks namedType namedType := by
  have hnamed (t t' : TypeRef) : F.Tracks
      (peekSecond >>= fun second => peek >>= fun next =>
        if (isFreeWord next && (second == .punct .assign || second == .punct .semicolon)) = true
        then pure t else failExpecting .identifier >>= fun _ : Unit => pure t)
      (peekSecond >>= fun second => peek >>= fun next =>
        if (isFreeWord next && (second == .punct .assign || second == .punct .semicolon)) = true
        then pure t' else failExpecting .identifier >>= fun _ : Unit => pure t') :=
    .choose (f := fun next s => isFreeWord next && (s == .punct .assign || s == .punct .semicolon))
      (v := pure t) (w := failExpecting .identifier >>= fun _ : Unit => pure t) (fun _ => rfl)
      (fun _ => rfl) (.of_marks (fun _ _ => rfl) (fun _ _ => rfl) fun _ _ => rfl) .done
      (.of_not_runs fun c a c' => by simp)
  exact .any (type_tracks _) fun _ _ => hnamed _ _

theorem localType_tracks : F.Tracks localType localType := by
  rw [localType_eq]
  dsimp only
  exact .same .peek fun _ => .ite namedType_tracks (.of_not_runs fun c a c' => by simp)

theorem localType_unbordered : Unbordered localType := by
  intro c t c' h
  simp [localType] at h
  exact type_unbordered _ h.2.1

theorem simpleStatement_tracks (start start' : Nat) :
    F.Tracks (simpleStatement start) (simpleStatement start') := by
  have htype : F.Frames (Option.Rel fun _ _ => True) (attempt localType) (attempt localType) :=
    .attempt localType_tracks localType_tracks localType_unbordered
  have hend (make make' : Node → Stmt) :
      F.Tracks (expectMark .semicolon >>= fun _ => newNode start >>= fun n => pure (make n))
        (expectMark .semicolon >>= fun _ => newNode start' >>= fun n => pure (make' n)) :=
    .any (.expectMark _) fun _ _ => .any (.someNode _ _) fun _ _ => .pure trivial
  refine .bind (o := fun t => ?_) htype fun t t' ht => ?_
  · cases t <;> infer_instance
  cases ht with
  | some _ => exact .any .identifier fun _ _ => .any initializer_tracks fun _ _ => hend _ _
  | none => exact .any expression_tracks fun _ _ => hend _ _

section
variable {statement statement' : Parser Stmt} [Onward statement]
  (hstatement : F.Tracks statement statement')
include hstatement

theorem blockWith_closes :
    F.Closes (fun _ _ => True) (blockWith statement) (blockWith statement') :=
  .somewhere fun _ _ => .any (.expectMark _) fun _ _ => .any (.untilMark hstatement _) fun _ _ =>
    .any (.someRange _ _) fun _ _ => .pure trivial

set_option synthInstance.maxSize 8192 in
theorem statementWith_tracks : F.Tracks (statementWith statement) (statementWith statement') := by
  unfold statementWith
  dsimp only
  refine .somewhere fun start start' => ?_
  have hend (make make' : Node → Stmt) :
      F.Tracks (newNode start >>= fun n => pure (make n))
        (newNode start' >>= fun n => pure (make' n)) :=
    .any (.someNode _ _) fun _ _ => .pure trivial
  -- a block, the empty statement, `return`, `throw` and `if`
  refine .same (.atMark _) fun _ => .ite ?_ ?_
  · exact .any (blockWith_closes hstatement).frames fun _ _ => hend _ _
  refine .same (.takeMark _) fun _ => .ite (hend _ _) ?_
  refine .same (.takeWord _) fun _ => .ite ?_ ?_
  · exact .any optionalExpression_tracks fun _ _ => .any (.expectMark _) fun _ _ => hend _ _
  refine .same (.takeWord _) fun _ => .ite ?_ ?_
  · exact .any optionalExpression_tracks fun _ _ => .any (.expectMark _) fun _ _ => hend _ _
  refine .same (.takeWord _) fun _ => .ite ?_ (simpleStatement_tracks start start')
  refine .any (.expectMark _) fun _ _ => .any expression_tracks fun _ _ =>
    .any (.expectMark _) fun _ _ => .any hstatement fun _ _ => .same (.takeWord _) fun _ => ?_
  exact .ite (.any (.mapAny hstatement) fun _ _ => hend _ _) (.any .done fun _ _ => hend _ _)

end

theorem statementToDepth_tracks (depth depth' : Nat) :
    F.Tracks (statementToDepth depth) (statementToDepth depth') := by
  induction depth generalizing depth' with
  | zero => exact .failTooDeep
  | succ depth ih =>
    cases depth' with
    | zero => exact .tooDeep
    | succ depth' => exact statementWith_tracks (ih depth')

theorem body_closes : F.Closes (fun _ _ => True) body body := by
  refine .of_frames (.atMark _) fun b b' hb => ?_
  obtain rfl := hb
  refine .ite ?_ ?_
  · exact .any (.bound fun _ _ => blockWith_closes (statementToDepth_tracks _ _)) fun _ _ =>
      .pure trivial
  refine .takeMark_ite _ ?_ ?_
  · exact .of_frames expression_tracks fun _ _ _ => .any (.expectMark _) fun _ _ => .pure trivial
  · exact .any (.expectMark _) fun _ _ => .pure trivial

/-! ## Attributes and modifiers -/

theorem attribute_tracks : F.Tracks attribute_ attribute_ := by
  refine .somewhere fun _ _ => .any (type_tracks _) fun _ _ => .same (.atMark _) fun _ =>
    .ite (.any (.mapAny (argumentList_tracks expression_tracks _)) ?_) (.any .done ?_) <;>
    exact fun _ _ => .any (.someNode _ _) fun _ _ => .pure trivial

theorem attributeSection_tracks : F.Tracks attributeSection attributeSection := by
  have hrest : F.Tracks
      (byComma attribute_ >>= fun as => expectMark .closeBracket >>= fun _ => pure as)
      (byComma attribute_ >>= fun as => expectMark .closeBracket >>= fun _ => pure as) :=
    .any (.byComma attribute_tracks) fun _ _ => .any (.expectMark _) fun _ _ => .pure trivial
  exact .choose (f := fun next s => isWord next && s == .punct .colon) (fun _ => rfl)
    (fun _ => rfl) (.of_marks (fun _ _ => rfl) (fun _ _ => rfl) fun _ _ => rfl)
    (.any .advance fun _ _ => .any .advance fun _ _ => hrest) hrest

theorem attributeSections_tracks (rounds rounds' : Nat) :
    F.Tracks (attributeSections rounds) (attributeSections rounds') := by
  induction rounds generalizing rounds' with
  | zero => exact .failTooDeep
  | succ rounds ih =>
    cases rounds' with
    | zero => exact .tooDeep
    | succ rounds' =>
      exact .same (.takeMark _) fun _ => .ite (.any attributeSection_tracks fun _ _ =>
        .any (ih rounds') fun _ _ => .pure trivial) .done

theorem attributes_tracks : F.Tracks attributes attributes :=
  .bound fun _ _ => attributeSections_tracks _ _

theorem modifiersUpTo_tracks (rounds rounds' : Nat) :
    F.Tracks (modifiersUpTo rounds) (modifiersUpTo rounds') := by
  induction rounds generalizing rounds' with
  | zero => exact .failTooDeep
  | succ rounds ih =>
    cases rounds' with
    | zero => exact .tooDeep
    | succ rounds' =>
      refine .same (o := fun next => ?_) .peek fun next => ?_
      · split
        · split <;> infer_instance
        · infer_instance
      split
      · split
        · exact .any .advance fun _ _ => .any (ih rounds') fun _ _ => .pure trivial
        · exact .done
      · exact .done

/-- The declaration starts at one place of the piece, and its doc comment stands at one place. -/
def LeadingAt (F : Frame) (l l' : Leading) : Prop :=
  Option.Rel F.RangeAt l.doc l'.doc ∧ F.At l.start l'.start

/-- Reads the attributes and modifiers of a declaration that starts at a cursor. -/
def leadingFrom (c : Cursor) : Parser Leading := do
  let attributes ← attributes
  let modifiers ← modifiersUpTo (← bound)
  return ⟨c.doc, c.position, attributes, modifiers⟩

theorem leadingFrom_frames {R : Leading → Leading → Prop} (hR : ∀ as ms as' ms',
      R ⟨c.doc, c.position, as, ms⟩ ⟨c'.doc, c'.position, as', ms'⟩) :
    F.Frames R (leadingFrom c) (leadingFrom c') :=
  .any attributes_tracks fun _ _ => .bound fun _ _ => .any (modifiersUpTo_tracks _ _) fun _ _ =>
    .pure (hR _ _ _ _)

theorem leading_eq : leading = (do leadingFrom (← get)) := rfl

theorem leading_tracks : F.Tracks leading leading := by
  rw [leading_eq]
  exact .skip (f := fun c => c) (fun _ => rfl) fun _ _ => leadingFrom_frames fun _ _ _ _ => trivial

/-- Where a piece goes on, a declaration in it starts at one place. -/
theorem leading_follows {ws ws₁ : List Token} {l : Leading} {c₁ : Cursor} (hc : F.Matches ws c c')
    (hne : ws ≠ []) (hrun : Runs leading c l c₁) (h₁ : c₁.tokens = ws₁ ++ F.rest)
    (hopen : F.Open ws₁) : F.Follows F.LeadingAt ws₁ l c₁ leading c' := by
  rw [leading_eq] at hrun ⊢
  obtain ⟨d, c₀, hd, hrun⟩ := runs_bind.1 hrun
  obtain ⟨rfl, rfl⟩ := runs_get.1 hd
  have hfrom : F.Frames F.LeadingAt (leadingFrom c) (leadingFrom c') :=
    leadingFrom_frames fun _ _ _ _ => ⟨hc.doc hne, hc.position hne⟩
  have hask : F.Follows (fun _ b => b = c') ws c c MonadState.get c' :=
    .inr ⟨c', c', rfl, hc, rfl⟩
  refine hask.bind fun b c₁' hc₁ hb => ?_
  obtain rfl := hb
  exact hfrom hc₁ hrun h₁ hopen

theorem exists_leading {γ : Type} {k : Leading → Parser γ} [∀ l, Consuming (k l)] {a : γ}
    {ws ws₁ : List Token} {c₁ : Cursor} (hc : F.Matches ws c c')
    (hrun : Runs (leading >>= k) c a c₁) (h₁ : c₁.tokens = ws₁ ++ F.rest) :
    ∃ l c₀ ws₀, Runs (k l) c₀ a c₁ ∧ F.Follows F.LeadingAt ws₀ l c₀ leading c' := by
  obtain ⟨l, c₀, hl, hk⟩ := runs_bind.1 hrun
  obtain ⟨⟨read, hread⟩, hlt⟩ := Consuming.consumes hk
  have hne : read ++ ws₁ ≠ [] := by
    intro heq
    rw [hread.tokens, (List.append_eq_nil_iff.1 heq).1] at hlt
    exact Nat.lt_irrefl _ hlt
  have h₀ : c₀.tokens = (read ++ ws₁) ++ F.rest := by rw [hread.tokens, h₁, List.append_assoc]
  obtain ⟨more, hmore⟩ := reaches_of_leading hl
  have hne' : ws ≠ [] := by
    rw [hc.eq_append hmore.tokens h₀]
    simpa using fun _ => hne
  exact ⟨l, c₀, _, hk, leading_follows hc hne' hl h₀ fun heq => absurd heq hne⟩

section
variable {γ δ : Type} {R : γ → δ → Prop} {k : Leading → Parser γ} {k' : Leading → Parser δ}
  [∀ l, Consuming (k l)]

/-- In front of a declaration more of the piece is read. -/
theorem Closes.leading (hk : ∀ l l', F.LeadingAt l l' → F.Closes R (k l) (k' l')) :
    F.Closes R (Grammar.leading >>= k) (Grammar.leading >>= k') := by
  intro ws ws₁ c c' a c₁ hc hrun h₁
  obtain ⟨l, c₀, ws₀, hrest, hl⟩ := exists_leading hc hrun h₁
  exact hl.bind fun l' c₀' hc₀ hl' => hk l l' hl' hc₀ hrest h₁

theorem Frames.leading (hk : ∀ l l', F.LeadingAt l l' → F.Frames R (k l) (k' l')) :
    F.Frames R (Grammar.leading >>= k) (Grammar.leading >>= k') := by
  intro ws ws₁ c c' a c₁ hc hrun h₁ hopen
  obtain ⟨l, c₀, ws₀, hrest, hl⟩ := exists_leading hc hrun h₁
  exact hl.bind fun l' c₀' hc₀ hl' => hk l l' hl' hc₀ hrest h₁ hopen

end

/-! ## Headers -/

/-- The declarations start at one place of the piece, with their doc comments, and have one name. -/
def HeadAt (F : Frame) (h h' : DeclHeader) : Prop :=
  Option.Rel F.RangeAt h.doc h'.doc ∧ F.At h.node.range.start h'.node.range.start ∧
    F.IdentAt h.name h'.name

/-- The declarations stand at one place of the piece. -/
def HeaderAt (F : Frame) (h h' : DeclHeader) : Prop :=
  F.HeadAt h h' ∧ F.At h.node.range.stop h'.node.range.stop

section
variable {l l' : Leading} (hl : F.LeadingAt l l')
include hl

theorem close_closes {name name' : Ident} (hname : F.IdentAt name name') :
    F.Closes F.HeaderAt (l.close name) (l'.close name') :=
  .bind (.newNode hl.2) fun _ _ hnode => .pure ⟨⟨hl.1, hnode.1, hname⟩, hnode.2⟩

/-! ## Members -/

omit hl in
theorem parameter_tracks : F.Tracks parameter parameter :=
  .somewhere fun _ _ => .any attributes_tracks fun _ _ => .same (.takeWord _) fun _ =>
    .bound fun _ _ => .any (.skipTo _ _ _) fun _ _ => .any (type_tracks _) fun _ _ =>
    .any .identifier fun _ _ => .any initializer_tracks fun _ _ => .any (.someNode _ _) fun _ _ =>
      .pure trivial

omit hl in
theorem parameters_tracks : F.Tracks parameters parameters :=
  (Frames.inParens parameter_tracks).mono fun _ _ _ => trivial

omit hl in
theorem typeParameter_frames : F.Frames F.IdentAt typeParameter typeParameter :=
  .same (.atAnyWord _) fun _ => .ite (.any .advance fun _ _ => .identifier) .identifier

omit hl in
theorem typeParameters_frames :
    F.Frames (List.Forall₂ F.IdentAt) typeParameters typeParameters :=
  .same (.takeMark _) fun _ => .ite (.bind (.byComma typeParameter_frames) fun _ _ h =>
    .any (.expectMark _) fun _ _ => .pure h) (.pure .nil)

omit hl in
theorem skipConstraints_tracks : F.Tracks skipConstraints skipConstraints :=
  .same (.atWord _) fun _ => .ite (.bound fun _ _ => .skipTo _ _ _) .done

set_option synthInstance.maxSize 1024 in
theorem constructor_closes :
    F.Closes (fun d d' => F.HeaderAt d.toDeclHeader d'.toDeclHeader) (constructor_ l)
      (constructor_ l') := by
  unfold constructor_
  dsimp only
  refine .of_frames .identifier fun name name' hname => .of_frames parameters_tracks
    fun ps ps' _ => ?_
  -- the arguments of the `base` or `this` call are dropped
  have hrest : F.Closes (fun d d' => F.HeaderAt d.toDeclHeader d'.toDeclHeader)
      (body >>= fun b => l.close name >>= fun header => pure (⟨header, ps, b⟩ : ConstructorDecl))
      (body >>= fun b => l'.close name' >>= fun header =>
        pure (⟨header, ps', b⟩ : ConstructorDecl)) :=
    .any body_closes fun _ _ => .bind (close_closes hl hname) fun _ _ h => .pure h
  refine .takeMark_ite _ ?_ hrest
  refine .of_frames (.atAnyWord _) fun b b' hb => ?_
  obtain rfl := hb
  refine .ite (.of_frames .advance fun _ _ _ => ?_) (.of_not_runs fun c a c' => by simp)
  exact .of_frames (.discard (argumentList_tracks expression_tracks _)) fun _ _ _ => hrest

theorem method_closes {name name' : Ident} (hname : F.IdentAt name name') (t t' : TypeRef)
    (interface interface' : Option TypeRef) :
    F.Closes (fun d d' => F.HeaderAt d.toDeclHeader d'.toDeclHeader)
      (method l t interface name) (method l' t' interface' name') :=
  .of_frames typeParameters_frames fun _ _ _ => .of_frames parameters_tracks fun _ _ _ =>
    .of_frames skipConstraints_tracks fun _ _ _ => .any body_closes fun _ _ =>
      .bind (close_closes hl hname) fun _ _ h => .pure h

omit hl in
theorem accessorKind_frames : F.Frames Eq accessorKind accessorKind :=
  .same (.takeWord _) fun _ => .ite (.pure rfl) <| .same (.takeWord _) fun _ =>
    .ite (.pure rfl) <| .same (.takeWord _) fun _ => .ite (.pure rfl) (.failExpecting _)

omit hl in
theorem accessor_tracks : F.Tracks accessor accessor :=
  .any leading_tracks fun _ _ => .same accessorKind_frames fun _ => .any body_closes.frames
    fun _ _ => .any (.someNode _ _) fun _ _ => .pure trivial

theorem property_closes {name name' : Ident} (hname : F.IdentAt name name') (t t' : TypeRef) :
    F.Closes (fun d d' => F.HeaderAt d.toDeclHeader d'.toDeclHeader) (property l t name)
      (property l' t' name') := by
  have hclose (accessors accessors' : List Accessor) (arrow arrow' init init' : Option Expr) :
      F.Closes (fun d d' => F.HeaderAt d.toDeclHeader d'.toDeclHeader)
        (l.close name >>= fun h => pure (⟨h, t, accessors, arrow, init⟩ : PropertyDecl))
        (l'.close name' >>= fun h => pure (⟨h, t', accessors', arrow', init'⟩ : PropertyDecl)) :=
    .bind (close_closes hl hname) fun _ _ h => .pure h
  unfold property
  dsimp only
  refine .takeMark_ite _ ?_ (.any (.expectMark _) fun _ _ => .any (.untilMark accessor_tracks _)
    fun as as' => ?_)
  · exact .of_frames expression_tracks fun _ _ _ => .any (.expectMark _) fun _ _ =>
      hclose _ _ _ _ _ _
  -- without a value the brace is the last token
  rw [initializer_bind, initializer_bind]
  simp only [Option.isSome_some, Option.isSome_none, if_true, Bool.false_eq_true, if_false]
  refine .bind (.takeMark (.inl rfl)) fun b b' hb => ?_
  obtain rfl := hb
  exact .ite (.of_frames expression_tracks fun _ _ _ => .any (.expectMark _) fun _ _ =>
    hclose _ _ _ _ _ _) (hclose _ _ _ _ _ _)

theorem field_closes {name name' : Ident} (hname : F.IdentAt name name') (t t' : TypeRef) :
    F.Closes (fun d d' => F.HeaderAt d.toDeclHeader d'.toDeclHeader) (field l t name)
      (field l' t' name') :=
  .of_frames initializer_tracks fun _ _ _ => .any (.expectMark _) fun _ _ =>
    .bind (close_closes hl hname) fun _ _ h => .pure h

omit hl in
theorem dottedIdents_frames (rounds rounds' : Nat) :
    F.Frames (List.Forall₂ F.IdentAt) (dottedIdents rounds) (dottedIdents rounds') := by
  induction rounds generalizing rounds' with
  | zero => exact .failTooDeep
  | succ rounds ih =>
    cases rounds' with
    | zero => exact .tooDeep
    | succ rounds' =>
      refine .bind .identifier fun _ _ hfirst => .same atDottedWord_frames fun _ => .ite ?_ ?_
      · exact .any .advance fun _ _ => .bind (ih rounds') fun _ _ hrest =>
          .pure (.cons hfirst hrest)
      · exact .pure (.cons hfirst .nil)

omit hl in
theorem interfaceType_tracks {is is' : List Ident} (h : List.Forall₂ F.IdentAt is is') :
    F.Tracks (interfaceType is) (interfaceType is') := by
  cases h with
  | nil => exact .done
  | cons _ _ => exact .any (Closes.freshId).frames fun _ _ => .pure trivial

omit hl in
theorem forall₂_dropLast {R : α → β → Prop} {as : List α} {bs : List β}
    (h : List.Forall₂ R as bs) : List.Forall₂ R as.dropLast bs.dropLast := by
  induction h with
  | nil => exact .nil
  | cons hfirst hrest ih =>
    cases hrest with
    | nil => exact .nil
    | cons _ _ => exact .cons hfirst ih

/-- The members are of one form and stand at one place of the piece. -/
def MemberAt (F : Frame) (m m' : Member) : Prop :=
  m.form = m'.form ∧ F.HeaderAt m.header m'.header

theorem memberBehind_closes {name name' : Ident} (hname : F.IdentAt name name') (t t' : TypeRef)
    (interface interface' : Option TypeRef) :
    F.Closes F.MemberAt (memberBehind l t interface name)
      (memberBehind l' t' interface' name') := by
  refine .of_frames (.atMark _) fun b b' hb => .of_frames (.atMark _) fun d d' hd => ?_
  obtain rfl := hb
  obtain rfl := hd
  refine .ite ?_ (.of_frames (.atMark _) fun b b' hb => .of_frames (.atMark _) fun d d' hd => ?_)
  · exact .bind (method_closes hl hname _ _ _ _) fun _ _ h => .pure ⟨rfl, h⟩
  obtain rfl := hb
  obtain rfl := hd
  refine .ite ?_ ?_
  · exact .bind (property_closes hl hname _ _) fun _ _ h => .pure ⟨rfl, h⟩
  · exact .bind (field_closes hl hname _ _) fun _ _ h => .pure ⟨rfl, h⟩

theorem typedMember_closes : F.Closes F.MemberAt (typedMember l) (typedMember l') := by
  rw [typedMember_eq, typedMember_eq]
  refine .of_frames (type_tracks _) fun t t' _ => .bound fun _ _ =>
    .of_frames (dottedIdents_frames _ _) fun is is' his => ?_
  have hlast := forall₂_getLast? his
  have hfront := forall₂_dropLast his
  unfold namedMember
  generalize is.getLast? = o, is'.getLast? = o' at hlast ⊢
  cases hlast with
  | none => exact .of_not_runs fun c a c' => by simp
  | some hname =>
    exact .of_frames (interfaceType_tracks hfront) fun _ _ _ =>
      memberBehind_closes hl hname _ _ _ _

end

/-! ## Types -/

theorem typeKeyword_frames : F.Frames Eq typeKeyword typeKeyword :=
  .same (.takeWord _) fun _ => .ite (.pure rfl) <| .same (.takeWord _) fun _ =>
    .ite (.pure rfl) <| .same (.takeWord _) fun _ => .ite (.pure rfl) (.failExpecting _)

/-- What stands in front of the members is the same, at one place of the piece. -/
structure FrontAt (F : Frame) (f f' : TypeFront) : Prop where
  kind : f.kind = f'.kind
  name : F.IdentAt f.name f'.name
  typeParams : List.Forall₂ F.IdentAt f.typeParams f'.typeParams
  bases : List.Forall₂ F.TypeAt f.bases f'.bases

theorem typeFront_closes : F.Closes F.FrontAt typeFront typeFront := by
  unfold typeFront
  dsimp only
  refine .of_frames typeKeyword_frames fun kind kind' hkind => .of_frames .identifier
    fun name name' hname => .of_frames typeParameters_frames fun ps ps' hps => ?_
  obtain rfl := hkind
  have hrest {bases bases' : List TypeRef} (hbases : List.Forall₂ F.TypeAt bases bases') :
      F.Closes F.FrontAt
        (skipConstraints >>= fun _ => expectMark .openBrace >>= fun _ =>
          pure (⟨kind, name, ps, bases⟩ : TypeFront))
        (skipConstraints >>= fun _ => expectMark .openBrace >>= fun _ =>
          pure (⟨kind, name', ps', bases'⟩ : TypeFront)) :=
    .of_frames skipConstraints_tracks fun _ _ _ => .any (.expectMark _) fun _ _ =>
      .pure ⟨rfl, hname, hps, hbases⟩
  refine .takeMark_ite _ ?_ ?_
  · exact .of_frames (.byComma (type_frames _)) fun _ _ => hrest
  · exact .of_frames (.pure .nil) fun _ _ => hrest

/-- The text of the piece is the same in both texts. -/
def Copies (F : Frame) (cs cs' : List Char) : Prop :=
  ∀ r r', F.RangeAt r r' → textAt cs r = textAt cs' r'

section
variable {cs cs' : List Char} (hcopy : F.Copies cs cs')

theorem fullRange_start_at {m m' : Member} (h : F.HeadAt m.header m'.header) :
    F.At m.fullRange.start m'.fullRange.start := by
  obtain ⟨hdoc, hstart, -⟩ := h
  unfold Member.fullRange
  generalize m.header.doc = d, m'.header.doc = d' at hdoc
  cases hdoc with
  | none => exact hstart
  | some hdoc => exact hdoc.1.min hstart

theorem fullRange_at {m m' : Member} (h : F.HeaderAt m.header m'.header) :
    F.RangeAt m.fullRange m'.fullRange := by
  refine ⟨fullRange_start_at h.1, ?_⟩
  obtain ⟨⟨hdoc, -, -⟩, hstop⟩ := h
  unfold Member.fullRange
  generalize m.header.doc = d, m'.header.doc = d' at hdoc
  cases hdoc with
  | none => exact hstop
  | some hdoc => exact hdoc.2.max hstop

include hcopy

theorem sameMember_of_memberAt {m m' : Member} (h : F.MemberAt m m') (hm : m.isType = false) :
    SameMember cs cs' m m' := by
  obtain ⟨hform, hheader⟩ := h
  have htext := hcopy _ _ (fullRange_at hheader)
  have hname : m.name.text = m'.name.text := hheader.1.2.2.1
  cases m <;> cases m' <;> simp [Member.form, Member.isType] at hform hm
  all_goals exact ⟨by simp [Member.outline, Member.form, hname, htext], rfl⟩

/-- The heads of two types are the same if the types are read in one way up to their members. -/
theorem head_eq {namespaceName : Option String} {d d' : TypeDecl} {f f' : TypeFront}
    {l l' : Leading} (hl : F.LeadingAt l l') (hf : F.FrontAt f f')
    (hd : Opened l namespaceName f d) (hd' : Opened l' namespaceName f' d') :
    d.head cs = d'.head cs' := by
  have hstart : F.At (Member.type d).fullRange.start (Member.type d').fullRange.start := by
    refine fullRange_start_at ⟨?_, ?_, ?_⟩
    · rw [show (Member.type d).header.doc = _ from hd.doc,
        show (Member.type d').header.doc = _ from hd'.doc]
      exact hl.1
    · rw [show (Member.type d).header.node.range.start = _ from hd.start,
        show (Member.type d').header.node.range.start = _ from hd'.start]
      exact hl.2
    · rw [show (Member.type d).header.name = _ from hd.name,
        show (Member.type d').header.name = _ from hd'.name]
      exact hf.name
  have hfront := hcopy ⟨_, d.name.range.stop⟩ ⟨_, d'.name.range.stop⟩
    ⟨hstart, by rw [hd.name, hd'.name]; exact hf.name.2.2⟩
  have hparams : f.typeParams.map Ident.text = f'.typeParams.map Ident.text :=
    map_eq_of_forall₂ hf.typeParams fun _ _ h => h.1
  have hbases : f.bases.map (fun b => textAt cs b.range)
      = f'.bases.map fun b => textAt cs' b.range :=
    map_eq_of_forall₂ hf.bases fun _ _ h => hcopy _ _ h.1
  unfold TypeDecl.head
  rw [hfront, hd.kind, hd'.kind, hf.kind, hd.namespaceName, hd'.namespaceName, hd.typeParams,
    hd'.typeParams, hparams, hd.bases, hd'.bases, hbases]

end

/-! ## Types in a piece -/

section
variable {cs cs' : List Char} {namespaceName : Option String}

/-- The heads of the types are the same, and so are their members and the types in them. -/
def SameDecl (cs cs' : List Char) (d d' : TypeDecl) : Prop :=
  d.head cs = d'.head cs' ∧ SameTypes cs cs' d.withNested d'.withNested

theorem typeBack_closes {l l' : Leading} {f f' : TypeFront} {ms ms' : List Member} :
    F.Closes (fun d d' => (Opened l namespaceName f d ∧ d.members = ms) ∧
        Opened l' namespaceName f' d' ∧ d'.members = ms')
      (typeBack l namespaceName f ms) (typeBack l' namespaceName f' ms') := by
  have hclose (name name' : Ident) :
      F.Closes (fun _ _ => True) (l.close name) (l'.close name') :=
    .any (.someNode _ _) fun _ _ => .pure trivial
  have htracks : F.Closes (fun _ _ => True) (typeBack l namespaceName f ms)
      (typeBack l' namespaceName f' ms') :=
    .any (.map (S := fun _ _ => True) (.takeMark (.inr rfl)) fun _ _ _ => trivial) fun _ _ =>
      .any (hclose _ _) fun _ _ => .pure trivial
  exact (htracks.facts (fun _ _ _ => opened_of_typeBack) fun _ _ _ => opened_of_typeBack).mono
    fun _ _ h => h.2

section
variable {member member' : String → Parser Member} [∀ name, Consuming (member name)]
variable (hcopy : F.Copies cs cs')
  (hmember : ∀ name, F.Closes (SameMember cs cs') (member name) (member' name))
include hcopy hmember

theorem typeDeclWith_closes {l l' : Leading} (hl : F.LeadingAt l l') :
    F.Closes (SameDecl cs cs') (typeDeclWith member l namespaceName)
      (typeDeclWith member' l' namespaceName) := by
  rw [typeDeclWith_eq, typeDeclWith_eq]
  refine .bind typeFront_closes fun f f' hf => ?_
  rw [← show f.name.text = f'.name.text from hf.name.1]
  refine .bind (.untilMark (hmember _).frames _) fun ms ms' hms => ?_
  refine Closes.mono typeBack_closes ?_
  rintro d d' ⟨⟨hd, rfl⟩, hd', rfl⟩
  have hhead := head_eq hcopy hl hf hd hd'
  exact ⟨hhead, .withNested hhead hms⟩

end

section
variable {typeDecl typeDecl' : Leading → Parser TypeDecl} [∀ l, Consuming (typeDecl l)]
variable (hcopy : F.Copies cs cs')
  (htype : ∀ l l', F.LeadingAt l l' → F.Closes (SameDecl cs cs') (typeDecl l) (typeDecl' l'))
include hcopy htype

theorem memberFrom_closes (typeName : String) {l l' : Leading} (hl : F.LeadingAt l l') :
    F.Closes (SameMember cs cs') (memberFrom typeDecl typeName l)
      (memberFrom typeDecl' typeName l') := by
  refine .of_frames (.atAnyWord _) fun b b' hb => ?_
  obtain rfl := hb
  refine .ite (.bind (htype l l' hl) fun d d' h => .pure ?_) ?_
  · refine ⟨congrArg MemberOutline.type h.1, ?_⟩
    simpa [nestedIn] using h.2
  refine .choose (f := fun next s => next == .word typeName && s == .punct .openParen)
    (fun _ => rfl) (fun _ => rfl) (.of_marks (fun _ _ => rfl) (fun _ _ => rfl) fun _ _ => rfl) ?_ ?_
  · exact .bind (constructor_closes hl) fun d d' h =>
      .pure (sameMember_of_memberAt hcopy ⟨rfl, h⟩ rfl)
  · have hnone ⦃l c m c'⦄ (h : Runs (typedMember l) c m c') : m.isType = false :=
      (opens_of_typedMember h).1
    exact ((typedMember_closes hl).facts (@hnone l) (@hnone l')).mono fun _ _ h =>
      sameMember_of_memberAt hcopy h.1 h.2.1

/-- A member of a piece that is read in the one text is read in the other one. -/
theorem memberWith_closes (typeName : String) :
    F.Closes (SameMember cs cs') (memberWith typeDecl typeName)
      (memberWith typeDecl' typeName) := by
  rw [memberWith_eq, memberWith_eq]
  exact .leading fun _ _ => memberFrom_closes hcopy htype typeName

end

/-- A type of a piece that is read in the one text is read in the other one. -/
theorem typeDeclToDepth_closes (hcopy : F.Copies cs cs') (depth depth' : Nat) {l l' : Leading}
    (hl : F.LeadingAt l l') :
    F.Closes (SameDecl cs cs') (typeDeclToDepth namespaceName depth l)
      (typeDeclToDepth namespaceName depth' l') := by
  induction depth generalizing depth' l l' with
  | zero => exact .failTooDeep
  | succ depth ih =>
    cases depth' with
    | zero => exact .tooDeep
    | succ depth' =>
      exact typeDeclWith_closes hcopy
        (memberWith_closes hcopy fun _ _ hl => ih depth' hl) hl

end

/-! ## Files -/

theorem dottedName_frames (rounds rounds' : Nat) :
    F.Frames Eq (dottedName rounds) (dottedName rounds') := by
  induction rounds generalizing rounds' with
  | zero => exact .failTooDeep
  | succ rounds ih =>
    cases rounds' with
    | zero => exact .tooDeep
    | succ rounds' =>
      refine .bind .identifier fun i i' hi => .same (.takeMark _) fun _ => ?_
      rw [hi.1]
      exact .ite (.bind (ih rounds') fun _ _ hrest => .pure (by rw [hrest])) (.pure rfl)

theorem usingDirective_frames : F.Frames Eq usingDirective usingDirective := by
  have hother : F.Frames Eq otherUsing otherUsing :=
    .bound fun _ _ => .any (.skipTo _ _ _) fun _ _ => .any (.expectMark _) fun _ _ => .pure rfl
  have himported : F.Frames Eq importedNamespace importedNamespace :=
    .bound fun _ _ => .same (dottedName_frames _ _) fun _ =>
      .any (.expectMark _) fun _ _ => .pure rfl
  exact .choose (f := fun next s => next == .word "static" || s == .punct .assign)
    (v := otherUsing) (w := importedNamespace) (x := otherUsing) (y := importedNamespace)
    (fun _ => rfl) (fun _ => rfl)
    (fun _ _ _ _ hs hs' => by dsimp only; rw [beq_eq_false_iff_ne.2 hs, beq_eq_false_iff_ne.2 hs'])
    hother himported

set_option synthInstance.maxSize 8192 in
theorem declarations_frames {cs cs' : List Char} (hcopy : F.Copies cs cs') (topLevel : Bool)
    (rounds rounds' : Nat) (namespaceName : Option String) :
    F.Frames (SameUnit cs cs') (declarations topLevel rounds namespaceName)
      (declarations topLevel rounds' namespaceName) := by
  induction rounds generalizing rounds' topLevel namespaceName with
  | zero => exact .failTooDeep
  | succ rounds ih =>
    cases rounds' with
    | zero => exact .tooDeep
    | succ rounds' =>
      have hnone : SameUnit cs cs' {} {} := ⟨rfl, rfl⟩
      unfold declarations
      dsimp only
      refine .same .peek fun _ => .ite (.ite (.pure hnone) (.failExpecting _)) ?_
      refine .same (.atMark _) fun _ => .ite (.any .advance fun _ _ => .pure hnone) ?_
      refine .same (.takeWord _) fun _ => .ite ?_ ?_
      · exact .same usingDirective_frames fun name => .bind (ih topLevel rounds' namespaceName)
          fun _ _ hrest => .pure (.append ⟨rfl, rfl⟩ hrest)
      refine .same (.takeWord _) fun _ => .ite ?_ ?_
      · refine .bound fun _ _ => .same (dottedName_frames _ _) fun name =>
          .same (.takeMark _) fun _ => .ite (ih topLevel rounds' _) ?_
        exact .any (.expectMark _) fun _ _ => .bind (ih false rounds' _) fun _ _ hinner =>
          .bind (ih topLevel rounds' _) fun _ _ hrest => .pure (hinner.append hrest)
      refine .choose (f := fun next s => next == .punct .openBracket && s == .word "assembly")
        (fun _ => rfl) (fun _ => rfl)
        (.of_marks (fun _ _ => rfl) (fun _ _ => rfl) fun _ _ => rfl) ?_ ?_
      · exact .any attributes_tracks fun _ _ => .bind (ih topLevel rounds' _) fun _ _ hrest =>
          .pure (.append ⟨rfl, rfl⟩ hrest)
      · refine .leading fun _ _ hl => .bound fun _ _ =>
          .bind (typeDeclToDepth_closes hcopy _ _ hl).frames fun d d' hd =>
          .bind (ih topLevel rounds' _) fun _ _ hrest => .pure (.append ⟨rfl, ?_⟩ hrest)
        simpa [CompilationUnit.allTypes] using hd.2

end Frame

end PropertyLint.Grammar
