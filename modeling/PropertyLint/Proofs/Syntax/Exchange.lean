/-
# Exchanging two passages of a text

A member of a type and what follows it up to another member of that type may change places with that
member (`Exchange`).  What the parser reads in the text then is what it reads in the old one, but
for the order of these members (`compilationUnit_exchanges`).
-/
import PropertyLint.Proofs.Syntax.FrameDecls
import PropertyLint.Proofs.Syntax.MemberEnd

namespace PropertyLint.Grammar

variable {α β : Type} {c c' c₀ c₁ c₂ ct ck ce : Cursor} {cs cs' : List Char}

/-! ## Ways through a text -/

/-- What has been read between the two cursors ends with a token that stands around members. -/
def ReadsBorder (c c' : Cursor) : Prop :=
  ∃ read t, c.Reads (read ++ [t]) c' ∧ isBorder t.kind = true

theorem ReadsClosing.border (h : ReadsClosing c c') : ReadsBorder c c' := by
  obtain ⟨read, t, hread, ht⟩ := h
  exact ⟨read, t, hread, isBorder_iff.2 (ht.imp_right .inr)⟩

theorem ReadsBorder.behind (h : ReadsBorder c₁ c') (h₁ : c.Reaches c₁) : ReadsBorder c c' := by
  obtain ⟨read, t, hread, ht⟩ := h
  obtain ⟨more, hmore⟩ := h₁
  exact ⟨more ++ read, t, by rw [List.append_assoc]; exact hmore.trans hread, ht⟩

theorem ReadsBorder.reaches (h : ReadsBorder c c') : c.Reaches c' := by
  obtain ⟨read, t, hread, -⟩ := h
  exact ⟨_, hread⟩

/-! ### Items up to a mark -/

/-- The items have been read one behind the other up to the second cursor, and none of them starts
with the mark. -/
inductive Items (close : Punct) (item : Parser α) : Cursor → List α → Cursor → Prop where
  | nil (c : Cursor) : Items close item c [] c
  | cons {c c₁ c₂ : Cursor} {a : α} {as : List α} (hclose : c.head ≠ .punct close)
      (hend : c.head ≠ .endOfText) (hfirst : Runs item c a c₁) (hrest : Items close item c₁ as c₂) :
      Items close item c (a :: as) c₂

section
variable {close : Punct} {item : Parser α} {as bs : List α}

theorem exists_items (as : List α) {rounds : Nat}
    (h : Runs (itemsUntil close item rounds) c (as ++ bs) c₁) :
    ∃ rounds' c₀, Items close item c as c₀ ∧ Runs (itemsUntil close item rounds') c₀ bs c₁ := by
  induction as generalizing rounds c with
  | nil => exact ⟨rounds, c, .nil c, h⟩
  | cons a as ih =>
    cases rounds with
    | zero => simp [itemsUntil] at h
    | succ rounds =>
      simp only [itemsUntil, runs_bind, runs_ite] at h
      simp at h
      obtain ⟨hclose, hend, c₂, ha, has⟩ := h
      obtain ⟨rounds', c₀, hitems, hrest⟩ := ih has
      exact ⟨rounds', c₀, .cons hclose hend ha hitems, hrest⟩

theorem Items.reaches [hitem : Onward item] (h : Items close item c as c₁) : c.Reaches c₁ := by
  induction h with
  | nil c => exact .refl c
  | cons _ _ hfirst _ ih => exact (hitem.moves hfirst).trans ih

theorem Items.border [Onward item]
    (hitem : ∀ ⦃c a c'⦄, Runs item c a c' → ReadsBorder c c') (h : Items close item c as c₁)
    (hne : as ≠ []) : ReadsBorder c c₁ := by
  induction h with
  | nil => exact absurd rfl hne
  | @cons _ _ _ _ as _ _ hfirst hrest ih =>
    cases as with
    | nil =>
      cases hrest
      exact hitem hfirst
    | cons => exact (ih (List.cons_ne_nil _ _)).behind (hitem hfirst).reaches

end

section
variable {close : Punct} {item' : Parser β} {T T' : List β → Cursor → Prop}

/-- Runs of the second parser go on as the loop does. -/
theorem leads_itemsUntil_cons {U : β → Cursor → Prop} (hclose : c.head ≠ .punct close)
    (hend : c.head ≠ .endOfText) (hfirst : Leads item' c U)
    (hrest : ∀ b c₁ rounds, U b c₁ →
      Leads (itemsUntil close item' rounds) c₁ fun bs => T (b :: bs)) (rounds : Nat) :
    Leads (itemsUntil close item' rounds) c T := by
  cases rounds with
  | zero => exact .inl ⟨_, fails_failTooDeep.2 rfl, rfl⟩
  | succ rounds =>
    have hmark : Runs (takeMark close) c false c := runs_takeMark.2 (.inr ⟨hclose, rfl, rfl⟩)
    have hpeek : Runs peek c c.head c := runs_peek.2 ⟨rfl, rfl⟩
    have hnext : ¬ (c.head == .endOfText) = true := by simpa using hend
    unfold itemsUntil
    refine .next hmark ?_
    rw [if_neg Bool.false_ne_true]
    refine .next hpeek ?_
    rw [if_neg hnext]
    exact hfirst.bind fun b c₁ hb => (hrest b c₁ rounds hb).bind fun bs c₂ hbs => .pure hbs

variable {F : Frame} {R : α → β → Prop} {item : Parser α} [hitem : Consuming item] {as : List α}
  {ws ws₁ : List Token}

/-- Items of a piece are read in the other text, and the loop goes on behind them. -/
theorem leads_of_items (hframes : F.Closes R item item') (h : Items close item c as c₁)
    (hc : F.Matches ws c c') (h₁ : c₁.tokens = ws₁ ++ F.rest)
    (hrest : ∀ rounds c₁', F.Matches ws₁ c₁ c₁' → Leads (itemsUntil close item' rounds) c₁' T)
    (rounds : Nat) :
    Leads (itemsUntil close item' rounds) c' fun bs c₂' =>
      ∃ bs₁ bs₂, bs = bs₁ ++ bs₂ ∧ List.Forall₂ R as bs₁ ∧ T bs₂ c₂' := by
  induction h generalizing ws c' rounds with
  | nil c =>
    obtain rfl : ws = ws₁ := hc.eq_of_tokens h₁
    exact (hrest rounds c' hc).mono fun bs c₂' hT => ⟨[], bs, rfl, .nil, hT⟩
  | @cons c c₀ c₁ a as hclose hend hfirst hitems ih =>
    obtain ⟨⟨read, hread⟩, hlt⟩ := hitem.consumes hfirst
    obtain ⟨more, hmore⟩ := hitems.reaches
    have h₀ : c₀.tokens = (more ++ ws₁) ++ F.rest := by rw [hmore.tokens, h₁, List.append_assoc]
    have hopen : F.Open ws := by
      intro hnil
      have hempty := (hc.eq_append hread.tokens h₀).symm.trans hnil
      rw [hread.tokens, (List.append_eq_nil_iff.1 hempty).1] at hlt
      exact absurd hlt (Nat.lt_irrefl _)
    have hhead := hc.head hopen
    refine leads_itemsUntil_cons (hhead ▸ hclose) (hhead ▸ hend) (hframes hc hfirst h₀)
      (fun b c₀' rounds hb => ?_) rounds
    refine (ih hb.1 h₁ hrest rounds).mono ?_
    rintro _ c₂' ⟨bs₁, bs₂, rfl, hbs, hT⟩
    exact ⟨b :: bs₁, bs₂, rfl, .cons hb.2 hbs, hT⟩

/-- The same where more related items follow. -/
theorem leads_of_items_append {E : Cursor → Prop} {rest : List α} (hframes : F.Closes R item item')
    (h : Items close item c as c₁) (hc : F.Matches ws c c') (h₁ : F.rest = c₁.tokens)
    (hrest : ∀ rounds c₁', F.Matches [] c₁ c₁' → Leads (itemsUntil close item' rounds) c₁'
      fun bs c₂' => E c₂' ∧ List.Forall₂ R rest bs) (rounds : Nat) :
    Leads (itemsUntil close item' rounds) c' fun bs c₂' =>
      E c₂' ∧ List.Forall₂ R (as ++ rest) bs := by
  have htokens : c₁.tokens = [] ++ F.rest := h₁.symm
  refine (leads_of_items hframes h hc htokens hrest rounds).mono ?_
  rintro _ c₂' ⟨bs₁, bs₂, rfl, hbs₁, hend, hbs₂⟩
  exact ⟨hend, List.rel_append hbs₁ hbs₂⟩

end

/-! ## Two texts with two pieces exchanged -/

/-- Two texts of the same four pieces, with the two in the middle in the other order.  The pieces of
the first text meet at the three cursors. -/
structure Exchange (cs cs' : List Char) (ct ck ce : Cursor) where
  above : Frame
  first : Frame
  second : Frame
  below : Frame
  above_copies : above.Copies cs cs'
  first_copies : first.Copies cs cs'
  second_copies : second.Copies cs cs'
  below_copies : below.Copies cs cs'
  above_rest : above.rest = ct.tokens
  first_rest : first.rest = ck.tokens
  second_rest : second.rest = ce.tokens
  below_last : below.IsLast
  /-- Behind the piece above, the second text goes on with the third piece of the first one. -/
  toSecond : ∀ ⦃c'⦄, above.Matches [] ct c' → ∃ ws, second.Matches ws ck c'
  toFirst : ∀ ⦃c'⦄, second.Matches [] ce c' → ∃ ws, first.Matches ws ct c'
  toBelow : ∀ ⦃c'⦄, first.Matches [] ck c' → ∃ ws, below.Matches ws ce c'

namespace Exchange

variable (S : Exchange cs cs' ct ck ce) {ws : List Token}

/-- A cursor in front of a border of the piece above. -/
theorem exists_above (h : ReadsBorder c ct) :
    ∃ ws₁, ws₁ ≠ [] ∧ c.tokens = ws₁ ++ S.above.rest := by
  obtain ⟨read, t, hread, -⟩ := h
  exact ⟨read ++ [t], by simp, by rw [S.above_rest]; exact hread.tokens⟩

theorem ne_nil (hc : S.above.Matches ws c c') (h : ReadsBorder c ct) : ws ≠ [] := by
  obtain ⟨ws₁, hne, h₁⟩ := S.exists_above h
  obtain rfl : ws = ws₁ := hc.eq_of_tokens h₁
  exact hne

theorem head (hc : S.above.Matches ws c c') (h : ReadsBorder c ct) : c'.head = c.head :=
  hc.head fun hnil => absurd hnil (S.ne_nil hc h)

theorem look {f : TokenKind → TokenKind → α} (hc : S.above.Matches ws c c') (h : ReadsBorder c ct)
    (hf : Bordered f) : f c'.head c'.second = f c.head c.second :=
  hc.look (fun hnil => absurd hnil (S.ne_nil hc h)) hf

theorem advance (hc : S.above.Matches ws c c') (h : ReadsBorder c ct) :
    ∃ ws₁, S.above.Matches ws₁ c.advance c'.advance := by
  cases ws with
  | nil => exact absurd rfl (S.ne_nil hc h)
  | cons t ws => exact ⟨ws, hc.advance⟩

section
variable {γ : Type} {p : Parser α} {q : Parser β} {l : β → Parser γ} {R : α → β → Prop} {a : α}
  {T : γ → Cursor → Prop}

/-- A step above that ends in front of a border. -/
theorem step (hp : S.above.Frames R p q) (hc : S.above.Matches ws c c') (hrun : Runs p c a c₁)
    (hct : ReadsBorder c₁ ct)
    (hl : ∀ b ws₁ c₁', S.above.Matches ws₁ c₁ c₁' → R a b → Leads (l b) c₁' T) :
    Leads (q >>= l) c' T := by
  obtain ⟨ws₁, hne, h₁⟩ := S.exists_above hct
  exact Leads.bind (hp hc hrun h₁ fun hnil => absurd hnil hne) fun b c₁' hb =>
    hl b ws₁ c₁' hb.1 hb.2

/-- A step above that may end with the border. -/
theorem stepUpTo (hp : S.above.Closes R p q) (hc : S.above.Matches ws c c') (hrun : Runs p c a c₁)
    (hct : c₁.Reaches ct)
    (hl : ∀ b ws₁ c₁', S.above.Matches ws₁ c₁ c₁' → R a b → Leads (l b) c₁' T) :
    Leads (q >>= l) c' T := by
  obtain ⟨read, hread⟩ := hct
  have h₁ : c₁.tokens = read ++ S.above.rest := by rw [S.above_rest, hread.tokens]
  exact Leads.bind (hp hc hrun h₁) fun b c₁' hb => hl b read c₁' hb.1 hb.2

end

/-- The attributes and modifiers of a declaration above. -/
theorem stepLeading {γ : Type} {k : Leading → Parser γ} {T : γ → Cursor → Prop} {l : Leading}
    (hc : S.above.Matches ws c c') (hl : Runs leading c l c₁) (hct : ReadsBorder c₁ ct)
    (hk : ∀ ws₁ l' c₁', S.above.LeadingAt l l' → S.above.Matches ws₁ c₁ c₁' → Leads (k l') c₁' T) :
    Leads (leading >>= k) c' T := by
  obtain ⟨ws₁, hne, h₁⟩ := S.exists_above hct
  have hws : ws ≠ [] := S.ne_nil hc (hct.behind (reaches_of_leading hl))
  exact Leads.bind (Frame.leading_follows hc hws hl h₁ fun hnil => absurd hnil hne)
    fun l' c₁' hl' => hk ws₁ l' c₁' hl'.2 hl'.1

/-- What is read below. -/
theorem finish {p : Parser α} {q : Parser β} {R : α → β → Prop} {a : α}
    (hp : S.below.Frames R p q) (hc : S.below.Matches ws c c') (hrun : Runs p c a c₁) :
    Leads q c' fun b c₁' => S.below.Matches c₁.tokens c₁ c₁' ∧ R a b :=
  hp hc hrun (by rw [S.below_last.1, List.append_nil]) fun _ => S.below_last

/-- The two members change places. -/
theorem leads_items {item item' : Parser Member} [Consuming item] {pre mid post : List Member}
    {target key : Member} {rounds : Nat}
    (hitem : ∀ F : Frame, F.Copies cs cs' → F.Closes (SameMember cs cs') item item')
    (hpre : Items .closeBrace item c pre ct) (hmid : Items .closeBrace item ct (target :: mid) ck)
    (hkey : Items .closeBrace item ck [key] ce)
    (hpost : Runs (itemsUntil .closeBrace item rounds) ce post c₂)
    (hc : S.above.Matches ws c c') (rounds' : Nat) :
    Leads (itemsUntil .closeBrace item' rounds') c' fun ms' c₂' =>
      S.below.Matches c₂.tokens c₂ c₂' ∧
        List.Forall₂ (SameMember cs cs') (pre ++ key :: target :: (mid ++ post)) ms' := by
  -- the two members are read in the other order, each of them in its own piece
  refine leads_of_items_append (hitem _ S.above_copies) hpre hc S.above_rest
    (fun rounds' c₁' hc₁ => ?_) rounds'
  obtain ⟨ws₁, hc₁⟩ := S.toSecond hc₁
  refine leads_of_items_append (hitem _ S.second_copies) hkey hc₁ S.second_rest
    (fun rounds' c₁' hc₁ => ?_) rounds'
  obtain ⟨ws₁, hc₁⟩ := S.toFirst hc₁
  refine leads_of_items_append (hitem _ S.first_copies) hmid hc₁ S.first_rest
    (fun rounds' c₁' hc₁ => ?_) rounds'
  obtain ⟨ws₁, hc₁⟩ := S.toBelow hc₁
  exact S.finish (Frame.Closes.itemsUntil (hitem _ S.below_copies).frames _ _ _).frames hc₁ hpost

/-- One of the items reaches from the piece above to the one below. -/
theorem leads_around_item {item item' : Parser Member} [Consuming item] {front back : List Member}
    {U : Member → Prop} {rounds : Nat}
    (hitem : ∀ F : Frame, F.Copies cs cs' → F.Closes (SameMember cs cs') item item')
    (hfront : Items .closeBrace item c front c₀) (hct : ReadsBorder c₀ ct)
    (hclose : c₀.head ≠ .punct .closeBrace) (hend : c₀.head ≠ .endOfText)
    (hone : ∀ ws c₀', S.above.Matches ws c₀ c₀' →
      Leads item' c₀' fun m' c₁' => S.below.Matches c₁.tokens c₁ c₁' ∧ U m')
    (hback : Runs (itemsUntil .closeBrace item rounds) c₁ back c₂)
    (hc : S.above.Matches ws c c') (rounds' : Nat) :
    Leads (itemsUntil .closeBrace item' rounds') c' fun ms' c₂' =>
      S.below.Matches c₂.tokens c₂ c₂' ∧ ∃ front' m' back', ms' = front' ++ m' :: back' ∧
        List.Forall₂ (SameMember cs cs') front front' ∧ U m' ∧
        List.Forall₂ (SameMember cs cs') back back' := by
  obtain ⟨ws₀, hne, h₀⟩ := S.exists_above hct
  have hrest (rounds' : Nat) (c₀' : Cursor) (hc₀ : S.above.Matches ws₀ c₀ c₀') :
      Leads (itemsUntil .closeBrace item' rounds') c₀' fun ms' c₂' =>
        S.below.Matches c₂.tokens c₂ c₂' ∧ ∃ m' back', ms' = m' :: back' ∧ U m' ∧
          List.Forall₂ (SameMember cs cs') back back' := by
    have hhead := S.head hc₀ hct
    refine leads_itemsUntil_cons (hhead ▸ hclose) (hhead ▸ hend) (hone ws₀ c₀' hc₀)
      (fun m' c₁' rounds' hm' => ?_) rounds'
    refine (S.finish (Frame.Closes.itemsUntil (hitem _ S.below_copies).frames _ _ rounds').frames
      hm'.1 hback).mono fun back' c₂' hback' => ?_
    exact ⟨hback'.1, m', back', rfl, hm'.2, hback'.2⟩
  refine (leads_of_items (hitem _ S.above_copies) hfront hc h₀ hrest rounds').mono ?_
  rintro _ c₂' ⟨front', _, rfl, hfront', hc₂, m', back', rfl, hm', hback'⟩
  exact ⟨hc₂, front', m', back', rfl, hfront', hm', hback'⟩

end Exchange

theorem border_of_typeFront {f : TypeFront} (h : Runs typeFront c f c') : ReadsBorder c c' := by
  have hbrace {d : Cursor} (hd : d.head = .punct .openBrace) : ReadsBorder d d.advance := by
    obtain ⟨t, ht, hread⟩ := exists_reads_advance hd (by simp)
    exact ⟨[], t, hread, isBorder_iff.2 (.inr (.inl ht))⟩
  have hkeyword := @Onward.moves _ typeKeyword inferInstance
  have hname := @Onward.moves _ identifier inferInstance
  have hparams := @Onward.moves _ typeParameters inferInstance
  have hskip := @Onward.moves _ skipConstraints inferInstance
  have hbases := @Onward.moves _ (byComma (type .declaration)) inferInstance
  simp [typeFront] at h
  obtain ⟨_, c₁, h₁, _, c₂, h₂, _, c₃, h₃, h⟩ := h
  have hreaches := ((hkeyword h₁).trans (hname h₂)).trans (hparams h₃)
  obtain ⟨-, _, c₄, h₄, ⟨hhead, rfl⟩, -⟩ | ⟨-, _, c₄, h₄, _, c₅, h₅, ⟨hhead, rfl⟩, -⟩ := h
  · exact (hbrace hhead).behind (hreaches.trans (hskip h₄))
  · exact (hbrace hhead).behind
      (((hreaches.trans c₃.reaches_advance).trans (hbases h₄)).trans (hskip h₅))

/-- A member starts with the next token, in front of which another member may have ended. -/
def StartsAt (m : Member) (c : Cursor) : Prop :=
  IsFresh c.tokens ∧ ∃ t rest, c.tokens = t :: rest ∧ m.BeginsWith t

/-- Where two members of one type stand: the first one starts at the first cursor, and the other one
is read between the other two. -/
structure Places (c ct ck ce : Cursor) (target key : Member) : Prop where
  above : ReadsBorder c ct
  targetStarts : StartsAt target ct
  between : ReadsBorder ct ck
  keyStarts : StartsAt key ck
  closes : ReadsClosing ck ce
  stop : key.range.stop = max ce.last key.range.start
  below : IsFresh ce.tokens

theorem Places.behind {target key : Member} (h : Places c₁ ct ck ce target key)
    (h₁ : c.Reaches c₁) : Places c ct ck ce target key :=
  { h with above := h.above.behind h₁ }

/-! ### Members and marks -/

section
variable {mark : Punct}

theorem eq_of_leading {l : Leading} (hhead : c.head = .punct mark) (hmark : mark ≠ .openBracket)
    (h : Runs leading c l c') : c = c' := by
  simp [leading, attributes, attributeSections, modifiersUpTo, hhead, hmark] at h
  exact h.1

/-- No member starts with a mark, but for the bracket in front of its attributes. -/
theorem not_runs_memberWith {typeDecl : Leading → Parser TypeDecl} {name : String} {m : Member}
    (hhead : c.head = .punct mark) (hmark : mark ≠ .openBracket) :
    ¬ Runs (memberWith typeDecl name) c m c' := by
  intro h
  simp [memberWith] at h
  obtain ⟨l, c₁, hl, h⟩ := h
  obtain rfl := eq_of_leading hhead hmark hl
  simp [hhead, typedMember, type, typeToDepth, typeWith] at h

end

section
variable {namespaceName : Option String} {depth : Nat} {name : String} {m target key : Member}
  {pre mid post : List Member}

theorem isFresh_of_head (hassign : c.head ≠ .punct .assign)
    (hsemicolon : c.head ≠ .punct .semicolon) : IsFresh c.tokens := by
  intro t ht
  obtain ⟨rest, htokens⟩ := List.head?_eq_some_iff.1 ht
  rw [Cursor.head, htokens] at hassign hsemicolon
  exact ⟨hassign, hsemicolon⟩

theorem isFresh_of_memberWith {typeDecl : Leading → Parser TypeDecl}
    (h : Runs (memberWith typeDecl name) c m c') : IsFresh c.tokens :=
  isFresh_of_head (fun hhead => not_runs_memberWith hhead (by simp) h)
    fun hhead => not_runs_memberWith hhead (by simp) h

theorem startsAt_of_memberWith
    (h : Runs (memberWith (typeDeclToDepth namespaceName depth) name) c m c') : StartsAt m c := by
  obtain ⟨tokens, hin⟩ := exists_within c
  exact ⟨isFresh_of_memberWith h, exists_begins_of_memberWith hin h⟩

theorem isFresh_of_itemsUntil {typeDecl : Leading → Parser TypeDecl} {rounds : Nat}
    {ms : List Member}
    (h : Runs (itemsUntil .closeBrace (memberWith typeDecl name) rounds) c ms c') :
    IsFresh c.tokens := by
  cases rounds with
  | zero => simp [itemsUntil] at h
  | succ rounds =>
    simp only [itemsUntil, runs_bind, runs_ite] at h
    simp at h
    obtain ⟨-, -, m, c₁, hm, -⟩ | ⟨⟨hhead, -⟩, -⟩ := h
    · exact isFresh_of_memberWith hm
    · exact isFresh_of_head (by simp [hhead]) (by simp [hhead])

theorem places_of_items {rounds : Nat} (hfront : ReadsBorder c c₀)
    (hpre : Items .closeBrace (memberWith (typeDeclToDepth namespaceName depth) name) c₀ pre ct)
    (hmid : Items .closeBrace (memberWith (typeDeclToDepth namespaceName depth) name) ct
      (target :: mid) ck)
    (hkey : Items .closeBrace (memberWith (typeDeclToDepth namespaceName depth) name) ck [key] ce)
    (hpost : Runs (itemsUntil .closeBrace (memberWith (typeDeclToDepth namespaceName depth) name)
      rounds) ce post c₂) : Places c ct ck ce target key := by
  have hborder ⦃c m c'⦄
      (h : Runs (memberWith (typeDeclToDepth namespaceName depth) name) c m c') :
      ReadsBorder c c' :=
    (memberWith_declares namespaceName depth name h).1.border
  have habove : ReadsBorder c ct := by
    cases pre with
    | nil =>
      cases hpre
      exact hfront
    | cons => exact (hpre.border hborder (List.cons_ne_nil _ _)).behind hfront.reaches
  have hbetween := hmid.border hborder (List.cons_ne_nil _ _)
  cases hmid with
  | cons _ _ htarget _ =>
    cases hkey with
    | cons _ _ hkey hrest =>
      cases hrest
      have hends := memberWith_declares namespaceName depth name hkey
      exact ⟨habove, startsAt_of_memberWith htarget, hbetween, startsAt_of_memberWith hkey,
        hends.1, hends.2, isFresh_of_itemsUntil hpost⟩

end

/-! ### Types -/

section
variable {namespaceName : Option String} {decl d : TypeDecl} {target key : Member}
  {pre mid post : List Member} {l : Leading}

theorem exists_type_of_mem_nestedIn {ms : List Member} (h : decl ∈ nestedIn ms) :
    ∃ front e back, ms = front ++ .type e :: back ∧ decl ∈ e.withNested := by
  induction ms with
  | nil => simp [nestedIn] at h
  | cons m ms ih =>
    rw [nestedIn_cons, List.mem_append] at h
    obtain hm | hms := h
    · cases m with
      | type e => exact ⟨[], e, ms, rfl, by simpa [nestedIn] using hm⟩
      | _ => simp [nestedIn] at hm
    · obtain ⟨front, e, back, rfl, he⟩ := ih hms
      exact ⟨m :: front, e, back, rfl, he⟩

/-- The types are the same up to their members. -/
theorem Exchange.leads_typeDeclWith (S : Exchange cs cs' ct ck ce) {ws : List Token}
    {member' : String → Parser Member} {l' : Leading} {f : TypeFront} {ms : List Member}
    {T : List Member → Prop} (hl : S.above.LeadingAt l l') (hc : S.above.Matches ws c c')
    (hf : Runs typeFront c f c₀) (hct : c₀.Reaches ct)
    (hback : Runs (typeBack l namespaceName f ms) c₂ d c₁)
    (hitems : ∀ ws c₀' rounds, S.above.Matches ws c₀ c₀' →
      Leads (itemsUntil .closeBrace (member' f.name.text) rounds) c₀' fun ms' c₂' =>
        S.below.Matches c₂.tokens c₂ c₂' ∧ T ms') :
    Leads (typeDeclWith member' l' namespaceName) c' fun d' c₁' =>
      S.below.Matches c₁.tokens c₁ c₁' ∧ d.head cs = d'.head cs' ∧ T d'.members := by
  rw [typeDeclWith_eq]
  refine S.stepUpTo Frame.typeFront_closes hc hf hct fun f' ws₀ c₀' hc₀ hf' => ?_
  have hmembers : Leads (untilMark .closeBrace (member' f'.name.text)) c₀' fun ms' c₂' =>
      S.below.Matches c₂.tokens c₂ c₂' ∧ T ms' := by
    rw [← show f.name.text = f'.name.text from hf'.name.1]
    exact .next (runs_bound.2 ⟨rfl, rfl⟩) (hitems ws₀ c₀' _ hc₀)
  refine hmembers.bind fun ms' c₂' hms' => ?_
  refine (S.finish Frame.typeBack_closes.frames hms'.1 hback).mono fun d' c₁' hd' => ⟨hd'.1, ?_, ?_⟩
  · exact Frame.head_eq S.above_copies hl hf' hd'.2.1.1 hd'.2.2.1
  · rw [hd'.2.2.2]
    exact hms'.2

theorem exists_runs_of_type {typeDecl : Leading → Parser TypeDecl} {name : String}
    (h : Runs (memberWith typeDecl name) c (.type d) c') :
    ∃ l c₁, Runs leading c l c₁ ∧ Runs (atAnyWord ["class", "struct", "interface"]) c₁ true c₁ ∧
      Runs (typeDecl l) c₁ d c' := by
  simp [memberWith] at h
  obtain ⟨l, c₁, hl, ⟨hword, h⟩ | ⟨-, -, hm⟩⟩ := h
  · exact ⟨l, c₁, hl, by simpa using hword, h⟩
  · exact absurd (opens_of_typedMember hm).1 (by simp [Member.isType])

/-- A nested type with changed members. -/
theorem Exchange.leads_typeMember (S : Exchange cs cs' ct ck ce) {ws : List Token}
    {typeDecl' : Leading → Parser TypeDecl} {T : TypeDecl → Prop} (name : String)
    (hc : S.above.Matches ws c c') (hl : Runs leading c l c₀) (hct : ReadsBorder c₀ ct)
    (hword : Runs (atAnyWord ["class", "struct", "interface"]) c₀ true c₀)
    (htype : ∀ ws l' c₀', S.above.LeadingAt l l' → S.above.Matches ws c₀ c₀' →
      Leads (typeDecl' l') c₀' fun d' c₁' => S.below.Matches c₁.tokens c₁ c₁' ∧ T d') :
    Leads (memberWith typeDecl' name) c' fun m' c₁' =>
      S.below.Matches c₁.tokens c₁ c₁' ∧ ∃ d', m' = .type d' ∧ T d' := by
  rw [memberWith_eq]
  refine S.stepLeading hc hl hct fun ws₀ l' c₀' hl' hc₀ => ?_
  have hword' : Runs (atAnyWord ["class", "struct", "interface"]) c₀' true c₀' := by
    rw [runs_atAnyWord, S.head hc₀ hct] at *
    exact ⟨rfl, hword.2⟩
  exact .next hword' ((htype ws₀ l' c₀' hl' hc₀).bind fun d' c₁' hd' =>
    .pure ⟨hd'.1, d', rfl, hd'.2⟩)

theorem Frame.memberToDepth_closes {F : Frame} (hF : F.Copies cs cs') (depth depth' : Nat)
    (name : String) : F.Closes (SameMember cs cs')
      (memberWith (typeDeclToDepth namespaceName depth) name)
      (memberWith (typeDeclToDepth namespaceName depth') name) :=
  Frame.memberWith_closes hF (fun _ _ => Frame.typeDeclToDepth_closes hF depth depth') _

/-- Two members of a type have their places in the type that is read, and where these are exchanged,
the type is read with other members of the one. -/
def TypeExchanges (decl : TypeDecl) (target key : Member) (members : List Member)
    (namespaceName : Option String) (l : Leading) (c : Cursor) (d : TypeDecl) (c₁ : Cursor) :
    Prop :=
  ∃ ct ck ce, Places c ct ck ce target key ∧
    ∀ ⦃cs cs'⦄ (S : Exchange cs cs' ct ck ce) ⦃ws l' c'⦄ depth,
      S.above.LeadingAt l l' → S.above.Matches ws c c' →
      Leads (typeDeclToDepth namespaceName depth l') c' fun d' c₁' =>
        S.below.Matches c₁.tokens c₁ c₁' ∧ Changed cs cs' decl members d d'

section
variable {f : TypeFront} {depth rounds : Nat} (hf : Runs typeFront c f c₀)
include hf

/-- The members of the type itself. -/
theorem typeExchanges_of_members (hms : decl.members = pre ++ target :: (mid ++ key :: post))
    (hkey : key.isType = false)
    (hitems : Runs (itemsUntil .closeBrace
      (memberWith (typeDeclToDepth namespaceName depth) f.name.text) rounds) c₀ decl.members c₂)
    (hback : Runs (typeBack l namespaceName f decl.members) c₂ decl c₁) :
    TypeExchanges decl target key (pre ++ key :: target :: (mid ++ post)) namespaceName l c decl
      c₁ := by
  rw [hms] at hitems
  obtain ⟨rounds, ct, hpre, hitems⟩ := exists_items _ hitems
  obtain ⟨rounds, ck, hmid, hitems⟩ := exists_items (target :: mid) hitems
  obtain ⟨rounds, ce, hone, hpost⟩ := exists_items [key] hitems
  have hplaces := places_of_items (border_of_typeFront hf) hpre hmid hone hpost
  refine ⟨ct, ck, ce, hplaces, fun cs cs' S ws l' c' depth' hl hc => ?_⟩
  cases depth' with
  | zero => exact .inl ⟨_, fails_failTooDeep.2 rfl, rfl⟩
  | succ depth' =>
    refine (S.leads_typeDeclWith hl hc hf hpre.reaches hback fun ws c₀' rounds hc₀ =>
      S.leads_items (fun F hF => Frame.memberToDepth_closes hF depth depth' _) hpre hmid hone hpost
        hc₀ rounds).mono fun d' c₁' hd' => ?_
    exact ⟨hd'.1, .of_members hms hkey hd'.2.1 hd'.2.2⟩

/-- The members of a type in it. -/
theorem typeExchanges_of_nested {e : TypeDecl} {front back members : List Member}
    (hms : d.members = front ++ .type e :: back)
    (hitems : Runs (itemsUntil .closeBrace
      (memberWith (typeDeclToDepth namespaceName depth) f.name.text) rounds) c₀ d.members c₂)
    (hback : Runs (typeBack l namespaceName f d.members) c₂ d c₁)
    (he : ∀ ⦃l₁ c₅ c₄⦄, Runs (typeDeclToDepth namespaceName depth l₁) c₅ e c₄ →
      TypeExchanges decl target key members namespaceName l₁ c₅ e c₄) :
    TypeExchanges decl target key members namespaceName l c d c₁ := by
  rw [hms] at hitems
  obtain ⟨rounds, c₃, hfront, hitems⟩ := exists_items _ hitems
  obtain ⟨rounds, c₄, hone, hbackItems⟩ := exists_items [Member.type e] hitems
  cases hone with
  | cons hclose hend hfirst hnil =>
    cases hnil
    obtain ⟨l₁, c₅, hl₁, hword, hrun⟩ := exists_runs_of_type hfirst
    obtain ⟨ct, ck, ce, hplaces, hS⟩ := he hrun
    have hreaches := hfront.reaches.trans (reaches_of_leading hl₁)
    refine ⟨ct, ck, ce, hplaces.behind ((border_of_typeFront hf).reaches.trans hreaches),
      fun cs cs' S ws l' c' depth' hl hc => ?_⟩
    cases depth' with
    | zero => exact .inl ⟨_, fails_failTooDeep.2 rfl, rfl⟩
    | succ depth' =>
      have hborder := hplaces.above.behind (reaches_of_leading hl₁)
      have hone (ws₃ : List Token) (c₃' : Cursor) (hc₃ : S.above.Matches ws₃ c₃ c₃') :=
        S.leads_typeMember f.name.text hc₃ hl₁ hplaces.above hword
          fun ws l' c₅' hl' hc₅ => hS S depth' hl' hc₅
      refine (S.leads_typeDeclWith hl hc hf (hreaches.trans hplaces.above.reaches) hback
        fun ws c₀' rounds hc₀ => S.leads_around_item
          (fun F hF => Frame.memberToDepth_closes hF depth depth' _) hfront hborder hclose hend
          hone hbackItems hc₀ rounds).mono ?_
      rintro d' c₁' ⟨hc₁, hhead, front', m', back', hms', hfront', ⟨e', rfl, he'⟩, hback'⟩
      exact ⟨hc₁, .around hms hms' hhead hfront' he' hback'⟩

end

theorem typeDeclToDepth_exchanges (hms : decl.members = pre ++ target :: (mid ++ key :: post))
    (hkey : key.isType = false) {depth : Nat} (hdecl : decl ∈ d.withNested)
    (h : Runs (typeDeclToDepth namespaceName depth l) c d c₁) :
    TypeExchanges decl target key (pre ++ key :: target :: (mid ++ post)) namespaceName l c d
      c₁ := by
  induction depth generalizing d l c c₁ with
  | zero => simp [typeDeclToDepth] at h
  | succ depth ih =>
    rw [typeDeclToDepth, typeDeclWith_eq] at h
    obtain ⟨f, c₀, hf, h⟩ := runs_bind.1 h
    obtain ⟨ms, c₂, hitems, hback⟩ := runs_bind.1 h
    obtain ⟨n, c₀', hn, hitems⟩ := runs_bind.1 hitems
    obtain ⟨rfl, -⟩ := runs_bound.1 hn
    obtain ⟨-, rfl⟩ := opened_of_typeBack hback
    rw [d.withNested_eq_cons, List.mem_cons] at hdecl
    obtain rfl | hdecl := hdecl
    · exact typeExchanges_of_members hf hms hkey hitems hback
    · obtain ⟨front, e, back, heq, he⟩ := exists_type_of_mem_nestedIn hdecl
      exact typeExchanges_of_nested hf heq hitems hback fun _ _ _ hrun => ih he hrun

end

/-! ### Files -/

section
variable {k : Bool → Parser β} {T : β → Cursor → Prop}

theorem leads_peek_bind {k : TokenKind → Parser β} :
    Leads (peek >>= k) c T ↔ Leads (k c.head) c T := Iff.rfl

theorem leads_peekSecond_bind {k : TokenKind → Parser β} :
    Leads (peekSecond >>= k) c T ↔ Leads (k c.second) c T := Iff.rfl

theorem leads_bound_bind {k : Nat → Parser β} :
    Leads (bound >>= k) c T ↔ Leads (k (c.tokens.length + 1)) c T := Iff.rfl

theorem leads_advance_bind {k : Unit → Parser β} :
    Leads (advance >>= k) c T ↔ Leads (k ()) c.advance T := Iff.rfl

theorem leads_atMark_bind {m : Punct} :
    Leads (atMark m >>= k) c T ↔ Leads (k (c.head == .punct m)) c T := Iff.rfl

theorem leads_takeMark_bind {m : Punct} : Leads (takeMark m >>= k) c T ↔
    if c.head = .punct m then Leads (k true) c.advance T else Leads (k false) c T := by
  unfold takeMark
  by_cases h : c.head = .punct m <;> simp [h, leads_atMark_bind, leads_advance_bind]

theorem leads_takeWord_bind {w : String} : Leads (takeWord w >>= k) c T ↔
    if c.head = .word w then Leads (k true) c.advance T else Leads (k false) c T := by
  unfold takeWord atWord
  by_cases h : c.head = .word w <;> simp [h, leads_peek_bind, leads_advance_bind]

end

section
variable {topLevel : Bool} {rounds : Nat} {namespaceName : Option String} {decl : TypeDecl}
  {target key : Member} {pre mid post members : List Member} {u rest : CompilationUnit}

/-- The two members stand in what is read between the two cursors, and in a text with the pieces
exchanged the parser, given a bound, reads the same but for the members of their type. -/
def Exchanges (decl : TypeDecl) (target key : Member) (members : List Member)
    (p : Nat → Parser CompilationUnit) (c : Cursor) (u : CompilationUnit) (c₁ : Cursor) : Prop :=
  ∃ ct ck ce, Places c ct ck ce target key ∧
    ∀ ⦃cs cs'⦄ (S : Exchange cs cs' ct ck ce) ⦃ws c'⦄ rounds,
    S.above.Matches ws c c' → Leads (p rounds) c' fun u' c₁' =>
      S.below.Matches c₁.tokens c₁ c₁' ∧ ChangedUnit cs cs' decl members u u'

theorem Leads.map {p : Parser α} {f : α → β} {T : β → Cursor → Prop}
    (h : Leads p c fun a c' => T (f a) c') : Leads (f <$> p) c T := by
  rw [map_eq_pure_bind]
  exact h.bind fun a c' ha => .pure ha

/-- More declarations have been read above. -/
theorem Exchanges.behind {p q : Nat → Parser CompilationUnit} {v : CompilationUnit}
    (h : Exchanges decl target key members p c₀ rest c₁) (hreaches : c.Reaches c₀)
    (hq : ∀ ⦃cs cs' ct ck ce⦄ (S : Exchange cs cs' ct ck ce) ⦃ws c'⦄ rounds
      ⦃T : CompilationUnit → Cursor → Prop⦄, ReadsBorder c₀ ct → S.above.Matches ws c c' →
      (∀ ws₁ c₀' rounds, S.above.Matches ws₁ c₀ c₀' → Leads (p rounds) c₀' fun rest' c₁' =>
        ∀ v', SameUnit cs cs' v v' → T (v'.append rest') c₁') → Leads (q (rounds + 1)) c' T)
    (hzero : q 0 = failTooDeep) :
    Exchanges decl target key members q c (v.append rest) c₁ := by
  obtain ⟨ct, ck, ce, hplaces, hS⟩ := h
  refine ⟨ct, ck, ce, hplaces.behind hreaches, fun cs cs' S ws c' rounds hc => ?_⟩
  cases rounds with
  | zero =>
    rw [hzero]
    exact .inl ⟨_, fails_failTooDeep.2 rfl, rfl⟩
  | succ rounds =>
    exact hq S rounds hplaces.above hc fun ws₁ c₀' rounds hc₀ =>
      (hS S rounds hc₀).mono fun rest' c₁' hrest v' hv => ⟨hrest.1, hrest.2.behind hv⟩

theorem exchanges_using (hhead : c.head = .word "using") {name : Option String}
    (hname : Runs usingDirective c.advance name c₀)
    (h : Exchanges decl target key members (declarations topLevel · namespaceName) c₀ rest c₁) :
    Exchanges decl target key members (declarations topLevel · namespaceName) c
      (CompilationUnit.append ⟨name.toList, [], []⟩ rest) c₁ := by
  have hreaches := c.reaches_advance.trans (reaches_of_usingDirective hname)
  refine h.behind hreaches (fun cs cs' ct ck ce S ws c' rounds T hct hc hrest => ?_) rfl
  have hborder := hct.behind hreaches
  obtain ⟨ws₁, hc₁⟩ := S.advance hc hborder
  simp [declarations, leads_peek_bind, leads_atMark_bind, leads_takeWord_bind, S.head hc hborder,
    hhead]
  refine S.step Frame.usingDirective_frames hc₁ hname hct fun name' ws₂ c₀' hc₀ hname' => ?_
  obtain rfl := hname'
  exact .map ((hrest ws₂ c₀' rounds hc₀).mono fun rest' c₁' hT => hT _ ⟨rfl, rfl⟩)

theorem exchanges_attributes (hhead : c.head = .punct .openBracket)
    (hsecond : c.second = .word "assembly") {as : List Attribute} (has : Runs attributes c as c₀)
    (h : Exchanges decl target key members (declarations topLevel · namespaceName) c₀ rest c₁) :
    Exchanges decl target key members (declarations topLevel · namespaceName) c
      (CompilationUnit.append ⟨[], as, []⟩ rest) c₁ := by
  have hreaches := reaches_of_attributes has
  refine h.behind hreaches (fun cs cs' ct ck ce S ws c' rounds T hct hc hrest => ?_) rfl
  have hborder := hct.behind hreaches
  have hsecond' := S.look (f := fun next s => next == .punct .openBracket && s == .word "assembly")
    hc hborder (.of_marks (fun _ _ => rfl) (fun _ _ => rfl) fun _ _ => rfl)
  simp [S.head hc hborder, hhead, hsecond] at hsecond'
  simp [declarations, leads_peek_bind, leads_atMark_bind, leads_takeWord_bind,
    leads_peekSecond_bind, S.head hc hborder, hhead, hsecond']
  refine S.step Frame.attributes_tracks hc has hct fun as' ws₁ c₀' hc₀ _ => ?_
  exact .map ((hrest ws₁ c₀' rounds hc₀).mono fun rest' c₁' hT => hT _ ⟨rfl, rfl⟩)

/-- No other declaration starts here, so a type does. -/
def StartsType (topLevel : Bool) (c : Cursor) : Prop :=
  c.head ≠ .endOfText ∧ (topLevel = false → c.head ≠ .punct .closeBrace) ∧
    c.head ≠ .word "using" ∧ c.head ≠ .word "namespace" ∧
    (c.head = .punct .openBracket → c.second ≠ .word "assembly")

theorem leads_of_startsType (h : StartsType topLevel c) {T : CompilationUnit → Cursor → Prop}
    (hT : Leads (leading >>= fun l => do
      let d ← typeDeclToDepth namespaceName (← bound) l
      let rest ← declarations topLevel rounds namespaceName
      return CompilationUnit.append ⟨[], [], [d]⟩ rest) c T) :
    Leads (declarations topLevel (rounds + 1) namespaceName) c T := by
  obtain ⟨hend, hclose, husing, hnamespace, hattributes⟩ := h
  have hclose' : ¬ (topLevel = false ∧ c.head = .punct .closeBrace) := fun h => hclose h.1 h.2
  have hattributes' : ¬ (c.head = .punct .openBracket ∧ c.second = .word "assembly") :=
    fun h => hattributes h.1 h.2
  simp [declarations, leads_peek_bind, leads_atMark_bind, leads_takeWord_bind,
    leads_peekSecond_bind, hend, hclose', husing, hnamespace, hattributes']
  simpa using hT

theorem Exchange.startsType (S : Exchange cs cs' ct ck ce) {ws : List Token}
    (hc : S.above.Matches ws c c') (hct : ReadsBorder c ct) (h : StartsType topLevel c) :
    StartsType topLevel c' := by
  have hlook := S.look (f := fun next s => next == .punct .openBracket && s == .word "assembly")
    hc hct (.of_marks (fun _ _ => rfl) (fun _ _ => rfl) fun _ _ => rfl)
  unfold StartsType at *
  rw [S.head hc hct] at *
  refine ⟨h.1, h.2.1, h.2.2.1, h.2.2.2.1, fun hhead hsecond => h.2.2.2.2 hhead ?_⟩
  simpa [hhead, hsecond] using hlook

theorem exchanges_type (hstarts : StartsType topLevel c) {l : Leading} {d : TypeDecl}
    {depth : Nat} (hl : Runs leading c l c₀)
    (hd : Runs (typeDeclToDepth namespaceName depth l) c₀ d c₂)
    (h : Exchanges decl target key members (declarations topLevel · namespaceName) c₂ rest c₁) :
    Exchanges decl target key members (declarations topLevel · namespaceName) c
      (CompilationUnit.append ⟨[], [], [d]⟩ rest) c₁ := by
  have hl' := reaches_of_leading hl
  have hd' := (typeDeclToDepth_consumes namespaceName depth l hd).1
  refine h.behind (hl'.trans hd') (fun cs cs' ct ck ce S ws c' rounds T hct hc hrest => ?_) rfl
  have hborder := hct.behind hd'
  refine leads_of_startsType (S.startsType hc (hborder.behind hl') hstarts) ?_
  refine S.stepLeading hc hl hborder fun ws₁ l' c₀' hl hc₀ => leads_bound_bind.2 ?_
  refine S.step (Frame.typeDeclToDepth_closes S.above_copies _ _ hl).frames hc₀ hd hct
    fun d' ws₂ c₂' hc₂ hsame => (hrest ws₂ c₂' rounds hc₂).bind fun rest' c₁' hT => .pure ?_
  exact hT _ ⟨rfl, by simpa [CompilationUnit.allTypes] using hsame.2⟩

/-- The two members stand in the next type. -/
theorem exchanges_inType (hms : decl.members = pre ++ target :: (mid ++ key :: post))
    (hkey : key.isType = false) (hstarts : StartsType topLevel c) {l : Leading} {d : TypeDecl}
    {depth : Nat} (hdecl : decl ∈ d.withNested) (hl : Runs leading c l c₀)
    (hd : Runs (typeDeclToDepth namespaceName depth l) c₀ d c₂)
    (hrest : Runs (declarations topLevel rounds namespaceName) c₂ rest c₁) :
    Exchanges decl target key (pre ++ key :: target :: (mid ++ post))
      (declarations topLevel · namespaceName) c (CompilationUnit.append ⟨[], [], [d]⟩ rest) c₁ := by
  obtain ⟨ct, ck, ce, hplaces, hS⟩ := typeDeclToDepth_exchanges hms hkey hdecl hd
  have hl' := reaches_of_leading hl
  refine ⟨ct, ck, ce, hplaces.behind hl', fun cs cs' S ws c' rounds' hc => ?_⟩
  cases rounds' with
  | zero => exact .inl ⟨_, fails_failTooDeep.2 rfl, rfl⟩
  | succ rounds' =>
    refine leads_of_startsType (S.startsType hc (hplaces.above.behind hl') hstarts) ?_
    refine S.stepLeading hc hl hplaces.above fun ws₁ l' c₀' hl hc₀ => leads_bound_bind.2 ?_
    refine (hS S _ hl hc₀).bind fun d' c₂' hd' => ?_
    refine (S.finish (Frame.declarations_frames S.below_copies _ _ rounds' _) hd'.1 hrest).bind
      fun rest' c₁' hrest' => .pure ⟨hrest'.1, .before ⟨rfl, ?_⟩ hrest'.2⟩
    simpa [CompilationUnit.allTypes] using hd'.2.2

/-! #### Namespaces -/

/-- The name of a namespace in another one. -/
def innerNamespace (namespaceName : Option String) (name : String) : Option String :=
  some (match namespaceName with
    | some outer => outer ++ "." ++ name
    | none => name)

/-- Reads the declarations of a namespace from behind its name, and those behind it. -/
def namespaceRest (topLevel : Bool) (rounds : Nat) (namespaceName : Option String) (name : String) :
    Parser CompilationUnit := do
  if ← takeMark .semicolon then declarations topLevel rounds (innerNamespace namespaceName name)
  else
    expectMark .openBrace
    let inner ← declarations false rounds (innerNamespace namespaceName name)
    let rest ← declarations topLevel rounds namespaceName
    return inner.append rest

section
variable {name : String} {n : Nat}

theorem Exchange.leads_namespace (S : Exchange cs cs' ct ck ce) {ws : List Token}
    {T : CompilationUnit → Cursor → Prop} (hhead : c.head = .word "namespace")
    (hname : Runs (dottedName n) c.advance name c₀) (hct : ReadsBorder c₀ ct)
    (hc : S.above.Matches ws c c')
    (hT : ∀ ws₁ c₀', S.above.Matches ws₁ c₀ c₀' → c₀'.head = c₀.head →
      Leads (namespaceRest topLevel rounds namespaceName name) c₀' T) :
    Leads (declarations topLevel (rounds + 1) namespaceName) c' T := by
  have hborder := hct.behind (c.reaches_advance.trans (reaches_of_dottedName hname))
  obtain ⟨ws₁, hc₁⟩ := S.advance hc hborder
  simp [declarations, leads_peek_bind, leads_atMark_bind, leads_takeWord_bind, leads_bound_bind,
    S.head hc hborder, hhead]
  refine S.step (Frame.dottedName_frames _ _) hc₁ hname hct fun name' ws₂ c₀' hc₀ hname' => ?_
  obtain rfl := hname'
  have hrest := hT ws₂ c₀' hc₀ (S.head hc₀ hct)
  simp [namespaceRest, innerNamespace] at hrest
  exact hrest

theorem exchanges_openNamespace (hhead : c.head = .word "namespace")
    (hname : Runs (dottedName n) c.advance name c₀) (hmark : c₀.head = .punct .semicolon)
    (h : Exchanges decl target key members
      (declarations topLevel · (innerNamespace namespaceName name)) c₀.advance u c₁) :
    Exchanges decl target key members (declarations topLevel · namespaceName) c u c₁ := by
  have hreaches := (c.reaches_advance.trans (reaches_of_dottedName hname))
  refine h.behind (v := {}) (hreaches.trans c₀.reaches_advance)
    (fun cs cs' ct ck ce S ws c' rounds T hct hc hrest => ?_) rfl
  have hborder := hct.behind c₀.reaches_advance
  refine S.leads_namespace hhead hname hborder hc fun ws₁ c₀' hc₀ hhead' => ?_
  obtain ⟨ws₂, hc₂⟩ := S.advance hc₀ hborder
  rw [namespaceRest, leads_takeMark_bind, if_pos (hhead'.trans hmark)]
  exact (hrest ws₂ _ rounds hc₂).mono fun rest' c₁' hT => hT {} ⟨rfl, rfl⟩

theorem leads_bracedNamespace {T : CompilationUnit → Cursor → Prop}
    (hbrace : c.head = .punct .openBrace)
    (hT : Leads (declarations false rounds (innerNamespace namespaceName name) >>= fun inner => do
      let rest ← declarations topLevel rounds namespaceName
      return inner.append rest) c.advance T) :
    Leads (namespaceRest topLevel rounds namespaceName name) c T := by
  have hmark : Runs (expectMark .openBrace) c () c.advance := runs_expectMark.2 ⟨hbrace, rfl⟩
  rw [namespaceRest, leads_takeMark_bind, if_neg (by simp [hbrace])]
  exact .next hmark hT

/-- The two members stand in a namespace. -/
theorem exchanges_inNamespace (hhead : c.head = .word "namespace")
    (hname : Runs (dottedName n) c.advance name c₀) (hbrace : c₀.head = .punct .openBrace)
    (h : Exchanges decl target key members
      (declarations false · (innerNamespace namespaceName name)) c₀.advance u c₂)
    (hrest : Runs (declarations topLevel rounds namespaceName) c₂ rest c₁) :
    Exchanges decl target key members (declarations topLevel · namespaceName) c (u.append rest)
      c₁ := by
  obtain ⟨ct, ck, ce, hplaces, hS⟩ := h
  have hreaches := (c.reaches_advance.trans (reaches_of_dottedName hname))
  refine ⟨ct, ck, ce, hplaces.behind (hreaches.trans c₀.reaches_advance),
    fun cs cs' S ws c' rounds' hc => ?_⟩
  cases rounds' with
  | zero => exact .inl ⟨_, fails_failTooDeep.2 rfl, rfl⟩
  | succ rounds' =>
    have hborder := hplaces.above.behind c₀.reaches_advance
    refine S.leads_namespace hhead hname hborder hc fun ws₁ c₀' hc₀ hhead' => ?_
    obtain ⟨ws₂, hc₂⟩ := S.advance hc₀ hborder
    refine leads_bracedNamespace (hhead'.trans hbrace) ((hS S rounds' hc₂).bind
      fun inner' c₂' hinner' => ?_)
    exact (S.finish (Frame.declarations_frames S.below_copies _ _ rounds' _) hinner'.1 hrest).bind
      fun rest' c₁' hrest' => .pure ⟨hrest'.1, hinner'.2.before hrest'.2⟩

/-- The two members stand behind a namespace. -/
theorem exchanges_behindNamespace (hhead : c.head = .word "namespace")
    (hname : Runs (dottedName n) c.advance name c₀) (hbrace : c₀.head = .punct .openBrace)
    (hinner : Runs (declarations false rounds (innerNamespace namespaceName name)) c₀.advance u c₂)
    (h : Exchanges decl target key members (declarations topLevel · namespaceName) c₂ rest c₁) :
    Exchanges decl target key members (declarations topLevel · namespaceName) c (u.append rest)
      c₁ := by
  have hreaches := (c.reaches_advance.trans (reaches_of_dottedName hname))
  have hinner' := c₀.reaches_advance.trans (declarations_moves _ _ _ hinner)
  refine h.behind (hreaches.trans hinner')
    (fun cs cs' ct ck ce S ws c' rounds T hct hc hrest => ?_) rfl
  have hborder := hct.behind hinner'
  refine S.leads_namespace hhead hname hborder hc fun ws₁ c₀' hc₀ hhead' => ?_
  obtain ⟨ws₂, hc₂⟩ := S.advance hc₀ hborder
  refine leads_bracedNamespace (hhead'.trans hbrace) ?_
  exact S.step (Frame.declarations_frames S.above_copies _ _ rounds _) hc₂ hinner hct
    fun inner' ws₃ c₂' hc₂ hsame => (hrest ws₃ c₂' rounds hc₂).bind fun rest' c₁' hT =>
      .pure (hT inner' hsame)

end

/-- **Exchanged members.**  What is read of a text with the two pieces exchanged is what is read of
the first text, but for the order of the members. -/
theorem declarations_exchanges (hms : decl.members = pre ++ target :: (mid ++ key :: post))
    (hkey : key.isType = false) (hdecl : decl ∈ u.allTypes)
    (h : Runs (declarations topLevel rounds namespaceName) c u c₁) :
    Exchanges decl target key (pre ++ key :: target :: (mid ++ post))
      (declarations topLevel · namespaceName) c u c₁ := by
  induction rounds generalizing c c₁ topLevel namespaceName u with
  | zero => simp [declarations] at h
  | succ rounds ih =>
    simp [declarations] at h
    obtain ⟨-, -, rfl, rfl⟩ | ⟨hend, ⟨-, rfl, rfl⟩ | ⟨hclose, h⟩⟩ := h
    · simp [CompilationUnit.allTypes] at hdecl
    · simp [CompilationUnit.allTypes] at hdecl
    obtain ⟨husing, ⟨hnamespace, h⟩ | ⟨hnamespace, name, c₀, hname, h⟩⟩ |
      ⟨husing, name, c₀, hname, rest, hrest, rfl⟩ := h
    · obtain ⟨⟨hhead, hsecond⟩, as, c₀, has, rest, hrest, rfl⟩ |
        ⟨hother, l, c₀, hl, d, c₂, hd, rest, hrest, rfl⟩ := h
      · exact exchanges_attributes hhead hsecond has (ih hdecl hrest)
      · have hstarts : StartsType topLevel c := ⟨hend, hclose, husing, hnamespace, hother⟩
        rw [CompilationUnit.allTypes_append, List.mem_append] at hdecl
        obtain hdecl | hdecl := hdecl
        · exact exchanges_inType hms hkey hstarts (by simpa [CompilationUnit.allTypes] using hdecl)
            hl hd hrest
        · exact exchanges_type hstarts hl hd (ih hdecl hrest)
    · obtain ⟨-, hbrace, inner, c₂, hinner, rest, hrest, rfl⟩ | ⟨hmark, hinner⟩ := h
      · rw [CompilationUnit.allTypes_append, List.mem_append] at hdecl
        obtain hdecl | hdecl := hdecl
        · exact exchanges_inNamespace hnamespace hname hbrace (ih hdecl hinner) hrest
        · exact exchanges_behindNamespace hnamespace hname hbrace hinner (ih hdecl hrest)
      · exact exchanges_openNamespace hnamespace hname hmark (ih hdecl hinner)
    · exact exchanges_using husing hname (ih hdecl hrest)

theorem compilationUnit_exchanges (hms : decl.members = pre ++ target :: (mid ++ key :: post))
    (hkey : key.isType = false) (hdecl : decl ∈ u.allTypes) (h : Runs compilationUnit c u c₁) :
    ∃ ct ck ce, Places c ct ck ce target key ∧ ∀ ⦃cs cs'⦄ (S : Exchange cs cs' ct ck ce) ⦃ws c'⦄,
      S.above.Matches ws c c' → ∃ u' c₁', Runs compilationUnit c' u' c₁' ∧
        ChangedUnit cs cs' decl (pre ++ key :: target :: (mid ++ post)) u u' := by
  obtain ⟨n, c₀, hn, h⟩ := runs_bind.1 h
  obtain ⟨rfl, -⟩ := runs_bound.1 hn
  obtain ⟨ct, ck, ce, hplaces, hS⟩ := declarations_exchanges hms hkey hdecl h
  refine ⟨ct, ck, ce, hplaces, fun cs cs' S ws c' hc => ?_⟩
  have hwhole : Leads compilationUnit c' fun u' c₁' => S.below.Matches c₁.tokens c₁ c₁' ∧
      ChangedUnit cs cs' decl (pre ++ key :: target :: (mid ++ post)) u u' := by
    rw [compilationUnit, leads_bound_bind]
    exact hS S _ hc
  obtain ⟨e, hfails, he⟩ | ⟨u', c₁', hrun, -, hu⟩ := hwhole
  · -- the bound of a whole file is large enough
    exact absurd he (refuses_of_compilationUnit hfails).cause_ne
  · exact ⟨u', c₁', hrun, hu⟩

end

end PropertyLint.Grammar
