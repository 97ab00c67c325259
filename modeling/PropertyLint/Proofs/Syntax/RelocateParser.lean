/-
# Parsers on moved tokens

A parser looks at the kinds of tokens and never at their places; it only copies places into what it
gives, and takes the greater or the smaller of two.  So on tokens that have been moved by a monotone
function on offsets it does what it did before, with all places moved: `Relocates φ f p q` says that
`q` does this for `p`, and that what `p` gives is moved by `f`.  There is one rule for every way to
build a parser.
-/
import PropertyLint.Proofs.Syntax.Reading
import PropertyLint.Proofs.Syntax.Relocate

namespace PropertyLint.Grammar

variable {φ : Nat → Nat} {α β γ δ : Type} {f : α → β} {g : γ → δ}

/-! ## Cursors -/

/-- The cursor with all places moved. -/
def Cursor.relocate (φ : Nat → Nat) (c : Cursor) : Cursor :=
  ⟨c.tokens.map (Token.relocate φ), φ c.last, c.fresh, φ c.size⟩

namespace Cursor

variable (φ) (c : Cursor)

@[simp] theorem relocate_head : (c.relocate φ).head = c.head := by
  rcases h : c.tokens with _ | ⟨t, rest⟩ <;> simp [relocate, head, h, Token.relocate]

@[simp] theorem relocate_second : (c.relocate φ).second = c.second := by
  rcases h : c.tokens with _ | ⟨t, _ | ⟨u, rest⟩⟩ <;>
    simp [relocate, second, h, Token.relocate]

@[simp] theorem relocate_position : (c.relocate φ).position = φ c.position := by
  rcases h : c.tokens with _ | ⟨t, rest⟩ <;>
    simp [relocate, position, h, Token.relocate, OffsetRange.relocate]

@[simp] theorem relocate_doc : (c.relocate φ).doc = c.doc.map (OffsetRange.relocate φ) := by
  rcases h : c.tokens with _ | ⟨t, rest⟩ <;> simp [relocate, doc, h, Token.relocate]

@[simp] theorem relocate_length : (c.relocate φ).tokens.length = c.tokens.length :=
  List.length_map _

@[simp] theorem relocate_advance : (c.relocate φ).advance = c.advance.relocate φ := by
  rcases h : c.tokens with _ | ⟨t, rest⟩ <;>
    simp [relocate, advance, h, Token.relocate, OffsetRange.relocate]

@[simp] theorem relocate_withFresh (n : NodeId) :
    (c.withFresh n).relocate φ = (c.relocate φ).withFresh n := rfl

@[simp] theorem relocate_renew : c.renew.relocate φ = (c.relocate φ).renew := rfl

end Cursor

/-! ## Parsers -/

/-- What a parser gives, and where it stops, with all places moved. -/
def relocateOutcome (φ : Nat → Nat) (f : α → β) :
    Except SyntaxError α × Cursor → Except SyntaxError β × Cursor
  | (.ok a, c) => (.ok (f a), c.relocate φ)
  | (.error e, c) => (.error (e.relocate φ), c.relocate φ)

/-- On the moved cursor the second parser does what the first one does on the cursor. -/
def Relocates (φ : Nat → Nat) (f : α → β) (p : Parser α) (q : Parser β) : Prop :=
  ∀ c : Cursor, q.outcome (c.relocate φ) = relocateOutcome φ f (p.outcome c)

namespace Relocates

theorem bind {p : Parser α} {q : Parser β} {k : α → Parser γ} {l : β → Parser δ}
    (hp : Relocates φ f p q) (hk : ∀ a, Relocates φ g (k a) (l (f a))) :
    Relocates φ g (p >>= k) (q >>= l) := by
  intro c
  rw [outcome_bind, outcome_bind, hp c]
  rcases p.outcome c with ⟨e | a, c₁⟩
  · rfl
  · exact hk a c₁

theorem pure {a : α} {b : β} (h : f a = b) : Relocates φ f (pure a) (pure b) := by
  intro c
  rw [outcome_pure, outcome_pure, ← h]
  rfl

theorem map {p : Parser α} {q : Parser β} {k : α → γ} {l : β → δ} (hp : Relocates φ f p q)
    (hkl : ∀ a, g (k a) = l (f a)) : Relocates φ g (k <$> p) (l <$> q) := by
  intro c
  rw [outcome_map, outcome_map, hp c]
  rcases p.outcome c with ⟨e | a, c₁⟩
  · rfl
  · simp [relocateOutcome, Except.map, hkl]

theorem ite {P : Prop} [Decidable P] {p p' : Parser α} {q q' : Parser β}
    (h : Relocates φ f p q) (h' : Relocates φ f p' q') :
    Relocates φ f (if P then p else p') (if P then q else q') := by
  split <;> assumption

theorem discard {p : Parser α} {q : Parser β} (hp : Relocates φ f p q) :
    Relocates φ (fun u : Unit => u) (discard p) (discard q) :=
  hp.map fun _ => rfl

theorem some {p : Parser α} {q : Parser β} (hp : Relocates φ f p q) :
    Relocates φ (Option.map f) (some <$> p) (some <$> q) :=
  hp.map fun _ => rfl

/-- The cursor itself is moved. -/
theorem get : Relocates φ (Cursor.relocate φ) get get := fun _ => rfl

/-- A part of the cursor that a move keeps or moves along. -/
theorem ask {k : Cursor → α} {l : Cursor → β} (h : ∀ c, f (k c) = l (c.relocate φ)) :
    Relocates φ f (do return k (← MonadState.get)) (do return l (← MonadState.get)) :=
  get.bind fun c => pure (h c)

theorem peek : Relocates φ (fun k => k) peek peek := ask fun c => (c.relocate_head φ).symm

theorem peekSecond : Relocates φ (fun k => k) peekSecond peekSecond :=
  ask fun c => (c.relocate_second φ).symm

theorem position : Relocates φ φ position position := ask fun c => (c.relocate_position φ).symm

theorem bound : Relocates φ (fun n => n) bound bound := ask fun c => by simp

theorem advance : Relocates φ (fun u => u) advance advance := by
  intro c
  rw [outcome_advance, outcome_advance, Cursor.relocate_advance]
  rfl

theorem failExpecting (e : Expected) :
    Relocates φ f (failExpecting e) (failExpecting e) := by
  intro c
  rw [outcome_failExpecting, outcome_failExpecting, Cursor.relocate_head,
    Cursor.relocate_position]
  rfl

theorem failTooDeep : Relocates φ f failTooDeep failTooDeep := by
  intro c
  rw [outcome_failTooDeep, outcome_failTooDeep, Cursor.relocate_position]
  rfl

/-- A check in front of the rest of a parser. -/
theorem check {P : Prop} [Decidable P] {e : Expected} {p : Parser α} {q : Parser β}
    (h : Relocates φ f p q) :
    Relocates φ f (if P then p else Grammar.failExpecting e >>= fun _ : Unit => p)
      (if P then q else Grammar.failExpecting e >>= fun _ : Unit => q) :=
  h.ite ((failExpecting (f := fun u => u) e).bind fun _ => h)

/-- Something that may stand in front of the rest of a parser. -/
theorem optional {P : Prop} [Decidable P] {x y : Parser Unit} {p : Parser α} {q : Parser β}
    (hx : Relocates φ (fun u => u) x y) (h : Relocates φ f p q) :
    Relocates φ f (if P then x >>= fun _ => p else p) (if P then y >>= fun _ => q else q) :=
  ite (hx.bind fun _ => h) h

/-- The rest of a parser behind one of two parsers. -/
theorem join {P : Prop} [Decidable P] {x y : Parser α} {x' y' : Parser β} {k : α → Parser γ}
    {l : β → Parser δ} (hx : Relocates φ f x x') (hy : Relocates φ f y y')
    (hk : ∀ a, Relocates φ g (k a) (l (f a))) :
    Relocates φ g (if P then x >>= k else y >>= k) (if P then x' >>= l else y' >>= l) :=
  ite (hx.bind hk) (hy.bind hk)

theorem atMark (m : Punct) : Relocates φ (fun b => b) (atMark m) (atMark m) :=
  peek.bind fun _ => pure rfl

theorem atWord (w : String) : Relocates φ (fun b => b) (atWord w) (atWord w) :=
  peek.bind fun _ => pure rfl

theorem atAnyWord (ws : List String) : Relocates φ (fun b => b) (atAnyWord ws) (atAnyWord ws) :=
  peek.bind fun _ => pure rfl

theorem takeMark (m : Punct) : Relocates φ (fun b => b) (takeMark m) (takeMark m) :=
  (atMark m).bind fun _ => ite (advance.bind fun _ => pure rfl) (pure rfl)

theorem takeWord (w : String) : Relocates φ (fun b => b) (takeWord w) (takeWord w) :=
  (atWord w).bind fun _ => ite (advance.bind fun _ => pure rfl) (pure rfl)

theorem expectMark (m : Punct) : Relocates φ (fun u => u) (expectMark m) (expectMark m) :=
  (takeMark m).bind fun _ => ite (pure rfl) (failExpecting _)

theorem identifier : Relocates φ (Ident.relocate φ) identifier identifier := by
  refine get.bind fun c => ?_
  rcases h : c.tokens with _ | ⟨⟨kind, range, doc⟩, rest⟩
  · simpa [Cursor.relocate, h] using failExpecting _
  · cases kind with
    | word w =>
      simp only [Cursor.relocate, h, List.map_cons, Token.relocate]
      exact advance.bind fun _ => pure rfl
    | _ =>
      simp only [Cursor.relocate, h, List.map_cons, Token.relocate]
      exact failExpecting _

theorem freshId : Relocates φ (fun n => n) freshId freshId := fun _ => rfl

theorem attempt {p : Parser α} {q : Parser β} (hp : Relocates φ f p q) :
    Relocates φ (Option.map f) (attempt p) (attempt q) := by
  intro c
  rw [outcome_attempt, outcome_attempt, hp c]
  rcases p.outcome c with ⟨e | a, c₁⟩
  · by_cases h : e.cause = .tooDeep <;> simp [relocateOutcome, SyntaxError.relocate, h]; rfl
  · rfl

/-! ## Places that are made from others -/

section
variable (hφ : Monotone φ)
include hφ

theorem rangeFrom (start : Nat) :
    Relocates φ (OffsetRange.relocate φ) (rangeFrom start) (rangeFrom (φ start)) :=
  ask fun c => by
    simp only [OffsetRange.relocate, Cursor.relocate, hφ.map_max]

theorem newNode (start : Nat) :
    Relocates φ (Node.relocate φ) (newNode start) (newNode (φ start)) :=
  freshId.bind fun _ => (rangeFrom hφ start).bind fun _ => pure rfl

end

/-! ## Lists -/

section
variable {item : Parser α} {item' : Parser β} (hitem : Relocates φ f item item')
include hitem

theorem itemsUntil (close : Punct) (rounds : Nat) :
    Relocates φ (List.map f) (itemsUntil close item rounds) (itemsUntil close item' rounds) := by
  induction rounds with
  | zero => exact failTooDeep
  | succ rounds ih =>
    refine (takeMark _).bind fun _ => ite (pure rfl) ?_
    refine peek.bind fun _ => optional (failExpecting _) ?_
    exact hitem.bind fun _ => ih.bind fun _ => pure rfl

theorem untilMark (close : Punct) :
    Relocates φ (List.map f) (untilMark close item) (untilMark close item') :=
  bound.bind fun _ => itemsUntil hitem close _

theorem byComma : Relocates φ (List.map f) (byComma item) (byComma item') := by
  refine bound.bind fun rounds => ?_
  induction rounds with
  | zero => exact failTooDeep
  | succ rounds ih =>
    refine hitem.bind fun _ => (takeMark _).bind fun _ => ite ?_ (pure rfl)
    exact ih.bind fun _ => pure rfl

theorem inParens : Relocates φ (List.map f) (inParens item) (inParens item') := by
  refine (expectMark _).bind fun _ => (atMark _).bind fun _ => ?_
  exact join (f := List.map f) (pure rfl) (byComma hitem) fun _ =>
    (expectMark _).bind fun _ => pure rfl

end

/-! ## Tokens that are passed over -/

theorem closePairs (opening closing : Punct) (rounds depth : Nat) :
    Relocates φ (fun u => u) (closePairs opening closing rounds depth)
      (closePairs opening closing rounds depth) := by
  fun_induction Grammar.closePairs opening closing rounds depth with
  | case1 => exact pure rfl
  | case2 => exact failTooDeep
  | case3 rounds depth ih₁ ih₂ ih₃ =>
    refine peek.bind fun _ => optional (failExpecting _) (peek.bind fun next => ?_)
    exact advance.bind fun _ => ite ih₁ (ite ih₂ ih₃)

theorem skipPair (opening closing : Punct) :
    Relocates φ (fun u => u) (skipPair opening closing) (skipPair opening closing) :=
  (expectMark _).bind fun _ => bound.bind fun _ => closePairs _ _ _ _

theorem skipTo (stop : TokenKind → Bool) (rounds : Nat) :
    Relocates φ (fun u => u) (skipTo stop rounds) (skipTo stop rounds) := by
  induction rounds with
  | zero => exact failTooDeep
  | succ rounds ih => exact peek.bind fun _ => ite (pure rfl) (advance.bind fun _ => ih)

end Relocates

end PropertyLint.Grammar
