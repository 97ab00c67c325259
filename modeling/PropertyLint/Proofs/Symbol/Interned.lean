/-
# Constructed types and array types are made once

A change makes at most one constructed type or one array type, and only if the tables have none with
these parts (`change_cases`).  What a type is built from stays (`exists_core`), so the tables name
each type by its parts (`Interned`), and a number that has been given for some parts is given for
them again (`Settled`).  Type parameters have to be attached before the type is constructed
(`ParamsFirst`): arguments may be the definition's own parameters at one time and not at another.
The main statement is `interned_once`.
-/
import PropertyLint.Proofs.Symbol.Constructed

namespace PropertyLint

/-- What is found in a table stands there. -/
theorem mem_of_lookup {α β : Type} [BEq α] [LawfulBEq α] {table : List (α × β)} {a : α} {b : β}
    (h : table.lookup a = some b) : (a, b) ∈ table := by
  obtain ⟨before, after, rfl, -⟩ := List.lookup_eq_some_iff.1 h
  exact List.mem_append_right _ (.head _)

/-! ## What a type is built from -/

/-- The type without its bases, members, parameters and declarations: what no change touches. -/
def TypeSymbol.core (t : TypeSymbol) : TypeSymbol :=
  { t with baseType := none, interfaces := [], members := [], typeParams := [], declarations := [] }

/-- The arguments stand for the definition itself: there are none, or they are its parameters. -/
def TypeSymbol.StandFor (t : TypeSymbol) (args : List SymbolId) : Prop :=
  args = [] ∨ t.typeParams = args

/-- The type parameters that a change attaches to the type with a number. -/
def Change.attached (id : SymbolId) : Change → List SymbolId
  | .addTypeParam edited param => if edited = id then [param] else []
  | _ => []

namespace Compilation

variable {c : Compilation} {id d element made : SymbolId} {t : TypeSymbol} {args : List SymbolId}

/-! ## Asking for a type by its parts -/

/-- The compilation with one more constructed type, a copy of a definition. -/
def withConstructed (c : Compilation) (d : SymbolId) (t : TypeSymbol) (args : List SymbolId) :
    Compilation :=
  { (c.add (.type { t with typeArgs := args, genericDefinition := some d })).2 with
    constructed := ((d, args), c.symbols.size) :: c.constructed }

/-- The array type with an element type, as it is made. -/
def arraySymbol (c : Compilation) (element : SymbolId) : TypeSymbol :=
  { name := c.nameOf element ++ "[]"
    kind := .array
    accessibility := .public_
    elementType := some element
    baseType := c.typeNamed? KnownType.array.metadataName }

/-- The compilation with one more array type. -/
def withArray (c : Compilation) (element : SymbolId) : Compilation :=
  { (c.add (.type (c.arraySymbol element))).2 with
    arrays := (element, c.symbols.size) :: c.arrays }

/-- The generic type made from a definition, which is looked up no further, and arguments. -/
def constructAt (c : Compilation) (d : SymbolId) (args : List SymbolId) : SymbolId × Compilation :=
  match c.type? d with
  | none => (d, c)
  | some t =>
    if args.isEmpty || t.typeParams == args then (d, c)
    else match c.constructed.lookup (d, args) with
      | some made => (made, c)
      | none => (c.symbols.size, c.withConstructed d t args)

theorem construct_eq (c : Compilation) (id : SymbolId) (args : List SymbolId) :
    c.construct id args = c.constructAt (c.definition id) args := rfl

/-- What is answered for a definition: itself, the type that has been made, or a new one. -/
theorem constructAt_cases (h : c.type? d = some t) (args : List SymbolId) :
    (t.StandFor args ∧ c.constructAt d args = (d, c)) ∨
    (¬ t.StandFor args ∧ ∃ made, c.constructed.lookup (d, args) = some made ∧
      c.constructAt d args = (made, c)) ∨
    (¬ t.StandFor args ∧ c.constructed.lookup (d, args) = none ∧
      c.constructAt d args = (c.symbols.size, c.withConstructed d t args)) := by
  have hown : (args.isEmpty || t.typeParams == args) = true ↔ t.StandFor args := by
    simp [TypeSymbol.StandFor]
  unfold constructAt
  simp only [h]
  by_cases hstand : t.StandFor args
  · exact .inl ⟨hstand, if_pos (hown.2 hstand)⟩
  · rw [if_neg (mt hown.1 hstand)]
    cases hlookup : c.constructed.lookup (d, args) with
    | some made => exact .inr (.inl ⟨hstand, made, rfl, rfl⟩)
    | none => exact .inr (.inr ⟨hstand, rfl, rfl⟩)

/-- What `arrayOf` answers: the type that has been made, or a new one. -/
theorem arrayOf_cases (c : Compilation) (element : SymbolId) :
    (∃ made, c.arrays.lookup element = some made ∧ c.arrayOf element = (made, c)) ∨
    (c.arrays.lookup element = none ∧
      c.arrayOf element = (c.symbols.size, c.withArray element)) := by
  unfold arrayOf
  cases hlookup : c.arrays.lookup element with
  | some made => exact .inl ⟨made, rfl, rfl⟩
  | none => exact .inr ⟨rfl, rfl⟩

/-- The definition and the arguments that a change asks for a type. -/
def asked? (c : Compilation) : Change → Option (SymbolId × List SymbolId)
  | .construct id args => (c.type? (c.definition id)).map fun _ => (c.definition id, args)
  | .nullableOf underlying => do
    let id ← c.typeNamed? KnownType.nullable.metadataName
    (c.type? (c.definition id)).map fun _ => (c.definition id, [underlying])
  | _ => none

theorem type?_add_cases {s : Symbol} (h : (c.add s).2.type? id = some t) :
    c.type? id = some t ∨ id = c.symbols.size ∧ s = .type t := by
  have hsize : id < (c.add s).2.symbols.size := lt_of_type?_eq_some h
  rw [add, Array.size_push] at hsize
  rcases Nat.lt_succ_iff_lt_or_eq.1 hsize with hlt | rfl
  · exact .inl ((type?_add_of_lt s hlt).symm.trans h)
  · rw [type?_add_size] at h
    cases s with
    | type u => exact .inr ⟨rfl, congrArg _ (Option.some.inj h)⟩
    | _ => cases h

theorem exists_type?_of_modifyType {edited : SymbolId} {f : TypeSymbol → TypeSymbol}
    (h : (c.modifyType edited f).type? id = some t) : ∃ u, c.type? id = some u := by
  obtain ⟨s, hs, ht⟩ := Option.bind_eq_some_iff.1 h
  simp only [symbol?, modifyType, dropKnown, Array.getElem?_modify] at hs
  split at hs
  · obtain ⟨s', hs', rfl⟩ := Option.map_eq_some_iff.1 hs
    cases s' with
    | type u => exact ⟨u, Option.bind_eq_some_iff.2 ⟨_, hs', rfl⟩⟩
    | _ => cases ht
  · exact ⟨t, Option.bind_eq_some_iff.2 ⟨s, hs, ht⟩⟩

/-- What one change does to the types that are made once: nothing, or it makes the one that it asks
for.  If it makes none, the types are those before, and one that is added. -/
theorem change_cases (c : Compilation) (change : Change) :
    ((c.change change).constructed = c.constructed ∧ (c.change change).arrays = c.arrays ∧
      ∀ id t, (c.change change).type? id = some t →
        (∃ u, c.type? id = some u) ∨ id = c.symbols.size ∧ change = .add (.type t)) ∨
    (∃ d t args, c.asked? change = some (d, args) ∧ c.type? d = some t ∧ ¬ t.StandFor args ∧
      c.constructed.lookup (d, args) = none ∧ c.change change = c.withConstructed d t args) ∨
    (∃ element, change = .arrayOf element ∧ c.arrays.lookup element = none ∧
      c.change change = c.withArray element) := by
  have hnone {c' : Compilation} (h : c' = c) : c'.constructed = c.constructed ∧
      c'.arrays = c.arrays ∧ ∀ id t, c'.type? id = some t →
        (∃ u, c.type? id = some u) ∨ id = c.symbols.size ∧ change = .add (.type t) := by
    rw [h]
    exact ⟨rfl, rfl, fun _ t ht => .inl ⟨t, ht⟩⟩
  -- of a change that constructs a type
  have hconstruct (id : SymbolId) (args : List SymbolId) :
      (c.construct id args).2 = c ∨
      ∃ d t args', (c.type? (c.definition id)).map (fun _ => (c.definition id, args)) =
          some (d, args') ∧ c.type? d = some t ∧ ¬ t.StandFor args' ∧
        c.constructed.lookup (d, args') = none ∧
        (c.construct id args).2 = c.withConstructed d t args' := by
    rw [construct_eq]
    cases ht : c.type? (c.definition id) with
    | none => exact .inl (by simp only [constructAt, ht])
    | some t =>
      rcases constructAt_cases ht args with ⟨-, heq⟩ | ⟨-, made, -, heq⟩ | ⟨hstand, hnew, heq⟩
      · exact .inl (by rw [heq])
      · exact .inl (by rw [heq])
      · exact .inr ⟨_, t, args, rfl, ht, hstand, hnew, by rw [heq]⟩
  cases change with
  | add s =>
    refine .inl ⟨rfl, rfl, fun id t ht => ?_⟩
    rcases type?_add_cases ht with hold | ⟨hid, rfl⟩
    · exact .inl ⟨t, hold⟩
    · exact .inr ⟨hid, rfl⟩
  | register _ => exact .inl ⟨rfl, rfl, fun _ t ht => .inl ⟨t, ht⟩⟩
  | setBase _ _ | addInterface _ _ | addMember _ _ | addTypeParam _ _ =>
    exact .inl ⟨rfl, rfl, fun _ _ ht => .inl (exists_type?_of_modifyType ht)⟩
  | construct id args =>
    rcases hconstruct id args with hsame | hmade
    · exact .inl (hnone hsame)
    · exact .inr (.inl hmade)
  | arrayOf element =>
    rcases arrayOf_cases c element with ⟨made, -, heq⟩ | ⟨hnew, heq⟩
    · exact .inl (hnone (congrArg Prod.snd heq))
    · exact .inr (.inr ⟨element, rfl, hnew, congrArg Prod.snd heq⟩)
  | nullableOf underlying =>
    cases hn : c.typeNamed? KnownType.nullable.metadataName with
    | none => exact .inl (hnone (by simp [Compilation.change, nullableOf, hn]))
    | some nullable =>
      have heq : c.change (.nullableOf underlying) = (c.construct nullable [underlying]).2 := by
        simp only [Compilation.change, nullableOf, hn, Option.map_some, Option.getD_some]
      have hasked : c.asked? (.nullableOf underlying) = (c.type? (c.definition nullable)).map
          fun _ => (c.definition nullable, [underlying]) := by
        simp only [asked?, hn, Option.bind_eq_bind, Option.bind_some]
      rw [hasked]
      rcases hconstruct nullable [underlying] with hsame | hmade
      · exact .inl (hnone (heq.trans hsame))
      · rw [heq]
        exact .inr (.inl hmade)

/-! ## What stays -/

theorem type?_withConstructed (h : c.type? id = some t) (u : TypeSymbol) :
    (c.withConstructed d u args).type? id = some t := by
  rw [← h]
  exact type?_add_of_lt _ (lt_of_type?_eq_some h)

@[simp] theorem type?_withConstructed_size (t : TypeSymbol) :
    (c.withConstructed d t args).type? c.symbols.size =
      some { t with typeArgs := args, genericDefinition := some d } := type?_add_size _

theorem type?_withArray (h : c.type? id = some t) : (c.withArray element).type? id = some t := by
  rw [← h]
  exact type?_add_of_lt _ (lt_of_type?_eq_some h)

@[simp] theorem type?_withArray_size :
    (c.withArray element).type? c.symbols.size = some (c.arraySymbol element) := type?_add_size _

/-- An edit of one type that leaves it what it is built from. -/
theorem exists_core_modifyType {edited : SymbolId} {f : TypeSymbol → TypeSymbol}
    {more : List SymbolId} (h : c.type? id = some t) (hcore : (f t).core = t.core)
    (hparams : (if edited = id then (f t).typeParams else t.typeParams) = t.typeParams ++ more) :
    ∃ t', (c.modifyType edited f).type? id = some t' ∧ t'.core = t.core ∧
      t'.typeParams = t.typeParams ++ more := by
  refine ⟨_, type?_modifyType edited f h, ?_, ?_⟩
  · split
    · exact hcore
    · rfl
  · rw [← hparams]
    split <;> rfl

/-- A type keeps what it is built from, and gets the parameters that a change attaches to it. -/
theorem exists_core (change : Change) (h : c.type? id = some t) :
    ∃ t', (c.change change).type? id = some t' ∧ t'.core = t.core ∧
      t'.typeParams = t.typeParams ++ change.attached id := by
  have hlt := lt_of_type?_eq_some h
  have hsame {c' : Compilation} (h' : c'.type? id = some t) :
      ∃ t', c'.type? id = some t' ∧ t'.core = t.core ∧ t'.typeParams = t.typeParams ++ [] :=
    ⟨t, h', rfl, (List.append_nil _).symm⟩
  have hconstruct (d : SymbolId) (args : List SymbolId) :
      (c.construct d args).2.type? id = some t := by
    rcases construct_cases c d args with heq | ⟨u, -, heq⟩ <;> rw [heq]
    · exact h
    · rw [← h]
      exact type?_add_of_lt _ hlt
  cases change with
  | add s => exact hsame ((type?_add_of_lt s hlt).trans h)
  | register _ => exact hsame h
  | setBase edited base | addInterface edited parent | addMember edited member =>
    exact exists_core_modifyType h rfl (by simp [Change.attached])
  | addTypeParam edited param =>
    refine exists_core_modifyType h rfl ?_
    by_cases heq : edited = id
    · simp [Change.attached, heq]
    · simp [Change.attached, heq]
  | construct d args => exact hsame (hconstruct d args)
  | arrayOf element =>
    refine hsame ?_
    dsimp only [Compilation.change]
    rcases arrayOf_cases c element with ⟨made, -, heq⟩ | ⟨-, heq⟩ <;> rw [heq]
    · exact h
    · exact type?_withArray h
  | nullableOf underlying =>
    refine hsame ?_
    dsimp only [Compilation.change, nullableOf]
    cases c.typeNamed? KnownType.nullable.metadataName with
    | none => exact h
    | some nullable => exact hconstruct nullable [underlying]

theorem typeArgs_of_core {t' : TypeSymbol} (h : t'.core = t.core) : t'.typeArgs = t.typeArgs :=
  (congrArg TypeSymbol.typeArgs h :)

theorem genericDefinition_of_core {t' : TypeSymbol} (h : t'.core = t.core) :
    t'.genericDefinition = t.genericDefinition := (congrArg TypeSymbol.genericDefinition h :)

theorem elementType_of_core {t' : TypeSymbol} (h : t'.core = t.core) :
    t'.elementType = t.elementType := (congrArg TypeSymbol.elementType h :)

theorem kind_of_core {t' : TypeSymbol} (h : t'.core = t.core) : t'.kind = t.kind :=
  (congrArg TypeSymbol.kind h :)

/-! ## The tables -/

/-- Every type in the tables is built from the parts that it stands for there. -/
structure Interned (c : Compilation) : Prop where
  constructed : ∀ d args made, ((d, args), made) ∈ c.constructed → d < made ∧
    ∃ t u, c.type? d = some t ∧ c.type? made = some u ∧ u.kind = t.kind ∧ u.typeArgs = args ∧
      u.genericDefinition = some d
  arrays : ∀ element made, (element, made) ∈ c.arrays →
    ∃ t, c.type? made = some t ∧ t.kind = .array ∧ t.elementType = some element

theorem Interned.empty : Interned {} :=
  ⟨fun _ _ _ h => absurd h List.not_mem_nil, fun _ _ h => absurd h List.not_mem_nil⟩

/-- A type in the tables stays what it is. -/
theorem Interned.change (h : c.Interned) (change : Change) : (c.change change).Interned := by
  have hconstructed (d : SymbolId) (args : List SymbolId) (made : SymbolId)
      (hmem : ((d, args), made) ∈ c.constructed) : d < made ∧
      ∃ t u, (c.change change).type? d = some t ∧ (c.change change).type? made = some u ∧
        u.kind = t.kind ∧ u.typeArgs = args ∧ u.genericDefinition = some d := by
    obtain ⟨hlt, t, u, ht, hu, hkind, hargs, hd⟩ := h.constructed d args made hmem
    obtain ⟨t', ht', hcore, -⟩ := exists_core change ht
    obtain ⟨u', hu', hcore', -⟩ := exists_core change hu
    exact ⟨hlt, t', u', ht', hu',
      ((kind_of_core hcore').trans hkind).trans (kind_of_core hcore).symm,
      (typeArgs_of_core hcore').trans hargs, (genericDefinition_of_core hcore').trans hd⟩
  have harrays (element made : SymbolId) (hmem : (element, made) ∈ c.arrays) :
      ∃ t, (c.change change).type? made = some t ∧ t.kind = .array ∧
        t.elementType = some element := by
    obtain ⟨t, ht, hkind, helement⟩ := h.arrays element made hmem
    obtain ⟨t', ht', hcore, -⟩ := exists_core change ht
    exact ⟨t', ht', (kind_of_core hcore).trans hkind, (elementType_of_core hcore).trans helement⟩
  rcases c.change_cases change with ⟨hsame, hsame', -⟩ |
    ⟨d, t, args, -, ht, -, -, heq⟩ | ⟨element, -, -, heq⟩
  · exact ⟨by rwa [hsame], by rwa [hsame']⟩
  · refine ⟨?_, by rwa [heq] at harrays ⊢⟩
    rw [heq] at hconstructed ⊢
    intro d' args' made hmem
    rcases List.mem_cons.1 hmem with hnew | hmem
    · obtain ⟨⟨rfl, rfl⟩, rfl⟩ : (d' = d ∧ args' = args) ∧ made = c.symbols.size := by
        simpa using hnew
      exact ⟨lt_of_type?_eq_some ht, t, _, type?_withConstructed ht t,
        type?_withConstructed_size t, rfl, rfl, rfl⟩
    · exact hconstructed d' args' made hmem
  · refine ⟨by rwa [heq] at hconstructed ⊢, ?_⟩
    rw [heq] at harrays ⊢
    intro element' made hmem
    rcases List.mem_cons.1 hmem with hnew | hmem
    · obtain ⟨rfl, rfl⟩ : element' = element ∧ made = c.symbols.size := by simpa using hnew
      exact ⟨_, type?_withArray_size, rfl, rfl⟩
    · exact harrays element' made hmem

/-! ## Asking again -/

/-- Asking a definition for a type gives the number and changes nothing. -/
structure Settled (c : Compilation) (d : SymbolId) (args : List SymbolId) (made : SymbolId) :
    Prop where
  isType : ∃ t, c.type? d = some t
  again : c.constructAt d args = (made, c)

/-- A number is settled if it is the definition's own, or stands in the table. -/
theorem settled_iff (ht : c.type? d = some t) : c.Settled d args made ↔
    t.StandFor args ∧ made = d ∨
      ¬ t.StandFor args ∧ c.constructed.lookup (d, args) = some made := by
  have hiff : c.Settled d args made ↔ c.constructAt d args = (made, c) :=
    ⟨Settled.again, fun h => ⟨⟨t, ht⟩, h⟩⟩
  rw [hiff]
  rcases constructAt_cases ht args with ⟨hstand, heq⟩ | ⟨hstand, made', hlookup, heq⟩ |
    ⟨hstand, hnew, heq⟩
  · simp [heq, hstand, eq_comm]
  · simp [heq, hstand, hlookup]
  · -- a new type changes the compilation
    have hsize : c.withConstructed d t args ≠ c := fun h => by
      have := congrArg (fun c => c.symbols.size) h
      simp [withConstructed, add] at this
    simp [heq, hstand, hnew, hsize]

/-- What is answered for a type is settled from then on. -/
theorem settled_constructAt (ht : c.type? d = some t) (args : List SymbolId) :
    (c.constructAt d args).2.Settled d args (c.constructAt d args).1 := by
  rcases constructAt_cases ht args with ⟨-, heq⟩ | ⟨-, made, -, heq⟩ | ⟨hstand, -, heq⟩
  · rw [heq]
    exact ⟨⟨t, ht⟩, heq⟩
  · rw [heq]
    exact ⟨⟨t, ht⟩, heq⟩
  · rw [heq, settled_iff (type?_withConstructed ht t)]
    exact .inr ⟨hstand, by simp [withConstructed]⟩

/-- What is settled stays so, unless the definition gets another type parameter. -/
theorem Settled.change (h : c.Settled d args made) (change : Change)
    (hparams : args = [] ∨ change.attached d = []) :
    (c.change change).Settled d args made := by
  obtain ⟨t, ht⟩ := h.isType
  obtain ⟨t', ht', -, hparams'⟩ := exists_core change ht
  have hstand : t'.StandFor args ↔ t.StandFor args := by
    rcases hparams with rfl | hnone
    · simp [TypeSymbol.StandFor]
    · simp [TypeSymbol.StandFor, hparams', hnone]
  rw [settled_iff ht', hstand]
  refine (settled_iff ht).1 h |>.imp_right fun ⟨hnot, hlookup⟩ => ⟨hnot, ?_⟩
  rcases c.change_cases change with ⟨hsame, -⟩ | ⟨d', u, args', -, -, -, hnew, heq⟩ |
    ⟨element, -, -, heq⟩
  · rw [hsame, hlookup]
  · -- the new entry is for other parts, as the table had none for its own
    have hne : (d, args) ≠ (d', args') := fun hsame => by
      rw [hsame, hnew] at hlookup
      cases hlookup
    rw [heq, withConstructed, List.lookup_cons, beq_eq_false_iff_ne.2 hne]
    exact hlookup
  · rw [heq]
    exact hlookup

/-- An array type that has been made is given again. -/
theorem lookup_arrays_change (change : Change) (h : c.arrays.lookup element = some made) :
    (c.change change).arrays.lookup element = some made := by
  rcases c.change_cases change with ⟨-, hsame, -⟩ | ⟨d, u, args, -, -, -, -, heq⟩ |
    ⟨element', -, hnew, heq⟩
  · rw [hsame, h]
  · rw [heq]
    exact h
  · have hne : element ≠ element' := fun hsame => by
      rw [hsame, hnew] at h
      cases h
    rw [heq, withArray, List.lookup_cons, beq_eq_false_iff_ne.2 hne]
    exact h

/-! ## Runs -/

/-- The changes, each with the compilation that it changes. -/
def trace (c : Compilation) : List Change → List (Compilation × Change)
  | [] => []
  | change :: rest => (c, change) :: trace (c.change change) rest

theorem trace_concat (c : Compilation) (changes : List Change) (change : Change) :
    c.trace (changes ++ [change]) =
      c.trace changes ++ [(changes.foldl Compilation.change c, change)] := by
  induction changes generalizing c with
  | nil => rfl
  | cons first rest ih => exact congrArg _ (ih (c.change first))

/-- The number that a change answers with when it asks for a type. -/
def answer? (c : Compilation) : Change → Option SymbolId
  | .construct id args => some (c.construct id args).1
  | .arrayOf element => some (c.arrayOf element).1
  | .nullableOf underlying => (c.nullableOf underlying).map Prod.fst
  | _ => none

/-- A change that asks a definition for a type does what `constructAt` does. -/
theorem of_asked? {change : Change} (h : c.asked? change = some (d, args)) :
    (∃ t, c.type? d = some t) ∧ c.answer? change = some (c.constructAt d args).1 ∧
      c.change change = (c.constructAt d args).2 := by
  cases change with
  | construct id as =>
    simp only [asked?, Option.map_eq_some_iff, Prod.mk.injEq] at h
    obtain ⟨t, ht, rfl, rfl⟩ := h
    exact ⟨⟨t, ht⟩, rfl, rfl⟩
  | nullableOf underlying =>
    simp only [asked?, Option.bind_eq_bind, Option.bind_eq_some_iff, Option.map_eq_some_iff,
      Prod.mk.injEq] at h
    obtain ⟨id, hid, t, ht, rfl, rfl⟩ := h
    refine ⟨⟨t, ht⟩, ?_, ?_⟩ <;>
      simp [answer?, Compilation.change, nullableOf, hid, construct_eq]
  | _ => simp [asked?] at h

/-- Some change has asked the definition for a type with the arguments, and got the number. -/
def Constructs (changes : List Change) (d : SymbolId) (args : List SymbolId) (made : SymbolId) :
    Prop :=
  ∃ x ∈ trace {} changes, x.1.asked? x.2 = some (d, args) ∧ x.1.answer? x.2 = some made

/-- Some change has asked for the array type of the element type, and got the number. -/
def MakesArray (changes : List Change) (element made : SymbolId) : Prop :=
  ∃ x ∈ trace {} changes, x.2 = .arrayOf element ∧ x.1.answer? x.2 = some made

/-- No type parameter is attached to a type that has been asked for a type with arguments. -/
def ParamsFirst (changes : List Change) : Prop :=
  (trace {} changes).Pairwise fun earlier later =>
    ∀ key ∈ earlier.1.asked? earlier.2, key.2 = [] ∨ later.2.attached key.1 = []

instance (changes : List Change) (d made : SymbolId) (args : List SymbolId) :
    Decidable (Constructs changes d args made) :=
  inferInstanceAs (Decidable (∃ x ∈ trace {} changes, _ ∧ _))

instance (changes : List Change) (element made : SymbolId) :
    Decidable (MakesArray changes element made) :=
  inferInstanceAs (Decidable (∃ x ∈ trace {} changes, _ ∧ _))

instance (changes : List Change) : Decidable (ParamsFirst changes) :=
  inferInstanceAs (Decidable (List.Pairwise _ _))

theorem interned_build (changes : List Change) : (build changes).Interned := by
  induction changes using List.reverseRecOn with
  | nil => exact .empty
  | append_singleton changes change ih =>
    rw [build_append]
    exact ih.change change

/-- What has been given once is settled. -/
theorem settled_of_constructs {changes : List Change} (horder : ParamsFirst changes)
    (h : Constructs changes d args made) : (build changes).Settled d args made := by
  obtain ⟨x, hx, hasked, hanswer⟩ := h
  induction changes using List.reverseRecOn with
  | nil => exact absurd hx List.not_mem_nil
  | append_singleton changes change ih =>
    rw [ParamsFirst, trace_concat, List.pairwise_append] at horder
    obtain ⟨hbefore, -, hlast⟩ := horder
    rw [trace_concat, List.mem_append, List.mem_singleton] at hx
    rw [build_append]
    rcases hx with hx | rfl
    · refine (ih hbefore hx).change change ?_
      exact hlast x hx _ (.head _) (d, args) hasked
    · obtain ⟨⟨t, ht⟩, hanswer', hchange⟩ := of_asked? hasked
      obtain rfl := Option.some.inj (hanswer'.symm.trans hanswer)
      have hsettled := settled_constructAt ht args
      rwa [← hchange] at hsettled

theorem lookup_arrays_of_makesArray {changes : List Change} (h : MakesArray changes element made) :
    (build changes).arrays.lookup element = some made := by
  obtain ⟨x, hx, hchange, hanswer⟩ := h
  induction changes using List.reverseRecOn with
  | nil => exact absurd hx List.not_mem_nil
  | append_singleton changes change ih =>
    rw [trace_concat, List.mem_append, List.mem_singleton] at hx
    rw [build_append]
    rcases hx with hx | rfl
    · exact lookup_arrays_change change (ih hx)
    · obtain rfl : change = .arrayOf element := hchange
      have hmade : ((build changes).arrayOf element).1 = made := Option.some.inj hanswer
      dsimp only [List.foldl_cons, List.foldl_nil, Compilation.change]
      rcases arrayOf_cases (build changes) element with ⟨made', hlookup, heq⟩ | ⟨-, heq⟩
      · rw [heq] at hmade ⊢
        exact hlookup.trans (congrArg some hmade)
      · rw [heq] at hmade ⊢
        simp [withArray, ← hmade]

/-! ## The main statement -/

/-- The type that is given for arguments that do not stand for the definition is built from them. -/
theorem exists_of_settled (hinterned : c.Interned) (ht : c.type? d = some t)
    (h : c.Settled d args made) (hstand : ¬ t.StandFor args) :
    d < made ∧ ∃ u, c.type? made = some u ∧ u.kind = t.kind ∧ u.typeArgs = args ∧
      u.genericDefinition = some d := by
  rcases (settled_iff ht).1 h with ⟨hnot, -⟩ | ⟨-, hlookup⟩
  · exact absurd hnot hstand
  · obtain ⟨hlt, t', u, ht', hu⟩ := hinterned.constructed d args made (mem_of_lookup hlookup)
    obtain rfl := Option.some.inj (ht'.symm.trans ht)
    exact ⟨hlt, u, hu⟩

/-- **Interning.**  In a run that attaches type parameters before it constructs the type, the number
that is given for a definition and arguments is given for them at any later time.  It is the
definition if the arguments are none or its own parameters, and otherwise a type with just these
arguments and this definition.  No such type is given for other parts, except that it stands for
itself when it is taken for a definition, which it is not.  Array types are as stable, and are given
for one element type only. -/
theorem interned_once {changes : List Change} (horder : ParamsFirst changes) :
    (∀ d args made, Constructs changes d args made →
      (∀ id, (build changes).definition id = d →
        (build changes).construct id args = (made, build changes)) ∧
      ∃ t, (build changes).type? d = some t ∧ (t.StandFor args → made = d) ∧
        (¬ t.StandFor args →
          (∃ u, (build changes).type? made = some u ∧ u.typeArgs = args ∧
            u.genericDefinition = some d) ∧
          ∀ d' args', Constructs changes d' args' made →
            d' = d ∧ args' = args ∨ d' = made ∧ (build changes).definition d' ≠ d')) ∧
    ∀ element made, MakesArray changes element made →
      (build changes).arrayOf element = (made, build changes) ∧
      (∃ t, (build changes).type? made = some t ∧ t.kind = .array ∧
        t.elementType = some element) ∧
      ∀ element', MakesArray changes element' made → element' = element := by
  have hinterned := interned_build changes
  constructor
  · intro d args made hmade
    have hsettled := settled_of_constructs horder hmade
    obtain ⟨t, ht⟩ := hsettled.isType
    refine ⟨?_, t, ht, ?_, ?_⟩
    · rintro id rfl
      exact hsettled.again
    · intro hstand
      rcases (settled_iff ht).1 hsettled with ⟨-, heq⟩ | ⟨hnot, -⟩
      · exact heq
      · exact absurd hstand hnot
    · intro hstand
      obtain ⟨hlt, u, hu, -, hargs, hd⟩ := exists_of_settled hinterned ht hsettled hstand
      refine ⟨⟨u, hu, hargs, hd⟩, fun d' args' hmade' => ?_⟩
      have hsettled' := settled_of_constructs horder hmade'
      obtain ⟨t', ht'⟩ := hsettled'.isType
      by_cases hstand' : t'.StandFor args'
      · -- the other definition is the constructed type, and its definition is the first one
        obtain ⟨-, rfl⟩ | ⟨hnot, -⟩ := (settled_iff ht').1 hsettled'
        · refine .inr ⟨rfl, ?_⟩
          simp only [definition, hu, Option.bind_some, hd, Option.getD_some]
          exact Nat.ne_of_lt hlt
        · exact absurd hstand' hnot
      · obtain ⟨-, u', hu', -, hargs', hd'⟩ := exists_of_settled hinterned ht' hsettled' hstand'
        obtain rfl := Option.some.inj (hu'.symm.trans hu)
        exact .inl ⟨Option.some.inj (hd'.symm.trans hd), hargs'.symm.trans hargs⟩
  · intro element made hmade
    have hlookup := lookup_arrays_of_makesArray hmade
    obtain ⟨t, ht, hkind, helement⟩ :=
      hinterned.arrays element made (mem_of_lookup hlookup)
    refine ⟨by simp only [arrayOf, hlookup], ⟨t, ht, hkind, helement⟩, fun element' hmade' => ?_⟩
    obtain ⟨t', ht', -, helement'⟩ := hinterned.arrays element' made
      (mem_of_lookup (lookup_arrays_of_makesArray hmade'))
    obtain rfl := Option.some.inj (ht'.symm.trans ht)
    exact Option.some.inj (helement'.symm.trans helement)

/-- A generic class `G<T>` and `G<Arg>`, `G<T>`, `G<Arg>[]` and again `G<Arg>`, asked for through
`G<Arg>` itself, with other changes in between. -/
def askedTwice : List Change :=
  [.add (.type { name := "Arg", kind := .struct }),
    .add (.type { name := "G", kind := .class_ }),
    .add (.type
      { name := "T", kind := .typeParameter, containingType := some 1, ordinal := some 0 }),
    .addTypeParam 1 2, .construct 1 [0], .construct 1 [2], .arrayOf 3,
    .add (.type { name := "B", kind := .class_ }), .setBase 1 (some 5), .addInterface 3 5,
    .construct 3 [0], .register 1, .arrayOf 3]

/-- `G<Arg>` is number 3 both times, `G<T>` is `G` and `G<Arg>[]` is number 4. -/
theorem interned_once_askedTwice :
    ParamsFirst askedTwice ∧ Constructs askedTwice 1 [0] 3 ∧ Constructs askedTwice 1 [2] 1 ∧
      MakesArray askedTwice 3 4 ∧ (build askedTwice).construct 3 [0] = (3, build askedTwice) ∧
      (build askedTwice).arrayOf 3 = (4, build askedTwice) := by
  have horder : ParamsFirst askedTwice := by decide +kernel
  have hconstructs : Constructs askedTwice 1 [0] 3 := by decide +kernel
  have hmakes : MakesArray askedTwice 3 4 := by decide +kernel
  obtain ⟨hconstructed, harrays⟩ := interned_once horder
  exact ⟨horder, hconstructs, by decide +kernel, hmakes,
    (hconstructed 1 [0] 3 hconstructs).1 3 (by decide +kernel), (harrays 3 4 hmakes).1⟩

end Compilation

end PropertyLint
