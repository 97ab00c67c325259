/-
# The bases of constructed types

A constructed type is a copy of its definition, made when the type is asked for the first time.
Later changes of the one do not reach the other: both start from the bases that the definition had
then, and each follows its own changes (`bases_of_constructed`).  So a constructed type has the
bases of its definition, and inherits what the definition inherits, if no later change tells the
two apart (`constructed_mirrors_definition_iff`).

The bases of the definition are written in terms of its own type parameters, and the arguments are
not put in for them.  So apart from itself, from `object` and from nullable types a constructed type
is assignable to what equals one of these bases, whatever its arguments are
(`isAssignableTo_constructed_iff`).
-/
import Mathlib.Data.List.Induction
import PropertyLint.Proofs.Symbol.BaseTypes

namespace PropertyLint

/-! ## Changes of a compilation -/

/-- A change of the symbols of a compilation. -/
inductive Change where
  | add (symbol : Symbol)
  | register (id : SymbolId)
  | setBase (id : SymbolId) (base : Option SymbolId)
  | addInterface (id parent : SymbolId)
  | addMember (id member : SymbolId)
  | addTypeParam (id param : SymbolId)
  | construct (id : SymbolId) (args : List SymbolId)
  | arrayOf (element : SymbolId)
  | nullableOf (underlying : SymbolId)
deriving DecidableEq, Repr

/-- The compilation after a change. -/
def Compilation.change (c : Compilation) : Change → Compilation
  | .add symbol => (c.add symbol).2
  | .register id => c.register id
  | .setBase id base => c.modifyType id fun t => { t with baseType := base }
  | .addInterface id parent =>
    c.modifyType id fun t => { t with interfaces := t.interfaces ++ [parent] }
  | .addMember id member => c.modifyType id fun t => { t with members := t.members ++ [member] }
  | .addTypeParam id param =>
    c.modifyType id fun t => { t with typeParams := t.typeParams ++ [param] }
  | .construct id args => (c.construct id args).2
  | .arrayOf element => (c.arrayOf element).2
  | .nullableOf underlying => ((c.nullableOf underlying).map Prod.snd).getD c

/-- The compilation that changes make from the empty one. -/
def Compilation.build (changes : List Change) : Compilation := changes.foldl Compilation.change {}

/-- What a type names as its base type and its interfaces. -/
structure Bases where
  base : Option SymbolId
  interfaces : List SymbolId
deriving DecidableEq, Repr

/-- The bases that a type names. -/
def TypeSymbol.bases (t : TypeSymbol) : Bases := ⟨t.baseType, t.interfaces⟩

/-- The bases of the type with a number, after a change. -/
def Bases.change (id : SymbolId) (b : Bases) : Change → Bases
  | .setBase edited base => if edited = id then { b with base } else b
  | .addInterface edited parent =>
    if edited = id then { b with interfaces := b.interfaces ++ [parent] } else b
  | _ => b

namespace Compilation

/-- The bases that the type with a number names. -/
def bases? (c : Compilation) (id : SymbolId) : Option Bases := (c.type? id).map TypeSymbol.bases

theorem parents_eq_of_bases?_eq {c : Compilation} {a b : SymbolId} (h : c.bases? a = c.bases? b) :
    c.parents a = c.parents b := by
  unfold bases? at h
  unfold parents
  cases ha : c.type? a <;> cases hb : c.type? b <;>
    simp_all [TypeSymbol.bases, TypeSymbol.parents]

/-! ## One change -/

/-- The type is the other one after a change: the same symbol with the bases of the change. -/
structure Follows (id : SymbolId) (change : Change) (t t' : TypeSymbol) : Prop where
  bases : t'.bases = t.bases.change id change
  genericDefinition : t'.genericDefinition = t.genericDefinition

variable {c : Compilation} {id : SymbolId} {t : TypeSymbol}

theorem lt_of_type?_eq_some (h : c.type? id = some t) : id < c.symbols.size := by
  obtain ⟨s, hs, -⟩ := Option.bind_eq_some_iff.1 h
  exact (Array.getElem?_eq_some_iff.1 hs).1

theorem type?_add_of_lt (s : Symbol) (h : id < c.symbols.size) :
    (c.add s).2.type? id = c.type? id := by
  simp only [type?, symbol?, add, dropKnown, Array.getElem?_push_lt h, Array.getElem?_eq_getElem h]

@[simp] theorem type?_add_size (s : Symbol) :
    (c.add s).2.type? c.symbols.size = s.asType? := by
  simp [type?, symbol?, add, dropKnown]

theorem type?_modifyType (edited : SymbolId) (f : TypeSymbol → TypeSymbol)
    (h : c.type? id = some t) :
    (c.modifyType edited f).type? id = some (if edited = id then f t else t) := by
  obtain ⟨s, hs, ht⟩ := Option.bind_eq_some_iff.1 h
  have hget : c.symbols[id]? = some s := hs
  simp only [type?, symbol?, modifyType, dropKnown, Array.getElem?_modify, hget]
  split
  · cases s <;> simp_all [Symbol.asType?]
  · exact ht

/-- What `construct` does: it answers with a type that exists, or it makes a copy of the definition
and keeps it for the next time. -/
theorem construct_cases (c : Compilation) (id : SymbolId) (args : List SymbolId) :
    (c.construct id args).2 = c ∨
    ∃ t, c.type? (c.definition id) = some t ∧
      (c.construct id args).2 =
        { (c.add (.type { t with typeArgs := args, genericDefinition := c.definition id })).2 with
          constructed := ((c.definition id, args), c.symbols.size) :: c.constructed } := by
  unfold construct
  dsimp only
  split
  · exact .inl rfl
  next t ht =>
    split
    · exact .inl rfl
    · split
      · exact .inl rfl
      · exact .inr ⟨t, ht, rfl⟩

/-- An edit of one type is followed by the type with that number, and by no other. -/
theorem exists_follows_modifyType {change : Change} {edited : SymbolId}
    {f : TypeSymbol → TypeSymbol} (h : c.type? id = some t)
    (hbases : t.bases.change id change = if edited = id then (f t).bases else t.bases)
    (hdef : (f t).genericDefinition = t.genericDefinition) :
    ∃ t', (c.modifyType edited f).type? id = some t' ∧ Follows id change t t' := by
  refine ⟨_, type?_modifyType edited f h, ?_, ?_⟩
  · rw [hbases]
    split <;> rfl
  · split
    · exact hdef
    · rfl

/-- A type remains a type, with the bases of the change. -/
theorem exists_follows (change : Change) (h : c.type? id = some t) :
    ∃ t', (c.change change).type? id = some t' ∧ Follows id change t t' := by
  have hlt := lt_of_type?_eq_some h
  have hadd (s : Symbol) : (c.add s).2.type? id = some t := by rw [type?_add_of_lt s hlt, h]
  have hconstruct (d : SymbolId) (args : List SymbolId) :
      (c.construct d args).2.type? id = some t := by
    rcases construct_cases c d args with heq | ⟨u, -, heq⟩ <;> rw [heq]
    · exact h
    · exact hadd _
  cases change with
  | add s => exact ⟨t, hadd s, rfl, rfl⟩
  | register _ => exact ⟨t, h, rfl, rfl⟩
  | setBase edited base => exact exists_follows_modifyType h rfl rfl
  | addInterface edited parent => exact exists_follows_modifyType h rfl rfl
  | addMember edited member => exact exists_follows_modifyType h (ite_self _).symm rfl
  | addTypeParam edited param => exact exists_follows_modifyType h (ite_self _).symm rfl
  | construct d args => exact ⟨t, hconstruct d args, rfl, rfl⟩
  | arrayOf element =>
    refine ⟨t, ?_, rfl, rfl⟩
    dsimp only [Compilation.change, arrayOf]
    split
    · exact h
    · exact hadd _
  | nullableOf underlying =>
    refine ⟨t, ?_, rfl, rfl⟩
    dsimp only [Compilation.change, nullableOf]
    cases c.typeNamed? KnownType.nullable.metadataName with
    | none => exact h
    | some nullable => exact hconstruct nullable [underlying]

/-- The change made a new constructed type: a copy of its definition. -/
structure Makes (c : Compilation) (change : Change) (d made : SymbolId) : Prop where
  number : made = c.symbols.size
  copy : ∃ t t', c.type? d = some t ∧ (c.change change).type? made = some t' ∧
    t'.bases = t.bases ∧ t'.genericDefinition = some d
  keepsBases : ∀ id b, Bases.change id b change = b

/-- A constructed type was there before the change, or the change made it. -/
theorem mem_constructed_change {change : Change} {d made : SymbolId} {args : List SymbolId}
    (h : ((d, args), made) ∈ (c.change change).constructed) :
    ((d, args), made) ∈ c.constructed ∨ Makes c change d made := by
  have hconstruct {id : SymbolId} {as : List SymbolId}
      (heq : c.change change = (c.construct id as).2)
      (hkeeps : ∀ id b, Bases.change id b change = b) :
      ((d, args), made) ∈ c.constructed ∨ Makes c change d made := by
    rcases construct_cases c id as with hsame | ⟨t, ht, hmade⟩
    · rw [heq, hsame] at h
      exact .inl h
    · rw [heq, hmade, List.mem_cons] at h
      rcases h with h | h
      · obtain ⟨⟨rfl, rfl⟩, rfl⟩ : (d = c.definition id ∧ args = as) ∧ made = c.symbols.size := by
          simpa using h
        refine .inr ⟨rfl, ⟨t, { t with typeArgs := args, genericDefinition := c.definition id }, ht,
          ?_, rfl, rfl⟩, hkeeps⟩
        rw [heq, hmade]
        exact type?_add_size _
      · exact .inl h
  cases change with
  | add _ | register _ | setBase _ _ | addInterface _ _ | addMember _ _ | addTypeParam _ _ =>
    exact .inl h
  | construct id args => exact hconstruct rfl fun _ _ => rfl
  | arrayOf element =>
    dsimp only [Compilation.change, arrayOf] at h
    split at h <;> exact .inl h
  | nullableOf underlying =>
    cases hn : c.typeNamed? KnownType.nullable.metadataName with
    | none =>
      simp only [Compilation.change, nullableOf, hn] at h
      exact .inl h
    | some nullable =>
      have heq : c.change (.nullableOf underlying) = (c.construct nullable [underlying]).2 := by
        simp only [Compilation.change, nullableOf, hn, Option.map_some, Option.getD_some]
      exact hconstruct heq fun _ _ => rfl

/-! ## All changes -/

theorem build_append (changes more : List Change) :
    build (changes ++ more) = more.foldl change (build changes) := List.foldl_append

/-- A type follows all later changes. -/
theorem exists_of_changes (changes : List Change) (h : c.type? id = some t) :
    ∃ t', (changes.foldl change c).type? id = some t' ∧
      t'.bases = changes.foldl (Bases.change id) t.bases ∧
      t'.genericDefinition = t.genericDefinition := by
  induction changes generalizing c t with
  | nil => exact ⟨t, h, rfl, rfl⟩
  | cons change changes ih =>
    obtain ⟨t₁, ht₁, hfollows⟩ := exists_follows change h
    obtain ⟨t₂, ht₂, hbases, hdef⟩ := ih ht₁
    exact ⟨t₂, ht₂, by rw [hbases, hfollows.bases]; rfl, hdef.trans hfollows.genericDefinition⟩

/-- Every constructed type was made by one of the changes. -/
theorem exists_makes {changes : List Change} {d made : SymbolId} {args : List SymbolId}
    (h : ((d, args), made) ∈ (build changes).constructed) :
    ∃ before change after, changes = before ++ change :: after ∧
      Makes (build before) change d made := by
  induction changes using List.reverseRecOn with
  | nil => exact absurd h List.not_mem_nil
  | append_singleton changes change ih =>
    rw [build_append] at h
    rcases mem_constructed_change h with h | h
    · obtain ⟨before, first, after, rfl, hmakes⟩ := ih h
      exact ⟨before, first, after ++ [change], by simp, hmakes⟩
    · exact ⟨changes, change, [], rfl, h⟩

/-! ## Bases and what is inherited from them -/

/-- The bases that a type names are among its base types. -/
theorem mem_baseTypes_of_mem_parents {parent : SymbolId} (h : parent ∈ c.parents id)
    (hne : parent ≠ id) : parent ∈ c.baseTypes id := mem_baseTypes_iff.2 ⟨.single h, hne⟩

/-- The members of a base type are inherited. -/
theorem mem_lookupMembers_of_mem_baseTypes {base m : SymbolId} {name : String}
    (h : base ∈ c.baseTypes id) (hm : m ∈ c.membersNamed base name) :
    m ∈ c.lookupMembers id name :=
  List.mem_flatMap.2 ⟨base, List.mem_cons_of_mem _ h, hm⟩

/-! ## Constructed types -/

/-- A constructed type and its definition start from the bases that the definition had when the
type was made, and each follows the later changes of its own. -/
theorem bases_of_constructed {changes : List Change} {d made : SymbolId} {args : List SymbolId}
    (h : ((d, args), made) ∈ (build changes).constructed) :
    ∃ before change after bases, changes = before ++ change :: after ∧
      Makes (build before) change d made ∧ (build before).bases? d = some bases ∧
      (build changes).definition made = d ∧
      (build changes).bases? d = some (after.foldl (Bases.change d) bases) ∧
      (build changes).bases? made = some (after.foldl (Bases.change made) bases) := by
  obtain ⟨before, change, after, rfl, hmakes⟩ := exists_makes h
  obtain ⟨t, copy, ht, hcopy, hbases, hdef⟩ := hmakes.copy
  obtain ⟨t₁, ht₁, hfollows⟩ := exists_follows change ht
  obtain ⟨u, hu, hubases, -⟩ := exists_of_changes after ht₁
  obtain ⟨v, hv, hvbases, hvdef⟩ := exists_of_changes after hcopy
  rw [build_append]
  refine ⟨before, change, after, t.bases, rfl, hmakes, by simp [bases?, ht], ?_, ?_, ?_⟩
  · simp [definition, hv, hvdef, hdef]
  · simp [bases?, hu, hubases, hfollows.bases, hmakes.keepsBases]
  · simp [bases?, hv, hvbases, hbases]

/-- A constructed type names the bases of its definition exactly if the changes since it was made
have left the two alike.  Then it sees every base that its definition names, and inherits its
members. -/
theorem constructed_mirrors_definition_iff {changes : List Change} {d made : SymbolId}
    {args : List SymbolId} (h : ((d, args), made) ∈ (build changes).constructed) :
    ∃ before change after bases, changes = before ++ change :: after ∧
      Makes (build before) change d made ∧ (build before).bases? d = some bases ∧
      ((build changes).bases? made = (build changes).bases? d ↔
        after.foldl (Bases.change made) bases = after.foldl (Bases.change d) bases) ∧
      ((build changes).bases? made = (build changes).bases? d →
        ∀ parent ∈ (build changes).parents d, parent ≠ made →
          parent ∈ (build changes).baseTypes made ∧
          ∀ name, ∀ m ∈ (build changes).membersNamed parent name,
            m ∈ (build changes).lookupMembers made name) := by
  obtain ⟨before, change, after, bases, hsplit, hmakes, hbases, -, hd, hmade⟩ :=
    bases_of_constructed h
  refine ⟨before, change, after, bases, hsplit, hmakes, hbases, by rw [hd, hmade]; simp, ?_⟩
  intro heq parent hparent hne
  rw [← parents_eq_of_bases?_eq heq] at hparent
  have hbase := mem_baseTypes_of_mem_parents hparent hne
  exact ⟨hbase, fun name m hm => mem_lookupMembers_of_mem_baseTypes hbase hm⟩

/-- A generic class is constructed before it gets its base class. -/
def lateBase : List Change :=
  [.add (.type { name := "Arg", kind := .struct }),
    .add (.type { name := "G", kind := .class_ }),
    .add (.type
      { name := "T", kind := .typeParameter, containingType := some 1, ordinal := some 0 }),
    .addTypeParam 1 2, .construct 1 [0], .add (.type { name := "B", kind := .class_ }),
    .setBase 1 (some 4)]

/-- The class has its base class in the end, and the constructed class has none. -/
theorem bases_of_lateBase :
    ((1, [0]), 3) ∈ (build lateBase).constructed ∧
    (build lateBase).bases? 1 = some ⟨some 4, []⟩ ∧ (build lateBase).bases? 3 = some ⟨none, []⟩ ∧
    ∃ before change after bases, lateBase = before ++ change :: after ∧
      Makes (build before) change 1 3 ∧ (build before).bases? 1 = some bases ∧
      ((build lateBase).bases? 3 = (build lateBase).bases? 1 ↔
        after.foldl (Bases.change 3) bases = after.foldl (Bases.change 1) bases) ∧
      ((build lateBase).bases? 3 = (build lateBase).bases? 1 →
        ∀ parent ∈ (build lateBase).parents 1, parent ≠ 3 →
          parent ∈ (build lateBase).baseTypes 3 ∧
          ∀ name, ∀ m ∈ (build lateBase).membersNamed parent name,
            m ∈ (build lateBase).lookupMembers 3 name) :=
  have h : ((1, [0]), 3) ∈ (build lateBase).constructed := by decide
  ⟨h, by decide, by decide, constructed_mirrors_definition_iff h⟩

/-! ## What constructed types are assignable to -/

section

variable {c : Compilation} {a b source target : SymbolId}

theorem Derives.of_parents_eq (h : c.parents a = c.parents b) {base : SymbolId}
    (hderives : c.Derives a base) : c.Derives b base := by
  rcases Relation.TransGen.head'_iff.1 hderives with ⟨p, hp, hreach⟩
  exact .head' (h ▸ hp) hreach

theorem nullableUnderlying?_eq_none (h : c.isKnown target .nullable = false) :
    c.nullableUnderlying? target = none := by
  rw [nullableUnderlying?, h]
  rfl

/-- A value can be stored as another type if the types are equal, or if its type derives from one
that equals the other.  `void` and `object` and nullable types are treated in ways of their own. -/
theorem isAssignableTo_iff (hvoid : c.isKnown source .void = false)
    (hobject : c.isKnown target .object = false) (hnullable : c.isKnown target .nullable = false) :
    c.isAssignableTo source target = true ↔ c.typesEqual source target = true ∨
      ∃ base, c.Derives source base ∧ c.typesEqual base target = true := by
  unfold isAssignableTo
  rw [nullableUnderlying?_eq_none hnullable, hvoid, hobject]
  by_cases hequal : c.typesEqual source target = true
  · simp [hequal]
  · simp only [hequal, Bool.false_eq_true, if_false, false_or, List.any_eq_true, mem_baseTypes_iff]
    constructor
    · rintro ⟨base, ⟨hderives, -⟩, hbase⟩
      exact ⟨base, hderives, hbase⟩
    · rintro ⟨base, hderives, hbase⟩
      refine ⟨base, ⟨hderives, ?_⟩, hbase⟩
      rintro rfl
      exact hequal hbase

/-- **Assignability of constructed types.**  A constructed type with the bases of its definition is
assignable to what equals it, and to what equals a type that the definition derives from, with the
arguments that are written there: its own arguments play no part. -/
theorem isAssignableTo_constructed_iff {changes : List Change} {d made : SymbolId}
    {args : List SymbolId} (h : ((d, args), made) ∈ (build changes).constructed)
    (hbases : (build changes).bases? made = (build changes).bases? d)
    (hvoid : (build changes).isKnown made .void = false) :
    (build changes).definition made = d ∧
      ∀ target, (build changes).isKnown target .object = false →
        (build changes).isKnown target .nullable = false →
        ((build changes).isAssignableTo made target = true ↔
          (build changes).typesEqual made target = true ∨
            ∃ base, (build changes).Derives d base ∧
              (build changes).typesEqual base target = true) := by
  obtain ⟨before, change, after, bases, -, -, -, hdefinition, -⟩ := bases_of_constructed h
  have hparents := parents_eq_of_bases?_eq hbases
  refine ⟨hdefinition, fun target hobject hnullable => ?_⟩
  rw [isAssignableTo_iff hvoid hobject hnullable]
  refine or_congr_right (exists_congr fun base => and_congr_left fun _ => ?_)
  exact ⟨.of_parents_eq hparents, .of_parents_eq hparents.symm⟩

/-- A generic class `D<T>` with the base class `B<T>`, and both classes made for one argument. -/
def genericBase : List Change :=
  [.add (.type { name := "Arg", kind := .struct }),
    .add (.type { name := "B", kind := .class_ }),
    .add (.type
      { name := "S", kind := .typeParameter, containingType := some 1, ordinal := some 0 }),
    .addTypeParam 1 2, .add (.type { name := "D", kind := .class_ }),
    .add (.type
      { name := "T", kind := .typeParameter, containingType := some 3, ordinal := some 0 }),
    .addTypeParam 3 4, .construct 1 [4], .setBase 3 (some 5), .construct 3 [0], .construct 1 [0]]

/-- `D<Arg>` is assignable to `B<T>`, which is how the base class is written, but not to
`B<Arg>`. -/
theorem isAssignableTo_genericBase :
    ((3, [0]), 6) ∈ (build genericBase).constructed ∧
    ((1, [0]), 7) ∈ (build genericBase).constructed ∧
    ((1, [4]), 5) ∈ (build genericBase).constructed ∧
    (build genericBase).bases? 6 = some ⟨some 5, []⟩ ∧
    (build genericBase).isAssignableTo 6 5 = true ∧
    (build genericBase).isAssignableTo 6 7 = false ∧
    ¬ ∃ base, (build genericBase).Derives 3 base ∧
      (build genericBase).typesEqual base 7 = true := by
  have hmade : ((3, [0]), 6) ∈ (build genericBase).constructed := by decide
  have hnot : (build genericBase).isAssignableTo 6 7 = false := by decide +kernel
  obtain ⟨-, hassignable⟩ := isAssignableTo_constructed_iff hmade (by decide) (by decide +kernel)
  have hiff := hassignable 7 (by decide +kernel) (by decide +kernel)
  refine ⟨hmade, by decide, by decide, by decide, by decide +kernel, hnot, fun hbase => ?_⟩
  rw [hiff.2 (.inr hbase)] at hnot
  exact Bool.false_ne_true hnot.symm

end

end Compilation

end PropertyLint
