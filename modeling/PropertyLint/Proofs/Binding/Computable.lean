/-
# Types can be named and compared

The full name of a type leads from type to enclosing type, its text and its comparisons lead to its
arguments and elements, and none of these walks remembers where it has been.  They end because types
stand in layers (`Compilation.Layered`): an enclosing type, an argument and an element have smaller
numbers, and a type parameter, which may have a larger one, leads nowhere.  A walk over base types
ends because it does remember.  So with a bounded number of steps every question about the types of
a project that has been read has an answer, and it is the same one with more steps
(`Project.types_computable`).

The layers also say when two type parameters are equal: those of types if they are the same, those
of methods already if they agree in place and name (`typesEqual_typeParam_iff`).
-/
import PropertyLint.Proofs.Binding.TypeNames
import PropertyLint.Proofs.Symbol.BreadthFirst
import PropertyLint.Symbol.Display

namespace PropertyLint

namespace Compilation

variable {c : Compilation} {id a b source target : SymbolId} {fuel fuel' : Nat} {t : TypeSymbol}
  {queue visited listed : List SymbolId}

/-! ## Full names -/

/-- The number of a type bounds the steps outwards. -/
theorem metadataName?_isSome (h : c.Layered) (hfuel : id < fuel) :
    (c.metadataName? fuel id).isSome := by
  induction fuel generalizing id with
  | zero => exact absurd hfuel (Nat.not_lt_zero _)
  | succ fuel ih =>
    cases ht : c.type? id with
    | none => simp [metadataName?, ht]
    | some t =>
      rcases t.nested_or_top with ⟨outer, houter, hkind⟩ | htop
      · have hlt : outer < id := (h.types id t ht).outer outer houter
        rw [metadataName?_nested ht houter hkind, Option.isSome_map]
        exact ih (Nat.lt_of_lt_of_le hlt (Nat.le_of_lt_succ hfuel))
      · rw [metadataName?_top ht htop]
        rfl

theorem metadataName?_eq (h : c.Layered) (hfuel : c.depthBound ≤ fuel) (id : SymbolId) :
    c.metadataName? fuel id = some (c.metadataName id) := by
  have hsome : (c.metadataName? c.depthBound id).isSome := by
    cases ht : c.type? id with
    | none => simp [depthBound, metadataName?, ht]
    | some t => exact metadataName?_isSome h (Nat.lt_succ_of_lt (lt_of_type?_eq_some ht))
  obtain ⟨name, hname⟩ := Option.isSome_iff_exists.1 hsome
  rw [metadataName, hname]
  exact metadataName?_mono hname hfuel

/-! ## Texts -/

theorem allSome_isSome {f : SymbolId → Option String} {ids : List SymbolId}
    (h : ∀ id ∈ ids, (f id).isSome) : (allSome f ids).isSome := by
  induction ids with
  | nil => rfl
  | cons id ids ih =>
    obtain ⟨text, htext⟩ := Option.isSome_iff_exists.1 (h id (.head _))
    obtain ⟨texts, htexts⟩ := Option.isSome_iff_exists.1 (ih fun x hx => h x (.tail _ hx))
    simp [allSome, htext, htexts]

theorem allSome_mono {f g : SymbolId → Option String}
    (himp : ∀ id text, f id = some text → g id = some text) {ids : List SymbolId}
    {texts : List String} (h : allSome f ids = some texts) : allSome g ids = some texts := by
  induction ids generalizing texts with
  | nil => exact h
  | cons id ids ih =>
    simp only [allSome, Option.bind_eq_bind, Option.bind_eq_some_iff] at h ⊢
    obtain ⟨text, htext, rest, hrest, heq⟩ := h
    exact ⟨text, himp id text htext, rest, ih hrest, heq⟩

/-- The text of a type takes one step more than the texts of other types, and is written from
them. -/
def WrittenFrom (c : Compilation) (id : SymbolId) (inner : List SymbolId) : Prop :=
  ∃ write : List String → String,
    ∀ fuel, c.display? (fuel + 1) id = (allSome (c.display? fuel) inner).map write

theorem writtenFrom_nil {text : String} (h : ∀ fuel, c.display? (fuel + 1) id = some text) :
    c.WrittenFrom id [] := ⟨fun _ => text, h⟩

theorem writtenFrom_singleton {inner : SymbolId} {write : String → String}
    (h : ∀ fuel, c.display? (fuel + 1) id = (c.display? fuel inner).map write) :
    c.WrittenFrom id [inner] := by
  refine ⟨fun texts => write (texts.headD ""), fun fuel => ?_⟩
  rw [h]
  cases htext : c.display? fuel inner with
  | none => simp [allSome, htext]
  | some text => simp [allSome, htext]

/-- The text of a type is written from the texts of its element, its arguments or its parameters. -/
theorem exists_writtenFrom (ht : c.type? id = some t) : ∃ inner, c.WrittenFrom id inner ∧
    ∀ x ∈ inner, x ∈ t.elementType ∨ x ∈ t.typeArgs ∨ x ∈ t.typeParams := by
  have alone (text : String) (h : ∀ fuel, c.display? (fuel + 1) id = some text) :
      ∃ inner, c.WrittenFrom id inner ∧
        ∀ x ∈ inner, x ∈ t.elementType ∨ x ∈ t.typeArgs ∨ x ∈ t.typeParams :=
    ⟨[], writtenFrom_nil h, List.forall_mem_nil _⟩
  cases hkind : t.kind with
  | typeParameter => exact alone t.name fun fuel => by simp only [display?, ht, hkind]
  | array =>
    obtain helement | ⟨element, helement⟩ := t.elementType.eq_none_or_eq_some
    · exact alone t.name fun fuel => by simp only [display?, ht, hkind, helement]
    · have hstep (fuel : Nat) : c.display? (fuel + 1) id
          = (c.display? fuel element).map (· ++ "[]") := by
        simp only [display?, ht, hkind, helement]
      exact ⟨[element], writtenFrom_singleton hstep, by simp [helement]⟩
  | class_ | struct | interface | enum =>
    cases hkeyword : KeywordType.ofMetadataName? (c.metadataName (c.definition id)) with
    | some keyword =>
      exact alone keyword.keyword fun fuel => by simp only [display?, ht, hkind, hkeyword]
    | none =>
      by_cases hnullable : ∃ underlying, t.typeArgs = [underlying] ∧
          (c.metadataName (c.definition id) == KnownType.nullable.metadataName) = true
      · obtain ⟨underlying, hargs, hname⟩ := hnullable
        have hstep (fuel : Nat) : c.display? (fuel + 1) id
            = (c.display? fuel underlying).map (· ++ "?") := by
          simp only [display?, ht, hkind, hkeyword, hargs, hname]
        exact ⟨[underlying], writtenFrom_singleton hstep, by simp [hargs]⟩
      · have hstep (fuel : Nat) : c.display? (fuel + 1) id =
            let args := if t.typeArgs.isEmpty then t.typeParams else t.typeArgs
            if args.isEmpty then some t.name
            else (allSome (c.display? fuel) args).map fun texts =>
              t.name ++ "<" ++ ", ".intercalate texts ++ ">" := by
          simp only [display?, ht, hkind, hkeyword]
          split
          next underlying hname hargs => exact absurd ⟨underlying, hargs, hname⟩ hnullable
          next => rfl
        by_cases hempty : (if t.typeArgs.isEmpty then t.typeParams else t.typeArgs).isEmpty
        · exact alone t.name fun fuel => by rw [hstep, if_pos hempty]
        · refine ⟨_, ⟨_, fun fuel => by rw [hstep, if_neg hempty]⟩, fun x hx => ?_⟩
          split at hx
          · exact .inr (.inr hx)
          · exact .inr (.inl hx)

/-- The text of a type parameter is found in one step. -/
theorem display?_isSome_of_typeParam (h : c.isTypeParam id = true) :
    (c.display? (fuel + 1) id).isSome := by
  obtain ⟨t, ht, hkind⟩ := isTypeParam_iff.1 h
  simp [display?, ht, hkind]

/-- The number of a type bounds the steps inwards; the step behind the last number is that of a type
parameter. -/
theorem display?_isSome {id fuel : Nat} (h : c.Grounded) (ht : c.type? id = some t)
    (hfuel : id + 2 ≤ fuel) : (c.display? fuel id).isSome := by
  induction fuel generalizing id t with
  | zero => omega
  | succ fuel ih =>
    have hfounded := h id t ht
    have hinner (x : Nat) (hx : x < id) : (c.display? fuel x).isSome := by
      cases hu : c.type? x with
      | none =>
        obtain ⟨fuel, rfl⟩ : ∃ n, fuel = n + 1 := ⟨fuel - 1, by omega⟩
        simp [display?, hu]
      | some u => exact ih hu (by omega)
    obtain ⟨inner, ⟨write, hstep⟩, hparts⟩ := exists_writtenFrom ht
    rw [hstep, Option.isSome_map]
    refine allSome_isSome fun x hx => ?_
    rcases hparts x hx with helement | harg | hparam
    · exact hinner x (hfounded.element x helement)
    · exact hinner x (hfounded.args x harg)
    · obtain ⟨fuel, rfl⟩ : ∃ n, fuel = n + 1 := ⟨fuel - 1, by omega⟩
      exact display?_isSome_of_typeParam (hfounded.params x hparam)

/-- A text is found with any sufficient number of steps. -/
theorem display?_mono {text : String} (h : c.display? fuel id = some text) (hle : fuel ≤ fuel') :
    c.display? fuel' id = some text := by
  induction fuel generalizing fuel' id text with
  | zero => cases h
  | succ fuel ih =>
    obtain ⟨fuel', rfl⟩ := Nat.exists_eq_add_one.2 (Nat.zero_lt_of_lt hle)
    cases ht : c.type? id with
    | none => simpa only [display?, ht] using h
    | some t =>
      obtain ⟨inner, ⟨write, hstep⟩, -⟩ := exists_writtenFrom ht
      rw [hstep, Option.map_eq_some_iff] at h ⊢
      obtain ⟨texts, htexts, heq⟩ := h
      exact ⟨texts, allSome_mono (fun x text hx => ih hx (Nat.le_of_succ_le_succ hle)) htexts, heq⟩

theorem display?_eq (h : c.Grounded) (hfuel : c.depthBound ≤ fuel) (id : SymbolId) :
    c.display? fuel id = some (c.display id) := by
  have hsome : (c.display? c.depthBound id).isSome := by
    cases ht : c.type? id with
    | none => simp [depthBound, display?, ht]
    | some t => exact display?_isSome h ht (Nat.succ_le_succ (lt_of_type?_eq_some ht))
  obtain ⟨text, htext⟩ := Option.isSome_iff_exists.1 hsome
  rw [display, htext]
  exact display?_mono htext hfuel

/-! ## Conversions -/

/-- Lists the queued types and all that are found from them, in a bounded number of steps. -/
def baseTypesFrom? (c : Compilation) : Nat → List SymbolId → List SymbolId → Option (List SymbolId)
  | _, [], _ => some []
  | 0, _ :: _, _ => none
  | fuel + 1, t :: queue, visited =>
    let (fresh, visited) := freshIn visited (c.parents t)
    (c.baseTypesFrom? fuel (queue ++ fresh) visited).map (t :: ·)

/-- The base types of a type, found in a bounded number of steps. -/
def baseTypes? (c : Compilation) (fuel : Nat) (id : SymbolId) : Option (List SymbolId) :=
  let (fresh, visited) := freshIn [id] (c.parents id)
  c.baseTypesFrom? fuel fresh visited

/-- One of the types passes a test that may remain undecided. -/
def anyOf? (test : SymbolId → Option Bool) : List SymbolId → Option Bool
  | [] => some false
  | a :: rest =>
    match test a with
    | some false => anyOf? test rest
    | answer => answer

/-- Assignability, decided in a bounded number of steps. -/
def isAssignableTo? (c : Compilation) (fuel : Nat) (source target : SymbolId) : Option Bool := do
  if ← c.typesEqual? fuel source target then return true
  else if c.isKnown source .void then return false
  else if c.isKnown target .object then return true
  else match c.nullableUnderlying? target with
    | some underlying => c.typesEqual? fuel source underlying
    | none => anyOf? (fun base => c.typesEqual? fuel base target) (← c.baseTypes? fuel source)

/-- A walk that comes to its end needs a step for each type that it lists. -/
theorem Walks.baseTypesFrom?_eq (h : c.Walks queue visited listed) (hfuel : listed.length ≤ fuel) :
    c.baseTypesFrom? fuel queue visited = some listed := by
  induction h generalizing fuel with
  | done => rw [baseTypesFrom?]
  | next rest ih =>
    rw [List.length_cons] at hfuel
    obtain ⟨fuel, rfl⟩ := Nat.exists_eq_add_one.2 (Nat.zero_lt_of_lt hfuel)
    rw [baseTypesFrom?]
    dsimp only
    rw [ih (Nat.le_of_succ_le_succ hfuel), Option.map_some]

theorem length_baseTypesFrom_le (c : Compilation) (fuel : Nat) (queue visited : List SymbolId) :
    (c.baseTypesFrom fuel queue visited).length ≤ fuel := by
  induction fuel generalizing queue visited with
  | zero => exact Nat.le_refl _
  | succ fuel ih =>
    cases queue with
    | nil => exact Nat.zero_le _
    | cons t queue => exact Nat.succ_le_succ (ih _ _)

theorem baseTypes?_eq (hfuel : c.parentCount + 1 ≤ fuel) (id : SymbolId) :
    c.baseTypes? fuel id = some (c.baseTypes id) :=
  (c.walks_baseTypes id).baseTypesFrom?_eq
    (Nat.le_trans (c.length_baseTypesFrom_le _ _ _) hfuel)

theorem anyOf?_eq {test : SymbolId → Option Bool} {answer : SymbolId → Bool}
    (h : ∀ id, test id = some (answer id)) (ids : List SymbolId) :
    anyOf? test ids = some (ids.any answer) := by
  induction ids with
  | nil => rfl
  | cons id ids ih =>
    rw [anyOf?, h, List.any_cons]
    cases answer id with
    | true => rfl
    | false => exact ih

/-- The number of steps that suffices for all walks over types. -/
def stepBound (c : Compilation) : Nat := c.depthBound + c.parentCount

theorem isAssignableTo?_eq (h : c.Grounded) (hfuel : c.stepBound ≤ fuel)
    (source target : SymbolId) :
    c.isAssignableTo? fuel source target = some (c.isAssignableTo source target) := by
  have hequal : ∀ a b, c.typesEqual? fuel a b = some (c.typesEqual a b) :=
    typesEqual?_eq h (Nat.le_trans (Nat.le_add_right _ _) hfuel)
  have hbases : c.baseTypes? fuel source = some (c.baseTypes source) := by
    refine baseTypes?_eq (Nat.le_trans ?_ hfuel) source
    rw [stepBound, depthBound]
    omega
  unfold isAssignableTo? isAssignableTo
  simp only [hequal, hbases, Option.bind_eq_bind, Option.bind_some]
  split
  · rfl
  split
  · rfl
  split
  · rfl
  cases c.nullableUnderlying? target with
  | some underlying => rfl
  | none => exact anyOf?_eq (fun _ => rfl) (c.baseTypes source)

end Compilation

/-! ## Projects -/

/-- The symbols of bound sources, as a project holds them. -/
def compOf (sources : List Source) : Compilation := ((bindSources sources).run {}).2.comp.withKnown

/-- The symbols of a project are those of its files behind the framework. -/
theorem Project.comp_ofTrees (trees : List SyntaxTree) (markers : List (List Nat)) :
    (Project.ofTrees trees markers).comp =
      compOf (frameworkSource :: trees.map fun t => ⟨some t.file, t.root⟩) := by
  rw [ofTrees, bindTrees, compOf]

theorem compOf_layered (sources : List Source) : (compOf sources).Layered :=
  (bindSources_leads sources).valid.layered.withKnown

namespace Project

theorem layered_of_read {files : List String} {p : Project} (h : Project.read files = .ok p) :
    p.comp.Layered := by
  obtain ⟨trees, markers, rfl⟩ := exists_ofTrees h
  rw [comp_ofTrees]
  exact compOf_layered _

/-- **Types are computable.**  In a project that has been read, full names, texts, equality and
assignability are found for all symbols in a bounded number of steps, and more steps do not change
what is found.  That holds whatever the files declare: types that derive from each other or from
types constructed from themselves, partial types, and generic types in generic types. -/
theorem types_computable {files : List String} {p : Project} (h : Project.read files = .ok p)
    {fuel : Nat} (hfuel : p.comp.stepBound ≤ fuel) (a b : SymbolId) :
    p.comp.metadataName? fuel a = some (p.comp.metadataName a) ∧
      p.comp.display? fuel a = some (p.comp.display a) ∧
      p.comp.typesEqual? fuel a b = some (p.comp.typesEqual a b) ∧
      p.comp.isAssignableTo? fuel a b = some (p.comp.isAssignableTo a b) := by
  have hlayered := layered_of_read h
  have hgrounded := hlayered.grounded
  have hdepth : p.comp.depthBound ≤ fuel := Nat.le_trans (Nat.le_add_right _ _) hfuel
  exact ⟨Compilation.metadataName?_eq hlayered hdepth a,
    Compilation.display?_eq hgrounded hdepth a,
    Compilation.typesEqual?_eq hgrounded hdepth a b,
    Compilation.isAssignableTo?_eq hgrounded hfuel a b⟩

/-- A class that derives from a generic class of itself, which derives from the class, and a nested
generic class in two parts whose base is constructed from it. -/
def selfReferring : String :=
  "class A : B<A> \x7b \x7d class B<T> : A \x7b " ++
    "partial class N<U> : B<N<U>[]> \x7b \x7d partial class N<U> \x7b \x7d \x7d"

/-- The file is read, so there are answers for all its types. -/
theorem types_computable_selfReferring : ∃ p, Project.read [selfReferring] = .ok p ∧
    ∀ a b, p.comp.metadataName? p.comp.stepBound a = some (p.comp.metadataName a) ∧
      p.comp.display? p.comp.stepBound a = some (p.comp.display a) ∧
      p.comp.typesEqual? p.comp.stepBound a b = some (p.comp.typesEqual a b) ∧
      p.comp.isAssignableTo? p.comp.stepBound a b = some (p.comp.isAssignableTo a b) := by
  have hread : (Project.read [selfReferring]).toOption.isSome = true := by decide +kernel
  obtain ⟨p, hp⟩ := Option.isSome_iff_exists.1 hread
  rw [toOption_eq_some_iff] at hp
  exact ⟨p, hp, types_computable hp (Nat.le_refl _)⟩

end Project

/-! ## Type parameters -/

variable {sources : List Source} {a b : SymbolId} {s t : TypeSymbol}

/-- **Equality of type parameters.**  Two type parameters of bound sources are equal if and only if
they stand in one place of the list of one type, or belong to no type, as those of methods do, and
agree in place and name.  The type parameters of a type are equal only if they are the same. -/
theorem typesEqual_typeParam_iff (hs : (compOf sources).type? a = some s)
    (ht : (compOf sources).type? b = some t) (ks : s.kind = .typeParameter)
    (kt : t.kind = .typeParameter) : ((compOf sources).typesEqual a b = true ↔
      (∃ owner place, (compOf sources).HasParam owner place a ∧
        (compOf sources).HasParam owner place b) ∨
      (s.containingType = none ∧ t.containingType = none ∧ s.ordinal = t.ordinal ∧
        s.name = t.name)) ∧
    (s.containingType.isSome = true → (compOf sources).typesEqual a b = true → a = b) := by
  have hiff := (compOf_layered sources).typesEqual_iff_of_typeParam hs ht ks kt
  refine ⟨hiff, fun howner hequal => ?_⟩
  rcases hiff.1 hequal with ⟨owner, place, ha, hb⟩ | ⟨hnone, -⟩
  · exact ha.unique hb
  · rw [hnone] at howner
    cases howner

/-- A class with two methods, each with a type parameter. -/
def twoMethods : List Source :=
  (SyntaxTree.parse 0 ("class A \x7b T F<T>() \x7b return default(T); \x7d " ++
    "T G<T>() \x7b return default(T); \x7d \x7d")).toOption.toList.map
      fun t => ⟨some t.file, t.root⟩

/-- The type parameters of the two methods are equal, and stand in no list together. -/
theorem typesEqual_typeParam_iff_twoMethods : ∃ s t,
    (compOf twoMethods).type? 1 = some s ∧ (compOf twoMethods).type? 3 = some t ∧
      s.kind = .typeParameter ∧ t.kind = .typeParameter ∧
      (compOf twoMethods).typesEqual 1 3 = true ∧
      ¬ ∃ owner place, (compOf twoMethods).HasParam owner place 1 ∧
        (compOf twoMethods).HasParam owner place 3 := by
  let summary (t : TypeSymbol) := (t.kind, t.containingType, t.ordinal, t.name)
  have hfirst : ((compOf twoMethods).type? 1).map summary =
      some (.typeParameter, none, some 0, "T") := by decide +kernel
  have hsecond : ((compOf twoMethods).type? 3).map summary =
      some (.typeParameter, none, some 0, "T") := by decide +kernel
  obtain ⟨s, hs, hs'⟩ := Option.map_eq_some_iff.1 hfirst
  obtain ⟨t, ht, ht'⟩ := Option.map_eq_some_iff.1 hsecond
  simp only [summary, Prod.mk.injEq] at hs' ht'
  obtain ⟨ks, hsowner, hsordinal, hsname⟩ := hs'
  obtain ⟨kt, htowner, htordinal, htname⟩ := ht'
  have hagree : s.containingType = none ∧ t.containingType = none ∧ s.ordinal = t.ordinal ∧
      s.name = t.name :=
    ⟨hsowner, htowner, hsordinal.trans htordinal.symm, hsname.trans htname.symm⟩
  obtain ⟨hiff, -⟩ := typesEqual_typeParam_iff hs ht ks kt
  refine ⟨s, t, hs, ht, ks, kt, hiff.2 (.inr hagree), ?_⟩
  rintro ⟨owner, place, hfirst, hsecond⟩
  exact absurd (hfirst.unique hsecond) (by decide)

end PropertyLint
