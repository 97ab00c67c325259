/-
# Numbers of symbols are valid

A number is valid if a symbol has it; base types, arguments, elements and types of values have to be
types, and parameters of methods parameters (`Symbol.Sound`).  A compilation is valid if all numbers
in it are (`Compilation.Valid`).  Compilations grow: a symbol keeps its number, and only types
change, which makes them a preorder.  So what was valid stays valid, and every operation leaves a
valid compilation if it is given valid numbers; what is read from one is valid.
-/
import Mathlib.Order.Basic
import PropertyLint.Binding.Overload
import PropertyLint.Proofs.Symbol.Interned

namespace PropertyLint

namespace Compilation

/-! ## Growing -/

/-- A compilation grows if its symbols keep their numbers; types may change. -/
instance : Preorder Compilation where
  le c c' := ∀ id s, c.symbol? id = some s → c'.symbol? id = some s ∨
    (∃ t, s = .type t) ∧ ∃ t, c'.symbol? id = some (.type t)
  le_refl _ _ _ h := .inl h
  le_trans a b c hab hbc id s h := by
    rcases hab id s h with h' | ⟨hs, t, h'⟩
    · exact hbc id s h'
    · rcases hbc id _ h' with h'' | ⟨-, h''⟩
      · exact .inr ⟨hs, t, h''⟩
      · exact .inr ⟨hs, h''⟩

variable {c c' : Compilation} {id : SymbolId} {s : Symbol} {t : TypeSymbol}

/-- A symbol has the number. -/
def Has (c : Compilation) (id : SymbolId) : Prop := id < c.symbols.size

/-- The number is that of a type. -/
def IsType (c : Compilation) (id : SymbolId) : Prop := ∃ t, c.symbol? id = some (.type t)

/-- The number is that of a parameter. -/
def IsParameter (c : Compilation) (id : SymbolId) : Prop := ∃ p, c.symbol? id = some (.parameter p)

theorem has_of_symbol? (h : c.symbol? id = some s) : c.Has id := (Array.getElem?_eq_some_iff.1 h).1

theorem IsType.has (h : c.IsType id) : c.Has id := has_of_symbol? h.choose_spec

theorem IsParameter.has (h : c.IsParameter id) : c.Has id := has_of_symbol? h.choose_spec

/-- A symbol that is no type stays as it is. -/
theorem symbol?_of_le (h : c.symbol? id = some s) (hs : ∀ t, s ≠ .type t) (hle : c ≤ c') :
    c'.symbol? id = some s := by
  rcases hle id s h with h' | ⟨⟨t, ht⟩, -⟩
  · exact h'
  · exact absurd ht (hs t)

theorem Has.mono (h : c.Has id) (hle : c ≤ c') : c'.Has id := by
  have hget : c.symbol? id = some c.symbols[id] := Array.getElem?_eq_getElem h
  rcases hle id _ hget with h' | ⟨-, t, h'⟩
  · exact has_of_symbol? h'
  · exact has_of_symbol? h'

theorem size_le_of_le (hle : c ≤ c') : c.symbols.size ≤ c'.symbols.size := by
  cases hsize : c.symbols.size with
  | zero => exact Nat.zero_le _
  | succ n =>
    have hlast : c.Has n := by rw [Has, hsize]; exact Nat.lt_succ_self n
    exact hlast.mono hle

theorem IsType.mono (h : c.IsType id) (hle : c ≤ c') : c'.IsType id := by
  obtain ⟨t, ht⟩ := h
  rcases hle id _ ht with h' | ⟨-, h'⟩
  · exact ⟨t, h'⟩
  · exact h'

theorem IsParameter.mono (h : c.IsParameter id) (hle : c ≤ c') : c'.IsParameter id := by
  obtain ⟨p, hp⟩ := h
  exact ⟨p, symbol?_of_le hp (fun _ => Symbol.noConfusion) hle⟩

theorem symbol?_of_type? (h : c.type? id = some t) : c.symbol? id = some (.type t) := by
  obtain ⟨s, hs, ht⟩ := Option.bind_eq_some_iff.1 h
  cases s with
  | type u => rw [hs, Option.some.inj ht]
  | _ => cases ht

theorem isType_of_type? (h : c.type? id = some t) : c.IsType id := ⟨t, symbol?_of_type? h⟩

end Compilation

/-! ## Valid numbers -/

open Compilation

/-- The numbers in a type are those of types, and those of its members are there. -/
structure TypeSymbol.Sound (c : Compilation) (t : TypeSymbol) : Prop where
  containing : ∀ id ∈ t.containingType, c.IsType id
  base : ∀ id ∈ t.baseType, c.IsType id
  interfaces : ∀ id ∈ t.interfaces, c.IsType id
  members : ∀ id ∈ t.members, c.Has id
  params : ∀ id ∈ t.typeParams, c.IsType id
  args : ∀ id ∈ t.typeArgs, c.IsType id
  definition : ∀ id ∈ t.genericDefinition, c.IsType id
  element : ∀ id ∈ t.elementType, c.IsType id

/-- The numbers in a method: a type that it is declared in, one that it returns and parameters. -/
structure MethodSymbol.Sound (c : Compilation) (m : MethodSymbol) : Prop where
  containing : c.IsType m.containingType
  returns : ∀ id ∈ m.returnType, c.IsType id
  params : ∀ id ∈ m.params, c.IsParameter id

/-- The numbers in a symbol are valid. -/
def Symbol.Sound (c : Compilation) : Symbol → Prop
  | .type t => t.Sound c
  | .field f => c.IsType f.containingType ∧ ∀ id ∈ f.type, c.IsType id
  | .property p => c.IsType p.containingType ∧ ∀ id ∈ p.type, c.IsType id
  | .method m => m.Sound c
  | .parameter p => ∀ id ∈ p.type, c.IsType id
  | .localVar l => ∀ id ∈ l.type, c.IsType id

/-- The numbers in a table of known symbols are valid. -/
structure KnownSymbols.Sound (c : Compilation) (k : KnownSymbols) : Prop where
  types : ∀ e ∈ k.types, c.IsType e.2
  members : ∀ e ∈ k.members, c.Has e.1

/-- All numbers in a compilation are valid. -/
structure Compilation.Valid (c : Compilation) : Prop where
  symbols : ∀ id s, c.symbol? id = some s → s.Sound c
  registry : ∀ e ∈ c.registry, c.IsType e.2
  constructed : ∀ e ∈ c.constructed, c.IsType e.1.1 ∧ (∀ id ∈ e.1.2, c.IsType id) ∧ c.IsType e.2
  arrays : ∀ e ∈ c.arrays, c.IsType e.1 ∧ c.IsType e.2
  known : ∀ k ∈ c.knownCache, k.Sound c

variable {c c' : Compilation} {id : SymbolId} {s : Symbol} {t : TypeSymbol}

theorem TypeSymbol.Sound.mono (h : t.Sound c) (hle : c ≤ c') : t.Sound c' where
  containing id hid := (h.containing id hid).mono hle
  base id hid := (h.base id hid).mono hle
  interfaces id hid := (h.interfaces id hid).mono hle
  members id hid := (h.members id hid).mono hle
  params id hid := (h.params id hid).mono hle
  args id hid := (h.args id hid).mono hle
  definition id hid := (h.definition id hid).mono hle
  element id hid := (h.element id hid).mono hle

theorem MethodSymbol.Sound.mono {m : MethodSymbol} (h : m.Sound c) (hle : c ≤ c') : m.Sound c' where
  containing := h.containing.mono hle
  returns id hid := (h.returns id hid).mono hle
  params id hid := (h.params id hid).mono hle

theorem Symbol.Sound.mono (h : s.Sound c) (hle : c ≤ c') : s.Sound c' := by
  cases s with
  | type t => exact TypeSymbol.Sound.mono h hle
  | field f | property p => exact ⟨h.1.mono hle, fun id hid => (h.2 id hid).mono hle⟩
  | method m => exact MethodSymbol.Sound.mono h hle
  | parameter p | localVar l => exact fun id hid => (h id hid).mono hle

theorem KnownSymbols.Sound.mono {k : KnownSymbols} (h : k.Sound c) (hle : c ≤ c') : k.Sound c' where
  types e he := (h.types e he).mono hle
  members e he := (h.members e he).mono hle

namespace Compilation

theorem Valid.empty : Valid {} where
  symbols _ _ h := by simp [symbol?] at h
  registry _ h := absurd h List.not_mem_nil
  constructed _ h := absurd h List.not_mem_nil
  arrays _ h := absurd h List.not_mem_nil
  known _ h := by cases h

/-- A compilation that grows stays valid if what is new in it is valid. -/
theorem Valid.grow (h : c.Valid) (hle : c ≤ c')
    (symbols : ∀ id s, c'.symbol? id = some s → s.Sound c')
    (registry : ∀ e ∈ c'.registry, e ∈ c.registry ∨ c'.IsType e.2)
    (constructed : ∀ e ∈ c'.constructed, e ∈ c.constructed ∨
      c'.IsType e.1.1 ∧ (∀ id ∈ e.1.2, c'.IsType id) ∧ c'.IsType e.2)
    (arrays : ∀ e ∈ c'.arrays, e ∈ c.arrays ∨ c'.IsType e.1 ∧ c'.IsType e.2)
    (known : ∀ k ∈ c'.knownCache, k.Sound c') : c'.Valid where
  symbols := symbols
  registry e he := (registry e he).elim (fun hold => (h.registry e hold).mono hle) id
  constructed e he := by
    refine (constructed e he).elim (fun hold => ?_) id
    obtain ⟨hd, hargs, hmade⟩ := h.constructed e hold
    exact ⟨hd.mono hle, fun id hid => (hargs id hid).mono hle, hmade.mono hle⟩
  arrays e he := by
    refine (arrays e he).elim (fun hold => ?_) id
    obtain ⟨helement, hmade⟩ := h.arrays e hold
    exact ⟨helement.mono hle, hmade.mono hle⟩
  known := known

/-! ## Operations -/

theorem le_of_symbols_eq (h : c'.symbols = c.symbols) : c ≤ c' := fun id s hs =>
  .inl (by rwa [symbol?, h])

theorem symbol?_add_size (s : Symbol) : (c.add s).2.symbol? c.symbols.size = some s := by
  simp [symbol?, add, dropKnown]

theorem symbol?_add_of_has (s : Symbol) (h : c.Has id) : (c.add s).2.symbol? id = c.symbol? id := by
  simp only [symbol?, add, dropKnown, Array.getElem?_push_lt h, Array.getElem?_eq_getElem h]

theorem le_add (c : Compilation) (s : Symbol) : c ≤ (c.add s).2 := fun _ _ h =>
  .inl ((symbol?_add_of_has s (has_of_symbol? h)).trans h)

theorem Valid.add (h : c.Valid) (hs : s.Sound c) : (c.add s).2.Valid := by
  refine h.grow (c.le_add s) (fun id s' hid => ?_) (fun _ => .inl) (fun _ => .inl) (fun _ => .inl)
    fun _ hk => by cases hk
  have hhas : id < (c.add s).2.symbols.size := has_of_symbol? hid
  rw [Compilation.add, Array.size_push] at hhas
  rcases Nat.lt_succ_iff_lt_or_eq.1 hhas with hlt | rfl
  · exact (h.symbols id s' ((symbol?_add_of_has s hlt).symm.trans hid)).mono (c.le_add s)
  · obtain rfl := Option.some.inj ((symbol?_add_size s).symm.trans hid)
    exact hs.mono (c.le_add s)

/-- The symbols after a type has been changed. -/
theorem symbol?_modifyType (c : Compilation) (edited : SymbolId) (f : TypeSymbol → TypeSymbol)
    (id : SymbolId) : (c.modifyType edited f).symbol? id = (c.symbol? id).map fun s =>
      match s with
      | .type t => .type (if edited = id then f t else t)
      | s => s := by
  simp only [symbol?, modifyType, dropKnown, Array.getElem?_modify]
  split
  · cases c.symbols[id]? with
    | none => rfl
    | some s => cases s <;> rfl
  · cases c.symbols[id]? with
    | none => rfl
    | some s => cases s <;> rfl

theorem le_modifyType (c : Compilation) (edited : SymbolId) (f : TypeSymbol → TypeSymbol) :
    c ≤ c.modifyType edited f := by
  intro id s hs
  rw [symbol?_modifyType, hs]
  cases s with
  | type t => exact .inr ⟨⟨t, rfl⟩, _, rfl⟩
  | _ => exact .inl rfl

theorem Valid.modifyType {edited : SymbolId} {f : TypeSymbol → TypeSymbol} (h : c.Valid)
    (hf : ∀ t, t.Sound c → (f t).Sound c) : (c.modifyType edited f).Valid := by
  have hle := c.le_modifyType edited f
  refine h.grow hle (fun id s hs => ?_) (fun _ => .inl) (fun _ => .inl) (fun _ => .inl)
    fun _ hk => by cases hk
  rw [symbol?_modifyType, Option.map_eq_some_iff] at hs
  obtain ⟨s', hs', rfl⟩ := hs
  have hsound := h.symbols id s' hs'
  cases s' with
  | type t =>
    have hnew : (if edited = id then f t else t).Sound c := by
      split
      · exact hf t hsound
      · exact hsound
    exact hnew.mono hle
  | _ => exact hsound.mono hle

theorem Valid.register (h : c.Valid) (hid : c.IsType id) : (c.register id).Valid := by
  have hle : c ≤ c.register id := le_of_symbols_eq rfl
  refine h.grow hle (fun id s hs => (h.symbols id s hs).mono hle) (fun e he => ?_)
    (fun _ => .inl) (fun _ => .inl) fun _ hk => by cases hk
  rcases List.mem_append.1 he with he | he
  · exact .inl he
  · obtain rfl := List.mem_singleton.1 he
    exact .inr (hid.mono hle)

theorem le_withConstructed (c : Compilation) (d : SymbolId) (t : TypeSymbol)
    (args : List SymbolId) : c ≤ c.withConstructed d t args := c.le_add _

theorem Valid.withConstructed {d : SymbolId} {args : List SymbolId} (h : c.Valid)
    (ht : c.type? d = some t) (hargs : ∀ id ∈ args, c.IsType id) :
    (c.withConstructed d t args).Valid ∧ (c.withConstructed d t args).IsType c.symbols.size := by
  have hd := isType_of_type? ht
  have hsound : t.Sound c := h.symbols d _ (symbol?_of_type? ht)
  have hadd := h.add (s := .type { t with typeArgs := args, genericDefinition := some d })
    { hsound with
      args := hargs
      definition := fun id hid => by
        obtain rfl := Option.some.inj hid
        exact hd }
  have hmade : (c.withConstructed d t args).IsType c.symbols.size := ⟨_, symbol?_add_size _⟩
  have hle := c.le_withConstructed d t args
  refine ⟨h.grow hle (fun id s hs => (hadd.symbols id s hs).mono (le_of_symbols_eq rfl))
    (fun _ => .inl) (fun e he => ?_) (fun _ => .inl) (fun _ hk => by cases hk), hmade⟩
  rcases List.mem_cons.1 he with rfl | he
  · exact .inr ⟨hd.mono hle, fun id hid => (hargs id hid).mono hle, hmade⟩
  · exact .inl he

theorem Valid.isType_definition (h : c.Valid) (hid : c.IsType id) : c.IsType (c.definition id) := by
  unfold definition
  cases ht : c.type? id with
  | none => exact hid
  | some t =>
    cases hd : t.genericDefinition with
    | none => simpa [hd] using hid
    | some d =>
      have hsound : t.Sound c := h.symbols id _ (symbol?_of_type? ht)
      simpa [hd] using hsound.definition d hd

theorem Valid.construct {args : List SymbolId} (h : c.Valid) (hid : c.IsType id)
    (hargs : ∀ a ∈ args, c.IsType a) :
    (c.construct id args).2.Valid ∧ c ≤ (c.construct id args).2 ∧
      (c.construct id args).2.IsType (c.construct id args).1 := by
  have hd := h.isType_definition hid
  rw [construct_eq]
  cases ht : c.type? (c.definition id) with
  | none =>
    have heq : c.constructAt (c.definition id) args = (c.definition id, c) := by
      simp only [constructAt, ht]
    rw [heq]
    exact ⟨h, le_refl c, hd⟩
  | some t =>
    rcases constructAt_cases ht args with ⟨-, heq⟩ | ⟨-, made, hmade, heq⟩ | ⟨-, -, heq⟩ <;>
      rw [heq]
    · exact ⟨h, le_refl c, hd⟩
    · exact ⟨h, le_refl c, (h.constructed _ (mem_of_lookup hmade)).2.2⟩
    · obtain ⟨hvalid, hnew⟩ := h.withConstructed ht hargs
      exact ⟨hvalid, c.le_withConstructed _ _ _, hnew⟩

theorem Valid.isType_typeNamed? (h : c.Valid) {name : String} :
    ∀ id ∈ c.typeNamed? name, c.IsType id := fun _ hid => h.registry _ (mem_of_lookup hid)

theorem Valid.withArray {element : SymbolId} (h : c.Valid) (helement : c.IsType element) :
    (c.withArray element).Valid ∧ (c.withArray element).IsType c.symbols.size := by
  have hsound : (c.arraySymbol element).Sound c :=
    { containing := fun _ hid => by cases hid
      base := h.isType_typeNamed?
      interfaces := fun _ hid => absurd hid List.not_mem_nil
      members := fun _ hid => absurd hid List.not_mem_nil
      params := fun _ hid => absurd hid List.not_mem_nil
      args := fun _ hid => absurd hid List.not_mem_nil
      definition := fun _ hid => by cases hid
      element := fun id hid => by
        obtain rfl := Option.some.inj hid
        exact helement }
  have hadd := h.add (s := .type (c.arraySymbol element)) hsound
  have hmade : (c.withArray element).IsType c.symbols.size := ⟨_, symbol?_add_size _⟩
  have hle : c ≤ c.withArray element := c.le_add _
  refine ⟨h.grow hle (fun id s hs => (hadd.symbols id s hs).mono (le_of_symbols_eq rfl))
    (fun _ => .inl) (fun _ => .inl) (fun e he => ?_) (fun _ hk => by cases hk), hmade⟩
  rcases List.mem_cons.1 he with rfl | he
  · exact .inr ⟨helement.mono hle, hmade⟩
  · exact .inl he

theorem Valid.arrayOf {element : SymbolId} (h : c.Valid) (helement : c.IsType element) :
    (c.arrayOf element).2.Valid ∧ c ≤ (c.arrayOf element).2 ∧
      (c.arrayOf element).2.IsType (c.arrayOf element).1 := by
  rcases arrayOf_cases c element with ⟨made, hmade, heq⟩ | ⟨-, heq⟩ <;> rw [heq]
  · exact ⟨h, le_refl c, (h.arrays _ (mem_of_lookup hmade)).2⟩
  · obtain ⟨hvalid, hnew⟩ := h.withArray helement
    exact ⟨hvalid, c.le_add _, hnew⟩

theorem Valid.nullableOf {underlying made : SymbolId} (h : c.Valid)
    (hunderlying : c.IsType underlying) (hmade : c.nullableOf underlying = some (made, c')) :
    c'.Valid ∧ c ≤ c' ∧ c'.IsType made := by
  obtain ⟨nullable, hn, heq⟩ := Option.map_eq_some_iff.1 hmade
  have hconstruct := h.construct (h.isType_typeNamed? nullable hn)
    (List.forall_mem_singleton.2 hunderlying)
  rwa [heq] at hconstruct

/-! ## Reading -/

theorem Valid.sound (h : c.Valid) (ht : c.type? id = some t) : t.Sound c :=
  h.symbols id _ (symbol?_of_type? ht)

theorem Valid.has_membersNamed (h : c.Valid) {name : String} :
    ∀ m ∈ c.membersNamed id name, c.Has m := by
  intro m hm
  have hm := (List.mem_filter.1 hm).1
  cases ht : c.type? (c.definition id) with
  | none => simp [ht] at hm
  | some t =>
    rw [ht] at hm
    exact (h.sound ht).members m hm

theorem Valid.has_lookupMembers (h : c.Valid) {name : String} :
    ∀ m ∈ c.lookupMembers id name, c.Has m := by
  intro m hm
  obtain ⟨b, -, hm⟩ := List.mem_flatMap.1 hm
  exact h.has_membersNamed m hm

theorem Valid.isType_valueType? (h : c.Valid) : ∀ t ∈ c.valueType? id, c.IsType t := by
  intro t ht
  obtain ⟨s, hs, ht⟩ := Option.bind_eq_some_iff.1 ht
  have hsound := h.symbols id s hs
  cases s with
  | field f | property p => exact hsound.2 t ht
  | parameter p | localVar l => exact hsound t ht
  | type _ | method _ => cases ht

theorem Valid.isType_returnType (h : c.Valid) :
    ∀ t ∈ (c.method? id).bind MethodSymbol.returnType, c.IsType t := by
  intro t ht
  obtain ⟨m, hm, ht⟩ := Option.bind_eq_some_iff.1 ht
  obtain ⟨s, hs, hm⟩ := Option.bind_eq_some_iff.1 hm
  have hsound := h.symbols id s hs
  cases s with
  | method m' =>
    obtain rfl := Option.some.inj hm
    exact MethodSymbol.Sound.returns hsound t ht
  | _ => cases hm

theorem mem_of_betterCall {best : Option (Nat × SymbolId)} {calls : List (Nat × SymbolId)}
    {call : Nat × SymbolId} (h : calls.foldl betterCall best = some call) :
    call ∈ best ∨ call ∈ calls := by
  induction calls generalizing best with
  | nil => exact .inl h
  | cons next rest ih =>
    rcases ih h with hbest | hrest
    · unfold betterCall at hbest
      split at hbest
      · split at hbest
        · exact .inr (by rw [Option.some.inj hbest]; exact .head _)
        · exact .inl hbest
      · exact .inr (by rw [Option.some.inj hbest]; exact .head _)
    · exact .inr (.tail _ hrest)

/-- A call chooses one of the candidates. -/
theorem mem_of_pickOverload {candidates : List SymbolId} {args : List PassedArg} {m : SymbolId}
    (h : c.pickOverload candidates args = some m) : m ∈ candidates := by
  obtain ⟨call, hcall, rfl⟩ := Option.map_eq_some_iff.1 h
  rcases mem_of_betterCall hcall with hnone | hmem
  · cases hnone
  · obtain ⟨candidate, hcandidate, hscore⟩ := List.mem_filterMap.1 hmem
    obtain ⟨score, -, rfl⟩ := Option.map_eq_some_iff.1 hscore
    exact hcandidate

/-! ## Known symbols -/

theorem Valid.resolveKnown (h : c.Valid) : c.resolveKnown.Sound c where
  types e he := by
    obtain ⟨tag, -, htag⟩ := List.mem_filterMap.1 he
    obtain ⟨id, hid, rfl⟩ := Option.map_eq_some_iff.1 htag
    exact h.isType_typeNamed? id hid
  members e he := by
    obtain ⟨member, -, hmember⟩ := List.mem_flatMap.1 he
    split at hmember
    · obtain ⟨id, hid, rfl⟩ := List.mem_map.1 hmember
      exact h.has_membersNamed id (List.mem_filter.1 hid).1
    · cases hmember

theorem Valid.known_sound (h : c.Valid) : c.known.Sound c := by
  unfold Compilation.known
  cases hk : c.knownCache with
  | none => exact h.resolveKnown
  | some k => exact h.known k hk

theorem le_withKnown (c : Compilation) : c ≤ c.withKnown := le_of_symbols_eq rfl

theorem Valid.withKnown (h : c.Valid) : c.withKnown.Valid := by
  have hle := c.le_withKnown
  refine h.grow hle (fun id s hs => (h.symbols id s hs).mono hle) (fun _ => .inl) (fun _ => .inl)
    (fun _ => .inl) fun k hk => ?_
  obtain rfl := Option.some.inj hk
  exact h.known_sound.mono hle

end Compilation

end PropertyLint
