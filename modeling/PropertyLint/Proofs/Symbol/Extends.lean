/-
# Compilations that are extended

A compilation is orderly if the members of its types are members, the parameters of its methods are
numbered by their places and a kept table of known types is up to date (`Compilation.Orderly`).
When members have been declared, symbols are only added to an orderly compilation: none that is
there changes, and no type is registered (`Compilation.Extends`).  What holds of symbols that are
there holds of them later: equal types stay equal (`Extends.typesEqual`), and what is assignable
stays so (`Extends.isAssignableTo`).  While members are declared, the types that get them change, but
not what kind of types they are (`Compilation.Grows`).
-/
import PropertyLint.Proofs.Symbol.Equality
import PropertyLint.Proofs.Symbol.Valid

namespace PropertyLint

open Compilation

variable {c c' c'' : Compilation} {id a b : SymbolId} {s : Symbol} {t : TypeSymbol}
  {ids : List SymbolId} {k : Nat}

/-! ## Orderly compilations -/

/-- The numbers are those of parameters whose places are counted from a number on. -/
def Compilation.InPlaces (c : Compilation) (k : Nat) (ids : List SymbolId) : Prop :=
  ∀ i id, ids[i]? = some id → ∃ p, c.parameter? id = some p ∧ p.ordinal = k + i

/-- The members of a type are members, and the parameters of a method are in their places. -/
def Symbol.Orderly (c : Compilation) : Symbol → Prop
  | .type t => ∀ m ∈ t.members, c.isMember m = true
  | .method m => c.InPlaces 0 m.params
  | .field _ | .property _ | .parameter _ | .localVar _ => True

theorem Symbol.orderly_type :
    (Symbol.type t).Orderly c ↔ ∀ m ∈ t.members, c.isMember m = true := .rfl

theorem Symbol.orderly_parameter (p : ParameterSymbol) (c : Compilation) :
    (Symbol.parameter p).Orderly c := trivial

theorem Symbol.orderly_localVar (l : LocalSymbol) (c : Compilation) :
    (Symbol.localVar l).Orderly c := trivial

/-- All symbols are orderly, and a kept table of known types is that of the registered ones. -/
structure Compilation.Orderly (c : Compilation) : Prop where
  symbols : ∀ id s, c.symbol? id = some s → s.Orderly c
  known : ∀ k ∈ c.knownCache, k.types = c.resolveKnownTypes

namespace Compilation

theorem parameter?_of_le {p : ParameterSymbol} (h : c.parameter? id = some p) (hle : c ≤ c') :
    c'.parameter? id = some p := by
  obtain ⟨s, hs, hp⟩ := Option.bind_eq_some_iff.1 h
  cases s with
  | parameter q =>
    exact Option.bind_eq_some_iff.2 ⟨_, symbol?_of_le hs (fun _ => Symbol.noConfusion) hle, hp⟩
  | _ => cases hp

theorem isMember_of_le (h : c.isMember id = true) (hle : c ≤ c') : c'.isMember id = true := by
  unfold isMember at h ⊢
  split at h
  next hs => rw [symbol?_of_le hs (fun _ => Symbol.noConfusion) hle]
  next hs => rw [symbol?_of_le hs (fun _ => Symbol.noConfusion) hle]
  next hs => rw [symbol?_of_le hs (fun _ => Symbol.noConfusion) hle]
  next => cases h

theorem InPlaces.mono (h : c.InPlaces k ids) (hle : c ≤ c') : c'.InPlaces k ids :=
  fun i id hid =>
    let ⟨p, hp, hordinal⟩ := h i id hid
    ⟨p, parameter?_of_le hp hle, hordinal⟩

theorem InPlaces.nil : c.InPlaces k [] := fun _ _ h => by cases h

theorem InPlaces.cons {p : ParameterSymbol} (hp : c.parameter? id = some p) (hordinal : p.ordinal = k)
    (h : c.InPlaces (k + 1) ids) : c.InPlaces k (id :: ids) := by
  intro i other hother
  cases i with
  | zero =>
    obtain rfl := Option.some.inj hother
    exact ⟨p, hp, hordinal⟩
  | succ i =>
    obtain ⟨q, hq, hplace⟩ := h i other hother
    exact ⟨q, hq, by omega⟩

theorem resolveKnownTypes_congr (h : c'.registry = c.registry) :
    c'.resolveKnownTypes = c.resolveKnownTypes := by
  unfold resolveKnownTypes typeNamed?
  rw [h]

end Compilation

theorem Symbol.Orderly.mono (h : s.Orderly c) (hle : c ≤ c') : s.Orderly c' := by
  cases s with
  | type t => exact fun m hm => isMember_of_le (h m hm) hle
  | method m => exact InPlaces.mono h hle
  | _ => trivial

namespace Compilation

/-- An orderly compilation that grows stays so if what is new in it is orderly. -/
theorem Orderly.grow (symbols : ∀ id s, c'.symbol? id = some s → s.Orderly c ∨ s.Orderly c')
    (hle : c ≤ c') (hknown : c'.knownCache = none) : c'.Orderly where
  symbols id s hs := (symbols id s hs).elim (fun h => h.mono hle) fun h => h
  known k hk := by rw [hknown] at hk; cases hk

theorem Orderly.empty : Orderly {} where
  symbols _ _ h := by simp [symbol?] at h
  known _ h := by cases h

theorem Orderly.add (h : c.Orderly) (hs : s.Orderly c) : (c.add s).2.Orderly := by
  refine .grow (fun id s' hid => .inl ?_) (c.le_add s) rfl
  have hhas : id < (c.add s).2.symbols.size := has_of_symbol? hid
  rw [Compilation.add, Array.size_push] at hhas
  rcases Nat.lt_succ_iff_lt_or_eq.1 hhas with hlt | rfl
  · exact h.symbols id s' ((symbol?_add_of_has s hlt).symm.trans hid)
  · obtain rfl := Option.some.inj ((symbol?_add_size s).symm.trans hid)
    exact hs

theorem Orderly.modifyType {edited : SymbolId} {f : TypeSymbol → TypeSymbol} (h : c.Orderly)
    (hf : ∀ t, (Symbol.type t).Orderly c → (Symbol.type (f t)).Orderly c) :
    (c.modifyType edited f).Orderly := by
  refine .grow (fun id s hs => .inl ?_) (c.le_modifyType edited f) rfl
  rw [symbol?_modifyType, Option.map_eq_some_iff] at hs
  obtain ⟨s', hs', rfl⟩ := hs
  have horderly := h.symbols id s' hs'
  cases s' with
  | type t =>
    dsimp only
    split
    · exact hf t horderly
    · exact horderly
  | _ => exact horderly

theorem Orderly.register (h : c.Orderly) (id : SymbolId) : (c.register id).Orderly :=
  .grow (fun _ s hs => .inl (h.symbols _ s hs)) (le_of_symbols_eq rfl) rfl

theorem Orderly.known_types (h : c.Orderly) : c.known.types = c.resolveKnownTypes := by
  unfold Compilation.known
  cases hk : c.knownCache with
  | none => rfl
  | some k => exact h.known k hk

theorem Orderly.withKnown (h : c.Orderly) : c.withKnown.Orderly where
  symbols id s hs := (h.symbols id s hs).mono c.le_withKnown
  known k hk := by
    obtain rfl := Option.some.inj hk
    exact h.known_types.trans (resolveKnownTypes_congr rfl).symm

/-! ## Extended compilations -/

/-- Symbols have been added and are orderly, and no type has been registered. -/
structure Extends (c c' : Compilation) : Prop where
  symbol? : ∀ id s, c.symbol? id = some s → c'.symbol? id = some s
  registry : c'.registry = c.registry
  orderly : c.Orderly → c'.Orderly

theorem Extends.refl (c : Compilation) : c.Extends c := ⟨fun _ _ h => h, rfl, fun h => h⟩

theorem Extends.trans (h : c.Extends c') (h' : c'.Extends c'') : c.Extends c'' where
  symbol? id s hs := h'.symbol? id s (h.symbol? id s hs)
  registry := h'.registry.trans h.registry
  orderly ho := h'.orderly (h.orderly ho)

theorem Extends.le (h : c.Extends c') : c ≤ c' := fun _ _ hs => .inl (h.symbol? _ _ hs)

theorem extends_add (hs : s.Orderly c) : c.Extends (c.add s).2 where
  symbol? _ _ h := (symbol?_add_of_has s (has_of_symbol? h)).trans h
  registry := rfl
  orderly h := h.add hs

theorem extends_withKnown (c : Compilation) : c.Extends c.withKnown :=
  ⟨fun _ _ h => h, rfl, fun h => h.withKnown⟩

theorem Orderly.constructed (h : c.Orderly) {d : SymbolId} (ht : c.type? d = some t)
    (args : List SymbolId) : (c.withConstructed d t args).Orderly := by
  -- the copy has the members of the definition
  have hmembers : (Symbol.type t).Orderly c := h.symbols d _ (symbol?_of_type? ht)
  have hadd := h.add (s := .type { t with typeArgs := args, genericDefinition := some d }) hmembers
  exact .grow (fun id s hs => .inl (hadd.symbols id s hs)) (le_of_symbols_eq rfl) rfl

theorem extends_construct (c : Compilation) (id : SymbolId) (args : List SymbolId) :
    c.Extends (c.construct id args).2 := by
  rw [construct_eq]
  cases ht : c.type? (c.definition id) with
  | none =>
    simp only [constructAt, ht]
    exact .refl c
  | some t =>
    rcases constructAt_cases ht args with ⟨-, heq⟩ | ⟨-, made, -, heq⟩ | ⟨-, -, heq⟩ <;> rw [heq]
    · exact .refl c
    · exact .refl c
    · exact ⟨fun id s h => (symbol?_add_of_has _ (has_of_symbol? h)).trans h, rfl,
        fun h => h.constructed ht args⟩

theorem extends_arrayOf (c : Compilation) (element : SymbolId) :
    c.Extends (c.arrayOf element).2 := by
  rcases arrayOf_cases c element with ⟨made, -, heq⟩ | ⟨-, heq⟩ <;> rw [heq]
  · exact .refl c
  · refine ⟨fun id s h => (symbol?_add_of_has _ (has_of_symbol? h)).trans h, rfl, fun h => ?_⟩
    have hadd := h.add (s := .type (c.arraySymbol element)) (List.forall_mem_nil _)
    exact .grow (fun id s hs => .inl (hadd.symbols id s hs)) (le_of_symbols_eq rfl) rfl

/-! ## Compilations that grow -/

/-- Symbols have been added and types have been registered.  Of the symbols that were there, only
the given types have changed, and not in their kinds. -/
structure Grows (own : Set SymbolId) (c c' : Compilation) : Prop where
  symbols : ∀ id s, c.symbol? id = some s → c'.symbol? id = some s ∨
    ∃ t t', id ∈ own ∧ s = .type t ∧ c'.symbol? id = some (.type t') ∧ t'.kind = t.kind
  registry : c.registry <+: c'.registry

namespace Grows

variable {own : Set SymbolId}

theorem refl (c : Compilation) : c.Grows own c := ⟨fun _ _ h => .inl h, List.prefix_refl _⟩

theorem trans (h : c.Grows own c') (h' : c'.Grows own c'') : c.Grows own c'' where
  symbols id s hs := by
    rcases h.symbols id s hs with hs' | ⟨t, t', hown, rfl, hs', hkind⟩
    · exact h'.symbols id s hs'
    · rcases h'.symbols id _ hs' with hs'' | ⟨u, t'', -, hu, hs'', hkind'⟩
      · exact .inr ⟨t, t', hown, rfl, hs'', hkind⟩
      · obtain rfl := Symbol.type.inj hu
        exact .inr ⟨t, t'', hown, rfl, hs'', hkind'.trans hkind⟩
  registry := h.registry.trans h'.registry

theorem mono {own' : Set SymbolId} (h : c.Grows own c') (hown : own ⊆ own') : c.Grows own' c' where
  symbols id s hs := (h.symbols id s hs).imp_right fun
    | ⟨t, t', hid, hrest⟩ => ⟨t, t', hown hid, hrest⟩
  registry := h.registry

theorem le (h : c.Grows own c') : c ≤ c' := fun id s hs =>
  (h.symbols id s hs).imp_right fun ⟨t, t', _, ht, hs', _⟩ => ⟨⟨t, ht⟩, t', hs'⟩

/-- A symbol that is none of the given types stays as it is. -/
theorem symbol? (h : c.Grows own c') (hs : c.symbol? id = some s) (hid : id ∉ own) :
    c'.symbol? id = some s :=
  (h.symbols id s hs).resolve_right fun ⟨_, _, hown, _⟩ => hid hown

theorem type? (h : c.Grows own c') (ht : c.type? id = some t) (hid : id ∉ own) :
    c'.type? id = some t := by
  rw [Compilation.type?, h.symbol? (symbol?_of_type? ht) hid]
  rfl

theorem kind (h : c.Grows own c') (ht : c.type? id = some t) :
    ∃ t', c'.type? id = some t' ∧ t'.kind = t.kind := by
  rcases h.symbols id _ (symbol?_of_type? ht) with hs | ⟨u, t', -, hu, hs, hkind⟩
  · exact ⟨t, by rw [Compilation.type?, hs]; rfl, rfl⟩
  · obtain rfl := Symbol.type.inj hu
    exact ⟨t', by rw [Compilation.type?, hs]; rfl, hkind⟩

/-- A type is found by its name as before. -/
theorem typeNamed? {name : String} (h : c.Grows own c') (hid : c.typeNamed? name = some id) :
    c'.typeNamed? name = some id := by
  obtain ⟨more, hmore⟩ := h.registry
  rw [Compilation.typeNamed?] at hid ⊢
  rw [← hmore, List.lookup_append, hid, Option.some_or]

end Grows

theorem Extends.grows {own : Set SymbolId} (h : c.Extends c') : c.Grows own c' :=
  ⟨fun id s hs => .inl (h.symbol? id s hs), by rw [h.registry]⟩

theorem grows_add {own : Set SymbolId} (c : Compilation) (s : Symbol) : c.Grows own (c.add s).2 :=
  ⟨fun _ _ h => .inl ((symbol?_add_of_has s (has_of_symbol? h)).trans h), List.prefix_refl _⟩

theorem grows_modifyType {own : Set SymbolId} {edited : SymbolId} {f : TypeSymbol → TypeSymbol}
    (hedited : edited ∈ own) (hf : ∀ t, (f t).kind = t.kind) :
    c.Grows own (c.modifyType edited f) := by
  refine ⟨fun id s hs => ?_, List.prefix_refl _⟩
  rw [symbol?_modifyType, hs, Option.map_some]
  cases s with
  | type t =>
    dsimp only
    by_cases hid : edited = id
    · rw [if_pos hid]
      exact .inr ⟨t, f t, hid ▸ hedited, rfl, rfl, hf t⟩
    · rw [if_neg hid]
      exact .inl rfl
  | _ => exact .inl rfl

theorem grows_register {own : Set SymbolId} (c : Compilation) (id : SymbolId) :
    c.Grows own (c.register id) := ⟨fun _ _ h => .inl h, List.prefix_append _ _⟩

/-! ## What stays as it is -/

namespace Extends

theorem type? (h : c.Extends c') (ht : c.type? id = some t) : c'.type? id = some t :=
  Option.bind_eq_some_iff.2 ⟨_, h.symbol? id _ (symbol?_of_type? ht), rfl⟩

theorem type?_eq (h : c.Extends c') (hid : c.IsType id) : c'.type? id = c.type? id := by
  obtain ⟨t, ht⟩ := hid
  have ht : c.type? id = some t := by rw [Compilation.type?, ht]; rfl
  rw [ht, h.type? ht]

theorem method? {m : MethodSymbol} (h : c.Extends c') (hm : c.method? id = some m) :
    c'.method? id = some m := by
  obtain ⟨s, hs, hm⟩ := Option.bind_eq_some_iff.1 hm
  exact Option.bind_eq_some_iff.2 ⟨s, h.symbol? id s hs, hm⟩

theorem size_le (h : c.Extends c') : c.symbols.size ≤ c'.symbols.size := size_le_of_le h.le

theorem definition_eq (h : c.Extends c') (hid : c.IsType id) :
    c'.definition id = c.definition id := by
  rw [definition, definition, h.type?_eq hid]

theorem typeArgs_eq (h : c.Extends c') (hid : c.IsType id) : c'.typeArgs id = c.typeArgs id := by
  rw [typeArgs, typeArgs, h.type?_eq hid]

theorem isTypeParam_eq (h : c.Extends c') (hid : c.IsType id) :
    c'.isTypeParam id = c.isTypeParam id := by
  rw [isTypeParam, isTypeParam, h.type?_eq hid]

theorem matches_of {R R' : SymbolId → SymbolId → Prop} (h : c.Extends c') (hc : c.Valid)
    (hR : ∀ x y, R x y → R' x y) (hmatches : c.Matches R a b) : c'.Matches R' a b := by
  cases hmatches with
  | @param s t hs ht ks kt same =>
    have howner {u : TypeSymbol} {id : SymbolId} (hu : c.type? id = some u) :
        u.containingType.map c'.definition = u.containingType.map c.definition := by
      cases hcontaining : u.containingType with
      | none => rfl
      | some owner =>
        rw [Option.map_some, Option.map_some, h.definition_eq]
        exact (hc.sound hu).containing owner hcontaining
    obtain ⟨hordinal, hname, hcontaining⟩ := sameTypeParam_iff.1 same
    refine .param (h.type? hs) (h.type? ht) ks kt (sameTypeParam_iff.2 ⟨hordinal, hname, ?_⟩)
    rw [howner hs, howner ht, hcontaining]
  | array hs ht ks kt hx hy parts =>
    exact .array (h.type? hs) (h.type? ht) ks kt hx hy (hR _ _ parts)
  | nominal hs ht ks kt same parts =>
    have ha := isType_of_type? hs
    have hb := isType_of_type? ht
    refine .nominal (h.type? hs) (h.type? ht) ks kt ?_ ?_
    · rw [h.definition_eq ha, h.definition_eq hb, same]
    · rw [h.typeArgs_eq ha, h.typeArgs_eq hb]
      exact parts.imp fun x y => hR x y

theorem typesEqual? (h : c.Extends c') (hc : c.Valid) {fuel : Nat}
    (hequal : c.typesEqual? fuel a b = some true) : c'.typesEqual? fuel a b = some true := by
  induction fuel generalizing a b with
  | zero => cases hequal
  | succ fuel ih =>
    rw [typesEqual?_succ_iff] at hequal ⊢
    exact hequal.imp_right (h.matches_of hc fun _ _ => ih)

/-- Equal types stay equal. -/
theorem typesEqual (h : c.Extends c') (hc : c.Valid) (hequal : c.typesEqual a b = true) :
    c'.typesEqual a b = true := by
  rw [typesEqual_iff] at hequal ⊢
  exact typesEqual?_mono (h.typesEqual? hc hequal) (Nat.succ_le_succ h.size_le)

theorem known_types_eq (h : c.Extends c') (ho : c.Orderly) : c'.known.types = c.known.types := by
  rw [(h.orderly ho).known_types, ho.known_types, resolveKnownTypes_congr h.registry]

theorem isKnown_eq (h : c.Extends c') (ho : c.Orderly) (hid : c.IsType id) (tag : KnownType) :
    c'.isKnown id tag = c.isKnown id tag := by
  unfold isKnown classify
  rw [h.definition_eq hid, h.known_types_eq ho]

theorem nullableUnderlying?_eq (h : c.Extends c') (ho : c.Orderly) (hid : c.IsType id) :
    c'.nullableUnderlying? id = c.nullableUnderlying? id := by
  unfold nullableUnderlying?
  rw [h.isKnown_eq ho hid, h.type?_eq hid]

theorem mem_baseTypes (h : c.Extends c') (hb : b ∈ c.baseTypes a) : b ∈ c'.baseTypes a := by
  have hparents {x y : SymbolId} (hy : y ∈ c.parents x) : y ∈ c'.parents x := by
    unfold parents at hy ⊢
    cases hx : c.type? x with
    | none => simp [hx] at hy
    | some t => rwa [h.type? hx, ← hx]
  rw [mem_baseTypes_iff] at hb ⊢
  exact ⟨hb.1.lift (fun x => x) fun _ _ => hparents, hb.2⟩

/-- What is assignable stays assignable. -/
theorem isAssignableTo {source target : SymbolId} (h : c.Extends c') (hc : c.Valid) (ho : c.Orderly)
    (hsource : c.IsType source) (htarget : c.IsType target)
    (hassignable : c.isAssignableTo source target = true) :
    c'.isAssignableTo source target = true := by
  unfold Compilation.isAssignableTo at hassignable ⊢
  rw [h.isKnown_eq ho hsource, h.isKnown_eq ho htarget, h.nullableUnderlying?_eq ho htarget]
  by_cases hequal : c.typesEqual source target = true
  · rw [if_pos (h.typesEqual hc hequal)]
  by_cases hequal' : c'.typesEqual source target = true
  · rw [if_pos hequal']
  rw [if_neg hequal] at hassignable
  rw [if_neg hequal']
  split
  next hvoid => rwa [if_pos hvoid] at hassignable
  next hvoid =>
    rw [if_neg hvoid] at hassignable
    split
    next => rfl
    next hobject =>
      rw [if_neg hobject] at hassignable
      cases hnullable : c.nullableUnderlying? target with
      | some underlying =>
        rw [hnullable] at hassignable
        exact h.typesEqual hc hassignable
      | none =>
        rw [hnullable] at hassignable
        obtain ⟨base, hbase, hsame⟩ := List.any_eq_true.1 hassignable
        exact List.any_eq_true.2 ⟨base, h.mem_baseTypes hbase, h.typesEqual hc hsame⟩

end Extends

end Compilation

end PropertyLint
