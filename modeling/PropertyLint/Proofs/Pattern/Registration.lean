/-
# Chains of registrations

The registration of a member is looked for along a chain of members, which must not come back to
one of its members.  Here the chain is a relation, `RegisteredAs`, that knows nothing of the members
that were visited: a member that comes back to itself has no registration by it, since it can be
taken apart only finitely often (`RegisteredAs.acyclic`).  What is found along a chain is exactly
what the relation says (`registrationOf?_eq_some_iff`), and the bound on the length of a chain never
ends the search (`registrationWithin?_eq`).
-/
import Mathlib.Logic.Relation
import PropertyLint.Proofs.Check.Places
import PropertyLint.Proofs.Fix.Stale

namespace PropertyLint

open Relation

/-! ## What a call says -/

/-- A call that is written as a registration, together with the framework method it is bound to and
the kind of registration that this method makes. -/
structure FrameworkCall extends RegistrationCall where
  method : SymbolId
  kind : RegistrationKind

namespace FrameworkCall

/-- The registration of a property that the call describes in full. -/
def registration (c : FrameworkCall) (m : Model) : Registration :=
  let arg := m.comp.argumentFor? c.method c.args
  let name := (arg "name").bind fun a => m.constantText? a.value
  { kind := c.kind
    call := c.call
    name
    dynamicName := (arg "name").isSome && name.isNone
    type := (arg "propertyType").bind fun a => m.typeOfArgument? a.value
    owner := (arg "ownerType").bind fun a => m.typeOfArgument? a.value
    ownerArg := arg "ownerType"
    defaultValue := (arg "typeMetadata" <|> arg "defaultMetadata").bind fun a =>
      m.defaultValueOf? a.value }

/-- The registration of a property that is registered already and gets another owner: its name and
its type are known, all else is what the call says. -/
def addedTo (c : FrameworkCall) (m : Model) (r : Registration) : Registration :=
  { c.registration m with name := r.name, dynamicName := r.dynamicName, type := r.type }

/-- The member that the call is made on. -/
def source? (c : FrameworkCall) (m : Model) : Option SymbolId :=
  m.symbol? c.target.unparenthesized.id

end FrameworkCall

namespace Expr

@[simp] theorem unparenthesized_unparenthesized (e : Expr) :
    e.unparenthesized.unparenthesized = e.unparenthesized := by
  fun_induction unparenthesized e with
  | case1 _ inner ih => exact ih
  | case2 e hparen => exact unparenthesized.eq_2 e hparen

theorem registrationCall?_eq_some_iff {e : Expr} {shape : RegistrationCall} :
    e.registrationCall? = some shape ↔ shape.call = e.unparenthesized ∧
      ∃ i j name, shape.call = .invoke i (.member j shape.target name) shape.args ∧
        name.text ∈ registrationNames := by
  unfold registrationCall?
  constructor
  · intro h
    split at h
    · rename_i i j target name args heq
      obtain ⟨hname, h⟩ := Option.ite_none_right_eq_some.1 h
      obtain rfl := Option.some.inj h
      exact ⟨heq.symm, i, j, name, rfl, List.contains_iff_mem.1 hname⟩
    · simp at h
  · rintro ⟨hcall, i, j, name, hwritten, hname⟩
    rw [← hcall, hwritten]
    simp [hname, ← hwritten]

end Expr

namespace Model

/-- The member is declared in the model's file and starts, inside of parentheses, with a call that
is written `target.Register(args)` and is bound to a framework method that registers. -/
structure StartsWith (m : Model) (s : SymbolId) (c : FrameworkCall) : Prop where
  value : m.startValueOf? s = some c.call
  written : ∃ i j name, c.call = .invoke i (.member j c.target name) c.args ∧
    name.text ∈ registrationNames
  method : m.symbol? c.call.id = some c.method
  known : (m.comp.knownMember? c.method).bind RegistrationKind.ofMember? = some c.kind

/-- The member starts with a framework call of `AddOwner` on another member. -/
def AddsOwner (m : Model) (s t : SymbolId) : Prop :=
  ∃ c, m.StartsWith s c ∧ c.kind = .addOwner ∧ c.source? m = some t

/-- The member is declared in the model's file and starts, inside of parentheses, with
`k.DependencyProperty` for a key. -/
def ReadsKey (m : Model) (s k : SymbolId) : Prop :=
  ∃ i target name, m.startValueOf? s = some (.member i target name) ∧
    m.knownMember? (.member i target name) = some .keyDependencyProperty ∧
    m.symbol? target.unparenthesized.id = some k

/-- The registrations that can be read off the members of a file: a member is registered by the
call that it starts with, by what it adds an owner to, or, if keys may be followed, by the key that
it reads. -/
inductive RegisteredAs (m : Model) : Bool → SymbolId → Registration → Prop
  | call {followKey s c} (hs : m.StartsWith s c) (hc : c.kind ≠ .addOwner) :
    RegisteredAs m followKey s (c.registration m)
  | addOwner {followKey s c t r} (hs : m.StartsWith s c) (hc : c.kind = .addOwner)
    (ht : c.source? m = some t) (h : RegisteredAs m true t r) :
    RegisteredAs m followKey s (c.addedTo m r)
  | key {s k r} (hk : m.ReadsKey s k) (h : RegisteredAs m false k r) : RegisteredAs m true s r

variable {m : Model} {s t k : SymbolId} {c : FrameworkCall} {r : Registration} {e : Expr}
  {visited : List SymbolId} {followKey : Bool}

/-! ## One step of a chain -/

/-- The framework call that an expression is. -/
def frameworkCall? (m : Model) (e : Expr) : Option FrameworkCall := do
  let shape ← e.registrationCall?
  let method ← m.symbol? shape.call.id
  let kind ← RegistrationKind.ofMember? (← m.comp.knownMember? method)
  return { shape with method, kind }

theorem registrationBy?_eq (m : Model) (sourceOf : SymbolId → Option Registration) (e : Expr) :
    m.registrationBy? sourceOf e = (m.frameworkCall? e).bind fun c =>
      if c.kind = .addOwner then ((c.source? m).bind sourceOf).map (c.addedTo m)
      else some (c.registration m) := by
  unfold registrationBy? frameworkCall?
  simp only [Option.bind_eq_bind, Option.bind_assoc]
  refine Option.bind_congr fun shape _ => Option.bind_congr fun method _ =>
    Option.bind_congr fun known _ => Option.bind_congr fun kind _ => ?_
  simp only [Option.pure_def, Option.bind_some]
  split
  · rename_i hkind
    subst hkind
    rw [Option.map_bind]
    exact Option.bind_congr fun t _ => Option.map_eq_bind.symm
  · rfl

theorem unparenthesized_of_startValueOf? (h : m.startValueOf? s = some e) :
    e.unparenthesized = e := by
  obtain ⟨found, -, h⟩ := Option.bind_eq_some_iff.1 h
  dsimp only at h
  split at h
  · simp at h
  · obtain ⟨value, -, h⟩ := Option.bind_eq_some_iff.1 h
    obtain rfl := Option.some.inj h
    exact Expr.unparenthesized_unparenthesized value

theorem startsWith_iff :
    m.StartsWith s c ↔ ∃ e, m.startValueOf? s = some e ∧ m.frameworkCall? e = some c := by
  constructor
  · rintro ⟨hvalue, hwritten, hmethod, hknown⟩
    obtain ⟨known, hknown, hkind⟩ := Option.bind_eq_some_iff.1 hknown
    have hcall : c.call.registrationCall? = some c.toRegistrationCall :=
      Expr.registrationCall?_eq_some_iff.2
        ⟨(unparenthesized_of_startValueOf? hvalue).symm, hwritten⟩
    exact ⟨c.call, hvalue, by simp [frameworkCall?, hcall, hmethod, hknown, hkind]⟩
  · rintro ⟨e, hvalue, hcall⟩
    simp only [frameworkCall?, Option.bind_eq_bind, Option.bind_eq_some_iff, Option.pure_def,
      Option.some.injEq] at hcall
    obtain ⟨shape, hshape, method, hmethod, known, hknown, kind, hkind, rfl⟩ := hcall
    obtain ⟨hcall, hwritten⟩ := Expr.registrationCall?_eq_some_iff.1 hshape
    rw [unparenthesized_of_startValueOf? hvalue] at hcall
    exact ⟨hcall ▸ hvalue, hwritten, hmethod, Option.bind_eq_some_iff.2 ⟨known, hknown, hkind⟩⟩

theorem StartsWith.unique {c' : FrameworkCall} (h : m.StartsWith s c) (h' : m.StartsWith s c') :
    c = c' := by
  obtain ⟨e, he, hc⟩ := startsWith_iff.1 h
  obtain ⟨e', he', hc'⟩ := startsWith_iff.1 h'
  obtain rfl := Option.some.inj (he.symm.trans he')
  exact Option.some.inj (hc.symm.trans hc')

theorem StartsWith.not_readsKey (h : m.StartsWith s c) : ¬ m.ReadsKey s k := by
  rintro ⟨i, target, name, hvalue, -⟩
  obtain ⟨j, l, called, hwritten, -⟩ := h.written
  rw [h.value, hwritten] at hvalue
  simp at hvalue

/-- One step of a chain of members. -/
def Leads (m : Model) (s t : SymbolId) : Prop := m.AddsOwner s t ∨ m.ReadsKey s t

theorem Leads.unique {t' : SymbolId} (h : m.Leads s t) (h' : m.Leads s t') : t = t' := by
  rcases h with ⟨c, hs, -, ht⟩ | hkey <;> rcases h' with ⟨c', hs', -, ht'⟩ | hkey'
  · obtain rfl := hs.unique hs'
    exact Option.some.inj (ht.symm.trans ht')
  · exact absurd hkey' hs.not_readsKey
  · exact absurd hkey hs'.not_readsKey
  · obtain ⟨i, target, name, hvalue, -, ht⟩ := hkey
    obtain ⟨i', target', name', hvalue', -, ht'⟩ := hkey'
    obtain ⟨-, rfl, -⟩ := Expr.member.inj (Option.some.inj (hvalue.symm.trans hvalue'))
    exact Option.some.inj (ht.symm.trans ht')

/-- A chain that comes to a registration never comes back to one of its members: from there it
would go around forever. -/
theorem RegisteredAs.acyclic (h : m.RegisteredAs followKey s r) :
    ∀ {t}, ReflTransGen m.Leads s t → ¬ TransGen m.Leads t t := by
  -- the only way on leads to the next member, of which the claim is known
  have around {s next : SymbolId} (hstep : m.Leads s next)
      (ih : ∀ {t}, ReflTransGen m.Leads next t → ¬ TransGen m.Leads t t) {t : SymbolId}
      (hst : ReflTransGen m.Leads s t) : ¬ TransGen m.Leads t t := by
    have hnext {u : SymbolId} (hsu : TransGen m.Leads s u) : ReflTransGen m.Leads next u := by
      obtain ⟨v, hsv, hvu⟩ := TransGen.head'_iff.1 hsu
      rwa [hstep.unique hsv]
    intro htt
    rcases reflTransGen_iff_eq_or_transGen.1 hst with rfl | hst
    · exact ih .refl (TransGen.tail' (hnext htt) hstep)
    · exact ih (hnext hst) htt
  induction h with
  | @call _ s c hs hc =>
    have hend (u : SymbolId) : ¬ m.Leads s u := by
      rintro (⟨c', hs', hc', -⟩ | hkey)
      · exact hc (hs.unique hs' ▸ hc')
      · exact hs.not_readsKey hkey
    intro t hst htt
    obtain rfl | ⟨u, hsu, -⟩ := ReflTransGen.cases_head hst
    · obtain ⟨u, hsu, -⟩ := TransGen.head'_iff.1 htt
      exact hend u hsu
    · exact hend u hsu
  | addOwner hs hc ht _ ih => exact fun hst => around (.inl ⟨_, hs, hc, ht⟩) ih hst
  | key hk _ ih => exact fun hst => around (.inr hk) ih hst

/-! ## The search along a chain -/

theorem lt_size_of_startValueOf? (h : m.startValueOf? s = some e) : s < m.comp.symbols.size := by
  obtain ⟨found, hfound, -⟩ := Option.bind_eq_some_iff.1 h
  obtain ⟨place, hplace, -⟩ := Option.bind_eq_some_iff.1 hfound
  obtain ⟨symbol, hsymbol, -⟩ := Option.bind_eq_some_iff.1 hplace
  exact (Array.getElem?_eq_some_iff.1 hsymbol).1

/-- The number of symbols that can still be visited. -/
def unvisited (m : Model) (visited : List SymbolId) : Nat :=
  ((List.range m.comp.symbols.size).filter fun s => s ∉ visited).length

theorem unvisited_cons_lt (hs : s ∉ visited) (hvalue : m.startValueOf? s = some e) :
    m.unvisited (s :: visited) < m.unvisited visited := by
  have hrange : s ∈ List.range m.comp.symbols.size :=
    List.mem_range.2 (lt_size_of_startValueOf? hvalue)
  have hcons : (List.range m.comp.symbols.size).filter (fun t => t ∉ s :: visited) =
      ((List.range m.comp.symbols.size).filter fun t => t ∉ visited).filter fun t => t ≠ s := by
    rw [List.filter_filter]
    exact List.filter_congr fun t _ => by simp [not_or]
  rw [unvisited, hcons]
  exact List.length_filter_lt_length_iff_exists.2
    ⟨s, List.mem_filter.2 ⟨hrange, by simpa using hs⟩, by simp⟩

/-- The registration of a member, found along a chain of members of any length: no bound, but each
member adds to those that are visited. -/
def registrationFrom? (m : Model) (visited : List SymbolId) (followKey : Bool)
    (symbol : SymbolId) : Option Registration :=
  if _ : symbol ∈ visited then none
  else
    match _ : m.startValueOf? symbol with
    | none => none
    | some value =>
      match m.registrationBy? (fun s => m.registrationFrom? (symbol :: visited) true s) value with
      | some registration => some registration
      | none =>
        if followKey then
          (m.keyOf? value).bind fun s => m.registrationFrom? (symbol :: visited) false s
        else none
termination_by m.unvisited visited
decreasing_by all_goals exact unvisited_cons_lt ‹_› ‹_›

theorem registrationFrom?_of_mem (hold : s ∈ visited) :
    m.registrationFrom? visited followKey s = none := by
  rw [registrationFrom?, dif_pos hold]

theorem registrationFrom?_of_startValueOf? (hnew : s ∉ visited)
    (hvalue : m.startValueOf? s = some e) :
    m.registrationFrom? visited followKey s =
      (m.registrationBy? (m.registrationFrom? (s :: visited) true) e).or
        (if followKey then (m.keyOf? e).bind (m.registrationFrom? (s :: visited) false)
          else none) := by
  rw [registrationFrom?, dif_neg hnew]
  split
  · rename_i hnone
    simp [hvalue] at hnone
  · rename_i value hsome
    obtain rfl := Option.some.inj (hvalue.symm.trans hsome)
    split
    · rename_i registration hby
      rw [hby, Option.some_or]
    · rename_i hby
      rw [hby, Option.none_or]

theorem registrationFrom?_of_startValueOf?_eq_none (hvalue : m.startValueOf? s = none) :
    m.registrationFrom? visited followKey s = none := by
  rw [registrationFrom?]
  split
  · rfl
  · split
    · rfl
    · rename_i hsome
      simp [hvalue] at hsome

/-- A bound that leaves a step for every symbol does not end the search. -/
theorem registrationWithin?_eq {bound : Nat} (h : m.unvisited visited < bound) :
    m.registrationWithin? bound visited followKey s = m.registrationFrom? visited followKey s := by
  induction bound generalizing visited followKey s with
  | zero => simp at h
  | succ bound ih =>
    rw [registrationWithin?]
    by_cases hnew : s ∈ visited
    · rw [registrationFrom?_of_mem hnew, if_pos (List.contains_iff_mem.2 hnew)]
    rw [if_neg (mt List.contains_iff_mem.1 hnew)]
    cases hvalue : m.startValueOf? s with
    | none => rw [registrationFrom?_of_startValueOf?_eq_none hvalue]; rfl
    | some value =>
      have hless : m.unvisited (s :: visited) < bound := by
        have := unvisited_cons_lt hnew hvalue
        omega
      have hrest (followKey : Bool) : m.registrationWithin? bound (s :: visited) followKey =
          m.registrationFrom? (s :: visited) followKey := funext fun _ => ih hless
      rw [registrationFrom?_of_startValueOf? hnew hvalue, ← hrest true, ← hrest false]
      dsimp only [Option.bind_eq_bind, Option.bind_some]
      cases m.registrationBy? (m.registrationWithin? bound (s :: visited) true) value <;> rfl

theorem registrationOf?_eq (m : Model) (s : SymbolId) :
    m.registrationOf? s = m.registrationFrom? [] true s :=
  registrationWithin?_eq <| Nat.lt_succ_of_le <|
    le_of_le_of_eq (List.length_filter_le _ _) List.length_range

theorem keyOf?_eq_some_iff : m.keyOf? e = some k ↔ ∃ i target name, e = .member i target name ∧
    m.knownMember? (.member i target name) = some .keyDependencyProperty ∧
    m.symbol? target.unparenthesized.id = some k := by
  cases e <;> simp [keyOf?]

theorem registrationFrom?_of_startsWith (hnew : s ∉ visited) (hs : m.StartsWith s c) :
    m.registrationFrom? visited followKey s =
      if c.kind = .addOwner then
        ((c.source? m).bind (m.registrationFrom? (s :: visited) true)).map (c.addedTo m)
      else some (c.registration m) := by
  obtain ⟨value, hvalue, hcall⟩ := startsWith_iff.1 hs
  obtain ⟨i, j, name, hwritten, -⟩ := hs.written
  obtain rfl := Option.some.inj (hvalue.symm.trans hs.value)
  -- a call is no key
  have hkey : m.keyOf? c.call = none := by rw [hwritten]; rfl
  rw [registrationFrom?_of_startValueOf? hnew hvalue, registrationBy?_eq, hcall, hkey,
    Option.bind_some, Option.bind_none, ite_self, Option.or_none]

theorem registrationFrom?_of_readsKey (hnew : s ∉ visited) (hk : m.ReadsKey s k) :
    m.registrationFrom? visited followKey s =
      if followKey then m.registrationFrom? (s :: visited) false k else none := by
  obtain ⟨i, target, name, hvalue, hknown, hsymbol⟩ := hk
  have hcall : m.frameworkCall? (.member i target name) = none := rfl
  have hkey : m.keyOf? (.member i target name) = some k :=
    keyOf?_eq_some_iff.2 ⟨i, target, name, rfl, hknown, hsymbol⟩
  rw [registrationFrom?_of_startValueOf? hnew hvalue, registrationBy?_eq, hcall, hkey,
    Option.bind_none, Option.none_or, Option.bind_some]

theorem registrationFrom?_of_neither (hs : ∀ c, ¬ m.StartsWith s c)
    (hk : ∀ k, ¬ m.ReadsKey s k) : m.registrationFrom? visited followKey s = none := by
  by_cases hnew : s ∈ visited
  · exact registrationFrom?_of_mem hnew
  cases hvalue : m.startValueOf? s with
  | none => exact registrationFrom?_of_startValueOf?_eq_none hvalue
  | some value =>
    have hcall : m.frameworkCall? value = none :=
      Option.eq_none_iff_forall_ne_some.2 fun c hc => hs c (startsWith_iff.2 ⟨value, hvalue, hc⟩)
    have hkey : m.keyOf? value = none := by
      refine Option.eq_none_iff_forall_ne_some.2 fun k hkey => ?_
      obtain ⟨i, target, name, rfl, hread⟩ := keyOf?_eq_some_iff.1 hkey
      exact hk k ⟨i, target, name, hvalue, hread⟩
    rw [registrationFrom?_of_startValueOf? hnew hvalue, registrationBy?_eq, hcall, hkey,
      Option.bind_none, Option.bind_none, ite_self, Option.or_none]

/-- What the search finds at a member: what the member's own call says, what is found at the member
that it adds an owner to, or what is found at its key. -/
theorem registrationFrom?_eq_some_iff :
    m.registrationFrom? visited followKey s = some r ↔ s ∉ visited ∧
      ((∃ c, m.StartsWith s c ∧ c.kind ≠ .addOwner ∧ r = c.registration m) ∨
        (∃ c t source, m.StartsWith s c ∧ c.kind = .addOwner ∧ c.source? m = some t ∧
          m.registrationFrom? (s :: visited) true t = some source ∧ r = c.addedTo m source) ∨
        (followKey = true ∧ ∃ k, m.ReadsKey s k ∧
          m.registrationFrom? (s :: visited) false k = some r)) := by
  constructor
  · intro h
    have hnew : s ∉ visited := fun hold => by simp [registrationFrom?_of_mem hold] at h
    refine ⟨hnew, ?_⟩
    by_cases hs : ∃ c, m.StartsWith s c
    · obtain ⟨c, hs⟩ := hs
      rw [registrationFrom?_of_startsWith hnew hs] at h
      split at h
      · rename_i hc
        obtain ⟨source, hsource, rfl⟩ := Option.map_eq_some_iff.1 h
        obtain ⟨t, ht, hsource⟩ := Option.bind_eq_some_iff.1 hsource
        exact .inr (.inl ⟨c, t, source, hs, hc, ht, hsource, rfl⟩)
      · rename_i hc
        exact .inl ⟨c, hs, hc, (Option.some.inj h).symm⟩
    · by_cases hk : ∃ k, m.ReadsKey s k
      · obtain ⟨k, hk⟩ := hk
        rw [registrationFrom?_of_readsKey hnew hk] at h
        obtain ⟨hfollow, h⟩ := Option.ite_none_right_eq_some.1 h
        exact .inr (.inr ⟨hfollow, k, hk, h⟩)
      · rw [registrationFrom?_of_neither (not_exists.1 hs) (not_exists.1 hk)] at h
        simp at h
  · rintro ⟨hnew, ⟨c, hs, hc, rfl⟩ | ⟨c, t, source, hs, hc, ht, hsource, rfl⟩ | ⟨hf, k, hk, h⟩⟩
    · rw [registrationFrom?_of_startsWith hnew hs, if_neg hc]
    · rw [registrationFrom?_of_startsWith hnew hs, if_pos hc, ht, Option.bind_some, hsource,
        Option.map_some]
    · rw [registrationFrom?_of_readsKey hnew hk, if_pos hf, h]

theorem registeredAs_of_registrationFrom? (h : m.registrationFrom? visited followKey s = some r) :
    m.RegisteredAs followKey s r := by
  induction hn : m.unvisited visited using Nat.strongRecOn
    generalizing visited followKey s r with
  | ind n ih =>
    subst hn
    obtain ⟨hnew, h⟩ := registrationFrom?_eq_some_iff.1 h
    obtain ⟨c, hs, hc, rfl⟩ | ⟨c, t, source, hs, hc, ht, hrest, rfl⟩ | ⟨rfl, k, hk, hrest⟩ := h
    · exact .call hs hc
    · exact .addOwner hs hc ht (ih _ (unvisited_cons_lt hnew hs.value) hrest rfl)
    · obtain ⟨i, target, name, hvalue, -⟩ := id hk
      exact .key hk (ih _ (unvisited_cons_lt hnew hvalue) hrest rfl)

/-- The members that were visited do not matter: the chain from the member does not come to them. -/
theorem RegisteredAs.registrationFrom? (h : m.RegisteredAs followKey s r)
    (hvisited : ∀ v ∈ visited, ¬ ReflTransGen m.Leads s v) :
    m.registrationFrom? visited followKey s = some r := by
  have hnew {s : SymbolId} {visited : List SymbolId}
      (hvisited : ∀ v ∈ visited, ¬ ReflTransGen m.Leads s v) : s ∉ visited :=
    fun hs => hvisited s hs .refl
  have hnext {followKey : Bool} {s next : SymbolId} {visited : List SymbolId} {r : Registration}
      (h : m.RegisteredAs followKey s r) (hstep : m.Leads s next)
      (hvisited : ∀ v ∈ visited, ¬ ReflTransGen m.Leads s v) :
      ∀ v ∈ s :: visited, ¬ ReflTransGen m.Leads next v := by
    rintro v (_ | ⟨_, hv⟩) hnextv
    · exact h.acyclic .refl (TransGen.head' hstep hnextv)
    · exact hvisited v hv (.head hstep hnextv)
  induction h generalizing visited with
  | call hs hc => exact registrationFrom?_eq_some_iff.2 ⟨hnew hvisited, .inl ⟨_, hs, hc, rfl⟩⟩
  | addOwner hs hc ht h ih =>
    have hall : m.RegisteredAs true _ _ := .addOwner hs hc ht h
    have hrest := ih (hnext hall (.inl ⟨_, hs, hc, ht⟩) hvisited)
    exact registrationFrom?_eq_some_iff.2
      ⟨hnew hvisited, .inr (.inl ⟨_, _, _, hs, hc, ht, hrest, rfl⟩)⟩
  | key hk h ih =>
    have hrest := ih (hnext (.key hk h) (.inr hk) hvisited)
    exact registrationFrom?_eq_some_iff.2 ⟨hnew hvisited, .inr (.inr ⟨rfl, _, hk, hrest⟩)⟩

/-- The registration of a member is what can be read off the members. -/
theorem registrationOf?_eq_some_iff :
    m.registrationOf? s = some r ↔ m.RegisteredAs true s r := by
  rw [registrationOf?_eq]
  exact ⟨registeredAs_of_registrationFrom?, fun h => h.registrationFrom? (by simp)⟩

/-! ## Chains of owners -/

/-- The last member of a chain: it starts with a call that registers, or with a key that starts with
such a call. -/
def EndsIn (m : Model) (s : SymbolId) (c : FrameworkCall) : Prop :=
  c.kind ≠ .addOwner ∧ (m.StartsWith s c ∨ ∃ k, m.ReadsKey s k ∧ m.StartsWith k c)

theorem EndsIn.registeredAs (h : m.EndsIn s c) : m.RegisteredAs true s (c.registration m) := by
  obtain ⟨hc, hs | ⟨k, hk, hs⟩⟩ := h
  · exact .call hs hc
  · exact .key hk (.call hs hc)

theorem AddsOwner.exists_registeredAs (h : m.AddsOwner s t) (hs : m.RegisteredAs true s r) :
    ∃ source, m.RegisteredAs true t source := by
  obtain ⟨c, hstart, hc, ht⟩ := h
  cases hs with
  | call hstart' hc' => exact absurd (hstart'.unique hstart ▸ hc) hc'
  | addOwner hstart' _ ht' hsource =>
    obtain rfl := hstart'.unique hstart
    obtain rfl := Option.some.inj (ht.symm.trans ht')
    exact ⟨_, hsource⟩
  | key hk _ => exact absurd hk hstart.not_readsKey

/-- All members of a chain of owners have a registration if one of them has. -/
theorem exists_registeredAs_iff (h : ReflTransGen m.AddsOwner s t) :
    (∃ r, m.RegisteredAs true s r) ↔ ∃ r, m.RegisteredAs true t r := by
  induction h using ReflTransGen.head_induction_on with
  | refl => rfl
  | head hstep _ ih =>
    rw [← ih]
    constructor
    · rintro ⟨r, hr⟩
      exact hstep.exists_registeredAs hr
    · rintro ⟨r, hr⟩
      obtain ⟨c, hs, hc, ht⟩ := hstep
      exact ⟨_, .addOwner hs hc ht hr⟩

/-- What a chain of owners says of the property, its name and its type, is what is said at its
end. -/
theorem RegisteredAs.of_addsOwner (h : ReflTransGen m.AddsOwner s t)
    (ht : m.RegisteredAs true t r) : ∃ r', m.RegisteredAs true s r' ∧
      r'.name = r.name ∧ r'.dynamicName = r.dynamicName ∧ r'.type = r.type := by
  induction h using ReflTransGen.head_induction_on with
  | refl => exact ⟨r, ht, rfl, rfl, rfl⟩
  | head hstep _ ih =>
    obtain ⟨c, hs, hc, hsource⟩ := hstep
    obtain ⟨r', hr', hsame⟩ := ih
    exact ⟨c.addedTo m r', .addOwner hs hc hsource hr', hsame⟩

/-- **Registration chains.**  The search for the registration of a member ends by itself.  If the
members of a chain add owners to each other and the last one is registered by a call or by a key,
then the name and the type of the property are those of this call, and all else is what the call of
the first member says.  There is no registration if the chain comes back to one of its members or
comes to a member that none can be read off. -/
theorem registrationOf?_chain (m : Model) :
    (∀ s, m.registrationOf? s = m.registrationFrom? [] true s) ∧
    (∀ s c, m.EndsIn s c → m.registrationOf? s = some (c.registration m)) ∧
    (∀ s t last first c, m.StartsWith s first → first.kind = .addOwner →
      first.source? m = some t → ReflTransGen m.AddsOwner t last → m.EndsIn last c →
      m.registrationOf? s = some (first.addedTo m (c.registration m))) ∧
    ∀ s t, ReflTransGen m.AddsOwner s t →
      (TransGen m.AddsOwner t t ∨ ∀ r, ¬ m.RegisteredAs true t r) → m.registrationOf? s = none := by
  refine ⟨registrationOf?_eq m, fun s c hend => registrationOf?_eq_some_iff.2 hend.registeredAs,
    fun s t last first c hs hc ht hchain hend => ?_, fun s t hchain hmissing => ?_⟩
  · obtain ⟨r, hr, hname, hdynamic, htype⟩ := RegisteredAs.of_addsOwner hchain hend.registeredAs
    rw [registrationOf?_eq_some_iff.2 (.addOwner hs hc ht hr), FrameworkCall.addedTo, hname,
      hdynamic, htype, ← FrameworkCall.addedTo]
  · refine Option.eq_none_iff_forall_ne_some.2 fun r hr => ?_
    have hs := registrationOf?_eq_some_iff.1 hr
    rcases hmissing with hback | hmissing
    · have hleads (a b : SymbolId) (h : m.AddsOwner a b) : m.Leads a b := .inl h
      exact hs.acyclic (ReflTransGen.mono hleads _ _ hchain) (TransGen.mono hleads _ _ hback)
    · obtain ⟨r, hr⟩ := (exists_registeredAs_iff hchain).1 ⟨r, hs⟩
      exact hmissing r hr

end Model

/-! ## Two chains in a file -/

/-- The pieces of a text are read one after the other. -/
theorem SyntaxTree.parse_join (file : FileId) (pieces : List String) :
    SyntaxTree.parse file (String.join pieces) = (do
      let cs := pieces.flatMap String.toList
      let tokens ← tokensFrom cs 0 none
      let root ← (Grammar.compilationUnit.outcome ⟨tokens, 0, 0, byteLength cs⟩).1
      return ⟨file, String.join pieces, root⟩) := by
  rw [SyntaxTree.parse, tokenize, String.toList_join]

/-- Two chains of owners: one that ends in a key, and one that comes back at once. -/
def chainedOwners : List String :=
  ["namespace System.Windows\x7b", "class DependencyPropertyKey\x7b",
    "DependencyProperty DependencyProperty\x7bget;\x7d\x7d", "class DependencyProperty\x7b",
    "static DependencyPropertyKey ", "RegisterReadOnly(string name);",
    "DependencyProperty AddOwner();",
    "static DependencyProperty A=", "(C.AddOwner());",
    "static DependencyProperty C=", "Q.DependencyProperty;",
    "static DependencyPropertyKey Q=", "DependencyProperty.RegisterReadOnly(\"P\");",
    "static DependencyProperty X=", "X.AddOwner();\x7d\x7d"]

/-- What a member starts with: a call that registers, with the member that it is made on and the
name that it gives, or a key. -/
structure Start where
  kind : Option RegistrationKind
  source : Option SymbolId
  name : Option String
  key : Option SymbolId
deriving DecidableEq

namespace Model

variable {m : Model} {s k : SymbolId} {kind : RegistrationKind} {source : Option SymbolId}
  {name : Option String} {key : Option SymbolId}

/-- What a member starts with. -/
def start (m : Model) (s : SymbolId) : Start :=
  let call := (m.startValueOf? s).bind m.frameworkCall?
  { kind := call.map FrameworkCall.kind
    source := call.bind fun c => c.source? m
    name := call.bind fun c => (c.registration m).name
    key := (m.startValueOf? s).bind m.keyOf? }

theorem exists_startsWith_of_start (h : m.start s = ⟨some kind, source, name, key⟩) :
    ∃ c, m.StartsWith s c ∧ c.kind = kind ∧ c.source? m = source ∧
      (c.registration m).name = name := by
  obtain ⟨hkind, hsource, hname, -⟩ := Start.mk.inj h
  obtain ⟨c, hcall, hkind⟩ := Option.map_eq_some_iff.1 hkind
  rw [hcall, Option.bind_some] at hsource hname
  exact ⟨c, startsWith_iff.2 (Option.bind_eq_some_iff.1 hcall), hkind, hsource, hname⟩

theorem readsKey_of_start {kind : Option RegistrationKind}
    (h : m.start s = ⟨kind, source, name, some k⟩) : m.ReadsKey s k := by
  obtain ⟨-, -, -, hkey⟩ := Start.mk.inj h
  obtain ⟨e, hvalue, hkey⟩ := Option.bind_eq_some_iff.1 hkey
  obtain ⟨i, target, name, rfl, hread⟩ := keyOf?_eq_some_iff.1 hkey
  exact ⟨i, target, name, hvalue, hread⟩

/-- What members of a text start with. -/
def starts? (pieces : List String) (symbols : List SymbolId) : Option (List Start) :=
  (SyntaxTree.parse 0 (String.join pieces)).toOption.map fun t => symbols.map (alone t).start

/-- Of two chains of owners, the property at the head of the one has the name that the call at its
end gives, and the member that adds an owner to itself has no registration. -/
theorem registrationOf?_chain_chainedOwners : ∃ t first c,
    SyntaxTree.parse 0 (String.join chainedOwners) = .ok (alone t).tree ∧
    (alone t).StartsWith 6 first ∧ first.kind = .addOwner ∧ first.source? (alone t) = some 7 ∧
    (alone t).EndsIn 7 c ∧ (c.registration (alone t)).name = some "P" ∧
    (alone t).AddsOwner 9 9 ∧
    (alone t).registrationOf? 6 = some (first.addedTo (alone t) (c.registration (alone t))) ∧
    (alone t).registrationOf? 9 = none := by
  have hstarts : starts? chainedOwners [6, 7, 8, 9] =
      some [⟨some .addOwner, some 7, none, none⟩, ⟨none, none, none, some 8⟩,
        ⟨some .registerReadOnly, some 1, some "P", none⟩,
        ⟨some .addOwner, some 9, none, none⟩] := by
    rw [starts?, SyntaxTree.parse_join]
    decide +kernel
  obtain ⟨t, ht, hstarts⟩ := Option.map_eq_some_iff.1 hstarts
  rw [toOption_eq_some_iff] at ht
  simp only [List.map_cons, List.map_nil, List.cons.injEq, and_true] at hstarts
  obtain ⟨h6, h7, h8, h9⟩ := hstarts
  obtain ⟨first, hfirst, hkind, hsource, -⟩ := exists_startsWith_of_start h6
  obtain ⟨c, hc, hckind, -, hname⟩ := exists_startsWith_of_start h8
  obtain ⟨x, hx, hxkind, hxsource, -⟩ := exists_startsWith_of_start h9
  have hend : (alone t).EndsIn 7 c :=
    ⟨by rw [hckind]; decide, .inr ⟨8, readsKey_of_start h7, hc⟩⟩
  have hback : (alone t).AddsOwner 9 9 := ⟨x, hx, hxkind, hxsource⟩
  obtain ⟨-, -, hchain, hmissing⟩ := registrationOf?_chain (alone t)
  exact ⟨t, first, c, ht, hfirst, hkind, hsource, hend, hname, hback,
    hchain 6 7 7 first c hfirst hkind hsource .refl hend,
    hmissing 9 9 .refl (.inl (.single hback))⟩

/-! ## Calls that are written in another way -/

/-- The member of the model's file starts, inside of parentheses, with a call that is bound to a
framework method that registers, however the method is written in it. -/
def StartsWithBound (m : Model) (s : SymbolId) (callee : Expr) (kind : RegistrationKind) : Prop :=
  ∃ i args method, m.startValueOf? s = some (.invoke i callee args) ∧
    m.symbol? i.id = some method ∧
    (m.comp.knownMember? method).bind RegistrationKind.ofMember? = some kind

/-- A call is no registration unless the method is written as a member of something, not even if
there are only parentheses around the member. -/
theorem registrationOf?_eq_none_of_callee {callee : Expr} (h : m.StartsWithBound s callee kind)
    (hcallee : ∀ i target name, callee ≠ .member i target name) : m.registrationOf? s = none := by
  obtain ⟨i, args, method, hvalue, -⟩ := h
  refine Option.eq_none_iff_forall_ne_some.2 fun r hr => ?_
  have hcall {c : FrameworkCall} (hs : m.StartsWith s c) : False := by
    obtain ⟨j, l, name, hwritten, -⟩ := hs.written
    rw [hs.value, hwritten, Option.some.injEq, Expr.invoke.injEq] at hvalue
    exact hcallee l c.target name hvalue.2.1.symm
  cases registrationOf?_eq_some_iff.1 hr with
  | call hs _ => exact hcall hs
  | addOwner hs _ _ _ => exact hcall hs
  | key hk _ =>
    obtain ⟨j, target, name, hkey, -⟩ := hk
    rw [hvalue] at hkey
    simp at hkey

/-- A property that is registered by a call with parentheses around the method, and one that is
registered by a call with the name of the method alone. -/
def barelyRegistered : List String :=
  ["namespace System.Windows\x7bclass DependencyProperty\x7b",
    "static DependencyProperty Register(string name);",
    "static DependencyProperty A=", "((DependencyProperty.Register))(\"P\");",
    "static DependencyProperty B=Register(\"P\");\x7d\x7d"]

/-- Whether the call that a member starts with has a member as its callee, and the kind of
registration that it is bound to. -/
def boundCall? (m : Model) (s : SymbolId) : Option (Bool × RegistrationKind) := do
  match ← m.startValueOf? s with
  | .invoke i callee _ =>
    let known ← m.comp.knownMember? (← m.symbol? i.id)
    return (callee matches .member .., ← RegistrationKind.ofMember? known)
  | _ => none

theorem registrationOf?_eq_none_of_boundCall? (h : m.boundCall? s = some (false, kind)) :
    ∃ callee, m.StartsWithBound s callee kind ∧ m.registrationOf? s = none := by
  obtain ⟨value, hvalue, h⟩ := Option.bind_eq_some_iff.1 h
  split at h
  · rename_i i callee args
    simp only [Option.bind_eq_bind, Option.bind_eq_some_iff, Option.pure_def, Option.some.injEq,
      Prod.mk.injEq] at h
    obtain ⟨method, hmethod, known, hknown, kind', hkind, hmember, rfl⟩ := h
    have hbound : m.StartsWithBound s callee kind' :=
      ⟨i, args, method, hvalue, hmethod, Option.bind_eq_some_iff.2 ⟨known, hknown, hkind⟩⟩
    refine ⟨callee, hbound, registrationOf?_eq_none_of_callee hbound ?_⟩
    rintro j target name rfl
    simp at hmember
  · simp at h

/-- Two properties are registered by calls that are bound to the framework's method but have no
member as their callee, and no registration is found for them. -/
theorem registrationOf?_barelyRegistered : ∃ t,
    SyntaxTree.parse 0 (String.join barelyRegistered) = .ok (alone t).tree ∧
    (∃ callee, (alone t).StartsWithBound 3 callee .register ∧
      (alone t).registrationOf? 3 = none) ∧
    ∃ callee, (alone t).StartsWithBound 4 callee .register ∧
      (alone t).registrationOf? 4 = none := by
  have hbound : (SyntaxTree.parse 0 (String.join barelyRegistered)).toOption.map
      (fun t => ((alone t).boundCall? 3, (alone t).boundCall? 4)) =
      some (some (false, .register), some (false, .register)) := by
    rw [SyntaxTree.parse_join]
    decide +kernel
  obtain ⟨t, ht, hbound⟩ := Option.map_eq_some_iff.1 hbound
  rw [toOption_eq_some_iff] at ht
  obtain ⟨h3, h4⟩ := Prod.mk.inj hbound
  exact ⟨t, ht, registrationOf?_eq_none_of_boundCall? h3, registrationOf?_eq_none_of_boundCall? h4⟩

end Model

end PropertyLint
