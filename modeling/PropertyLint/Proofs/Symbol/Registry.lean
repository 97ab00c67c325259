/-
# Full names and namespaces of registered types

A type is registered under the full name that it has at that time, and later changes do not touch
the entry; the first registration of a name counts (`typeNamed?_eq_some_iff`).  The namespaces are
those of the registered types and the ones around these, as long as no change gives a symbol another
namespace (`Namespaced`).  The main statement is `registry_run`.
-/
import PropertyLint.Proofs.Symbol.KnownCache
import PropertyLint.Proofs.Symbol.Valid

namespace PropertyLint

/-! ## Namespaces around a namespace -/

theorem mem_dottedPrefixes_iff {cs outer : List Char} :
    outer ∈ dottedPrefixes cs ↔ cs = outer ∨ ∃ rest, cs = outer ++ '.' :: rest := by
  induction cs generalizing outer with
  | nil => cases outer <;> simp [dottedPrefixes]
  | cons c cs ih =>
    have hlonger : outer ∈ (dottedPrefixes cs).map (c :: ·) ↔
        ∃ outer', outer = c :: outer' ∧ (cs = outer' ∨ ∃ rest, cs = outer' ++ '.' :: rest) := by
      simp only [List.mem_map, ih, eq_comm (b := outer), and_comm]
    have hshape : outer ∈ dottedPrefixes (c :: cs) ↔
        c = '.' ∧ outer = [] ∨ outer ∈ (dottedPrefixes cs).map (c :: ·) := by
      rw [dottedPrefixes]
      by_cases hc : c = '.' <;> simp [hc]
    rw [hshape, hlonger]
    cases outer with
    | nil => simp
    | cons o outer =>
      simp only [List.cons.injEq, List.cons_append, reduceCtorEq, and_false, false_or]
      constructor
      · rintro ⟨outer', ⟨rfl, rfl⟩, hcs⟩
        simpa using hcs
      · rintro (⟨rfl, rfl⟩ | ⟨rest, rfl, rfl⟩)
        · exact ⟨cs, ⟨rfl, rfl⟩, .inl rfl⟩
        · exact ⟨outer, ⟨rfl, rfl⟩, .inr ⟨rest, rfl⟩⟩

/-- The chain of a namespace holds it and each namespace that it stands in. -/
theorem mem_namespaceChain_iff {name outer : String} :
    outer ∈ namespaceChain name ↔ name = outer ∨ ∃ rest, name = outer ++ "." ++ rest := by
  simp only [namespaceChain, List.mem_reverse, List.mem_map, mem_dottedPrefixes_iff]
  constructor
  · rintro ⟨cs, hcs | ⟨rest, hcs⟩, rfl⟩
    · left
      rw [← hcs, String.ofList_toList]
    · right
      refine ⟨String.ofList rest, String.toList_inj.1 ?_⟩
      simp [hcs]
  · intro h
    refine ⟨outer.toList, ?_, String.ofList_toList⟩
    rcases h with rfl | ⟨rest, rfl⟩
    · exact .inl rfl
    · exact .inr ⟨rest.toList, by simp⟩

/-- The namespace of a symbol; only types have one. -/
def Symbol.namespaceName? (s : Symbol) : Option String := s.asType?.bind TypeSymbol.namespaceName

namespace Compilation

variable {c c' : Compilation} {id other : SymbolId} {name : String} {ops more : List Operation}

/-! ## Names -/

/-- The operations register a symbol whose full name at that time is the given one. -/
def Registers (ops : List Operation) (id : SymbolId) (name : String) : Prop :=
  ∃ before after, ops = before ++ .register id :: after ∧ (run before).metadataName id = name

/-- The symbol is the first one that is registered while it has the full name. -/
def RegistersFirst (ops : List Operation) (id : SymbolId) (name : String) : Prop :=
  ∃ before after, ops = before ++ .register id :: after ∧ (run before).metadataName id = name ∧
    ∀ other, ¬ Registers before other name

theorem construct_registry (c : Compilation) (id : SymbolId) (args : List SymbolId) :
    (c.construct id args).2.registry = c.registry := by
  rcases construct_cases c id args with heq | ⟨t, -, heq⟩
  · rw [heq]
  · rw [heq]
    rfl

/-- What an operation does to the registry: it registers a symbol, or it keeps the registry. -/
theorem perform_registry (c : Compilation) (op : Operation) :
    (∃ id, op = .register id ∧ (c.perform op).registry = c.registry ++ [(c.metadataName id, id)]) ∨
      (∀ id, op ≠ .register id) ∧ (c.perform op).registry = c.registry := by
  cases op with
  | register id => exact .inl ⟨id, rfl, rfl⟩
  | add _ | edit _ _ | editType _ _ | askKnown => exact .inr ⟨nofun, rfl⟩
  | construct id args => exact .inr ⟨nofun, construct_registry c id args⟩
  | arrayOf element =>
    refine .inr ⟨nofun, ?_⟩
    dsimp only [perform]
    rcases arrayOf_cases c element with ⟨made, -, heq⟩ | ⟨-, heq⟩ <;> rw [heq]
    rfl
  | nullableOf underlying =>
    refine .inr ⟨nofun, ?_⟩
    rcases perform_nullableOf c underlying with heq | ⟨nullable, -, heq⟩ <;> rw [heq]
    exact construct_registry c nullable [underlying]

/-- An entry of the registry was made when the entries in front of it had been made. -/
theorem exists_of_registry_run {earlier later : List (String × SymbolId)}
    (h : (run ops).registry = earlier ++ (name, id) :: later) :
    ∃ before after, ops = before ++ .register id :: after ∧
      (run before).metadataName id = name ∧ (run before).registry = earlier := by
  induction ops using List.reverseRecOn generalizing later with
  | nil => simp at h
  | append_singleton ops op ih =>
    rw [run_concat] at h
    rcases perform_registry (run ops) op with ⟨new, rfl, heq⟩ | ⟨-, heq⟩ <;> rw [heq] at h
    · rcases List.eq_nil_or_concat later with rfl | ⟨later, entry, rfl⟩
      · -- the entry is the last one
        obtain ⟨hregistry, hentry⟩ := List.append_inj' h rfl
        obtain ⟨rfl, rfl⟩ : (run ops).metadataName new = name ∧ new = id := by simpa using hentry
        exact ⟨ops, [], rfl, rfl, hregistry⟩
      · rw [List.concat_eq_append, ← List.cons_append, ← List.append_assoc] at h
        obtain ⟨before, after, rfl, hname, hearlier⟩ := ih (List.append_inj' h rfl).1
        exact ⟨before, after ++ [.register new], by simp, hname, hearlier⟩
    · obtain ⟨before, after, rfl, hname, hearlier⟩ := ih h
      exact ⟨before, after ++ [op], by simp, hname, hearlier⟩

theorem prefix_perform_registry (c : Compilation) (op : Operation) :
    c.registry <+: (c.perform op).registry := by
  rcases perform_registry c op with ⟨id, -, heq⟩ | ⟨-, heq⟩
  · rw [heq]
    exact List.prefix_append _ _
  · rw [heq]

/-- Entries of the registry stay in their places. -/
theorem prefix_registry_run (ops more : List Operation) :
    (run ops).registry <+: (run (ops ++ more)).registry := by
  induction more using List.reverseRecOn with
  | nil => rw [List.append_nil]
  | append_singleton more op ih =>
    rw [← List.append_assoc, run_concat]
    exact ih.trans (prefix_perform_registry _ op)

theorem registers_iff_mem : Registers ops id name ↔ (name, id) ∈ (run ops).registry := by
  constructor
  · rintro ⟨before, after, rfl, rfl⟩
    have hentries := prefix_registry_run (before ++ [.register id]) after
    rw [run_concat, List.append_assoc] at hentries
    exact hentries.subset (List.mem_append_right _ (.head _))
  · intro h
    obtain ⟨earlier, later, heq⟩ := List.append_of_mem h
    obtain ⟨before, after, hops, hname, -⟩ := exists_of_registry_run heq
    exact ⟨before, after, hops, hname⟩

theorem typeNamed?_eq_none_iff :
    (run ops).typeNamed? name = none ↔ ∀ other, ¬ Registers ops other name := by
  simp only [typeNamed?, List.lookup_eq_none_iff, registers_iff_mem]
  constructor
  · exact fun h other hmem => absurd (h _ hmem) (by simp)
  · rintro h ⟨name', other⟩ hmem
    refine bne_iff_ne.2 ?_
    rintro rfl
    exact h other hmem

/-- The type found by a name is the first one that was registered under it. -/
theorem typeNamed?_eq_some_iff :
    (run ops).typeNamed? name = some id ↔ RegistersFirst ops id name := by
  constructor
  · intro h
    obtain ⟨earlier, later, heq, hnone⟩ := List.lookup_eq_some_iff.1 h
    obtain ⟨before, after, hops, hname, hearlier⟩ := exists_of_registry_run heq
    refine ⟨before, after, hops, hname, typeNamed?_eq_none_iff.1 ?_⟩
    rw [typeNamed?, hearlier, List.lookup_eq_none_iff]
    exact fun entry hentry => by simpa using hnone entry hentry
  · rintro ⟨before, after, rfl, rfl, hfirst⟩
    have hnone : (run before).typeNamed? ((run before).metadataName id) = none :=
      typeNamed?_eq_none_iff.2 hfirst
    obtain ⟨later, heq⟩ := prefix_registry_run (before ++ [.register id]) after
    rw [run_concat, List.append_assoc, List.singleton_append] at heq
    have hentry : ((run before).perform (.register id)).registry =
        (run before).registry ++ [((run before).metadataName id, id)] := rfl
    rw [typeNamed?] at hnone
    rw [typeNamed?, ← heq, hentry, List.append_assoc, List.lookup_append, hnone, Option.none_or,
      List.singleton_append, List.lookup_cons_self]

theorem RegistersFirst.append (h : RegistersFirst ops id name) (more : List Operation) :
    RegistersFirst (ops ++ more) id name := by
  obtain ⟨before, after, rfl, hname, hfirst⟩ := h
  exact ⟨before, after ++ more, by simp, hname, hfirst⟩

theorem exists_registers_iff : (∃ name, Registers ops id name) ↔ .register id ∈ ops := by
  constructor
  · rintro ⟨name, before, after, rfl, -⟩
    simp
  · intro h
    obtain ⟨before, after, rfl⟩ := List.append_of_mem h
    exact ⟨_, before, after, rfl, rfl⟩

/-! ## Namespaces -/

/-- The namespace of the symbol with a number, if it is a type in one. -/
def namespaceName? (c : Compilation) (id : SymbolId) : Option String :=
  (c.type? id).bind TypeSymbol.namespaceName

/-- The namespaces are those around the registered types, which are all there. -/
structure Namespaced (c : Compilation) : Prop where
  has : ∀ entry ∈ c.registry, c.Has entry.2
  iff : ∀ outer, outer ∈ c.namespaces ↔
    ∃ entry ∈ c.registry, ∃ name ∈ c.namespaceName? entry.2, outer ∈ namespaceChain name

/-- No type has been registered, and the symbols have kept their namespaces. -/
structure KeepsNamespaces (c c' : Compilation) : Prop where
  registry : c'.registry = c.registry
  namespaces : c'.namespaces = c.namespaces
  has : ∀ id, c.Has id → c'.Has id
  namespaceName? : ∀ id, c.Has id → c'.namespaceName? id = c.namespaceName? id

theorem KeepsNamespaces.refl (c : Compilation) : c.KeepsNamespaces c :=
  ⟨rfl, rfl, fun _ h => h, fun _ _ => rfl⟩

theorem keepsNamespaces_add (c : Compilation) (s : Symbol) : c.KeepsNamespaces (c.add s).2 where
  registry := rfl
  namespaces := rfl
  has _ h := h.mono (c.le_add s)
  namespaceName? id h := by rw [namespaceName?, type?_add_of_lt s h, namespaceName?]

theorem keepsNamespaces_modify {f : Symbol → Symbol}
    (h : ∀ s, c.symbol? id = some s → (f s).namespaceName? = s.namespaceName?) :
    c.KeepsNamespaces (c.modify id f) where
  registry := rfl
  namespaces := rfl
  has other hother := by simpa [Has, modify] using hother
  namespaceName? other hother := by
    have hsymbol (c : Compilation) : c.namespaceName? other =
        (c.symbol? other).bind Symbol.namespaceName? := by
      rw [namespaceName?, type?, Option.bind_assoc]
      rfl
    rw [hsymbol, hsymbol, symbol?, modify, Array.getElem?_modify, ← symbol?]
    split
    next heq =>
      subst heq
      cases hs : c.symbol? id with
      | none => rfl
      | some s => exact h s hs
    next => rfl

theorem keepsNamespaces_construct (c : Compilation) (id : SymbolId) (args : List SymbolId) :
    c.KeepsNamespaces (c.construct id args).2 := by
  rcases construct_cases c id args with heq | ⟨t, -, heq⟩
  · rw [heq]
    exact .refl c
  · rw [heq]
    exact { c.keepsNamespaces_add _ with }

theorem Namespaced.keeps (h : c.Namespaced) (hkeeps : c.KeepsNamespaces c') : c'.Namespaced where
  has entry hentry := hkeeps.has _ (h.has entry (hkeeps.registry ▸ hentry))
  iff outer := by
    rw [hkeeps.namespaces, h.iff, hkeeps.registry]
    refine exists_congr fun entry => and_congr_right fun hentry => ?_
    rw [hkeeps.namespaceName? _ (h.has entry hentry)]

theorem Namespaced.register (h : c.Namespaced) (hid : c.Has id) : (c.register id).Namespaced where
  has := List.forall_mem_append.2 ⟨h.has, List.forall_mem_singleton.2 hid⟩
  iff outer := by
    have hchain : outer ∈ ((c.namespaceName? id).map namespaceChain).getD [] ↔
        ∃ name ∈ c.namespaceName? id, outer ∈ namespaceChain name := by
      cases c.namespaceName? id <;> simp
    have hregistry : (c.register id).registry = c.registry ++ [(c.metadataName id, id)] := rfl
    have hnamespaces : (c.register id).namespaces =
        c.namespaces ++ ((c.namespaceName? id).map namespaceChain).getD [] := rfl
    have hname (other : SymbolId) : (c.register id).namespaceName? other = c.namespaceName? other :=
      rfl
    simp only [hregistry, hnamespaces, hname, List.mem_append, h.iff, hchain, or_and_right,
      exists_or, List.mem_singleton, exists_eq_left]

/-- The operation registers a symbol that is there, and an edit gives its symbol no other namespace.
-/
def NamespaceKept (c : Compilation) : Operation → Prop
  | .register id => c.Has id
  | .edit id f => ∀ s, c.symbol? id = some s → (f s).namespaceName? = s.namespaceName?
  | .editType id f => ∀ t, c.type? id = some t → (f t).namespaceName = t.namespaceName
  | _ => True

/-- The same of all operations, one after the other. -/
def NamespacesKept (c : Compilation) : List Operation → Prop
  | [] => True
  | op :: ops => c.NamespaceKept op ∧ (c.perform op).NamespacesKept ops

theorem Namespaced.perform {op : Operation} (h : c.Namespaced) (hop : c.NamespaceKept op) :
    (c.perform op).Namespaced := by
  cases op with
  | register id => exact h.register hop
  | add s => exact h.keeps (c.keepsNamespaces_add s)
  | edit id f => exact h.keeps (keepsNamespaces_modify hop)
  | editType id f =>
    refine h.keeps (keepsNamespaces_modify fun s hs => ?_)
    cases s with
    | type t =>
      have ht : c.type? id = some t := by
        rw [type?, hs]
        rfl
      exact hop t ht
    | _ => rfl
  | construct id args => exact h.keeps (c.keepsNamespaces_construct id args)
  | arrayOf element =>
    dsimp only [Compilation.perform]
    rcases arrayOf_cases c element with ⟨made, -, heq⟩ | ⟨-, heq⟩
    · rw [heq]
      exact h
    · rw [heq]
      exact h.keeps { c.keepsNamespaces_add _ with }
  | nullableOf underlying =>
    rcases perform_nullableOf c underlying with heq | ⟨nullable, -, heq⟩
    · rw [heq]
      exact h
    · rw [heq]
      exact h.keeps (c.keepsNamespaces_construct nullable [underlying])
  | askKnown => exact h.keeps ⟨rfl, rfl, fun _ hid => hid, fun _ _ => rfl⟩

theorem Namespaced.foldl_perform (h : c.Namespaced) (hops : c.NamespacesKept ops) :
    (ops.foldl Compilation.perform c).Namespaced := by
  induction ops generalizing c with
  | nil => exact h
  | cons op ops ih => exact ih (h.perform hops.1) hops.2

theorem namespaced_run (h : NamespacesKept {} ops) : (run ops).Namespaced := by
  have hempty : Namespaced {} := ⟨List.forall_mem_nil _, fun outer => by simp⟩
  exact hempty.foldl_perform h

/-! ## The main statement -/

/-- **The registry.**  The type that is found by a name is the first symbol that was registered while
its full name was that one, and it stays the one that is found.  If the operations register symbols
that are there and give none another namespace, a namespace is known if it is the one of a
registered type or stands around it. -/
theorem registry_run (ops : List Operation) :
    (∀ name id, (run ops).typeNamed? name = some id ↔ RegistersFirst ops id name) ∧
      (∀ name id, (run ops).typeNamed? name = some id →
        ∀ more, (run (ops ++ more)).typeNamed? name = some id) ∧
      (NamespacesKept {} ops → ∀ outer, (run ops).hasNamespace outer = true ↔
        ∃ id name, .register id ∈ ops ∧ (run ops).namespaceName? id = some name ∧
          (name = outer ∨ ∃ rest, name = outer ++ "." ++ rest)) := by
  refine ⟨fun _ _ => typeNamed?_eq_some_iff, fun name id h more => ?_, fun h outer => ?_⟩
  · exact typeNamed?_eq_some_iff.2 ((typeNamed?_eq_some_iff.1 h).append more)
  · have hcontains : (run ops).hasNamespace outer = true ↔ outer ∈ (run ops).namespaces :=
      List.contains_iff_mem
    rw [hcontains, (namespaced_run h).iff]
    constructor
    · rintro ⟨⟨name, id⟩, hentry, space, hspace, houter⟩
      exact ⟨id, space, exists_registers_iff.1 ⟨name, registers_iff_mem.2 hentry⟩, hspace,
        mem_namespaceChain_iff.1 houter⟩
    · rintro ⟨id, space, hid, hspace, houter⟩
      obtain ⟨name, hregisters⟩ := exists_registers_iff.2 hid
      exact ⟨_, registers_iff_mem.1 hregisters, space, hspace, mem_namespaceChain_iff.2 houter⟩

/-- A class in a namespace in a namespace is registered and then gets another name. -/
def renamed : List Operation :=
  [.add (.type { name := "A", kind := .class_, namespaceName := "N.M" }), .register 0, .askKnown,
    .editType 0 fun t => { t with name := "B" }, .register 0]

/-- It is found under both names, and both namespaces are known. -/
theorem registry_run_renamed : NamespacesKept {} renamed ∧
    (run renamed).typeNamed? "N.M.A" = some 0 ∧ (run renamed).typeNamed? "N.M.B" = some 0 ∧
    (run renamed).hasNamespace "N" = true ∧ (run renamed).hasNamespace "N.M.A" = false := by
  have hkept : NamespacesKept {} renamed :=
    ⟨trivial, Nat.zero_lt_one, trivial, fun _ _ => rfl, Nat.zero_lt_one, trivial⟩
  have hmem : .register 0 ∈ renamed := .tail _ (.head _)
  have hspace : (run renamed).namespaceName? 0 = some "N.M" := by decide +kernel
  obtain ⟨-, hstays, -⟩ := registry_run (renamed.take 2)
  obtain ⟨-, -, hnamespaces⟩ := registry_run renamed
  exact ⟨hkept, hstays "N.M.A" 0 (by decide +kernel) (renamed.drop 2), by decide +kernel,
    (hnamespaces hkept "N").2 ⟨0, "N.M", hmem, hspace, .inr ⟨"M", by decide⟩⟩, by decide +kernel⟩

end Compilation

end PropertyLint
