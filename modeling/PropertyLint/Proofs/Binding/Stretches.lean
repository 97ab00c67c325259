/-
# Stretches of binding

A local is in scope in the nodes that are bound in one scope.  These need not be bound one after the
other: between the initial values of two fields, a method is bound in a scope of its own.  So binding
goes on in stretches (`BindState.Stretch`), and what is in scope when one of them starts has been
brought into scope by stretches of the same area (`BindState.Encloses`).  There is a rule for each
way to put steps together.
-/
import PropertyLint.Proofs.Binding.Bound

namespace PropertyLint

open Binder

/-- Nodes that are bound one after the other, and the area of all those that share their scope. -/
structure Portion where
  area : List NodeRef
  refs : List NodeRef

/-- Nodes with a scope of their own. -/
def Portion.own (refs : List NodeRef) : Portion := ⟨refs, refs⟩

namespace BindState

/-! ## States -/

/-- A portion that is bound between two states. -/
structure Stretch extends Portion where
  start : BindState
  stop : BindState

variable {p : Project} {area area' refs refs' : List NodeRef} {s s' s'' : BindState}
  {l : String × SymbolId} {r : Stretch} {rs rs' : List Stretch}

/-- The local comes into scope in the stretch. -/
def Stretch.Brings (p : Project) (r : Stretch) (l : String × SymbolId) : Prop :=
  r.start.Brings p r.refs r.stop l

/-- The local comes into scope in one of the stretches of the area. -/
def BroughtInto (p : Project) (rs : List Stretch) (area : List NodeRef) (l : String × SymbolId) :
    Prop := ∃ r ∈ rs, r.area = area ∧ r.Brings p l

/-- In the stretch its portion has been bound, of which nothing had been known, and what is known of
it later was found out then. -/
structure Stretch.Lasts (p : Project) (r : Stretch) (s' : BindState) : Prop where
  bound : r.start.Bound p r.start.locals [] r.refs r.stop
  subset : r.refs ⊆ r.area
  unknown : ∀ n ∈ r.refs, p.IsExpr n → r.start.facts.symbol? n = none
  comp : r.stop.comp.Extends s'.comp
  declared : r.stop.facts.declared ⊆ s'.facts.declared
  symbols : ∀ n ∈ r.refs, p.IsExpr n → s'.facts.symbol? n = r.stop.facts.symbol? n

/-- Between the states the stretches have been bound one after the other.  What is in scope when one
of them starts has come into scope in stretches of the same area; only in the given area it may have
been in scope before. -/
structure Encloses (p : Project) (area : List NodeRef) (rs : List Stretch) (s s' : BindState) :
    Prop where
  bound : s.Bound p s.locals [] (rs.flatMap fun r => r.refs) s'
  starts : ∀ r ∈ rs, s.comp.Extends r.start.comp
  lasts : ∀ r ∈ rs, r.Lasts p s'
  apart : rs.Pairwise fun r r' => r.stop.comp.Extends r'.start.comp
  given : ∀ r ∈ rs, ∀ l ∈ r.start.locals, r.area = area ∧ l ∈ s.locals ∨ BroughtInto p rs r.area l
  locals : ∀ l ∈ s'.locals, l ∈ s.locals ∨ BroughtInto p rs area l

theorem BroughtInto.mono (h : BroughtInto p rs area l) (hrs : rs ⊆ rs') :
    BroughtInto p rs' area l := by
  obtain ⟨r, hr, harea, hbrings⟩ := h
  exact ⟨r, hrs hr, harea, hbrings⟩

theorem Stretch.Lasts.later (h : r.Lasts p s') (hcomp : s'.comp.Extends s''.comp)
    (hdeclared : s'.facts.declared ⊆ s''.facts.declared)
    (hsymbols : ∀ n ∈ r.refs, p.IsExpr n → s''.facts.symbol? n = s'.facts.symbol? n) :
    r.Lasts p s'' where
  bound := h.bound
  subset := h.subset
  unknown := h.unknown
  comp := h.comp.trans hcomp
  declared := List.Subset.trans h.declared hdeclared
  symbols n hn hexpr := (hsymbols n hn hexpr).trans (h.symbols n hn hexpr)

namespace Encloses

theorem refl (s : BindState) : s.Encloses p area [] s where
  bound := .refl s
  starts := List.forall_mem_nil _
  lasts := List.forall_mem_nil _
  apart := .nil
  given := List.forall_mem_nil _
  locals _ hl := .inl hl

/-- A single stretch, in the scope that is there. -/
theorem of_bound (h : s.Bound p s.locals [] refs s') (hsubset : refs ⊆ area)
    (hunknown : ∀ n ∈ refs, p.IsExpr n → s.facts.symbol? n = none) :
    s.Encloses p area [⟨⟨area, refs⟩, s, s'⟩] s' where
  bound := by rwa [List.flatMap_singleton]
  starts := List.forall_mem_singleton.2 (.refl _)
  lasts := List.forall_mem_singleton.2
    ⟨h, hsubset, hunknown, .refl _, List.Subset.refl _, fun _ _ _ => rfl⟩
  apart := List.pairwise_singleton _ _
  given := List.forall_mem_singleton.2 fun l hl => .inl ⟨rfl, hl⟩
  locals l hl := (h.locals l hl).imp_right fun hbrings => ⟨_, .head _, rfl, hbrings⟩

/-- A single stretch, in a scope of its own. -/
theorem of_isolated (h : s.Bound p [] [] refs s') (hlocals : s'.locals = s.locals)
    (hunknown : ∀ n ∈ refs, p.IsExpr n → s.facts.symbol? n = none) :
    s.Encloses p area
      [⟨⟨refs, refs⟩, { s with locals := [] }, { s' with locals := [] }⟩] s' where
  bound := by
    rw [List.flatMap_singleton]
    exact h.imp (List.forall_mem_nil _)
  starts := List.forall_mem_singleton.2 (.refl _)
  lasts := List.forall_mem_singleton.2
    ⟨h.congr (List.forall_mem_nil _), List.Subset.refl _, hunknown, .refl _,
      List.Subset.refl _, fun _ _ _ => rfl⟩
  apart := List.pairwise_singleton _ _
  given := List.forall_mem_singleton.2 (List.forall_mem_nil _)
  locals l hl := .inl (hlocals ▸ hl)

/-- Some stretches after the others. -/
theorem trans (hready : s.Ready p [] ((rs.flatMap fun r => r.refs) ++ rs'.flatMap fun r => r.refs))
    (h : s.Encloses p area rs s') (h' : s'.Encloses p area rs' s'') :
    s.Encloses p area (rs ++ rs') s'' where
  bound := by
    rw [List.flatMap_append]
    exact h.bound.trans hready h'.bound
  starts := List.forall_mem_append.2
    ⟨h.starts, fun r hr => h.bound.comp.trans (h'.starts r hr)⟩
  lasts := by
    refine List.forall_mem_append.2 ⟨fun r hr => ?_, h'.lasts⟩
    refine (h.lasts r hr).later h'.bound.comp h'.bound.declared.subset fun n hn hexpr => ?_
    exact h'.bound.symbols n (hready.not_mem hexpr (List.mem_flatMap.2 ⟨r, hr, hn⟩)) hexpr
  apart := List.pairwise_append.2
    ⟨h.apart, h'.apart, fun r hr r' hr' => (h.lasts r hr).comp.trans (h'.starts r' hr')⟩
  given := by
    have hleft : rs ⊆ rs ++ rs' := List.subset_append_left _ _
    refine List.forall_mem_append.2 ⟨fun r hr l hl => ?_, fun r hr l hl => ?_⟩
    · exact (h.given r hr l hl).imp_right fun hbrought => hbrought.mono hleft
    · rcases h'.given r hr l hl with ⟨harea, hl⟩ | hbrought
      · rw [harea]
        exact (h.locals l hl).imp (fun hl => ⟨rfl, hl⟩) fun hbrought => hbrought.mono hleft
      · exact .inr (hbrought.mono (List.subset_append_right _ _))
  locals l hl := by
    rcases h'.locals l hl with hl | hbrought
    · exact (h.locals l hl).imp_right fun hbrought =>
        hbrought.mono (List.subset_append_left _ _)
    · exact .inr (hbrought.mono (List.subset_append_right _ _))

/-- Other locals have been in scope for a while. -/
theorem inFreshScope (h : BindState.Encloses p area rs { s with locals := [] } s') :
    s.Encloses p area' rs { s' with locals := s.locals } where
  bound := h.bound.inFreshScope.imp (List.forall_mem_nil _)
  starts := h.starts
  lasts r hr := { h.lasts r hr with }
  apart := h.apart
  given r hr l hl := .inr ((h.given r hr l hl).resolve_left fun hl => by cases hl.2)
  locals _ hl := .inl hl

end Encloses

end BindState

/-! ## Steps -/

namespace Binder

variable {p : Project} {c c' : Compilation} {area area' refs refs' : List NodeRef}
  {ps ps' : List Portion} {α β : Type} {step : Binder α} {post : Compilation → α → Prop}
  {f : α → Binder β}

/-- From a state with at least the symbols of `c` in which the nodes can be bound, the step binds
them in one stretch for each of the portions. -/
def Encloses (p : Project) (c : Compilation) (area : List NodeRef) (ps : List Portion)
    (step : Binder α) : Prop :=
  ∀ s : BindState, s.Ready p [] (ps.flatMap Portion.refs) → c ≤ s.comp →
    ∃ rs : List BindState.Stretch, rs.map BindState.Stretch.toPortion = ps ∧
      s.Encloses p area rs (step.run s).2

theorem Binds.encloses (h : Binds p c [] refs step) (hsubset : refs ⊆ area) :
    Encloses p c area [⟨area, refs⟩] step := by
  intro s hready hle
  rw [List.flatMap_singleton] at hready
  exact ⟨_, rfl, .of_bound (h s hready hle) hsubset hready.symbol?⟩

theorem Isolates.encloses (h : Isolates p c [] refs step) :
    Encloses p c area [.own refs] step := by
  intro s hready hle
  rw [List.flatMap_singleton] at hready
  obtain ⟨hbound, hlocals⟩ := h s hready hle
  exact ⟨_, rfl, .of_isolated hbound hlocals hready.symbol?⟩

theorem Keeps.isolates (h : Keeps p [] step) : Isolates p c [] refs step := fun s _ _ =>
  ⟨(h s).bound fun _ _ _ => List.not_mem_nil, (h s).locals⟩

namespace Encloses

theorem pure (a : α) : Encloses p c area [] (pure a) := fun s _ _ => ⟨[], rfl, .refl s⟩

theorem bind (hfinds : Finds Set.univ c step post) (h : Encloses p c area ps step)
    (hf : ∀ c' a, c ≤ c' → post c' a → Encloses p c' area ps' (f a)) :
    Encloses p c area (ps ++ ps') (step >>= f) := by
  intro s hready hle
  rw [List.flatMap_append] at hready
  obtain ⟨hlead, hpost⟩ := hfinds s hready.valid hle
  obtain ⟨rs, rfl, hfirst⟩ := h s hready.left hle
  rw [List.flatMap_map] at hready
  obtain ⟨rs', rfl, hrest⟩ := hf _ _ (le_trans hle hlead.comp) hpost _
    (hfirst.bound.ready hready hlead.valid) (le_refl _)
  rw [List.flatMap_map] at hready
  exact ⟨rs ++ rs', List.map_append, hfirst.trans hready hrest⟩

theorem after (h : Encloses p c area ps step) (hle : c ≤ c') : Encloses p c' area ps step :=
  fun s hready hle' => h s hready (le_trans hle hle')

/-- A step that binds shared nodes and then others in a scope of their own is two stretches. -/
theorem of_splits (h : Splits p c refs refs' step) (hsubset : refs ⊆ area) :
    Encloses p c area [⟨area, refs⟩, .own refs'] step := by
  intro s hready hle
  rw [List.flatMap_cons, List.flatMap_singleton] at hready
  obtain ⟨s₁, hfirst, hrest, hlocals⟩ := h s hready hle
  have hshared : s.Encloses p area _ s₁ :=
    .of_bound hfirst hsubset fun n hn => hready.symbol? n (List.mem_append_left _ hn)
  have hown : s₁.Encloses p area _ (step.run s).2 := .of_isolated hrest hlocals fun n hn hexpr => by
    rw [hfirst.symbols n (hready.not_mem_left hexpr hn) hexpr]
    exact hready.symbol? n (List.mem_append_right _ hn) hexpr
  refine ⟨_, rfl, hshared.trans ?_ hown⟩
  rwa [List.flatMap_singleton, List.flatMap_singleton]

theorem forM {as : List α} {f : α → Binder Unit} {ps : α → List Portion}
    (hfinds : ∀ a ∈ as, Finds Set.univ c (f a) fun _ _ => True)
    (h : ∀ a ∈ as, Encloses p c area (ps a) (f a)) :
    Encloses p c area (as.flatMap ps) (as.forM f) := by
  induction as with
  | nil => exact .pure _
  | cons a as ih =>
    rw [List.forM_eq_forM, List.forM_cons, List.flatMap_cons]
    refine (h a (.head _)).bind (hfinds a (.head _)) fun c' _ hle _ => Encloses.after ?_ hle
    exact ih (fun b hb => hfinds b (.tail _ hb)) fun b hb => h b (.tail _ hb)

theorem inFreshScope (h : Encloses p c area ps step) :
    Encloses p c area' ps (Binder.inFreshScope [] step) := by
  intro s hready hle
  obtain ⟨rs, hrs, hencloses⟩ := h { s with locals := [] }
    { hready with valid := { hready.valid with locals := List.forall_mem_nil _ } } hle
  exact ⟨rs, hrs, hencloses.inFreshScope⟩

end Encloses

end Binder

end PropertyLint
