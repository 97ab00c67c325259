/-
# How expressions come to be bound

Binding goes through the expressions of a project one by one, and each is bound once: there is a
state from which it has been bound, and what was found about it and its parts then is what is known
later (`BindState.Runs`).  `Binds` says this of a step for all expressions among some nodes, together
with which locals have been in scope; there is a rule for each way to put steps together.
-/
import PropertyLint.Proofs.Binding.Calm
import PropertyLint.Proofs.Binding.Places
import PropertyLint.Proofs.Binding.RecordedExprs

namespace PropertyLint

open Binder

/-- The symbol of a type that a node of a file brings into scope: a declaration of a local, a
designation or the value of a setter. -/
def SyntaxNode.introduced? (file : Option FileId) (type : Option SymbolId) :
    SyntaxNode → Option Symbol
  | .stmt (.localDecl node _ name _) =>
    some (.localVar ⟨name.text, type, file.map fun file => ⟨file, node.id, node.range⟩⟩)
  | .expr (.isType _ _ _ (some name)) => some (.localVar ⟨name.text, type, none⟩)
  | .accessor a =>
    if a.kind == .set || a.kind == .init then
      some (.parameter ⟨setterValueName, type, 0, false, none⟩)
    else none
  | _ => none

/-- The node is one of the file. -/
def Project.HasNode (p : Project) (n : NodeRef) (x : SyntaxNode) : Prop :=
  ∃ t ∈ p.trees, n.file = some t.file ∧ x ∈ t.root.nodes ∧ x.node.id = n.node

namespace BindState

/-! ## States -/

/-- One of the nodes brings the local into scope: a local that has been added, or one that a
parameter declares. -/
def Brings (p : Project) (refs : List NodeRef) (s s' : BindState) (l : String × SymbolId) : Prop :=
  ∃ n ∈ refs, ∃ x, p.HasNode n x ∧
    ((∃ type symbol, x.introduced? n.file type = some symbol ∧ symbol.name = l.1 ∧
        s.comp.symbols.size ≤ l.2 ∧ s'.comp.symbol? l.2 = some symbol) ∨
      ∃ q, x = .parameter q ∧ q.name.text = l.1 ∧ (n, l.2) ∈ s'.facts.declared)

/-- The local is one of the given ones, or one of the nodes brings it into scope. -/
def Sees (p : Project) (given : List (String × SymbolId)) (refs : List NodeRef) (s s' : BindState)
    (l : String × SymbolId) : Prop := l ∈ given ∨ s.Brings p refs s' l

/-- The state is as it should be before nodes are bound, of which no expression occurs twice.
Nothing is known about the expressions among them; `own` is the node of an expression that they are
parts of. -/
structure Ready (p : Project) (own refs : List NodeRef) (s : BindState) : Prop where
  valid : s.Valid
  orderly : s.comp.Orderly
  once : ∀ n, p.IsExpr n → (own ++ refs).count n ≤ 1
  symbol? : ∀ n ∈ refs, p.IsExpr n → s.facts.symbol? n = none
  type? : ∀ n ∈ refs, p.IsExpr n → s.facts.type? n = none

/-- The expression is bound from the first state, and what is known then of the types in it and of
its own symbol is known in the second one; only what is called gets its symbol later. -/
structure Runs (p : Project) (scope : Scope) (e : Expr) (t s' : BindState) : Prop where
  ready : t.Ready p [] (scope.refs e.nodes)
  sound : scope.Sound t.comp
  within : scope.Within p e.nodes
  comp : ((bindExpr scope e).run t).2.comp.Extends s'.comp
  types : ∀ n ∈ scope.refs e.nodes, p.IsExpr n →
    s'.facts.type? n = ((bindExpr scope e).run t).2.facts.type? n
  symbol : s'.facts.symbol? ⟨scope.file, e.id⟩ =
      ((bindExpr scope e).run t).2.facts.symbol? ⟨scope.file, e.id⟩ ∨
    e.argumentList? = none ∧ ∃ m, s'.facts.symbol? ⟨scope.file, e.id⟩ = some m ∧
      (s'.comp.method? m).isSome = true

/-- Between the states the expression is bound from one in which only the given locals are in scope
and such as one of the nodes brings into scope. -/
def Reaches (p : Project) (given : List (String × SymbolId)) (own refs : List NodeRef)
    (file : Option FileId) (e : Expr) (s s' : BindState) : Prop :=
  ∃ (scope : Scope) (t : BindState), scope.file = file ∧ scope.refs e.nodes ⊆ refs ∧
    t.Runs p scope e s' ∧ s.comp.Extends t.comp ∧
      ∀ l ∈ t.locals, s.Sees p given (own ++ refs) s' l

/-- Between the states the expressions among the nodes have been bound, if at all, and nothing has
been found out about other expressions but the symbol of the one that they are parts of.  No
declaration of a type or a member has come to declare anything. -/
structure Bound (p : Project) (given : List (String × SymbolId)) (own refs : List NodeRef)
    (s s' : BindState) : Prop where
  comp : s.comp.Extends s'.comp
  types : ∀ n ∉ refs, p.IsExpr n → s'.facts.type? n = s.facts.type? n
  symbols : ∀ n ∉ own ++ refs, p.IsExpr n → s'.facts.symbol? n = s.facts.symbol? n
  declared : s.Declares p.declarationRefs [] s'
  locals : ∀ l ∈ s'.locals, s.Sees p s.locals (own ++ refs) s' l
  exprs : ∀ file e, p.Writes file e → ⟨file, e.id⟩ ∈ refs →
    s'.facts.symbol? ⟨file, e.id⟩ = s.facts.symbol? ⟨file, e.id⟩ ∨
      Reaches p given own refs file e s s'

variable {p : Project} {given given' : List (String × SymbolId)}
  {own own' refs refs' : List NodeRef} {s s' s'' t : BindState}
  {scope : Scope} {e : Expr} {l : String × SymbolId} {n : NodeRef}

theorem Brings.mono (h : s'.Brings p refs s'' l) (hrefs : refs ⊆ refs') {s₀ s₁ : BindState}
    (hbefore : s₀.comp.Extends s'.comp) (hafter : s''.comp.Extends s₁.comp)
    (hdeclared : s''.facts.declared ⊆ s₁.facts.declared) : s₀.Brings p refs' s₁ l := by
  obtain ⟨n, hn, x, hx, hlocal⟩ := h
  refine ⟨n, hrefs hn, x, hx, hlocal.imp ?_ ?_⟩
  · rintro ⟨type, symbol, hintro, hname, hle, hsymbol⟩
    exact ⟨type, symbol, hintro, hname, Nat.le_trans hbefore.size_le hle,
      hafter.symbol? l.2 symbol hsymbol⟩
  · rintro ⟨q, rfl, hname, hmem⟩
    exact ⟨q, rfl, hname, hdeclared hmem⟩

theorem Sees.mono (h : s.Sees p given refs s' l) (hrefs : refs ⊆ refs')
    (hcomp : s'.comp.Extends s''.comp) (hdeclared : s'.facts.declared ⊆ s''.facts.declared) :
    s.Sees p given refs' s'' l :=
  Or.imp_right (fun hbrings => hbrings.mono hrefs (.refl _) hcomp hdeclared) h

namespace Ready

/-- The first nodes are bound first. -/
theorem left (h : s.Ready p own (refs ++ refs')) : s.Ready p own refs where
  valid := h.valid
  orderly := h.orderly
  once n hn := Nat.le_trans
    (((List.sublist_append_left refs refs').append_left own).count_le n) (h.once n hn)
  symbol? n hn := h.symbol? n (List.mem_append_left _ hn)
  type? n hn := h.type? n (List.mem_append_left _ hn)

theorem perm (h : s.Ready p own refs) (hperm : (own ++ refs).Perm (own' ++ refs'))
    (hrefs : refs' ⊆ refs) : s.Ready p own' refs' where
  valid := h.valid
  orderly := h.orderly
  once n hn := by
    rw [← hperm.count_eq]
    exact h.once n hn
  symbol? n hn := h.symbol? n (hrefs hn)
  type? n hn := h.type? n (hrefs hn)

/-- The last nodes may be the only ones. -/
theorem right (h : s.Ready p own (refs ++ refs')) : s.Ready p own refs' := by
  have hperm : (refs ++ refs').Perm (refs' ++ refs) := List.perm_append_comm
  exact (h.perm (hperm.append_left own) hperm.symm.subset).left

/-- The expression around the nodes does not matter. -/
theorem within (h : s.Ready p own refs) : s.Ready p [] refs :=
  { h with once := fun n hexpr =>
      Nat.le_trans ((List.sublist_append_right own refs).count_le n) (h.once n hexpr) }

/-- None of the nodes is that of the expression around them. -/
theorem not_mem_own (h : s.Ready p own refs) (hn : p.IsExpr n) (hmem : n ∈ refs) : n ∉ own := by
  intro hown
  have hcount := h.once n hn
  rw [List.count_append] at hcount
  have hpos := List.count_pos_iff.2 hmem
  have hpos' := List.count_pos_iff.2 hown
  omega

/-- Expressions that are bound later are different ones. -/
theorem not_mem (h : s.Ready p own (refs ++ refs')) (hn : p.IsExpr n) (hmem : n ∈ refs) :
    n ∉ own ++ refs' := by
  intro hother
  have hcount := h.once n hn
  rw [← List.append_assoc, List.count_append, List.count_append] at hcount
  rw [← List.count_pos_iff, List.count_append] at hother
  have hpos := List.count_pos_iff.2 hmem
  omega

/-- Expressions that have been bound before are different ones. -/
theorem not_mem_left (h : s.Ready p own (refs ++ refs')) (hn : p.IsExpr n) (hmem : n ∈ refs') :
    n ∉ own ++ refs := by
  intro hother
  have hcount := h.once n hn
  rw [← List.append_assoc, List.count_append] at hcount
  have hpos := List.count_pos_iff.2 hmem
  have hpos' := List.count_pos_iff.2 hother
  omega

end Ready

/-- What has been found about an expression is still known when nothing new is found about it. -/
theorem Runs.later (h : t.Runs p scope e s') (hcomp : s'.comp.Extends s''.comp)
    (htypes : ∀ n ∈ scope.refs e.nodes, p.IsExpr n → s''.facts.type? n = s'.facts.type? n)
    (hsymbol : s''.facts.symbol? ⟨scope.file, e.id⟩ = s'.facts.symbol? ⟨scope.file, e.id⟩) :
    t.Runs p scope e s'' where
  ready := h.ready
  sound := h.sound
  within := h.within
  comp := h.comp.trans hcomp
  types n hn hexpr := (htypes n hn hexpr).trans (h.types n hn hexpr)
  symbol := by
    rw [hsymbol]
    refine h.symbol.imp_right fun ⟨hargs, m, hm, hmethod⟩ => ⟨hargs, m, hm, ?_⟩
    obtain ⟨method, hmethod⟩ := Option.isSome_iff_exists.1 hmethod
    rw [hcomp.method? hmethod]
    rfl

namespace Bound

theorem refl (s : BindState) : s.Bound p given own refs s where
  comp := .refl _
  types _ _ _ := rfl
  symbols _ _ _ := rfl
  declared := .refl s
  locals _ hl := .inl hl
  exprs _ _ _ _ := .inl rfl

/-- There may be more nodes, about which nothing is found out. -/
theorem more (h : s.Bound p given own refs s') (hown : own ⊆ own') (hrefs : refs ⊆ refs')
    (hmore : ∀ n ∈ refs', p.IsExpr n → n ∉ own ∨ n ∈ refs) : s.Bound p given own' refs' s' := by
  have hboth : own ++ refs ⊆ own' ++ refs' := fun n hn =>
    List.mem_append.2 ((List.mem_append.1 hn).imp (hown ·) (hrefs ·))
  have hsees {ls : List (String × SymbolId)} {l : String × SymbolId}
      (hl : s.Sees p ls (own ++ refs) s' l) : s.Sees p ls (own' ++ refs') s' l :=
    hl.mono hboth (.refl _) (List.Subset.refl _)
  refine
    { comp := h.comp
      types := fun n hn => h.types n fun hmem => hn (hrefs hmem)
      symbols := fun n hn => h.symbols n fun hmem => hn (hboth hmem)
      declared := h.declared
      locals := fun l hl => hsees (h.locals l hl)
      exprs := fun file e hwrites hmem => ?_ }
  have hexpr : p.IsExpr ⟨file, e.id⟩ := ⟨e, hwrites, rfl⟩
  by_cases hold : ⟨file, e.id⟩ ∈ refs
  · refine (h.exprs file e hwrites hold).imp_right ?_
    rintro ⟨scope, t, hfile, hsubset, hruns, hext, hlocals⟩
    exact ⟨scope, t, hfile, List.Subset.trans hsubset hrefs, hruns, hext,
      fun l hl => hsees (hlocals l hl)⟩
  · refine .inl (h.symbols _ (fun hother => ?_) hexpr)
    rcases List.mem_append.1 hother with hmem' | hmem'
    · exact (hmore _ hmem hexpr).elim (fun hnot => hnot hmem') hold
    · exact hold hmem'

/-- One step after the other. -/
theorem trans (hready : s.Ready p own (refs ++ refs')) (h : s.Bound p s.locals own refs s')
    (h' : s'.Bound p s'.locals own refs' s'') : s.Bound p s.locals own (refs ++ refs') s'' := by
  have hleft : own ++ refs ⊆ own ++ (refs ++ refs') := by
    rw [← List.append_assoc]
    exact List.subset_append_left _ _
  have hright : own ++ refs' ⊆ own ++ (refs ++ refs') := fun n hn => by
    rcases List.mem_append.1 hn with hn | hn
    · exact List.mem_append_left _ hn
    · exact List.mem_append_right _ (List.mem_append_right _ hn)
  -- what is seen in either step
  have hsees {l : String × SymbolId} (hl : s.Sees p s.locals (own ++ refs) s' l) :
      s.Sees p s.locals (own ++ (refs ++ refs')) s'' l := hl.mono hleft h'.comp h'.declared.subset
  have hsees' {l : String × SymbolId} (hl : s'.Sees p s'.locals (own ++ refs') s'' l) :
      s.Sees p s.locals (own ++ (refs ++ refs')) s'' l :=
    hl.elim (fun hl => hsees (h.locals l hl)) fun hl =>
      .inr (hl.mono hright h.comp (.refl _) (List.Subset.refl _))
  refine
    { comp := h.comp.trans h'.comp
      types := fun n hn hexpr => ?_
      symbols := fun n hn hexpr => ?_
      declared := h.declared.trans h'.declared
      locals := fun l hl => hsees' (h'.locals l hl)
      exprs := fun file e hwrites hmem => ?_ }
  · rw [List.mem_append, not_or] at hn
    exact (h'.types n hn.2 hexpr).trans (h.types n hn.1 hexpr)
  · exact (h'.symbols n (fun hmem => hn (hright hmem)) hexpr).trans
      (h.symbols n (fun hmem => hn (hleft hmem)) hexpr)
  have hexpr : p.IsExpr ⟨file, e.id⟩ := ⟨e, hwrites, rfl⟩
  rcases List.mem_append.1 hmem with hmem | hmem
  · have hsame := h'.symbols _ (hready.not_mem hexpr hmem) hexpr
    refine (h.exprs file e hwrites hmem).imp hsame.trans ?_
    rintro ⟨scope, t, rfl, hsubset, hruns, hext, hlocals⟩
    refine ⟨scope, t, rfl, List.subset_append_of_subset_left _ hsubset,
      hruns.later h'.comp (fun n hn hexpr => ?_) hsame, hext, fun l hl => hsees (hlocals l hl)⟩
    have hnot := hready.not_mem hexpr (hsubset hn)
    exact h'.types n (fun hmem => hnot (List.mem_append_right _ hmem)) hexpr
  · have hsame := h.symbols _ (hready.not_mem_left hexpr hmem) hexpr
    refine (h'.exprs file e hwrites hmem).imp (fun heq => heq.trans hsame) ?_
    rintro ⟨scope, t, hfile, hsubset, hruns, hext, hlocals⟩
    exact ⟨scope, t, hfile, List.subset_append_of_subset_right _ hsubset, hruns,
      h.comp.trans hext, fun l hl => hsees' (hlocals l hl)⟩

/-- Behind the first nodes, the next ones can be bound. -/
theorem ready (h : s.Bound p given own refs s') (hready : s.Ready p own (refs ++ refs'))
    (hvalid : s'.Valid) : s'.Ready p own refs' where
  valid := hvalid
  orderly := h.comp.orderly hready.orderly
  once n hn := Nat.le_trans
    (((List.sublist_append_right refs refs').append_left own).count_le n) (hready.once n hn)
  symbol? n hn hexpr := by
    rw [h.symbols n (hready.not_mem_left hexpr hn) hexpr]
    exact hready.symbol? n (List.mem_append_right _ hn) hexpr
  type? n hn hexpr := by
    have hnot := hready.not_mem_left hexpr hn
    rw [h.types n (fun hmem => hnot (List.mem_append_right _ hmem)) hexpr]
    exact hready.type? n (List.mem_append_right _ hn) hexpr

/-- More locals may be in scope. -/
theorem imp (h : s.Bound p given own refs s')
    (hgiven : ∀ l ∈ given, s.Sees p given' (own ++ refs) s' l) : s.Bound p given' own refs s' :=
  { h with
    exprs := fun file e hwrites hmem => (h.exprs file e hwrites hmem).imp_right fun
      | ⟨scope, t, hfile, hsubset, hruns, hext, hseen⟩ =>
        ⟨scope, t, hfile, hsubset, hruns, hext, fun l hl => (hseen l hl).elim (hgiven l) .inr⟩ }

/-- The locals that are in scope before and after may be others. -/
theorem congr (h : s.Bound p given own refs s') {before after : List (String × SymbolId)}
    (hlocals : ∀ l ∈ after, s.Sees p before (own ++ refs) s' l) :
    BindState.Bound p given own refs { s with locals := before } { s' with locals := after } where
  comp := h.comp
  types := h.types
  symbols := h.symbols
  declared := { h.declared with }
  locals := hlocals
  exprs file e hwrites hmem := (h.exprs file e hwrites hmem).imp_right fun
    | ⟨scope, t, hfile, hsubset, hruns, hext, hseen⟩ =>
      ⟨scope, t, hfile, hsubset, { hruns with }, hext, hseen⟩

/-- Locals go out of scope. -/
theorem withLocals (h : s.Bound p given own refs s') :
    s.Bound p given own refs { s' with locals := s.locals } :=
  h.congr fun _ hl => .inl hl

/-- Other locals have been in scope for a while. -/
theorem inFreshScope {locals : List (String × SymbolId)}
    (h : BindState.Bound p locals own refs { s with locals } s') :
    s.Bound p locals own refs { s' with locals := s.locals } :=
  h.congr fun _ hl => .inl hl

end Bound

/-- Nothing has been found out about expressions but symbols of the given ones and constants. -/
structure Keeps (p : Project) (own : List NodeRef) (s s' : BindState) : Prop where
  comp : s.comp.Extends s'.comp
  types : ∀ n, p.IsExpr n → s'.facts.type? n = s.facts.type? n
  declared : s'.facts.declared = s.facts.declared
  locals : s'.locals = s.locals
  symbols : ∀ n ∉ own, p.IsExpr n → s'.facts.symbol? n = s.facts.symbol? n

namespace Keeps

theorem refl (s : BindState) : s.Keeps p own s :=
  ⟨.refl _, fun _ _ => rfl, rfl, rfl, fun _ _ _ => rfl⟩

theorem trans (h : s.Keeps p own s') (h' : s'.Keeps p own s'') : s.Keeps p own s'' where
  comp := h.comp.trans h'.comp
  types n hexpr := (h'.types n hexpr).trans (h.types n hexpr)
  declared := h'.declared.trans h.declared
  locals := h'.locals.trans h.locals
  symbols n hn hexpr := (h'.symbols n hn hexpr).trans (h.symbols n hn hexpr)

theorem bound (h : s.Keeps p own s') (hnot : ∀ n ∈ refs, p.IsExpr n → n ∉ own) :
    s.Bound p given own refs s' where
  comp := h.comp
  types n _ := h.types n
  symbols n hn := h.symbols n fun hmem => hn (List.mem_append_left _ hmem)
  declared := .of_eq h.comp.keepsPlaces h.declared
  locals _ hl := .inl (h.locals ▸ hl)
  exprs file e hwrites hmem :=
    have hexpr : p.IsExpr ⟨file, e.id⟩ := ⟨e, hwrites, rfl⟩
    .inl (h.symbols _ (hnot _ hmem hexpr) hexpr)

end Keeps

/-- A step that finds out nothing comes last. -/
theorem Bound.keep (h : s.Bound p s.locals own refs s') (hready : s.Ready p own refs)
    (h' : s'.Keeps p own s'') : s.Bound p s.locals own refs s'' := by
  have hlast : s'.Bound p s'.locals own [] s'' := h'.bound fun _ hn => by cases hn
  rw [← refs.append_nil] at hready ⊢
  exact h.trans hready hlast

end BindState

/-! ## Steps -/

variable {p : Project} {own refs refs' : List NodeRef} {s s' : BindState} {scope : Scope} {e : Expr}
  {c c' : Compilation}

namespace Binder

variable {α β : Type} {step : Binder α} {post : Compilation → α → Prop} {f : α → Binder β}
  {ns ns' : List SyntaxNode}

/-- From a state with at least the symbols of `c` in which the nodes can be bound, the step binds
them. -/
def Binds (p : Project) (c : Compilation) (own refs : List NodeRef) (step : Binder α) : Prop :=
  ∀ s : BindState, s.Ready p own refs → c ≤ s.comp → s.Bound p s.locals own refs (step.run s).2

/-- The step binds the nodes, no other locals are in scope than they bring into scope, and these go
out of scope again. -/
def Isolates (p : Project) (c : Compilation) (own refs : List NodeRef) (step : Binder α) : Prop :=
  ∀ s : BindState, s.Ready p own refs → c ≤ s.comp →
    s.Bound p [] own refs (step.run s).2 ∧ (step.run s).2.locals = s.locals

/-- The step binds some nodes and then the others, for which no other locals are in scope than they
bring into scope. -/
def Splits (p : Project) (c : Compilation) (refs refs' : List NodeRef) (step : Binder α) : Prop :=
  ∀ s : BindState, s.Ready p [] (refs ++ refs') → c ≤ s.comp →
    ∃ s₁, s.Bound p s.locals [] refs s₁ ∧ s₁.Bound p [] [] refs' (step.run s).2 ∧
      (step.run s).2.locals = s₁.locals

/-- The step finds out nothing but symbols of the given nodes and constants. -/
def Keeps (p : Project) (own : List NodeRef) (step : Binder α) : Prop :=
  ∀ s : BindState, s.Keeps p own (step.run s).2

/-- The step binds the parts of an expression, and then it records what the expression means. -/
def Closes (p : Project) (c : Compilation) (scope : Scope) (e : Expr) (ns : List SyntaxNode)
    (step : Binder Meaning) : Prop :=
  ∀ s : BindState, s.Ready p [⟨scope.file, e.id⟩] (scope.refs ns) → c ≤ s.comp →
    ∃ m s₁, s.Bound p s.locals [⟨scope.file, e.id⟩] (scope.refs ns) s₁ ∧
      step.run s = (recordMeaning scope e.node m).run s₁

namespace Binds

theorem pure (a : α) : Binds p c own refs (pure a) := fun s _ _ => .refl s

theorem bind (hfinds : Finds Set.univ c step post) (h : Binds p c own refs step)
    (hf : ∀ c' a, c ≤ c' → post c' a → Binds p c' own refs' (f a)) :
    Binds p c own (refs ++ refs') (step >>= f) := by
  intro s hready hle
  obtain ⟨hlead, hpost⟩ := hfinds s hready.valid hle
  have hbound := h s hready.left hle
  exact hbound.trans hready
    (hf _ _ (le_trans hle hlead.comp) hpost _ (hbound.ready hready hlead.valid) (le_refl _))

theorem after (h : Binds p c own refs step) (hle : c ≤ c') : Binds p c' own refs step :=
  fun s hready hle' => h s hready (le_trans hle hle')

/-- The order in which the nodes are written does not matter. -/
theorem perm (h : Binds p c own refs step) (hperm : refs.Perm refs') : Binds p c own refs' step := by
  intro s hready hle
  refine (h s (hready.perm (hperm.symm.append_left own) hperm.subset) hle).more
    (List.Subset.refl _) hperm.subset fun n hn _ => .inr (hperm.mem_iff.2 hn)

/-- There may be more nodes, which are not bound. -/
theorem more (h : Binds p c own refs step) : Binds p c own (refs ++ refs') step := by
  intro s hready hle
  refine (h s hready.left hle).more (List.Subset.refl _) (List.subset_append_left _ _)
    fun n hn hexpr => (List.mem_append.1 hn).symm.imp (fun hn hown => ?_) fun hn => hn
  exact hready.not_mem_left hexpr hn (List.mem_append_left _ hown)

/-- The first node may be one that is not bound. -/
theorem skip {n : NodeRef} (h : Binds p c own refs step) : Binds p c own (n :: refs) step :=
  h.more.perm (List.perm_append_singleton n refs)

/-- Nodes in front may be ones that are not bound. -/
theorem drop (h : Binds p c own refs' step) : Binds p c own (refs ++ refs') step :=
  h.more.perm List.perm_append_comm

/-- A step that looks at the symbols. -/
theorem comp {f : Compilation → Binder β}
    (h : ∀ c', c'.Valid → c ≤ c' → Binds p c' own refs (f c')) :
    Binds p c own refs (Binder.comp >>= f) :=
  fun s hready hle => h s.comp hready.valid.comp hle s hready (le_refl _)

/-- A last step that finds out nothing. -/
theorem keep (h : Binds p c own refs step) (hf : ∀ a, Keeps p own (f a)) :
    Binds p c own refs (step >>= f) :=
  fun s hready hle => (h s hready hle).keep hready (hf _ _)

theorem map (h : Binds p c own refs step) (g : α → β) :
    Binds p c own refs (step >>= fun a => Pure.pure (g a)) := fun s hready hle => h s hready hle

/-- Nothing is found out about the expression around the nodes. -/
theorem within (h : Binds p c [] refs step) : Binds p c own refs step := by
  intro s hready hle
  exact (h s hready.within hle).more (List.nil_subset _) (List.Subset.refl _) fun _ hn _ => .inr hn

theorem withLocals (h : Binds p c own refs step) : Binds p c own refs (Binder.withLocals step) :=
  fun s hready hle => (h s hready hle).withLocals

theorem inFreshScope (h : Binds p c own refs step) :
    Isolates p c own refs (Binder.inFreshScope [] step) := fun s hready hle =>
  ⟨(h { s with locals := [] }
    { hready with valid := { hready.valid with locals := List.forall_mem_nil _ } }
    hle).inFreshScope, rfl⟩

theorem discard (h : Binds p c own refs step) : Binds p c own refs (Functor.discard step) :=
  fun s hready hle => h s hready hle

theorem forM {as : List α} {f : α → Binder Unit} {refs : α → List NodeRef}
    (hfinds : ∀ a ∈ as, Finds Set.univ c (f a) fun _ _ => True)
    (h : ∀ a ∈ as, Binds p c own (refs a) (f a)) :
    Binds p c own (as.flatMap refs) (as.forM f) := by
  induction as with
  | nil => exact .pure _
  | cons a as ih =>
    rw [List.forM_eq_forM, List.forM_cons, List.flatMap_cons]
    refine (h a (.head _)).bind (hfinds a (.head _)) fun c' _ hle _ => Binds.after ?_ hle
    exact ih (fun b hb => hfinds b (.tail _ hb)) fun b hb => h b (.tail _ hb)

end Binds

theorem Isolates.binds (h : Isolates p c own refs step) : Binds p c own refs step :=
  fun s hready hle => (h s hready hle).1.imp (List.forall_mem_nil _)

/-- A step that looks at the state. -/
theorem Isolates.get {f : BindState → Binder β}
    (h : ∀ s : BindState, s.Valid → c ≤ s.comp → Isolates p s.comp own refs (f s)) :
    Isolates p c own refs (MonadState.get >>= f) :=
  fun s hready hle => h s hready.valid hle s hready (le_refl _)

/-- A step that looks something up comes first. -/
theorem Isolates.query (hfinds : Finds Set.univ c step post)
    (hquery : ∀ s, (step.run s).2 = s)
    (hf : ∀ c' a, c ≤ c' → post c' a → Isolates p c' own refs (f a)) :
    Isolates p c own refs (step >>= f) := by
  intro s hready hle
  obtain ⟨hlead, hpost⟩ := hfinds s hready.valid hle
  rw [hquery] at hlead hpost
  have hrun : (step >>= f).run s = (f (step.run s).1).run s := by
    change (f (step.run s).1).run (step.run s).2 = _
    rw [hquery]
  rw [hrun]
  exact hf _ _ hle hpost s hready (le_refl _)

/-- There may be more nodes in front, which are not bound. -/
theorem Isolates.drop (h : Isolates p c own refs' step) : Isolates p c own (refs ++ refs') step := by
  intro s hready hle
  obtain ⟨hbound, hlocals⟩ := h s hready.right hle
  refine ⟨hbound.more (List.Subset.refl _) (List.subset_append_right _ _) fun n hn hexpr => ?_,
    hlocals⟩
  exact (List.mem_append.1 hn).imp (hready.left.not_mem_own hexpr) fun hn => hn

namespace Splits

/-- A step that binds shared nodes comes in front of one with a scope of its own. -/
theorem bind (hfinds : Finds Set.univ c step post) (h : Binds p c [] refs step)
    (hf : ∀ c' a, c ≤ c' → post c' a → Isolates p c' [] refs' (f a)) :
    Splits p c refs refs' (step >>= f) := by
  intro s hready hle
  obtain ⟨hlead, hpost⟩ := hfinds s hready.valid hle
  have hbound := h s hready.left hle
  obtain ⟨hrest, hlocals⟩ := hf _ _ (le_trans hle hlead.comp) hpost _
    (hbound.ready hready hlead.valid) (le_refl _)
  exact ⟨_, hbound, hrest, hlocals⟩

/-- A step in one scope. -/
theorem of_binds (h : Binds p c [] refs step) : Splits p c refs [] step := by
  intro s hready hle
  rw [List.append_nil] at hready
  exact ⟨_, h s hready hle, .refl _, rfl⟩

end Splits

namespace Keeps

theorem pure (a : α) : Keeps p own (pure a) := fun s => .refl s

theorem bind (h : Keeps p own step) (hf : ∀ a, Keeps p own (f a)) : Keeps p own (step >>= f) :=
  fun s => (h s).trans (hf (step.run s).1 (step.run s).2)

/-- A step that looks at the state. -/
theorem get {f : BindState → Binder β} (h : ∀ s, Keeps p own (f s)) :
    Keeps p own (MonadState.get >>= f) := fun s => h s s

/-- A step that looks at the symbols. -/
theorem comp {f : Compilation → Binder β} (h : ∀ c, Keeps p own (f c)) :
    Keeps p own (Binder.comp >>= f) := fun s => h s.comp s

theorem inFreshScope (h : Keeps p own step) (locals : List (String × SymbolId)) :
    Keeps p own (Binder.inFreshScope locals step) :=
  fun s => { h { s with locals } with locals := rfl }

theorem binds (h : Keeps p own step) : Binds p c own refs step :=
  fun s hready _ => (h s).bound fun _ hn hexpr => hready.not_mem_own hexpr hn

end Keeps

/-- A step that only constructs types and says nothing about expressions. -/
theorem Calm.keeps {left : α → List NodeRef} (h : Calm step)
    (hrecords : Records p True [] step left) : Keeps p own step := by
  intro s
  have hcalm := h s
  refine ⟨hcalm.comp, fun n _ => ?_, hcalm.declared, hcalm.locals, fun n _ hexpr => ?_⟩
  · rw [Facts.type?, hcalm.types, Facts.type?]
  obtain ⟨new, hnew, hmost, -, -⟩ := hrecords s
  have hcount := hmost n hexpr
  rw [List.count_append, List.count_nil] at hcount
  have hnone : n ∉ new.map Prod.fst := fun hmem => by
    have := List.count_pos_iff.2 hmem
    omega
  rw [Facts.symbol?, hnew, List.lookup_append, List.lookup_eq_none_iff.2, Option.none_or,
    Facts.symbol?]
  intro r hr
  exact bne_iff_ne.2 fun heq => hnone (heq ▸ List.mem_map_of_mem hr)

theorem Calm.keeps_of_quiet (h : Calm step) (hquiet : Quiet step) : Keeps p own step :=
  have hrecords : Records p True [] step fun _ => [] := hquiet.records
  h.keeps hrecords

namespace Closes

theorem bind (hfinds : Finds Set.univ c step post)
    (h : Binds p c [⟨scope.file, e.id⟩] (scope.refs ns) step) {f : α → Binder Meaning}
    (hf : ∀ c' a, c ≤ c' → post c' a → Closes p c' scope e ns' (f a)) :
    Closes p c scope e (ns ++ ns') (step >>= f) := by
  intro s hready hle
  rw [Scope.refs_append] at hready
  obtain ⟨hlead, hpost⟩ := hfinds s hready.valid hle
  have hbound := h s hready.left hle
  obtain ⟨m, s₁, hrest, hrun⟩ := hf _ _ (le_trans hle hlead.comp) hpost _
    (hbound.ready hready hlead.valid) (le_refl _)
  refine ⟨m, s₁, ?_, hrun⟩
  rw [Scope.refs_append]
  exact hbound.trans hready hrest

/-- The last step that binds parts. -/
theorem last (hfinds : Finds Set.univ c step post)
    (h : Binds p c [⟨scope.file, e.id⟩] (scope.refs ns) step) {f : α → Binder Meaning}
    (hf : ∀ c' a, c ≤ c' → post c' a → Closes p c' scope e [] (f a)) :
    Closes p c scope e ns (step >>= f) := by
  rw [← ns.append_nil]
  exact bind hfinds h hf

/-- The last step before the meaning is recorded. -/
theorem record (h : Binds p c [⟨scope.file, e.id⟩] (scope.refs ns) step) (g : α → Meaning) :
    Closes p c scope e ns (step >>= fun a => recordMeaning scope e.node (g a)) :=
  fun s hready hle => ⟨g (step.run s).1, (step.run s).2, h s hready hle, rfl⟩

theorem meaning (m : Meaning) : Closes p c scope e ns (recordMeaning scope e.node m) :=
  fun s _ _ => ⟨m, s, .refl s, rfl⟩

/-- What is written last is bound first. -/
theorem swap {step : Binder Meaning} (h : Closes p c scope e (ns' ++ ns) step) :
    Closes p c scope e (ns ++ ns') step := by
  intro s hready hle
  have hperm : (scope.refs (ns ++ ns')).Perm (scope.refs (ns' ++ ns)) :=
    List.perm_append_comm.map _
  obtain ⟨m, s₁, hbound, hrun⟩ :=
    h s (hready.perm (hperm.append_left _) hperm.symm.subset) hle
  exact ⟨m, s₁, hbound.more (List.Subset.refl _) hperm.symm.subset
    fun n hn _ => .inr (hperm.mem_iff.1 hn), hrun⟩

end Closes

end Binder

/-! ## Recorded meanings -/

section recordMeaning

variable {node : Node} {m : Meaning}

theorem recordMeaning_result (scope : Scope) (node : Node) (m : Meaning) (s : BindState) :
    ((recordMeaning scope node m).run s).1 = m := by
  unfold recordMeaning
  split <;> rfl

/-- The type of a value is recorded. -/
theorem recordMeaning_type? (h : s.facts.type? ⟨scope.file, node.id⟩ = none) :
    ((recordMeaning scope node m).run s).2.facts.type? ⟨scope.file, node.id⟩ = m.valueType? := by
  unfold recordMeaning
  split
  next t => exact List.lookup_cons_self
  next => exact h
  next hvalue _ =>
    have hnone : m.valueType? = none := by
      cases m with
      | value found =>
        cases found with
        | some t => exact absurd rfl (hvalue t)
        | none => rfl
      | _ => rfl
    rw [hnone]
    exact h

/-- Nothing else is recorded. -/
theorem recordMeaning_frame (scope : Scope) (node : Node) (m : Meaning) (s : BindState) :
    ((recordMeaning scope node m).run s).2.comp = s.comp ∧
    ((recordMeaning scope node m).run s).2.facts.declared = s.facts.declared ∧
    ((recordMeaning scope node m).run s).2.locals = s.locals ∧ ∀ n ≠ ⟨scope.file, node.id⟩,
      ((recordMeaning scope node m).run s).2.facts.type? n = s.facts.type? n ∧
      ((recordMeaning scope node m).run s).2.facts.symbol? n = s.facts.symbol? n := by
  have hlookup {n n' : NodeRef} (hne : n ≠ n') (t : SymbolId) (rs : List (NodeRef × SymbolId)) :
      ((n', t) :: rs).lookup n = rs.lookup n := by
    rw [List.lookup_cons, beq_eq_false_iff_ne.2 hne]
  unfold recordMeaning
  split
  next t => exact ⟨rfl, rfl, rfl, fun n hn => ⟨hlookup hn t _, rfl⟩⟩
  next t => exact ⟨rfl, rfl, rfl, fun n hn => ⟨rfl, hlookup hn t _⟩⟩
  next => exact ⟨rfl, rfl, rfl, fun _ _ => ⟨rfl, rfl⟩⟩

end recordMeaning

/-- An expression stands in front of its parts. -/
theorem Expr.nodes_eq_cons (e : Expr) : e.nodes = .expr e :: e.nodes.tail := by
  rcases e with _ | _ | _ | _ | _ | ⟨_, _, ⟨_, _⟩⟩ | ⟨_, _, _ | ⟨_, _⟩⟩ | ⟨_, _, _ | _⟩ | _ | _ | _ |
    _ | _ | _ | _ | _ | _ | _ <;> rfl

theorem Scope.refs_expr (scope : Scope) (e : Expr) :
    scope.refs e.nodes = ⟨scope.file, e.id⟩ :: scope.refs e.nodes.tail :=
  congrArg scope.refs e.nodes_eq_cons

namespace BindState.Ready

/-- The parts of an expression can be bound. -/
theorem parts (h : s.Ready p [] (scope.refs e.nodes)) :
    s.Ready p [⟨scope.file, e.id⟩] (scope.refs e.nodes.tail) := by
  rw [Scope.refs_expr] at h
  exact h.perm (.refl _) (List.subset_cons_self _ _)

/-- An expression is none of its parts. -/
theorem not_mem_parts (h : s.Ready p [] (scope.refs e.nodes)) (hexpr : p.IsExpr ⟨scope.file, e.id⟩) :
    ⟨scope.file, e.id⟩ ∉ scope.refs e.nodes.tail := by
  have hmem : ⟨scope.file, e.id⟩ ∈ [(⟨scope.file, e.id⟩ : NodeRef)] := .head _
  rw [Scope.refs_expr] at h
  exact Ready.not_mem h hexpr hmem

end BindState.Ready

namespace Binder.Closes

/-- The type of an expression is that of its meaning. -/
theorem type? (h : Closes p c scope e e.nodes.tail (bindExpr scope e))
    (hwithin : scope.Within p e.nodes) (hready : s.Ready p [] (scope.refs e.nodes))
    (hle : c ≤ s.comp) :
    ((bindExpr scope e).run s).2.facts.type? ⟨scope.file, e.id⟩ =
      ((bindExpr scope e).run s).1.valueType? := by
  obtain ⟨m, s₁, hbound, hrun⟩ := h s hready.parts hle
  have hexpr : p.IsExpr ⟨scope.file, e.id⟩ := ⟨e, hwithin.writes e.mem_nodes, rfl⟩
  have hmem : ⟨scope.file, e.id⟩ ∈ scope.refs e.nodes := List.mem_map_of_mem e.mem_nodes
  rw [hrun, recordMeaning_result]
  refine recordMeaning_type? ?_
  exact (hbound.types _ (hready.not_mem_parts hexpr) hexpr).trans (hready.type? _ hmem hexpr)

/-- An expression is bound when its parts have been bound and its meaning is recorded. -/
theorem binds (h : Closes p c scope e e.nodes.tail (bindExpr scope e)) (hp : p.IsRead)
    (hscope : scope.Sound c) (hwithin : scope.Within p e.nodes) :
    Binds p c own (scope.refs e.nodes) (bindExpr scope e) := by
  refine Binds.within fun s hready hle => ?_
  obtain ⟨m, s₁, hbound, hrun⟩ := h s hready.parts hle
  obtain ⟨hcomp, hdeclared, hlocals, hframe⟩ := recordMeaning_frame scope e.node m s₁
  rw [← hrun] at hcomp hdeclared hlocals hframe
  have hrefs := scope.refs_expr e
  have hlater : s₁.comp.Extends ((bindExpr scope e).run s).2.comp := by
    rw [hcomp]
    exact .refl _
  have hsees {l : String × SymbolId}
      (hl : s.Sees p s.locals ([⟨scope.file, e.id⟩] ++ scope.refs e.nodes.tail) s₁ l) :
      s.Sees p s.locals ([] ++ scope.refs e.nodes) ((bindExpr scope e).run s).2 l := by
    refine hl.mono ?_ hlater (by rw [hdeclared]; exact List.Subset.refl _)
    rw [hrefs]
    exact List.Subset.refl _
  refine
    { comp := hbound.comp.trans hlater
      types := fun n hn hexpr => ?_
      symbols := fun n hn hexpr => ?_
      declared := hbound.declared.trans (.of_eq hlater.keepsPlaces hdeclared)
      locals := fun l hl => hsees (hbound.locals l (hlocals ▸ hl))
      exprs := fun file e' hwrites hmem => ?_ }
  · rw [hrefs, List.mem_cons, not_or] at hn
    exact (hframe n hn.1).1.trans (hbound.types n hn.2 hexpr)
  · rw [List.nil_append, hrefs] at hn
    exact (hframe n fun heq => hn (heq ▸ .head _)).2.trans (hbound.symbols n hn hexpr)
  by_cases heq : (⟨file, e'.id⟩ : NodeRef) = ⟨scope.file, e.id⟩
  · -- the expression itself is bound from the first state
    obtain ⟨rfl, hid⟩ := NodeRef.mk.inj heq
    obtain rfl := (hwithin.writes e.mem_nodes).unique hp hwrites hid
    refine .inr ⟨scope, s, rfl, List.Subset.refl _, ?_, .refl _, fun l hl => .inl hl⟩
    exact ⟨hready, hscope.mono hle, hwithin, .refl _, fun _ _ _ => rfl, .inl rfl⟩
  · rw [hrefs] at hmem
    have hsame := (hframe _ heq).2
    refine (hbound.exprs file e' hwrites ((List.mem_cons.1 hmem).resolve_left heq)).imp hsame.trans ?_
    rintro ⟨scope', t, rfl, hsubset, hruns, hext, hseen⟩
    refine ⟨scope', t, rfl, ?_, hruns.later hlater (fun n hn hexpr => (hframe n ?_).1) hsame, hext,
      fun l hl => hsees (hseen l hl)⟩
    · rw [hrefs]
      exact List.subset_cons_of_subset _ hsubset
    · rintro rfl
      exact hready.not_mem_parts hexpr (hsubset hn)

end Binder.Closes

end PropertyLint
