/-
# What brings local names into scope

A local or a parameter that a name is bound to was in scope when the name was bound
(`BindState.Runs.mem_locals`), so the name stands in an area in which the local comes into scope
(`Project.BoundIn.exists_brings`).  A local comes into scope in one stretch only
(`Project.BoundIn.brings_unique`), where a node introduces it (`Project.Introduces`), so all names
that are bound to it stand in that area.
-/
import PropertyLint.Proofs.Binding.Inverse

namespace PropertyLint

open Binder BindState

/-- A local variable or a parameter. -/
def Symbol.IsLocal : Symbol → Prop
  | .localVar _ | .parameter _ => True
  | .type _ | .method _ | .field _ | .property _ => False

variable {p : Project} {c : Compilation} {scope : Scope} {node : Node} {s s' t : BindState}
  {id m : SymbolId} {n : NodeRef} {ids : Set SymbolId} {α β : Type} {step : Binder α}

/-! ## What a name is bound to -/

theorem Compilation.not_isMember_of_isLocal {symbol : Symbol} (h : c.symbol? id = some symbol)
    (hlocal : symbol.IsLocal) : c.isMember id ≠ true := by
  cases symbol with
  | localVar _ | parameter _ => simp [isMember, h]
  | _ => exact hlocal.elim

theorem Compilation.not_isType_of_isLocal {symbol : Symbol} (h : c.symbol? id = some symbol)
    (hlocal : symbol.IsLocal) : ¬ c.IsType id := by
  rintro ⟨t, ht⟩
  obtain rfl := Option.some.inj (h.symm.trans ht)
  exact hlocal

theorem Compilation.isMember_of_method? (h : (c.method? id).isSome = true) :
    c.isMember id = true := by
  obtain ⟨method, hmethod⟩ := Option.isSome_iff_exists.1 h
  obtain ⟨symbol, hsymbol, hmethod⟩ := Option.bind_eq_some_iff.1 hmethod
  cases symbol with
  | method _ => simp [isMember, hsymbol]
  | _ => cases hmethod

/-- The members that a type has are members. -/
theorem Compilation.Orderly.isMember_of_mem_lookupMembers (h : c.Orderly) {owner : SymbolId}
    {name : String} (hm : m ∈ c.lookupMembers owner name) : c.isMember m = true := by
  obtain ⟨base, -, hm⟩ := List.mem_flatMap.1 hm
  have hm := (List.mem_filter.1 hm).1
  cases ht : c.type? (c.definition base) with
  | none => simp [ht] at hm
  | some t =>
    rw [ht] at hm
    exact Symbol.orderly_type.1 (h.symbols _ _ (Compilation.symbol?_of_type? ht)) m hm

/-- If the node gets a symbol in the step, then one of the given ones. -/
def Binder.Assigns (n : NodeRef) (ids : Set SymbolId) (step : Binder α) : Prop :=
  ∀ (s : BindState) (id : SymbolId), (step.run s).2.facts.symbol? n = some id →
    s.facts.symbol? n = some id ∨ id ∈ ids

namespace Binder.Assigns

theorem pure (a : α) : Assigns n ids (pure a) := fun _ _ hid => .inl hid

theorem bind {f : α → Binder β} (h : Assigns n ids step) (hf : ∀ a, Assigns n ids (f a)) :
    Assigns n ids (step >>= f) := fun s id hid =>
  (hf (step.run s).1 (step.run s).2 id hid).elim (h s id) .inr

/-- A step that looks at the symbols. -/
theorem comp {f : Compilation → Binder β} (h : ∀ c, Assigns n ids (f c)) :
    Assigns n ids (Binder.comp >>= f) := fun s => h s.comp s

/-- A step that looks at the state. -/
theorem get {f : BindState → Binder β} (h : ∀ s, Assigns n ids (f s)) :
    Assigns n ids (MonadState.get >>= f) := fun s => h s s

/-- A step that looks at the state, in a certain state. -/
theorem get_run {f : BindState → Binder β} (h : Assigns n ids (f s))
    (hid : ((MonadState.get >>= f).run s).2.facts.symbol? n = some id) :
    s.facts.symbol? n = some id ∨ id ∈ ids := h s id hid

theorem recordSymbol (hid : id ∈ ids) :
    Assigns ⟨scope.file, node.id⟩ ids (Binder.recordSymbol scope node.id id) := by
  intro s id' hid'
  obtain rfl := Option.some.inj (List.lookup_cons_self.symm.trans hid')
  exact .inr hid

end Binder.Assigns

theorem Binder.Keeps.assigns (h : Keeps p [] step) (hexpr : p.IsExpr n) : Assigns n ids step :=
  fun s _ hid => .inl ((h s).symbols n List.not_mem_nil hexpr ▸ hid)

theorem memberMeaning_assigns (hexpr : p.IsExpr ⟨scope.file, node.id⟩) {members : List SymbolId}
    (h : ∀ m ∈ members, m ∈ ids) :
    Assigns ⟨scope.file, node.id⟩ ids (memberMeaning scope node members) := by
  refine .get fun s => ?_
  cases members with
  | nil => exact .pure _
  | cons first rest =>
    dsimp only
    split
    · exact .pure _
    · refine (Assigns.recordSymbol (h first (.head _))).bind fun _ => ?_
      split
      · exact ((recordConstant_keeps node.id _).assigns hexpr).bind fun _ => .pure _
      · exact .pure _

/-- A name gets the symbol of a local that is in scope under it, or of a member. -/
theorem bindIdentifier_symbol? (horderly : s.comp.Orderly) (hexpr : p.IsExpr ⟨scope.file, node.id⟩)
    {name : String} (hid : ((bindIdentifier scope node name).run s).2.facts.symbol?
      ⟨scope.file, node.id⟩ = some id) : s.facts.symbol? ⟨scope.file, node.id⟩ = some id ∨
        id ∈ {id | (name, id) ∈ s.locals ∨ s.comp.isMember id = true} := by
  refine Assigns.get_run ?_ hid
  split
  next found hfound =>
    exact (Assigns.recordSymbol (.inl (mem_of_lookup hfound))).bind fun _ => .pure _
  next =>
    dsimp only
    split
    next members hfind =>
      obtain ⟨owner, -, rfl⟩ := List.mem_map.1 (List.mem_of_find?_eq_some hfind)
      exact memberMeaning_assigns hexpr fun m hm => .inr (horderly.isMember_of_mem_lookupMembers hm)
    next =>
      refine (simpleType_keeps name []).assigns hexpr |>.bind fun found => ?_
      cases found with
      | some t => exact .pure _
      | none => exact .comp fun _ => .pure _

/-- Of meanings only a type is recorded as a symbol. -/
theorem recordMeaning_symbol? {meaning : Meaning}
    (hid : ((recordMeaning scope node meaning).run s).2.facts.symbol? ⟨scope.file, node.id⟩ =
      some id) : s.facts.symbol? ⟨scope.file, node.id⟩ = some id ∨ meaning = .type id := by
  unfold recordMeaning at hid
  split at hid
  next => exact .inl hid
  next t =>
    obtain rfl := Option.some.inj (List.lookup_cons_self.symm.trans hid)
    exact .inr rfl
  next => exact .inl hid

/-- A name that is bound to no member and to no type is bound to a local that was in scope. -/
theorem BindState.Runs.mem_locals {name : Ident} (h : t.Runs p scope (.identifier node name) s')
    (hid : s'.facts.symbol? ⟨scope.file, node.id⟩ = some id) :
    (name.text, id) ∈ t.locals ∨ s'.comp.isMember id = true ∨ s'.comp.IsType id := by
  have hmem : ⟨scope.file, node.id⟩ ∈ scope.refs (Expr.identifier node name).nodes :=
    List.mem_map_of_mem (Expr.mem_nodes _)
  have hexpr : p.IsExpr ⟨scope.file, node.id⟩ := ⟨_, h.within.writes (Expr.mem_nodes _), rfl⟩
  rcases h.symbol with hsame | ⟨-, method, hmethod, hfound⟩
  · obtain ⟨hlead, hsound⟩ := bindIdentifier_finds h.sound (Set.mem_univ _) name.text t
      h.ready.valid (le_refl _)
    have hcomp := h.comp
    have hrun : (bindExpr scope (.identifier node name)).run t =
        (recordMeaning scope node ((bindIdentifier scope node name.text).run t).1).run
          ((bindIdentifier scope node name.text).run t).2 := by
      rw [bindExpr]
      rfl
    obtain ⟨hlast, -⟩ := recordMeaning_frame scope node
      ((bindIdentifier scope node name.text).run t).1
      ((bindIdentifier scope node name.text).run t).2
    rw [hrun] at hcomp hsame
    rw [hlast] at hcomp
    rcases recordMeaning_symbol? (hsame.symm.trans hid) with hid | htype
    · rcases bindIdentifier_symbol? h.ready.orderly hexpr hid with hid | hlocal | hmember
      · rw [h.ready.symbol? _ hmem hexpr] at hid
        cases hid
      · exact .inl hlocal
      · exact .inr (.inl (Compilation.isMember_of_le hmember (le_trans hlead.comp hcomp.le)))
    · rw [htype] at hsound
      exact .inr (.inr (Compilation.IsType.mono hsound hcomp.le))
  · obtain rfl := Option.some.inj (hmethod.symm.trans hid)
    exact .inr (.inl (Compilation.isMember_of_method? hfound))

/-! ## What introduces a local -/

/-- Two elements of a list are the same or one of them comes first. -/
theorem eq_or_of_pairwise {R : α → α → Prop} {as : List α} (h : as.Pairwise R) {a b : α}
    (ha : a ∈ as) (hb : b ∈ as) : a = b ∨ R a b ∨ R b a := by
  obtain ⟨i, hi, rfl⟩ := List.getElem_of_mem ha
  obtain ⟨j, hj, rfl⟩ := List.getElem_of_mem hb
  rw [List.pairwise_iff_getElem] at h
  rcases Nat.lt_trichotomy i j with hlt | rfl | hlt
  · exact .inr (.inl (h i j hi hj hlt))
  · exact .inl rfl
  · exact .inr (.inr (h j i hj hi hlt))

/-- Only a declaration of a local introduces a symbol that is declared somewhere. -/
theorem SyntaxNode.place_of_introduced? {x : SyntaxNode} {file : Option FileId}
    {type : Option SymbolId} {symbol : Symbol} {place : SourceRef}
    (h : x.introduced? file type = some symbol) (hplace : symbol.declaration? = some place) :
    (∃ stmt, x = .stmt stmt) ∧ (⟨some place.file, place.node⟩ : NodeRef) = ⟨file, x.node.id⟩ := by
  unfold SyntaxNode.introduced? at h
  split at h
  next =>
    obtain rfl := Option.some.inj h
    obtain ⟨file, rfl, rfl⟩ := Option.map_eq_some_iff.1 hplace
    exact ⟨⟨_, rfl⟩, rfl⟩
  next =>
    obtain rfl := Option.some.inj h
    cases hplace
  next =>
    split at h
    · obtain rfl := Option.some.inj h
      cases hplace
    · cases h
  next => cases h

namespace Project

variable {x x' : SyntaxNode} {name name' : String} {rs : List Stretch} {r r' : Stretch}

/-- The node of the file brings a local into scope under the name. -/
def Introduces (p : Project) (file : FileId) (x : SyntaxNode) (name : String) (id : SymbolId) :
    Prop :=
  (∃ type symbol, x.introduced? (some file) type = some symbol ∧ symbol.name = name ∧
      p.comp.symbol? id = some symbol) ∨
    ∃ q, x = .parameter q ∧ q.name.text = name ∧ p.comp.DeclaredAt ⟨some file, q.node.id⟩ id

theorem HasNode.unique (h : p.HasNode n x) (hp : p.IsRead) (h' : p.HasNode n x') : x = x' := by
  obtain ⟨t, ht, hfile, hx, hid⟩ := h
  obtain ⟨t', ht', hfile', hx', hid'⟩ := h'
  obtain rfl := hp.tree_unique ht ht' (Option.some.inj (hfile.symm.trans hfile'))
  obtain ⟨text, htext⟩ := hp.parse t ht
  exact SyntaxTree.eq_of_id_eq htext hx hx' (hid.trans hid'.symm)

/-- What a node other than a type has come to declare is declared there. -/
theorem IsBound.declaredAt (hp : p.IsBound) (hx : p.HasNode n x) (hno : ∀ d, x ≠ .member (.type d))
    (hmem : (n, id) ∈ p.facts.declared) : p.comp.DeclaredAt n id := by
  obtain ⟨new, hnew, -, hat⟩ := hp.facts_declared
  have hnot := hx.not_mem_typeRefs hp.toIsRead hno
  obtain ⟨t, -, hfile, -⟩ := hx
  rw [hnew, List.mem_append] at hmem
  rcases hmem with hlater | htypes
  · exact (hat _ hlater).2 (by rw [hfile, Option.isSome_some])
  · obtain ⟨d, hd, heq⟩ := List.mem_map.1 (List.mem_reverse.1 htypes)
    obtain ⟨rfl, -⟩ := Prod.mk.inj heq
    have hfile : d.source.file = some t.file := hfile
    exact absurd (hp.ref_mem_typeRefs hd (by rw [hfile, Option.isSome_some])) hnot

theorem IsBound.comp_extends (hp : p.IsBound) :
    (p.stage p.constFields.length).comp.Extends p.comp := by
  rw [hp.comp_eq_stage (Nat.le_refl _)]
  exact Compilation.extends_withKnown _

theorem BoundIn.count_le (hrs : p.BoundIn rs) (hp : p.IsRead) (hn : n.file.isSome = true) :
    (rs.flatMap fun r => r.refs).count n ≤ 1 := by
  have hrefs : (rs.flatMap fun r => r.refs) = boundRefs p.sources := by
    rw [boundRefs_eq, ← flatMap_portions, ← hrs.portions, List.flatMap_map]
  rw [hrefs]
  exact hp.count_boundRefs_le hn

/-- A node of a file is bound in one stretch. -/
theorem BoundIn.stretch_unique (hrs : p.BoundIn rs) (hp : p.IsRead) (hn : n.file.isSome = true)
    (hr : r ∈ rs) (hr' : r' ∈ rs) (hmem : n ∈ r.refs) (hmem' : n ∈ r'.refs) : r = r' := by
  obtain ⟨i, hi⟩ := List.mem_iff_getElem?.1 hr
  obtain ⟨j, hj⟩ := List.mem_iff_getElem?.1 hr'
  obtain rfl := eq_of_count_flatMap_le (hrs.count_le hp hn) hi hj hmem hmem'
  exact Option.some.inj (hi.symm.trans hj)

/-- A local that comes into scope in a stretch is introduced by one of its nodes. -/
theorem BoundIn.introduces (hrs : p.BoundIn rs) (hp : p.IsBound) (hr : r ∈ rs)
    (h : r.Brings p (name, id)) :
    ∃ n ∈ r.refs, ∃ t ∈ p.trees, ∃ x ∈ t.root.nodes, n = ⟨some t.file, x.node.id⟩ ∧
      p.Introduces t.file x name id := by
  obtain ⟨n, hn, x, hx, hlocal⟩ := h
  have hlasts := hrs.encloses.lasts r hr
  have hnode := hx
  obtain ⟨t, ht, hfile, hx, hid⟩ := hx
  have hn' : n = ⟨some t.file, x.node.id⟩ := by rw [← hfile, hid]
  refine ⟨n, hn, t, ht, x, hx, hn', hlocal.imp ?_ ?_⟩
  · rintro ⟨type, symbol, hintro, hname, -, hsymbol⟩
    rw [hfile] at hintro
    exact ⟨type, symbol, hintro, hname,
      hp.comp_extends.symbol? _ _ (hlasts.comp.symbol? _ _ hsymbol)⟩
  · rintro ⟨q, rfl, hname, hmem⟩
    refine ⟨q, rfl, hname, ?_⟩
    have hdeclared := hlasts.declared hmem
    rw [← hp.facts_eq_stage (Nat.le_refl _)] at hdeclared
    have hat := hp.declaredAt hnode (fun _ => SyntaxNode.noConfusion) hdeclared
    rwa [hn'] at hat

/-- A local comes into scope in one stretch only. -/
theorem BoundIn.brings_unique (hrs : p.BoundIn rs) (hp : p.IsBound) (hr : r ∈ rs) (hr' : r' ∈ rs)
    (h : r.Brings p (name, id)) (h' : r'.Brings p (name', id)) : r = r' := by
  obtain ⟨n, hn, x, hx, hlocal⟩ := h
  obtain ⟨n', hn', x', hx', hlocal'⟩ := h'
  have hlater {q : Stretch} (hq : q ∈ rs) : q.stop.comp.Extends p.comp :=
    (hrs.encloses.lasts q hq).comp.trans hp.comp_extends
  -- what a parameter declares is declared at it
  have hdeclared {q : Stretch} (hq : q ∈ rs) {n : NodeRef} {param : Parameter}
      (hx : p.HasNode n (.parameter param)) (hmem : (n, id) ∈ q.stop.facts.declared) :
      p.comp.DeclaredAt n id := by
    refine hp.declaredAt hx (fun _ => SyntaxNode.noConfusion) ?_
    rw [hp.facts_eq_stage (Nat.le_refl _)]
    exact (hrs.encloses.lasts q hq).declared hmem
  -- and that is not what another node adds
  have hapart {q : Stretch} (hq : q ∈ rs) {n n' : NodeRef} {x : SyntaxNode} {param : Parameter}
      {type : Option SymbolId} {symbol : Symbol} (hx : p.HasNode n x)
      (hx' : p.HasNode n' (.parameter param)) (hintro : x.introduced? n.file type = some symbol)
      (hsymbol : q.stop.comp.symbol? id = some symbol) (hat : p.comp.DeclaredAt n' id) : False := by
    obtain ⟨symbol', place, hsymbol', -, hplace, rfl⟩ := hat
    obtain rfl := Option.some.inj (((hlater hq).symbol? _ _ hsymbol).symm.trans hsymbol')
    obtain ⟨⟨stmt, rfl⟩, hn⟩ := SyntaxNode.place_of_introduced? hintro hplace
    have hsame : (⟨some place.file, place.node⟩ : NodeRef) = n := by
      obtain ⟨-, -, -, -, hid⟩ := hx
      rw [hn, hid]
    rw [hsame] at hx'
    cases hx.unique hp.toIsRead hx'
  rcases hlocal with ⟨type, symbol, hintro, -, hle, hsymbol⟩ | ⟨q, rfl, -, hmem⟩
  · rcases hlocal' with ⟨type', symbol', hintro', -, hle', hsymbol'⟩ | ⟨q', rfl, -, hmem'⟩
    · -- both have been added, one after the other
      have hlt := Compilation.has_of_symbol? hsymbol
      have hlt' := Compilation.has_of_symbol? hsymbol'
      rcases eq_or_of_pairwise hrs.encloses.apart hr hr' with heq | hbefore | hbefore
      · exact heq
      · exact absurd (Nat.lt_of_lt_of_le hlt (Nat.le_trans hbefore.size_le hle'))
          (Nat.lt_irrefl _)
      · exact absurd (Nat.lt_of_lt_of_le hlt' (Nat.le_trans hbefore.size_le hle))
          (Nat.lt_irrefl _)
    · exact (hapart hr hx hx' hintro hsymbol (hdeclared hr' hx' hmem')).elim
  · rcases hlocal' with ⟨type', symbol', hintro', -, -, hsymbol'⟩ | ⟨q', rfl, -, hmem'⟩
    · exact (hapart hr' hx' hx hintro' hsymbol' (hdeclared hr hx hmem)).elim
    · -- both are declared at the same parameter
      obtain ⟨symbol, place, hsymbol, -, hplace, rfl⟩ := hdeclared hr hx hmem
      obtain ⟨symbol', place', hsymbol', -, hplace', rfl⟩ := hdeclared hr' hx' hmem'
      obtain rfl := Option.some.inj (hsymbol.symm.trans hsymbol')
      obtain rfl := Option.some.inj (hplace.symm.trans hplace')
      exact hrs.stretch_unique hp.toIsRead rfl hr hr' hn hn'

/-- A name that is bound to a local stands in an area in which the local comes into scope. -/
theorem BoundIn.exists_brings (hrs : p.BoundIn rs) (hp : p.IsBound) {file : Option FileId}
    {name : Ident} (hwrites : p.Writes file (.identifier node name))
    (hid : p.facts.symbol? ⟨file, node.id⟩ = some id) {symbol : Symbol}
    (hsymbol : p.comp.symbol? id = some symbol) (hlocal : symbol.IsLocal) :
    ∃ r ∈ rs, ⟨file, node.id⟩ ∈ r.refs ∧ BroughtInto p rs r.area (name.text, id) := by
  have hexpr : p.IsExpr ⟨file, node.id⟩ := ⟨_, hwrites, rfl⟩
  have hid' := hid
  rw [hp.facts_eq_stage (Nat.le_refl _)] at hid'
  -- it has been bound in one of the stretches
  obtain ⟨r, hr, hn⟩ : ∃ r ∈ rs, ⟨file, node.id⟩ ∈ r.refs := by
    by_contra hno
    have hsame := hrs.encloses.bound.symbols ⟨file, node.id⟩ (fun hmem => ?_) hexpr
    · rw [hid', evaluated_zero, hp.symbol?_membersDeclared hexpr] at hsame
      cases hsame
    · obtain ⟨r, hr, hn⟩ := List.mem_flatMap.1 hmem
      exact hno ⟨r, hr, hn⟩
  have hlasts := hrs.encloses.lasts r hr
  have hcomp := hlasts.comp.trans hp.comp_extends
  rw [hlasts.symbols _ hn hexpr] at hid'
  have hunknown := hlasts.unknown _ hn hexpr
  have hstretch := (hlasts.bound.exprs file (.identifier node name) hwrites hn).resolve_left
    fun hsame => by
      rw [show (Expr.identifier node name).id = node.id from rfl, hid', hunknown] at hsame
      cases hsame
  obtain ⟨scope, t, rfl, -, hruns, -, hseen⟩ := hstretch
  refine ⟨r, hr, hn, ?_⟩
  -- there the local was in scope
  rcases hruns.mem_locals hid' with hmem | hmember | htype
  · rcases hseen _ hmem with hgiven | hbrings
    · refine (hrs.encloses.given r hr _ hgiven).resolve_left fun hnil => ?_
      have hmem := hlasts.subset hn
      rw [hnil.1] at hmem
      cases hmem
    · exact ⟨r, hr, rfl, hbrings⟩
  · exact absurd (Compilation.isMember_of_le hmember hcomp.le)
      (Compilation.not_isMember_of_isLocal hsymbol hlocal)
  · exact absurd (htype.mono hcomp.le) (Compilation.not_isType_of_isLocal hsymbol hlocal)

end Project

end PropertyLint
