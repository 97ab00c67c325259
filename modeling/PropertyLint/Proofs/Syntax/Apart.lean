/-
# Parts that lie apart

Two parts of a text that do not overlap have no place in common (`Part.disjoint_places`).  The
attributes, the name and the own members of all types of a file lie apart from each other
(`SyntaxTree.ownParts_apart`), although types are nested.  Of two expressions in one part, the first
one ends before the second one or has it in one of its children (`Expr.Leads`), so creations have no
place of an argument in common (`Expr.disjoint_argumentPlaces`), although they are nested too.
-/
import Mathlib.Data.Set.Lattice
import Mathlib.Order.CompletePartialOrder
import PropertyLint.Proofs.Syntax.LaidDecls
import PropertyLint.Syntax.Visit

namespace PropertyLint

/-! ## The places of a part -/

/-- The second part is the first one or stands somewhere in it. -/
inductive Part.Has (p : Part) : Part → Prop where
  | refl : Has p p
  | part {q r : Part} : Has p q → r ∈ q.parts → Has p r

namespace Part

variable {cs : List Char} {p q r p' q' : Part}

theorem Has.of_mem (h : q ∈ p.parts) : p.Has q := .part .refl h

theorem Has.trans (hpq : p.Has q) (hqr : q.Has r) : p.Has r := by
  induction hqr with
  | refl => exact hpq
  | part _ hmem ih => exact ih.part hmem

theorem WellNested.of_has (h : p.WellNested cs) (hq : p.Has q) : q.WellNested cs := by
  induction hq with
  | refl => exact h
  | part _ hmem ih => exact ih.part hmem

/-- What stands in a part lies between the ends of it. -/
theorem WellNested.le_of_has (h : p.WellNested cs) (hq : p.Has q) :
    p.range.start ≤ q.range.start ∧ q.range.stop ≤ p.range.stop := by
  induction hq with
  | refl => exact ⟨Nat.le_refl _, Nat.le_refl _⟩
  | @part q r hq hmem ih =>
    have hbetween := (h.of_has hq).between
    have hstart := hbetween.start r hmem
    have hstop := hbetween.stop r hmem
    omega

/-- The ranges of a part and of everything in it. -/
def places (p : Part) : Set OffsetRange := {r | ∃ q, p.Has q ∧ q.range = r}

theorem Has.mem_places (h : p.Has q) : q.range ∈ p.places := ⟨q, h, rfl⟩

theorem Has.places_subset (h : p.Has q) : q.places ⊆ p.places := by
  rintro r ⟨q', hq', rfl⟩
  exact (h.trans hq').mem_places

/-- One of the two parts ends before the other one starts. -/
def Apart (p q : Part) : Prop := p.Before q ∨ q.Before p

instance : Std.Symm Apart where
  symm _ _ := Or.symm

theorem WellNested.parts_apart (h : p.WellNested cs) : p.parts.Pairwise Apart :=
  h.fits.ordered.imp .inl

/-- Two parts of one part lie apart. -/
theorem WellNested.apart_of_ne (h : p.WellNested cs) (hq : q ∈ p.parts) (hr : r ∈ p.parts)
    (hne : q ≠ r) : q.Apart r := h.parts_apart.forall hq hr hne

/-- What stands in two parts that lie apart lies apart. -/
theorem Apart.of_has (h : p.Apart q) (hp : p.WellNested cs) (hq : q.WellNested cs)
    (hp' : p.Has p') (hq' : q.Has q') : p'.Apart q' := by
  have hp' := hp.le_of_has hp'
  have hq' := hq.le_of_has hq'
  unfold Apart Before OffsetRange.Precedes at *
  omega

/-- Parts that lie apart have no place in common. -/
theorem disjoint_places (hp : p.WellNested cs) (hq : q.WellNested cs) (h : p.Apart q) :
    Disjoint p.places q.places := by
  rw [Set.disjoint_left]
  rintro r ⟨p', hp', rfl⟩ ⟨q', hq', heq⟩
  have hne := (hp.of_has hp').fits.nonempty
  have hapart := h.of_has hp hq hp' hq'
  unfold Apart Before OffsetRange.Precedes at hapart
  rw [heq] at hapart
  omega

end Part

/-! ## Types -/

namespace TypeDecl

variable {cs : List Char} {d e : TypeDecl} {p : Part}

/-- The parts of a type that belong to it alone: its attributes, its name and its members without
the types among them. -/
def ownParts (d : TypeDecl) : List Part :=
  d.attributes.map .attr ++ [.ident d.name] ++ d.ownMembers.map .member

theorem member_mem_ownParts {m : Member} (hm : m ∈ d.ownMembers) : .member m ∈ d.ownParts :=
  List.mem_append_right _ (List.mem_map_of_mem hm)

theorem attr_mem_ownParts {a : Attribute} (ha : a ∈ d.attributes) : .attr a ∈ d.ownParts :=
  List.mem_append_left _ (List.mem_append_left _ (List.mem_map_of_mem ha))

theorem ownParts_sublist (d : TypeDecl) :
    d.ownParts.Sublist (Part.member (.type d)).parts := by
  refine List.Sublist.append (List.Sublist.trans ?_ (List.sublist_append_left _ _)) ?_
  · exact List.sublist_append_left _ (d.header.typeParams.map Part.ident)
  · exact List.filter_sublist.map _

theorem nestedTypes_sublist (d : TypeDecl) :
    (d.nestedTypes.map fun e => Part.member (.type e)).Sublist
      (Part.member (.type d)).parts := by
  obtain ⟨header, ms⟩ := d
  refine List.Sublist.trans ?_ (List.sublist_append_right _ (ms.map Part.member))
  induction ms with
  | nil => exact .slnil
  | cons m ms ih =>
    cases m with
    | type e => exact ih.cons_cons _
    | _ => exact ih.cons _

theorem withNested_eq (d : TypeDecl) :
    d.withNested = d :: d.nestedTypes.flatMap withNested := by
  obtain ⟨header, ms⟩ := d
  rw [withNested]
  congr 1
  induction ms with
  | nil => rfl
  | cons m ms ih =>
    cases m with
    | type e =>
      rw [nestedIn, ih]
      rfl
    | _ =>
      rw [nestedIn, ih]
      rfl

theorem ne_of_mem_ownParts (h : p ∈ d.ownParts) : p ≠ .member (.type e) := by
  rintro rfl
  unfold ownParts at h
  simp only [List.mem_append, List.mem_map, List.mem_singleton, reduceCtorEq, and_false,
    exists_false, false_or] at h
  obtain ⟨m, hm, heq⟩ := h
  obtain rfl := Part.member.inj heq
  simpa [Member.isType] using (List.mem_filter.1 hm).2

theorem has_of_mem_ownParts (h : p ∈ d.ownParts) : (Part.member (.type d)).Has p :=
  .of_mem (d.ownParts_sublist.subset h)

theorem type_mem_parts (h : e ∈ d.nestedTypes) :
    .member (.type e) ∈ (Part.member (.type d)).parts :=
  d.nestedTypes_sublist.subset (List.mem_map_of_mem h)

theorem has_of_mem_withNested (hd : (Part.member (.type d)).WellNested cs)
    (he : e ∈ d.withNested) : (Part.member (.type d)).Has (.member (.type e)) := by
  generalize hroot : Part.member (.type d) = root at hd
  induction hd generalizing d with
  | mk _ _ ih =>
    subst hroot
    rw [withNested_eq, List.mem_cons, List.mem_flatMap] at he
    rcases he with rfl | ⟨d', hd', he⟩
    · exact .refl
    · exact (Part.Has.of_mem (type_mem_parts hd')).trans (ih _ (type_mem_parts hd') he rfl)

theorem has_of_mem_ownParts_withNested (hd : (Part.member (.type d)).WellNested cs)
    (hp : p ∈ d.withNested.flatMap ownParts) : (Part.member (.type d)).Has p := by
  obtain ⟨e, he, hp⟩ := List.mem_flatMap.1 hp
  exact (has_of_mem_withNested hd he).trans (has_of_mem_ownParts hp)

theorem flatMap_ownParts_apart {ds : List TypeDecl}
    (hnested : ∀ d ∈ ds, (Part.member (.type d)).WellNested cs)
    (hapart : (ds.map fun d => Part.member (.type d)).Pairwise Part.Apart)
    (h : ∀ d ∈ ds, (d.withNested.flatMap ownParts).Pairwise Part.Apart) :
    ((ds.flatMap withNested).flatMap ownParts).Pairwise Part.Apart := by
  rw [List.flatMap_assoc, List.pairwise_flatMap]
  rw [List.pairwise_map] at hapart
  refine ⟨h, hapart.imp_of_mem fun {d e} hd he hapart p hp q hq => ?_⟩
  exact hapart.of_has (hnested d hd) (hnested e he)
    (has_of_mem_ownParts_withNested (hnested d hd) hp)
    (has_of_mem_ownParts_withNested (hnested e he) hq)

/-- Of a type with all types in it, the parts that belong to one type alone lie apart. -/
theorem ownParts_apart (h : (Part.member (.type d)).WellNested cs) :
    (d.withNested.flatMap ownParts).Pairwise Part.Apart := by
  generalize hroot : Part.member (.type d) = root at h
  induction h generalizing d with
  | @mk root hfits hparts ih =>
    subst hroot
    have hroot : (Part.member (.type d)).WellNested cs := .mk hfits hparts
    have hnested (e : TypeDecl) (he : e ∈ d.nestedTypes) :
        (Part.member (.type e)).WellNested cs := hparts _ (type_mem_parts he)
    rw [withNested_eq, List.flatMap_cons, List.pairwise_append]
    refine ⟨hroot.parts_apart.sublist d.ownParts_sublist, ?_, ?_⟩
    · exact flatMap_ownParts_apart hnested (hroot.parts_apart.sublist d.nestedTypes_sublist)
        fun e he => ih _ (type_mem_parts he) rfl
    · -- a part of the type itself and one of a type in it
      intro p hp q hq
      rw [List.flatMap_assoc] at hq
      obtain ⟨e, he, hq⟩ := List.mem_flatMap.1 hq
      have hpart := d.ownParts_sublist.subset hp
      have hapart := hroot.apart_of_ne hpart (type_mem_parts he) (ne_of_mem_ownParts hp)
      exact hapart.of_has (hparts p hpart) (hnested e he) .refl
        (has_of_mem_ownParts_withNested (hnested e he) hq)

/-- The places of what belongs to a type alone. -/
def places (d : TypeDecl) : Set OffsetRange := {r | ∃ p ∈ d.ownParts, r ∈ p.places}

theorem places_subset (h : p ∈ d.ownParts) : p.places ⊆ d.places := fun _ hr => ⟨p, h, hr⟩

theorem disjoint_places {places : Set OffsetRange}
    (h : ∀ p ∈ d.ownParts, Disjoint places p.places) :
    Disjoint places d.places := by
  rw [Set.disjoint_left]
  rintro r hr ⟨p, hp, hrp⟩
  exact Set.disjoint_left.1 (h p hp) hr hrp

/-- The own members of a type have no place in common. -/
theorem ownMembers_disjoint (h : (Part.member (.type d)).WellNested cs) :
    d.ownMembers.Pairwise fun m m' => Disjoint (Part.member m).places (Part.member m').places := by
  have hnested {m : Member} (hm : m ∈ d.ownMembers) : (Part.member m).WellNested cs :=
    h.of_has (has_of_mem_ownParts (member_mem_ownParts hm))
  have hmembers := h.fits.ordered.sublist
    ((List.sublist_append_right _ _).trans d.ownParts_sublist)
  rw [List.pairwise_map] at hmembers
  exact hmembers.imp_of_mem fun hm hm' hbefore =>
    Part.disjoint_places (hnested hm) (hnested hm') (.inl hbefore)

end TypeDecl

namespace SyntaxTree

variable {file : FileId} {text : String} {t : SyntaxTree}

/-- The attributes of the assembly and what belongs to the types of a file. -/
def ownParts (t : SyntaxTree) : List Part :=
  t.root.attributes.map .attr ++ t.types.flatMap TypeDecl.ownParts

theorem wellNested_of_mem_types (h : parse file text = .ok t) {d : TypeDecl}
    (hd : d ∈ t.types) : (Part.member (.type d)).WellNested text.toList := by
  obtain ⟨e, he, hd⟩ := List.mem_flatMap.1 hd
  have he := (Holds.type he).wellNested h
  exact he.of_has (TypeDecl.has_of_mem_withNested he hd)

theorem wellNested_of_mem_ownParts (h : parse file text = .ok t) {p : Part}
    (hp : p ∈ t.ownParts) : p.WellNested text.toList := by
  rcases List.mem_append.1 hp with hp | hp
  · obtain ⟨a, ha, rfl⟩ := List.mem_map.1 hp
    exact (Holds.attr ha).wellNested h
  · obtain ⟨d, hd, hp⟩ := List.mem_flatMap.1 hp
    exact (wellNested_of_mem_types h hd).of_has (TypeDecl.has_of_mem_ownParts hp)

/-- The attributes of the assembly and what belongs to the types of a file lie apart. -/
theorem ownParts_apart (h : parse file text = .ok t) : t.ownParts.Pairwise Part.Apart := by
  obtain ⟨ps, hnested, hordered, hattributes, htypes⟩ := exists_parts_of_parse h
  have hapart : ps.Pairwise Part.Apart := hordered.imp .inl
  have hroot (d : TypeDecl) (hd : d ∈ t.root.types) :
      (Part.member (.type d)).WellNested text.toList := (Holds.type hd).wellNested h
  unfold ownParts types CompilationUnit.allTypes
  rw [List.pairwise_append]
  refine ⟨hapart.sublist hattributes, ?_, ?_⟩
  · exact TypeDecl.flatMap_ownParts_apart hroot (hapart.sublist htypes)
      fun d hd => TypeDecl.ownParts_apart (hroot d hd)
  · intro p hp q hq
    rw [List.flatMap_assoc] at hq
    obtain ⟨a, ha, rfl⟩ := List.mem_map.1 hp
    obtain ⟨d, hd, hq⟩ := List.mem_flatMap.1 hq
    have hapart : (Part.attr a).Apart (.member (.type d)) := apart_of_parse h ha hd
    exact hapart.of_has ((Holds.attr ha).wellNested h) (hroot d hd) .refl
      (TypeDecl.has_of_mem_ownParts_withNested (hroot d hd) hq)

end SyntaxTree

/-! ## Expressions -/

namespace Expr

variable {cs : List Char} {e a b : Expr}

/-- The second expression stands behind the first one or in one of its children. -/
def Leads (a b : Expr) : Prop :=
  a.range.Precedes b.range ∨ ∃ c ∈ a.children, c.range.contains b.range = true

theorem has_of_mem_values {l : ArgumentList Expr} (h : e ∈ l.args.map Argument.value) :
    (Part.args l).Has (.expr e) := by
  obtain ⟨a, ha, rfl⟩ := List.mem_map.1 h
  have harg : .argument a ∈ (Part.args l).parts := List.mem_map_of_mem ha
  exact (Part.Has.of_mem harg).trans (.of_mem (List.mem_append_right _ (.head _)))

/-- The values of arguments stand one behind the other, as the arguments do. -/
theorem values_before {l : ArgumentList Expr} (h : (Part.args l).WellNested cs) :
    ((l.args.map Argument.value).map Part.expr).Pairwise Part.Before := by
  have harg (a : Argument Expr) (ha : a ∈ l.args) : .argument a ∈ (Part.args l).parts :=
    List.mem_map_of_mem ha
  have hvalue (a : Argument Expr) : (Part.argument a).Has (.expr a.value) :=
    .of_mem (List.mem_append_right _ (.head _))
  rw [List.map_map, List.pairwise_map]
  have hordered := h.fits.ordered
  rw [Part.parts, List.pairwise_map] at hordered
  refine hordered.imp_of_mem fun {a b} ha hb hbefore => ?_
  have ha := (h.part (harg a ha)).le_of_has (hvalue a)
  have hb := (h.part (harg b hb)).le_of_has (hvalue b)
  unfold Part.Before OffsetRange.Precedes at *
  dsimp only [Function.comp] at *
  omega

/-- The children of an expression stand in it. -/
theorem has_of_mem_children {c : Expr} (h : c ∈ e.children) : (Part.expr e).Has (.expr c) := by
  cases e with
  | invoke n callee l =>
    rcases List.mem_cons.1 h with rfl | h
    · exact .of_mem (.head _)
    · exact (Part.Has.of_mem (.tail _ (.head _))).trans (has_of_mem_values h)
  | create n type args =>
    cases args with
    | none => cases h
    | some l => exact (Part.Has.of_mem (.tail _ (.head _))).trans (has_of_mem_values h)
  | createArray n type size =>
    cases size <;> exact .of_mem (by simp_all [children, Part.parts, parts])
  | _ => exact .of_mem (by simp_all [children, Part.parts, parts])

/-- The children of an expression stand one behind the other. -/
theorem children_before (h : (Part.expr e).WellNested cs) :
    (e.children.map Part.expr).Pairwise Part.Before := by
  have hparts {cs' : List Expr} (hsub : (cs'.map Part.expr).Sublist (Part.expr e).parts) :
      (cs'.map Part.expr).Pairwise Part.Before := h.fits.ordered.sublist hsub
  cases e with
  | invoke n callee l =>
    have hl : Part.args l ∈ (Part.expr (.invoke n callee l)).parts := .tail _ (.head _)
    rw [children, List.map_cons, List.pairwise_cons]
    refine ⟨?_, values_before (h.part hl)⟩
    intro p hp
    obtain ⟨v, hv, rfl⟩ := List.mem_map.1 hp
    have hcallee := (List.pairwise_cons.1 h.fits.ordered).1 _ (.head _)
    have hv := (h.part hl).le_of_has (has_of_mem_values hv)
    unfold Part.Before OffsetRange.Precedes at *
    omega
  | create n type args =>
    cases args with
    | none => exact hparts (List.nil_sublist _)
    | some l => exact values_before (h.part (.tail _ (.head _)))
  | createArray n type size => cases size <;> exact hparts (by simp [children, Part.parts, parts])
  | isType n operand type designation => exact hparts (by simp [children, Part.parts, parts])
  | _ => exact hparts (by simp [children, Part.parts, parts])

/-- A walk through expressions that stand one behind the other lists each expression in front of
what it leads. -/
theorem walkStack_leads {stack : List Expr} (h : ∀ e ∈ stack, (Part.expr e).WellNested cs)
    (hordered : (stack.map Part.expr).Pairwise Part.Before) :
    (∀ x ∈ walkStack stack, ∃ e ∈ stack, (Part.expr e).Has (.expr x)) ∧
      (walkStack stack).Pairwise Leads := by
  fun_induction walkStack stack with
  | case1 => exact ⟨List.forall_mem_nil _, .nil⟩
  | case2 e stack ih =>
    have he := h e (.head _)
    have hchildren (c : Expr) (hc : c ∈ e.children) := has_of_mem_children hc
    rw [List.map_cons, List.pairwise_cons, List.forall_mem_map] at hordered
    have ih := ih ?_ ?_
    · refine ⟨?_, ?_⟩
      · rw [List.forall_mem_cons]
        refine ⟨⟨e, .head _, .refl⟩, fun x hx => ?_⟩
        obtain ⟨c, hc, hx⟩ := ih.1 x hx
        rcases List.mem_append.1 hc with hc | hc
        · exact ⟨e, .head _, (hchildren c hc).trans hx⟩
        · exact ⟨c, .tail _ hc, hx⟩
      · rw [List.pairwise_cons]
        refine ⟨fun x hx => ?_, ih.2⟩
        obtain ⟨c, hc, hx⟩ := ih.1 x hx
        rcases List.mem_append.1 hc with hc | hc
        · have hx := (he.of_has (hchildren c hc)).le_of_has hx
          exact .inr ⟨c, hc, by simpa [OffsetRange.contains, Part.range] using hx⟩
        · have hbefore := hordered.1 c hc
          have hx := (h c (.tail _ hc)).le_of_has hx
          exact .inl (Nat.le_trans hbefore hx.1)
    · rw [List.forall_mem_append]
      exact ⟨fun c hc => he.of_has (hchildren c hc), fun c hc => h c (.tail _ hc)⟩
    · rw [List.map_append, List.pairwise_append]
      refine ⟨children_before he, hordered.2, ?_⟩
      intro p hp q hq
      obtain ⟨c, hc, rfl⟩ := List.mem_map.1 hp
      obtain ⟨e', he', rfl⟩ := List.mem_map.1 hq
      have hc := he.le_of_has (hchildren c hc)
      exact Nat.le_trans hc.2 (hordered.1 e' he')

theorem walk_leads (h : (Part.expr e).WellNested cs) :
    (∀ x ∈ e.walk, (Part.expr e).Has (.expr x)) ∧ e.walk.Pairwise Leads := by
  have hwalk := walkStack_leads (List.forall_mem_singleton.2 h) (List.pairwise_singleton _ _)
  refine ⟨fun x hx => ?_, hwalk.2⟩
  obtain ⟨e', he', hhas⟩ := hwalk.1 x hx
  rw [List.mem_singleton] at he'
  rwa [he'] at hhas

end Expr

/-- The expressions of a part.  Types nested in a type have expressions of their own. -/
def Part.exprs : Part → List Expr
  | expr e => e.walk
  | stmt s => s.exprs
  | block b => b.exprs
  | accessor a => a.body.exprs
  | parameter p => walkOption p.default
  | member m => m.exprs
  | ident _ | type _ | argument _ | args _ | attr _ => []

namespace Part

variable {cs : List Char} {p : Part}

@[simp] theorem flatMap_exprs_attr (as : List Attribute) :
    (as.map Part.attr).flatMap Part.exprs = [] := by
  induction as with
  | nil => rfl
  | cons a as ih => exact ih

@[simp] theorem flatMap_exprs_type (ts : List TypeRef) :
    (ts.map Part.type).flatMap Part.exprs = [] := by
  induction ts with
  | nil => rfl
  | cons t ts ih => exact ih

@[simp] theorem flatMap_exprs_ident (is : List Ident) :
    (is.map Part.ident).flatMap Part.exprs = [] := by
  induction is with
  | nil => rfl
  | cons i is ih => exact ih

@[simp] theorem flatMap_exprs_expr (e : Option Expr) :
    (e.toList.map Part.expr).flatMap Part.exprs = walkOption e := by
  cases e with
  | none => rfl
  | some e => exact List.append_nil _

theorem exprsOfStmts_eq (ss : List Stmt) :
    exprsOfStmts ss = (ss.map Part.stmt).flatMap Part.exprs := by
  induction ss with
  | nil => rfl
  | cons s ss ih =>
    rw [exprsOfStmts, ih]
    rfl

theorem exprs_body (b : Body) : b.exprs = b.parts.flatMap Part.exprs := by
  obtain ⟨block, arrow⟩ := b
  cases block <;> simp [Body.exprs, Body.parts, Part.exprs]

/-- The expressions of a part that is no expression are among those of its parts, in their order. -/
theorem exprs_sublist (hp : ∀ e, p ≠ .expr e) :
    p.exprs.Sublist (p.parts.flatMap Part.exprs) := by
  cases p with
  | expr e => exact absurd rfl (hp e)
  | stmt s =>
    cases s with
    | branch n condition yes no =>
      cases no <;> simp [Part.exprs, Part.parts, Stmt.parts, Stmt.exprs]
    | block n body => simp [Part.exprs, Part.parts, Stmt.parts, Stmt.exprs, Block.exprs]
    | _ => simp [Part.exprs, Part.parts, Stmt.parts, Stmt.exprs]
  | block b =>
    rw [Part.exprs, Block.exprs, exprsOfStmts_eq]
    exact .refl _
  | accessor a =>
    rw [Part.exprs, exprs_body]
    exact .refl _
  | parameter p => simp [Part.exprs, Part.parts, Parameter.parts]
  | member m =>
    cases m with
    | type d => exact List.nil_sublist _
    | constructor d =>
      -- the defaults of the parameters are left out
      rw [Part.parts, Member.parts, List.flatMap_append, ← exprs_body]
      exact List.sublist_append_right _ _
    | _ =>
      simp [Part.exprs, Part.parts, Member.parts, Member.exprs, exprs_body,
        List.flatMap_map Part.parameter, List.flatMap_map Part.accessor]
  | _ => exact List.nil_sublist _

/-- The expressions of a part stand in it, and each one leads all behind it in the list. -/
theorem exprs_leads (h : p.WellNested cs) :
    (∀ e ∈ p.exprs, p.Has (.expr e)) ∧ p.exprs.Pairwise Expr.Leads := by
  induction h with
  | @mk p hfits hparts ih =>
    by_cases hp : ∃ e, p = .expr e
    · obtain ⟨e, rfl⟩ := hp
      exact Expr.walk_leads (.mk hfits hparts)
    · have hsub := exprs_sublist (not_exists.1 hp)
      refine ⟨fun e he => ?_, List.Pairwise.sublist hsub ?_⟩
      · obtain ⟨q, hq, he⟩ := List.mem_flatMap.1 (hsub.subset he)
        exact (Has.of_mem hq).trans ((ih q hq).1 e he)
      · rw [List.pairwise_flatMap]
        refine ⟨fun q hq => (ih q hq).2, ?_⟩
        refine hfits.ordered.imp_of_mem fun {q r} hq hr hbefore e he e' he' => .inl ?_
        have he := (hparts q hq).le_of_has ((ih q hq).1 e he)
        have he' := (hparts r hr).le_of_has ((ih r hr).1 e' he')
        exact Nat.le_trans he.2 (Nat.le_trans hbefore he'.1)

end Part

/-! ## Creations -/

namespace Expr

variable {cs : List Char} {a b : Expr}

/-- The range of the argument list of an expression and the ranges of the values in it. -/
def argumentPlaces (e : Expr) : Set OffsetRange :=
  {r | ∃ l, e.argumentList? = some l ∧ (r = l.range ∨ ∃ v ∈ l.args.map Argument.value, r = v.range)}

theorem has_of_argumentList? {l : ArgumentList Expr} (h : a.argumentList? = some l) :
    (Part.expr a).Has (.args l) := by
  cases a with
  | invoke n callee l' =>
    obtain rfl := Option.some.inj h
    exact .of_mem (.tail _ (.head _))
  | create n type args =>
    obtain rfl : args = some l := h
    exact .of_mem (.tail _ (.head _))
  | _ => simp [argumentList?] at h

theorem argumentPlaces_subset (a : Expr) : a.argumentPlaces ⊆ (Part.expr a).places := by
  rintro r ⟨l, hl, hr⟩
  have hlist := has_of_argumentList? hl
  rcases hr with rfl | ⟨v, hv, rfl⟩
  · exact hlist.mem_places
  · exact (hlist.trans (has_of_mem_values hv)).mem_places

/-- The arguments of a creation stand behind the name of its type. -/
theorem lt_of_mem_argumentPlaces {r : OffsetRange} (h : (Part.expr a).WellNested cs)
    (ha : a.isCreation = true) (hr : r ∈ a.argumentPlaces) :
    a.range.start < r.start ∧ r.start < r.stop ∧ r.stop ≤ a.range.stop := by
  cases a with
  | create n type args =>
    have hplace := argumentPlaces_subset _ hr
    obtain ⟨l, hl, hr⟩ := hr
    obtain rfl : args = some l := hl
    have hlist := h.part (.tail _ (.head _))
    have hstart : l.range.start ≤ r.start := by
      rcases hr with rfl | ⟨v, hv, rfl⟩
      · exact Nat.le_refl _
      · exact (hlist.le_of_has (has_of_mem_values hv)).1
    have htype := (h.part (.head _)).fits.nonempty
    have htypeStart := h.between.start _ (.head _)
    have hbefore := (List.pairwise_cons.1 h.fits.ordered).1 _ (.head _)
    obtain ⟨q, hq, rfl⟩ := hplace
    have hq' := h.le_of_has hq
    have hne := (h.of_has hq).fits.nonempty
    refine ⟨?_, hne, hq'.2⟩
    exact Nat.lt_of_le_of_lt htypeStart (Nat.lt_of_lt_of_le htype (Nat.le_trans hbefore hstart))
  | _ => simp [isCreation] at ha

/-- A creation and one that it leads have no place of an argument in common. -/
theorem disjoint_argumentPlaces (ha : (Part.expr a).WellNested cs)
    (hb : (Part.expr b).WellNested cs) (hac : a.isCreation = true) (hbc : b.isCreation = true)
    (h : a.Leads b) : Disjoint a.argumentPlaces b.argumentPlaces := by
  rw [Set.disjoint_left]
  intro r hra hrb
  have hrb := lt_of_mem_argumentPlaces hb hbc hrb
  rcases h with hbefore | ⟨c, hc, hcontains⟩
  · have hra := lt_of_mem_argumentPlaces ha hac hra
    unfold OffsetRange.Precedes at hbefore
    omega
  · simp only [OffsetRange.contains, Bool.and_eq_true, decide_eq_true_eq] at hcontains
    cases a with
    | create n type args =>
      obtain ⟨l, hl, hra⟩ := hra
      obtain rfl : args = some l := hl
      have hlist := ha.part (.tail _ (.head _))
      rcases hra with rfl | ⟨v, hv, rfl⟩
      · have hc : l.range.start ≤ c.range.start := (hlist.le_of_has (has_of_mem_values hc)).1
        omega
      · by_cases hcv : c = v
        · rw [hcv] at hcontains
          omega
        · -- the second creation stands in another argument
          have hapart : (Part.expr c).Apart (.expr v) :=
            ((values_before hlist).imp .inl : List.Pairwise Part.Apart _).forall (List.mem_map_of_mem hc)
              (List.mem_map_of_mem hv) fun heq => hcv (Part.expr.inj heq)
          unfold Part.Apart Part.Before OffsetRange.Precedes at hapart
          dsimp only [Part.range] at hapart
          omega
    | _ => simp [isCreation] at hac

end Expr

/-! ## Checked nodes -/

namespace CheckedNode

/-- The node as a part of the tree. -/
def part : CheckedNode → Part
  | member m => .member m
  | attr a => .attr a
  | creation e => .expr e

@[simp] theorem range_part (n : CheckedNode) : n.part.range = n.range := by
  cases n <;> rfl

/-- The places that checks of the node report. -/
def places : CheckedNode → Set OffsetRange
  | member (.type d) => d.places
  | member m => (Part.member m).places
  | attr a => (Part.attr a).places
  | creation e => e.argumentPlaces

end CheckedNode

end PropertyLint
