/-
# What references to constant fields are worth

The constant fields are evaluated in the order of their declarations
(`Project.constFields_inits`), each of them once, so a field gets a text just if its initial value
is folded from fields that are declared before (`Project.IsBound.knows`).  A reference is worth the
text of the field that it is bound to, if that field has been evaluated before the place of the
reference is bound (`Project.constant?_iff_folds`); a reference to a field that is evaluated later
is worth no text, whatever the field is worth (`Project.IsBound.reference_behind`).
-/
import PropertyLint.Proofs.Binding.Folding

namespace PropertyLint

open Binder

namespace Project

variable {p : Project} {f : ConstField} {n : NodeRef} {file : Option FileId} {e : Expr} {v : String}
  {k : Nat}

/-! ## The order of the fields -/

/-- The constant fields are those of the sources, in the order of their declarations. -/
theorem constFields_inits (p : Project) :
    p.constFields.map (fun f => (f.scope.file, some f.init)) = p.sources.flatMap fun s =>
      s.root.allTypes.flatMap fun t => t.constFields.map fun decl => (s.file, decl.init) := by
  obtain ⟨-, hfields⟩ := membersDeclared_leads Set.univ p.sources fun d _ => d.coveredIn_univ
  have hinit (x : DeclaredType × FieldDecl) (f : ConstField)
      (hfor : ConstField.For (membersDeclared p.sources).2.comp x.1 x.2 f) :
      [(x.1.source.file, x.2.init)] = [(f.scope.file, some f.init)] := by
    rw [hfor.file, hfor.init]
  rw [constFields, ← flatMap_typesDeclared p.sources fun s t =>
    t.constFields.map fun decl => (s.file, decl.init), List.map_eq_flatMap,
    ← flatMap_eq_of_forall₂ hfields hinit, List.flatMap_assoc]
  congr 1
  funext d
  rw [List.flatMap_map, List.map_eq_flatMap]

/-! ## Stages of fields -/

theorem IsBound.evaluated_evaluated (hp : p.IsBound) (hk : k ≤ p.constFields.length) :
    (p.evaluated k).Evaluated p := by
  induction k with
  | zero =>
    rw [evaluated_zero]
    exact hp.evaluated_membersDeclared
  | succ k ih =>
    have hget := List.getElem?_eq_getElem hk
    have hfollows : (p.evaluated (k + 1)).Follows p := by
      unfold BindState.Follows
      rw [facts_evaluated_succ hk]
      exact hp.stage_follows (Nat.le_of_lt hk)
    obtain ⟨-, -, -, -, heval⟩ :=
      hp.constField_records (mem_constFields.1 (List.getElem_mem hk)) (p.evaluated k)
    rw [evaluated_succ hget] at hfollows ⊢
    exact heval trivial hfollows (ih (Nat.le_of_lt hk))

/-- The constant of a field is the value of its initial value. -/
theorem IsBound.stage_evaluates (hp : p.IsBound) (hf : p.constFields[k]? = some f) {c : Constant}
    (hc : (p.stage k).facts.constant? ⟨f.scope.file, f.init.id⟩ = some c) :
    p.Evaluates f.scope.file f.init c := by
  have hk := (List.getElem?_eq_some_iff.1 hf).1
  have heval := (hp.evaluated_evaluated hk).2 (f.symbol, c)
  rw [evaluated_succ_eq hf, hc] at heval
  obtain ⟨file, init, hinit, hvalue⟩ := heval (List.mem_append_left _ (.head _))
  obtain ⟨hown, -⟩ := hp.constField_cases (mem_constFields.1 (List.mem_of_getElem? hf))
  obtain ⟨rfl, rfl⟩ := hinit.unique hown
  exact hvalue

/-- The initial value of a field of a file is bound in the stage of the field. -/
theorem IsBound.at_init (hp : p.IsBound) (hf : p.constFields[k]? = some f)
    (hwithin : f.scope.Within p f.init.nodes) : f.scope.At p k f.init.nodes where
  within := hwithin
  once n hn := by
    have hsublist : (f.scope.refs f.init.nodes).Sublist (boundRefs p.sources) := by
      have hmem := mem_constFields.1 (List.mem_of_getElem? hf)
      have hrefs : f.scope.refs f.init.nodes ∈
          (membersDeclared p.sources).1.map fun g => g.scope.refs g.init.nodes :=
        List.mem_map.2 ⟨f, hmem, rfl⟩
      rw [boundRefs, List.flatMap_def]
      exact (List.sublist_flatten_of_mem hrefs).trans (List.sublist_append_left _ _)
    exact (hsublist.count_le n).trans (hp.count_boundRefs_le hn.isSome_file)
  stage := by
    rw [refsAt_eq hf]
    exact List.Subset.refl _

/-- Nothing is folded from the constant field of the framework. -/
theorem IsBound.not_folds_framework (hp : p.IsBound) (hf : f ∈ p.constFields)
    (hfile : f.scope.file = none) : ¬ p.Folds k f.scope.file f.init v := by
  intro hfolds
  obtain ⟨-, ⟨t, -, hsome, -⟩ | ⟨-, hliteral⟩⟩ := hp.constField_cases (mem_constFields.1 hf)
  · cases hfile.symm.trans hsome
  · rw [hliteral] at hfolds
    cases hfolds with
    | name hname => cases hname

/-- In its stage, the initial value of a field is bound without locals. -/
theorem stage_eq_run (hf : p.constFields[k]? = some f) : p.stage k =
    { ((bindExpr f.scope f.init).run { p.evaluated k with locals := [] }).2 with
      locals := (p.evaluated k).locals } := by
  rw [stage_eq hf]
  rfl

theorem IsBound.before_init (hp : p.IsBound) (hf : p.constFields[k]? = some f)
    (hwithin : f.scope.Within p f.init.nodes) :
    BindState.Before p f.scope f.init.nodes { p.evaluated k with locals := [] } := by
  have hk := Nat.le_of_lt (List.getElem?_eq_some_iff.1 hf).1
  have hat := hp.at_init hf hwithin
  obtain ⟨hvalid, hle⟩ := p.evaluated_valid k
  exact
    { valid := { hvalid with locals := List.forall_mem_nil _ }
      sound := ((constField_sound (List.mem_of_getElem? hf)).mono hle).scope
      apart := { hp.evaluated_apart k with locals := List.forall_mem_nil _ }
      registry := hp.evaluated_registry hk
      unknown := fun n hn hexpr => (hp.unknown_evaluated hexpr hk (hat.stage hn)).1 }

theorem IsBound.after_init (hp : p.IsBound) (hf : p.constFields[k]? = some f)
    (hwithin : f.scope.Within p f.init.nodes) : BindState.After p f.scope f.init.nodes
      ((bindExpr f.scope f.init).run { p.evaluated k with locals := [] }).2 := by
  have hk := Nat.le_of_lt (List.getElem?_eq_some_iff.1 hf).1
  have hat := hp.at_init hf hwithin
  have hcomp := hp.stage_le hk
  have hfollows := hp.stage_follows hk
  have hknown {n : NodeRef} (hexpr : p.IsExpr n) (hn : n ∈ p.refsAt k) :=
    (hp.stage_known hexpr hk hn).1
  unfold BindState.Follows at hfollows
  rw [stage_eq_run hf] at hcomp hfollows hknown
  exact ⟨hcomp, hfollows, fun n hn hexpr => hknown hexpr (hat.stage hn)⟩

/-- What the stage of a field finds out about its initial value. -/
theorem IsBound.stage_constant? (hp : p.IsBound) (hknows : (p.evaluated k).Knows p k)
    (hf : p.constFields[k]? = some f) (v : String) :
    (p.stage k).facts.constant? ⟨f.scope.file, f.init.id⟩ = some (.string v) ↔
      p.Folds k f.scope.file f.init v := by
  have hk := Nat.le_of_lt (List.getElem?_eq_some_iff.1 hf).1
  have hcases := hp.constField_cases (mem_constFields.1 (List.mem_of_getElem? hf))
  obtain ⟨-, hwithin | ⟨hfile, hliteral⟩⟩ := hcases
  · have hat := hp.at_init hf hwithin
    have hafter := hp.after_init hf hwithin
    have hsettles := bindExpr_settles hp hk hknows hat (hp.before_init hf hwithin) hafter
    rw [stage_eq_run hf, ← hsettles.worth v, hafter.constant? hat (Expr.mem_nodes _)]
  · refine ⟨fun hv => ?_, fun hfolds => ?_⟩
    · have hvalue := hp.stage_evaluates hf hv
      rw [hliteral] at hvalue
      cases hvalue with
      | name hname => cases hname
    · exact absurd hfolds (hp.not_folds_framework (List.mem_of_getElem? hf) hfile)

/-! ## Fields that have a text -/

/-- A value that may be new is found, or one that has been there, if the two do not contradict each
other. -/
theorem lookup_toList_append_iff {α β : Type} [BEq α] [LawfulBEq α] {a b : α} {o : Option β}
    {rest : List (α × β)} {v : β} (hrest : ∀ c, o = some c → rest.lookup a = some v → c = v) :
    ((o.map (Prod.mk a)).toList ++ rest).lookup b = some v ↔
      (a = b ∧ o = some v) ∨ rest.lookup b = some v := by
  cases o with
  | none => simp
  | some c =>
    rw [Option.map_some, Option.toList_some, List.singleton_append, List.lookup_cons]
    by_cases hab : b = a
    · subst hab
      have hc := hrest c rfl
      rw [beq_self_eq_true]
      constructor
      · exact fun h => .inl ⟨rfl, h⟩
      · rintro (⟨-, h⟩ | h)
        · exact h
        · rw [hc h]
    · rw [beq_eq_false_iff_ne.2 hab]
      constructor
      · exact .inr
      · rintro (⟨rfl, -⟩ | h)
        · exact absurd rfl hab
        · exact h

/-- **Constant fields.**  When the first fields have been evaluated, one of them has a text just if
its initial value is folded from those before it. -/
theorem IsBound.knows (hp : p.IsBound) (hk : k ≤ p.constFields.length) :
    (p.evaluated k).Knows p k := by
  induction k with
  | zero =>
    intro id v
    rw [evaluated_zero, hp.membersDeclared_leads.fieldConstants]
    simp
  | succ k ih =>
    have hknows := ih (Nat.le_of_lt hk)
    obtain ⟨f, hf⟩ : ∃ f, p.constFields[k]? = some f := ⟨_, List.getElem?_eq_getElem hk⟩
    obtain ⟨hown, -⟩ := hp.constField_cases (mem_constFields.1 (List.mem_of_getElem? hf))
    intro id v
    -- a field with the same symbol has the same initial value
    have hsame (c : Constant) (hc : (p.stage k).facts.constant? ⟨f.scope.file, f.init.id⟩ = some c)
        (hold : (p.evaluated k).fieldConstants.lookup f.symbol = some (.string v)) :
        c = .string v := by
      obtain ⟨file, init, hinit, hvalue⟩ :=
        (hp.evaluated_evaluated (Nat.le_of_lt hk)).2 _ (mem_of_lookup hold)
      obtain ⟨rfl, rfl⟩ := hinit.unique hown
      exact (hp.stage_evaluates hf hc).unique hvalue
    rw [evaluated_succ_eq hf, (hp.stage_marked k).fieldConstants, lookup_toList_append_iff hsame,
      hp.stage_constant? hknows hf, hknows]
    constructor
    · rintro (⟨rfl, hfolds⟩ | ⟨i, g, hik, hg⟩)
      · exact ⟨k, f, Nat.lt_succ_self k, hf, rfl, hfolds⟩
      · exact ⟨i, g, Nat.lt_succ_of_lt hik, hg⟩
    · rintro ⟨i, g, hik, hg, hid, hfolds⟩
      rcases Nat.lt_succ_iff_lt_or_eq.1 hik with hik | rfl
      · exact .inr ⟨i, g, hik, hg, hid, hfolds⟩
      · obtain rfl := Option.some.inj (hf.symm.trans hg)
        exact .inl ⟨hid, hfolds⟩

/-! ## References -/

/-- The number of constant fields that are evaluated before the expression is bound: those before
the one whose initial value it stands in, or all of them. -/
def evaluatedBefore (p : Project) (file : Option FileId) (e : Expr) : Nat :=
  p.constFields.findIdx fun f => f.refs.contains ⟨file, e.id⟩

theorem evaluatedBefore_le (p : Project) (file : Option FileId) (e : Expr) :
    p.evaluatedBefore file e ≤ p.constFields.length := List.findIdx_le_length

theorem evaluatedBefore_le_of_mem (hf : p.constFields[k]? = some f)
    (hmem : ⟨file, e.id⟩ ∈ f.refs) : p.evaluatedBefore file e ≤ k := by
  refine Nat.le_of_not_lt fun hk => ?_
  obtain ⟨hlt, rfl⟩ := List.getElem?_eq_some_iff.1 hf
  have hnot := List.not_of_lt_findIdx hk
  exact absurd (List.contains_iff_mem.2 hmem) (by simpa using hnot)

/-- If an expression is bound at all, it is bound when so many fields have been evaluated. -/
theorem mem_refsAt_evaluatedBefore (h : ∃ k ≤ p.constFields.length, ⟨file, e.id⟩ ∈ p.refsAt k) :
    ⟨file, e.id⟩ ∈ p.refsAt (p.evaluatedBefore file e) := by
  rcases Nat.lt_or_eq_of_le (p.evaluatedBefore_le file e) with hlt | heq
  · rw [refsAt_eq (List.getElem?_eq_getElem hlt)]
    have hfound := List.findIdx_getElem (w := hlt)
    exact List.contains_iff_mem.1 hfound
  · obtain ⟨k, hk, hmem⟩ := h
    rcases Nat.lt_or_eq_of_le hk with hk | rfl
    · have hget := List.getElem?_eq_getElem hk
      rw [refsAt_eq hget] at hmem
      exact absurd (evaluatedBefore_le_of_mem hget hmem) (by omega)
    · rwa [heq]

/-- A reference is worth a text just if it is folded from the fields that have been evaluated. -/
theorem IsBound.reference_iff_folds (hp : p.IsBound) (hwrites : p.Writes file e)
    (hname : e.isReference = true) : p.facts.constant? ⟨file, e.id⟩ = some (.string v) ↔
      p.Folds (p.evaluatedBefore file e) file e v := by
  have hn : p.IsName ⟨file, e.id⟩ := ⟨e, hwrites, rfl, hname⟩
  have hk := p.evaluatedBefore_le file e
  by_cases hbound : ∃ k ≤ p.constFields.length, ⟨file, e.id⟩ ∈ p.refsAt k
  · rw [hp.name_constant? hn hk (mem_refsAt_evaluatedBefore hbound)]
    exact (hp.knows hk).name_iff hname
  · obtain ⟨hconstant, hsymbol⟩ := hp.unknown_of_not_mem hn.isExpr fun k hk hmem =>
      hbound ⟨k, hk, hmem⟩
    rw [hconstant]
    refine ⟨fun h => absurd h.symm (Option.some_ne_none _), fun hfolds => ?_⟩
    cases hfolds with
    | name _ hfound => cases hsymbol.symm.trans hfound
    | _ => cases hname

/-- A reference to a field that is not evaluated before is worth no text, whatever the field is
worth. -/
theorem IsBound.reference_behind (hp : p.IsBound) (hwrites : p.Writes file e)
    (hname : e.isReference = true)
    (hbehind : ∀ i f, p.constFields[i]? = some f →
      p.facts.symbol? ⟨file, e.id⟩ = some f.symbol → p.evaluatedBefore file e ≤ i) :
    p.facts.constant? ⟨file, e.id⟩ ≠ some (.string v) := by
  rw [Ne, hp.reference_iff_folds hwrites hname]
  intro hfolds
  cases hfolds with
  | name _ hsymbol hf hi => exact absurd hi (Nat.not_lt.2 (hbehind _ _ hf hsymbol))
  | _ => cases hname

/-- The constant fields of the files are evaluated behind those of the framework. -/
theorem exists_first_constField {x : Option FileId × Option Expr}
    {rest : List (Option FileId × Option Expr)}
    (h : (p.trees.flatMap fun t => t.root.allTypes.flatMap fun d =>
      d.constFields.map fun decl => (some t.file, decl.init)) = x :: rest) :
    ∃ (k : Nat) (f : ConstField), p.constFields[k]? = some f ∧ (f.scope.file, some f.init) = x ∧
      ∀ (i : Nat) (g : ConstField), i < k → p.constFields[i]? = some g → g.scope.file = none := by
  have hinits := p.constFields_inits
  rw [sources, List.flatMap_cons, List.flatMap_map] at hinits
  have hfiles : (p.trees.flatMap fun t => t.source.root.allTypes.flatMap fun d =>
      d.constFields.map fun decl => (t.source.file, decl.init)) = x :: rest := h
  rw [hfiles] at hinits
  generalize hfirst : (frameworkSource.root.allTypes.flatMap fun d =>
    d.constFields.map fun decl => (frameworkSource.file, decl.init)) = first at hinits
  have hnone : ∀ y ∈ first, y.1 = none := by
    intro y hy
    rw [← hfirst] at hy
    obtain ⟨d, -, hy⟩ := List.mem_flatMap.1 hy
    obtain ⟨decl, -, rfl⟩ := List.mem_map.1 hy
    rfl
  have hget (i : Nat) : (p.constFields[i]?.map fun f => (f.scope.file, some f.init)) =
      (first ++ x :: rest)[i]? := by
    rw [← hinits, List.getElem?_map]
  have hhead : (first ++ x :: rest)[first.length]? = some x := by simp
  obtain ⟨f, hf, hx⟩ := Option.map_eq_some_iff.1 ((hget first.length).trans hhead)
  refine ⟨first.length, f, hf, hx, fun i g hi hg => ?_⟩
  have hi' := hget i
  rw [hg, List.getElem?_append_left hi] at hi'
  exact hnone _ (List.mem_of_getElem? hi'.symm)

/-- No reference in the initial value of the first constant field of the files is worth a text, as
no field of a file has been evaluated before. -/
theorem IsBound.not_folds_first (hp : p.IsBound) (hf : p.constFields[k]? = some f)
    (hfirst : ∀ i g, i < k → p.constFields[i]? = some g → g.scope.file = none)
    (he : .expr e ∈ f.init.nodes) (hname : e.isReference = true) :
    ¬ p.Folds (p.evaluatedBefore f.scope.file e) f.scope.file e v := by
  have hmem : ⟨f.scope.file, e.id⟩ ∈ f.refs := List.mem_map.2 ⟨_, he, rfl⟩
  intro hfolds
  cases hfolds with
  | @name _ i _ _ g _ _ _ hg hi hinit =>
    have hik := Nat.lt_of_lt_of_le hi (evaluatedBefore_le_of_mem hf hmem)
    exact hp.not_folds_framework (List.mem_of_getElem? hg) (hfirst i g hik hg) hinit
  | _ => cases hname

/-- **References.**  A reference in a file is worth a text exactly if the field that it is bound to
is evaluated before the place of the reference is bound, and the initial value of the field is
folded from fields that are evaluated before that one. -/
theorem constant?_iff_folds {files : List String} {file : FileId} {m : Model}
    (hread : Project.read files = .ok p) (hmodel : p.model? file = some m)
    (he : .expr e ∈ m.tree.root.nodes) (hname : e.isReference = true) :
    m.constant? e.id = some (.string v) ↔
      p.Folds (p.evaluatedBefore (some file) e) (some file) e v := by
  have hp := isBound_of_read hread
  obtain ⟨t, ht, rfl⟩ := Option.map_eq_some_iff.1 hmodel
  have hfile : t.file = file := hp.file ht
  subst hfile
  exact hp.reference_iff_folds ⟨t, List.mem_of_getElem? ht, rfl, he⟩ hname

/-- A class with a constant field that starts with one behind it. -/
def ahead : String := "class A \x7b const string X = Y; const string Y = \"a\"; \x7d"

/-- The reference to the field behind is worth nothing. -/
theorem constant?_iff_folds_ahead : ∃ p m e, Project.read [ahead] = .ok p ∧ p.model? 0 = some m ∧
    .expr e ∈ m.tree.root.nodes ∧ e.isReference = true ∧ e.nameText? = some "Y" ∧
    (∀ v, m.constant? e.id = some (.string v) ↔
      p.Folds (p.evaluatedBefore (some 0) e) (some 0) e v) ∧
    ∀ v, m.constant? e.id ≠ some (.string v) := by
  have hread : (((SyntaxTree.parse 0 (stripMarkers ahead).1).toOption.map fun t =>
      t.root.allTypes.flatMap fun d => d.constFields.map fun c =>
        c.init.map fun e => (e.isReference, e.nameText?)) =
      some [some (true, some "Y"), some (false, none)]) := by decide +kernel
  obtain ⟨t, ht, hfields⟩ := Option.map_eq_some_iff.1 hread
  rw [toOption_eq_some_iff] at ht
  have hp := isBound_of_read (read_singleton ht)
  have hinits : (t.root.allTypes.flatMap fun d => d.constFields.map fun decl =>
      (some t.file, decl.init)).map (fun x => x.2.map fun e => (e.isReference, e.nameText?)) =
      [some (true, some "Y"), some (false, none)] := by
    rw [List.map_flatMap, ← hfields]
    simp only [List.map_map, Function.comp_def]
  obtain ⟨x, rest, hx, hsummary, -⟩ := List.map_eq_cons_iff.1 hinits
  obtain ⟨k, f, hf, rfl, hfirst⟩ := exists_first_constField (p := ofTrees [t] [_])
    (Eq.trans (List.flatMap_singleton _ _) hx)
  obtain ⟨hname, htext⟩ := Prod.mk.inj (Option.some.inj hsummary)
  obtain ⟨-, ⟨t', ht', hfile, hnodes⟩ | ⟨-, hliteral⟩⟩ :=
    hp.constField_cases (mem_constFields.1 (List.mem_of_getElem? hf))
  · obtain rfl := List.mem_singleton.1 ht'
    rw [SyntaxTree.file_of_parse ht] at hfile
    have he : .expr f.init ∈ t'.root.nodes := hnodes (Expr.mem_nodes _)
    have hmodel : (ofTrees [t'] [(stripMarkers ahead).2]).model? 0 =
        some ⟨ofTrees [t'] [(stripMarkers ahead).2], t'⟩ := rfl
    have hiff (v : String) := constant?_iff_folds (v := v) (read_singleton ht) hmodel he hname
    refine ⟨_, _, f.init, read_singleton ht, rfl, he, hname, htext, hiff, fun v hv => ?_⟩
    have hnot := hp.not_folds_first (v := v) hf hfirst (Expr.mem_nodes _) hname
    rw [hfile] at hnot
    exact hnot ((hiff v).1 hv)
  · rw [hliteral] at hname
    cases hname

end Project

end PropertyLint
