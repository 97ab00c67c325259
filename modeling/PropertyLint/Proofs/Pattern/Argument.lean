/-
# Arguments that are read for parameters

The argument that is read for a parameter of a call is the one that was passed to the parameter when
the method was chosen (`exists_passedTo?_of_argumentFor?`): a name counts in the same way for both,
and the place of a parameter is its number.  So a value that is read has a type that the parameter
takes.
-/
import PropertyLint.Pattern.Argument
import PropertyLint.Proofs.Binding.BoundBodies
import PropertyLint.Proofs.Binding.Called
import PropertyLint.Proofs.Binding.Single
import PropertyLint.Proofs.Syntax.Total

namespace PropertyLint

namespace Compilation

variable {c c' : Compilation} {ids : List SymbolId} {k : Nat} {method : SymbolId}
  {params : List ParameterSymbol} {q : ParameterSymbol} {param : String}

/-! ## Parameters -/

/-- The first parameter of a method with a name. -/
def paramNamed? (c : Compilation) (method : SymbolId) (name : String) : Option ParameterSymbol :=
  (c.methodParams? method).bind fun params => params.find? fun q => q.name == name

/-- Parameters stand in the places that their numbers say. -/
theorem InPlaces.exists_place (h : c.InPlaces k ids) (hq : q ∈ ids.filterMap c.parameter?) :
    ∃ i, q.ordinal = k + i ∧ (ids.filterMap c.parameter?)[i]? = some q := by
  induction ids generalizing k with
  | nil => cases hq
  | cons id ids ih =>
    obtain ⟨first, hfirst, hordinal⟩ := h 0 id rfl
    have hrest : c.InPlaces (k + 1) ids := fun i other hother => by
      obtain ⟨p, hp, hplace⟩ := h (i + 1) other hother
      exact ⟨p, hp, by omega⟩
    rw [List.filterMap_cons_some hfirst] at hq ⊢
    rcases List.mem_cons.1 hq with rfl | hq
    · exact ⟨0, hordinal, rfl⟩
    · obtain ⟨i, hplace, hget⟩ := ih hrest hq
      exact ⟨i + 1, by omega, hget⟩

theorem InPlaces.filterMap_eq (h : c.InPlaces k ids) (hle : c ≤ c') :
    ids.filterMap c'.parameter? = ids.filterMap c.parameter? := by
  refine List.filterMap_congr fun id hid => ?_
  obtain ⟨i, hi⟩ := List.mem_iff_getElem?.1 hid
  obtain ⟨p, hp, -⟩ := h i id hi
  rw [hp, parameter?_of_le hp hle]

theorem Orderly.params_inPlaces {m : MethodSymbol} (h : c.Orderly) (hm : c.method? method = some m) :
    c.InPlaces 0 m.params := by
  obtain ⟨s, hs, hmethod⟩ := Option.bind_eq_some_iff.1 hm
  have horderly := h.symbols method s hs
  cases s with
  | method m' =>
    obtain rfl := Option.some.inj hmethod
    exact horderly
  | _ => cases hmethod

/-- In an orderly compilation the place of a parameter is its number. -/
theorem Orderly.getElem?_ordinal (h : c.Orderly) (hparams : c.methodParams? method = some params)
    (hq : q ∈ params) : params[q.ordinal]? = some q := by
  obtain ⟨m, hm, rfl⟩ := Option.map_eq_some_iff.1 hparams
  obtain ⟨i, hordinal, hget⟩ := (h.params_inPlaces hm).exists_place hq
  rw [hordinal, Nat.zero_add]
  exact hget

theorem Valid.isType_of_mem_params (h : c.Valid) (hparams : c.methodParams? method = some params)
    (hq : q ∈ params) : ∀ t ∈ q.type, c.IsType t := by
  obtain ⟨m, -, rfl⟩ := Option.map_eq_some_iff.1 hparams
  obtain ⟨id, -, hid⟩ := List.mem_filterMap.1 hq
  obtain ⟨s, hs, hq⟩ := Option.bind_eq_some_iff.1 hid
  have hsound := h.symbols id s hs
  cases s with
  | parameter q' =>
    obtain rfl := Option.some.inj hq
    exact hsound
  | _ => cases hq

/-- The parameters of a method stay the same. -/
theorem Extends.methodParams? (h : c.Extends c') (ho : c.Orderly)
    (hparams : c.methodParams? method = some params) : c'.methodParams? method = some params := by
  obtain ⟨m, hm, rfl⟩ := Option.map_eq_some_iff.1 hparams
  have hsame : c'.paramsOf m = c.paramsOf m := (ho.params_inPlaces hm).filterMap_eq h.le
  rw [Compilation.methodParams?, h.method? hm, Option.map_some, hsame]

/-- What a parameter takes is something that it takes later. -/
theorem Takes.later {source target : Option SymbolId} (h : c.Takes source target)
    (hlater : c.Extends c') (hc : c.Valid) (ho : c.Orderly) (hsource : ∀ s ∈ source, c.IsType s)
    (htarget : ∀ t ∈ target, c.IsType t) : c'.Takes source target := by
  intro s hs t ht hparam
  rw [hlater.isTypeParam_eq (htarget t ht)] at hparam
  exact (h s hs t ht hparam).imp (hlater.typesEqual hc)
    (hlater.isAssignableTo hc ho (hsource s hs) (htarget t ht))

/-! ## Arguments -/

variable {args : ArgumentList Expr} {a : Argument Expr}

/-- The argument that is read for a parameter is passed to it when a method is chosen. -/
theorem Orderly.exists_passedTo?_of_argumentFor? (ho : c.Orderly)
    (hparams : c.methodParams? method = some params) (ha : c.argumentFor? method args param = some a)
    (hq : params.find? (fun q => q.name == param) = some q) :
    ∃ i, args.args[i]? = some a ∧ ∀ type, passedTo? params i ⟨a.paramName?, type⟩ = some q := by
  rw [argumentFor?, Option.orElse_eq_some] at ha
  rcases ha with hnamed | ⟨-, hplaced⟩
  · -- an argument that is written with the name
    obtain ⟨i, hi⟩ := List.mem_iff_getElem?.1 (List.mem_of_find?_eq_some hnamed)
    have hname := List.find?_some hnamed
    obtain ⟨⟨ident, kind⟩, hname, htext⟩ := (Option.any_eq_true _ _).1 hname
    obtain ⟨hkind, htext⟩ := Bool.and_eq_true_iff.1 htext
    obtain rfl : kind = .colon := eq_of_beq hkind
    have hparam : a.paramName? = some param := by
      rw [Argument.paramName?, hname]
      exact congrArg some (eq_of_beq htext)
    refine ⟨i, hi, fun type => ?_⟩
    rw [passedTo?, hparam]
    exact hq
  · -- an argument without a name, at the place of the parameter
    obtain ⟨m, hm, hplaced⟩ := Option.bind_eq_some_iff.1 hplaced
    obtain ⟨q', hq', hplaced⟩ := Option.bind_eq_some_iff.1 hplaced
    obtain rfl : c.paramsOf m = params := by
      rw [methodParams?, hm] at hparams
      exact Option.some.inj hparams
    obtain rfl : q' = q := Option.some.inj (hq'.symm.trans hq)
    obtain ⟨hi, hnone⟩ := Option.filter_eq_some_iff.1 hplaced
    have hparam : a.paramName? = none := by
      rw [Argument.paramName?, Option.isNone_iff_eq_none.1 hnone]
    refine ⟨q'.ordinal, hi, fun type => ?_⟩
    rw [passedTo?, hparam]
    exact ho.getElem?_ordinal hparams (List.mem_of_find?_eq_some hq)

/-- A parameter takes the argument that is read for it. -/
theorem HasChosen.takes {f : Facts} {file : Option FileId}
    (h : c.HasChosen c' (f.passed file args.args) method)
    (hq : c'.paramNamed? method param = some q) (ha : c'.argumentFor? method args param = some a) :
    c'.Takes (f.type? ⟨file, a.value.id⟩) q.type := by
  obtain ⟨score, hscore⟩ := Option.isSome_iff_exists.1 h.score
  obtain ⟨params, hparams, -, hfit, -⟩ := callScore?_eq_some_iff.1 hscore
  have hparams' := h.later.methodParams? h.orderly hparams
  rw [paramNamed?, hparams'] at hq
  obtain ⟨i, hi, hpassed⟩ :=
    (h.later.orderly h.orderly).exists_passedTo?_of_argumentFor? hparams' ha hq
  have harg : (f.passed file args.args)[i]? = some ⟨a.paramName?, f.type? ⟨file, a.value.id⟩⟩ := by
    rw [Facts.passed, List.getElem?_map, hi]
    rfl
  obtain ⟨q', hq', htakes⟩ := hfit (_, i) (List.mem_zipIdx_iff_getElem?.2 harg)
  obtain rfl : q' = q := Option.some.inj (hq'.symm.trans (hpassed _))
  exact htakes.later h.later h.valid h.orderly (h.types _ (List.mem_of_getElem? harg))
    (h.valid.isType_of_mem_params hparams (List.mem_of_find?_eq_some hq))

end Compilation

/-- The value of the argument that is read for a parameter of a call has a type that is equal or
assignable to that of the parameter, if both are known and the latter is no type parameter. -/
theorem Model.argumentFor?_fits {files : List String} {p : Project} {file : FileId} {m : Model}
    {e : Expr} {args : ArgumentList Expr} {method : SymbolId} {param : String}
    {q : ParameterSymbol} {a : Argument Expr} {source target : SymbolId}
    (hread : Project.read files = .ok p) (hm : p.model? file = some m)
    (he : .expr e ∈ m.tree.root.nodes) (hargs : e.argumentList? = some args)
    (hmethod : m.symbol? e.id = some method) (hq : m.comp.paramNamed? method param = some q)
    (ha : m.comp.argumentFor? method args param = some a)
    (hsource : m.type? a.value.id = some source) (htarget : q.type = some target)
    (hparam : m.comp.isTypeParam target = false) :
    m.comp.typesEqual source target = true ∨ m.comp.isAssignableTo source target = true := by
  have hp := Project.isBound_of_read hread
  obtain ⟨tree, htree, rfl⟩ := Option.map_eq_some_iff.1 hm
  have hwrites : p.Writes (some tree.file) e := ⟨tree, List.mem_of_getElem? htree, rfl, he⟩
  obtain ⟨scope, t, hfile, hruns⟩ := hp.exists_runs hwrites hmethod
  have hfacts := hp.facts_eq_stage (Nat.le_refl p.constFields.length)
  have hbound : (p.stage p.constFields.length).facts.symbol? ⟨scope.file, e.id⟩ = some method := by
    rw [← hfacts, hfile]
    exact hmethod
  obtain ⟨c, hchosen⟩ := hruns.hasChosen hp.toIsRead hargs hbound
  have hcomp : p.comp = (p.stage p.constFields.length).comp.withKnown :=
    hp.comp_eq_stage (Nat.le_refl p.constFields.length)
  have hlater : c.Extends p.comp := by
    rw [hcomp]
    exact hchosen.later.trans (Compilation.extends_withKnown _)
  rw [← hfacts, hfile] at hchosen
  have htakes := Compilation.HasChosen.takes { hchosen with later := hlater } hq ha
  exact htakes source hsource target htarget hparam

/-! ## A call -/

/-- An interface with a method that calls itself. -/
def selfCalling : String := "interface A \x7b void M(bool a) => this.M(true); \x7d"

/-- The argument that the method passes to itself. -/
def selfCallArg : Argument Expr := ⟨⟨6, ⟨39, 43⟩⟩, none, .literal ⟨5, ⟨39, 43⟩⟩ (.bool true)⟩

/-- The call of the method. -/
def selfCall : Expr :=
  .invoke ⟨7, ⟨32, 44⟩⟩ (.member ⟨4, ⟨32, 38⟩⟩ (.self ⟨3, ⟨32, 36⟩⟩) ⟨"M", ⟨37, 38⟩⟩)
    ⟨⟨38, 44⟩, [selfCallArg]⟩

/-- The method. -/
def selfCallingMethod : MethodDecl :=
  { node := ⟨8, ⟨14, 45⟩⟩, doc := none, attributes := [], modifiers := [], name := ⟨"M", ⟨19, 20⟩⟩
    returnType := .keyword ⟨0, ⟨14, 18⟩⟩ .void
    interface := none
    typeParams := []
    params :=
      [{ node := ⟨2, ⟨21, 27⟩⟩, attributes := [], receiver := false
         type := .keyword ⟨1, ⟨21, 25⟩⟩ .bool, name := ⟨"a", ⟨26, 27⟩⟩, default := none }]
    body := ⟨none, some selfCall⟩ }

/-- The interface without its method. -/
def selfCallingHeader : TypeHeader :=
  { node := ⟨9, ⟨0, 47⟩⟩, doc := none, attributes := [], modifiers := [], name := ⟨"A", ⟨10, 11⟩⟩
    namespaceName := none, kind := .interface, typeParams := [], bases := [] }

/-- The tree of the file. -/
def selfCallingTree : SyntaxTree :=
  { file := 0, text := selfCalling
    root := { types := [.mk selfCallingHeader [.method selfCallingMethod]] } }

/-- The tokens of the file. -/
def selfCallingTokens : List Token :=
  [⟨.word "interface", ⟨0, 9⟩, none⟩, ⟨.word "A", ⟨10, 11⟩, none⟩,
    ⟨.punct .openBrace, ⟨12, 13⟩, none⟩, ⟨.word "void", ⟨14, 18⟩, none⟩,
    ⟨.word "M", ⟨19, 20⟩, none⟩, ⟨.punct .openParen, ⟨20, 21⟩, none⟩,
    ⟨.word "bool", ⟨21, 25⟩, none⟩, ⟨.word "a", ⟨26, 27⟩, none⟩,
    ⟨.punct .closeParen, ⟨27, 28⟩, none⟩, ⟨.punct .arrow, ⟨29, 31⟩, none⟩,
    ⟨.word "this", ⟨32, 36⟩, none⟩, ⟨.punct .dot, ⟨36, 37⟩, none⟩, ⟨.word "M", ⟨37, 38⟩, none⟩,
    ⟨.punct .openParen, ⟨38, 39⟩, none⟩, ⟨.word "true", ⟨39, 43⟩, none⟩,
    ⟨.punct .closeParen, ⟨43, 44⟩, none⟩, ⟨.punct .semicolon, ⟨44, 45⟩, none⟩,
    ⟨.punct .closeBrace, ⟨46, 47⟩, none⟩]

set_option maxRecDepth 10000 in
theorem parse_selfCalling : SyntaxTree.parse 0 selfCalling = .ok selfCallingTree := by
  have htokens : tokenize selfCalling = .ok selfCallingTokens := by
    rw [← toOption_eq_some_iff]
    decide +kernel
  rw [SyntaxTree.parse_of_tokenize htokens, startOf,
    show byteLength selfCalling.toList = 47 by decide +kernel]
  rfl

open Binder Compilation in
/-- The method has been declared with a parameter of the type of truth values. -/
theorem membersDeclared_selfCalling {sources : List Source} {b : SymbolId} {t : TypeSymbol}
    (hb : (typesDeclared sources).2.comp.typeNamed? "System.Boolean" = some b)
    (ht : (typesDeclared sources).2.comp.type? b = some t) :
    ∃ (d : DeclaredType) (M Q : SymbolId) (owner : TypeSymbol) (m : MethodSymbol)
      (q : ParameterSymbol),
      d.source = selfCallingTree.source ∧
      d.decl = .mk selfCallingHeader [.method selfCallingMethod] ∧
      (typesDeclared (sources ++ [selfCallingTree.source])).1 = (typesDeclared sources).1 ++ [d] ∧
      (membersDeclared (sources ++ [selfCallingTree.source])).2.comp.type? d.symbol = some owner ∧
      owner.members = [M] ∧ owner.baseType = none ∧ owner.interfaces = [] ∧
      owner.genericDefinition = none ∧
      (membersDeclared (sources ++ [selfCallingTree.source])).2.comp.method? M = some m ∧
      m.name = "M" ∧ m.params = [Q] ∧
      (membersDeclared (sources ++ [selfCallingTree.source])).2.comp.parameter? Q = some q ∧
      q.name = "a" ∧ q.ordinal = 0 ∧ q.type = some b ∧
      (membersDeclared (sources ++ [selfCallingTree.source])).2.comp.typeNamed? "System.Boolean" =
        some b ∧
      ∃ t', (membersDeclared (sources ++ [selfCallingTree.source])).2.comp.type? b = some t' ∧
        t'.kind = t.kind := by
  obtain ⟨d, s, s', hd, htypes, hgrow, howner, hrest, hlast⟩ :=
    membersDeclared_concat (show selfCallingTree.source.root.types =
      [.mk selfCallingHeader [.method selfCallingMethod]] from rfl) rfl rfl rfl
      (List.forall_mem_singleton.2 rfl) sources
  obtain ⟨M, Q, m, q, c, hcomp, hgrow', howner, ⟨hlt, hM⟩, ⟨hlt', hQ⟩, hname, hids, hparam, hordinal,
    htype⟩ := declareMethod_run (show selfCallingMethod.typeParams = [] from rfl) rfl rfl rfl rfl
    howner
  have hcontents : ((declareContents d).run s).2.comp = c := by
    rw [← hcomp, hd]
    rfl
  rw [hcontents] at hrest
  have hd' : d.symbol < s.comp.symbols.size := lt_of_type?_eq_some ‹_›
  have howner' := hrest.type? howner (Nat.lt_irrefl _)
  have hM' := hrest.symbol? hM (Nat.not_lt.2 (Nat.le_trans (Nat.le_of_lt hd') hlt))
  have hQ' := hrest.symbol? hQ (Nat.not_lt.2 (Nat.le_trans (Nat.le_of_lt hd') hlt'))
  have hall := (hgrow.trans (hgrow'.mono (Set.subset_univ _))).trans
    (hrest.mono (Set.subset_univ _))
  rw [addImplicit_run_of_interface howner' rfl] at hlast
  rw [hlast]
  refine ⟨d, M, Q, _, m, q, by rw [hd], by rw [hd], htypes, howner', rfl, rfl, rfl, rfl, ?_, hname,
    hids, ?_, hparam, hordinal, htype.trans (hgrow.typeNamed? hb), hall.typeNamed? hb, hall.kind ht⟩
  · rw [Compilation.method?, hM']
    rfl
  · rw [Compilation.parameter?, hQ']
    rfl

open Compilation in
/-- Without base types a type has only its own members. -/
theorem lookupMembers_of_parents_eq_nil {c : Compilation} {A M : SymbolId} {owner : TypeSymbol}
    {m : MethodSymbol} (howner : c.type? A = some owner) (hparents : owner.parents = [])
    (hdefinition : owner.genericDefinition = none) (hmembers : owner.members = [M])
    (hM : c.method? M = some m) : c.lookupMembers A m.name = [M] := by
  have hself : c.definition A = A := by
    rw [definition, howner, Option.bind_some, hdefinition, Option.getD_none]
  have hbases : c.baseTypes A = [] := by
    rw [baseTypes, Compilation.parents, howner, Option.map_some, Option.getD_some, hparents]
    rfl
  have hname : c.nameOf M = m.name := by
    obtain ⟨s, hs, hm⟩ := Option.bind_eq_some_iff.1 hM
    rw [nameOf, hs]
    cases s with
    | method m' => exact congrArg MethodSymbol.name (Option.some.inj hm)
    | _ => cases hm
  rw [lookupMembers, selfAndBaseTypes, hbases, List.flatMap_cons, List.flatMap_nil, List.append_nil,
    membersNamed, hself, howner, Option.map_some, Option.getD_some, hmembers]
  exact List.filter_eq_self.2 fun x hx => by rw [List.mem_singleton.1 hx, hname, beq_self_eq_true]

open Compilation in
/-- A method with one parameter can be called with a value of the parameter's type. -/
theorem pickOverload_of_type_eq {c : Compilation} {M Q : SymbolId} {b : Option SymbolId}
    {m : MethodSymbol} {q : ParameterSymbol} (hM : c.method? M = some m) (hparams : m.params = [Q])
    (hQ : c.parameter? Q = some q) (htype : q.type = b) :
    c.pickOverload [M] [⟨none, b⟩] = some M := by
  have hparams : c.methodParams? M = some [q] := by
    rw [methodParams?, hM, Option.map_some, paramsOf, hparams, List.filterMap_cons_some hQ]
    rfl
  have hfits : c.ArgsFit [q] [⟨none, b⟩] := by
    rintro e he
    obtain rfl := List.mem_singleton.1 he
    refine ⟨q, rfl, fun s hs t ht _ => .inl ?_⟩
    obtain rfl : s = t := Option.some.inj (hs.symm.trans (htype ▸ ht))
    exact c.typesEqual_equivalence.refl s
  have hcount : (requiredPlaces [q]).length ≤ 1 := by
    rw [length_requiredPlaces]
    exact List.length_filter_le _ _
  have hscore : c.callScore? [⟨none, b⟩] M = some (c.argsScore [q] [⟨none, b⟩]) :=
    callScore?_eq_some_iff.2 ⟨_, hparams, ⟨hcount, Nat.le_refl 1⟩, hfits, rfl⟩
  simp only [pickOverload, List.filterMap_cons, hscore, Option.map_some]
  rfl

theorem memberMeaning_run (scope : Scope) (node : Node) (first : SymbolId) (rest : List SymbolId)
    (s : BindState) : (memberMeaning scope node (first :: rest)).run s =
      (if (s.comp.method? first).isSome then
        pure (.methods ((first :: rest).filter fun m => (s.comp.method? m).isSome))
      else do
        Binder.recordSymbol scope node.id first
        if let some v := s.fieldConstants.lookup first then
          Binder.recordConstant scope node.id v
        return .value (s.comp.valueType? first) : Binder Meaning).run s := rfl

/-- A single method that members are found for is the only candidate. -/
theorem memberMeaning_run_of_method {scope : Scope} {node : Node} {s : BindState} {M : SymbolId}
    {m : MethodSymbol} (hM : s.comp.method? M = some m) :
    (memberMeaning scope node [M]).run s = (.methods [M], s) := by
  have hmethod : (s.comp.method? M).isSome = true := by rw [hM, Option.isSome_some]
  have hall : [M].filter (fun m => (s.comp.method? m).isSome) = [M] :=
    List.filter_eq_self.2 fun x hx => by rw [List.mem_singleton.1 hx, hmethod]
  rw [memberMeaning_run, if_pos hmethod, hall]
  rfl

open Binder Compilation in
/-- The method is chosen for the call. -/
theorem bindExpr_selfCall {scope : Scope} {s : BindState} {A M Q b : SymbolId}
    {owner : TypeSymbol} {m : MethodSymbol} {q : ParameterSymbol}
    (hscope : scope.type = some A) (howner : s.comp.type? A = some owner)
    (hparents : owner.parents = []) (hdefinition : owner.genericDefinition = none)
    (hmembers : owner.members = [M]) (hM : s.comp.method? M = some m) (hname : m.name = "M")
    (hparams : m.params = [Q]) (hQ : s.comp.parameter? Q = some q) (htype : q.type = some b)
    (hb : s.comp.typeNamed? "System.Boolean" = some b) :
    ((bindExpr scope selfCall).run s).2.facts.symbol? ⟨scope.file, 7⟩ = some M ∧
      ((bindExpr scope selfCall).run s).2.facts.type? ⟨scope.file, 5⟩ = some b := by
  -- the argument
  have hconstant : (bindLiteral scope ⟨5, ⟨39, 43⟩⟩ (.bool true)).run s =
      (.value (some b),
        { s with facts := s.facts.addConstant ⟨scope.file, 5⟩ (.bool true) }) := by
    rw [← hb]
    rfl
  have hargs : ∃ s₁ : BindState, (bindArgs scope [selfCallArg]).run s = ([⟨none, some b⟩], s₁) ∧
      s₁.comp = s.comp ∧ s₁.facts.type? ⟨scope.file, 5⟩ = some b := by
    refine ⟨{ s with facts :=
      (s.facts.addConstant ⟨scope.file, 5⟩ (.bool true)).addType ⟨scope.file, 5⟩ b }, ?_, rfl,
      List.lookup_cons_self⟩
    rw [selfCallArg, bindArgs, bindExpr, bind_assoc, bind_run hconstant]
    rfl
  obtain ⟨s₁, hargs, hcomp₁, htype₁⟩ := hargs
  rw [← hcomp₁] at howner hM hQ
  -- the callee
  have hself : (bindExpr scope (.self ⟨3, ⟨32, 36⟩⟩)).run s₁ =
      (.value (some A), { s₁ with facts := s₁.facts.addType ⟨scope.file, 3⟩ A }) := by
    rw [bindExpr, hscope]
    rfl
  have hcallee : ∃ s₂ : BindState,
      (bindExpr scope (.member ⟨4, ⟨32, 38⟩⟩ (.self ⟨3, ⟨32, 36⟩⟩) ⟨"M", ⟨37, 38⟩⟩)).run s₁ =
        (.methods [M], s₂) ∧ s₂.comp = s₁.comp ∧ s₂.facts.type? ⟨scope.file, 5⟩ = some b := by
    refine ⟨{ s₁ with facts := s₁.facts.addType ⟨scope.file, 3⟩ A }, ?_, rfl, ?_⟩
    · have hfound := lookupMembers_of_parents_eq_nil howner hparents hdefinition hmembers hM
      rw [hname] at hfound
      have hmember : (bindMember scope ⟨4, ⟨32, 38⟩⟩ (.value (some A)) "M").run
          { s₁ with facts := s₁.facts.addType ⟨scope.file, 3⟩ A } =
            (memberMeaning scope ⟨4, ⟨32, 38⟩⟩ (s₁.comp.lookupMembers A "M")).run
              { s₁ with facts := s₁.facts.addType ⟨scope.file, 3⟩ A } := rfl
      rw [hfound] at hmember
      rw [bindExpr, bind_run hself, bind_run (hmember.trans (memberMeaning_run_of_method hM))]
      rfl
    · rw [Facts.type?, Facts.addType, lookup_cons_of_ne (by simp)]
      exact htype₁
  obtain ⟨s₂, hcallee, hcomp₂, htype₂⟩ := hcallee
  rw [← hcomp₂] at hM hQ
  -- the choice
  have hpick : s₂.comp.withKnown.pickOverload [M] [⟨none, some b⟩] = some M :=
    pickOverload_of_type_eq hM hparams hQ htype
  have hrun : (bindExpr scope selfCall).run s = (bindCall scope ⟨7, ⟨32, 44⟩⟩ ⟨4, ⟨32, 38⟩⟩
      (.methods [M]) [⟨none, some b⟩] >>= recordMeaning scope ⟨7, ⟨32, 44⟩⟩).run s₂ := by
    rw [selfCall, bindExpr, if_neg (by decide), bind_run hargs, bind_run hcallee]
    rfl
  obtain ⟨found, hfound⟩ := bindCall_givesValue scope ⟨7, ⟨32, 44⟩⟩ ⟨4, ⟨32, 38⟩⟩ (.methods [M])
    [⟨none, some b⟩] s₂
  have hcall : ((bindCall scope ⟨7, ⟨32, 44⟩⟩ ⟨4, ⟨32, 38⟩⟩ (.methods [M]) [⟨none, some b⟩]).run
      s₂).2 = _ := bindCall_run ⟨7, ⟨32, 44⟩⟩ ⟨4, ⟨32, 38⟩⟩ [M] [⟨none, some b⟩] s₂
  rw [hpick] at hcall
  rw [hrun, bind_run (Prod.ext hfound hcall)]
  obtain ⟨-, -, -, hframe⟩ := recordMeaning_frame scope ⟨7, ⟨32, 44⟩⟩ (.value found)
    { s₂ with
      comp := s₂.comp.withKnown
      facts := (s₂.facts.addSymbol ⟨scope.file, 7⟩ M).addSymbol ⟨scope.file, 4⟩ M }
  refine ⟨?_, (hframe _ (by simp)).1.trans htype₂⟩
  rw [Facts.symbol?, recordMeaning_value_symbols]
  exact (lookup_cons_of_ne (by simp) _ _).trans List.lookup_cons_self

open Project in
/-- The framework has the type of truth values. -/
theorem exists_boolean : ∃ b t,
    (typesDeclared [frameworkSource]).2.comp.typeNamed? "System.Boolean" = some b ∧
      (typesDeclared [frameworkSource]).2.comp.type? b = some t ∧ t.kind = .struct := by
  have h : (((typesDeclared [frameworkSource]).2.comp.typeNamed? "System.Boolean").any fun b =>
      ((typesDeclared [frameworkSource]).2.comp.type? b).any fun t => t.kind == .struct) = true := by
    decide +kernel
  obtain ⟨b, hb, h⟩ := Option.any_eq_true _ _ |>.1 h
  obtain ⟨t, ht, hkind⟩ := Option.any_eq_true _ _ |>.1 h
  exact ⟨b, t, hb, ht, eq_of_beq hkind⟩

open Binder in
/-- Of the interface only the call is bound. -/
theorem bindTypeBody_selfCalling {d : DeclaredType}
    (hdecl : d.decl = .mk selfCallingHeader [.method selfCallingMethod]) (s : BindState) :
    ∃ typeParams locals, ((bindTypeBody d).run s).2.facts =
      ((bindExpr { d.scope with methodTypeParams := typeParams } selfCall).run
        { s with locals }).2.facts := by
  have hmembers : d.decl.ownMembers = [.method selfCallingMethod] := by rw [hdecl]; rfl
  have hattributes : d.decl.attributes = [] := by rw [hdecl]; rfl
  have hrun : ((bindTypeBody d).run s).2.facts =
      ((bindMemberBody d.scope (.method selfCallingMethod)).run { s with locals := [] }).2.facts := by
    simp only [bindTypeBody, hmembers, hattributes, bindAttributes, List.forM_nil, List.forM_cons,
      List.forM_eq_forM, pure_bind]
    rfl
  rw [hrun]
  let scope : Scope := { d.scope with
    methodTypeParams := (s.methodTypeParams.lookup ⟨d.scope.file, 8⟩).getD [] }
  exact ⟨scope.methodTypeParams, paramLocals s.facts scope selfCallingMethod.params, rfl⟩

open Project Compilation in
/-- In a project with the interface as its only file the method is chosen for the call, and the
value that is passed has the type of the parameter. -/
theorem Project.IsBound.exists_selfCall {p : Project} (hp : p.IsBound)
    (hsources : p.sources = [frameworkSource] ++ [selfCallingTree.source]) :
    ∃ (M b : SymbolId) (q : ParameterSymbol), p.facts.symbol? ⟨some 0, 7⟩ = some M ∧
      p.facts.type? ⟨some 0, 5⟩ = some b ∧ p.comp.paramNamed? M "a" = some q ∧
      p.comp.argumentFor? M ⟨⟨38, 44⟩, [selfCallArg]⟩ "a" = some selfCallArg ∧ q.type = some b ∧
      p.comp.isTypeParam b = false := by
  -- the method and its parameter
  obtain ⟨b, t, hb, ht, hkind⟩ := exists_boolean
  obtain ⟨d, M, Q, owner, m, q, hd, hdecl, htypes, howner, hmembers, hbase, hinterfaces, hdefinition,
    hM, hname, hparams, hQ, hparam, hordinal, htype, hb', t', ht', hkind'⟩ :=
    membersDeclared_selfCalling hb ht
  rw [← hsources, ← evaluated_zero] at howner hM hQ hb' ht'
  have hparents : owner.parents = [] := by
    rw [TypeSymbol.parents, hbase, hinterfaces]
    rfl
  -- the call
  have hevaluated := (hp.evaluated_bound p.constFields.length).comp
  have hstage : p.stage p.constFields.length =
      ((bindTypeBody d).run (p.evaluated p.constFields.length)).2 := by
    rw [stage_length, hsources]
    exact bindBodies_concat rfl rfl htypes hd (List.forall_mem_singleton.2 rfl) _
  obtain ⟨typeParams, locals, hfacts⟩ :=
    bindTypeBody_selfCalling hdecl (p.evaluated p.constFields.length)
  rw [← hstage] at hfacts
  have hboolean : (p.evaluated p.constFields.length).comp.typeNamed? "System.Boolean" = some b := by
    rw [Compilation.typeNamed?, hevaluated.registry]
    exact hb'
  have hscope : ({ d.scope with methodTypeParams := typeParams } : Scope).type = some d.symbol := rfl
  obtain ⟨hsymbol, hargument⟩ := bindExpr_selfCall
    (s := { p.evaluated p.constFields.length with locals }) hscope (hevaluated.type? howner) hparents
    hdefinition hmembers (hevaluated.method? hM) hname hparams
    (parameter?_of_le hQ hevaluated.le) htype hboolean
  have hfile : ({ d.scope with methodTypeParams := typeParams } : Scope).file = some 0 := by
    rw [DeclaredType.scope, hd]
    rfl
  rw [← hfacts, ← hp.facts_eq_stage (Nat.le_refl _), hfile] at hsymbol hargument
  -- what is known of the method in the end
  have hlater : (p.evaluated 0).comp.Extends p.comp := by
    rw [hp.comp_eq_stage (Nat.le_refl _)]
    exact hp.bound.comp.trans (extends_withKnown _)
  have hm : p.comp.method? M = some m := hlater.method? hM
  have hq : p.comp.parameter? Q = some q := parameter?_of_le hQ hlater.le
  have hparamsOf : p.comp.paramsOf m = [q] := by
    rw [paramsOf, hparams, List.filterMap_cons_some hq]
    rfl
  refine ⟨M, b, q, hsymbol, hargument, ?_, ?_, htype, ?_⟩
  · rw [paramNamed?, methodParams?, hm, Option.map_some, Option.bind_some, hparamsOf]
    simp [hparam]
  · rw [argumentFor?, hm]
    simp [hparamsOf, hparam, hordinal, selfCallArg, ArgumentList.passedAs?]
  · rw [isTypeParam, hlater.type? ht', Option.any_some, hkind', hkind]
    rfl

open Project in
/-- The method of the interface passes itself a value of the parameter's type. -/
theorem Model.argumentFor?_fits_selfCalling : ∃ (p : Project) (m : Model) (method : SymbolId)
    (q : ParameterSymbol) (source target : SymbolId),
    Project.read [selfCalling] = .ok p ∧ p.model? 0 = some m ∧
      .expr selfCall ∈ m.tree.root.nodes ∧
      selfCall.argumentList? = some ⟨⟨38, 44⟩, [selfCallArg]⟩ ∧
      m.symbol? selfCall.id = some method ∧ m.comp.paramNamed? method "a" = some q ∧
      m.comp.argumentFor? method ⟨⟨38, 44⟩, [selfCallArg]⟩ "a" = some selfCallArg ∧
      m.type? selfCallArg.value.id = some source ∧ q.type = some target ∧
      m.comp.isTypeParam target = false ∧
      (m.comp.typesEqual source target = true ∨ m.comp.isAssignableTo source target = true) := by
  have hparse : SyntaxTree.parse 0 (stripMarkers selfCalling).1 = .ok selfCallingTree := by
    have hstrip : stripMarkers selfCalling = (selfCalling, []) := by decide +kernel
    rw [hstrip, parse_selfCalling]
  have hread := read_singleton hparse
  obtain ⟨M, b, q, hsymbol, hargument, hnamed, hread', htype, htypeParam⟩ :=
    (isBound_of_read hread).exists_selfCall rfl
  have hmodel : (ofTrees [selfCallingTree] [(stripMarkers selfCalling).2]).model? 0 =
      some ⟨ofTrees [selfCallingTree] [(stripMarkers selfCalling).2], selfCallingTree⟩ := rfl
  have hcall : .expr selfCall ∈ selfCallingTree.root.nodes := List.mem_of_getElem? (i := 5) rfl
  exact ⟨_, _, M, q, b, b, hread, hmodel, hcall, rfl, hsymbol, hnamed, hread',
    hargument, htype, htypeParam,
    Model.argumentFor?_fits hread hmodel hcall rfl hsymbol hnamed hread' hargument htype htypeParam⟩

end PropertyLint
