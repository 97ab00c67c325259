/-
# Statements around a confirmed call

A check that finds a call of the framework's in a block reports the other statements of the block.
The call is found by one walk through the body and located by its identity in another one, through
each statement.  Identities are those of one node, and both walks visit what stands in the block, so
exactly one statement of it holds the call, however deep (`Part.exists_statement_of_has`,
`SyntaxTree.holds_iff_has`), and the findings of the rule in the block are those of the others
(`SyntaxTree.sideEffects_exact`).
-/
import PropertyLint.Proofs.Lint.Member

namespace PropertyLint

/-! ## The code of statements -/

namespace Part

variable {cs : List Char} {p q : Part} {b : Block Stmt}

theorem WellNested.mem_exprs_stmt_iff {s : Stmt} {e : Expr} (h : (Part.stmt s).WellNested cs) :
    e ∈ s.exprs ↔ (Part.stmt s).Has (.expr e) := by
  have hcode := h.mem_code_iff_hasCode (e := e) rfl (by simp)
  exact hcode.trans ⟨HasCode.has, fun hhas => (hhas.hasCode rfl).1⟩

/-- What stands in a block stands in exactly one statement of it. -/
theorem exists_statement_of_has (h : (Part.block b).WellNested cs) {e : Expr}
    (he : (Part.block b).Has (.expr e)) :
    ∃ before s behind, b.statements = before ++ s :: behind ∧ (Part.stmt s).Has (.expr e) ∧
      ∀ s' ∈ before ++ behind, ¬ (Part.stmt s').Has (.expr e) := by
  rcases has_iff.1 he with heq | ⟨p, hp, hhas⟩
  · cases heq
  obtain ⟨s, hs, rfl⟩ := List.mem_map.1 hp
  obtain ⟨before, behind, hsplit⟩ := List.append_of_mem hs
  refine ⟨before, s, behind, hsplit, hhas, fun s' hs' hhas' => ?_⟩
  -- another statement lies apart from this one, so they have nothing in common
  have hapart := h.parts_apart
  rw [parts, hsplit, List.pairwise_map] at hapart
  have hperm : (s :: (before ++ behind)).Perm (before ++ s :: behind) := List.perm_middle.symm
  have hapart := (hperm.pairwise_iff fun {_ _} => Or.symm).2 hapart
  have hmem : s' ∈ b.statements := hsplit ▸ hperm.subset (.tail _ hs')
  have hother : (Part.stmt s).Apart (.stmt s') := (List.pairwise_cons.1 hapart).1 s' hs'
  exact (h.of_has he).not_apart_self (hother.of_has (h.part (List.mem_map_of_mem hs))
    (h.part (List.mem_map_of_mem hmem)) hhas hhas')

end Part

namespace SyntaxTree

variable {file : FileId} {text : String} {t : SyntaxTree} {s : Stmt} {e : Expr}
  {b : Block Stmt} {body : Body}

section
variable (h : parse file text = .ok t)
include h

/-- A statement holds the identity of an expression exactly if the expression stands in it. -/
theorem holds_iff_has (hs : t.Holds (.stmt s)) (he : t.Holds (.expr e)) :
    s.holds e.id = true ↔ (Part.stmt s).Has (.expr e) := by
  have hnested := hs.wellNested h
  have hnode {e : Expr} (he : t.Holds (.expr e)) : .expr e ∈ t.root.nodes :=
    (mem_nodes_iff h).2 ⟨_, he, rfl⟩
  rw [Stmt.holds, List.any_eq_true]
  constructor
  · rintro ⟨e', he', hid⟩
    have hhas := hnested.mem_exprs_stmt_iff.1 he'
    -- one node has the identity
    obtain rfl : e' = e := SyntaxNode.expr.inj
      (eq_of_id_eq h (hnode (hs.has hhas)) (hnode he) (beq_iff_eq.1 hid))
    exact hhas
  · exact fun hhas => ⟨e, hnested.mem_exprs_stmt_iff.2 hhas, beq_self_eq_true _⟩

/-- The statements of a block that do not hold a call in it are all but one. -/
theorem exists_extraStatements (hb : t.Holds (.block b)) (hbody : body.block = some b)
    (he : (Part.block b).Has (.expr e)) :
    ∃ before s behind, b.statements = before ++ s :: behind ∧ (Part.stmt s).Has (.expr e) ∧
      (∀ s' ∈ before ++ behind, ¬ (Part.stmt s').Has (.expr e)) ∧
      extraStatements body e = before ++ behind := by
  obtain ⟨before, s, behind, hsplit, hhas, hothers⟩ :=
    Part.exists_statement_of_has (hb.wellNested h) he
  refine ⟨before, s, behind, hsplit, hhas, hothers, ?_⟩
  have hholds {s' : Stmt} (hs' : s' ∈ before ++ s :: behind) :
      s'.holds e.id = true ↔ (Part.stmt s').Has (.expr e) :=
    holds_iff_has h (hb.part (List.mem_map_of_mem (hsplit ▸ hs'))) (hb.has he)
  have hkeep {ss : List Stmt} (hsub : ss ⊆ before ++ behind) :
      ss.filter (fun s => !s.holds e.id) = ss := by
    refine List.filter_eq_self.2 fun s' hs' => ?_
    have hmem : s' ∈ before ++ s :: behind := List.perm_middle.symm.subset (.tail _ (hsub hs'))
    rw [Bool.not_eq_true', ← Bool.not_eq_true, hholds hmem]
    exact hothers s' (hsub hs')
  have hself : s.holds e.id = true := (hholds (by simp)).2 hhas
  rw [extraStatements, hbody, Option.map_some, Option.getD_some, hsplit, List.filter_append,
    List.filter_cons_of_neg (by simp [hself]), hkeep (List.subset_append_left _ _),
    hkeep (List.subset_append_right _ _)]

end

end SyntaxTree

/-! ## Confirmed calls -/

namespace Check

variable {cs : List Char} {ctx : Context} {check : Check} {rule : Rule} {body : Body} {call : Expr}
  {fs : List Finding} {property : PropertyDecl} {calls : WrapperCalls}

/-- The node is a property of a dependency object that reads or sets values with the calls. -/
structure Wraps (ctx : Context) (property : PropertyDecl) (calls : WrapperCalls) : Prop where
  node : ctx.node = .member (.property property)
  calls : property.wrapperCalls? = some calls
  onObject : (ctx.containingTypeSymbol?.any fun t =>
    ctx.comp.isAssignableToKnown t .dependencyObject) = true

/-- The check confirms that the call that belongs to the body of an accessor is a call of the
framework's, and looks for other statements there. -/
inductive Confirms (ctx : Context) : Check → Rule → Body → Expr → Prop where
  | getter {property : PropertyDecl} {calls : WrapperCalls} {accessor : Accessor} {call : Expr}
      {access : AccessorCall} : Wraps ctx property calls → property.getter? = some accessor →
      calls.getCall = some call → ctx.model.confirmCall? call = some access →
      Confirms ctx .wrapper .wrapperSideEffects accessor.body call
  | setter {property : PropertyDecl} {calls : WrapperCalls} {accessor : Accessor} {call : Expr}
      {access : AccessorCall} : Wraps ctx property calls → property.setter? = some accessor →
      calls.setCall = some call → ctx.model.confirmCall? call = some access →
      Confirms ctx .wrapper .wrapperSideEffects accessor.body call
  | method {method : MethodDecl} {attached : AttachedCall} {access : AccessorCall}
      {param : Parameter} {element : SymbolId} {backing : BackingMember} :
      ctx.node = .member (.method method) → method.attachedCall? = some attached →
      ctx.model.confirmCall? attached.call = some access → method.params.head? = some param →
      ctx.model.symbol? param.type.id = some element →
      ctx.comp.isAssignableToKnown element .dependencyObject = true →
      access.backing.bind ctx.comp.staticBackingMember? = some backing →
      Confirms ctx .attachedAccessor .accessorSideEffects method.body attached.call

/-- The rule is one of the check, which looks at such members. -/
theorem Confirms.mem_rules (h : Confirms ctx check rule body call) :
    rule ∈ check.rules ∧ ctx.node.kind ∈ check.kinds ∧
      ∃ m, ctx.node = .member m ∧ m.isType = false := by
  cases h with
  | getter h =>
    rw [h.node]
    exact ⟨by decide, .head _, _, rfl, rfl⟩
  | setter h =>
    rw [h.node]
    exact ⟨by decide, .head _, _, rfl, rfl⟩
  | method h =>
    rw [h]
    exact ⟨by decide, .head _, _, rfl, rfl⟩

/-- The block of the body stands in the node. -/
theorem Confirms.has_block {b : Block Stmt} (h : Confirms ctx check rule body call)
    (hb : body.block = some b) : ctx.node.part.Has (.block b) := by
  have haccessor {a : Accessor} (hb : a.body.block = some b) :
      (Part.accessor a).Has (.block b) := .of_mem (Part.block_mem_parts hb)
  cases h with
  | getter h ha =>
    rw [h.node]
    exact (Part.Has.of_mem (Part.accessor_mem_parts ha)).trans (haccessor hb)
  | setter h ha =>
    rw [h.node]
    exact (Part.Has.of_mem (Part.accessor_mem_parts ha)).trans (haccessor hb)
  | method h =>
    rw [h]
    exact .of_mem (List.mem_append_right _ (Part.block_mem_parts hb))

/-! ## Findings about statements -/

/-- The finding is about a statement of another accessor whose call is confirmed, and their blocks
lie apart. -/
def ElsewhereThan (ctx : Context) (check : Check) (body : Body) (f : Finding) : Prop :=
  ∃ body' call', Confirms ctx check f.rule body' call' ∧
    f ∈ sideEffects f.rule (extraStatements body' call') ∧
    ∀ b b', body.block = some b → body'.block = some b' → (Part.block b).Apart (.block b')

theorem rule_of_mem_sideEffects {ss : List Stmt} {f : Finding} (hf : f ∈ sideEffects rule ss) :
    f.rule = rule := by
  obtain ⟨s, -, rfl⟩ := List.mem_map.1 hf
  rfl

namespace Wrapper

/-- What an accessor's statements are reported for. -/
def effects (accessor : Option Accessor) (access : Option AccessorCall) : List Finding :=
  match accessor, access with
  | some accessor, some access =>
    sideEffects .wrapperSideEffects (extraStatements accessor.body access.call)
  | _, _ => []

theorem eq_effects {accessor : Option Accessor} {access : Option AccessorCall}
    (h : (accessorEffects accessor access).Gives fs) : fs = effects accessor access := by
  unfold accessorEffects at h
  split at h
  · obtain ⟨-, -, h⟩ := h.bind
    exact h.pure.symm
  · rename_i hnone
    obtain rfl := h.pure
    cases accessor with
    | none => rfl
    | some a =>
      cases access with
      | none => rfl
      | some access => exact absurd rfl (hnone a access rfl)

/-- The findings of a wrapper are those about its name and its calls and those about the statements
of its accessors. -/
theorem exists_of_gives (hwraps : Wraps ctx property calls) (h : (run ctx).Gives fs) :
    ∃ others, AllAbout [.sameProperty, .wrapperName, .wrapperType, .useSetValue] others ∧
      fs = others ++ effects property.getter? (calls.getCall.bind ctx.model.confirmCall?) ++
        effects property.setter? (calls.setCall.bind ctx.model.confirmCall?) := by
  unfold run at h
  rw [hwraps.node] at h
  dsimp only at h
  rw [hwraps.calls, hwraps.onObject] at h
  unfold wrapper at h
  obtain ⟨getEffects, hget, h⟩ := h.bind
  obtain ⟨setEffects, hset, h⟩ := h.bind
  obtain rfl := h.pure
  rw [eq_effects hget, eq_effects hset]
  refine ⟨_, .append (.append ?_ ?_) ?_, rfl⟩
  · exact (sameProperty_reported property _ _).about (by decide)
  · exact (against_reported ctx property _).about (by decide)
  · have hreported : Reported Set.univ [.useSetValue]
        (setValue (calls.setCall.bind ctx.model.confirmCall?)) :=
      setValue_reported fun _ _ => trivial
    exact hreported.about (by decide)

/-- Findings about statements come from a confirmed call. -/
theorem exists_of_mem_effects {accessor : Option Accessor} {call? : Option Expr} {f : Finding}
    (hf : f ∈ effects accessor (call?.bind ctx.model.confirmCall?)) :
    ∃ a call access, accessor = some a ∧ call? = some call ∧
      ctx.model.confirmCall? call = some access ∧ f.rule = .wrapperSideEffects ∧
      f ∈ sideEffects .wrapperSideEffects (extraStatements a.body call) := by
  unfold effects at hf
  split at hf
  · rename_i a access haccess
    obtain ⟨call, hcall, haccess⟩ := Option.bind_eq_some_iff.1 haccess
    rw [call_of_confirmCall? haccess] at hf
    exact ⟨a, call, access, rfl, hcall, haccess, rule_of_mem_sideEffects hf, hf⟩
  · cases hf

theorem effects_eq {accessor : Option Accessor} {a : Accessor} {call? : Option Expr}
    {access : AccessorCall} (ha : accessor = some a) (hcall : call? = some call)
    (haccess : ctx.model.confirmCall? call = some access) :
    effects accessor (call?.bind ctx.model.confirmCall?) =
      sideEffects .wrapperSideEffects (extraStatements a.body call) := by
  rw [ha, hcall, Option.bind_some, haccess]
  dsimp only [effects]
  rw [call_of_confirmCall? haccess]

/-- The blocks of the two accessors of a property lie apart. -/
theorem blocks_apart {getter setter : Accessor} {b b' : Block Stmt}
    (hnested : (Part.member (.property property)).WellNested cs)
    (hgetter : property.getter? = some getter) (hsetter : property.setter? = some setter)
    (hb : getter.body.block = some b) (hb' : setter.body.block = some b') :
    (Part.block b).Apart (.block b') :=
  (getter_apart_setter property hnested hgetter hsetter).of_has
    (hnested.part (Part.accessor_mem_parts hgetter))
    (hnested.part (Part.accessor_mem_parts hsetter)) (.of_mem (Part.block_mem_parts hb))
    (.of_mem (Part.block_mem_parts hb'))

end Wrapper

/-- The findings of a method are those about its name, its types and its attributes, those about its
statements and the one about its doc comment. -/
theorem AttachedAccessor.exists_of_gives {method : MethodDecl} {attached : AttachedCall}
    {access : AccessorCall} {param : Parameter} {element : SymbolId} {backing : BackingMember}
    (hnode : ctx.node = .member (.method method)) (hattached : method.attachedCall? = some attached)
    (haccess : ctx.model.confirmCall? attached.call = some access)
    (hparam : method.params.head? = some param)
    (helement : ctx.model.symbol? param.type.id = some element)
    (hobject : ctx.comp.isAssignableToKnown element .dependencyObject = true)
    (hbacking : access.backing.bind ctx.comp.staticBackingMember? = some backing)
    (h : (run ctx).Gives fs) :
    ∃ front behind, AllAbout [.accessorName, .accessorType, .addBrowsable, .browsableArgument,
        .documentAccessor] (front ++ behind) ∧
      fs = front ++ sideEffects .accessorSideEffects (extraStatements method.body attached.call) ++
        behind := by
  unfold run at h
  rw [hnode] at h
  obtain ⟨symbol, hsymbol, hbacking⟩ := Option.bind_eq_some_iff.1 hbacking
  simp only [accessed?, hattached, haccess, hparam, helement, hobject, hsymbol, hbacking,
    Option.bind_eq_bind, Option.bind_some, Bool.not_true, Bool.false_eq_true, if_false,
    Option.pure_def] at h
  unfold accessor at h
  obtain ⟨-, -, h⟩ := h.bind
  obtain rfl := h.pure
  refine ⟨_, _, .append (.append (.map_getD fun registered => ?_) (.map_getD fun r => ?_)) ?_, rfl⟩
  · exact (name_reported method _ registered).about (by decide)
  · exact (registration_reported ctx method _ element r).about (by decide)
  · exact (documentation_reported ctx method).about (by decide)

/-- What a check finds where a call is confirmed: the other statements, and findings of other rules
or about statements elsewhere. -/
theorem Confirms.exists_of_gives (hconfirms : Confirms ctx check rule body call)
    (hnested : ctx.node.part.WellNested cs) (h : (check.run ctx).Gives fs) :
    ∃ front behind, fs = front ++ sideEffects rule (extraStatements body call) ++ behind ∧
      ∀ f ∈ front ++ behind, f.rule = rule → ElsewhereThan ctx check body f := by
  cases hconfirms with
  | @getter property calls accessor call access hwraps ha hcall haccess =>
    rw [hwraps.node] at hnested
    obtain ⟨others, hothers, rfl⟩ := Wrapper.exists_of_gives hwraps h
    rw [Wrapper.effects_eq ha hcall haccess]
    refine ⟨_, _, rfl, fun f hf hrule => ?_⟩
    rcases List.mem_append.1 hf with hf | hf
    · exact absurd (hrule ▸ hothers f hf) (by decide)
    · obtain ⟨a', call', access', ha', hcall', haccess', -, hf⟩ := Wrapper.exists_of_mem_effects hf
      refine ⟨a'.body, call', ?_, hrule ▸ hf, fun b b' hb hb' => ?_⟩
      · exact hrule ▸ .setter hwraps ha' hcall' haccess'
      · exact Wrapper.blocks_apart hnested ha ha' hb hb'
  | @setter property calls accessor call access hwraps ha hcall haccess =>
    rw [hwraps.node] at hnested
    obtain ⟨others, hothers, rfl⟩ := Wrapper.exists_of_gives hwraps h
    rw [Wrapper.effects_eq ha hcall haccess]
    refine ⟨_, [], (List.append_nil _).symm, fun f hf hrule => ?_⟩
    rw [List.append_nil] at hf
    rcases List.mem_append.1 hf with hf | hf
    · exact absurd (hrule ▸ hothers f hf) (by decide)
    · obtain ⟨a', call', access', ha', hcall', haccess', -, hf⟩ := Wrapper.exists_of_mem_effects hf
      refine ⟨a'.body, call', ?_, hrule ▸ hf, fun b b' hb hb' => ?_⟩
      · exact hrule ▸ .getter hwraps ha' hcall' haccess'
      · exact (Wrapper.blocks_apart hnested ha' ha hb' hb).symm
  | @method method attached access param element backing hnode hattached haccess hparam helement
      hobject hbacking =>
    obtain ⟨front, behind, hothers, rfl⟩ := AttachedAccessor.exists_of_gives hnode hattached haccess
      hparam helement hobject hbacking h
    exact ⟨front, behind, rfl, fun f hf hrule => absurd (hrule ▸ hothers f hf) (by decide)⟩

theorem exists_of_mem_sideEffects {f : Finding}
    (hf : f ∈ sideEffects rule (extraStatements body call)) :
    ∃ b s, body.block = some b ∧ s ∈ b.statements ∧ f.range = s.range := by
  obtain ⟨s, hs, rfl⟩ := List.mem_map.1 hf
  have hs := List.mem_of_mem_filter hs
  cases hb : body.block with
  | none => simp [hb] at hs
  | some b => exact ⟨b, s, rfl, by simpa [hb] using hs, rfl⟩

/-- The findings of the rule in a block with a confirmed call are those about its statements. -/
theorem Confirms.filter_findings {b : Block Stmt} (hconfirms : Confirms ctx check rule body call)
    (hnested : ctx.node.part.WellNested cs) (hb : body.block = some b)
    (h : (check.run ctx).Gives fs) :
    (fs.filter fun f => f.rule == rule && b.range.contains f.range) =
      sideEffects rule (extraStatements body call) := by
  have hblock {body : Body} {call : Expr} {rule : Rule} {b : Block Stmt}
      (hconfirms : Confirms ctx check rule body call) (hb : body.block = some b) :
      (Part.block b).WellNested cs := hnested.of_has (hconfirms.has_block hb)
  obtain ⟨front, behind, rfl, helse⟩ := hconfirms.exists_of_gives hnested h
  have hnil {gs : List Finding} (hsub : gs ⊆ front ++ behind) :
      gs.filter (fun f => f.rule == rule && b.range.contains f.range) = [] := by
    rw [List.filter_eq_nil_iff]
    intro f hf
    rw [Bool.and_eq_true, beq_iff_eq]
    rintro ⟨hrule, hcontains⟩
    obtain ⟨body', call', hconfirms', hf, hapart⟩ := helse f (hsub hf) hrule
    obtain ⟨b', s, hb', hs, hrange⟩ := exists_of_mem_sideEffects hf
    have hstmt : (Part.block b').Has (.stmt s) := .of_mem (List.mem_map_of_mem hs)
    rw [hrange] at hcontains
    exact ((hblock hconfirms' hb').of_has hstmt).not_apart_of_contains (q := .block b) hcontains
      ((hapart b b' hb hb').of_has (hblock hconfirms hb) (hblock hconfirms' hb') .refl hstmt)
  have hself : (sideEffects rule (extraStatements body call)).filter
      (fun f => f.rule == rule && b.range.contains f.range) =
        sideEffects rule (extraStatements body call) := by
    refine List.filter_eq_self.2 fun f hf => ?_
    obtain ⟨b', s, hb', hs, hrange⟩ := exists_of_mem_sideEffects hf
    obtain rfl := Option.some.inj (hb.symm.trans hb')
    have hstmt : (Part.block b).Has (.stmt s) := .of_mem (List.mem_map_of_mem hs)
    rw [rule_of_mem_sideEffects hf, beq_self_eq_true, Bool.true_and, hrange]
    exact (hblock hconfirms hb).contains_of_has hstmt
  rw [List.filter_append, List.filter_append, hnil (List.subset_append_left _ _), hself,
    hnil (List.subset_append_right _ _), List.nil_append, List.append_nil]

/-- Every finding of the rule is about a statement of a block with a confirmed call. -/
theorem Confirms.exists_of_mem {f : Finding} (hconfirms : Confirms ctx check rule body call)
    (hnested : ctx.node.part.WellNested cs) (h : (check.run ctx).Gives fs) (hf : f ∈ fs)
    (hrule : f.rule = rule) :
    ∃ body' call' b' s', Confirms ctx check rule body' call' ∧ body'.block = some b' ∧
      s' ∈ b'.statements ∧ f.range = s'.range := by
  obtain ⟨front, behind, rfl, helse⟩ := hconfirms.exists_of_gives hnested h
  obtain ⟨body', call', hconfirms', hf⟩ : ∃ body' call', Confirms ctx check rule body' call' ∧
      f ∈ sideEffects rule (extraStatements body' call') := by
    by_cases hmain : f ∈ sideEffects rule (extraStatements body call)
    · exact ⟨body, call, hconfirms, hmain⟩
    · have hothers : f ∈ front ++ behind := by
        simp only [List.mem_append] at hf ⊢
        tauto
      obtain ⟨body', call', hconfirms', hf, -⟩ := helse f hothers hrule
      exact ⟨body', call', hrule ▸ hconfirms', hrule ▸ hf⟩
  obtain ⟨b', s', hb', hs', hrange⟩ := exists_of_mem_sideEffects hf
  exact ⟨body', call', b', s', hconfirms', hb', hs', hrange⟩

end Check

/-! ## The statements that are reported -/

open Check in
/-- **Side effects.**  Where a check confirms a call that stands in a block, one statement of the
block has the call in it, however deep, and no other one.  The check is not stopped, and what it
reports in the block under its rule are the other statements, each once; it reports nothing under
this rule but statements of such blocks.  With the rule on, the diagnostics of the rule in the block
are those about the other statements too, each once. -/
theorem SyntaxTree.sideEffects_exact {file : FileId} {text : String} {model : Model} {v : Visit}
    {check : Check} {rule : Rule} {body : Body} {b : Block Stmt} {call : Expr}
    (hread : SyntaxTree.parse file text = .ok model.tree) (hv : v ∈ model.tree.visits)
    (hconfirms : Confirms ⟨v, model⟩ check rule body call) (hb : body.block = some b)
    (hcall : (Part.block b).Has (.expr call)) :
    ∃ before s behind, b.statements = before ++ s :: behind ∧
      (Part.stmt s).Has (.expr call) ∧
      (∀ s' ∈ before ++ behind, ¬ (Part.stmt s').Has (.expr call)) ∧
      (∃ fs, (check.run ⟨v, model⟩).result .never = .ok fs ∧
        (fs.filter fun f => f.rule == rule && b.range.contains f.range) =
          (before ++ behind).map (fun s' => ⟨rule, s'.range, [], []⟩) ∧
        ∀ f ∈ fs, f.rule = rule → ∃ body' call' b' s',
          Confirms ⟨v, model⟩ check rule body' call' ∧ body'.block = some b' ∧
            s' ∈ b'.statements ∧ f.range = s'.range) ∧
      ∀ (config : LintConfig) (severity : Severity),
        (config.severity rule).severity? = some severity →
        ∃ ds, (analyzeTree config model).result .never = .ok ds ∧
          (ds.filter fun d => d.rule == rule && b.range.contains d.range).Perm
            ((before ++ behind).map fun s' =>
              Finding.toDiagnostic ⟨rule, s'.range, [], []⟩ file severity) := by
  have hnested := wellNested_of_mem_visits hread hv
  obtain ⟨hrule, hkind, m, hnode, htype⟩ := hconfirms.mem_rules
  have hnode : v.node = .member m := hnode
  have hholds : model.tree.Holds v.node.part := by
    have hchecks := (checks_of_mem_visits hread hv).1
    rw [hnode] at hchecks ⊢
    cases hchecks with
    | member hholds => exact hholds
  have hhas : v.node.part.Has (.block b) := hconfirms.has_block hb
  obtain ⟨before, s, behind, hsplit, hself, hothers, hextra⟩ :=
    exists_extraStatements hread (hholds.has hhas) hb hcall
  obtain ⟨fs, hfs⟩ := check.exists_settles ⟨v, model⟩
  have hfilter := hconfirms.filter_findings hnested hb hfs.gives
  rw [hextra] at hfilter
  refine ⟨before, s, behind, hsplit, hself, hothers, ⟨fs, hfs.result_never, hfilter,
    fun f hf => hconfirms.exists_of_mem hnested hfs.gives hf⟩, fun config severity hseverity => ?_⟩
  have hcontains : m.range.contains b.range = true := by
    have hcontains := hnested.contains_of_has hhas
    rwa [hnode] at hcontains
  obtain ⟨ds, hds, hperm⟩ := analyzeTree_filter_perm hread hv hnode htype hkind hrule hseverity hfs
    hcontains
  refine ⟨ds, hds, hperm.trans ?_⟩
  rw [hfilter, sideEffects, List.map_map, file_of_parse hread]
  exact .refl _

/-- The first call in a block stands in it. -/
theorem Body.has_of_findCall? {cs : List Char} {body : Body} {b : Block Stmt}
    {isCall : Expr → Bool} {e : Expr} (hnested : (Part.block b).WellNested cs)
    (harrow : body.arrow = none) (hb : body.block = some b)
    (h : body.findCall? isCall = some e) : (Part.block b).Has (.expr e) := by
  unfold findCall? at h
  rw [harrow, hb] at h
  exact (Part.exprs_leads hnested).1 e (List.mem_of_find?_eq_some h)

theorem Check.Wrapper.getCall_of_wrapperCalls? {property : PropertyDecl} {calls : WrapperCalls}
    (h : property.wrapperCalls? = some calls) : calls.getCall = property.getCall? := by
  unfold PropertyDecl.wrapperCalls? at h
  rw [Option.ite_none_left_eq_some, Option.ite_none_right_eq_some] at h
  obtain rfl := Option.some.inj h.2.2
  rfl

/-- A getter that reads its value in a nested block, with an empty statement on either side. -/
def nestedGetter : String :=
  "namespace System.Windows\x7bclass DependencyProperty\x7b\x7d class DependencyObject\x7b" ++
    "object GetValue(DependencyProperty p)\x7b\x7d" ++
    "object A\x7bget\x7b;if(true)\x7breturn GetValue(null);\x7d;\x7d\x7d\x7d\x7d"

/-- A property whose getter has a block of three statements and a call that is confirmed. -/
def readsInBlock (m : Model) (v : Visit) : Bool :=
  let ctx : Context := ⟨v, m⟩
  match v.node with
  | .member (.property p) =>
    p.arrow.isNone && p.wrapperCalls?.any fun calls =>
      (ctx.containingTypeSymbol?.any fun t => ctx.comp.isAssignableToKnown t .dependencyObject) &&
        p.getter?.any fun a => a.body.arrow.isNone &&
          a.body.block.any (fun b => b.statements.length == 3) &&
            calls.getCall.any fun call => (m.confirmCall? call).isSome
  | _ => false

open Check in
theorem exists_confirms_of_readsInBlock {file : FileId} {text : String} {model : Model} {v : Visit}
    (hread : SyntaxTree.parse file text = .ok model.tree) (hv : v ∈ model.tree.visits)
    (h : readsInBlock model v = true) :
    ∃ body b call, Confirms ⟨v, model⟩ .wrapper .wrapperSideEffects body call ∧
      body.block = some b ∧ (Part.block b).Has (.expr call) ∧ b.statements.length = 3 := by
  unfold readsInBlock at h
  cases hnode : v.node with
  | member m =>
    cases m with
    | property p =>
      rw [hnode] at h
      simp only [Bool.and_eq_true, Option.isNone_iff_eq_none, Option.any_eq_true, beq_iff_eq,
        Option.isSome_iff_exists] at h
      obtain ⟨harrow, calls, hcalls, honObject, a, ha, ⟨harrow', b, hb, hlength⟩, call, hcall, access,
        haccess⟩ := h
      have hconfirms : Confirms ⟨v, model⟩ .wrapper .wrapperSideEffects a.body call :=
        .getter ⟨hnode, hcalls, (Option.any_eq_true _ _).2 honObject⟩ ha hcall haccess
      have hblock := (SyntaxTree.wellNested_of_mem_visits hread hv).of_has (hconfirms.has_block hb)
      refine ⟨a.body, b, call, hconfirms, hb, ?_, hlength⟩
      rw [Wrapper.getCall_of_wrapperCalls? hcalls, PropertyDecl.getCall?, harrow, ha] at hcall
      exact Body.has_of_findCall? hblock harrow' hb hcall
    | _ => simp [hnode] at h
  | _ => simp [hnode] at h

open Check in
/-- The statements on either side of the block with the call are reported. -/
theorem SyntaxTree.sideEffects_exact_nestedGetter : ∃ t v body b call fs,
    SyntaxTree.parse 0 nestedGetter = .ok (Model.alone t).tree ∧ v ∈ (Model.alone t).tree.visits ∧
    Confirms ⟨v, Model.alone t⟩ .wrapper .wrapperSideEffects body call ∧ body.block = some b ∧
    (Part.block b).Has (.expr call) ∧ b.statements.length = 3 ∧
    (Check.wrapper.run ⟨v, Model.alone t⟩).result .never = .ok fs ∧
    (fs.filter fun f =>
      f.rule == .wrapperSideEffects && b.range.contains f.range).length = 2 := by
  have hfound : (SyntaxTree.parse 0 nestedGetter).toOption.any
      (fun t => t.visits.any (readsInBlock (Model.alone t))) = true := by decide +kernel
  obtain ⟨t, ht, hfound⟩ := (Option.any_eq_true _ _).1 hfound
  obtain ⟨v, hv, hreads⟩ := List.any_eq_true.1 hfound
  rw [toOption_eq_some_iff] at ht
  have hread : SyntaxTree.parse 0 nestedGetter = .ok (Model.alone t).tree := ht
  have hv : v ∈ (Model.alone t).tree.visits := hv
  obtain ⟨body, b, call, hconfirms, hb, hcall, hlength⟩ :=
    exists_confirms_of_readsInBlock hread hv hreads
  obtain ⟨before, s, behind, hsplit, -, -, ⟨fs, hfs, hfilter, -⟩, -⟩ :=
    sideEffects_exact hread hv hconfirms hb hcall
  refine ⟨t, v, body, b, call, fs, hread, hv, hconfirms, hb, hcall, hlength, hfs, ?_⟩
  rw [hsplit, List.length_append, List.length_cons] at hlength
  rw [hfilter, List.length_map, List.length_append]
  omega

end PropertyLint
