/-
# Keys behind the members that expose them

A static field or property of the type `DependencyPropertyKey` is reported exactly when a member of
its type starts with the dependency property of the key and stands in front of it, in any part of
the type in the file.  There is one report, and it names the first of these members
(`Project.keyDeclaredFirst_exact`).
-/
import PropertyLint.Proofs.Pattern.BackingMember

namespace PropertyLint

/-- The backing member that the symbol of a field or a property is. -/
theorem Compilation.backingMember?_of_mirrors {c : Compilation} {id owner : SymbolId} {k : Member}
    {symbol : Symbol} (hsymbol : c.symbol? id = some symbol) (hmirrors : k.Mirrors owner symbol) :
    c.backingMember? id = (((c.valueType? id).bind c.classify).bind BackingKind.ofType?).map
      fun kind => ⟨id, k.name.text, kind, owner, k.modifiers.isStatic⟩ := by
  rw [backingMember?, valueType?, hsymbol]
  cases hmirrors with
  | field hname howner hstatic =>
    simp only [Option.bind_eq_bind, Option.bind_some, Option.pure_def, Option.map_eq_bind,
      Option.bind_assoc, Symbol.name, Symbol.valueType?, hname, howner, hstatic]
    rfl
  | property hname howner hstatic =>
    simp only [Option.bind_eq_bind, Option.bind_some, Option.pure_def, Option.map_eq_bind,
      Option.bind_assoc, Symbol.name, Symbol.valueType?, hname, howner, hstatic]
    rfl

/-- The member is static, and its symbol is one of the type `DependencyPropertyKey`. -/
def Model.HoldsKey (m : Model) (k : Member) (key : SymbolId) : Prop :=
  k.modifiers.isStatic = true ∧
    (m.comp.valueType? key).bind m.comp.classify = some .dependencyPropertyKey

namespace Check.BackingMember

variable {ctx : Context} {m : Model} {v : Visit} {d : DeclaredType} {k : Member} {key : SymbolId}
  {symbol : Symbol} {backing : PropertyLint.BackingMember} {fs : List Finding}

theorem mem_kinds (h : k.isFieldOrProperty = true) :
    (CheckedNode.member k).kind ∈ Check.backingMember.kinds := by
  cases k with
  | field => exact .head _
  | property => exact .tail _ (.head _)
  | _ => cases h

/-- What is reported about a key that stands behind the member. -/
def behind (k r : Member) : Finding :=
  .withText .keyDeclaredFirst k.range [k.name.text, r.name.text] .moveBefore r.name.text

/-- The findings of the rule are those about the order. -/
theorem filter_findings (hnode : ctx.node = .member k)
    (hbacking : ctx.containingSymbol?.bind ctx.comp.backingMember? = some backing)
    (h : (run ctx).Gives fs) :
    (fs.filter fun f => f.rule == .keyDeclaredFirst) =
      if backing.isStatic then order ctx k backing else [] := by
  have hnil {rules : List Rule} {gs : List Finding} (hgs : AllAbout rules gs)
      (hrule : Rule.keyDeclaredFirst ∉ rules) :
      (gs.filter fun f => f.rule == .keyDeclaredFirst) = [] := by
    refine List.filter_eq_nil_iff.2 fun f hf heq => hrule ?_
    rw [← beq_iff_eq.1 heq]
    exact hgs f hf
  have hmodifiers := hnil (readonly_reported ctx k backing).rule (by decide)
  unfold run at h
  rw [hnode, hbacking] at h
  dsimp only [CheckedNode.member?] at h
  cases hstatic : backing.isStatic with
  | false =>
    rw [hstatic] at h
    obtain rfl := h.pure
    rw [hmodifiers, if_neg Bool.false_ne_true]
  | true =>
    rw [hstatic] at h
    obtain ⟨-, -, h⟩ := h.bind
    obtain rfl := h.pure
    have hself : ((order ctx k backing).filter fun f => f.rule == .keyDeclaredFirst) =
        order ctx k backing := by
      refine List.filter_eq_self.2 fun f hf => beq_iff_eq.2 ?_
      exact List.mem_singleton.1 ((order_reported ctx k backing).rule f hf)
    have hnames := hnil (.map_getD (o := ctx.model.registeredName? backing) fun registered =>
      (name_reported k backing registered).rule) (by decide)
    have hdocs := hnil (.map_getD (o := ctx.model.registeredName? backing) fun registered =>
      (documentation_reported ctx k backing registered).rule) (by decide)
    have hregistration := hnil (registration_reported ctx k backing).rule (by decide)
    simp only [List.filter_append, hmodifiers, hnames, hregistration, hself, hdocs, List.nil_append,
      List.append_nil, if_true]

theorem eq_nil_of_gives (hnode : ctx.node = .member k)
    (hbacking : ctx.containingSymbol?.bind ctx.comp.backingMember? = none)
    (h : (run ctx).Gives fs) : fs = [] := by
  unfold run at h
  rw [hnode, hbacking] at h
  exact h.pure.symm

theorem eq_of_ofType?_key {known : KnownType} (h : BackingKind.ofType? known = some .key) :
    known = .dependencyPropertyKey := by
  cases known <;> simp_all [BackingKind.ofType?]

/-- A key is reported once, with the first member that exposes it, or there is no such member in
front of it. -/
theorem reported_or_not (hp : m.project.IsBound) (ht : m.tree ∈ m.project.trees)
    (hd : d ∈ (typesDeclared m.project.sources).1) (hnode : v.node = .member k)
    (hkey : m.declared? k.id = some key) (hsymbol : m.comp.symbol? key = some symbol)
    (hmirrors : k.Mirrors d.symbol symbol) (h : (run ⟨v, m⟩).Gives fs) :
    (m.HoldsKey k key ∧ ∃ r, m.ExposesKey d.symbol key r ∧ r.range.start < k.range.start ∧
      (∀ r', m.ExposesKey d.symbol key r' → r.range.start ≤ r'.range.start) ∧
      (fs.filter fun f => f.rule == .keyDeclaredFirst) = [behind k r]) ∨
    ¬ (m.HoldsKey k key ∧ ∃ r, m.ExposesKey d.symbol key r ∧ r.range.start < k.range.start) ∧
      (fs.filter fun f => f.rule == .keyDeclaredFirst) = [] := by
  have hfound := Compilation.backingMember?_of_mirrors hsymbol hmirrors
  have hnode : (⟨v, m⟩ : Context).node = .member k := hnode
  have hcontaining : (⟨v, m⟩ : Context).containingSymbol? = some key := by
    rw [Context.containingSymbol?, Context.declaration?, hnode]
    exact hkey
  by_cases hholds : m.HoldsKey k key
  · rw [hholds.2, Option.bind_some, hholds.1] at hfound
    have hbacking : (⟨v, m⟩ : Context).containingSymbol?.bind m.comp.backingMember? =
        some ⟨key, k.name.text, .key, d.symbol, true⟩ := by
      rw [hcontaining]
      exact hfound
    rw [filter_findings hnode hbacking h, if_pos rfl, order, if_pos rfl]
    cases hreader : m.memberForKey? ⟨key, k.name.text, .key, d.symbol, true⟩ with
    | none =>
      refine .inr ⟨fun ⟨_, r, hr, _⟩ => ?_, rfl⟩
      exact (Model.memberForKey?_eq_none_iff hp ht hd rfl).1 hreader r hr
    | some r =>
      obtain ⟨hr, hfirst⟩ := Model.first_of_memberForKey? hp ht hd rfl hreader
      dsimp only
      split
      next hlt => exact .inl ⟨hholds, r, hr, hlt, hfirst, rfl⟩
      next hnot =>
        exact .inr ⟨fun ⟨_, r', hr', hlt⟩ => hnot (Nat.lt_of_le_of_lt (hfirst r' hr') hlt), rfl⟩
  · refine .inr ⟨fun hboth => hholds hboth.1, ?_⟩
    cases hbacking : (⟨v, m⟩ : Context).containingSymbol?.bind m.comp.backingMember? with
    | none => rw [eq_nil_of_gives hnode hbacking h, List.filter_nil]
    | some backing =>
      rw [filter_findings hnode hbacking h]
      rw [hcontaining, Option.bind_some, hfound] at hbacking
      obtain ⟨kind, hkind, rfl⟩ := Option.map_eq_some_iff.1 hbacking
      obtain ⟨known, hknown, hkind⟩ := Option.bind_eq_some_iff.1 hkind
      split
      next hstatic =>
        refine if_neg ?_
        rintro rfl
        exact hholds ⟨hstatic, hknown.trans (congrArg some (eq_of_ofType?_key hkind))⟩
      next => rfl

theorem reports_exactly (hp : m.project.IsBound) (ht : m.tree ∈ m.project.trees)
    (hd : d ∈ (typesDeclared m.project.sources).1) (hnode : v.node = .member k)
    (hkey : m.declared? k.id = some key) (hsymbol : m.comp.symbol? key = some symbol)
    (hmirrors : k.Mirrors d.symbol symbol) (h : (run ⟨v, m⟩).Gives fs) :
    ((∃ f ∈ fs, f.rule = .keyDeclaredFirst) ↔ m.HoldsKey k key ∧
      ∃ r, m.ExposesKey d.symbol key r ∧ r.range.start < k.range.start) ∧
    (fs.filter fun f => f.rule == .keyDeclaredFirst).length ≤ 1 ∧
    ∀ f ∈ fs, f.rule = .keyDeclaredFirst → ∃ r, m.ExposesKey d.symbol key r ∧
      (∀ r', m.ExposesKey d.symbol key r' → r.range.start ≤ r'.range.start) ∧ f = behind k r := by
  have hmem (f : Finding) : f ∈ fs ∧ f.rule = .keyDeclaredFirst ↔
      f ∈ fs.filter fun f => f.rule == .keyDeclaredFirst := by
    rw [List.mem_filter, beq_iff_eq]
  simp only [← and_imp, hmem]
  rcases reported_or_not hp ht hd hnode hkey hsymbol hmirrors h with
    ⟨hholds, r, hr, hlt, hfirst, hfound⟩ | ⟨hnot, hfound⟩
  · rw [hfound]
    refine ⟨iff_of_true ⟨_, .head _⟩ ⟨hholds, r, hr, hlt⟩, Nat.le_refl 1, fun f hf => ?_⟩
    exact ⟨r, hr, hfirst, List.mem_singleton.1 hf⟩
  · rw [hfound]
    refine ⟨iff_of_false (fun ⟨f, hf⟩ => List.not_mem_nil hf) hnot, Nat.zero_le 1, ?_⟩
    exact fun f hf => (List.not_mem_nil hf).elim

end Check.BackingMember

namespace Project

open Check.BackingMember (mem_kinds reports_exactly)

variable {p : Project} {m : Model} {file : FileId} {d : TypeDecl} {k : Member}

/-- **Keys in front of their properties.**  The check of a field or a property of a file reports
that it stands behind a member exactly when it is a static key and a member of the same type, in any
part of it in the file, starts with its dependency property and stands in front of it.  There is one
report then, at the key, and it names the first such member.  With the rule on, the diagnostics of
the rule at the key are the same. -/
theorem keyDeclaredFirst_exact {files : List String} (hread : Project.read files = .ok p)
    (hmodel : p.model? file = some m) (hd : d ∈ m.tree.types) (hk : k ∈ d.ownMembers)
    (hkind : k.isFieldOrProperty = true) :
    ∃ type key fs, m.declared? d.id = some type ∧ m.declared? k.id = some key ∧
      ⟨.member k, some d, some k⟩ ∈ m.tree.visits ∧
      (Check.backingMember.run ⟨⟨.member k, some d, some k⟩, m⟩).result .never = .ok fs ∧
      ((∃ f ∈ fs, f.rule = .keyDeclaredFirst) ↔ m.HoldsKey k key ∧
        ∃ r, m.ExposesKey type key r ∧ r.range.start < k.range.start) ∧
      (fs.filter fun f => f.rule == .keyDeclaredFirst).length ≤ 1 ∧
      (∀ f ∈ fs, f.rule = .keyDeclaredFirst → ∃ r, m.ExposesKey type key r ∧
        (∀ r', m.ExposesKey type key r' → r.range.start ≤ r'.range.start) ∧
        f = .withText .keyDeclaredFirst k.range [k.name.text, r.name.text] .moveBefore
          r.name.text) ∧
      ∀ (config : LintConfig) (severity : Severity),
        (config.severity .keyDeclaredFirst).severity? = some severity →
        ∃ ds, (analyzeTree config m).result .never = .ok ds ∧
          (ds.filter fun x => x.rule == .keyDeclaredFirst && k.range.contains x.range).Perm
            ((fs.filter fun f => f.rule == .keyDeclaredFirst).map fun f =>
              f.toDiagnostic file severity) := by
  have hp := isBound_of_read hread
  obtain ⟨tree, hget, rfl⟩ := Option.map_eq_some_iff.1 hmodel
  have ht := List.mem_of_getElem? hget
  obtain ⟨text, htext⟩ := hp.parse tree ht
  have hfile : tree.file = file := hp.file hget
  -- the symbols of the type and of the member
  obtain ⟨dt, hdt, hsource, rfl, htype⟩ := Model.exists_declaredType (m := ⟨p, tree⟩) hp ht hd
  obtain ⟨key, symbol, hkey, hsymbol, hmirrors⟩ :=
    hp.declared?_fieldOrProperty ht hdt hsource hk hkind
  -- the findings at the visit of the member
  have hvisit : (⟨.member k, some dt.decl, some k⟩ : Visit) ∈ tree.visits :=
    SyntaxTree.member_mem_visits hd hk
  obtain ⟨fs, hfs⟩ := Check.backingMember.exists_settles
    ⟨⟨.member k, some dt.decl, some k⟩, ⟨p, tree⟩⟩
  obtain ⟨hiff, hlength, hfirst⟩ :=
    reports_exactly (m := ⟨p, tree⟩) hp ht hdt rfl hkey hsymbol hmirrors hfs.gives
  refine ⟨dt.symbol, key, fs, htype, hkey, hvisit, hfs.result_never, hiff, hlength, hfirst, ?_⟩
  intro config severity hseverity
  have hkmember : k.isType = false := TypeDecl.isType_of_mem_ownMembers hk
  have hparse : SyntaxTree.parse tree.file text = .ok (Model.mk p tree).tree := htext
  rw [← hfile]
  refine analyzeTree_member_perm hparse hvisit rfl hkmember (mem_kinds hkind) (by decide) hseverity
    hfs fun f hf hrule => ?_
  obtain ⟨r, -, -, rfl⟩ := hfirst f hf hrule
  exact OffsetRange.contains_refl k.range

/-- A key behind a member of another part of its type that starts with its dependency property. -/
def keyBehindReader : String :=
  "using System.Windows; " ++
    "partial class A \x7b static DependencyProperty P = (K.DependencyProperty); \x7d " ++
    "partial class A \x7b static DependencyPropertyKey K = null; \x7d"

/-- A static member of the file stands behind another one with a value. -/
theorem keyDeclaredFirst_exact_keyBehindReader : ∃ p m d k, Project.read [keyBehindReader] = .ok p ∧
    p.model? 0 = some m ∧ d ∈ m.tree.types ∧ k ∈ d.ownMembers ∧ k.isFieldOrProperty = true ∧
    k.modifiers.isStatic = true ∧
    (∃ e ∈ m.tree.types, ∃ r ∈ e.ownMembers,
      r.startValue?.isSome = true ∧ r.range.start < k.range.start) ∧
    ∃ type key fs, m.declared? d.id = some type ∧ m.declared? k.id = some key ∧
      ⟨.member k, some d, some k⟩ ∈ m.tree.visits ∧
      (Check.backingMember.run ⟨⟨.member k, some d, some k⟩, m⟩).result .never = .ok fs ∧
      ((∃ f ∈ fs, f.rule = .keyDeclaredFirst) ↔ m.HoldsKey k key ∧
        ∃ r, m.ExposesKey type key r ∧ r.range.start < k.range.start) ∧
      (fs.filter fun f => f.rule == .keyDeclaredFirst).length ≤ 1 ∧
      (∀ f ∈ fs, f.rule = .keyDeclaredFirst → ∃ r, m.ExposesKey type key r ∧
        (∀ r', m.ExposesKey type key r' → r.range.start ≤ r'.range.start) ∧
        f = .withText .keyDeclaredFirst k.range [k.name.text, r.name.text] .moveBefore
          r.name.text) ∧
      ∀ (config : LintConfig) (severity : Severity),
        (config.severity .keyDeclaredFirst).severity? = some severity →
        ∃ ds, (analyzeTree config m).result .never = .ok ds ∧
          (ds.filter fun x => x.rule == .keyDeclaredFirst && k.range.contains x.range).Perm
            ((fs.filter fun f => f.rule == .keyDeclaredFirst).map fun f =>
              f.toDiagnostic 0 severity) := by
  have hfound : ((Project.read [keyBehindReader]).toOption.bind fun p => p.model? 0).any (fun m =>
      m.tree.types.any fun d => d.ownMembers.any fun k =>
        k.isFieldOrProperty && k.modifiers.isStatic && m.tree.types.any fun e =>
          e.ownMembers.any fun r => r.startValue?.isSome && decide (r.range.start < k.range.start)) =
      true := by decide +kernel
  obtain ⟨m, hm, hfound⟩ := (Option.any_eq_true _ _).1 hfound
  obtain ⟨p, hread, hmodel⟩ := Option.bind_eq_some_iff.1 hm
  rw [toOption_eq_some_iff] at hread
  simp only [List.any_eq_true, Bool.and_eq_true, decide_eq_true_eq] at hfound
  obtain ⟨d, hd, k, hk, ⟨hkind, hstatic⟩, e, he, r, hr, hvalue, hlt⟩ := hfound
  exact ⟨p, m, d, k, hread, hmodel, hd, hk, hkind, hstatic, ⟨e, he, r, hr, hvalue, hlt⟩,
    keyDeclaredFirst_exact hread hmodel hd hk hkind⟩

end Project

end PropertyLint
