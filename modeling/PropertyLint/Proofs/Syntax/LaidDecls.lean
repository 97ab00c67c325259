/-
# How statements and declarations are laid out

Every statement, every member and every type declaration that is read is well nested, and so the
declarations of a whole file are (`SyntaxTree.parse_fits`).
-/
import Mathlib.Data.List.Pairwise
import PropertyLint.Proofs.Syntax.LaidExprs

namespace PropertyLint

namespace Grammar

variable {s : Source} {c₀ c c' : Cursor}

/-! ## Statements -/

theorem optionalExpression_lays : Lays s optionalExpression fun e => e.toList.map .expr := by
  intro c e c' hin h
  simp [optionalExpression] at h
  obtain ⟨-, rfl, rfl⟩ | ⟨-, e, he, rfl⟩ := h
  · exact .nil hin (.refl c)
  · exact expression_lays hin he

theorem initializer_lays : Lays s initializer fun e => e.toList.map .expr := by
  intro c e c' hin h
  simp [initializer] at h
  obtain ⟨⟨-, rfl⟩, rfl⟩ | ⟨-, e, he, rfl⟩ := h
  · exact .nil hin (.refl c)
  · have hassign := Laid.nil hin c.reaches_advance
    exact hassign.append (expression_lays hassign.right he)

theorem localType_lays : Lays s localType fun t => [.type t] := by
  intro c t c' hin h
  simp [localType] at h
  exact type_lays _ hin h.2.1

section
variable {statement : Parser Stmt} (hstatement : Lays s statement fun s => [.stmt s])
include hstatement

theorem blockWith_lays : Lays s (blockWith statement) fun b => [.block b] := by
  intro c b c' hin h
  simp [blockWith] at h
  obtain ⟨hopen, ss, hss, rfl⟩ := h
  have hbegin := Laid.nil hin c.reaches_advance
  have hss := untilMark_lays .closeBrace hstatement hbegin.right hss
  exact (hbegin.append hss).close (p := .block ⟨_, ss⟩)
    (here_lt_of_advance hin hopen (by simp) hss.reaches) rfl rfl rfl

omit hstatement in
theorem simpleStatement_lays {st : Stmt} (hin : Within s.tokens c)
    (h : Runs (simpleStatement c.position) c st c') : Laid s c [.stmt st] c' := by
  simp [simpleStatement] at h
  obtain ⟨t, c₁, ⟨t, ht, rfl⟩ | ⟨hno, rfl⟩, h⟩ := h
  · simp at h
    obtain ⟨i, c₂, hi, e, c₃, he, -, rfl, rfl⟩ := h
    have ht := localType_lays hin ht
    have hname := ht.append (identifier_lays ht.right hi)
    exact (hname.append (initializer_lays hname.right he)).advance.parent
      (p := .stmt (.localDecl _ t i e)) (List.cons_ne_nil _ _) rfl
  · simp at h
    obtain ⟨e, c₂, he, -, rfl, rfl⟩ := h
    have hno := Laid.nil hin (hno.reaches .localType)
    exact (hno.append (expression_lays hno.right he)).advance.parent (p := .stmt (.expression _ e))
      (List.cons_ne_nil _ _) rfl

theorem statementWith_lays : Lays s (statementWith statement) fun s => [.stmt s] := by
  intro c st c' hin h
  have hword := Laid.nil hin c.reaches_advance
  -- `return` and `throw` with their value
  have hvalue (make : Node → Option Expr → Stmt) {w : String} {e : Option Expr} {c₁ : Cursor}
      (hhead : c.head = .word w) (h : Runs optionalExpression c.advance e c₁)
      (hparts : ∀ n e, (make n e).parts = e.toList.map .expr)
      (hnode : ∀ n e, (make n e).node = n) :
      Laid s c [.stmt (make ⟨c₁.advance.fresh, c₁.advance.rangeSince c.position⟩ e)]
        c₁.advance.renew := by
    have hlaid := (hword.append (optionalExpression_lays hword.right h)).advance
    have hlt := here_lt_of_advance hin hhead (by simp)
      ((optionalExpression_lays hword.right h).advance).reaches
    exact Laid.node (p := .stmt (make _ e)) (by rwa [Part.parts, hparts]) hlt
      (congrArg some (hnode _ e)) (Part.integerIn_of_none rfl)
  simp [statementWith] at h
  -- the branches come in the order of the negations: block, empty, `return`, `throw`, `if`
  obtain ⟨-, b, c₁, hb, rfl, rfl⟩ | ⟨-, h⟩ := h
  · exact (blockWith_lays hstatement hin hb).parent (p := .stmt (.block _ b))
      (List.cons_ne_nil _ _) rfl
  obtain ⟨-, ⟨-, ⟨-, h⟩ | ⟨hhead, e, c₁, he, -, rfl, rfl⟩⟩ | ⟨hhead, e, c₁, he, -, rfl, rfl⟩⟩ |
    ⟨hhead, rfl, rfl⟩ := h
  · obtain ⟨-, h⟩ | ⟨-, -, condition, c₁, hcondition, -, yes, c₂, hyes, h⟩ := h
    · exact simpleStatement_lays hin h
    · have hopen := hword.advance
      have hcondition := (hopen.append (expression_lays hopen.right hcondition)).advance
      have hyes := hcondition.append (hstatement hcondition.right hyes)
      obtain ⟨-, rfl, rfl⟩ | ⟨-, no, c₃, hno, rfl, rfl⟩ := h
      · exact hyes.parent (p := .stmt (.branch _ condition yes none)) (List.cons_ne_nil _ _) rfl
      · have hyes := hyes.advance
        exact (hyes.append (hstatement hyes.right hno)).parent
          (p := .stmt (.branch _ condition yes (some no))) (List.cons_ne_nil _ _) rfl
  · exact hvalue .throwing hhead he (fun _ _ => rfl) fun _ _ => rfl
  · exact hvalue .returning hhead he (fun _ _ => rfl) fun _ _ => rfl
  · exact hword.node (p := .stmt (.empty _)) (here_lt_advance hin hhead (by simp)) rfl
      (Part.integerIn_of_none rfl)

end

theorem statementToDepth_lays (depth : Nat) :
    Lays s (statementToDepth depth) fun s => [.stmt s] := by
  induction depth with
  | zero =>
    intro c st c' hin h
    simp [statementToDepth] at h
  | succ depth ih => exact statementWith_lays ih

theorem body_lays : Lays s body Body.parts := by
  intro c b c' hin h
  simp [body, block] at h
  obtain ⟨-, b, hb, rfl⟩ | ⟨-, ⟨-, ⟨-, rfl⟩, rfl⟩ | ⟨-, e, c₁, he, ⟨-, rfl⟩, rfl⟩⟩ := h
  · exact blockWith_lays (statementToDepth_lays _) hin hb
  · exact .nil hin c.reaches_advance
  · have harrow := Laid.nil hin c.reaches_advance
    exact (harrow.append (expression_lays harrow.right he)).advance

/-! ## Attributes and modifiers -/

theorem attribute_lays : Lays s attribute_ fun a => [.attr a] := by
  intro c a c' hin h
  simp [attribute_] at h
  obtain ⟨t, c₁, ht, h⟩ := h
  have ht := type_lays _ hin ht
  obtain ⟨-, list, c₂, hlist, rfl, rfl⟩ | ⟨-, rfl, rfl⟩ := h
  · exact (ht.append (argumentList_lays expression_lays true ht.right hlist)).parent
      (p := .attr ⟨_, t, some list⟩) (List.cons_ne_nil _ _) rfl
  · exact ht.parent (p := .attr ⟨_, t, none⟩) (List.cons_ne_nil _ _) rfl

theorem attributeSection_lays : Lays s attributeSection fun as => as.map .attr := by
  intro c as c' hin h
  simp [attributeSection] at h
  -- from behind the target on
  have hsection {c c' : Cursor} (hin : Within s.tokens c)
      (h : ∃ c₁, Runs (byComma attribute_) c as c₁ ∧
        c₁.head = .punct .closeBracket ∧ c₁.advance = c') : Laid s c (as.map .attr) c' := by
    obtain ⟨c₁, h, -, rfl⟩ := h
    exact (byComma_lays attribute_lays hin h).advance
  obtain ⟨-, h⟩ | ⟨-, h⟩ := h
  · have htarget := (Laid.nil hin c.reaches_advance).advance
    exact htarget.append (hsection htarget.right h)
  · exact hsection hin h

theorem attributeSections_lays (rounds : Nat) :
    Lays s (attributeSections rounds) fun as => as.map .attr := by
  induction rounds with
  | zero =>
    intro c as c' hin h
    simp [attributeSections] at h
  | succ rounds ih =>
    intro c as c' hin h
    simp [attributeSections] at h
    obtain ⟨⟨-, rfl⟩, rfl⟩ | ⟨-, first, c₁, hfirst, rest, hrest, rfl⟩ := h
    · exact .nil hin (.refl c)
    · have hopen := Laid.nil hin c.reaches_advance
      have hfirst := hopen.append (attributeSection_lays hopen.right hfirst)
      have hlaid := hfirst.append (ih hfirst.right hrest)
      simpa using hlaid

theorem attributes_lays : Lays s attributes fun as => as.map .attr := by
  intro c as c' hin h
  simp [attributes] at h
  exact attributeSections_lays _ hin h

/-- A declaration starts with its attributes and modifiers. -/
theorem leading_lays {l : Leading} (hin : Within s.tokens c) (h : Runs leading c l c') :
    l.start = c.position ∧ Laid s c (l.attributes.map .attr) c' := by
  simp [leading] at h
  obtain ⟨as, c₁, has, ms, hms, rfl⟩ := h
  exact ⟨rfl, (attributes_lays hin has).reach (reaches_of_modifiersUpTo hms)⟩

/-! ## Parameters -/

theorem parameter_lays : Lays s parameter fun p => [.parameter p] := by
  intro c p c' hin h
  -- from behind the modifiers on
  have hrest {c₁ c₂ c₃ c₄ c₅ : Cursor} {stop : TokenKind → Bool} {rounds : Nat} {u : Unit}
      {as : List Attribute} {receiver : Bool} {t : TypeRef} {i : Ident} {e : Option Expr}
      (has : Laid s c (as.map .attr) c₁) (hskip : Runs (skipTo stop rounds) c₁ u c₂)
      (ht : Runs (type .declaration) c₂ t c₃) (hi : Runs identifier c₃ i c₄)
      (he : Runs initializer c₄ e c₅) :
      Laid s c [.parameter ⟨⟨c₅.fresh, c₅.rangeSince c.position⟩, as, receiver, t, i, e⟩]
        c₅.renew := by
    have has := has.reach (reaches_of_skipTo hskip)
    have ht := type_lays _ has.right ht
    have hname := has.append (ht.append (identifier_lays ht.right hi))
    exact (hname.append (initializer_lays hname.right he)).parent
      (p := .parameter ⟨_, as, receiver, t, i, e⟩) (by simp [Part.parts, Parameter.parts]) rfl
  simp [parameter] at h
  obtain ⟨as, c₁, has, ⟨-, u, c₂, hu, t, c₃, ht, i, c₄, hi, e, c₅, he, rfl, rfl⟩ |
    ⟨-, u, c₂, hu, t, c₃, ht, i, c₄, hi, e, c₅, he, rfl, rfl⟩⟩ := h
  · exact hrest (attributes_lays hin has) hu ht hi he
  · exact hrest (attributes_lays hin has).advance hu ht hi he

theorem parameters_lays : Lays s parameters fun ps => ps.map .parameter :=
  fun _ _ _ hin h => (inParens_lays parameter_lays hin h).1

theorem typeParameter_lays : Lays s typeParameter fun i => [.ident i] := by
  intro c i c' hin h
  simp [typeParameter] at h
  obtain ⟨-, h⟩ | ⟨-, h⟩ := h
  · have hvariance := Laid.nil hin c.reaches_advance
    exact hvariance.append (identifier_lays hvariance.right h)
  · exact identifier_lays hin h

theorem typeParameters_lays : Lays s typeParameters fun is => is.map .ident := by
  intro c is c' hin h
  simp [typeParameters] at h
  obtain ⟨⟨-, rfl⟩, rfl⟩ | ⟨-, c₁, his, -, rfl⟩ := h
  · exact .nil hin (.refl c)
  · have hless := Laid.nil hin c.reaches_advance
    exact (hless.append (byComma_lays typeParameter_lays hless.right his)).advance

/-! ## Members -/

theorem accessorKind_lt {k : AccessorKind} (hin : Within s.tokens c)
    (h : Runs accessorKind c k c') : Laid s c [] c' ∧ c.here < c'.last := by
  simp [accessorKind] at h
  have hword {w : String} (hw : c.head = .word w) :
      Laid s c [] c.advance ∧ c.here < c.advance.last :=
    ⟨.nil hin c.reaches_advance, here_lt_advance hin hw (by simp)⟩
  obtain ⟨-, ⟨-, ⟨hw, rfl⟩, -⟩ | ⟨⟨hw, rfl⟩, -⟩⟩ | ⟨⟨hw, rfl⟩, -⟩ := h
  · exact hword hw
  · exact hword hw
  · exact hword hw

theorem accessor_lays : Lays s accessor fun a => [.accessor a] := by
  intro c a c' hin h
  simp [accessor] at h
  obtain ⟨l, c₁, hl, k, c₂, hk, b, c₃, hb, rfl, rfl⟩ := h
  obtain ⟨hstart, hl⟩ := leading_lays hin hl
  obtain ⟨hkind, hlt⟩ := accessorKind_lt hl.right hk
  have hb := body_lays hkind.right hb
  have hfirst := Laid.nil hin (hl.reaches.trans hkind.reaches)
  have hlt : c.here < c₃.last :=
    Nat.lt_of_le_of_lt (s.here_le hin hl.reaches)
      (Nat.lt_of_lt_of_le hlt (s.last_le hkind.right hb.reaches))
  exact (hfirst.append hb).node (p := .accessor ⟨_, k, l.modifiers, b⟩) hlt
    (by rw [← hstart]; rfl) (Part.integerIn_of_none rfl)

section
variable {l : Leading} (hl : l.start = c₀.position)
include hl

theorem constructor_lays {d : ConstructorDecl}
    (hattributes : Laid s c₀ (l.attributes.map .attr) c) (h : Runs (constructor_ l) c d c') :
    Laid s c₀ [.member (.constructor d)] c' := by
  simp [constructor_] at h
  obtain ⟨i, c₁, hi, ps, c₂, hps, h⟩ := h
  have hname := hattributes.append (identifier_lays hattributes.right hi)
  have hps := hname.append (parameters_lays hname.right hps)
  have hbody {b : Body} {c₃ c₄ : Cursor} (hreaches : c₂.Reaches c₃) (hb : Runs body c₃ b c₄) :
      Laid s c₀ [.member (.constructor ⟨⟨⟨c₄.fresh, c₄.rangeSince l.start⟩, l.doc, l.attributes,
        l.modifiers, i⟩, ps, b⟩)] c₄.renew := by
    have hps := hps.reach hreaches
    exact (hps.append (body_lays hps.right hb)).parent (p := .member (.constructor ⟨_, ps, b⟩))
      (by simp [Part.parts, Member.parts]) (by rw [← hl]; rfl)
  obtain ⟨-, b, c₃, hb, rfl, rfl⟩ | ⟨-, -, c₃, ⟨list, hlist⟩, b, c₄, hb, rfl, rfl⟩ := h
  · exact hbody (.refl c₂) hb
  · have hskip := Laid.nil hps.right (c₂.reaches_advance.trans c₂.advance.reaches_advance)
    have hlist := argumentList_lays expression_lays false hskip.right hlist
    exact hbody (hskip.reaches.trans hlist.reaches) hb

variable {t : TypeRef} {name : Ident}

theorem method_lays {interface : Option TypeRef} {d : MethodDecl}
    (hname : Laid s c₀ (l.attributes.map .attr ++ [.type t] ++ interface.toList.map .type ++
      [.ident name]) c) (h : Runs (method l t interface name) c d c') :
    Laid s c₀ [.member (.method d)] c' := by
  simp [method] at h
  obtain ⟨is, c₁, his, ps, c₂, hps, u, c₃, hu, b, c₄, hb, rfl, rfl⟩ := h
  have his := hname.append (typeParameters_lays hname.right his)
  have hps := (his.append (parameters_lays his.right hps)).reach (reaches_of_skipConstraints hu)
  exact (hps.append (body_lays hps.right hb)).parent (p := .member (.method ⟨_, _, _, _, _, _⟩))
    (by simp [Part.parts, Member.parts]) (by rw [← hl]; rfl)

theorem property_lays {d : PropertyDecl}
    (hname : Laid s c₀ (l.attributes.map .attr ++ [.type t, .ident name]) c)
    (h : Runs (property l t name) c d c') : Laid s c₀ [.member (.property d)] c' := by
  have hnext := hname.advance
  simp [property] at h
  obtain ⟨-, -, as, c₁, has, e, c₂, he, h⟩ | ⟨-, e, c₁, he, -, rfl, rfl⟩ := h
  · have has := hnext.append (untilMark_lays .closeBrace accessor_lays hnext.right has)
    have he := has.append (initializer_lays has.right he)
    -- with the semicolon behind the initial value or without
    have hclose {c₃ : Cursor} (hreaches : c₂.Reaches c₃) :
        Laid s c₀ [.member (.property ⟨⟨⟨c₃.fresh, c₃.rangeSince l.start⟩, l.doc, l.attributes,
          l.modifiers, name⟩, t, as, none, e⟩)] c₃.renew :=
      Laid.parent (p := .member (.property _))
        (by simpa [Part.parts, Member.parts] using he.reach hreaches)
        (by simp [Part.parts, Member.parts]) (by rw [← hl]; rfl)
    obtain ⟨-, -, rfl, rfl⟩ | ⟨-, rfl, rfl⟩ := h
    · exact hclose c₂.reaches_advance
    · exact hclose (.refl c₂)
  · have he := (hnext.append (expression_lays hnext.right he)).advance
    exact Laid.parent (p := .member (.property _))
      (by simpa [Part.parts, Member.parts] using he) (by simp [Part.parts, Member.parts])
      (by rw [← hl]; rfl)

theorem field_lays {d : FieldDecl}
    (hname : Laid s c₀ (l.attributes.map .attr ++ [.type t, .ident name]) c)
    (h : Runs (field l t name) c d c') : Laid s c₀ [.member (.field d)] c' := by
  simp [field] at h
  obtain ⟨e, c₁, he, -, rfl, rfl⟩ := h
  exact (hname.append (initializer_lays hname.right he)).advance.parent
    (p := .member (.field ⟨_, _, _⟩)) (by simp [Part.parts, Member.parts]) (by rw [← hl]; rfl)

end

/-! ## Names in front of a member -/

theorem span_of_identifier {i : Ident} (h : Runs identifier c i c') :
    c.here = i.range.start ∧ c'.last = i.range.stop := by
  obtain ⟨rfl, doc, rest, htokens⟩ := runs_identifier.1 h
  exact ⟨by rw [Cursor.here, htokens], by rw [Cursor.advance, htokens]⟩

/-- The identifiers of a dotted name: those in front of the last one cover all that is read up to
some cursor, and behind it the last one is read. -/
theorem dottedIdents_lays {rounds : Nat} {is : List Ident} (hin : Within s.tokens c)
    (h : Runs (dottedIdents rounds) c is c') :
    ∃ init name c₁, is = init ++ [name] ∧ Laid s c (init.map .ident) c₁ ∧
      Laid s c₁ [.ident name] c' ∧ (∀ i ∈ init.head?, c.here = i.range.start) ∧
      ∀ i ∈ init.getLast?, c₁.last = i.range.stop := by
  induction rounds generalizing c is with
  | zero => simp [dottedIdents] at h
  | succ rounds ih =>
    simp [dottedIdents, atDottedWord] at h
    obtain ⟨i, c₁, hi, ⟨-, is', hrest, rfl⟩ | ⟨-, rfl, rfl⟩⟩ := h
    · have hfirst := identifier_lays hin hi
      obtain ⟨hhere, hlast⟩ := span_of_identifier hi
      obtain ⟨init, name, c₂, rfl, hinit, hname, -, hstop⟩ := ih hfirst.advance.right hrest
      obtain _ | ⟨j, init⟩ := init
      · -- the cursor in front of the dot
        refine ⟨[i], name, c₁, rfl, hfirst, ?_, by simpa using hhere, by simpa using hlast⟩
        exact (Laid.nil hfirst.right c₁.reaches_advance).append (hinit.append hname)
      · refine ⟨i :: j :: init, name, c₂, rfl, hfirst.advance.append hinit, hname,
          by simpa using hhere, fun k hk => hstop k ?_⟩
        rwa [List.getLast?_cons_cons] at hk
    · exact ⟨[], i, c, rfl, .nil hin (.refl c), identifier_lays hin hi, by simp, by simp⟩

theorem parts_of_idents (is : List Ident) :
    (is.map fun i => NameSegment.mk i []).flatMap NameSegment.parts = is.map .ident := by
  induction is with
  | nil => rfl
  | cons i is ih =>
    rw [List.map_cons, List.flatMap_cons, ih]
    rfl

theorem nodesOfSegments_idents (is : List Ident) :
    nodesOfSegments (is.map fun i => .mk i []) = [] := by
  rw [← Part.flatMap_nodes_segment, parts_of_idents, Part.flatMap_nodes_ident]

/-- The type that identifiers spell covers them. -/
theorem spelledType_enclosed {first : Ident} {rest : List Ident} {t : TypeRef} {id : NodeId}
    {c₁ : Cursor} (ht : t = .named ⟨id, first.range.cover (rest.getLast?.getD first).range⟩
      ((first :: rest).map fun i => .mk i []))
    (his : Laid s c ((first :: rest).map .ident) c₁) (hstart : c.here = first.range.start)
    (hstop : ∀ i ∈ (first :: rest).getLast?, c₁.last = i.range.stop) :
    Part.Between s.chars c.here [.type t] c₁.last ∧ (Part.type t).OnTokens s.tokens := by
  -- the first identifier starts where the first cursor is, and the last one ends at the second one
  obtain ⟨last, hlast⟩ : ∃ last, (first :: rest).getLast? = some last :=
    ⟨_, List.getLast?_eq_some_getLast (List.cons_ne_nil _ _)⟩
  have hmem : last ∈ first :: rest := List.mem_of_getLast? hlast
  have hrest : rest.getLast?.getD first = last := by
    rw [List.getLast?_cons] at hlast
    exact Option.some.inj hlast
  have hend := hstop last hlast
  have hle := his.between.start (.ident last) (List.mem_map_of_mem hmem)
  have hle' := his.between.stop (.ident first) (.head _)
  have hlt := his.lt (by simp)
  refine Laid.enclosed ?_ hlt rfl ?_ (Part.integerIn_of_none rfl)
  · rwa [Part.parts, ht, TypeRef.parts, parts_of_idents]
  · rw [(s.exists_slice his.within his.reaches hlt).1, ht, hrest]
    simp only [Part.range] at hle hle'
    simp only [Part.range, TypeRef.range, TypeRef.node, OffsetRange.cover, OffsetRange.mk.injEq]
    omega

/-- The type in front of the name of a member covers its identifiers; it gets its identity when the
name has been read. -/
theorem interfaceType_lays {is : List Ident} {name : Ident} {o : Option TypeRef}
    {c₁ c₂ c₃ : Cursor} (his : Laid s c (is.map .ident) c₁) (hname : Laid s c₁ [.ident name] c₂)
    (hstart : ∀ i ∈ is.head?, c.here = i.range.start)
    (hstop : ∀ i ∈ is.getLast?, c₁.last = i.range.stop) (h : Runs (interfaceType is) c₂ o c₃) :
    Laid s c (o.toList.map .type ++ [.ident name]) c₃ := by
  have hboth := his.append hname
  cases is with
  | nil =>
    simp [interfaceType] at h
    obtain ⟨rfl, rfl⟩ := h
    exact hboth
  | cons first rest =>
    simp [interfaceType] at h
    obtain ⟨rfl, rfl⟩ := h
    obtain ⟨hbetween, hon⟩ := spelledType_enclosed rfl his (hstart first rfl) hstop
    have hle := hboth.reaches.fresh_le
    refine ⟨his.within, hboth.reaches.trans c₂.reaches_renew, ?_,
      List.forall_mem_cons.2 ⟨hon, hname.onTokens⟩, ?_⟩
    · exact hbetween.append hname.between (s.last_le_here his.right)
        (s.here_le his.within his.reaches) (s.last_le his.right hname.renew.reaches)
    · have hnil : Numbered c.fresh [] c₂.fresh := .nil
      have hone := hnil.cons (n := .type (.named ⟨c₂.fresh, first.range.cover
        (rest.getLast?.getD first).range⟩ ((first :: rest).map fun i => .mk i []))) rfl hle
      simpa [Part.nodes, TypeRef.nodes, nodesOfSegments, nodesOfTypes, nodesOfSegments_idents]
        using hone

theorem typedMember_lays {l : Leading} (hl : l.start = c₀.position) {m : Member}
    (hattributes : Laid s c₀ (l.attributes.map .attr) c) (h : Runs (typedMember l) c m c') :
    Laid s c₀ [.member m] c' := by
  simp [typedMember] at h
  obtain ⟨t, c₁, ht, is, c₂, his, h⟩ := h
  have ht := type_lays _ hattributes.right ht
  obtain ⟨init, name, c₃, rfl, hinit, hname, hstart, hstop⟩ := dottedIdents_lays ht.right his
  simp at h
  obtain ⟨o, c₄, ho, h⟩ := h
  have hinterface := interfaceType_lays hinit hname hstart hstop ho
  have hreaches := (reaches_of_interfaceType ho).1
  have hmember : Laid s c₀ (l.attributes.map .attr ++ [.type t, .ident name]) c₄ :=
    hattributes.append ((ht.reach hinit.reaches).append (hname.reach hreaches))
  obtain ⟨-, d, hd, rfl⟩ | ⟨-, ⟨-, d, hd, rfl⟩ | ⟨-, d, hd, rfl⟩⟩ := h
  · have hmethod := (hattributes.append ht).append hinterface
    rw [← List.append_assoc] at hmethod
    exact method_lays hl hmethod hd
  · exact property_lays hl hmember hd
  · exact field_lays hl hmember hd

/-! ## Types -/

theorem typeDeclWith_lays {member : String → Parser Member}
    (hmember : ∀ name, Lays s (member name) fun m => [.member m]) {l : Leading}
    (hl : l.start = c₀.position) {namespaceName : Option String} {d : TypeDecl}
    (hattributes : Laid s c₀ (l.attributes.map .attr) c)
    (h : Runs (typeDeclWith member l namespaceName) c d c') :
    Laid s c₀ [.member (.type d)] c' := by
  simp [typeDeclWith] at h
  obtain ⟨k, c₁, hk, i, c₂, hi, is, c₃, his, h⟩ := h
  have hattributes := hattributes.reach (reaches_of_typeKeyword hk)
  have hname := hattributes.append (identifier_lays hattributes.right hi)
  have his := hname.append (typeParameters_lays hname.right his)
  -- from behind the bases on
  have hrest (bases : List TypeRef) {c₄ c₅ c₆ c₇ : Cursor} {u : Unit} {ms : List Member}
      (hbases : Laid s c₀ (l.attributes.map .attr ++ [.ident i] ++ is.map .ident ++
        bases.map .type) c₄)
      (hu : Runs skipConstraints c₄ u c₅)
      (hms : Runs (untilMark .closeBrace (member i.text)) c₅.advance ms c₆)
      (hend : ¬ c₆.head = .punct .semicolon ∧ c₆ = c₇ ∨
        c₆.head = .punct .semicolon ∧ c₆.advance = c₇) :
      Laid s c₀ [.member (.type (.mk ⟨⟨⟨c₇.fresh, c₇.rangeSince l.start⟩, l.doc, l.attributes,
        l.modifiers, i⟩, namespaceName, k, is, bases⟩ ms))] c₇.renew := by
    have hopen := (hbases.reach (reaches_of_skipConstraints hu)).advance
    have hms := hopen.append (untilMark_lays .closeBrace (hmember i.text) hopen.right hms)
    have hreaches : c₆.Reaches c₇ := by
      obtain ⟨-, rfl⟩ | ⟨-, rfl⟩ := hend
      · exact .refl c₆
      · exact c₆.reaches_advance
    exact (hms.reach hreaches).parent (p := .member (.type (.mk _ _)))
      (by simp [Part.parts, Member.parts, TypeDecl.header]) (by rw [← hl]; rfl)
  obtain ⟨-, u, c₄, hu, -, ms, c₅, hms, c₆, hend, rfl, rfl⟩ |
    ⟨-, ts, c₄, hts, u, c₅, hu, -, ms, c₆, hms, c₇, hend, rfl, rfl⟩ := h
  · exact hrest [] (his.append (.nil his.right (.refl _))) hu hms hend
  · have his := his.advance
    exact hrest ts (his.append (byComma_lays (type_lays _) his.right hts)) hu hms hend

theorem memberWith_lays {typeDecl : Leading → Parser TypeDecl}
    (htype : ∀ {l : Leading} {d : TypeDecl} {c₀ c c' : Cursor}, l.start = c₀.position →
      Laid s c₀ (l.attributes.map .attr) c → Runs (typeDecl l) c d c' →
      Laid s c₀ [.member (.type d)] c') (typeName : String) :
    Lays s (memberWith typeDecl typeName) fun m => [.member m] := by
  intro c m c' hin h
  simp [memberWith] at h
  obtain ⟨l, c₁, hl, h⟩ := h
  obtain ⟨hstart, hl⟩ := leading_lays hin hl
  obtain ⟨-, d, hd, rfl⟩ | ⟨-, ⟨-, d, hd, rfl⟩ | ⟨-, hm⟩⟩ := h
  · exact htype hstart hl hd
  · exact constructor_lays hstart hl hd
  · exact typedMember_lays hstart hl hm

theorem typeDeclToDepth_lays {namespaceName : Option String} {depth : Nat} {l : Leading}
    {d : TypeDecl} (hl : l.start = c₀.position) (hattributes : Laid s c₀ (l.attributes.map .attr) c)
    (h : Runs (typeDeclToDepth namespaceName depth l) c d c') :
    Laid s c₀ [.member (.type d)] c' := by
  induction depth generalizing l d c₀ c c' with
  | zero => simp [typeDeclToDepth] at h
  | succ depth ih => exact typeDeclWith_lays (memberWith_lays ih) hl hattributes h

/-! ## Files -/

/-- The declarations have been read from the first cursor to the second one: their attributes and
types, and nothing else, stand one behind the other. -/
def UnitLaid (s : Source) (c : Cursor) (u : CompilationUnit) (c' : Cursor) : Prop :=
  ∃ ps, Laid s c ps c' ∧ (u.attributes.map .attr).Sublist ps ∧
    (u.types.map fun d => .member (.type d)).Sublist ps ∧ ps.Perm u.parts

theorem UnitLaid.empty (hin : Within s.tokens c) (h : c.Reaches c') : UnitLaid s c {} c' :=
  ⟨[], .nil hin h, .refl _, .refl _, .refl _⟩

theorem UnitLaid.skip {u : CompilationUnit} {c₁ : Cursor} (hu : UnitLaid s c₁ u c')
    (hin : Within s.tokens c) (h : c.Reaches c₁) : UnitLaid s c u c' := by
  obtain ⟨ps, hps, hparts⟩ := hu
  exact ⟨ps, (Laid.nil hin h).append hps, hparts⟩

theorem UnitLaid.right {u : CompilationUnit} (hu : UnitLaid s c u c') : Within s.tokens c' := by
  obtain ⟨ps, hps, -⟩ := hu
  exact hps.right

theorem UnitLaid.append {u v : CompilationUnit} {c₁ : Cursor} (hu : UnitLaid s c u c₁)
    (hv : UnitLaid s c₁ v c') : UnitLaid s c (u.append v) c' := by
  obtain ⟨ps, hps, hattributes, htypes, hperm⟩ := hu
  obtain ⟨qs, hqs, hattributes', htypes', hperm'⟩ := hv
  refine ⟨ps ++ qs, hps.append hqs, ?_, ?_, ?_⟩
  · rw [CompilationUnit.append, List.map_append]
    exact hattributes.append hattributes'
  · rw [CompilationUnit.append, List.map_append]
    exact htypes.append htypes'
  · refine (hperm.append hperm').trans ?_
    simp only [CompilationUnit.parts, CompilationUnit.append, List.map_append, List.append_assoc]
    exact (List.perm_append_comm_assoc _ _ _).append_left _

theorem declarations_lays {topLevel : Bool} {rounds : Nat} {namespaceName : Option String}
    {u : CompilationUnit} (hin : Within s.tokens c)
    (h : Runs (declarations topLevel rounds namespaceName) c u c') : UnitLaid s c u c' := by
  induction rounds generalizing topLevel namespaceName c u c' with
  | zero => simp [declarations] at h
  | succ rounds ih =>
    -- tokens in front of declarations hold none
    have hskip {c₁ c₂ : Cursor} {v : CompilationUnit} (hreaches : c.Reaches c₁)
        (hv : UnitLaid s c₁ v c₂) : UnitLaid s c v c₂ :=
      hv.skip hin hreaches
    simp [declarations] at h
    obtain ⟨-, -, rfl, rfl⟩ | ⟨-, ⟨-, rfl, rfl⟩ | ⟨-, h⟩⟩ := h
    · exact .empty hin (.refl c)
    · exact .empty hin c.reaches_advance
    obtain ⟨-, ⟨-, h⟩ | ⟨-, name, c₁, hname, h⟩⟩ | ⟨-, name, c₁, hname, rest, hrest, rfl⟩ := h
    · obtain ⟨-, as, c₁, has, rest, hrest, rfl⟩ |
        ⟨-, l, c₁, hl, decl, c₂, hdecl, rest, hrest, rfl⟩ := h
      · have has := attributes_lays hin has
        have hunit : UnitLaid s c ⟨[], as, []⟩ c₁ :=
          ⟨_, has, .refl _, List.nil_sublist _, by simp [CompilationUnit.parts]⟩
        exact hunit.append (ih has.right hrest)
      · obtain ⟨hstart, hl⟩ := leading_lays hin hl
        have hdecl := typeDeclToDepth_lays hstart hl hdecl
        have hunit : UnitLaid s c ⟨[], [], [decl]⟩ c₂ :=
          ⟨_, hdecl, List.nil_sublist _, .refl _, .refl _⟩
        exact hunit.append (ih hdecl.right hrest)
    · have hreaches := c.reaches_advance.trans (reaches_of_dottedName hname)
      have hname := Laid.nil hin (hreaches.trans c₁.reaches_advance)
      obtain ⟨-, -, inner, c₂, hinner, rest, hrest, rfl⟩ | ⟨-, hinner⟩ := h
      · have hinner := hskip hname.reaches (ih hname.right hinner)
        exact hinner.append (ih hinner.right hrest)
      · exact hskip hname.reaches (ih hname.right hinner)
    · have hname := Laid.nil hin (c.reaches_advance.trans (reaches_of_usingDirective hname))
      exact UnitLaid.append (u := ⟨name.toList, [], []⟩)
        ⟨[], hname, .refl _, .refl _, .refl _⟩ (ih hname.right hrest)

/-- The declarations of a file stand one behind the other. -/
theorem compilationUnit_lays {u : CompilationUnit} (hin : Within s.tokens c)
    (h : Runs compilationUnit c u c') : UnitLaid s c u c' := by
  simp only [compilationUnit, runs_bind, runs_bound] at h
  obtain ⟨n, c₁, ⟨rfl, rfl⟩, h⟩ := h
  exact declarations_lays hin h

end Grammar

/-! ## Trees -/

namespace SyntaxTree

variable {file : FileId} {text : String} {t : SyntaxTree}

/-- How the attributes and types of a file that has been read are laid out. -/
theorem exists_unitLaid_of_parse (h : parse file text = .ok t) :
    ∃ (s : Grammar.Source) (c : Grammar.Cursor), s.chars = text.toList ∧
      Grammar.UnitLaid s ⟨s.tokens, 0, 0, byteLength text.toList⟩ t.root c := by
  obtain ⟨-, -, tokens, c, htokens, hrun⟩ := exists_run_of_parse h
  have hin : Grammar.Within tokens ⟨tokens, 0, 0, byteLength text.toList⟩ := ⟨[], rfl, rfl⟩
  exact ⟨⟨text.toList, tokens, htokens⟩, c, rfl, Grammar.compilationUnit_lays hin hrun⟩

/-- The attributes and types of a file that has been read are well nested and stand one behind the
other. -/
theorem exists_parts_of_parse (h : parse file text = .ok t) :
    ∃ ps : List Part, (∀ p ∈ ps, p.WellNested text.toList) ∧ ps.Pairwise Part.Before ∧
      (t.root.attributes.map .attr).Sublist ps ∧
      (t.root.types.map fun d => .member (.type d)).Sublist ps := by
  obtain ⟨s, c, hchars, ps, hps, hattributes, htypes, -⟩ := exists_unitLaid_of_parse h
  exact ⟨ps, hchars ▸ hps.between.wellNested, hps.between.ordered, hattributes, htypes⟩

/-- The nodes of a file that has been read have different identities. -/
theorem numbered_of_parse (h : parse file text = .ok t) :
    ∃ next, Numbered 0 t.root.nodes next := by
  obtain ⟨s, c, -, ps, hps, -, -, hperm⟩ := exists_unitLaid_of_parse h
  rw [CompilationUnit.nodes_eq]
  exact ⟨c.fresh, hps.numbered.perm (hperm.symm.flatMap_right _)⟩

/-- Everything in a tree that has been read is well nested. -/
theorem Holds.wellNested (h : parse file text = .ok t) {p : Part} (hp : t.Holds p) :
    p.WellNested text.toList := by
  obtain ⟨ps, hnested, -, hattributes, htypes⟩ := exists_parts_of_parse h
  induction hp with
  | attr ha => exact hnested _ (hattributes.subset (List.mem_map_of_mem ha))
  | type hd => exact hnested _ (htypes.subset (List.mem_map.2 ⟨_, hd, rfl⟩))
  | part _ hq ih => exact ih.part hq

/-- Everything in a tree that has been read starts with a token and ends with one, and its integer
literals are tokens. -/
theorem onTokens_of_parse {tokens : List Token} (h : parse file text = .ok t)
    (htokens : tokenize text = .ok tokens) {p : Part} (hp : t.Holds p) : p.OnTokens tokens := by
  obtain ⟨s, c, hchars, ps, hps, hattributes, htypes, -⟩ := exists_unitLaid_of_parse h
  obtain rfl : s.tokens = tokens := by
    have hs := s.tokenized
    rw [hchars] at hs
    exact Except.ok.inj (hs.symm.trans htokens)
  induction hp with
  | attr ha => exact hps.onTokens _ (hattributes.subset (List.mem_map_of_mem ha))
  | type hd => exact hps.onTokens _ (htypes.subset (List.mem_map.2 ⟨_, hd, rfl⟩))
  | part _ hq ih => exact ih.part hq

/-- The attributes of the assembly and the types of a file do not overlap. -/
theorem apart_of_parse (h : parse file text = .ok t) {a : Attribute} {d : TypeDecl}
    (ha : a ∈ t.root.attributes) (hd : d ∈ t.root.types) :
    a.range.Precedes d.range ∨ d.range.Precedes a.range := by
  obtain ⟨ps, -, hordered, hattributes, htypes⟩ := exists_parts_of_parse h
  have hapart : ps.Pairwise fun p q : Part => p.Before q ∨ q.Before p := hordered.imp .inl
  have hsymm : Std.Symm fun p q : Part => p.Before q ∨ q.Before p := ⟨fun _ _ => Or.symm⟩
  exact hapart.forall (hattributes.subset (List.mem_map_of_mem ha))
    (htypes.subset (List.mem_map.2 ⟨d, hd, rfl⟩)) (by simp)

/-- **Nesting.**  Every part of a tree covers some characters of the text, an identifier those of
its name, perhaps with the sign in front of it; it contains the parts of it, which stand one behind
the other.  So do the attributes and the types of the file. -/
theorem parse_fits (h : parse file text = .ok t) :
    (∀ p, t.Holds p → p.Fits text.toList) ∧
      (t.root.attributes.Pairwise fun a b => a.range.Precedes b.range) ∧
      (t.root.types.Pairwise fun d e => d.range.Precedes e.range) ∧
      ∀ a ∈ t.root.attributes, ∀ d ∈ t.root.types,
        a.range.Precedes d.range ∨ d.range.Precedes a.range := by
  obtain ⟨ps, -, hordered, hattributes, htypes⟩ := exists_parts_of_parse h
  refine ⟨fun p hp => (hp.wellNested h).fits, ?_, ?_, fun a ha d hd => apart_of_parse h ha hd⟩
  · have hattributes := hordered.sublist hattributes
    rwa [List.pairwise_map] at hattributes
  · have htypes := hordered.sublist htypes
    rwa [List.pairwise_map] at htypes

/-- An attribute of the assembly and a class with an escaped name. -/
def escapedName : String := "[assembly: A] class @B\x7b[A(c: 1)] int C = 2;\x7d"

/-- The class and its name are at the places where they are written. -/
theorem parse_fits_escapedName : ∃ t d, parse 0 escapedName = .ok t ∧ d ∈ t.root.types ∧
    d.range = ⟨14, 44⟩ ∧ d.name = ⟨"B", ⟨20, 22⟩⟩ ∧
    (∀ p, t.Holds p → p.Fits escapedName.toList) ∧
      (t.root.attributes.Pairwise fun a b => a.range.Precedes b.range) ∧
      (t.root.types.Pairwise fun d e => d.range.Precedes e.range) ∧
      ∀ a ∈ t.root.attributes, ∀ d ∈ t.root.types,
        a.range.Precedes d.range ∨ d.range.Precedes a.range := by
  have hread : ((parse 0 escapedName).toOption.bind fun t => t.root.types.head?.map fun d =>
      (d.range, d.name)) = some (⟨14, 44⟩, ⟨"B", ⟨20, 22⟩⟩) := by decide +kernel
  obtain ⟨t, ht, hread⟩ := Option.bind_eq_some_iff.1 hread
  obtain ⟨d, hd, hname⟩ := Option.map_eq_some_iff.1 hread
  have ht : parse 0 escapedName = .ok t := by
    cases hparse : parse 0 escapedName <;> simp_all [Except.toOption]
  exact ⟨t, d, ht, List.mem_of_head? hd, (Prod.mk.inj hname).1, (Prod.mk.inj hname).2,
    parse_fits ht⟩

end SyntaxTree

end PropertyLint
