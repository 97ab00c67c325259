/-
# Reading members and types

What is known of everything that the parser of files gives: `compilationUnit_reads`.
-/
import PropertyLint.Proofs.Syntax.DeclReading

namespace PropertyLint.Grammar

variable {α : Type} {c c' : Cursor} {tokens : List Token}

/-! ## Parameters -/

theorem initializer_stops {e : Option Expr} (h : Runs initializer c e c')
    (hstops : StopsAt .done c') : StopsAt .done c := by
  simp [initializer] at h
  obtain ⟨⟨-, rfl⟩, -⟩ | ⟨hassign, -⟩ := h
  · exact hstops
  · exact stopsAt_of_punct hassign rfl

theorem parameter_yields :
    Yields tokens parameter fun p c => c.head = .punct .comma ∨ c.head = .punct .closeParen →
      TypeRead tokens p.type ∧ ExprsRead tokens (walkOption p.default) := by
  have hattributes := @attributes_yields tokens
  have hinit := @initializer_yields tokens
  unfold Yields at *
  have hstops {c c' : Cursor} {e : Option Expr} (h : Runs initializer c e c')
      (hnext : c'.head = .punct .comma ∨ c'.head = .punct .closeParen) : StopsAt .done c :=
    initializer_stops h <| hnext.elim (stopsAt_of_punct · rfl) (stopsAt_of_punct · rfl)
  -- from behind the modifiers on; the type ends in front of the name, whatever comes next
  have hrest {c₁ c₂ c₃ c₄ c₅ : Cursor} {stop : TokenKind → Bool} {rounds : Nat} {u : Unit}
      {t : TypeRef} {i : Ident} {e : Option Expr} (hin : Within tokens c₁)
      (hskip : Runs (skipTo stop rounds) c₁ u c₂) (ht : Runs (type .declaration) c₂ t c₃)
      (hi : Runs identifier c₃ i c₄) (he : Runs initializer c₄ e c₅) :
      c₁.Reaches c₅.renew ∧ (c₅.head = .punct .comma ∨ c₅.head = .punct .closeParen →
        TypeRead tokens t ∧ ExprsRead tokens (walkOption e)) := by
    have hreaches := reaches_of_skipTo hskip
    have hreaches' := (reaches_of_type ht).trans (reaches_of_identifier hi)
    obtain ⟨hreaches'', hread⟩ := hinit ((hin.reaches hreaches).reaches hreaches') he
    refine ⟨(hreaches.trans hreaches').trans (hreaches''.trans c₅.reaches_renew), fun hnext => ?_⟩
    exact ⟨.of_runs (hin.reaches hreaches) ht hi (hstops he hnext), hread⟩
  intro c p c' hin h
  simp [parameter] at h
  obtain ⟨as, c₁, has, ⟨-, u, c₂, hu, t, c₃, ht, i, c₄, hi, e, c₅, he, rfl, rfl⟩ |
    ⟨-, u, c₂, hu, t, c₃, ht, i, c₄, hi, e, c₅, he, rfl, rfl⟩⟩ := h
  · have hreaches := (hattributes hin has).1
    obtain ⟨hreaches', hread⟩ := hrest (hin.reaches hreaches) hu ht hi he
    exact ⟨hreaches.trans hreaches', hread⟩
  · have hreaches := (hattributes hin has).1.trans c₁.reaches_advance
    obtain ⟨hreaches', hread⟩ := hrest (hin.reaches hreaches) hu ht hi he
    exact ⟨hreaches.trans hreaches', hread⟩

theorem parameters_yields :
    Yields tokens parameters fun ps _ =>
      ∀ p ∈ ps, TypeRead tokens p.type ∧ ExprsRead tokens (walkOption p.default) :=
  inParens_yields parameter_yields

@[grind →]
theorem reaches_of_skipConstraints {u : Unit} (h : Runs skipConstraints c u c') :
    c.Reaches c' := by
  simp [skipConstraints] at h
  grind

theorem exprsRead_flatMap {β : Type} {f : β → List Expr} {bs : List β}
    (h : ∀ b ∈ bs, ExprsRead tokens (f b)) : ExprsRead tokens (bs.flatMap f) := by
  intro e he
  obtain ⟨b, hb, he⟩ := List.mem_flatMap.1 he
  exact h b hb e he

/-! ## Members -/

theorem IdentRead.of_runs {i : Ident} (hin : Within tokens c) (h : Runs identifier c i c') :
    IdentRead tokens i := by
  obtain ⟨read, htokens, -⟩ := hin
  obtain ⟨-, doc, rest, hnext⟩ := runs_identifier.1 h
  exact ⟨read, doc, rest, by rw [htokens, hnext]⟩

theorem constructor_yields {l : Leading} (hl : AttributesRead tokens l.attributes) :
    Yields tokens (constructor_ l) fun d _ => MemberRead tokens (.constructor d) := by
  have hparams := @parameters_yields tokens
  have hargs := argumentList_yields (@expression_reads tokens) expression_readsToDepth false
  have hbody := @body_yields tokens
  unfold Yields at *
  intro c d c' hin h
  simp [constructor_] at h
  obtain ⟨i, c₁, hi, ps, c₂, hps, h⟩ := h
  have hreaches := reaches_of_identifier hi
  have hreaches := hreaches.trans (hparams (hin.reaches hreaches) hps).1
  have hmember {n : Node} {b : Body} (hb : ExprsRead tokens b.exprs) :
      MemberRead tokens (.constructor ⟨⟨n, l.doc, l.attributes, l.modifiers, i⟩, ps, b⟩) :=
    ⟨.of_runs hin hi, by simp [Member.declaredTypes], hl, hb⟩
  obtain ⟨-, b, c₃, hb, rfl, rfl⟩ | ⟨-, -, c₃, ⟨list, hlist⟩, b, c₄, hb, rfl, rfl⟩ := h
  · obtain ⟨hreaches', hb⟩ := hbody (hin.reaches hreaches) hb
    exact ⟨(hreaches.trans hreaches').trans c₃.reaches_renew, hmember hb⟩
  · have hreaches := hreaches.trans (c₂.reaches_advance.trans c₂.advance.reaches_advance)
    have hreaches := hreaches.trans (hargs (hin.reaches hreaches) hlist).1
    obtain ⟨hreaches', hb⟩ := hbody (hin.reaches hreaches) hb
    exact ⟨(hreaches.trans hreaches').trans c₄.reaches_renew, hmember hb⟩

section
variable {l : Leading} {t : TypeRef} {name : Ident}
  (hl : AttributesRead tokens l.attributes) (hname : IdentRead tokens name)
include hl hname

theorem method_yields (interface : Option TypeRef) :
    Yields tokens (method l t interface name) fun d _ =>
      TypeRead tokens t → MemberRead tokens (.method d) := by
  have hparams := @parameters_yields tokens
  have hbody := @body_yields tokens
  have htypeParams {c c' : Cursor} {is : List Ident} (h : Runs typeParameters c is c') :=
    (stopsAt_of_typeParameters h).1
  unfold Yields at *
  intro c d c' hin h
  simp [method] at h
  obtain ⟨is, c₁, his, ps, c₂, hps, u, c₃, hu, b, c₄, hb, rfl, rfl⟩ := h
  have hreaches₁ := htypeParams his
  obtain ⟨hreaches₂, hps⟩ := hparams (by grind) hps
  obtain ⟨hreaches₃, hb⟩ := hbody (by grind) hb
  refine ⟨by grind, fun ht => ⟨hname, ?_, hl, ?_⟩⟩
  · simp only [Member.declaredTypes, List.forall_mem_cons, List.forall_mem_map]
    exact ⟨ht, fun p hp => (hps p hp).1⟩
  · simp only [Member.exprs, exprsRead_append]
    exact ⟨exprsRead_flatMap fun p hp => (hps p hp).2, hb⟩

omit hl hname in
theorem stopsAt_of_method {interface : Option TypeRef} {d : MethodDecl}
    (h : Runs (method l t interface name) c d c') : StopsAt .done c := by
  simp [method, parameters, inParens] at h
  obtain ⟨is, c₁, his, hopen, -⟩ := h
  exact (stopsAt_of_typeParameters his).2 hopen

omit hl hname in
@[grind →]
theorem reaches_of_accessorKind {k : AccessorKind} (h : Runs accessorKind c k c') :
    c.Reaches c' := by
  simp [accessorKind] at h
  obtain ⟨-, ⟨-, ⟨-, rfl⟩, -⟩ | ⟨⟨-, rfl⟩, -⟩⟩ | ⟨⟨-, rfl⟩, -⟩ := h
  · exact c.reaches_advance
  · exact c.reaches_advance
  · exact c.reaches_advance

omit hl hname in
theorem accessor_yields : Yields tokens accessor fun a _ => ExprsRead tokens a.body.exprs := by
  have hleading := @leading_yields tokens
  have hbody := @body_yields tokens
  unfold Yields at *
  intro c a c' hin h
  simp [accessor] at h
  obtain ⟨l, c₁, hl, k, c₂, hk, b, c₃, hb, rfl, rfl⟩ := h
  have hreaches := (hleading hin hl).1.trans (reaches_of_accessorKind hk)
  obtain ⟨hreaches', hread⟩ := hbody (hin.reaches hreaches) hb
  exact ⟨(hreaches.trans hreaches').trans c₃.reaches_renew, hread⟩

theorem property_yields :
    Yields tokens (property l t name) fun d _ =>
      TypeRead tokens t → MemberRead tokens (.property d) := by
  have hexpr := @expression_yields tokens
  have hinit := @initializer_yields tokens
  have haccessors := untilMark_yields .closeBrace (@accessor_yields tokens)
  unfold Yields at *
  intro c d c' hin h
  simp [property] at h
  obtain ⟨-, -, as, c₁, has, e, c₂, he, h⟩ | ⟨-, e, c₁, he, hsemicolon, rfl, rfl⟩ := h
  · obtain ⟨hreaches₁, has⟩ := haccessors (hin.reaches c.reaches_advance) has
    obtain ⟨hreaches₂, he⟩ := hinit (by grind) he
    have hexprs : ExprsRead tokens
        (walkOption none ++ as.flatMap (·.body.exprs) ++ walkOption e) := by
      rw [exprsRead_append, exprsRead_append]
      exact ⟨⟨exprsRead_nil, exprsRead_flatMap has⟩, he⟩
    obtain ⟨-, -, rfl, rfl⟩ | ⟨-, rfl, rfl⟩ := h
    · exact ⟨by grind, fun ht => ⟨hname, by simpa [Member.declaredTypes], hl, hexprs⟩⟩
    · exact ⟨by grind, fun ht => ⟨hname, by simpa [Member.declaredTypes], hl, hexprs⟩⟩
  · obtain ⟨hreaches, he⟩ := hexpr (hin.reaches c.reaches_advance) he
    refine ⟨by grind, fun ht => ⟨hname, by simpa [Member.declaredTypes], hl, ?_⟩⟩
    simpa [Member.exprs, walkOption] using he

theorem field_yields :
    Yields tokens (field l t name) fun d _ => MemberRead tokens (.field d) := by
  have hinit := @initializer_yields tokens
  unfold Yields at *
  intro c d c' hin h
  simp [field] at h
  obtain ⟨e, c₁, he, hsemicolon, rfl, rfl⟩ := h
  obtain ⟨hreaches, he⟩ := hinit hin he
  exact ⟨by grind, hname, by simp [Member.declaredTypes], hl, he⟩

end

/-! ## Names in front of a member -/

theorem dottedIdents_reads {rounds : Nat} {is : List Ident} (hin : Within tokens c)
    (h : Runs (dottedIdents rounds) c is c') :
    c.Reaches c' ∧ (∀ i ∈ is, IdentRead tokens i) ∧
      ∃ i c₁, Runs identifier c i c₁ ∧ (StopsAt .done c' → StopsAt .done c₁) := by
  induction rounds generalizing c is with
  | zero => simp [dottedIdents] at h
  | succ rounds ih =>
    simp [dottedIdents, atDottedWord] at h
    obtain ⟨i, c₁, hi, ⟨⟨hdot, -⟩, is', hrest, rfl⟩ | ⟨-, rfl, rfl⟩⟩ := h
    · obtain ⟨hreaches, his', i', c₂, hi', hstops⟩ := ih (by grind) hrest
      refine ⟨by grind, ?_, i, c₁, hi, fun h => ?_⟩
      · exact List.forall_mem_cons.2 ⟨.of_runs hin hi, his'⟩
      · obtain ⟨hword, rfl⟩ := head_of_identifier hi'
        exact stopsAt_of_step hdot rfl (stopsAt_of_word hword (hstops h))
    · exact ⟨by grind, List.forall_mem_singleton.2 (.of_runs hin hi), i, c₁, hi, id⟩

theorem reaches_of_interfaceType {is : List Ident} {o : Option TypeRef}
    (h : Runs (interfaceType is) c o c') : c.Reaches c' ∧ c'.tokens = c.tokens := by
  cases is with
  | nil =>
    simp [interfaceType] at h
    grind
  | cons i is =>
    simp [interfaceType] at h
    grind

/-- What is known of a type declaration with all the types nested in it. -/
def NestedRead (tokens : List Token) (decl : TypeDecl) : Prop :=
  ∀ d ∈ decl.withNested, TypeDeclRead tokens d

/-- What is known of a member with all the types in it. -/
def MemberOrTypeRead (tokens : List Token) : Member → Prop
  | .type decl => NestedRead tokens decl
  | m => MemberRead tokens m

theorem typedMember_yields {l : Leading} (hl : AttributesRead tokens l.attributes) :
    Yields tokens (typedMember l) fun m _ => MemberOrTypeRead tokens m := by
  intro c m c' hin h
  simp [typedMember] at h
  obtain ⟨t, c₁, ht, is, c₂, his, h⟩ := h
  have hin₁ := hin.reaches (reaches_of_type ht)
  -- the type stands in front of the first of the names, the last of which names the member
  obtain ⟨hreaches, hread, i, c₃, hi, hstops⟩ := dottedIdents_reads hin₁ his
  split at h
  · rename_i name hlast
    have hname := hread name (List.mem_of_getLast? hlast)
    simp at h
    obtain ⟨o, c₄, ho, h⟩ := h
    obtain ⟨hreaches', htokens⟩ := reaches_of_interfaceType ho
    have hin₄ := (hin₁.reaches hreaches).reaches hreaches'
    have htype (h : StopsAt .done c₄) : TypeRead tokens t :=
      .of_runs hin ht hi (hstops (by rwa [StopsAt, ← htokens]))
    obtain ⟨hnext, d, hd, rfl⟩ | ⟨-, ⟨hnext, d, hd, rfl⟩ | ⟨-, d, hd, rfl⟩⟩ := h
    · obtain ⟨hreaches'', hmember⟩ := method_yields hl hname o hin₄ hd
      exact ⟨by grind, hmember (htype (stopsAt_of_method hd))⟩
    · obtain ⟨hreaches'', hmember⟩ := property_yields hl hname hin₄ hd
      refine ⟨by grind, hmember (htype ?_)⟩
      exact hnext.elim (stopsAt_of_punct · rfl) (stopsAt_of_punct · rfl)
    · obtain ⟨hreaches'', hmember⟩ := field_yields (t := t) hl hname hin₄ hd
      exact ⟨by grind, hmember⟩
  · simp at h

/-! ## Types -/

theorem forall_mem_nestedIn {P : TypeDecl → Prop} {ms : List Member}
    (h : ∀ decl, .type decl ∈ ms → ∀ d ∈ decl.withNested, P d) : ∀ d ∈ nestedIn ms, P d := by
  induction ms with
  | nil => exact List.forall_mem_nil _
  | cons m ms ih =>
    have ih := ih fun decl hdecl => h decl (.tail _ hdecl)
    cases m with
    | type decl => exact List.forall_mem_append.2 ⟨h decl (.head _), ih⟩
    | _ => exact ih

theorem memberRead_of_ownMember {decl : TypeDecl} {m : Member} (hm : m ∈ decl.ownMembers)
    (h : ∀ m ∈ decl.members, MemberOrTypeRead tokens m) : MemberRead tokens m := by
  obtain ⟨hmem, htype⟩ := List.mem_filter.1 hm
  have := h m hmem
  cases m with
  | type decl => simp [Member.isType] at htype
  | _ => exact this

theorem nestedRead_of_members {decl : TypeDecl} (hattributes : AttributesRead tokens decl.attributes)
    (h : ∀ m ∈ decl.members, MemberOrTypeRead tokens m) : NestedRead tokens decl := by
  obtain ⟨header, ms⟩ := decl
  rw [NestedRead, TypeDecl.withNested, List.forall_mem_cons]
  exact ⟨⟨hattributes, fun m hm => memberRead_of_ownMember hm h⟩,
    forall_mem_nestedIn fun decl hdecl => h _ hdecl⟩

@[grind →]
theorem reaches_of_typeKeyword {k : TypeDeclKind} (h : Runs typeKeyword c k c') :
    c.Reaches c' := by
  simp [typeKeyword] at h
  grind

/-- A type declaration has the attributes in front of it and the members that are read. -/
theorem typeDeclWith_yields {member : String → Parser Member} {Q : Member → Prop}
    (hmember : ∀ name, Yields tokens (member name) fun m _ => Q m) (l : Leading)
    (namespaceName : Option String) :
    Yields tokens (typeDeclWith member l namespaceName) fun decl _ =>
      decl.attributes = l.attributes ∧ ∀ m ∈ decl.members, Q m := by
  have hmembers name := untilMark_yields .closeBrace (hmember name)
  have hbases : Yields tokens (byComma (type .declaration)) fun ts c =>
      c.head = .punct .openBrace → ∀ t ∈ ts, True :=
    byComma_yields .openBrace fun c t c' _ h => ⟨reaches_of_type h, fun _ => trivial⟩
  unfold Yields at *
  -- from behind the bases on
  have hrest {c c₁ c₂ c₃ : Cursor} {u : Unit} {name : String} {ms : List Member}
      (hin : Within tokens c) (hu : Runs skipConstraints c u c₁)
      (hms : Runs (untilMark .closeBrace (member name)) c₁.advance ms c₂)
      (hend : ¬ c₂.head = .punct .semicolon ∧ c₂ = c₃ ∨
        c₂.head = .punct .semicolon ∧ c₂.advance = c₃) :
      c.Reaches c₃.renew ∧ ∀ m ∈ ms, Q m := by
    have hreaches := (reaches_of_skipConstraints hu).trans c₁.reaches_advance
    obtain ⟨hreaches', hread⟩ := hmembers name (hin.reaches hreaches) hms
    have hreaches := hreaches.trans hreaches'
    refine ⟨?_, hread⟩
    obtain ⟨-, rfl⟩ | ⟨-, rfl⟩ := hend
    · exact hreaches.trans c₂.reaches_renew
    · exact hreaches.trans (c₂.reaches_advance.trans c₂.advance.reaches_renew)
  intro c decl c' hin h
  simp [typeDeclWith] at h
  obtain ⟨k, c₁, hk, i, c₂, hi, is, c₃, his,
    ⟨-, u, c₄, hu, -, ms, c₅, hms, c₆, hend, rfl, rfl⟩ |
    ⟨-, ts, c₄, hts, u, c₅, hu, -, ms, c₆, hms, c₇, hend, rfl, rfl⟩⟩ := h
  · have hreaches := (reaches_of_typeKeyword hk).trans (reaches_of_identifier hi)
    have hreaches := hreaches.trans (stopsAt_of_typeParameters his).1
    obtain ⟨hreaches', hread⟩ := hrest (hin.reaches hreaches) hu hms hend
    exact ⟨hreaches.trans hreaches', rfl, hread⟩
  · have hreaches := (reaches_of_typeKeyword hk).trans (reaches_of_identifier hi)
    have hreaches := hreaches.trans (stopsAt_of_typeParameters his).1
    have hreaches := hreaches.trans c₃.reaches_advance
    have hreaches := hreaches.trans (hbases (hin.reaches hreaches) hts).1
    obtain ⟨hreaches', hread⟩ := hrest (hin.reaches hreaches) hu hms hend
    exact ⟨hreaches.trans hreaches', rfl, hread⟩

theorem memberWith_yields {typeDecl : Leading → Parser TypeDecl}
    (htype : ∀ l : Leading, AttributesRead tokens l.attributes →
      Yields tokens (typeDecl l) fun decl _ => NestedRead tokens decl) (typeName : String) :
    Yields tokens (memberWith typeDecl typeName) fun m _ => MemberOrTypeRead tokens m := by
  intro c m c' hin h
  simp [memberWith] at h
  obtain ⟨l, c₁, hl, h⟩ := h
  obtain ⟨hreaches, hl⟩ := leading_yields hin hl
  have hin₁ := hin.reaches hreaches
  obtain ⟨-, decl, hdecl, rfl⟩ | ⟨-, ⟨-, d, hd, rfl⟩ | ⟨-, hm⟩⟩ := h
  · obtain ⟨hreaches', hread⟩ := htype l hl hin₁ hdecl
    exact ⟨hreaches.trans hreaches', hread⟩
  · obtain ⟨hreaches', hread⟩ := constructor_yields hl hin₁ hd
    exact ⟨hreaches.trans hreaches', hread⟩
  · obtain ⟨hreaches', hread⟩ := typedMember_yields hl hin₁ hm
    exact ⟨hreaches.trans hreaches', hread⟩

theorem typeDeclToDepth_yields (namespaceName : Option String) (depth : Nat) {l : Leading}
    (hl : AttributesRead tokens l.attributes) :
    Yields tokens (typeDeclToDepth namespaceName depth l) fun decl _ => NestedRead tokens decl := by
  induction depth generalizing l with
  | zero =>
    intro c decl c' hin h
    simp [typeDeclToDepth] at h
  | succ depth ih =>
    refine (typeDeclWith_yields (memberWith_yields fun l hl => ih hl) l namespaceName).mono ?_
    rintro decl - ⟨hattributes, hmembers⟩
    exact nestedRead_of_members (by rwa [hattributes]) hmembers

/-! ## Files -/

@[grind →]
theorem reaches_of_dottedName {rounds : Nat} {name : String}
    (h : Runs (dottedName rounds) c name c') : c.Reaches c' := by
  induction rounds generalizing c name with
  | zero => simp [dottedName] at h
  | succ rounds ih =>
    simp [dottedName] at h
    grind

@[grind →]
theorem reaches_of_usingDirective {name : Option String}
    (h : Runs usingDirective c name c') : c.Reaches c' := by
  simp [usingDirective] at h
  grind

section
variable {P : TypeDecl → Prop}

theorem forall_mem_allTypes_append {u v : CompilationUnit} :
    (∀ d ∈ (u.append v).allTypes, P d) ↔ (∀ d ∈ u.allTypes, P d) ∧ ∀ d ∈ v.allTypes, P d := by
  simp only [CompilationUnit.allTypes, CompilationUnit.append, List.flatMap_append,
    List.forall_mem_append]

theorem forall_mem_allTypes_singleton {usings : List String} {as : List Attribute}
    {decl : TypeDecl} :
    (∀ d ∈ (CompilationUnit.mk usings as [decl]).allTypes, P d) ↔ ∀ d ∈ decl.withNested, P d := by
  simp only [CompilationUnit.allTypes, List.flatMap_singleton]

/-- What holds of every type that is read behind attributes and modifiers, and of all types nested
in it, holds of all types of a file. -/
theorem declarations_yields
    (hdecl : ∀ namespaceName depth l, AttributesRead tokens l.attributes →
      Yields tokens (typeDeclToDepth namespaceName depth l) fun decl _ => ∀ d ∈ decl.withNested, P d)
    (topLevel : Bool) (rounds : Nat) (namespaceName : Option String) :
    Yields tokens (declarations topLevel rounds namespaceName) fun u _ => ∀ d ∈ u.allTypes, P d := by
  induction rounds generalizing topLevel namespaceName with
  | zero =>
    intro c u c' hin h
    simp [declarations] at h
  | succ rounds ih =>
    have hattributes := @attributes_yields tokens
    have hleading := @leading_yields tokens
    unfold Yields at *
    intro c u c' hin h
    simp [declarations] at h
    -- the first part is empty unless it holds a type or a namespace in braces
    have hnone (usings : List String) (as : List Attribute) :
        ∀ d ∈ (CompilationUnit.mk usings as []).allTypes, P d := List.forall_mem_nil _
    obtain ⟨-, -, rfl, rfl⟩ | ⟨-, ⟨-, rfl, rfl⟩ | ⟨-, h⟩⟩ := h
    · exact ⟨.refl c, hnone _ _⟩
    · exact ⟨c.reaches_advance, hnone _ _⟩
    obtain ⟨-, ⟨-, h⟩ | ⟨-, name, c₁, hname, h⟩⟩ | ⟨-, name, c₁, hname, rest, hrest, rfl⟩ := h
    · obtain ⟨-, as, c₁, has, rest, hrest, rfl⟩ |
        ⟨-, l, c₁, hl, decl, c₂, hdecl', rest, hrest, rfl⟩ := h
      · have hreaches := (hattributes hin has).1
        obtain ⟨hreaches', hread⟩ := ih _ _ (hin.reaches hreaches) hrest
        exact ⟨hreaches.trans hreaches', forall_mem_allTypes_append.2 ⟨hnone _ _, hread⟩⟩
      · obtain ⟨hreaches, hl⟩ := hleading hin hl
        obtain ⟨hreaches', hread⟩ := hdecl namespaceName _ l hl (hin.reaches hreaches) hdecl'
        have hreaches := hreaches.trans hreaches'
        obtain ⟨hreaches', hread'⟩ := ih _ _ (hin.reaches hreaches) hrest
        refine ⟨hreaches.trans hreaches', forall_mem_allTypes_append.2 ⟨?_, hread'⟩⟩
        exact forall_mem_allTypes_singleton.2 hread
    · have hreaches := c.reaches_advance.trans (reaches_of_dottedName hname)
      have hreaches := hreaches.trans c₁.reaches_advance
      obtain ⟨-, -, inner, c₂, hinner, rest, hrest, rfl⟩ | ⟨-, hinner⟩ := h
      · obtain ⟨hreaches', hread⟩ := ih _ _ (hin.reaches hreaches) hinner
        have hreaches := hreaches.trans hreaches'
        obtain ⟨hreaches', hread'⟩ := ih _ _ (hin.reaches hreaches) hrest
        exact ⟨hreaches.trans hreaches', forall_mem_allTypes_append.2 ⟨hread, hread'⟩⟩
      · obtain ⟨hreaches', hread⟩ := ih _ _ (hin.reaches hreaches) hinner
        exact ⟨hreaches.trans hreaches', hread⟩
    · have hreaches := c.reaches_advance.trans (reaches_of_usingDirective hname)
      obtain ⟨hreaches', hread⟩ := ih _ _ (hin.reaches hreaches) hrest
      exact ⟨hreaches.trans hreaches', forall_mem_allTypes_append.2 ⟨hnone _ _, hread⟩⟩

theorem compilationUnit_yields
    (hdecl : ∀ namespaceName depth l, AttributesRead tokens l.attributes →
      Yields tokens (typeDeclToDepth namespaceName depth l) fun decl _ =>
        ∀ d ∈ decl.withNested, P d) :
    Yields tokens compilationUnit fun u _ => ∀ d ∈ u.allTypes, P d := by
  intro c u c' hin h
  simp only [compilationUnit, runs_bind, runs_bound] at h
  obtain ⟨n, c₁, ⟨rfl, rfl⟩, h⟩ := h
  exact declarations_yields hdecl true _ none hin h

end

/-- **What is read.**  Everything in a file has been read somewhere in its tokens. -/
theorem compilationUnit_reads {size : Nat} {u : CompilationUnit}
    (h : Runs compilationUnit ⟨tokens, 0, 0, size⟩ u c') :
    ∀ decl ∈ u.allTypes, TypeDeclRead tokens decl :=
  (compilationUnit_yields (fun namespaceName depth _ hl =>
    typeDeclToDepth_yields namespaceName depth hl) ⟨[], rfl, rfl⟩ h).2

end PropertyLint.Grammar
