/-
# Where the parser of declarations fails

Statements, members, types and whole files fail only by refusing a token, too.  Every statement,
every accessor and every member reads a token, so the lists of them end; bodies stand behind a brace,
and the members of a type behind its keyword, so nesting is bounded by the tokens as well
(`refuses_of_compilationUnit`).
-/
import PropertyLint.Proofs.Syntax.Refusal
import PropertyLint.Proofs.Syntax.MemberReading

namespace PropertyLint.Grammar

variable {c c' : Cursor} {e : SyntaxError} {n : Nat}

/-! ## Statements -/

@[grind →]
theorem refuses_of_optionalExpression (h : Fails optionalExpression c e) : c.Refuses e := by
  simp [optionalExpression] at h
  grind

@[grind →]
theorem reaches_of_optionalExpression {o : Option Expr} (h : Runs optionalExpression c o c') :
    c.Reaches c' := by
  simp [optionalExpression] at h
  grind

@[grind →]
theorem refuses_of_localType (h : Fails localType c e) : c.Refuses e := by
  simp [localType] at h
  grind

@[grind →]
theorem refuses_of_initializer (h : Fails initializer c e) : c.Refuses e := by
  simp [initializer] at h
  grind

@[grind →]
theorem reaches_of_initializer {o : Option Expr} (h : Runs initializer c o c') : c.Reaches c' := by
  simp [initializer] at h
  grind

@[grind →]
theorem refuses_of_simpleStatement {start : Nat} (h : Fails (simpleStatement start) c e) :
    c.Refuses e := by
  simp [simpleStatement] at h
  obtain ⟨h, -⟩ | ⟨t, c₁, ⟨t, ht, rfl⟩ | ⟨hno, rfl⟩, h⟩ := h
  · exact refuses_of_localType h
  · simp at h
    grind
  · have := hno.reaches .localType
    simp at h
    grind

theorem simpleStatement_consumes (start : Nat) : Consumes (simpleStatement start) := by
  intro c s c' h
  simp [simpleStatement] at h
  obtain ⟨t, c₁, ⟨t, ht, rfl⟩ | ⟨hno, rfl⟩, h⟩ := h
  · simp at h
    grind
  · have := hno.reaches .localType
    simp at h
    grind

section
variable {statement : Parser Stmt}

theorem blockWith_ends (hends : EndsBelow n statement) (hconsumes : Consumes statement) :
    EndsBelow (n + 1) (blockWith statement) := by
  intro c e h hlength
  simp [blockWith] at h
  obtain ⟨-, rfl⟩ | ⟨hopen, h⟩ := h
  · exact c.refuses_refusal _
  · have hlt := Cursor.length_advance_of_punct hopen
    exact (untilMark_ends _ hends hconsumes h (by omega)).reached c.reaches_advance

theorem blockWith_consumes (hmoves : Moves statement) : Consumes (blockWith statement) := by
  have hitems := untilMark_moves .closeBrace hmoves
  unfold Moves Consumes at *
  intro c b c' h
  simp [blockWith] at h
  grind

/-- Inner statements stand behind a brace or behind a condition. -/
theorem statementWith_ends (hends : EndsBelow n statement) (hconsumes : Consumes statement) :
    EndsBelow (n + 1) (statementWith statement) := by
  have hblock := blockWith_ends hends hconsumes
  unfold EndsBelow Consumes at *
  intro c e h hlength
  simp [statementWith] at h
  -- a block, a simple statement, `if`, `throw`, `return`
  obtain ⟨-, h⟩ | ⟨-, -, ⟨-, ⟨-, ⟨-, h⟩ | ⟨hword, h⟩⟩ | ⟨hword, h⟩⟩ | ⟨hword, h⟩⟩ := h
  · exact hblock h hlength
  · exact refuses_of_simpleStatement h
  · grind
  · grind
  · grind

theorem statementWith_consumes (hmoves : Moves statement) : Consumes (statementWith statement) := by
  have hblock := blockWith_consumes hmoves
  have hsimple := simpleStatement_consumes
  unfold Moves Consumes at *
  intro c s c' h
  simp [statementWith] at h
  grind

end

theorem statementToDepth_consumes (depth : Nat) : Consumes (statementToDepth depth) := by
  induction depth with
  | zero =>
    intro c s c' h
    simp [statementToDepth] at h
  | succ depth ih => exact statementWith_consumes ih.moves

theorem statementToDepth_ends (depth : Nat) : EndsBelow depth (statementToDepth depth) := by
  induction depth with
  | zero =>
    intro c e _ hlength
    omega
  | succ depth ih => exact statementWith_ends ih (statementToDepth_consumes depth)

@[grind →]
theorem refuses_of_block (h : Fails block c e) : c.Refuses e := by
  simp [block] at h
  exact blockWith_ends (statementToDepth_ends _) (statementToDepth_consumes _) h (by omega)

theorem block_consumes : Consumes block := by
  intro c b c' h
  simp [block] at h
  exact blockWith_consumes (statementToDepth_consumes _).moves h

@[grind →]
theorem refuses_of_body (h : Fails body c e) : c.Refuses e := by
  simp [body] at h
  grind

theorem body_consumes : Consumes body := by
  have hblock := block_consumes
  unfold Consumes at *
  intro c b c' h
  simp [body] at h
  grind

/-! ## Attributes and modifiers -/

@[grind →]
theorem refuses_of_attribute (h : Fails attribute_ c e) : c.Refuses e := by
  simp [attribute_] at h
  grind

theorem attribute_moves : Moves attribute_ := .of_yields fun _ => attribute_yields

@[grind →]
theorem refuses_of_attributeSection (h : Fails attributeSection c e) : c.Refuses e := by
  have hends := byComma_ends (Ends.below (fun _ _ => refuses_of_attribute) (c.tokens.length + 1))
    attribute_moves
  have hmoves := byComma_moves attribute_moves
  unfold EndsBelow Moves at *
  simp [attributeSection] at h
  grind

@[grind →]
theorem reaches_of_attributeSection {as : List Attribute} (h : Runs attributeSection c as c') :
    c.Reaches c' :=
  Moves.of_yields (fun _ => attributeSection_yields) h

theorem attributeSections_ends {rounds : Nat} (h : Fails (attributeSections rounds) c e)
    (hrounds : c.tokens.length < rounds) : c.Refuses e := by
  induction rounds generalizing c with
  | zero => omega
  | succ rounds ih =>
    simp [attributeSections] at h
    grind

@[grind →]
theorem refuses_of_attributes (h : Fails attributes c e) : c.Refuses e := by
  simp [attributes] at h
  exact attributeSections_ends h (Nat.lt_succ_self _)

@[grind →]
theorem reaches_of_attributes {as : List Attribute} (h : Runs attributes c as c') : c.Reaches c' :=
  Moves.of_yields (fun _ => attributes_yields) h

/-- Attributes that are there have been read. -/
@[grind →]
theorem lt_of_attributes {as : List Attribute} (h : Runs attributes c as c')
    (hhead : c.head = .punct .openBracket) : c'.tokens.length < c.tokens.length := by
  have hsections {rounds : Nat} {as : List Attribute} {c c' : Cursor}
      (h : Runs (attributeSections rounds) c as c') : c.Reaches c' :=
    Moves.of_yields (fun _ => attributeSections_yields rounds) h
  simp [attributes, attributeSections, hhead] at h
  grind

@[grind →]
theorem refuses_of_modifiersUpTo {rounds : Nat} (h : Fails (modifiersUpTo rounds) c e)
    (hrounds : c.tokens.length < rounds) : c.Refuses e := by
  induction rounds generalizing c with
  | zero => omega
  | succ rounds ih =>
    simp [modifiersUpTo] at h
    split at h
    · split at h
      · simp at h
        grind
      · simp at h
    · simp at h

@[grind →]
theorem refuses_of_leading (h : Fails leading c e) : c.Refuses e := by
  simp [leading] at h
  grind

@[grind →]
theorem reaches_of_leading {l : Leading} (h : Runs leading c l c') : c.Reaches c' :=
  Moves.of_yields (fun _ => leading_yields) h

@[simp] theorem fails_close {l : Leading} {name : Ident} : Fails (l.close name) c e ↔ False := by
  simp [Leading.close]

/-! ## Members -/

theorem parameter_ends : Ends parameter := by
  intro c e h
  simp [parameter] at h
  grind

theorem parameter_moves : Moves parameter := by
  intro c p c' h
  simp [parameter] at h
  grind

@[grind →]
theorem refuses_of_parameters (h : Fails parameters c e) : c.Refuses e :=
  Ends.of_below (fun n => (inParens_ends (parameter_ends.below n) parameter_moves).mono
    (Nat.le_succ n)) h

theorem parameters_consumes : Consumes parameters := inParens_consumes parameter_moves

@[grind →]
theorem refuses_of_typeParameters (h : Fails typeParameters c e) : c.Refuses e := by
  have hends : Ends typeParameter := by
    intro c e h
    simp [typeParameter] at h
    grind
  have hmoves : Moves typeParameter := fun _ _ _ => reaches_of_typeParameter
  have hlist := byComma_ends (hends.below (c.tokens.length + 1)) hmoves
  have hlist' := byComma_moves hmoves
  unfold EndsBelow Moves at *
  simp [typeParameters] at h
  grind

@[grind →]
theorem reaches_of_typeParameters {is : List Ident} (h : Runs typeParameters c is c') :
    c.Reaches c' := (stopsAt_of_typeParameters h).1

@[grind →]
theorem refuses_of_skipConstraints (h : Fails skipConstraints c e) : c.Refuses e := by
  simp [skipConstraints] at h
  grind

section
variable {l : Leading}

@[grind →]
theorem refuses_of_constructor (h : Fails (constructor_ l) c e) : c.Refuses e := by
  have hparams := parameters_consumes
  unfold Consumes at *
  simp [constructor_] at h
  grind

theorem constructor_consumes (l : Leading) : Consumes (constructor_ l) := by
  have hparams := parameters_consumes
  have hbody := body_consumes
  unfold Consumes at *
  intro c d c' h
  simp [constructor_] at h
  grind

@[grind →]
theorem refuses_of_method {t : TypeRef} {interface : Option TypeRef} {name : Ident}
    (h : Fails (method l t interface name) c e) : c.Refuses e := by
  have hparams := parameters_consumes
  unfold Consumes at *
  simp [method] at h
  grind

theorem method_moves (l : Leading) (t : TypeRef) (interface : Option TypeRef) (name : Ident) :
    Moves (method l t interface name) := by
  have hparams := parameters_consumes
  have hbody := body_consumes
  unfold Consumes Moves at *
  intro c d c' h
  simp [method] at h
  grind

@[grind →]
theorem refuses_of_accessorKind (h : Fails accessorKind c e) : c.Refuses e := by
  simp [accessorKind] at h
  grind

theorem accessor_ends : Ends accessor := by
  intro c e h
  simp [accessor] at h
  grind

theorem accessor_consumes : Consumes accessor := by
  have hbody := body_consumes
  unfold Consumes at *
  intro c a c' h
  simp [accessor] at h
  grind

@[grind →]
theorem refuses_of_property {t : TypeRef} {name : Ident} (h : Fails (property l t name) c e) :
    c.Refuses e := by
  have hends := untilMark_ends .closeBrace (accessor_ends.below (c.tokens.length + 1))
    accessor_consumes
  have hmoves := untilMark_moves .closeBrace accessor_consumes.moves
  unfold EndsBelow Moves at *
  simp [property] at h
  grind

theorem property_moves (l : Leading) (t : TypeRef) (name : Ident) : Moves (property l t name) := by
  have hmoves := untilMark_moves .closeBrace accessor_consumes.moves
  unfold Moves at *
  intro c d c' h
  simp [property] at h
  grind

@[grind →]
theorem refuses_of_field {t : TypeRef} {name : Ident} (h : Fails (field l t name) c e) :
    c.Refuses e := by
  simp [field] at h
  grind

theorem field_moves (l : Leading) (t : TypeRef) (name : Ident) : Moves (field l t name) := by
  intro c d c' h
  simp [field] at h
  grind

@[grind →]
theorem refuses_of_dottedIdents {rounds : Nat} (h : Fails (dottedIdents rounds) c e)
    (hrounds : c.tokens.length < rounds) : c.Refuses e := by
  induction rounds generalizing c with
  | zero => omega
  | succ rounds ih =>
    simp [dottedIdents, atDottedWord] at h
    grind

@[grind →]
theorem reaches_of_dottedIdents {rounds : Nat} {is : List Ident}
    (h : Runs (dottedIdents rounds) c is c') : c.Reaches c' := by
  obtain ⟨tokens, hin⟩ := exists_within c
  exact (dottedIdents_reads hin h).1

@[simp] theorem fails_interfaceType {is : List Ident} : Fails (interfaceType is) c e ↔ False := by
  cases is <;> simp [interfaceType]

@[grind →]
theorem refuses_of_typedMember (h : Fails (typedMember l) c e) : c.Refuses e := by
  simp [typedMember] at h
  obtain h | ⟨t, c₁, ht, h | ⟨is, c₂, his, h⟩⟩ := h
  · exact refuses_of_type h
  · exact (refuses_of_dottedIdents h (Nat.lt_succ_self _)).reached (reaches_of_type ht)
  refine .reached ?_ ((reaches_of_type ht).trans (reaches_of_dottedIdents his))
  split at h
  · simp at h
    obtain ⟨o, c₃, ho, h⟩ := h
    refine .reached ?_ (reaches_of_interfaceType ho).1
    obtain ⟨-, h⟩ | ⟨-, ⟨-, h⟩ | ⟨-, h⟩⟩ := h
    · exact refuses_of_method h
    · exact refuses_of_property h
    · exact refuses_of_field h
  · simp at h
    grind

theorem typedMember_consumes (l : Leading) : Consumes (typedMember l) := by
  have hmethod := method_moves l
  have hproperty := property_moves l
  have hfield := field_moves l
  unfold Consumes Moves at *
  intro c m c' h
  simp [typedMember] at h
  obtain ⟨t, c₁, ht, is, c₂, his, h⟩ := h
  split at h
  · simp at h
    obtain ⟨o, c₃, ho, h⟩ := h
    have hreaches := (reaches_of_interfaceType ho).1
    grind
  · simp at h

end

/-! ## Types -/

@[grind →]
theorem refuses_of_typeKeyword (h : Fails typeKeyword c e) : c.Refuses e := by
  simp [typeKeyword] at h
  grind

@[grind →]
theorem lt_of_typeKeyword {k : TypeDeclKind} (h : Runs typeKeyword c k c') :
    c'.tokens.length < c.tokens.length := by
  simp [typeKeyword] at h
  grind

section
variable {member : String → Parser Member}

/-- Members stand behind the keyword of their type. -/
theorem typeDeclWith_ends (hends : ∀ name, EndsBelow n (member name))
    (hconsumes : ∀ name, Consumes (member name)) (l : Leading) (namespaceName : Option String) :
    EndsBelow (n + 1) (typeDeclWith member l namespaceName) := by
  have hmembers name := untilMark_ends .closeBrace (hends name) (hconsumes name)
  have hbases : Ends (byComma (type .declaration)) := .of_below fun n =>
    byComma_ends (Ends.below (fun _ _ => refuses_of_type) n) (type_moves .declaration)
  have hbases' := byComma_moves (type_moves .declaration)
  unfold EndsBelow Ends Moves at *
  intro c e h hlength
  simp [typeDeclWith] at h
  obtain h | ⟨kind, c₁, hkind, h⟩ := h
  · exact refuses_of_typeKeyword h
  have hlt := lt_of_typeKeyword hkind
  refine .reached ?_ (reaches_of_typeKeyword hkind)
  -- from behind the keyword on, the members have tokens enough
  grind

theorem typeDeclWith_consumes (hmoves : ∀ name, Moves (member name)) (l : Leading)
    (namespaceName : Option String) : Consumes (typeDeclWith member l namespaceName) := by
  have hmembers name := untilMark_moves .closeBrace (hmoves name)
  have hbases := byComma_moves (type_moves .declaration)
  unfold Moves Consumes at *
  intro c decl c' h
  simp [typeDeclWith] at h
  grind

end

section
variable {typeDecl : Leading → Parser TypeDecl}

theorem memberWith_ends (hends : ∀ l, EndsBelow n (typeDecl l)) (typeName : String) :
    EndsBelow n (memberWith typeDecl typeName) := by
  intro c e h hlength
  simp [memberWith] at h
  obtain h | ⟨l, c₁, hl, h⟩ := h
  · exact refuses_of_leading h
  have hreaches := reaches_of_leading hl
  have hle := hreaches.length_le
  refine .reached ?_ hreaches
  obtain ⟨-, h⟩ | ⟨-, ⟨-, h⟩ | ⟨-, h⟩⟩ := h
  · exact hends l h (by omega)
  · exact refuses_of_constructor h
  · exact refuses_of_typedMember h

theorem memberWith_consumes (hconsumes : ∀ l, Consumes (typeDecl l)) (typeName : String) :
    Consumes (memberWith typeDecl typeName) := by
  have hconstructor := constructor_consumes
  have hmember := typedMember_consumes
  unfold Consumes at *
  intro c m c' h
  simp [memberWith] at h
  grind

end

theorem typeDeclToDepth_consumes (namespaceName : Option String) (depth : Nat) (l : Leading) :
    Consumes (typeDeclToDepth namespaceName depth l) := by
  induction depth generalizing l with
  | zero =>
    intro c decl c' h
    simp [typeDeclToDepth] at h
  | succ depth ih =>
    exact typeDeclWith_consumes (fun name => (memberWith_consumes ih name).moves) l namespaceName

theorem typeDeclToDepth_ends (namespaceName : Option String) (depth : Nat) (l : Leading) :
    EndsBelow depth (typeDeclToDepth namespaceName depth l) := by
  induction depth generalizing l with
  | zero =>
    intro c e _ hlength
    omega
  | succ depth ih =>
    exact typeDeclWith_ends (fun name => memberWith_ends ih name)
      (fun name => memberWith_consumes (typeDeclToDepth_consumes namespaceName depth) name) l
      namespaceName

/-! ## Files -/

@[grind →]
theorem refuses_of_dottedName {rounds : Nat} (h : Fails (dottedName rounds) c e)
    (hrounds : c.tokens.length < rounds) : c.Refuses e := by
  induction rounds generalizing c with
  | zero => omega
  | succ rounds ih =>
    simp [dottedName] at h
    grind

@[grind →]
theorem refuses_of_usingDirective (h : Fails usingDirective c e) : c.Refuses e := by
  simp [usingDirective] at h
  grind

theorem declarations_moves (topLevel : Bool) (rounds : Nat) (namespaceName : Option String) :
    Moves (declarations topLevel rounds namespaceName) :=
  .of_yields fun tokens => declarations_yields (P := TypeDeclRead tokens)
    (fun namespaceName depth _ hl => typeDeclToDepth_yields namespaceName depth hl)
    topLevel rounds namespaceName

/-- Every round reads a keyword, a bracket or a type. -/
theorem declarations_ends {topLevel : Bool} {rounds : Nat} {namespaceName : Option String}
    (h : Fails (declarations topLevel rounds namespaceName) c e)
    (hrounds : c.tokens.length < rounds) : c.Refuses e := by
  have hmoves := declarations_moves
  have hdecl := typeDeclToDepth_ends
  have hdecl' := typeDeclToDepth_consumes
  unfold Moves EndsBelow Consumes at *
  induction rounds generalizing c topLevel namespaceName with
  | zero => omega
  | succ rounds ih =>
    simp [declarations] at h
    -- the end of the text, attributes of the file, a type, a namespace, a `using`
    obtain ⟨-, -, rfl⟩ | ⟨-, -, ⟨-, ⟨-, ⟨⟨hbracket, -⟩, h⟩ | ⟨-, h⟩⟩ | ⟨hword, h⟩⟩ | ⟨hword, h⟩⟩ := h
    · exact c.refuses_refusal _
    · grind
    · grind
    · grind
    · grind

/-- Outside of all braces the reading of declarations stops only where the text ends. -/
theorem head_of_declarations {rounds : Nat} {namespaceName : Option String} {u : CompilationUnit}
    (h : Runs (declarations true rounds namespaceName) c u c') : c'.head = .endOfText := by
  induction rounds generalizing c namespaceName u with
  | zero => simp [declarations] at h
  | succ rounds ih =>
    simp [declarations] at h
    grind

/-- **No bound is used up.**  A file that is not read holds a token that is not looked for. -/
theorem refuses_of_compilationUnit (h : Fails compilationUnit c e) : c.Refuses e := by
  simp [compilationUnit] at h
  exact declarations_ends h (Nat.lt_succ_self _)

/-- A file that is read is read to its end. -/
theorem head_of_compilationUnit {u : CompilationUnit} (h : Runs compilationUnit c u c') :
    c'.head = .endOfText := by
  simp [compilationUnit] at h
  exact head_of_declarations h

theorem compilationUnit_moves : Moves compilationUnit := by
  intro c u c' h
  simp [compilationUnit] at h
  exact declarations_moves _ _ _ h

end PropertyLint.Grammar
