/-
# Reading statements and declarations

Type constraints, `using` aliases, the arguments of a constructor's `base` or `this` call and the
targets of attributes are read and dropped.
-/
import PropertyLint.Syntax.Grammar.Exprs
import PropertyLint.Syntax.Decl

namespace PropertyLint.Grammar

/-! ## Statements -/

/-- Reads statements between braces. -/
def blockWith (statement : Parser Stmt) : Parser (Block Stmt) := do
  let start ← position
  expectMark .openBrace
  let statements ← untilMark .closeBrace statement
  return ⟨← rangeFrom start, statements⟩

/-- Reads an expression unless the statement ends. -/
def optionalExpression : Parser (Option Expr) := do
  if ← atMark .semicolon then return none else some <$> expression

/-- Reads the type of a local declaration: a type in front of a name that is initialized or ends the
statement. -/
def localType : Parser TypeRef := do
  unless isFreeWord (← peek) do failExpecting .type
  let t ← type .declaration
  let second ← peekSecond
  unless isFreeWord (← peek) && (second == .punct .assign || second == .punct .semicolon) do
    failExpecting .identifier
  return t

/-- Reads an expression behind an equals sign, if one is next. -/
def initializer : Parser (Option Expr) := do
  if ← takeMark .assign then some <$> expression else return none

/-- Reads a local declaration or an expression, with its semicolon. -/
def simpleStatement (start : Nat) : Parser Stmt := do
  match ← attempt localType with
  | some t =>
    let name ← identifier
    let init ← initializer
    expectMark .semicolon
    return .localDecl (← newNode start) t name init
  | none =>
    let value ← expression
    expectMark .semicolon
    return .expression (← newNode start) value

/-- Reads a statement; the statements inside of it are read by `statement`. -/
def statementWith (statement : Parser Stmt) : Parser Stmt := do
  let start ← position
  if ← atMark .openBrace then
    let body ← blockWith statement
    return .block (← newNode start) body
  else if ← takeMark .semicolon then return .empty (← newNode start)
  else if ← takeWord "return" then
    let value ← optionalExpression
    expectMark .semicolon
    return .returning (← newNode start) value
  else if ← takeWord "throw" then
    let value ← optionalExpression
    expectMark .semicolon
    return .throwing (← newNode start) value
  else if ← takeWord "if" then
    expectMark .openParen
    let condition ← expression
    expectMark .closeParen
    let yes ← statement
    let no ← if ← takeWord "else" then some <$> statement else pure none
    return .branch (← newNode start) condition yes no
  else simpleStatement start

/-- Reads a statement of at most the given depth. -/
def statementToDepth : Nat → Parser Stmt
  | 0 => failTooDeep
  | depth + 1 => statementWith (statementToDepth depth)

/-- Reads statements between braces. -/
def block : Parser (Block Stmt) := do blockWith (statementToDepth (← bound))

/-- Reads a body: braces, an arrow with its semicolon, or a semicolon alone. -/
def body : Parser Body := do
  if ← atMark .openBrace then
    return ⟨some (← block), none⟩
  else if ← takeMark .arrow then
    let value ← expression
    expectMark .semicolon
    return ⟨none, some value⟩
  else
    expectMark .semicolon
    return ⟨none, none⟩

/-! ## Attributes and modifiers -/

/-- Reads an attribute. -/
def attribute_ : Parser Attribute := do
  let start ← position
  let name ← type .expression
  let args ← if ← atMark .openParen then some <$> argumentList expression true else pure none
  return ⟨← newNode start, name, args⟩

/-- Reads attributes between brackets, behind their target if one is given. -/
def attributeSection : Parser (List Attribute) := do
  if isWord (← peek) && (← peekSecond) == .punct .colon then
    advance
    advance
  let attributes ← byComma attribute_
  expectMark .closeBracket
  return attributes

/-- Reads the attributes in front of a declaration, in at most the given number of rounds. -/
def attributeSections : Nat → Parser (List Attribute)
  | 0 => failTooDeep
  | rounds + 1 => do
    if ← takeMark .openBracket then
      let first ← attributeSection
      let rest ← attributeSections rounds
      return first ++ rest
    return []

/-- Reads the attributes in front of a declaration. -/
def attributes : Parser (List Attribute) := do attributeSections (← bound)

/-- Reads modifiers, in at most the given number of rounds. -/
def modifiersUpTo : Nat → Parser Modifiers
  | 0 => failTooDeep
  | rounds + 1 => do
    match ← peek with
    | .word w =>
      match Modifier.ofKeyword? w with
      | some m =>
        advance
        let rest ← modifiersUpTo rounds
        return m :: rest
      | none => return []
    | _ => return []

/-- What stands in front of every declaration. -/
structure Leading where
  doc : Option OffsetRange
  start : Nat
  attributes : List Attribute
  modifiers : Modifiers

/-- Reads the attributes and modifiers of a declaration. -/
def leading : Parser Leading := do
  let c ← get
  let attributes ← attributes
  let modifiers ← modifiersUpTo (← bound)
  return ⟨c.doc, c.position, attributes, modifiers⟩

/-- The header of the declaration that ends with the last token. -/
def Leading.close (l : Leading) (name : Ident) : Parser DeclHeader :=
  return ⟨← newNode l.start, l.doc, l.attributes, l.modifiers, name⟩

/-! ## Members -/

/-- Reads a parameter. -/
def parameter : Parser Parameter := do
  let start ← position
  let attributes ← attributes
  let receiver ← takeWord "this"
  skipTo (fun t => !(["ref", "out", "in", "params"].any fun w => t == .word w)) (← bound)
  let t ← type .declaration
  let name ← identifier
  let default ← initializer
  return ⟨← newNode start, attributes, receiver, t, name, default⟩

/-- Reads a parameter list with its parentheses. -/
def parameters : Parser (List Parameter) := inParens parameter

/-- Reads a type parameter, behind its variance if one is given. -/
def typeParameter : Parser Ident := do
  if ← atAnyWord ["in", "out"] then advance
  identifier

/-- Reads a type parameter list, if one is next. -/
def typeParameters : Parser (List Ident) := do
  if ← takeMark .less then
    let params ← byComma typeParameter
    expectMark .greater
    return params
  return []

/-- Passes over type constraints up to the body. -/
def skipConstraints : Parser Unit := do
  if ← atWord "where" then
    skipTo (fun t => t == .punct .openBrace || t == .punct .semicolon || t == .punct .arrow)
      (← bound)

/-- Reads a constructor. -/
def constructor_ (l : Leading) : Parser ConstructorDecl := do
  let name ← identifier
  let params ← parameters
  if ← takeMark .colon then
    if ← atAnyWord ["base", "this"] then advance else failExpecting .baseOrThis
    discard (argumentList expression false)
  let body ← body
  return ⟨← l.close name, params, body⟩

/-- Reads a method from behind its name. -/
def method (l : Leading) (returnType : TypeRef) (interface : Option TypeRef) (name : Ident) :
    Parser MethodDecl := do
  let typeParams ← typeParameters
  let params ← parameters
  skipConstraints
  let body ← body
  return ⟨← l.close name, returnType, interface, typeParams, params, body⟩

/-- Reads the word that an accessor starts with. -/
def accessorKind : Parser AccessorKind := do
  if ← takeWord "get" then return .get
  else if ← takeWord "set" then return .set
  else if ← takeWord "init" then return .init
  else failExpecting .accessor

/-- Reads an accessor. -/
def accessor : Parser Accessor := do
  let l ← leading
  let kind ← accessorKind
  let body ← body
  return ⟨← newNode l.start, kind, l.modifiers, body⟩

/-- Reads a property from behind its name. -/
def property (l : Leading) (t : TypeRef) (name : Ident) : Parser PropertyDecl := do
  if ← takeMark .arrow then
    let value ← expression
    expectMark .semicolon
    return ⟨← l.close name, t, [], some value, none⟩
  else
    expectMark .openBrace
    let accessors ← untilMark .closeBrace accessor
    let init ← initializer
    if init.isSome then expectMark .semicolon
    return ⟨← l.close name, t, accessors, none, init⟩

/-- Reads a field from behind its name. -/
def field (l : Leading) (t : TypeRef) (name : Ident) : Parser FieldDecl := do
  let init ← initializer
  expectMark .semicolon
  return ⟨← l.close name, t, init⟩

/-- Reads the identifiers of a dotted name, in at most the given number of rounds. -/
def dottedIdents : Nat → Parser (List Ident)
  | 0 => failTooDeep
  | rounds + 1 => do
    let first ← identifier
    if ← atDottedWord then
      advance
      let rest ← dottedIdents rounds
      return first :: rest
    return [first]

/-- The type that the identifiers in front of a member's name spell. -/
def interfaceType : List Ident → Parser (Option TypeRef)
  | [] => return none
  | first :: rest => do
    let idents := first :: rest
    let last := rest.getLast?.getD first
    let node : Node := ⟨← freshId, first.range.cover last.range⟩
    return some (.named node (idents.map fun ident => .mk ident []))

/-- Reads a method, a property or a field from its type on. -/
def typedMember (l : Leading) : Parser Member := do
  let t ← type .declaration
  let idents ← dottedIdents (← bound)
  match idents.getLast? with
  | some name =>
    let interface ← interfaceType idents.dropLast
    if (← atMark .openParen) || (← atMark .less) then
      return .method (← method l t interface name)
    else if (← atMark .openBrace) || (← atMark .arrow) then
      return .property (← property l t name)
    else return .field (← field l t name)
  | none => failExpecting .identifier

/-! ## Types and namespaces -/

/-- Reads the keyword of a type declaration. -/
def typeKeyword : Parser TypeDeclKind := do
  if ← takeWord "class" then return .class_
  else if ← takeWord "struct" then return .struct
  else if ← takeWord "interface" then return .interface
  else failExpecting .typeDeclaration

/-- Reads a type declaration whose members are read by `member`, given the name of the type. -/
def typeDeclWith (member : String → Parser Member) (l : Leading) (namespaceName : Option String) :
    Parser TypeDecl := do
  let kind ← typeKeyword
  let name ← identifier
  let typeParams ← typeParameters
  let bases ← if ← takeMark .colon then byComma (type .declaration) else pure []
  skipConstraints
  expectMark .openBrace
  let members ← untilMark .closeBrace (member name.text)
  discard (takeMark .semicolon)
  let header ← l.close name
  return .mk ⟨header, namespaceName, kind, typeParams, bases⟩ members

/-- Reads a member of the type `typeName`; nested types are read by `typeDecl`. -/
def memberWith (typeDecl : Leading → Parser TypeDecl) (typeName : String) : Parser Member := do
  let l ← leading
  if ← atAnyWord ["class", "struct", "interface"] then return .type (← typeDecl l)
  else if (← atWord typeName) && (← peekSecond) == .punct .openParen then
    return .constructor (← constructor_ l)
  else typedMember l

/-- Reads a type declaration that nests to at most the given depth. -/
def typeDeclToDepth (namespaceName : Option String) : Nat → Leading → Parser TypeDecl
  | 0, _ => failTooDeep
  | depth + 1, l =>
    typeDeclWith (memberWith (typeDeclToDepth namespaceName depth)) l namespaceName

/-- Reads a dotted name. -/
def dottedName : Nat → Parser String
  | 0 => failTooDeep
  | rounds + 1 => do
    let first ← identifier
    if ← takeMark .dot then
      let rest ← dottedName rounds
      return first.text ++ "." ++ rest
    return first.text

/-- Reads what follows `using`: the imported namespace; aliases and static imports give none. -/
def usingDirective : Parser (Option String) := do
  if (← atWord "static") || (← peekSecond) == .punct .assign then
    skipTo (fun t => t == .punct .semicolon) (← bound)
    expectMark .semicolon
    return none
  let name ← dottedName (← bound)
  expectMark .semicolon
  return some name

/-- Reads declarations up to the end of the text, or to the closing brace of a namespace, in at most
the given number of rounds.  A namespace without braces holds everything behind it. -/
def declarations (topLevel : Bool) : Nat → Option String → Parser CompilationUnit
  | 0, _ => failTooDeep
  | rounds + 1, namespaceName => do
    if (← peek) == .endOfText then
      if topLevel then return {} else failExpecting (.mark .closeBrace)
    else if !topLevel && (← atMark .closeBrace) then
      advance
      return {}
    else if ← takeWord "using" then
      let name ← usingDirective
      let rest ← declarations topLevel rounds namespaceName
      return CompilationUnit.append ⟨name.toList, [], []⟩ rest
    else if ← takeWord "namespace" then
      let name ← dottedName (← bound)
      let full := match namespaceName with
        | some outer => outer ++ "." ++ name
        | none => name
      if ← takeMark .semicolon then declarations topLevel rounds (some full)
      else
        expectMark .openBrace
        let inner ← declarations false rounds (some full)
        let rest ← declarations topLevel rounds namespaceName
        return inner.append rest
    else if (← atMark .openBracket) && (← peekSecond) == .word "assembly" then
      let attributes ← attributes
      let rest ← declarations topLevel rounds namespaceName
      return CompilationUnit.append ⟨[], attributes, []⟩ rest
    else
      let l ← leading
      let decl ← typeDeclToDepth namespaceName (← bound) l
      let rest ← declarations topLevel rounds namespaceName
      return CompilationUnit.append ⟨[], [], [decl]⟩ rest

/-- Reads a whole source file. -/
def compilationUnit : Parser CompilationUnit := do declarations true (← bound) none

end PropertyLint.Grammar
