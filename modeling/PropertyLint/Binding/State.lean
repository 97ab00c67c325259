/-
# The state of binding

Binding finds out which symbol a declaration declares, which symbol an expression, a type or an
attribute refers to, what type an expression has and what constant it is worth.  A node about which
nothing is recorded is unresolved.  The newest record about a node counts.

Binding walks over the declarations in a scope that says which file and which type they are in.  It
adds symbols to the compilation, records facts about nodes and keeps the locals that are in scope.
-/
import PropertyLint.Symbol.Relation

namespace PropertyLint

/-! ## What is known about nodes -/

/-- A node of one of the files; the framework's declarations are no file. -/
structure NodeRef where
  file : Option FileId
  node : NodeId
deriving DecidableEq, Repr

/-- What binding has found out, newest records first. -/
structure Facts where
  declared : List (NodeRef × SymbolId) := []
  symbols : List (NodeRef × SymbolId) := []
  types : List (NodeRef × SymbolId) := []
  constants : List (NodeRef × Constant) := []
deriving Repr

namespace Facts

/-- The symbol that a declaration, a parameter or a local statement declares. -/
def declared? (f : Facts) (n : NodeRef) : Option SymbolId := f.declared.lookup n

/-- The symbol that an expression, a type or an attribute refers to. -/
def symbol? (f : Facts) (n : NodeRef) : Option SymbolId := f.symbols.lookup n

/-- The type of an expression, or the class of an attribute. -/
def type? (f : Facts) (n : NodeRef) : Option SymbolId := f.types.lookup n

/-- The constant that an expression is worth. -/
def constant? (f : Facts) (n : NodeRef) : Option Constant := f.constants.lookup n

/-- Records a declared symbol. -/
def addDeclared (f : Facts) (n : NodeRef) (s : SymbolId) : Facts :=
  { f with declared := (n, s) :: f.declared }

/-- Records a symbol. -/
def addSymbol (f : Facts) (n : NodeRef) (s : SymbolId) : Facts :=
  { f with symbols := (n, s) :: f.symbols }

/-- Records a type. -/
def addType (f : Facts) (n : NodeRef) (s : SymbolId) : Facts :=
  { f with types := (n, s) :: f.types }

/-- Records a constant. -/
def addConstant (f : Facts) (n : NodeRef) (v : Constant) : Facts :=
  { f with constants := (n, v) :: f.constants }

end Facts

/-! ## States -/

/-- Where a name is looked up. -/
structure Scope where
  /-- The file; none for the framework. -/
  file : Option FileId
  /-- The namespaces of the file's `using` directives. -/
  usings : List String
  /-- The enclosing type; none for the attributes of the assembly. -/
  type : Option SymbolId
  /-- The type parameters of the enclosing method. -/
  methodTypeParams : List SymbolId := []

/-- What binding has made so far. -/
structure BindState where
  comp : Compilation := {}
  facts : Facts := {}
  /-- The values of the constant fields that have been evaluated. -/
  fieldConstants : List (SymbolId × Constant) := []
  /-- The type parameters of the methods of source files. -/
  methodTypeParams : List (NodeRef × List SymbolId) := []
  /-- The locals in scope, innermost first. -/
  locals : List (String × SymbolId) := []

/-- A step of binding. -/
abbrev Binder := StateM BindState

namespace Binder

/-- The compilation so far. -/
def comp : Binder Compilation := return (← get).comp

/-- Changes the compilation. -/
def change {α : Type} (f : Compilation → α × Compilation) : Binder α :=
  modifyGet fun s =>
    let (result, comp) := f s.comp
    (result, { s with comp })

/-- The compilation so far, with the table of known symbols kept for queries. -/
def compWithKnown : Binder Compilation :=
  change fun c =>
    let c := c.withKnown
    (c, c)

/-- Adds a symbol. -/
def add (s : Symbol) : Binder SymbolId := change fun c => c.add s

/-- Adds a symbol to the members of a type. -/
def addMember (owner : SymbolId) (s : Symbol) : Binder SymbolId := do
  let id ← add s
  change fun c => ((), c.modifyType owner fun t => { t with members := t.members ++ [id] })
  return id

/-- The type registered under a full name. -/
def typeNamed? (name : String) : Binder (Option SymbolId) := return (← comp).typeNamed? name

/-- The framework type of a keyword. -/
def keywordType? (k : KeywordType) : Binder (Option SymbolId) := typeNamed? k.metadataName

/-- The framework type of a known type. -/
def knownType? (k : KnownType) : Binder (Option SymbolId) := typeNamed? k.metadataName

/-- Changes the facts. -/
def changeFacts (f : Facts → Facts) : Binder Unit := modify fun s => { s with facts := f s.facts }

/-- Records the symbol that a node declares. -/
def declare (scope : Scope) (node : NodeId) (s : SymbolId) : Binder Unit :=
  changeFacts fun f => f.addDeclared ⟨scope.file, node⟩ s

/-- Records the symbol that a node refers to. -/
def recordSymbol (scope : Scope) (node : NodeId) (s : SymbolId) : Binder Unit :=
  changeFacts fun f => f.addSymbol ⟨scope.file, node⟩ s

/-- Records the type of a node. -/
def recordType (scope : Scope) (node : NodeId) (s : SymbolId) : Binder Unit :=
  changeFacts fun f => f.addType ⟨scope.file, node⟩ s

/-- Records the constant that a node is worth. -/
def recordConstant (scope : Scope) (node : NodeId) (v : Constant) : Binder Unit :=
  changeFacts fun f => f.addConstant ⟨scope.file, node⟩ v

/-- The constant that a node is worth. -/
def constant? (scope : Scope) (node : NodeId) : Binder (Option Constant) :=
  return (← get).facts.constant? ⟨scope.file, node⟩

/-- Gives a node the constant of another node, if that has one. -/
def copyConstant (scope : Scope) (source target : NodeId) : Binder Unit := do
  if let some v ← constant? scope source then recordConstant scope target v

/-- Puts a local in scope. -/
def addLocal (name : String) (s : SymbolId) : Binder Unit :=
  modify fun st => { st with locals := (name, s) :: st.locals }

/-- Runs a step and takes the locals that it adds out of scope. -/
def withLocals {α : Type} (step : Binder α) : Binder α := do
  let before := (← get).locals
  let result ← step
  modify fun s => { s with locals := before }
  return result

/-- Runs a step that sees only the given locals, and takes them out of scope. -/
def inFreshScope {α : Type} (locals : List (String × SymbolId)) (step : Binder α) : Binder α :=
  withLocals do
    modify fun s => { s with locals }
    step

end Binder

/-- The place of a node in a source file; the framework has no places. -/
def Scope.sourceRef (scope : Scope) (node : Node) : Option SourceRef :=
  scope.file.map fun file => ⟨file, node.id, node.range⟩

/-- The types around the place of a scope, innermost first. -/
def Scope.enclosingTypes (scope : Scope) (c : Compilation) : List SymbolId :=
  match scope.type with
  | some t => c.selfAndContainingTypes t
  | none => []

end PropertyLint
