/-
# Projects

A project is a list of source files, numbered from zero, that are bound together on top of the
framework.  The text of a file may hold markers; they are taken out before it is read.  A model
answers what is known about the nodes of one file: no answer means that the node is unresolved.
-/
import PropertyLint.Binding.Bodies
import PropertyLint.Framework
import PropertyLint.Syntax.Tree
import PropertyLint.Text.Marker

namespace PropertyLint

/-- A bound project. -/
structure Project where
  trees : List SyntaxTree
  /-- The offsets of the markers of each file. -/
  markers : List (List Nat)
  comp : Compilation
  facts : Facts

namespace Project

/-- The framework as a source of declarations. -/
def frameworkSource : Source := ⟨none, Framework.declarations⟩

/-- Binds syntax trees on top of the framework. -/
def bindTrees (trees : List SyntaxTree) : BindState :=
  let sources := trees.map fun t => Source.mk (some t.file) t.root
  ((bindSources (frameworkSource :: sources)).run {}).2

/-- The project of syntax trees without markers. -/
def ofTrees (trees : List SyntaxTree) (markers : List (List Nat)) : Project :=
  let bound := bindTrees trees
  ⟨trees, markers, bound.comp.withKnown, bound.facts⟩

/-- Reads and binds the files of a project; the first file that cannot be read decides. -/
def read (files : List String) : Except SyntaxError Project := do
  let stripped := files.map stripMarkers
  let trees ← stripped.zipIdx.mapM fun ((text, _), file) => SyntaxTree.parse file text
  return ofTrees trees (stripped.map Prod.snd)

end Project

/-- What is known about one file of a project. -/
structure Model where
  project : Project
  tree : SyntaxTree

namespace Project

/-- The model of a file. -/
def model? (p : Project) (file : FileId) : Option Model := (p.trees[file]?).map (Model.mk p)

end Project

/-- A declaration and the tree it stands in. -/
structure FoundDeclaration where
  tree : SyntaxTree
  member : Member

namespace Model

/-- The symbols of the project. -/
def comp (m : Model) : Compilation := m.project.comp

/-- A node of the model's file. -/
def nodeRef (m : Model) (node : NodeId) : NodeRef := ⟨some m.tree.file, node⟩

/-- The symbol that a declaration, a parameter or a local statement declares. -/
def declared? (m : Model) (node : NodeId) : Option SymbolId :=
  m.project.facts.declared? (m.nodeRef node)

/-- The symbol that an expression, a type or an attribute refers to.  Calls and creations refer to
the method or constructor they call, and so do attributes. -/
def symbol? (m : Model) (node : NodeId) : Option SymbolId :=
  m.project.facts.symbol? (m.nodeRef node)

/-- The type of an expression, or the class of an attribute. -/
def type? (m : Model) (node : NodeId) : Option SymbolId := m.project.facts.type? (m.nodeRef node)

/-- The constant that an expression is worth. -/
def constant? (m : Model) (node : NodeId) : Option Constant :=
  m.project.facts.constant? (m.nodeRef node)

/-- The first declaration of a symbol in source, in any file of the project. -/
def declaration? (m : Model) (id : SymbolId) : Option FoundDeclaration := do
  let place ← (m.comp.symbol? id).bind Symbol.declaration?
  let tree ← m.project.trees[place.file]?
  let member ← tree.findDeclaration? place.node
  return ⟨tree, member⟩

end Model

end PropertyLint
