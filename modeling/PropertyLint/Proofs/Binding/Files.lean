/-
# The files of a project

The trees of a project have been read from its files in their order (`Project.isRead_of_read`).  So
the file and the identity say which expression a node is (`Project.Writes.unique`), and an integer
literal is not greater than the greatest integer.
-/
import PropertyLint.Binding.Project
import PropertyLint.Proofs.Syntax.Identity

namespace PropertyLint

theorem exists_of_mapM_eq_ok {ε α β : Type} {f : α → Except ε β} {as : List α} {bs : List β}
    (h : as.mapM f = .ok bs) {i : Nat} {b : β} (hb : bs[i]? = some b) :
    ∃ a, as[i]? = some a ∧ f a = .ok b := by
  induction as generalizing bs i with
  | nil =>
    rw [List.mapM_nil] at h
    obtain rfl := Except.ok.inj h
    simp at hb
  | cons a as ih =>
    rw [List.mapM_cons] at h
    obtain ⟨b', hb', h⟩ := exists_of_bind_eq_ok h
    obtain ⟨bs', hbs', h⟩ := exists_of_bind_eq_ok h
    obtain rfl := Except.ok.inj h
    cases i with
    | zero =>
      obtain rfl := Option.some.inj hb
      exact ⟨a, rfl, hb'⟩
    | succ i => exact ih hbs' hb

theorem SyntaxTree.file_of_parse {file : FileId} {text : String} {t : SyntaxTree}
    (h : parse file text = .ok t) : t.file = file := by
  unfold parse at h
  obtain ⟨tokens, -, h⟩ := exists_of_bind_eq_ok h
  obtain ⟨root, -, h⟩ := exists_of_bind_eq_ok h
  obtain rfl := Except.ok.inj h
  rfl

/-- Integer literals are not greater than the greatest integer. -/
theorem SyntaxTree.integer_le_of_parse {file : FileId} {text : String} {t : SyntaxTree}
    {node : Node} {value : Nat} (h : parse file text = .ok t)
    (he : .expr (.literal node (.integer value)) ∈ t.root.nodes) : value ≤ maxInteger := by
  obtain ⟨p, hp, hnode⟩ := (mem_nodes_iff h).1 he
  cases p <;> simp [Part.syntaxNode?] at hnode
  obtain rfl := hnode
  obtain ⟨tokens, htokens, -⟩ := exists_of_bind_eq_ok h
  obtain ⟨token, htoken, hkind⟩ := (onTokens_of_parse h htokens hp).integerIn value rfl
  obtain ⟨read, rest, rfl⟩ := List.append_of_mem htoken
  obtain ⟨before, spelling, after, -, -, hspelled, -⟩ := exists_spelledBy htokens
  exact hspelled.integer_le hkind

namespace Project

variable {p : Project} {file : Option FileId} {e e' : Expr} {t : SyntaxTree}

/-- The files of a project have been read, each from its text without the markers. -/
theorem exists_parse {files : List String} {file : FileId} {model : Model}
    (hread : Project.read files = .ok p) (hmodel : p.model? file = some model) :
    ∃ text, SyntaxTree.parse file text = .ok model.tree := by
  unfold Project.read at hread
  obtain ⟨trees, htrees, hread⟩ := exists_of_bind_eq_ok hread
  obtain rfl := Except.ok.inj hread
  obtain ⟨t, ht, rfl⟩ := Option.map_eq_some_iff.1 hmodel
  obtain ⟨⟨⟨text, markers⟩, i⟩, hi, hparse⟩ := exists_of_mapM_eq_ok htrees ht
  rw [List.getElem?_zipIdx, Option.map_eq_some_iff] at hi
  obtain ⟨stripped, -, hi⟩ := hi
  obtain rfl : 0 + file = i := (Prod.mk.inj hi).2
  rw [Nat.zero_add] at hparse
  exact ⟨text, hparse⟩

/-- A project is bound from the trees that its files are read as. -/
theorem exists_ofTrees {files : List String} (h : Project.read files = .ok p) :
    ∃ trees markers, p = ofTrees trees markers := by
  unfold Project.read at h
  obtain ⟨trees, -, h⟩ := exists_of_bind_eq_ok h
  exact ⟨trees, _, (Except.ok.inj h).symm⟩

/-- A project of one file. -/
theorem read_singleton {text : String} {t : SyntaxTree}
    (h : SyntaxTree.parse 0 (stripMarkers text).1 = .ok t) :
    Project.read [text] = .ok (ofTrees [t] [(stripMarkers text).2]) := by
  rw [Project.read, List.map_singleton, List.zipIdx_singleton, List.mapM_cons, List.mapM_nil]
  generalize stripMarkers text = stripped at h ⊢
  obtain ⟨stripped, markers⟩ := stripped
  dsimp only at h ⊢
  rw [h]
  rfl

/-- Every tree has been read from a text, and its file is its place among the trees. -/
structure IsRead (p : Project) : Prop where
  parse : ∀ t ∈ p.trees, ∃ text, SyntaxTree.parse t.file text = .ok t
  file : ∀ {i : FileId} {t : SyntaxTree}, p.trees[i]? = some t → t.file = i

theorem isRead_of_read {files : List String} (h : Project.read files = .ok p) : p.IsRead := by
  have hparse {i : FileId} {t : SyntaxTree} (ht : p.trees[i]? = some t) :
      ∃ text, SyntaxTree.parse i text = .ok t := by
    have hmodel : p.model? i = some ⟨p, t⟩ := by rw [model?, ht, Option.map_some]
    exact exists_parse h hmodel
  refine ⟨fun t ht => ?_, fun ht => ?_⟩
  · obtain ⟨i, hi⟩ := List.mem_iff_getElem?.1 ht
    obtain ⟨text, htext⟩ := hparse hi
    exact ⟨text, by rwa [SyntaxTree.file_of_parse htext]⟩
  · obtain ⟨text, htext⟩ := hparse ht
    exact SyntaxTree.file_of_parse htext

/-- The expression is written in the file. -/
def Writes (p : Project) (file : Option FileId) (e : Expr) : Prop :=
  ∃ t ∈ p.trees, file = some t.file ∧ .expr e ∈ t.root.nodes

/-- The file tells the tree. -/
theorem IsRead.tree_unique (hp : p.IsRead) {t t' : SyntaxTree} (ht : t ∈ p.trees)
    (ht' : t' ∈ p.trees) (hfile : t.file = t'.file) : t = t' := by
  obtain ⟨i, hi⟩ := List.mem_iff_getElem?.1 ht
  obtain ⟨j, hj⟩ := List.mem_iff_getElem?.1 ht'
  obtain rfl : i = j := by rw [← hp.file hi, ← hp.file hj, hfile]
  exact Option.some.inj (hi.symm.trans hj)

theorem IsRead.nodup_trees (hp : p.IsRead) : p.trees.Nodup := by
  refine List.pairwise_iff_getElem.2 fun i j hi hj hlt heq => Nat.ne_of_lt hlt ?_
  rw [← hp.file (List.getElem?_eq_getElem hi), ← hp.file (List.getElem?_eq_getElem hj), heq]

/-- A tree stands at its file's place. -/
theorem IsRead.getElem?_file (hp : p.IsRead) (ht : t ∈ p.trees) : p.trees[t.file]? = some t := by
  obtain ⟨i, hi⟩ := List.mem_iff_getElem?.1 ht
  rwa [hp.file hi]

/-- What has the identity of an expression of the file is the expression. -/
theorem Writes.node_unique (h : p.Writes file e) (hp : p.IsRead) (ht : t ∈ p.trees)
    (hfile : file = some t.file) {n : SyntaxNode} (hn : n ∈ t.root.nodes) (hid : n.node.id = e.id) :
    n = .expr e := by
  obtain ⟨t', ht', rfl, he⟩ := h
  obtain rfl := hp.tree_unique ht' ht (Option.some.inj hfile)
  obtain ⟨text, htext⟩ := hp.parse t' ht
  exact SyntaxTree.eq_of_id_eq htext hn he hid

/-- The file and the identity tell the expression. -/
theorem Writes.unique (h : p.Writes file e) (hp : p.IsRead) (h' : p.Writes file e')
    (hid : e'.id = e.id) : e' = e := by
  obtain ⟨t, ht, hfile, he⟩ := h'
  exact SyntaxNode.expr.inj (h.node_unique hp ht hfile he hid)

/-- The parts of a written expression are written. -/
theorem Writes.part (h : p.Writes file e) (hp : p.IsRead) (he' : .expr e' ∈ e.parts) :
    p.Writes file e' := by
  obtain ⟨t, ht, hfile, he⟩ := h
  obtain ⟨text, htext⟩ := hp.parse t ht
  obtain ⟨q, hq, hnode⟩ := (SyntaxTree.mem_nodes_iff htext).1 he
  cases q <;> simp [Part.syntaxNode?] at hnode
  obtain rfl := hnode
  exact ⟨t, ht, hfile, (SyntaxTree.mem_nodes_iff htext).2 ⟨_, hq.part he', rfl⟩⟩

theorem Writes.integer_le {node : Node} {value : Nat}
    (h : p.Writes file (.literal node (.integer value))) (hp : p.IsRead) : value ≤ maxInteger := by
  obtain ⟨t, ht, -, he⟩ := h
  obtain ⟨text, htext⟩ := hp.parse t ht
  exact SyntaxTree.integer_le_of_parse htext he

end Project

end PropertyLint
