/-
# Identities of nodes

The nodes of a file are the parts of it that have an identity (`SyntaxTree.mem_nodes_iff`), and no
two of them have the same one.  A look-up by identity goes through all declarations of the file, so
it finds a declaration by its own identity and nothing by the identity of another node
(`SyntaxTree.identities_distinct`).
-/
import Mathlib.Data.List.Nodup
import PropertyLint.Proofs.Syntax.Apart

namespace PropertyLint

/-! ## Nodes and parts -/

namespace Part

variable {cs : List Char} {p q : Part} {n : SyntaxNode}

theorem mem_nodes_of_syntaxNode? (h : p.syntaxNode? = some n) : n ∈ p.nodes := by
  rw [p.nodes_perm.mem_iff, h]
  exact .head _

theorem Has.nodes_subset (h : p.Has q) : q.nodes ⊆ p.nodes := by
  induction h with
  | refl => exact List.Subset.refl _
  | @part q r _ hr ih =>
    refine List.Subset.trans (fun n hn => ?_) ih
    rw [q.nodes_perm.mem_iff]
    exact List.mem_append_right _ (List.mem_flatMap.2 ⟨r, hr, hn⟩)

/-- The nodes in a part are the nodes among everything that stands in it. -/
theorem WellNested.mem_nodes_iff (h : p.WellNested cs) :
    n ∈ p.nodes ↔ ∃ q, p.Has q ∧ q.syntaxNode? = some n := by
  refine ⟨fun hn => ?_, fun ⟨q, hq, hn⟩ => hq.nodes_subset (mem_nodes_of_syntaxNode? hn)⟩
  induction h with
  | @mk p _ _ ih =>
    rw [p.nodes_perm.mem_iff, List.mem_append, Option.mem_toList, List.mem_flatMap] at hn
    rcases hn with hn | ⟨q, hq, hn⟩
    · exact ⟨p, .refl, hn⟩
    · obtain ⟨r, hr, hn⟩ := ih q hq hn
      exact ⟨r, (Has.of_mem hq).trans hr, hn⟩

/-- Members are parts of types. -/
theorem exists_type_of_member_mem {m : Member} (h : .member m ∈ p.parts) :
    ∃ d, p = .member (.type d) ∧ m ∈ d.members := by
  cases p with
  | member m' =>
    cases m' with
    | type d =>
      refine ⟨d, rfl, ?_⟩
      simpa [parts, Member.parts] using h
    | _ => simp [parts, Member.parts, Body.parts] at h
  | type t => cases t <;> simp [parts, TypeRef.parts, NameSegment.parts] at h
  | argument a => simp [parts, Argument.parts] at h
  | expr e => cases e <;> simp [parts, Expr.parts] at h
  | stmt s => cases s <;> simp [parts, Stmt.parts] at h
  | attr a => simp [parts, Attribute.parts] at h
  | parameter p => simp [parts, Parameter.parts] at h
  | accessor a => simp [parts, Body.parts] at h
  | _ => simp [parts] at h

theorem exists_member_of_has {m : Member} (h : p.Has (.member m)) : ∃ m', p = .member m' := by
  generalize hq : Part.member m = q at h
  induction h generalizing m with
  | refl => exact ⟨m, hq.symm⟩
  | part _ hr ih =>
    subst hq
    obtain ⟨d, hd, -⟩ := exists_type_of_member_mem hr
    exact ih hd.symm

end Part

/-! ## Declarations -/

namespace TypeDecl

variable {cs : List Char} {d e f : TypeDecl} {m : Member}

/-- The type and its own members. -/
def declarations (d : TypeDecl) : List Member := .type d :: d.ownMembers

theorem mem_nestedTypes : e ∈ d.nestedTypes ↔ .type e ∈ d.members := by
  unfold nestedTypes
  rw [List.mem_filterMap]
  constructor
  · rintro ⟨m, hm, he⟩
    cases m <;> simp at he
    rwa [← he]
  · exact fun he => ⟨_, he, rfl⟩

theorem type_mem_declarations (h : .type e ∈ d.declarations) : e = d := by
  rcases List.mem_cons.1 h with h | h
  · exact Member.type.inj h
  · exact absurd rfl (ne_of_mem_ownParts (member_mem_ownParts h))

/-- A type in a type in a type. -/
theorem mem_withNested_of_mem_nestedTypes (hd : (Part.member (.type d)).WellNested cs)
    (he : e ∈ d.withNested) (hf : f ∈ e.nestedTypes) : f ∈ d.withNested := by
  generalize hroot : Part.member (.type d) = root at hd
  induction hd generalizing d with
  | mk _ _ ih =>
    subst hroot
    rw [withNested_eq, List.mem_cons, List.mem_flatMap] at he ⊢
    rcases he with rfl | ⟨d', hd', he⟩
    · refine .inr ⟨f, hf, ?_⟩
      rw [withNested_eq]
      exact .head _
    · exact .inr ⟨d', hd', ih _ (type_mem_parts hd') he rfl⟩

/-- The members that stand in a type are the declarations of it and of the types in it. -/
theorem has_member_iff (hd : (Part.member (.type d)).WellNested cs) :
    (Part.member (.type d)).Has (.member m) ↔ m ∈ d.withNested.flatMap declarations := by
  constructor
  · intro h
    generalize hm : Part.member m = p at h
    induction h generalizing m with
    | refl =>
      obtain rfl := Part.member.inj hm
      exact List.mem_flatMap.2 ⟨d, by rw [withNested_eq]; exact .head _, .head _⟩
    | @part q r _ hr ih =>
      subst hm
      obtain ⟨e, rfl, hm⟩ := Part.exists_type_of_member_mem hr
      obtain ⟨e', he', hmem⟩ := List.mem_flatMap.1 (ih rfl)
      obtain rfl := type_mem_declarations hmem
      cases m with
      | type f =>
        exact List.mem_flatMap.2
          ⟨f, mem_withNested_of_mem_nestedTypes hd he' (mem_nestedTypes.2 hm), .head _⟩
      | _ => exact List.mem_flatMap.2 ⟨e, he', .tail _ (List.mem_filter.2 ⟨hm, rfl⟩)⟩
  · intro h
    obtain ⟨e, he, hm⟩ := List.mem_flatMap.1 h
    have he := has_of_mem_withNested hd he
    rcases List.mem_cons.1 hm with rfl | hm
    · exact he
    · exact he.trans (has_of_mem_ownParts (member_mem_ownParts hm))

end TypeDecl

namespace SyntaxTree

variable {file : FileId} {text : String} {t : SyntaxTree} {m : Member} {n : SyntaxNode}

/-- All types of a file with their own members. -/
def declarations (t : SyntaxTree) : List Member := t.types.flatMap TypeDecl.declarations

theorem findDeclaration?_eq (t : SyntaxTree) (id : NodeId) :
    t.findDeclaration? id = t.declarations.find? fun m => m.id == id := by
  unfold findDeclaration? declarations
  rw [List.find?_flatMap]
  congr 1
  funext d
  have hself : ((Member.type d).id == id) = decide (d.id = id) := rfl
  rw [declarationIn?, TypeDecl.declarations, List.find?_cons, hself]
  by_cases h : d.id = id <;> simp [h]

theorem Holds.has {p q : Part} (h : t.Holds p) (hq : p.Has q) : t.Holds q := by
  induction hq with
  | refl => exact h
  | part _ hr ih => exact ih.part hr

/-- Everything in the tree stands in an attribute or in a type of the file. -/
theorem holds_iff {p : Part} : t.Holds p ↔ ∃ q ∈ t.root.parts, q.Has p := by
  constructor
  · intro h
    induction h with
    | attr ha => exact ⟨_, List.mem_append_left _ (List.mem_map_of_mem ha), .refl⟩
    | type hd => exact ⟨_, List.mem_append_right _ (List.mem_map.2 ⟨_, hd, rfl⟩), .refl⟩
    | part _ hq ih =>
      obtain ⟨r, hr, hhas⟩ := ih
      exact ⟨r, hr, hhas.part hq⟩
  · rintro ⟨q, hq, hhas⟩
    have hq : t.Holds q := by
      rcases List.mem_append.1 hq with hq | hq
      · obtain ⟨a, ha, rfl⟩ := List.mem_map.1 hq
        exact .attr ha
      · obtain ⟨d, hd, rfl⟩ := List.mem_map.1 hq
        exact .type hd
    exact hq.has hhas

section
variable (h : parse file text = .ok t)
include h

theorem wellNested_of_mem_parts {p : Part} (hp : p ∈ t.root.parts) :
    p.WellNested text.toList := (holds_iff.2 ⟨p, hp, .refl⟩).wellNested h

/-- The nodes of a file are all parts of it that have an identity. -/
theorem mem_nodes_iff : n ∈ t.root.nodes ↔ ∃ p, t.Holds p ∧ p.syntaxNode? = some n := by
  rw [CompilationUnit.nodes_eq, List.mem_flatMap]
  constructor
  · rintro ⟨p, hp, hn⟩
    obtain ⟨q, hq, hn⟩ := (wellNested_of_mem_parts h hp).mem_nodes_iff.1 hn
    exact ⟨q, holds_iff.2 ⟨p, hp, hq⟩, hn⟩
  · rintro ⟨q, hq, hn⟩
    obtain ⟨p, hp, hq⟩ := holds_iff.1 hq
    exact ⟨p, hp, hq.nodes_subset (Part.mem_nodes_of_syntaxNode? hn)⟩

/-- The declarations of a file are all members in it. -/
theorem mem_declarations_iff : m ∈ t.declarations ↔ t.Holds (.member m) := by
  unfold declarations types CompilationUnit.allTypes
  rw [List.flatMap_assoc, List.mem_flatMap, holds_iff]
  constructor
  · rintro ⟨d, hd, hm⟩
    have hd : Part.member (.type d) ∈ t.root.parts :=
      List.mem_append_right _ (List.mem_map.2 ⟨d, hd, rfl⟩)
    exact ⟨_, hd, (TypeDecl.has_member_iff (wellNested_of_mem_parts h hd)).2 hm⟩
  · rintro ⟨p, hp, hm⟩
    have hnested := wellNested_of_mem_parts h hp
    rcases List.mem_append.1 hp with hp | hp
    · obtain ⟨a, -, rfl⟩ := List.mem_map.1 hp
      obtain ⟨m', hm'⟩ := Part.exists_member_of_has hm
      cases hm'
    · obtain ⟨d, hd, rfl⟩ := List.mem_map.1 hp
      exact ⟨d, hd, (TypeDecl.has_member_iff hnested).1 hm⟩

theorem member_mem_nodes_iff : .member m ∈ t.root.nodes ↔ m ∈ t.declarations := by
  rw [mem_nodes_iff h, mem_declarations_iff h]
  constructor
  · rintro ⟨p, hp, hn⟩
    cases p <;> simp [Part.syntaxNode?] at hn
    rwa [← hn]
  · exact fun hm => ⟨_, hm, rfl⟩

/-- Nodes with the same identity are the same. -/
theorem eq_of_id_eq {n n' : SyntaxNode} (hn : n ∈ t.root.nodes) (hn' : n' ∈ t.root.nodes)
    (hid : n.node.id = n'.node.id) : n = n' := by
  obtain ⟨next, hnumbered⟩ := numbered_of_parse h
  exact List.inj_on_of_nodup_map hnumbered.nodup hn hn' hid

/-- **Identity.**  The nodes of a file are all parts of it but its identifiers, argument lists and
blocks.  No two of them have the same identity, so each declaration, a type or another member, is
what is found by its identity, and nothing is found by the identity of any other node. -/
theorem identities_distinct :
    (∀ n, n ∈ t.root.nodes ↔ ∃ p, t.Holds p ∧ p.syntaxNode? = some n) ∧
      (t.root.nodes.map fun n => n.node.id).Nodup ∧
      (∀ m, .member m ∈ t.root.nodes → t.findDeclaration? m.id = some m) ∧
      ∀ n ∈ t.root.nodes, (∀ m, n ≠ .member m) → t.findDeclaration? n.node.id = none := by
  obtain ⟨next, hnumbered⟩ := numbered_of_parse h
  -- what is found is a declaration of the file with the identity
  have hfound {id : NodeId} {m : Member} (hm : t.findDeclaration? id = some m) :
      .member m ∈ t.root.nodes ∧ m.id = id := by
    rw [findDeclaration?_eq] at hm
    exact ⟨(member_mem_nodes_iff h).2 (List.mem_of_find?_eq_some hm),
      by simpa using List.find?_some hm⟩
  refine ⟨fun n => mem_nodes_iff h, hnumbered.nodup, ?_, ?_⟩
  · intro m hm
    cases hfind : t.findDeclaration? m.id with
    | none =>
      rw [findDeclaration?_eq, List.find?_eq_none] at hfind
      exact absurd (beq_self_eq_true _) (hfind m ((member_mem_nodes_iff h).1 hm))
    | some m' =>
      obtain ⟨hm', hid⟩ := hfound hfind
      rw [SyntaxNode.member.inj (eq_of_id_eq h hm' hm hid)]
  · intro n hn hne
    rw [Option.eq_none_iff_forall_not_mem]
    intro m hm
    obtain ⟨hm, hid⟩ := hfound hm
    exact hne m (eq_of_id_eq h hn hm hid.symm)

end

/-- A class in a class; `(B)` is tried as a cast and abandoned. -/
def abandonedCast : String := "class A \x7b class B \x7b \x7d int F = (B) + 1; \x7d"

/-- The identity that the type of the cast had is not given out again. -/
theorem identities_distinct_abandonedCast : ∃ t, parse 0 abandonedCast = .ok t ∧
    (t.root.nodes.map fun n => n.node.id) = [8, 0, 7, 1, 6, 4, 3, 5] ∧
    (t.findDeclaration? 7).map (fun m => m.name.text) = some "F" ∧
    ((∀ n, n ∈ t.root.nodes ↔ ∃ p, t.Holds p ∧ p.syntaxNode? = some n) ∧
      (t.root.nodes.map fun n => n.node.id).Nodup ∧
      (∀ m, .member m ∈ t.root.nodes → t.findDeclaration? m.id = some m) ∧
      ∀ n ∈ t.root.nodes, (∀ m, n ≠ .member m) → t.findDeclaration? n.node.id = none) := by
  have hread : ((parse 0 abandonedCast).toOption.map fun t =>
      (t.root.nodes.map fun n => n.node.id, (t.findDeclaration? 7).map fun m => m.name.text)) =
        some ([8, 0, 7, 1, 6, 4, 3, 5], some "F") := by decide +kernel
  obtain ⟨t, ht, hread⟩ := Option.map_eq_some_iff.1 hread
  rw [toOption_eq_some_iff] at ht
  exact ⟨t, ht, (Prod.mk.inj hread).1, (Prod.mk.inj hread).2, identities_distinct ht⟩

end SyntaxTree

end PropertyLint
