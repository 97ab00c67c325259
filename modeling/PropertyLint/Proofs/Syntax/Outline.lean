/-
# Outlines of declarations

What a text says about a declaration, without the place where it stands: the text of a member, and
the head of a type with the outlines of its members.
-/
import Mathlib.Data.List.Forall2
import PropertyLint.Syntax.Tree

namespace PropertyLint

/-- What a member is. -/
inductive MemberForm where
  | field | property | method | constructor | type
deriving DecidableEq, Repr

/-- What the member is. -/
def Member.form : Member → MemberForm
  | .field _ => .field
  | .property _ => .property
  | .method _ => .method
  | .constructor _ => .constructor
  | .type _ => .type

/-- A type declaration up to its members: the text from its doc comment to its name, and what
follows the name. -/
structure TypeHead where
  front : Option (List Char)
  kind : TypeDeclKind
  namespaceName : Option String
  typeParams : List String
  bases : List (Option (List Char))
deriving DecidableEq

/-- A member as the text has it: the text with the doc comment, or the head of a nested type. -/
inductive MemberOutline where
  | type (head : TypeHead)
  | other (form : MemberForm) (name : String) (text : Option (List Char))
deriving DecidableEq

/-- A type declaration as the text has it. -/
structure TypeOutline where
  head : TypeHead
  members : List MemberOutline
deriving DecidableEq

variable (cs : List Char)

/-- The text at a range. -/
def textAt (r : OffsetRange) : Option (List Char) := slice? cs r.start r.stop

/-- The head of the type in a text. -/
def TypeDecl.head (d : TypeDecl) : TypeHead where
  front := textAt cs ⟨(Member.type d).fullRange.start, d.name.range.stop⟩
  kind := d.header.kind
  namespaceName := d.header.namespaceName
  typeParams := d.header.typeParams.map Ident.text
  bases := d.header.bases.map fun b => textAt cs b.range

/-- The outline of the member in a text. -/
def Member.outline : Member → MemberOutline
  | .type d => .type (d.head cs)
  | m => .other m.form m.name.text (textAt cs m.fullRange)

/-- The outline of the type in a text. -/
def TypeDecl.outline (d : TypeDecl) : TypeOutline := ⟨d.head cs, d.members.map (Member.outline cs)⟩

section
variable (cs' : List Char)

/-- The outlines of the types in the two texts are the same. -/
def SameTypes (ds ds' : List TypeDecl) : Prop :=
  ds.map (TypeDecl.outline cs) = ds'.map (TypeDecl.outline cs')

/-- The outlines of the members are the same, and those of the types in them. -/
def SameMember (m m' : Member) : Prop :=
  m.outline cs = m'.outline cs' ∧ SameTypes cs cs' (nestedIn [m]) (nestedIn [m'])

end

variable {cs} {cs' : List Char} {ds ds' es es' : List TypeDecl} {ms ms' : List Member}

theorem SameTypes.nil : SameTypes cs cs' [] [] := rfl

theorem SameTypes.append (hd : SameTypes cs cs' ds ds') (he : SameTypes cs cs' es es') :
    SameTypes cs cs' (ds ++ es) (ds' ++ es') := by
  unfold SameTypes at *
  rw [List.map_append, List.map_append, hd, he]

theorem SameTypes.nestedIn (h : List.Forall₂ (SameMember cs cs') ms ms') :
    SameTypes cs cs' (nestedIn ms) (nestedIn ms') := by
  induction h with
  | nil => exact .nil
  | @cons m m' ms ms' hfirst _ ih =>
    rw [nestedIn_cons m, nestedIn_cons m']
    exact hfirst.2.append ih

theorem map_eq_of_forall₂ {α β γ : Type} {R : α → β → Prop} {f : α → γ} {g : β → γ} {as : List α}
    {bs : List β} (h : List.Forall₂ R as bs) (hR : ∀ a b, R a b → f a = g b) :
    as.map f = bs.map g := by
  induction h with
  | nil => rfl
  | cons hfirst _ ih => rw [List.map_cons, List.map_cons, hR _ _ hfirst, ih]

theorem map_outline_of_sameMember (h : List.Forall₂ (SameMember cs cs') ms ms') :
    ms.map (Member.outline cs) = ms'.map (Member.outline cs') :=
  map_eq_of_forall₂ h fun _ _ h => h.1

/-- A type is the same if its head and its members are. -/
theorem SameTypes.withNested {d d' : TypeDecl} (hhead : d.head cs = d'.head cs')
    (h : List.Forall₂ (SameMember cs cs') d.members d'.members) :
    SameTypes cs cs' d.withNested d'.withNested := by
  have hself : SameTypes cs cs' [d] [d'] := by
    unfold SameTypes TypeDecl.outline
    rw [List.map_singleton, List.map_singleton, hhead, map_outline_of_sameMember h]
  rw [d.withNested_eq_cons, d'.withNested_eq_cons]
  exact hself.append (.nestedIn h)

/-! ## Types of which one has other members -/

/-- The types are the same but for one of them, which has the given members in the second text. -/
def SameBut (cs cs' : List Char) (decl : TypeDecl) (members : List Member)
    (ds ds' : List TypeDecl) : Prop :=
  ∃ front back, ds = front ++ decl :: back ∧
    ds'.map (TypeDecl.outline cs') = front.map (TypeDecl.outline cs) ++
      ⟨decl.head cs, members.map (Member.outline cs)⟩ :: back.map (TypeDecl.outline cs)

namespace SameBut

variable {decl : TypeDecl} {members : List Member}

theorem behind (h : SameBut cs cs' decl members es es') (hd : SameTypes cs cs' ds ds') :
    SameBut cs cs' decl members (ds ++ es) (ds' ++ es') := by
  obtain ⟨front, back, rfl, hes⟩ := h
  refine ⟨ds ++ front, back, by rw [List.append_assoc], ?_⟩
  rw [List.map_append, hes, ← hd, List.map_append, List.append_assoc]

theorem before (h : SameBut cs cs' decl members ds ds') (he : SameTypes cs cs' es es') :
    SameBut cs cs' decl members (ds ++ es) (ds' ++ es') := by
  obtain ⟨front, back, rfl, hds⟩ := h
  refine ⟨front, back ++ es, by simp, ?_⟩
  rw [List.map_append, hds, ← he, List.map_append]
  simp

end SameBut

theorem nestedIn_append (ms ms' : List Member) :
    nestedIn (ms ++ ms') = nestedIn ms ++ nestedIn ms' := by
  induction ms with
  | nil => rfl
  | cons m ms ih => rw [List.cons_append, nestedIn_cons, ih, nestedIn_cons m ms, List.append_assoc]

/-- The type has the same head, and it or a type in it has other members. -/
def Changed (cs cs' : List Char) (decl : TypeDecl) (members : List Member) (d d' : TypeDecl) :
    Prop :=
  d.head cs = d'.head cs' ∧ SameBut cs cs' decl members d.withNested d'.withNested

section
variable {decl d d' e e' : TypeDecl} {front back front' back' members : List Member}

/-- The members of a type in it are other ones. -/
theorem Changed.around (hms : d.members = front ++ .type e :: back)
    (hms' : d'.members = front' ++ .type e' :: back') (hhead : d.head cs = d'.head cs')
    (hfront : List.Forall₂ (SameMember cs cs') front front')
    (he : Changed cs cs' decl members e e')
    (hback : List.Forall₂ (SameMember cs cs') back back') : Changed cs cs' decl members d d' := by
  have hself : SameTypes cs cs' [d] [d'] := by
    unfold SameTypes TypeDecl.outline
    rw [List.map_singleton, List.map_singleton, hhead, hms, hms', List.map_append, List.map_append,
      List.map_cons, List.map_cons, map_outline_of_sameMember hfront,
      map_outline_of_sameMember hback, Member.outline, Member.outline, he.1]
  refine ⟨hhead, ?_⟩
  rw [d.withNested_eq_cons, d'.withNested_eq_cons, hms, hms', nestedIn_append, nestedIn_append,
    nestedIn, nestedIn]
  exact ((he.2.before (.nestedIn hback)).behind (.nestedIn hfront)).behind hself

end

/-- A member that is no type has been moved in front of another member of the type. -/
theorem Changed.of_members {decl d' : TypeDecl} {pre mid post : List Member} {target key : Member}
    (hms : decl.members = pre ++ target :: (mid ++ key :: post)) (hkey : key.isType = false)
    (hhead : decl.head cs = d'.head cs')
    (h : List.Forall₂ (SameMember cs cs') (pre ++ key :: target :: (mid ++ post)) d'.members) :
    Changed cs cs' decl (pre ++ key :: target :: (mid ++ post)) decl d' := by
  have hskip (ms : List Member) : nestedIn (key :: ms) = nestedIn ms := by
    cases key <;> simp [nestedIn, Member.isType] at hkey ⊢
  have hnested : nestedIn decl.members = nestedIn (pre ++ key :: target :: (mid ++ post)) := by
    rw [hms, nestedIn_append, nestedIn_append pre, hskip, nestedIn_cons target,
      nestedIn_cons target (mid ++ post), nestedIn_append, nestedIn_append mid, hskip]
  refine ⟨hhead, [], nestedIn decl.members, decl.withNested_eq_cons, ?_⟩
  rw [d'.withNested_eq_cons, List.map_cons, hnested, TypeDecl.outline, ← hhead,
    ← map_outline_of_sameMember h, ← SameTypes.nestedIn h]
  rfl

/-! ## Files -/

theorem CompilationUnit.allTypes_append (u v : CompilationUnit) :
    (u.append v).allTypes = u.allTypes ++ v.allTypes :=
  List.flatMap_append

/-- The files import the same namespaces, and the outlines of their types are the same. -/
def SameUnit (cs cs' : List Char) (u u' : CompilationUnit) : Prop :=
  u.usings = u'.usings ∧ SameTypes cs cs' u.allTypes u'.allTypes

/-- The files import the same namespaces, and one of the types has other members. -/
def ChangedUnit (cs cs' : List Char) (decl : TypeDecl) (members : List Member)
    (u u' : CompilationUnit) : Prop :=
  u.usings = u'.usings ∧ SameBut cs cs' decl members u.allTypes u'.allTypes

section
variable {decl : TypeDecl} {members : List Member} {u u' v v' : CompilationUnit}

theorem SameUnit.append (hu : SameUnit cs cs' u u') (hv : SameUnit cs cs' v v') :
    SameUnit cs cs' (u.append v) (u'.append v') := by
  refine ⟨congrArg₂ _ hu.1 hv.1, ?_⟩
  rw [CompilationUnit.allTypes_append, CompilationUnit.allTypes_append]
  exact hu.2.append hv.2

theorem ChangedUnit.behind (h : ChangedUnit cs cs' decl members v v') (hu : SameUnit cs cs' u u') :
    ChangedUnit cs cs' decl members (u.append v) (u'.append v') := by
  refine ⟨congrArg₂ _ hu.1 h.1, ?_⟩
  rw [CompilationUnit.allTypes_append, CompilationUnit.allTypes_append]
  exact h.2.behind hu.2

theorem ChangedUnit.before (h : ChangedUnit cs cs' decl members u u') (hv : SameUnit cs cs' v v') :
    ChangedUnit cs cs' decl members (u.append v) (u'.append v') := by
  refine ⟨congrArg₂ _ h.1 hv.1, ?_⟩
  rw [CompilationUnit.allTypes_append, CompilationUnit.allTypes_append]
  exact h.2.before hv.2

end

end PropertyLint
