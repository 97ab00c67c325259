/-
# What checks report at a node

At a node, a check reports findings of its own rules at places of that node, and no two findings of
one rule at the same range (`Check.run_reported`).  Most functions of a check report at most one
finding of a rule; the others list statements, default values or arguments that lie apart.
-/
import PropertyLint.Proofs.Check.Places

namespace PropertyLint

namespace Check

/-! ## Backing members -/

namespace BackingMember

variable (ctx : Context) (member : Member) (backing : PropertyLint.BackingMember)

theorem readonly_reported :
    Reported (Part.member member).places [.backingMemberReadonly]
      (readonly ctx member backing) := by
  unfold readonly
  split <;> simp

theorem name_reported (registered : String) :
    Reported (Part.member member).places [.backingFieldName, .keyFieldName]
      (name member backing registered) := by
  unfold name
  cases backing.kind <;> dsimp only <;> split <;> simp [Finding.withText, nameRule]

theorem owner_reported {places : Set OffsetRange} {r : Registration}
    (h : ∀ a, r.ownerArg = some a → a.value.range ∈ places) :
    Reported places [.registeredOwner] (owner ctx r) := by
  unfold owner
  split
  · rename_i owner arg containing _ harg _
    split <;> simp [Finding.withText, h arg harg]
  · exact .nil

theorem defaultValue_reported {places : Set OffsetRange} {r : Registration}
    (h : ∀ v, r.defaultValue = some v → v.unparenthesized.range ∈ places) :
    Reported places [.defaultValueType, .sharedDefaultValue] (defaultValue ctx backing r) := by
  unfold defaultValue
  split
  · rename_i value registered hvalue _
    dsimp only
    repeat' split
    all_goals simp [h value hvalue]
  · exact .nil

theorem registration_reported :
    Reported (Part.member member).places
      [.registeredOwner, .defaultValueType, .sharedDefaultValue]
      (registration ctx member backing) := by
  unfold registration
  split
  · rename_i r hr
    obtain ⟨e, he, hr⟩ := Option.bind_eq_some_iff.1 hr
    have hstart := Part.has_startValue he
    obtain ⟨howner, hvalue⟩ := Model.has_of_registrationBy? hr
    refine (owner_reported ctx ?_).append (defaultValue_reported ctx backing ?_) (by decide)
    · exact fun a ha => (hstart.trans (howner a ha)).mem_places
    · intro v hv
      exact ((hstart.trans (hvalue v hv)).trans (Part.has_unparenthesized v)).mem_places
  · exact .nil

theorem order_reported :
    Reported (Part.member member).places [.keyDeclaredFirst] (order ctx member backing) := by
  unfold order
  repeat' split
  all_goals simp [Finding.withText]

theorem documentation_reported (registered : String) :
    Reported (Part.member member).places [.documentBackingMember]
      (documentation ctx member backing registered) := by
  unfold documentation
  dsimp only
  repeat' split
  all_goals simp

theorem reported {fs : List Finding} (hnode : ctx.node = .member member)
    (h : (run ctx).Gives fs) :
    Reported (Part.member member).places Check.backingMember.rules fs := by
  unfold run at h
  rw [hnode] at h
  split at h
  · rename_i m backing hm _
    obtain rfl : member = m := Option.some.inj hm
    have hmodifiers := readonly_reported ctx member backing
    dsimp only at h
    split at h
    · obtain rfl := h.pure
      exact hmodifiers.mono subset_rfl (by decide)
    · obtain ⟨-, -, h⟩ := h.bind
      obtain rfl := h.pure
      have hnames := Reported.map_getD fun registered
        (_ : ctx.model.registeredName? backing = some registered) =>
          name_reported member backing registered
      have hdocs := Reported.map_getD fun registered
        (_ : ctx.model.registeredName? backing = some registered) =>
          documentation_reported ctx member backing registered
      have h := hmodifiers.append hnames (by decide)
      have h := h.append (registration_reported ctx member backing) (by decide)
      have h := h.append (order_reported ctx member backing) (by decide)
      exact (h.append hdocs (by decide)).mono subset_rfl (by decide)
  · obtain rfl := h.pure
    exact .nil

end BackingMember

/-! ## Wrappers -/

namespace Wrapper

variable {cs : List Char} (ctx : Context) (property : PropertyDecl)

theorem name_mem_places : property.name.range ∈ (Part.member (.property property)).places :=
  Part.name_mem_places (.property property)

theorem sameProperty_reported (get set : Option Registration) :
    Reported (Part.member (.property property)).places [.sameProperty]
      (sameProperty property get set) := by
  unfold sameProperty
  repeat' split
  all_goals simp [name_mem_places]

theorem name_reported (r : Registration) :
    Reported (Part.member (.property property)).places [.wrapperName] (name property r) := by
  unfold name
  repeat' split
  all_goals simp [Finding.withText, name_mem_places]

theorem type_reported (r : Registration) :
    Reported (Part.member (.property property)).places [.wrapperType] (type ctx property r) := by
  have hpart : .type property.type ∈ (Part.member (.property property)).parts := by
    simp [Part.parts, Member.parts]
  have htype : property.type.range ∈ (Part.member (.property property)).places :=
    (Part.Has.of_mem hpart).mem_places
  unfold type
  dsimp only
  repeat' split
  all_goals simp [Finding.withText, htype]

theorem against_reported (r : Option Registration) :
    Reported (Part.member (.property property)).places [.wrapperName, .wrapperType]
      ((r.map fun r => name property r ++ type ctx property r).getD []) :=
  .map_getD fun r _ => (name_reported property r).append (type_reported ctx property r) (by decide)

theorem accessorEffects_reported {accessor : Option Accessor} {access : Option AccessorCall}
    {fs : List Finding} (hnested : ∀ a, accessor = some a → (Part.accessor a).WellNested cs)
    (h : (accessorEffects accessor access).Gives fs) :
    Reported (Part.placesOf .accessor accessor) [.wrapperSideEffects] fs := by
  unfold accessorEffects at h
  split at h
  · rename_i a access
    obtain ⟨-, -, h⟩ := h.bind
    obtain rfl := h.pure
    have hblock {block : Block Stmt} (hb : a.body.block = some block) :
        (Part.accessor a).Has (.block block) := .of_mem (Part.block_mem_parts hb)
    exact (sideEffects_reported .wrapperSideEffects (hnested a rfl) fun _ => hblock).mono
      (fun r hr => ⟨a, rfl, hr⟩) (List.Subset.refl _)
  · obtain rfl := h.pure
    exact .nil

/-- The accessor that reads a property is another one than the one that sets it. -/
theorem getter_apart_setter {getter setter : Accessor}
    (h : (Part.member (.property property)).WellNested cs)
    (hgetter : property.getter? = some getter) (hsetter : property.setter? = some setter) :
    (Part.accessor getter).Apart (.accessor setter) := by
  have hne : Part.accessor getter ≠ .accessor setter := by
    rintro heq
    obtain rfl := Part.accessor.inj heq
    have hget := List.find?_some hgetter
    have hset := List.find?_some hsetter
    rw [beq_iff_eq] at hget
    rw [hget] at hset
    exact absurd hset (by decide)
  exact h.apart_of_ne (Part.accessor_mem_parts hgetter) (Part.accessor_mem_parts hsetter) hne

theorem setValue_reported {places : Set OffsetRange} {setter : Option AccessorCall}
    (h : ∀ a, setter = some a → a.call.range ∈ places) :
    Reported places [.useSetValue] (setValue setter) := by
  unfold setValue
  split
  · simp [h _ rfl]
  · exact .nil

theorem mem_exprs_of_findCall? {b : Body} {isCall : Expr → Bool} {e : Expr}
    (h : b.findCall? isCall = some e) : e ∈ b.exprs := by
  unfold Body.findCall? at h
  unfold Body.exprs
  cases harrow : b.arrow with
  | some value =>
    rw [harrow] at h
    exact List.mem_append_right _ (List.mem_of_find?_eq_some h)
  | none =>
    rw [harrow] at h
    obtain ⟨block, hblock, h⟩ := Option.bind_eq_some_iff.1 h
    rw [hblock]
    exact List.mem_append_left _ (List.mem_of_find?_eq_some h)

theorem call_of_confirmCall? {m : Model} {e : Expr} {a : AccessorCall}
    (h : m.confirmCall? e = some a) : a.call = e := by
  unfold Model.confirmCall? at h
  obtain ⟨member, -, h⟩ := Option.bind_eq_some_iff.1 h
  dsimp only at h
  split at h
  · simp at h
  · obtain ⟨list, -, h⟩ := Option.bind_eq_some_iff.1 h
    obtain ⟨first, -, h⟩ := Option.bind_eq_some_iff.1 h
    obtain rfl := Option.some.inj h
    rfl

theorem setCall_of_wrapperCalls? {calls : WrapperCalls}
    (h : property.wrapperCalls? = some calls) : calls.setCall = property.setCall? := by
  unfold PropertyDecl.wrapperCalls? at h
  rw [Option.ite_none_left_eq_some, Option.ite_none_right_eq_some] at h
  obtain rfl := Option.some.inj h.2.2
  rfl

theorem has_setCall? {e : Expr} (h : (Part.member (.property property)).WellNested cs)
    (he : property.setCall? = some e) : (Part.member (.property property)).Has (.expr e) := by
  obtain ⟨a, ha, he⟩ := Option.bind_eq_some_iff.1 he
  have ha := Part.accessor_mem_parts ha
  have hexprs := (Part.exprs_leads (h.part ha)).1
  exact (Part.Has.of_mem ha).trans (hexprs e (mem_exprs_of_findCall? he))

theorem effects_reported {getter setter : Option AccessorCall} {fs fs' : List Finding}
    (hnested : (Part.member (.property property)).WellNested cs)
    (hget : (accessorEffects property.getter? getter).Gives fs)
    (hset : (accessorEffects property.setter? setter).Gives fs') :
    Reported (Part.member (.property property)).places [.wrapperSideEffects] (fs ++ fs') := by
  have hgetter (a : Accessor) (ha : property.getter? = some a) := Part.accessor_mem_parts ha
  have hsetter (a : Accessor) (ha : property.setter? = some a) := Part.accessor_mem_parts ha
  have hnestedGetter a ha := hnested.part (hgetter a ha)
  have hnestedSetter a ha := hnested.part (hsetter a ha)
  have hdisjoint := Part.disjoint_placesOf hnestedGetter hnestedSetter
    fun _ _ => getter_apart_setter property hnested
  have hjoined := (accessorEffects_reported hnestedGetter hget).join
    (accessorEffects_reported hnestedSetter hset) hdisjoint
  refine hjoined.mono (Set.union_subset ?_ ?_) (List.Subset.refl _)
  · exact Part.placesOf_subset fun a ha => (Part.Has.of_mem (hgetter a ha)).places_subset
  · exact Part.placesOf_subset fun a ha => (Part.Has.of_mem (hsetter a ha)).places_subset

theorem wrapper_reported {calls : WrapperCalls} {fs : List Finding}
    (hnested : (Part.member (.property property)).WellNested cs)
    (hcalls : property.wrapperCalls? = some calls)
    (h : (wrapper ctx property calls).Gives fs) :
    Reported (Part.member (.property property)).places Check.wrapper.rules fs := by
  unfold wrapper at h
  obtain ⟨getEffects, hget, h⟩ := h.bind
  obtain ⟨setEffects, hset, h⟩ := h.bind
  obtain rfl := h.pure
  rw [List.append_assoc]
  have hsetter : ∀ a, calls.setCall.bind ctx.model.confirmCall? = some a →
      a.call.range ∈ (Part.member (.property property)).places := by
    intro a ha
    obtain ⟨e, he, ha⟩ := Option.bind_eq_some_iff.1 ha
    rw [setCall_of_wrapperCalls? property hcalls] at he
    rw [call_of_confirmCall? ha]
    exact (has_setCall? property hnested he).mem_places
  exact ((((sameProperty_reported property _ _).append (against_reported ctx property _)
    (by decide)).append (setValue_reported hsetter) (by decide)).append
    (effects_reported property hnested hget hset) (by decide)).mono subset_rfl (by decide)

theorem reported {fs : List Finding} (hnode : ctx.node = .member (.property property))
    (hnested : (Part.member (.property property)).WellNested cs) (h : (run ctx).Gives fs) :
    Reported (Part.member (.property property)).places Check.wrapper.rules fs := by
  unfold run at h
  rw [hnode] at h
  dsimp only at h
  split at h
  · rename_i calls hcalls _
    exact wrapper_reported ctx property hnested hcalls h
  · obtain rfl := h.pure
    exact .nil

end Wrapper

/-! ## Accessors of attached properties -/

namespace AttachedAccessor

variable {cs : List Char} (ctx : Context) (method : MethodDecl) (direction : Direction)

theorem name_mem_places : method.name.range ∈ (Part.member (.method method)).places :=
  Part.name_mem_places (.method method)

theorem name_reported (registered : String) :
    Reported (Part.member (.method method)).places [.accessorName]
      (name method direction registered) := by
  unfold name
  dsimp only
  split <;> simp [Finding.withText, name_mem_places]

theorem type_reported (registered : SymbolId) :
    Reported (Part.member (.method method)).places [.accessorType]
      (type ctx method direction registered) := by
  have htype (t : TypeRef) (ht : valueType? method direction = some t) :
      t.range ∈ (Part.member (.method method)).places := by
    cases direction with
    | get =>
      obtain rfl := Option.some.inj ht
      have hpart : .type method.returnType ∈ (Part.member (.method method)).parts := by
        simp [Part.parts, Member.parts]
      exact (Part.Has.of_mem hpart).mem_places
    | set =>
      obtain ⟨p, hp, rfl⟩ := Option.map_eq_some_iff.1 ht
      have hparam : .parameter p ∈ (Part.member (.method method)).parts := by
        simp [Part.parts, Member.parts, List.mem_of_getElem? hp]
      have hpart : .type p.type ∈ (Part.parameter p).parts := by
        simp [Part.parts, Parameter.parts]
      exact ((Part.Has.of_mem hparam).part hpart).mem_places
  unfold type
  split
  · rename_i written hwritten
    dsimp only
    repeat' split
    all_goals simp [Finding.withText, htype written hwritten]
  · exact .nil

theorem browsable_reported (element : SymbolId) :
    Reported (Part.member (.method method)).places [.addBrowsable, .browsableArgument]
      (browsable ctx method element) := by
  have harg (a : Argument Expr) (ha : browsableArgument? method = some a) :
      a.value.range ∈ (Part.member (.method method)).places := by
    obtain ⟨b, hb, ha⟩ := List.exists_of_findSome?_eq_some ha
    split at ha
    · rename_i arg huse
      obtain rfl := Option.some.inj ha
      have hattr : .attr b ∈ (Part.member (.method method)).parts := by
        simp [Part.parts, Member.parts, hb]
      exact ((Part.Has.of_mem hattr).trans (Attribute.has_argument huse (.head _))).mem_places
    · simp at ha
  unfold browsable
  dsimp only
  split
  · simp [Finding.withText, name_mem_places]
  · rename_i arg h
    repeat' split
    all_goals simp [Finding.withText, harg arg h]

theorem documentation_reported :
    Reported (Part.member (.method method)).places [.documentAccessor]
      (documentation ctx method) := by
  unfold documentation
  dsimp only
  split <;> simp [name_mem_places]

theorem registration_reported (element : SymbolId) (r : Registration) :
    Reported (Part.member (.method method)).places
      [.accessorType, .addBrowsable, .browsableArgument]
      (registration ctx method direction element r) := by
  have htype := Reported.map_getD fun registered (_ : r.type = some registered) =>
    type_reported ctx method direction registered
  unfold registration
  refine htype.append ?_ (by decide)
  split
  · exact browsable_reported ctx method element
  · exact .nil

theorem accessor_reported {call : Expr} {element : SymbolId} {backing : BackingMember}
    {fs : List Finding} (hnested : (Part.member (.method method)).WellNested cs)
    (h : (accessor ctx method direction call element backing).Gives fs) :
    Reported (Part.member (.method method)).places Check.attachedAccessor.rules fs := by
  have hblock (block : Block Stmt) (hb : method.body.block = some block) :
      (Part.member (.method method)).Has (.block block) :=
    .of_mem (List.mem_append_right _ (Part.block_mem_parts hb))
  unfold accessor at h
  obtain ⟨-, -, h⟩ := h.bind
  obtain rfl := h.pure
  have hnames := Reported.map_getD fun registered
    (_ : ctx.model.registeredName? backing = some registered) =>
      name_reported method direction registered
  have hagainst := Reported.map_getD fun r
    (_ : ctx.model.registrationOf? backing.symbol = some r) =>
      registration_reported ctx method direction element r
  exact (((hnames.append hagainst (by decide)).append
    (sideEffects_reported .accessorSideEffects hnested hblock) (by decide)).append
    (documentation_reported ctx method) (by decide)).mono subset_rfl (by decide)

theorem reported {fs : List Finding} (hnode : ctx.node = .member (.method method))
    (hnested : (Part.member (.method method)).WellNested cs) (h : (run ctx).Gives fs) :
    Reported (Part.member (.method method)).places Check.attachedAccessor.rules fs := by
  unfold run at h
  rw [hnode] at h
  dsimp only at h
  split at h
  · exact accessor_reported ctx method _ hnested h
  · obtain rfl := h.pure
    exact .nil

end AttachedAccessor

/-! ## Arguments of attributes -/

namespace AttributeArguments

variable (ctx : Context)

theorem use_reported {u : AttributeUse} {f : Finding} (h : use ctx u = some f) :
    f.rule ∈ Check.attributeArguments.rules ∧ ∃ a ∈ u.arguments, f.range = a.value.range := by
  cases u with
  | constructorArgument arg =>
    unfold use constructorArgument at h
    obtain ⟨member, -, h⟩ := Option.bind_eq_some_iff.1 h
    split at h
    · simp only [Option.bind_eq_bind, Option.bind_eq_some_iff] at h
      obtain ⟨actual, -, t, -, symbol, -, expected, -, h⟩ := h
      split at h
      · simp at h
      · obtain rfl := Option.some.inj h
        exact ⟨by simp [Check.rules, Finding.withText], arg, .head _, rfl⟩
    · simp at h
  | markupReturnType arg =>
    simp [use, markupReturnType, Option.bind_eq_some_iff] at h
    obtain ⟨_, -, -, _, -, _, -, _, -, -, rfl⟩ := h
    exact ⟨by simp [Check.rules, Finding.withText], arg, .head _, rfl⟩
  | markupHandler handler arg =>
    unfold use markupHandler at h
    simp only [Option.bind_eq_bind, Option.bind_eq_some_iff] at h
    obtain ⟨name, -, type, -, h⟩ := h
    split at h
    · simp at h
    · obtain rfl := Option.some.inj h
      exact ⟨by cases handler <;> simp [Check.rules, handlerRule], arg, .head _, rfl⟩
  | templatePart arg =>
    simp [use, templatePart, Option.bind_eq_some_iff] at h
    obtain ⟨_, -, -, rfl⟩ := h
    exact ⟨by simp [Check.rules], arg, .head _, rfl⟩
  | xmlnsDefinition arg =>
    simp [use, xmlnsDefinition, Option.bind_eq_some_iff] at h
    obtain ⟨_, -, -, rfl⟩ := h
    exact ⟨by simp [Check.rules], arg, .head _, rfl⟩
  | _ => simp [use] at h

theorem reported {a : Attribute} {fs : List Finding} (hnode : ctx.node = .attr a)
    (h : (run ctx).Gives fs) :
    Reported (Part.attr a).places Check.attributeArguments.rules fs := by
  unfold run at h
  rw [hnode] at h
  dsimp only at h
  split at h
  · rename_i u hu
    obtain rfl := h.pure
    split
    · refine .toList fun f hf => ?_
      obtain ⟨hrule, arg, harg, hrange⟩ := use_reported ctx hf
      exact ⟨hrule, hrange ▸ (Attribute.has_argument hu harg).mem_places⟩
    · exact .nil
  · obtain rfl := h.pure
    exact .nil

end AttributeArguments

/-! ## Converters -/

namespace Converter

variable {cs : List Char} (ctx : Context) (t : TypeDecl)

theorem name_mem_places : t.name.range ∈ t.places :=
  TypeDecl.places_subset (p := .ident t.name) (by simp [TypeDecl.ownParts]) Part.Has.refl.mem_places

theorem has_value {m : Member} {v : Expr}
    (h : m.startValue?.map Expr.unparenthesized = some v) : (Part.member m).Has (.expr v) := by
  obtain ⟨e, he, rfl⟩ := Option.map_eq_some_iff.1 h
  exact (Part.has_startValue he).trans (Part.has_unparenthesized e)

theorem defaultInstance_reported (hnested : (Part.member (.type t)).WellNested cs)
    (converter : SymbolId) :
    Reported t.places [.converterDefault, .defaultInstanceType]
      (defaultInstance ctx t converter) := by
  unfold defaultInstance
  dsimp only
  split
  · split <;> simp [name_mem_places]
  · refine ⟨?_, ?_, ?_⟩
    · rw [List.forall_mem_map]
      exact fun _ _ => .tail _ (.head _)
    · rw [List.forall_mem_map]
      intro v hv
      obtain ⟨m, hm, hv⟩ := List.mem_filterMap.1 (List.mem_of_mem_filter hv)
      exact TypeDecl.places_subset (TypeDecl.member_mem_ownParts (List.mem_of_mem_filter hm))
        (has_value hv).mem_places
    · -- the values stand in different members
      have hmembers := TypeDecl.ownMembers_disjoint hnested
      rw [List.pairwise_map]
      refine List.Pairwise.filter _ ?_
      rw [List.pairwise_filterMap]
      refine (hmembers.filter _).imp fun {m m'} hdisjoint v hv v' hv' _ heq => ?_
      have hv := (has_value hv).mem_places
      rw [show (Part.expr v).range = (Part.expr v').range from heq] at hv
      exact Set.disjoint_left.1 hdisjoint hv (has_value hv').mem_places

theorem argument_reported (arg : Option (Argument Expr)) (expected : Option SymbolId) :
    Reported (Part.placesOf .argument arg) [.valueConversionTypes]
      (argument ctx arg expected).toList := by
  refine .toList fun f h => ?_
  simp [argument, Option.bind_eq_some_iff] at h
  obtain ⟨a, rfl, _, -, _, -, -, rfl⟩ := h
  have hvalue : (Part.argument a).Has (.expr a.value) :=
    .of_mem (List.mem_append_right _ (.head _))
  exact ⟨.head _, a, rfl, hvalue.mem_places⟩

/-- The two arguments of a conversion stand at different places. -/
theorem arguments_reported {l : ArgumentList Expr} (hargs : (Part.args l).WellNested cs)
    (source target : Option SymbolId) :
    Reported (Part.args l).places [.valueConversionTypes]
      ((argument ctx (l.namedOrAt? "sourceType" 0) source).toList ++
        (argument ctx (l.namedOrAt? "targetType" 1) target).toList) := by
  have hmem {name : String} {index : Nat} (a : Argument Expr)
      (ha : l.namedOrAt? name index = some a) : .argument a ∈ (Part.args l).parts :=
    List.mem_map_of_mem (mem_of_namedOrAt? ha)
  have hnames : "sourceType" ≠ "targetType" := by decide
  have hdisjoint := Part.disjoint_placesOf (fun a ha => hargs.part (hmem a ha))
    (fun a ha => hargs.part (hmem a ha))
    fun _ _ => apart_of_namedOrAt? hargs hnames Nat.zero_lt_one
  have hplaces {name : String} {index : Nat} :
      Part.placesOf .argument (l.namedOrAt? name index) ⊆ (Part.args l).places :=
    Part.placesOf_subset fun a ha => (Part.Has.of_mem (hmem a ha)).places_subset
  have hjoined := (argument_reported ctx _ source).join (argument_reported ctx _ target) hdisjoint
  exact hjoined.mono (Set.union_subset hplaces hplaces) (List.Subset.refl _)

theorem exists_of_conversionArguments? {source target : Option (Argument Expr)}
    (h : conversionArguments? ctx t = some (source, target)) :
    ∃ a ∈ t.attributes, ∃ l, a.args = some l ∧ source = l.namedOrAt? "sourceType" 0 ∧
      target = l.namedOrAt? "targetType" 1 := by
  obtain ⟨a, ha, h⟩ := List.exists_of_findSome?_eq_some h
  split at h
  · rename_i source target huse
    rw [Option.ite_none_right_eq_some] at h
    obtain ⟨rfl, rfl⟩ := Prod.mk.inj (Option.some.inj h.2)
    exact ⟨a, ha, Attribute.args_of_valueConversion huse⟩
  · simp at h

theorem conversion_reported (hnested : (Part.member (.type t)).WellNested cs) :
    Reported t.places [.addValueConversion, .addUnknownConversion, .valueConversionTypes]
      (conversion ctx t) := by
  unfold conversion
  split
  · exact .nil
  · rename_i types _
    split
    · unfold missingConversion
      split <;> simp [Finding.withText, name_mem_places]
    · rename_i source target h
      obtain ⟨a, ha, l, hl, rfl, rfl⟩ := exists_of_conversionArguments? ctx t h
      have hattr := TypeDecl.attr_mem_ownParts ha
      have hlist : (Part.attr a).Has (.args l) :=
        .of_mem (by simp [Part.parts, Attribute.parts, hl])
      have hargs := hnested.of_has ((TypeDecl.has_of_mem_ownParts hattr).trans hlist)
      exact (arguments_reported ctx hargs types.source types.target).mono
        (hlist.places_subset.trans (TypeDecl.places_subset hattr)) (by decide)

theorem reported {fs : List Finding} (hnode : ctx.node = .member (.type t))
    (hnested : (Part.member (.type t)).WellNested cs) (h : (run ctx).Gives fs) :
    Reported t.places Check.converter.rules fs := by
  unfold run at h
  rw [hnode] at h
  split at h
  · rename_i t' symbol ht _
    obtain rfl : t = t' := by injection ht with ht; injection ht
    obtain rfl := h.pure
    split
    · unfold usable
      split
      · have hdefaults : Reported t.places [.converterDefault, .defaultInstanceType]
            (if ctx.comp.isAssignableToKnown symbol .markupExtension then []
              else defaultInstance ctx t symbol) := by
          split
          · exact .nil
          · exact defaultInstance_reported ctx t hnested symbol
        have hconversion : Reported t.places
            [.addValueConversion, .addUnknownConversion, .valueConversionTypes]
            (if ctx.comp.isAssignableToKnown symbol .iValueConverter then conversion ctx t
              else []) := by
          split
          · exact conversion_reported ctx t hnested
          · exact .nil
        exact (hdefaults.append hconversion (by decide)).mono subset_rfl (by decide)
      · exact .nil
    · exact .nil
  · obtain rfl := h.pure
    exact .nil

end Converter

/-! ## Creations -/

namespace Creation

variable (ctx : Context)

theorem creation_of_start? {types : List KnownType} {s : Start} (h : start? ctx types = some s) :
    ctx.node = .creation s.creation ∧ s.creation.argumentList? = some s.args := by
  unfold start? at h
  split at h
  · rename_i creation n type args heq
    obtain ⟨name, -, h⟩ := Option.bind_eq_some_iff.1 h
    dsimp only at h
    split at h
    · simp at h
    · obtain ⟨symbol, -, h⟩ := Option.bind_eq_some_iff.1 h
      obtain ⟨known, -, h⟩ := Option.bind_eq_some_iff.1 h
      split at h
      · simp at h
      · obtain ⟨member, -, h⟩ := Option.bind_eq_some_iff.1 h
        obtain ⟨owner, -, h⟩ := Option.bind_eq_some_iff.1 h
        obtain rfl := Option.some.inj h
        exact ⟨heq, rfl⟩
  · simp at h

variable {s : Start} (hargs : s.creation.argumentList? = some s.args)
include hargs

theorem value_mem_argumentPlaces {ctor : SymbolId} {param : String} {a : Argument Expr}
    (h : ctx.comp.argumentFor? ctor s.args param = some a) :
    a.value.range ∈ s.creation.argumentPlaces :=
  ⟨s.args, hargs, .inr ⟨a.value, List.mem_map_of_mem (mem_of_argumentFor? h), rfl⟩⟩

theorem ownerArgument_reported (ctor : SymbolId) (param : String) (rule : Rule) :
    Reported s.creation.argumentPlaces [rule] (ownerArgument ctx s ctor param rule) := by
  unfold ownerArgument
  split
  · rename_i arg h
    dsimp only
    split <;> simp [Finding.withText, value_mem_argumentPlaces ctx hargs h]
  · exact .nil

theorem nameArgument_reported (ctor : SymbolId) (param : String) (rule : Rule) :
    Reported s.creation.argumentPlaces [rule] (nameArgument ctx s ctor param rule) := by
  unfold nameArgument
  split
  · rename_i arg h
    dsimp only
    repeat' split
    all_goals simp [Finding.withText, value_mem_argumentPlaces ctx hargs h]
  · exact .nil

theorem resourceKey_reported :
    Reported s.creation.argumentPlaces Check.resourceKey.rules (resourceKey ctx s) := by
  unfold resourceKey
  split
  · have hlist : s.args.range ∈ s.creation.argumentPlaces := ⟨s.args, hargs, .inl rfl⟩
    simp [emptyKey, Finding.withText, Check.rules, hlist]
  · split
    · rename_i ctor _
      exact (ownerArgument_reported ctx hargs ctor _ _).append
        (nameArgument_reported ctx hargs ctor _ _) (by decide)
    · exact .nil

theorem command_reported :
    Reported s.creation.argumentPlaces Check.routedCommand.rules (command ctx s) := by
  unfold command
  split
  · rename_i ctor _
    exact (nameArgument_reported ctx hargs ctor _ _).append
      (ownerArgument_reported ctx hargs ctor _ _) (by decide)
  · exact .nil

omit hargs in
theorem resourceKeys_reported {e : Expr} {fs : List Finding} (hnode : ctx.node = .creation e)
    (h : (runResourceKey ctx).Gives fs) :
    Reported e.argumentPlaces Check.resourceKey.rules fs := by
  obtain rfl := h.pure
  refine .map_getD fun s hs => ?_
  obtain ⟨hcreation, hargs⟩ := creation_of_start? ctx hs
  obtain rfl := CheckedNode.creation.inj (hnode.symm.trans hcreation)
  exact resourceKey_reported ctx hargs

omit hargs in
theorem commands_reported {e : Expr} {fs : List Finding} (hnode : ctx.node = .creation e)
    (h : (runCommand ctx).Gives fs) :
    Reported e.argumentPlaces Check.routedCommand.rules fs := by
  obtain rfl := h.pure
  refine .map_getD fun s hs => ?_
  obtain ⟨hcreation, hargs⟩ := creation_of_start? ctx hs
  obtain rfl := CheckedNode.creation.inj (hnode.symm.trans hcreation)
  exact command_reported ctx hargs

end Creation

end Check

/-! ## All checks -/

/-- A check that runs at a node reports its own rules at the places of the node, and no two findings
of one rule at the same range. -/
theorem Check.run_reported {cs : List Char} {check : Check} {fs : List Finding} (ctx : Context)
    (hkind : ctx.node.kind ∈ check.kinds) (hnested : ctx.node.part.WellNested cs)
    (h : (check.run ctx).Gives fs) : Reported ctx.node.places check.rules fs := by
  cases hnode : ctx.node with
  | member m =>
    rw [hnode] at hkind hnested
    cases m with
    | type d =>
      cases check with
      | converter => exact Converter.reported ctx d hnode hnested h
      | _ => simp [CheckedNode.kind, kinds] at hkind
    | field d =>
      cases check with
      | backingMember => exact BackingMember.reported ctx _ hnode h
      | _ => simp [CheckedNode.kind, kinds] at hkind
    | property d =>
      cases check with
      | backingMember => exact BackingMember.reported ctx _ hnode h
      | wrapper => exact Wrapper.reported ctx d hnode hnested h
      | _ => simp [CheckedNode.kind, kinds] at hkind
    | method d =>
      cases check with
      | attachedAccessor => exact AttachedAccessor.reported ctx d hnode hnested h
      | _ => simp [CheckedNode.kind, kinds] at hkind
    | constructor d => cases check <;> simp [CheckedNode.kind, kinds] at hkind
  | attr a =>
    rw [hnode] at hkind
    cases check with
    | attributeArguments => exact AttributeArguments.reported ctx hnode h
    | _ => simp [CheckedNode.kind, kinds] at hkind
  | creation e =>
    rw [hnode] at hkind
    cases check with
    | resourceKey => exact Creation.resourceKeys_reported ctx hnode h
    | routedCommand => exact Creation.commands_reported ctx hnode h
    | _ => simp [CheckedNode.kind, kinds] at hkind

end PropertyLint
