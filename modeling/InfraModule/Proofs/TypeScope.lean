import InfraModule.Proofs.SpecificationGaps

namespace InfraModule.Provider

def Entry.complexType? (e : Entry) : Option String :=
  e.type.bind fun type ↦
    if type = listMark ∨ type = mapMark then
      if e.primitiveItemType.isSome then none else e.itemType
    else some type

namespace Property

variable {name scope type : String} {e : Entry} {p : Property}

theorem itemOf_eq_complex_iff : itemOf name e = .ok (.complex, some type) ↔
    e.primitiveItemType = none ∧ e.itemType = some type := by
  unfold itemOf
  split
  next tag htag =>
    cases hp : primitiveOf name tag with
    | error => simp [htag, bind, Except.bind]
    | ok p => cases p <;> simp [htag, bind, Except.bind]
  next hnone hitem => simp [hnone, hitem]
  next hnone hitem => simp [hitem]

theorem complexType?_eq_some_iff (name : String) : e.complexType? = some type ↔
    ∃ collection, shapeOf name e = .ok (collection, .complex, some type) := by
  have hitem : (if e.primitiveItemType.isSome then none else e.itemType) = some type ↔
      itemOf name e = .ok (.complex, some type) := by
    rw [itemOf_eq_complex_iff]
    cases e.primitiveItemType <;> simp
  have hmap (kind : Collection) : (∃ collection,
      (itemOf name e).map (kind, ·) = .ok (collection, .complex, some type)) ↔
        itemOf name e = .ok (.complex, some type) := by
    cases itemOf name e <;> simp [Except.map]
  unfold Entry.complexType? shapeOf
  cases hmark : e.type with
  | none =>
    cases e.primitiveType with
    | none => simp
    | some tag => cases hp : primitiveOf name tag <;> simp [hp, Except.map]
  | some mark =>
    by_cases hlist : mark = listMark
    · simp only [hlist, Option.bind_some, true_or, if_true]
      rw [hitem, hmap]
    · by_cases hm : mark = mapMark
      · have hne : mapMark ≠ listMark := by decide
        simp only [hm, hne, Option.bind_some, or_true, if_true, if_false]
        rw [hitem, hmap]
      · simp [hlist, hm]

theorem scope_of_describe (h : describe name scope e = .ok p) : p.scope = scope := by
  obtain ⟨collection, item, type?, -, rfl⟩ := describe_eq_ok h
  rfl

theorem complexType?_of_describe (h : describe name scope e = .ok p) :
    p.complexType? = e.complexType? := by
  obtain ⟨collection, item, type?, hshape, rfl⟩ := describe_eq_ok h
  have hcomplex := (wellShaped_of_shapeOf hshape).complex_iff
  refine Option.ext fun type ↦ ?_
  rw [complexType?_eq_some_iff name, hshape]
  cases item <;> cases type? <;> simp_all

theorem exists_describe (h : e.complexType? = some type) (name scope : String) :
    ∃ p, describe name scope e = .ok p := by
  obtain ⟨collection, hshape⟩ := (complexType?_eq_some_iff name).mp h
  simp [describe, hshape, Except.map]

end Property

namespace Specification

variable {s : Specification} {p : Property} {type : String}

/-- What a name stands for within a resource type, by the keys of the specification. -/
def typeFor? (s : Specification) (resource type : String) : Option PropertyType :=
  (s.propertyTypes.get? (resource ++ "." ++ type)).or (s.propertyTypes.get? type)

theorem nested_own (hp : p.complexType? = some type) {own : PropertyType}
    (h : s.propertyTypes.get? (p.scope ++ "." ++ type) = some own) :
    s.nested p = .ok ⟨p.scope ++ "." ++ type, p.scope, some own.properties⟩ := by
  simp [nested, hp, propertyType?, Vocabulary.nestedTypeSeparator, h]

theorem nested_shared (hp : p.complexType? = some type)
    (hown : s.propertyTypes.get? (p.scope ++ "." ++ type) = none) {shared : PropertyType}
    (h : s.propertyTypes.get? type = some shared) :
    s.nested p = .ok ⟨type, p.scope, some shared.properties⟩ := by
  simp [nested, hp, propertyType?, Vocabulary.nestedTypeSeparator, hown, h]

theorem nested_unresolved (hp : p.complexType? = some type)
    (hown : s.propertyTypes.get? (p.scope ++ "." ++ type) = none)
    (h : s.propertyTypes.get? type = none) :
    s.nested p = .error (.unresolvedType type p.scope) := by
  simp [nested, hp, propertyType?, Vocabulary.nestedTypeSeparator, hown, h]

theorem nested_property?_iff {name : String} {q : Property} :
    (∃ c, s.nested p = .ok c ∧ c.property? name = .ok (some q)) ↔
      ∃ type t e, p.complexType? = some type ∧ s.typeFor? p.scope type = some t ∧
        t.properties.get? name = some e ∧ Property.describe name p.scope e = .ok q := by
  cases hp : p.complexType? with
  | none => simp [nested, hp]
  | some type =>
    unfold typeFor?
    cases hown : s.propertyTypes.get? (p.scope ++ "." ++ type) with
    | some own =>
      rw [nested_own hp hown]
      simp [Container.property?, Property.find?_eq_ok_some_iff, hown]
    | none =>
      cases hshared : s.propertyTypes.get? type with
      | some shared =>
        rw [nested_shared hp hown hshared]
        simp [Container.property?, Property.find?_eq_ok_some_iff, hown, hshared]
      | none =>
        rw [nested_unresolved hp hown hshared]
        simp [hown, hshared]

end Specification

/-- Lookups one after the other: of a property or an attribute of a resource type, then of
properties of the types that these lead to. -/
inductive LookupPath where
  | ofProperty (name : String)
  | ofAttribute (name : String)
  | further (path : LookupPath) (name : String)

namespace LookupPath

variable {s : Specification} {shape : ResourceShape} {resource : String}

def name : LookupPath → String
  | ofProperty name | ofAttribute name | further _ name => name

def run (s : Specification) (shape : ResourceShape) :
    LookupPath → Except Inconsistency (Option Property)
  | ofProperty name => shape.container.property? name
  | ofAttribute name => shape.attribute? name
  | further path name =>
    match path.run s shape with
    | .error cause => .error cause
    | .ok none => .ok none
    | .ok (some p) => (s.nested p).bind fun c ↦ c.property? name

/-- The entry that a path comes to when every name of a type on it is read within the resource type
at its head. -/
def listed? (s : Specification) (resource : String) : LookupPath → Option Entry
  | ofProperty name => (s.resourceTypes.get? resource).bind fun t ↦ t.properties.get? name
  | ofAttribute name => (s.resourceTypes.get? resource).bind fun t ↦ t.attributes.get? name
  | further path name => do
    let e ← path.listed? s resource
    let t ← s.typeFor? resource (← e.complexType?)
    t.properties.get? name

theorem run_further {path : LookupPath} {p : Property} (h : path.run s shape = .ok (some p))
    (name : String) : (further path name).run s shape =
      (s.nested p).bind fun c ↦ c.property? name := by
  simp only [run, h]

theorem run_further_eq_ok_some_iff {path : LookupPath} {name : String} {q : Property} :
    (further path name).run s shape = .ok (some q) ↔ ∃ p, path.run s shape = .ok (some p) ∧
      ∃ c, s.nested p = .ok c ∧ c.property? name = .ok (some q) := by
  cases hrun : path.run s shape with
  | error cause => simp [run, hrun]
  | ok found =>
    cases found with
    | none => simp [run, hrun]
    | some p => cases hn : s.nested p <;> simp [run, hrun, hn, Except.bind]

theorem run_eq_ok_some_iff {t : ResourceType} (ht : s.resourceTypes.get? resource = some t)
    {path : LookupPath} {q : Property} : path.run s ⟨resource, some t⟩ = .ok (some q) ↔
      ∃ e, path.listed? s resource = some e ∧ Property.describe path.name resource e = .ok q := by
  induction path generalizing q with
  | ofProperty name => simp [run, listed?, ht, Container.property?, ResourceShape.container,
      Property.find?_eq_ok_some_iff, LookupPath.name]
  | ofAttribute name => simp [run, listed?, ht, ResourceShape.attribute?,
      Property.find?_eq_ok_some_iff, LookupPath.name]
  | further path name ih =>
    rw [run_further_eq_ok_some_iff]
    constructor
    · rintro ⟨p, hp, hnested⟩
      obtain ⟨e, he, hdescribe⟩ := ih.mp hp
      obtain ⟨type, u, e', htype, hu, he', hq⟩ := Specification.nested_property?_iff.mp hnested
      rw [Property.complexType?_of_describe hdescribe] at htype
      -- a property carries the resource type at the head on, not the type that it was found in
      rw [Property.scope_of_describe hdescribe] at hu hq
      exact ⟨e', by simp [listed?, he, htype, hu, he'], hq⟩
    · rintro ⟨e', he', hq⟩
      simp only [listed?, bind, Option.bind_eq_some_iff] at he'
      obtain ⟨e, he, type, htype, u, hu, he'⟩ := he'
      obtain ⟨p, hdescribe⟩ := Property.exists_describe htype path.name resource
      refine ⟨p, ih.mpr ⟨e, he, hdescribe⟩, Specification.nested_property?_iff.mpr ?_⟩
      rw [Property.complexType?_of_describe hdescribe, Property.scope_of_describe hdescribe]
      exact ⟨type, u, e', htype, hu, he', hq⟩

/-- From where a path has come to, one goes on to the fields of the property type filed under `key`,
and to nothing else. -/
structure Opens (s : Specification) (shape : ResourceShape) (path : LookupPath) (p : Property)
    (key : String) (t : PropertyType) : Prop where
  nested : s.nested p = .ok ⟨key, shape.name, some t.properties⟩
  absent : ∀ name, t.properties.get? name = none → (further path name).run s shape = .ok none
  present : ∀ name e, t.properties.get? name = some e →
    (further path name).run s shape = (Property.describe name shape.name e).map some

theorem opens_of_nested {path : LookupPath} {p : Property} {key : String} {t : PropertyType}
    (hp : path.run s shape = .ok (some p))
    (h : s.nested p = .ok ⟨key, shape.name, some t.properties⟩) : Opens s shape path p key t where
  nested := h
  absent name hname := by
    rw [run_further hp, h]
    simp [Except.bind, Container.property?, Property.find?, hname]
  present name e hname := by
    rw [run_further hp, h]
    simp [Except.bind, Container.property?, Property.find?, hname]

/-- Lookups that set out from a resource type find what the entries say that they come to, however
long the path. Where such an entry names a type, one goes on to the type of that name that belongs
to the resource type at the head of the path; if it has none, to the shared type of that name; and
if there is none either, the failure tells the resource type at the head and the name. -/
theorem types_looked_up_for_head {directory : Directory} {resource : String}
    (h : directory.resolve? resource = some shape) (hw : shape.isWildcard = false)
    (path : LookupPath) :
    (∀ p, path.run directory.specification shape = .ok (some p) ↔
      ∃ e, path.listed? directory.specification resource = some e ∧
        Property.describe path.name resource e = .ok p) ∧
    ∀ e type, path.listed? directory.specification resource = some e →
      e.complexType? = some type →
      ∃ p, path.run directory.specification shape = .ok (some p) ∧ p.complexType? = some type ∧
        (∀ own, directory.specification.propertyTypes.get? (resource ++ "." ++ type) = some own →
          Opens directory.specification shape path p (resource ++ "." ++ type) own) ∧
        (directory.specification.propertyTypes.get? (resource ++ "." ++ type) = none →
          (∀ shared, directory.specification.propertyTypes.get? type = some shared →
            Opens directory.specification shape path p type shared) ∧
          (directory.specification.propertyTypes.get? type = none →
            directory.specification.nested p = .error (.unresolvedType type resource) ∧
            ∀ name, (further path name).run directory.specification shape =
              .error (.unresolvedType type resource))) := by
  obtain rfl | ⟨t, ht, rfl⟩ := Directory.resolve?_cases h
  · simp [ResourceShape.isWildcard] at hw
  refine ⟨fun p ↦ run_eq_ok_some_iff ht, fun e type he htype ↦ ?_⟩
  obtain ⟨p, hdescribe⟩ := Property.exists_describe htype path.name resource
  have hp := (run_eq_ok_some_iff ht).mpr ⟨e, he, hdescribe⟩
  obtain rfl : p.scope = resource := Property.scope_of_describe hdescribe
  rw [← Property.complexType?_of_describe hdescribe] at htype
  refine ⟨p, hp, htype, fun own hown ↦ ?_, fun hown ↦ ⟨fun shared hshared ↦ ?_, fun hnone ↦ ?_⟩⟩
  · exact opens_of_nested hp (Specification.nested_own htype hown)
  · exact opens_of_nested hp (Specification.nested_shared htype hown hshared)
  · have hnested := Specification.nested_unresolved htype hown hnone
    refine ⟨hnested, fun name ↦ ?_⟩
    rw [run_further hp, hnested]
    rfl

def stocked : Specification :=
  { Specification.blank with
    resourceTypes := .ofList [("Acme::Shop",
      (ResourceType.blank.withProperty "Stock" (.listOf "Shelf")).withAttribute "Till"
        (.complex "Purse"))]
    propertyTypes := .ofList [
      ("Item", PropertyType.blank.withProperty "Weight" .string),
      ("Shelf", PropertyType.blank.withProperty "Front" (.complex "Item")),
      ("Shelf.Item", PropertyType.blank.withProperty "Colour" .string),
      ("Acme::Shop.Item", PropertyType.blank.withProperty "Price" .string)] }

/-- The way to the items leads through the shared type of shelves, and still comes to the items of
the shop. What is in the till is described nowhere. -/
theorem types_looked_up_for_head_stocked :
    ∃ shape, (Directory.ofSpecification stocked).resolve? "Acme::Shop" = some shape ∧
      shape.isWildcard = false ∧
      (∃ p, (further (.ofProperty "Stock") "Front").run stocked shape = .ok (some p) ∧
        Opens stocked shape (further (.ofProperty "Stock") "Front") p "Acme::Shop.Item"
          (PropertyType.blank.withProperty "Price" .string)) ∧
      ∃ p, (ofAttribute "Till").run stocked shape = .ok (some p) ∧
        stocked.nested p = .error (.unresolvedType "Purse" "Acme::Shop") := by
  obtain ⟨shape, hshape, hw⟩ : ∃ shape,
      (Directory.ofSpecification stocked).resolve? "Acme::Shop" = some shape ∧
        shape.isWildcard = false := ⟨_, rfl, rfl⟩
  refine ⟨shape, hshape, hw, ?_, ?_⟩
  · obtain ⟨p, hp, -, hown, -⟩ := (types_looked_up_for_head hshape hw
      (further (.ofProperty "Stock") "Front")).2 (.complex "Item") "Item"
      (by decide +kernel) (by decide +kernel)
    exact ⟨p, hp, hown _ (by decide +kernel)⟩
  · obtain ⟨p, hp, -, -, hnone⟩ := (types_looked_up_for_head hshape hw (.ofAttribute "Till")).2
      (.complex "Purse") "Purse" (by decide +kernel) (by decide +kernel)
    exact ⟨p, hp, ((hnone (by decide +kernel)).2 (by decide +kernel)).1⟩

end LookupPath

end InfraModule.Provider
