import InfraModule.Provider.Shape
import Mathlib.Logic.Basic

namespace InfraModule.Provider

theorem eq_error_of_map {ε α β : Type} {x : Except ε α} {f : α → β} {e : ε}
    (h : x.map f = .error e) : x = .error e := by
  cases x with
  | error =>
    cases h
    rfl
  | ok => cases h

theorem eq_ok_of_map {ε α β : Type} {x : Except ε α} {f : α → β} {b : β} (h : x.map f = .ok b) :
    ∃ a, x = .ok a ∧ f a = b := by
  cases x with
  | error => cases h
  | ok a =>
    cases h
    exact ⟨a, rfl, rfl⟩

namespace Property

variable {name scope tag : String} {e : Entry} {p : Property} {collection : Collection}
  {item : Item} {type? : Option String}

/-- How the parts of a property that are read off an entry fit together. -/
structure WellShaped (collection : Collection) (item : Item) (type? : Option String) : Prop where
  complex_iff : item = .complex ↔ type?.isSome
  items : collection ≠ .single → item ≠ .primitive .json

theorem wellShaped_complex (collection : Collection) (type : String) :
    WellShaped collection .complex (some type) := ⟨by simp, by simp⟩

theorem wellShaped_primitive {primitive : Primitive}
    (h : collection ≠ .single → primitive ≠ .json) :
    WellShaped collection (.primitive primitive) none := ⟨by simp, by simpa using h⟩

theorem wellShaped_of_itemOf (h : itemOf name e = .ok (item, type?)) (collection : Collection) :
    WellShaped collection item type? := by
  unfold itemOf at h
  split at h
  next tag _ =>
    cases hp : primitiveOf name tag with
    | error cause => simp [hp, bind, Except.bind] at h
    | ok primitive =>
      simp only [hp, bind, Except.bind] at h
      split at h
      next => cases h
      next hne =>
        cases h
        exact wellShaped_primitive fun _ ↦ hne
  next =>
    cases h
    exact wellShaped_complex collection _
  next => cases h

theorem wellShaped_of_shapeOf (h : shapeOf name e = .ok (collection, item, type?)) :
    WellShaped collection item type? := by
  have hitems (kind : Collection)
      (h : (itemOf name e).map (kind, ·) = .ok (collection, item, type?)) :
      WellShaped collection item type? := by
    obtain ⟨_, hitem, hparts⟩ := eq_ok_of_map h
    cases hparts
    exact wellShaped_of_itemOf hitem collection
  unfold shapeOf at h
  split at h
  next =>
    split at h
    next => exact hitems .list h
    next =>
      split at h
      next => exact hitems .map h
      next =>
        cases h
        exact wellShaped_complex .single _
  next =>
    obtain ⟨_, -, hparts⟩ := eq_ok_of_map h
    cases hparts
    exact wellShaped_primitive fun hc ↦ absurd rfl hc
  next => cases h

theorem describe_eq_ok (h : describe name scope e = .ok p) :
    ∃ collection item type?, shapeOf name e = .ok (collection, item, type?) ∧
      p = ⟨name, scope, collection, item, type?, e.required, e.duplicatesAllowed⟩ := by
  obtain ⟨⟨collection, item, type?⟩, hshape, rfl⟩ := eq_ok_of_map h
  exact ⟨collection, item, type?, hshape, rfl⟩

theorem find?_eq_ok_some_iff {entries : Registry Entry} :
    find? (some entries) name scope = .ok (some p) ↔
      ∃ e, entries.get? name = some e ∧ describe name scope e = .ok p := by
  cases he : entries.get? name with
  | none => simp [find?, he]
  | some e => cases hd : describe name scope e <;> simp [find?, he, hd, Except.map]

theorem wellShaped_of_find? {entries : Option (Registry Entry)}
    (h : find? entries name scope = .ok (some p)) :
    WellShaped p.collection p.item p.complexType? := by
  cases entries with
  | none =>
    cases h
    exact wellShaped_primitive fun hc ↦ absurd rfl hc
  | some entries =>
    obtain ⟨e, -, hdescribe⟩ := find?_eq_ok_some_iff.mp h
    obtain ⟨collection, item, type?, hshape, rfl⟩ := describe_eq_ok hdescribe
    exact wellShaped_of_shapeOf hshape

end Property

theorem Container.wellShaped_of_property? {c : Container} {name : String} {p : Property}
    (h : c.property? name = .ok (some p)) :
    Property.WellShaped p.collection p.item p.complexType? := Property.wellShaped_of_find? h

theorem Specification.isSome_of_nested {s : Specification} {p : Property} {c : Container}
    (h : s.nested p = .ok c) : p.complexType?.isSome := by
  cases hp : p.complexType? with
  | none => simp [nested, hp] at h
  | some => rfl

end InfraModule.Provider
