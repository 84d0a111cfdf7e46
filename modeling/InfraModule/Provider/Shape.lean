import InfraModule.Fault
import InfraModule.Provider.Specification
import InfraModule.Vocabulary

namespace InfraModule.Provider

open Vocabulary

inductive Primitive where
  | string
  | long
  | integer
  | double
  | boolean
  | timestamp
  | json
  deriving DecidableEq

namespace Primitive

def tag : Primitive → String
  | string => "String"
  | long => "Long"
  | integer => "Integer"
  | double => "Double"
  | boolean => "Boolean"
  | timestamp => "Timestamp"
  | json => "Json"

def all : List Primitive := [string, long, integer, double, boolean, timestamp, json]

def ofTag? (tag : String) : Option Primitive := all.find? (fun p ↦ p.tag = tag)

end Primitive

inductive Collection where
  | single
  | list
  | map
  deriving DecidableEq

inductive Item where
  | primitive (type : Primitive)
  | complex
  deriving DecidableEq

structure Property where
  name : String
  /-- The resource type for which property types are looked up. -/
  scope : String
  collection : Collection
  item : Item
  /-- The property type of complex items, as the specification names it. -/
  complexType? : Option String
  required : Bool
  duplicatesAllowed : Bool
  deriving DecidableEq

structure Container where
  name : String
  scope : String
  /-- The properties; a wildcard has no entries, and so has every property and requires none. -/
  entries : Option (Registry Entry)
  deriving DecidableEq

structure ResourceShape where
  name : String
  type : Option ResourceType
  deriving DecidableEq

namespace Property

def unconstrained (name scope : String) : Property :=
  ⟨name, scope, .single, .primitive .json, none, false, true⟩

def primitiveOf (name tag : String) : Except Inconsistency Primitive :=
  match Primitive.ofTag? tag with
  | some p => .ok p
  | none => .error (.unknownPrimitive name tag)

/-- The items of a collection. Free-form items are not allowed in one. -/
def itemOf (name : String) (e : Entry) : Except Inconsistency (Item × Option String) :=
  match e.primitiveItemType, e.itemType with
  | some tag, _ => do
    match ← primitiveOf name tag with
    | .json => .error (.jsonItem name)
    | p => .ok (.primitive p, none)
  | none, some type => .ok (.complex, some type)
  | none, none => .error (.missingItem name)

def shapeOf (name : String) (e : Entry) :
    Except Inconsistency (Collection × Item × Option String) :=
  match e.type, e.primitiveType with
  | some type, _ =>
    if type = listMark then (itemOf name e).map (Collection.list, ·)
    else if type = mapMark then (itemOf name e).map (Collection.map, ·)
    else .ok (.single, .complex, some type)
  | none, some tag => (primitiveOf name tag).map fun p ↦ (.single, .primitive p, none)
  | none, none => .error (.missingItem name)

def describe (name scope : String) (e : Entry) : Except Inconsistency Property :=
  (shapeOf name e).map fun (collection, item, complexType?) ↦
    ⟨name, scope, collection, item, complexType?, e.required, e.duplicatesAllowed⟩

def find? (entries : Option (Registry Entry)) (name scope : String) :
    Except Inconsistency (Option Property) :=
  match entries with
  | none => .ok (some (unconstrained name scope))
  | some entries =>
    match entries.get? name with
    | none => .ok none
    | some e => (describe name scope e).map some

end Property

namespace Container

def property? (c : Container) (name : String) : Except Inconsistency (Option Property) :=
  Property.find? c.entries name c.scope

def propertyNames (c : Container) : List String := c.entries.elim [] Registry.names

def required (c : Container) : List String :=
  c.entries.elim [] fun r ↦ (r.entries.filter fun e ↦ e.2.required).map Prod.fst

end Container

namespace ResourceShape

def isWildcard (s : ResourceShape) : Bool := s.type.isNone

def container (s : ResourceShape) : Container := ⟨s.name, s.name, s.type.map (·.properties)⟩

def attribute? (s : ResourceShape) (name : String) : Except Inconsistency (Option Property) :=
  Property.find? (s.type.map (·.attributes)) name s.name

end ResourceShape

namespace Specification

/-- The property type that a name stands for within a resource type: its own one of that name
before one that is shared. -/
def propertyType? (s : Specification) (scope type : String) : Option (String × PropertyType) :=
  let ownName := scope ++ nestedTypeSeparator ++ type
  match s.propertyTypes.get? ownName with
  | some t => some (ownName, t)
  | none => (s.propertyTypes.get? type).map (type, ·)

def nested (s : Specification) (p : Property) : Except Inconsistency Container :=
  match p.complexType? with
  | none => .error (.notComplex p.name)
  | some type =>
    match s.propertyType? p.scope type with
    | none => .error (.unresolvedType type p.scope)
    | some (name, t) => .ok ⟨name, p.scope, some t.properties⟩

end Specification

end InfraModule.Provider
