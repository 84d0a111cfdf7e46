import InfraModule.Registry

namespace InfraModule.Provider

/-- The entry of one property or attribute. `type` is the mark of a collection or the name of a
property type; the items of a collection are described by the two item fields. -/
structure Entry where
  type : Option String
  primitiveType : Option String
  itemType : Option String
  primitiveItemType : Option String
  required : Bool
  duplicatesAllowed : Bool
  updateType : Option String
  documentation : Option String
  deriving DecidableEq

def listMark : String := "List"

def mapMark : String := "Map"

namespace Entry

def blank : Entry := ⟨none, none, none, none, false, false, none, none⟩

def primitive (tag : String) : Entry := { blank with primitiveType := some tag }

def complex (type : String) : Entry := { blank with type := some type }

def listOfPrimitive (tag : String) : Entry :=
  { blank with type := some listMark, primitiveItemType := some tag }

def listOf (type : String) : Entry := { blank with type := some listMark, itemType := some type }

def mapOfPrimitive (tag : String) : Entry :=
  { blank with type := some mapMark, primitiveItemType := some tag }

def mapOf (type : String) : Entry := { blank with type := some mapMark, itemType := some type }

def string : Entry := primitive "String"

def require (e : Entry) : Entry := { e with required := true }

def allowDuplicates (e : Entry) : Entry := { e with duplicatesAllowed := true }

end Entry

structure ResourceType where
  documentation : Option String
  properties : Registry Entry
  attributes : Registry Entry
  deriving DecidableEq

namespace ResourceType

def blank : ResourceType := ⟨none, .empty, .empty⟩

def withProperty (t : ResourceType) (name : String) (entry : Entry) : ResourceType :=
  { t with properties := t.properties.put name entry }

def withAttribute (t : ResourceType) (name : String) (entry : Entry) : ResourceType :=
  { t with attributes := t.attributes.put name entry }

end ResourceType

structure PropertyType where
  documentation : Option String
  properties : Registry Entry
  deriving DecidableEq

namespace PropertyType

def blank : PropertyType := ⟨none, .empty⟩

def withProperty (t : PropertyType) (name : String) (entry : Entry) : PropertyType :=
  { t with properties := t.properties.put name entry }

end PropertyType

structure Specification where
  version : Option String
  resourceTypes : Registry ResourceType
  /-- Filed under the name of the one resource type that uses it and its own, or under its own
  name alone. -/
  propertyTypes : Registry PropertyType
  deriving DecidableEq

namespace Specification

def blank : Specification := ⟨none, .empty, .empty⟩

def withResourceType (s : Specification) (name : String) (type : ResourceType) : Specification :=
  { s with resourceTypes := s.resourceTypes.put name type }

def withPropertyType (s : Specification) (name : String) (type : PropertyType) : Specification :=
  { s with propertyTypes := s.propertyTypes.put name type }

end Specification

end InfraModule.Provider
