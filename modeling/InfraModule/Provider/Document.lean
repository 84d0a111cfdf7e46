import InfraModule.Json.Basic
import InfraModule.Provider.Specification

namespace InfraModule.Provider

inductive LoadError where
  | unreadable
  | malformed
  deriving DecidableEq

namespace Document

abbrev Record := List (String × Json)

def named? (members : List (Option String × Json)) : Option Record :=
  members.mapM fun (name, value) ↦ name.map (·, value)

/-- Reads a record with the given fields. -/
def record? (fields : List String) : Json → Option Record
  | .object members => do
    let given := (← named? members).filter (fun m ↦ fields.contains m.1)
    if (given.map Prod.fst).Nodup then some given else none
  | .array items => if items.length ≤ fields.length then some (fields.zip items) else none
  | _ => none

def field {α : Type} (record : Record) (name : String) (read : Json → Option α) (missing : α) :
    Option α :=
  match record.lookup name with
  | none => some missing
  | some value => read value

def text? : Json → Option (Option String)
  | .null => some none
  | .string (some text) => some (some text)
  | _ => none

def flag? : Json → Option Bool
  | .bool value => some value
  | _ => none

/-- An object all of whose members are read alike. A repeated name counts at its first place with
its last value. -/
def table? {α : Type} (read : Json → Option α) : Json → Option (Registry α)
  | .object members => do
    let entries ← (← named? members).mapM fun (name, value) ↦ (read value).map (name, ·)
    return .ofList entries
  | _ => none

def entryFields : List String :=
  ["Type", "PrimitiveType", "ItemType", "PrimitiveItemType", "Required", "DuplicatesAllowed",
    "UpdateType", "Documentation"]

def entryOf? (j : Json) : Option Entry := do
  let r ← record? entryFields j
  return {
    type := ← field r "Type" text? none
    primitiveType := ← field r "PrimitiveType" text? none
    itemType := ← field r "ItemType" text? none
    primitiveItemType := ← field r "PrimitiveItemType" text? none
    required := ← field r "Required" flag? false
    duplicatesAllowed := ← field r "DuplicatesAllowed" flag? false
    updateType := ← field r "UpdateType" text? none
    documentation := ← field r "Documentation" text? none }

def resourceTypeFields : List String := ["Documentation", "Properties", "Attributes"]

def resourceType? (j : Json) : Option ResourceType := do
  let r ← record? resourceTypeFields j
  return {
    documentation := ← field r "Documentation" text? none
    properties := ← field r "Properties" (table? entryOf?) .empty
    attributes := ← field r "Attributes" (table? entryOf?) .empty }

def propertyTypeFields : List String := ["Documentation", "Properties"]

def propertyType? (j : Json) : Option PropertyType := do
  let r ← record? propertyTypeFields j
  return {
    documentation := ← field r "Documentation" text? none
    properties := ← field r "Properties" (table? entryOf?) .empty }

def specificationFields : List String :=
  ["ResourceSpecificationVersion", "ResourceTypes", "PropertyTypes"]

def specification? (j : Json) : Option Specification := do
  let r ← record? specificationFields j
  return {
    version := ← field r "ResourceSpecificationVersion" text? none
    resourceTypes := ← field r "ResourceTypes" (table? resourceType?) .empty
    propertyTypes := ← field r "PropertyTypes" (table? propertyType?) .empty }

end Document

namespace Specification

def ofText (text : String) : Except LoadError Specification :=
  match (Json.parse? text).bind Document.specification? with
  | some s => .ok s
  | none => .error .malformed

def ofFile (contents : Option ByteArray) : Except LoadError Specification :=
  match contents.bind String.fromUTF8? with
  | some text => ofText text
  | none => .error .unreadable

end Specification

end InfraModule.Provider
