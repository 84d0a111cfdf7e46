import InfraModule.Findings
import InfraModule.Provider.Shape
import InfraModule.Tree.Basic

namespace InfraModule.Resource

open Provider

/-- The values within the value of a property that have the property's nested type: the value
itself, the items of a list or the entries of a map. There are none where the property is not
complex, or where the value is not written out. -/
def occurrences (t : Tree) (p : Property) (value : ExprId) : Except Fault (List ExprId) :=
  match p.item, t.expr? value with
  | .primitive _, _ => .ok []
  | .complex, none => .error .dangling
  | .complex, some e =>
    match p.collection, e.kind with
    | .single, .object _ => .ok [value]
    | .list, .list items => .ok items
    | .map, .object entries => .ok entries.values
    | _, _ => .ok []

def missingProperties (t : Tree) (object : ExprId) (fields : Registry ExprId) (c : Container) :
    Log :=
  (c.required.filter (fun name ↦ !fields.contains name)).map fun name ↦
    (Problem.missingProperty name c.name).report (t.locationOf object)

def checkWithin (s : Specification) (t : Tree) : Nat → ExprId → Container → Findings
  | 0, _, _ => .halted .endless
  | depth + 1, object, c =>
    match t.fieldsOf object with
    | none => .clean
    | some fields =>
      (Findings.each (fun (name, value) ↦
        match c.property? name with
        | .error cause => .halted (.inconsistent cause)
        | .ok none => .problem (.unknownProperty name c.name) (t.locationOf value)
        | .ok (some p) =>
          match occurrences t p value with
          | .error fault => .halted fault
          | .ok inner =>
            Findings.each (fun item ↦
              match s.nested p with
              | .error cause => .halted (.inconsistent cause)
              | .ok type => checkWithin s t depth item type) inner) fields.entries).andThen
        fun _ ↦ ⟨missingProperties t object fields c, none⟩

/-- No way down through an object is longer than this without coming to the same expression and
the same type twice, and from there on it would never end. -/
def depthBound (s : Specification) (t : Tree) : Nat :=
  t.expressions.size * (s.propertyTypes.size + 1) + 1

def checkObject (s : Specification) (t : Tree) (object : ExprId) (c : Container) : Findings :=
  checkWithin s t (depthBound s t) object c

end InfraModule.Resource
