import InfraModule.Identifier
import InfraModule.Location
import InfraModule.Registry

namespace InfraModule

inductive ExprKind where
  | literal (text : String)
  | list (items : List ExprId)
  | object (fields : Registry ExprId)
  | reference (name : String)
  | getAttribute (name attr : String)
  | conditionReference (name : String)
  | findInMap (mapping : String) (top second : ExprId)
  deriving DecidableEq

/-- What an expression refers to, when it refers to a declaration. -/
inductive Reference where
  | value (name : String)
  | attributeOf (name attr : String)
  | condition (name : String)
  | mapping (name : String)
  deriving DecidableEq

def Reference.name : Reference → String
  | .value name | .attributeOf name _ | .condition name | .mapping name => name

namespace ExprKind

def children : ExprKind → List ExprId
  | list items => items
  | object fields => fields.values
  | findInMap _ top second => [top, second]
  | literal _ | reference _ | getAttribute _ _ | conditionReference _ => []

def reference? : ExprKind → Option Reference
  | reference name => some (.value name)
  | getAttribute name attr => some (.attributeOf name attr)
  | conditionReference name => some (.condition name)
  | findInMap mapping _ _ => some (.mapping mapping)
  | literal _ | list _ | object _ => none

def literal? : ExprKind → Option String
  | literal text => some text
  | _ => none

def fields? : ExprKind → Option (Registry ExprId)
  | object fields => some fields
  | _ => none

end ExprKind

structure Expression where
  /-- The declaration that holds the expression. -/
  owner : DeclId
  location : Option Location
  /-- The declaration that the expression was found to refer to. -/
  target : Option DeclId
  kind : ExprKind
  deriving DecidableEq

end InfraModule
