import InfraModule.Identifier

namespace InfraModule

/-- A promise of the module tree or of the provider's specification that was not kept. -/
inductive Inconsistency where
  | containmentCycle (name : String)
  | missingParent (name : String)
  | parentMismatch (name container parent : String)
  | missingLocation (name : String)
  | unknownNode (sort : NodeSort) (index : Nat)
  | unresolvedType (typeName resourceType : String)
  | notComplex (property : String)
  | jsonItem (property : String)
  | missingItem (property : String)
  | unknownPrimitive (property tag : String)
  | unexpectedKind (kind name : String)
  deriving DecidableEq

namespace Inconsistency

def message : Inconsistency → String
  | containmentCycle name => "declaration tree contains a cycle through '" ++ name ++ "'"
  | missingParent name => "declaration '" ++ name ++ "' has no parent"
  | parentMismatch name container parent =>
    "declaration '" ++ name ++ "' is contained by '" ++ container ++ "' but its parent is '" ++
      parent ++ "'"
  | missingLocation name => "declaration '" ++ name ++ "' has no source location"
  | unknownNode sort index => "unknown " ++ sort.label ++ " id " ++ toString index
  | unresolvedType typeName resourceType =>
    "complex type '" ++ typeName ++ "' of resource type '" ++ resourceType ++
      "' is not in the specification"
  | notComplex property => "property '" ++ property ++ "' does not have a complex item type"
  | jsonItem property => "property '" ++ property ++ "' uses Json as a collection item type"
  | missingItem property =>
    "property '" ++ property ++ "' has neither a primitive nor a complex type"
  | unknownPrimitive property tag =>
    "property '" ++ property ++ "' has unknown primitive type '" ++ tag ++ "'"
  | unexpectedKind kind name => "unexpected " ++ kind ++ " declaration '" ++ name ++ "'"

end Inconsistency

inductive Fault where
  | inconsistent (cause : Inconsistency)
  /-- A node was followed that is not in the tree. -/
  | dangling
  /-- A value holds itself, and so does its type: no check of it ends. -/
  | endless
  deriving DecidableEq

end InfraModule
