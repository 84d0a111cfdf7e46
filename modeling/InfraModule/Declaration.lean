import InfraModule.Identifier
import InfraModule.Location
import InfraModule.Roster
import InfraModule.Vocabulary

namespace InfraModule

open Vocabulary

/-- A resource with a value names something that exists already; one with a type and no value is
provisioned with the module. -/
structure Resource where
  type : Option String
  value : Option ExprId
  condition : Option ExprId
  properties : Option ExprId
  dependsOn : List String
  deriving DecidableEq

namespace Resource

def isExternal (r : Resource) : Bool := r.value.isSome

def isManaged (r : Resource) : Bool := r.value.isNone && r.type.isSome

end Resource

inductive DeclKind where
  | moduleRoot (version description : Option String)
  | parameter (type : String) (default : Option String)
  | pseudoParameter (type : String)
  | var (type : Option String) (value : ExprId)
  | resource (body : Resource)
  | resourceType (handler : Option ExprId) (properties attributes : List String)
  | condition (value : ExprId)
  | mapping (value : ExprId)
  | function (condition environment properties : Option ExprId)
  | macroDef (handler : ExprId)
  | importedModule (source : String)
  | package (files : String)
  | group
  | nestedModule (source : String) (condition parameters : Option ExprId)
      (dependsOn : List String)
  deriving DecidableEq

namespace DeclKind

def label : DeclKind → String
  | moduleRoot .. => "module"
  | parameter .. => "parameter"
  | pseudoParameter .. => "pseudo-parameter"
  | var .. => "variable"
  | resource .. => "resource"
  | resourceType .. => "resource type"
  | condition .. => "condition"
  | mapping .. => "mapping"
  | function .. => "function"
  | macroDef .. => "macro"
  | importedModule .. => "import"
  | package .. => "package"
  | group => "group"
  | nestedModule .. => "nested module"

def roots : DeclKind → List ExprId
  | var _ value | condition value | mapping value => [value]
  | macroDef handler => [handler]
  | resource r => r.value.toList ++ r.condition.toList ++ r.properties.toList
  | resourceType handler _ _ => handler.toList
  | function guard environment body => guard.toList ++ environment.toList ++ body.toList
  | nestedModule _ guard parameters _ => guard.toList ++ parameters.toList
  | moduleRoot .. | parameter .. | pseudoParameter .. | importedModule .. | package .. | group => []

def dependsOn : DeclKind → List String
  | resource r => r.dependsOn
  | nestedModule _ _ _ names => names
  | _ => []

/-- Whether a declaration becomes a resource of the deployed stack. -/
def isProvisioned : DeclKind → Bool
  | resource r => r.isManaged
  | function .. | nestedModule .. => true
  | _ => false

def stackType? : DeclKind → Option String
  | resource r => if r.isManaged then r.type else none
  | function .. => some functionResourceType
  | nestedModule .. => some nestedStackResourceType
  | _ => none

def isCondition : DeclKind → Bool
  | condition _ => true
  | _ => false

def isMapping : DeclKind → Bool
  | mapping _ => true
  | _ => false

def isNestedModule : DeclKind → Bool
  | nestedModule .. => true
  | _ => false

def resource? : DeclKind → Option Resource
  | resource r => some r
  | _ => none

def mapResource (f : Resource → Resource) : DeclKind → DeclKind
  | resource r => resource (f r)
  | kind => kind

end DeclKind

inductive Origin where
  | expression (id : ExprId)
  | dependsOn
  deriving DecidableEq

structure Dependency where
  target : DeclId
  origin : Origin
  deriving DecidableEq

structure Declaration where
  name : String
  /-- The names on the way from below the root, joined. -/
  fullName : String
  parent : Option DeclId
  children : List DeclId
  location : Option Location
  dependencies : Roster Dependency
  missing : Roster String
  kind : DeclKind
  deriving DecidableEq

/-- The declarations that must be deployed first, in order of arrival. -/
def Declaration.dependsOnTargets (d : Declaration) : List DeclId :=
  (d.dependencies.toList.filter (fun e ↦ e.origin = .dependsOn)).map Dependency.target

end InfraModule
