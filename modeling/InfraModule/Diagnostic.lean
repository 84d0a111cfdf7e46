import InfraModule.Location

namespace InfraModule

inductive Severity where
  | error
  | warning
  | info
  | hint
  deriving DecidableEq

def Severity.label : Severity → String
  | error => "ERROR"
  | warning => "WARNING"
  | info => "INFO"
  | hint => "HINT"

structure Diagnostic where
  severity : Severity
  code : Option String
  message : String
  location : Option Location
  deriving DecidableEq

namespace Diagnostic

def render (d : Diagnostic) : String :=
  d.location.elim "" (fun l ↦ l.render ++ ": ") ++ d.severity.label ++
    d.code.elim "" (fun c ↦ " [" ++ c ++ "]") ++ ": " ++ d.message

def coded (location : Option Location) (code message : String) : Diagnostic :=
  ⟨.error, some code, message, location⟩

end Diagnostic

abbrev Log := List Diagnostic

namespace Log

def errors (log : Log) : Log := log.filter fun d ↦ d.severity = .error

def warnings (log : Log) : Log := log.filter fun d ↦ d.severity = .warning

def hasErrors (log : Log) : Bool := log.any fun d ↦ d.severity = .error

end Log

inductive Problem where
  | undefinedReference (name : String)
  | duplicateDeclaration (name : String) (previous : Option Location)
  | missingAttribute (attr : String)
  | conflictingAttribute (attr conflict : String)
  | circularDependency (path : String)
  | unknownResourceType (type : String)
  /-- The reason says what the reference would have to be. -/
  | invalidReference (reason : String)
  | invalidArn
  | unknownProperty (property container : String)
  | missingProperty (property container : String)
  deriving DecidableEq

namespace Problem

def code : Problem → String
  | undefinedReference _ => "E0001"
  | duplicateDeclaration _ _ => "E0004"
  | missingAttribute _ => "E0005"
  | circularDependency _ => "E0007"
  | unknownResourceType _ => "E0008"
  | invalidReference _ => "E0012"
  | conflictingAttribute _ _ => "E0015"
  | invalidArn => "E0016"
  | unknownProperty _ _ => "E0017"
  | missingProperty _ _ => "E0018"

def message : Problem → String
  | undefinedReference name => "undefined reference: '" ++ name ++ "'"
  | duplicateDeclaration name previous =>
    "duplicate declaration: '" ++ name ++ "' is already declared" ++
      previous.elim "" (fun l ↦ " at " ++ l.render)
  | missingAttribute attr => "missing '" ++ attr ++ "' attribute"
  | conflictingAttribute attr conflict =>
    "'" ++ attr ++ "' attribute cannot be used with '" ++ conflict ++ "'"
  | circularDependency path => "circular dependency: " ++ path
  | unknownResourceType type => "unknown resource type '" ++ type ++ "'"
  | invalidReference reason => reason
  | invalidArn => "'Value' must be an ARN or '*'"
  | unknownProperty property container =>
    "unknown property '" ++ property ++ "' for '" ++ container ++ "'"
  | missingProperty property container =>
    "missing required property '" ++ property ++ "' for '" ++ container ++ "'"

def report (p : Problem) (location : Option Location) : Diagnostic :=
  .coded location p.code p.message

end Problem

end InfraModule
