import InfraModule.Context
import InfraModule.Fault

namespace InfraModule

open Vocabulary

inductive Rejection where
  | notParameter
  | notValue
  | notStackResource
  | notCondition
  | notMapping
  | noAttribute (type attr : String)
  deriving DecidableEq

def Rejection.message (name : String) : Rejection → String
  | notParameter => "'" ++ name ++ "' must be a parameter"
  | notValue => "'" ++ name ++ "' must be a resource, parameter, or variable"
  | notStackResource => "'" ++ name ++ "' must be a CloudFormation stack resource"
  | notCondition => "'" ++ name ++ "' must refer to a Condition"
  | notMapping => "'" ++ name ++ "' must refer to a Mapping"
  | noAttribute type attr =>
    "'" ++ name ++ "' of type '" ++ type ++ "' does not have attribute '" ++ attr ++ "'"

inductive Verdict where
  | alreadyBound
  | undefined
  | rejected (reason : Rejection)
  | bound (target : DeclId)
  deriving DecidableEq

namespace DeclKind

def hasValue (inCondition : Bool) : DeclKind → Bool
  | parameter .. | pseudoParameter .. => true
  | condition .. | mapping .. | resourceType .. | group | moduleRoot .. => false
  | var .. | resource .. | function .. | macroDef .. | importedModule .. | package ..
  | nestedModule .. => !inCondition

def isModuleRoot : DeclKind → Bool
  | moduleRoot .. => true
  | _ => false

end DeclKind

/-- The declaration that a name was found to stand for. No name stands for a module root. -/
def Tree.referent (t : Tree) (id : DeclId) : Except Fault Declaration :=
  match t.decl? id with
  | none => .error .dangling
  | some d =>
    if d.kind.isModuleRoot then .error (.inconsistent (.unexpectedKind d.kind.label d.fullName))
    else .ok d

namespace Context

/-- Whether resources of a type have an attribute. Of a type that nobody knows it is not asked
here: the review reports it where it is the type of a resource. -/
def hasAttribute (ctx : Context) (t : Tree) (type attr : String) : Except Fault Bool :=
  match ctx.directory.resolve? type with
  | some shape =>
    match shape.attribute? attr with
    | .ok p => .ok p.isSome
    | .error cause => .error (.inconsistent cause)
  | none =>
    match ctx.symbols.get? type with
    | none => .ok true
    | some id =>
      match t.decl? id with
      | none => .error .dangling
      | some d =>
        match d.kind with
        | .resourceType _ _ attributes => .ok (attributes.contains attr)
        | _ => .ok true

/-- The outputs of a nested module are its own matter and are not checked. -/
def checkAttribute (ctx : Context) (t : Tree) (kind : DeclKind) (attr : String) :
    Except Fault (Option Rejection) :=
  if !ctx.options.checkAttributes then .ok none
  else if kind.isNestedModule && beginsWith attr nestedStackOutputPrefix then .ok none
  else
    match kind.stackType? with
    | none => .ok none
    | some type =>
      (ctx.hasAttribute t type attr).map fun known ↦
        if known then none else some (.noAttribute type attr)

/-- Why a reference cannot refer to a declaration; `none` if it can. -/
def rejection? (ctx : Context) (t : Tree) (inCondition : Bool) (r : Reference)
    (target : Declaration) : Except Fault (Option Rejection) :=
  match r with
  | .value _ =>
    .ok (if target.kind.hasValue inCondition then none
      else if inCondition then some .notParameter
      else some .notValue)
  | .attributeOf _ attr =>
    if target.kind.isProvisioned then ctx.checkAttribute t target.kind attr
    else .ok (some .notStackResource)
  | .condition _ => .ok (if target.kind.isCondition then none else some .notCondition)
  | .mapping _ => .ok (if target.kind.isMapping then none else some .notMapping)

def judgeReference (ctx : Context) (t : Tree) (inCondition : Bool) (e : Expression)
    (r : Reference) : Except Fault Verdict :=
  if e.target.isSome then .ok .alreadyBound
  else
    match ctx.symbols.get? r.name with
    | none => .ok .undefined
    | some id => do
      let target ← t.referent id
      match ← ctx.rejection? t inCondition r target with
      | none => .ok (.bound id)
      | some reason => .ok (.rejected reason)

def judgeDependsOn (ctx : Context) (t : Tree) (name : String) : Except Fault Verdict :=
  match ctx.symbols.get? name with
  | none => .ok .undefined
  | some id => do
    let target ← t.referent id
    return if target.kind.isProvisioned then .bound id else .rejected .notStackResource

end Context

end InfraModule
