import InfraModule.Arn
import InfraModule.Context
import InfraModule.Outcome
import InfraModule.Resource.Conformance

namespace InfraModule

open Vocabulary

namespace Resource

def valueType (e : Expression) : String :=
  match e.kind with
  | .list _ => listValueType
  | _ => scalarValueType

end Resource

namespace Tree

/-- Fills in what a resource may leave out: the type of an external one, and the properties of a
managed one, which are then an object without fields. -/
def completeResource (t : Tree) (id : DeclId) : Tree :=
  match t.decl? id with
  | none => t
  | some d =>
    match d.kind.resource? with
    | none => t
    | some r =>
      match r.value, r.type, r.properties with
      | some value, none, _ =>
        (t.expr? value).elim t fun e ↦ t.modifyDecl id fun d ↦
          { d with kind := d.kind.mapResource ({ · with type := some (Resource.valueType e) }) }
      | none, some _, none =>
        let (object, t) := t.addOwnedExpression id (.object .empty) d.location
        t.modifyDecl id fun d ↦
          { d with kind := d.kind.mapResource ({ · with properties := some object }) }
      | _, _, _ => t

end Tree

namespace Resource

/-- Whether an expression can stand where an ARN is expected. What it refers to is known at
deployment time alone. -/
def mayBeArn : ExprKind → Bool
  | .literal text => Arn.isArnOrWildcard text
  | .reference _ | .getAttribute _ _ | .findInMap _ _ _ => true
  | .list _ | .object _ | .conditionReference _ => false

def checkArn (t : Tree) (id : ExprId) : Findings :=
  match t.expr? id with
  | none => .halted .dangling
  | some e => if mayBeArn e.kind then .clean else .problem .invalidArn (t.locationOf id)

def checkValue (t : Tree) (id : ExprId) : Findings :=
  match t.expr? id with
  | none => .halted .dangling
  | some e =>
    match e.kind with
    | .list items => .each (checkArn t) items
    | _ => checkArn t id

def checkDeclared (t : Tree) (type : String) (declared : List String) (object : ExprId) :
    Findings :=
  match t.fieldsOf object with
  | none => .clean
  | some fields =>
    ⟨(fields.entries.filter (fun e ↦ !declared.contains e.1)).map fun e ↦
      (Problem.unknownProperty e.1 type).report (t.locationOf e.2), none⟩

def checkManaged (ctx : Context) (t : Tree) (location : Option Location) (type : String)
    (object : ExprId) : Findings :=
  match ctx.directory.resolve? type with
  | some shape => checkObject ctx.directory.specification t object shape.container
  | none =>
    match ctx.symbols.get? type with
    | none => .problem (.unknownResourceType type) location
    | some id =>
      match t.decl? id with
      | none => .halted .dangling
      | some d =>
        match d.kind with
        | .resourceType _ declared _ => checkDeclared t type declared object
        | _ => .problem (.unknownResourceType type) location

def checkConflicts (location : Option Location) (r : Resource) : Findings :=
  ⟨(r.condition.toList.map fun _ ↦
      (Problem.conflictingAttribute "If" "Value").report location) ++
    (r.properties.toList.map fun _ ↦
      (Problem.conflictingAttribute "Properties" "Value").report location), none⟩

def review (ctx : Context) (t : Tree) (location : Option Location) (r : Resource) : Findings :=
  match r.value, r.type, r.properties with
  | some value, _, _ => (checkConflicts location r).andThen fun _ ↦ checkValue t value
  | none, some type, some object =>
    if ctx.options.checkProperties then checkManaged ctx t location type object else .clean
  | none, some _, none => .clean
  | none, none, _ => .problem (.missingAttribute "Type") location

end Resource

namespace Workspace

def reviewDeclaration (ctx : Context) (w : Workspace) (id : DeclId) : Outcome Workspace :=
  let t := w.tree.completeResource id
  match t.decl? id with
  | none => .error ⟨.dangling, w⟩
  | some d =>
    match d.kind.resource? with
    | none => .ok w
    | some r =>
      let found := r.review ctx t d.location
      let w : Workspace := ⟨t, w.log ++ found.log⟩
      match found.fault with
      | none => .ok w
      | some fault => .error ⟨fault, w⟩

def reviewResources (ctx : Context) (w : Workspace) : Outcome Workspace :=
  Outcome.inTurn (reviewDeclaration ctx) w w.tree.walk

end Workspace

end InfraModule
