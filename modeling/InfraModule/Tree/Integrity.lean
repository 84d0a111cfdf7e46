import InfraModule.Fault
import InfraModule.Tree.Basic

namespace InfraModule.Tree

def nameOrPlace (t : Tree) (id : DeclId) : String :=
  (t.decl? id).elim ("#" ++ toString id.index) Declaration.fullName

def checkPlace (t : Tree) (container : DeclId) (d : Declaration) : Except Inconsistency Unit :=
  match d.parent with
  | none => .error (.missingParent d.fullName)
  | some parent =>
    if parent ≠ container then
      .error (.parentMismatch d.fullName (t.nameOrPlace container) (t.nameOrPlace parent))
    else if d.location.isNone then .error (.missingLocation d.fullName)
    else .ok ()

/-- Checks a declaration and what it contains. `entered` holds the declarations on the way to it;
they are all different, so the way is never longer than the tree has declarations. To go beyond
`depth` is a failure of its own. -/
def checkFrom (t : Tree) :
    Nat → List DeclId → Option DeclId → DeclId → ExceptT Inconsistency Option Unit
  | 0, _, _, _ => .mk none
  | depth + 1, entered, container, id =>
    match t.decl? id with
    | none => throw (.unknownNode .declaration id.index)
    | some d =>
      if id ∈ entered then throw (.containmentCycle d.fullName)
      else do
        if let some c := container then .mk (some (t.checkPlace c d))
        d.children.forM (t.checkFrom depth (id :: entered) (some id))

def validate? (t : Tree) : ExceptT Inconsistency Option Unit :=
  t.checkFrom (t.declarations.size + 1) [] none root

/-- Every declaration below the root exists, names what contains it as its parent, has a location,
and does not contain itself. -/
def validate (t : Tree) : Except Inconsistency Unit := t.validate?.run.getD (.ok ())

end InfraModule.Tree
