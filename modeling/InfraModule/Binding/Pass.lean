import InfraModule.Binding.Rule
import InfraModule.Outcome

namespace InfraModule

structure Tally where
  bound : Nat
  alreadyBound : Nat
  rejected : Nat
  undefined : Nat
  deriving DecidableEq

namespace Tally

def zero : Tally := ⟨0, 0, 0, 0⟩

def count (c : Tally) : Verdict → Tally
  | .bound _ => { c with bound := c.bound + 1 }
  | .alreadyBound => { c with alreadyBound := c.alreadyBound + 1 }
  | .rejected _ => { c with rejected := c.rejected + 1 }
  | .undefined => { c with undefined := c.undefined + 1 }

end Tally

/-- One thing to be bound, with the declaration that it belongs to. -/
inductive BindingStep where
  | expression (owner : DeclId) (id : ExprId)
  | dependsOn (owner : DeclId) (name : String)
  deriving DecidableEq

def Tree.stepsOf (t : Tree) (owner : DeclId) : List BindingStep :=
  match t.decl? owner with
  | none => []
  | some d =>
    (d.kind.roots.flatMap t.descendants).map (.expression owner) ++
      d.kind.dependsOn.map (.dependsOn owner)

def Tree.bindingSteps (t : Tree) : List BindingStep := t.walk.flatMap t.stepsOf

structure Binder where
  tree : Tree
  log : Log
  tally : Tally

namespace Binder

def report (b : Binder) (p : Problem) (location : Option Location) : Binder :=
  { b with log := b.log ++ [p.report location] }

def connect (t : Tree) (owner : DeclId) (origin : Origin) (target : DeclId) : Tree :=
  let t := match origin with
    | .expression id => t.modifyExpr id ({ · with target := some target })
    | .dependsOn => t
  t.modifyDecl owner fun d ↦ { d with dependencies := d.dependencies.insert ⟨target, origin⟩ }

def settle (b : Binder) (owner : DeclId) (origin : Origin) (name : String)
    (location : Option Location) (verdict : Verdict) : Binder :=
  let b := { b with tally := b.tally.count verdict }
  match verdict with
  | .alreadyBound => b
  | .undefined =>
    { b.report (.undefinedReference name) location with
      tree := b.tree.modifyDecl owner fun d ↦ { d with missing := d.missing.insert name } }
  | .rejected reason => b.report (.invalidReference (reason.message name)) location
  | .bound target => { b with tree := connect b.tree owner origin target }

/-- Attributes exist from deployment on, so a condition that uses one is reported each time, even
though the reference is bound like any other. -/
def noteAttribute (b : Binder) (inCondition : Bool) (r : Reference) (location : Option Location) :
    Binder :=
  match r with
  | .attributeOf name _ =>
    if inCondition then
      b.report (.invalidReference ("!GetAtt '" ++ name ++ "' cannot be used inside a Condition"))
        location
    else b
  | _ => b

def conclude (b : Binder) (owner : DeclId) (origin : Origin) (name : String)
    (location : Option Location) : Except Fault Verdict → Outcome Binder
  | .ok verdict => .ok (b.settle owner origin name location verdict)
  | .error fault => .error ⟨fault, b⟩

def step (ctx : Context) (b : Binder) : BindingStep → Outcome Binder
  | .expression owner id =>
    match b.tree.decl? owner, b.tree.expr? id with
    | some d, some e =>
      match e.kind.reference? with
      | none => .ok b
      | some r =>
        let location := b.tree.locationOf id
        let inCondition := d.kind.isCondition
        (b.noteAttribute inCondition r location).conclude owner (.expression id) r.name location
          (ctx.judgeReference b.tree inCondition e r)
    | _, _ => .error ⟨.dangling, b⟩
  | .dependsOn owner name =>
    match b.tree.decl? owner with
    | some d => b.conclude owner .dependsOn name d.location (ctx.judgeDependsOn b.tree name)
    | none => .error ⟨.dangling, b⟩

end Binder

def Workspace.bindReferences (ctx : Context) (w : Workspace) : Outcome Binder :=
  Outcome.inTurn (Binder.step ctx) ⟨w.tree, w.log, .zero⟩ w.tree.bindingSteps

end InfraModule
