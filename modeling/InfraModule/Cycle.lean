import InfraModule.Diagnostic
import InfraModule.Graph.Component
import InfraModule.Graph.Finder
import InfraModule.Graph.Representative
import InfraModule.Tree.Basic

namespace InfraModule

/-- Declarations each of which must be deployed after the next, and the last after the first. -/
abbrev Cycle := List DeclId

namespace Tree

def prerequisites? (t : Tree) (id : DeclId) : Option (List DeclId) :=
  (t.decl? id).map Declaration.dependsOnTargets

def prerequisitesOf (t : Tree) (id : DeclId) : List DeclId := (t.prerequisites? id).getD []

def components? (t : Tree) : Option (List (DeclId × Nat)) :=
  Graph.components? t.prerequisites? t.declIds t.walk

def components (t : Tree) : List (DeclId × Nat) := t.components?.getD []

def linksWithin? (t : Tree) (components : List (DeclId × Nat)) (id : DeclId) :
    Option (List DeclId) :=
  (t.prerequisites? id).map fun targets ↦
    (targets.filter fun target ↦ components.lookup target = components.lookup id).eraseReps

/-- The search for cycles. It fails where it looks up a declaration that does not exist, and where
it would go beyond any of its bounds. -/
def cycles? (t : Tree) : Option (List Cycle) := do
  let components ← t.components?
  Graph.cycles? (t.linksWithin? components) (t.declarations.size + 1) t.walk

def cycles (t : Tree) : List Cycle := t.cycles?.getD []

def nameOf (t : Tree) (id : DeclId) : String := (t.decl? id).elim "" Declaration.fullName

def knows (t : Tree) (ids : List DeclId) : Bool := ids.all fun id ↦ (t.decl? id).isSome

end Tree

namespace Cycle

/-- Tells cycles apart by their members: the sorted names, joined. -/
def signature (t : Tree) (c : Cycle) : String :=
  String.intercalate "," (c.map t.nameOf).mergeSort

def describe (t : Tree) (c : Cycle) : String :=
  String.intercalate " -> " ((c ++ c.take 1).map t.nameOf)

def distinct (t : Tree) (cs : List Cycle) : List Cycle :=
  (Graph.representatives Prod.fst (cs.map fun c ↦ (signature t c, c))).map Prod.snd

def report (t : Tree) (c : Cycle) : Diagnostic :=
  (Problem.circularDependency (describe t c)).report
    ((c.head?.bind t.decl?).bind Declaration.location)

def signature? (t : Tree) (c : Cycle) : Option String :=
  if t.knows c then some (signature t c) else none

def describe? (t : Tree) (c : Cycle) : Option String :=
  if t.knows c then some (describe t c) else none

def distinct? (t : Tree) (cs : List Cycle) : Option (List Cycle) :=
  if t.knows cs.flatten then some (distinct t cs) else none

def report? (t : Tree) (c : Cycle) : Option Diagnostic :=
  if t.knows c then some (report t c) else none

end Cycle

namespace Tree

def reportCycles? (t : Tree) : Option Log := do
  let cycles ← t.cycles?
  let distinct ← Cycle.distinct? t cycles
  distinct.mapM (Cycle.report? t)

def reportCycles (t : Tree) : Log := t.reportCycles?.getD []

end Tree

end InfraModule
