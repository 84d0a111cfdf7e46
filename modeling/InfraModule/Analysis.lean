import InfraModule.Binding.Pass
import InfraModule.Cycle
import InfraModule.Resource.Review
import InfraModule.Tree.Integrity

namespace InfraModule

open Provider

structure Analysis where
  diagnostics : Log
  symbols : SymbolTable
  tally : Tally
  cycles : Nat

/-- Checks the shape of the tree, indexes it, reviews its resources, binds its references and looks
for circular dependencies. The tree is returned with what was filled in and bound, also when a
fault ended the analysis early. -/
def Tree.analyze (t : Tree) (directory : Directory) (options : Options) :
    Tree × Except Fault Analysis :=
  match t.validate with
  | .error cause => (t, .error (.inconsistent cause))
  | .ok () =>
    let index := SymbolTable.build t
    let ctx : Context := ⟨index.table, directory, options⟩
    match Workspace.reviewResources ctx ⟨t, index.log⟩ with
    | .error halt => (halt.state.tree, .error halt.fault)
    | .ok w =>
      match w.bindReferences ctx with
      | .error halt => (halt.state.tree, .error halt.fault)
      | .ok b =>
        let circular := b.tree.reportCycles
        (b.tree, .ok ⟨b.log ++ circular, index.table, b.tally, circular.length⟩)

end InfraModule
