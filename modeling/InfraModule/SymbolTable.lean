import InfraModule.Diagnostic
import InfraModule.Tree.Basic

namespace InfraModule

abbrev SymbolTable := Registry DeclId

namespace SymbolTable

/-- Files a declaration under a name, unless the name stands for another one already. -/
def insert (table : SymbolTable) (name : String) (id : DeclId) : Except DeclId SymbolTable :=
  match table.get? name with
  | none => .ok (table.add name id)
  | some first => .error first

structure Index where
  table : SymbolTable
  log : Log

def Index.enter? (t : Tree) (index : Index) (id : DeclId) : Option Index := do
  let d ← t.decl? id
  match index.table.insert d.fullName id with
  | .ok table => return { index with table := table }
  | .error first =>
    let previous ← t.decl? first
    let problem := Problem.duplicateDeclaration d.fullName previous.location
    return { index with log := index.log ++ [problem.report d.location] }

def build? (t : Tree) : Option Index :=
  (t.walk.filter (· ≠ Tree.root)).foldlM (Index.enter? t) ⟨.empty, []⟩

/-- The table of a tree. The root is not in it. -/
def build (t : Tree) : Index := (build? t).getD ⟨.empty, []⟩

end SymbolTable

end InfraModule
