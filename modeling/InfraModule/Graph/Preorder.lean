namespace InfraModule.Graph

variable {α : Type} [DecidableEq α]

/-- Visits the vertices of a stack in turn and puts the successors of each on top. `fresh` holds
the vertices not yet visited; each visit takes one of them, so `fresh.length` visits are enough. -/
def preorderFrom (next : α → List α) : Nat → List α → List α → List α
  | 0, _, _ => []
  | visits + 1, fresh, stack =>
    match stack.dropWhile (fun a ↦ decide (a ∉ fresh)) with
    | [] => []
    | a :: rest => a :: preorderFrom next visits (fresh.erase a) (next a ++ rest)

def preorder (next : α → List α) (vertices starts : List α) : List α :=
  preorderFrom next vertices.length vertices starts

end InfraModule.Graph
