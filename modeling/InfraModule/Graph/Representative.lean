namespace InfraModule.Graph

/-- The first member for each key, in order. -/
def representatives {α β : Type} [DecidableEq β] (key : α → β) : List α → List α
  | [] => []
  | a :: as => a :: (representatives key as).filter (fun b ↦ key b ≠ key a)

end InfraModule.Graph
