namespace InfraModule.Graph

/-- A search for cycles under way. `reached` holds what the present start has led to, and
`exhausted` what the earlier ones have. -/
structure Finder (α : Type) where
  path : List α
  reached : List α
  exhausted : List α
  cycles : List (List α)

namespace Finder

variable {α : Type} [DecidableEq α]

def idle : Finder α := ⟨[], [], [], []⟩

def enter (f : Finder α) (a : α) : Finder α :=
  { f with reached := f.reached.insert a, path := f.path ++ [a] }

def leave (f : Finder α) : Finder α := { f with path := f.path.dropLast }

/-- Goes on from the path to a vertex, unless that closes a loop. A path passes no vertex twice, so
`depth` need not exceed their number. -/
def visit (next? : α → Option (List α)) : Nat → Finder α → α → Option (Finder α)
  | 0, _, _ => none
  | depth + 1, f, a =>
    if a ∈ f.path then some { f with cycles := f.cycles ++ [f.path.dropWhile (· ≠ a)] }
    else if a ∈ f.exhausted then some f
    else (next? a).bind fun targets ↦
      (targets.foldlM (visit next? depth) (f.enter a)).map leave

/-- Every cycle through what was reached from a start has been seen. -/
def retire (f : Finder α) : Finder α :=
  { f with reached := [], exhausted := f.exhausted ++ f.reached }

def explore (next? : α → Option (List α)) (depth : Nat) (f : Finder α) (a : α) :
    Option (Finder α) :=
  if a ∈ f.exhausted then some f else (f.visit next? depth a).map retire

end Finder

def cycles? {α : Type} [DecidableEq α] (next? : α → Option (List α)) (depth : Nat)
    (starts : List α) : Option (List (List α)) :=
  (starts.foldlM (Finder.explore next? depth) .idle).map Finder.cycles

end InfraModule.Graph
