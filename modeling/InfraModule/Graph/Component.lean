namespace InfraModule.Graph

structure Frame (α : Type) where
  vertex : α
  /-- The least number of a pending vertex that this one was found to lead to. -/
  low : Nat
  targets : List α

structure Search (α : Type) where
  index : List (α × Nat)
  pending : List α
  component : List (α × Nat)
  count : Nat
  frames : List (Frame α)

namespace Search

variable {α : Type} [DecidableEq α]

def start : Search α := ⟨[], [], [], 0, []⟩

def enter (vertices : List α) (s : Search α) (a : α) (successors : List α) : Search α :=
  let number := s.index.length
  { s with
    index := (a, number) :: s.index
    pending := a :: s.pending
    frames := ⟨a, number, successors.filter (· ∈ vertices)⟩ :: s.frames }

/-- Makes a component of the vertices that are pending since `a` was come to. -/
def complete (s : Search α) (a : α) : Search α :=
  let members := s.pending.takeWhile (· ≠ a) ++ [a]
  { s with
    pending := (s.pending.dropWhile (· ≠ a)).tail
    component := members.map (·, s.count) ++ s.component
    count := s.count + 1 }

def leave (s : Search α) (f : Frame α) (below : List (Frame α)) : Search α :=
  let s := { s with frames := below.modifyHead fun p ↦ { p with low := min p.low f.low } }
  if s.index.lookup f.vertex = some f.low then s.complete f.vertex else s

/-- Looks at the next successor, or goes back when there is none. A vertex that is come to for the
first time is named, and remains to be entered. -/
def advance (s : Search α) : Option α × Search α :=
  match s.frames with
  | [] => (none, s)
  | ⟨a, low, []⟩ :: below => (none, s.leave ⟨a, low, []⟩ below)
  | ⟨a, low, b :: targets⟩ :: below =>
    match s.index.lookup b with
    | none => (some b, { s with frames := ⟨a, low, targets⟩ :: below })
    | some number =>
      let low := if b ∈ s.pending then min low number else low
      (none, { s with frames := ⟨a, low, targets⟩ :: below })

def step (next? : α → Option (List α)) (vertices : List α) (s : Search α) : Option (Search α) :=
  match s.advance with
  | (none, s) => some s
  | (some b, s) => (next? b).map (s.enter vertices b)

def run (next? : α → Option (List α)) (vertices : List α) : Nat → Search α → Option (Search α)
  | 0, s => if s.frames.isEmpty then some s else none
  | steps + 1, s =>
    if s.frames.isEmpty then some s else (s.step next? vertices).bind (run next? vertices steps)

def bound (next? : α → Option (List α)) (vertices : List α) : Nat :=
  (vertices.flatMap fun a ↦ a :: (next? a).getD []).length

def visit (next? : α → Option (List α)) (vertices : List α) (s : Search α) (a : α) :
    Option (Search α) :=
  if a ∈ vertices ∧ s.index.lookup a = none then
    (next? a).bind fun successors ↦
      run next? vertices (bound next? vertices) (s.enter vertices a successors)
  else some s

end Search

/-- The vertices that can be reached from `starts`, each with the number of its component. The
search fails where it asks for the successors of what has none to give. -/
def components? {α : Type} [DecidableEq α] (next? : α → Option (List α))
    (vertices starts : List α) : Option (List (α × Nat)) :=
  (starts.foldlM (Search.visit next? vertices) .start).map Search.component

end InfraModule.Graph
