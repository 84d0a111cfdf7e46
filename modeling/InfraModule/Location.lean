namespace InfraModule

structure Position where
  line : Nat
  column : Nat
  deriving DecidableEq

namespace Position

/-- Reading order: by line, then by column. -/
protected def le (p q : Position) : Prop :=
  p.line < q.line ∨ p.line = q.line ∧ p.column ≤ q.column

instance : LE Position := ⟨Position.le⟩

instance (p q : Position) : Decidable (p ≤ q) :=
  inferInstanceAs (Decidable (p.line < q.line ∨ p.line = q.line ∧ p.column ≤ q.column))

def sorted (ps : List Position) : List Position :=
  ps.mergeSort (fun p q ↦ decide (p ≤ q))

end Position

structure Location where
  file : String
  start : Position
  stop : Position
  deriving DecidableEq

namespace Location

def contains (l : Location) (p : Position) : Bool :=
  decide (l.start ≤ p ∧ p ≤ l.stop)

def lineStart (file : String) (line : Nat) : Location :=
  ⟨file, ⟨line, 1⟩, ⟨line, 1⟩⟩

/-- Where the stretch begins, as `file:line:column`. -/
def render (l : Location) : String :=
  l.file ++ ":" ++ toString l.start.line ++ ":" ++ toString l.start.column

end Location

end InfraModule
