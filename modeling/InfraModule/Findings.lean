import InfraModule.Diagnostic
import InfraModule.Fault

namespace InfraModule

/-- What was reported, up to the fault that ended the check, if one did. -/
structure Findings where
  log : Log
  fault : Option Fault
  deriving DecidableEq

namespace Findings

def clean : Findings := ⟨[], none⟩

def problem (p : Problem) (location : Option Location) : Findings := ⟨[p.report location], none⟩

def halted (f : Fault) : Findings := ⟨[], some f⟩

/-- Goes on with a further check unless the first one ended in a fault. -/
def andThen (first : Findings) (second : Unit → Findings) : Findings :=
  match first.fault with
  | some _ => first
  | none =>
    let further := second ()
    ⟨first.log ++ further.log, further.fault⟩

def each {α : Type} (check : α → Findings) : List α → Findings
  | [] => clean
  | a :: as => (check a).andThen fun _ ↦ each check as

theorem clean_andThen (second : Unit → Findings) : clean.andThen second = second () := rfl

theorem andThen_assoc (first : Findings) (second third : Unit → Findings) :
    (first.andThen second).andThen third =
      first.andThen fun _ ↦ (second ()).andThen third := by
  obtain ⟨log, fault⟩ := first
  cases fault with
  | some f => rfl
  | none =>
    simp only [andThen]
    cases h : (second ()).fault <;> simp [h]

end Findings

end InfraModule
