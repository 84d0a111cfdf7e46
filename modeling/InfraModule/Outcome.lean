import InfraModule.Fault

namespace InfraModule

/-- What stopped a sequence of steps, and how far it had come. -/
structure Halt (σ : Type) where
  fault : Fault
  state : σ

abbrev Outcome (σ : Type) := Except (Halt σ) σ

namespace Outcome

variable {σ α : Type}

/-- Takes a step for each member of a list, up to the first that halts. -/
def inTurn (step : σ → α → Outcome σ) : σ → List α → Outcome σ
  | s, [] => .ok s
  | s, a :: as =>
    match step s a with
    | .ok s => inTurn step s as
    | .error halt => .error halt

def reached : Outcome σ → σ
  | .ok s => s
  | .error halt => halt.state

theorem inTurn_append (step : σ → α → Outcome σ) (s : σ) (as bs : List α) :
    inTurn step s (as ++ bs) =
      match inTurn step s as with
      | .ok s => inTurn step s bs
      | .error halt => .error halt := by
  induction as generalizing s with
  | nil => rfl
  | cons a as ih =>
    simp only [List.cons_append, inTurn]
    cases step s a with
    | ok s => exact ih s
    | error halt => rfl

theorem inTurn_invariant {step : σ → α → Outcome σ} {I : σ → Prop} {as : List α}
    (hstep : ∀ a ∈ as, ∀ s s', I s → step s a = .ok s' → I s') {s s' : σ} (hs : I s)
    (hrun : inTurn step s as = .ok s') : I s' := by
  induction as generalizing s with
  | nil =>
    cases hrun
    exact hs
  | cons a as ih =>
    rw [List.forall_mem_cons] at hstep
    rw [inTurn] at hrun
    split at hrun
    next s₁ h₁ => exact ih hstep.2 (hstep.1 s s₁ hs h₁) hrun
    next => cases hrun

theorem inTurn_halt {step : σ → α → Outcome σ} {I : σ → Prop} {P : Fault → Prop} {as : List α}
    (hstep : ∀ a ∈ as, ∀ s s', I s → step s a = .ok s' → I s')
    (hhalt : ∀ a ∈ as, ∀ s halt, I s → step s a = .error halt → P halt.fault) {s : σ}
    {halt : Halt σ} (hs : I s) (hrun : inTurn step s as = .error halt) : P halt.fault := by
  induction as generalizing s with
  | nil => cases hrun
  | cons a as ih =>
    rw [List.forall_mem_cons] at hstep hhalt
    rw [inTurn] at hrun
    split at hrun
    next s₁ h₁ => exact ih hstep.2 hhalt.2 (hstep.1 s s₁ hs h₁) hrun
    next h₁ =>
      cases hrun
      exact hhalt.1 s _ hs h₁

end Outcome

end InfraModule
