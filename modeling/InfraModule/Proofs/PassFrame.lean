import InfraModule.Analysis
import InfraModule.Proofs.BindingRun
import InfraModule.Proofs.ReviewRun

namespace InfraModule

open Provider

theorem Outcome.reached_inTurn {σ α : Type} {step : σ → α → Outcome σ} {I : σ → Prop} {as : List α}
    (hstep : ∀ a ∈ as, ∀ s, I s → I (step s a).reached) {s : σ} (hs : I s) :
    I (inTurn step s as).reached := by
  induction as generalizing s with
  | nil => exact hs
  | cons a as ih =>
    rw [List.forall_mem_cons] at hstep
    have hfirst := hstep.1 s hs
    rw [inTurn]
    cases h : step s a with
    | ok s' =>
      rw [h] at hfirst
      exact ih hstep.2 hfirst
    | error halt =>
      rw [h] at hfirst
      exact hfirst

theorem grows_inTurn {σ α : Type} {tree : σ → Tree} {step : σ → α → Outcome σ}
    (hstep : ∀ s a, (tree s).Grows (tree (step s a).reached)) (s : σ) (as : List α) :
    (tree s).Grows (tree (Outcome.inTurn step s as).reached) := by
  apply Outcome.reached_inTurn (I := fun s' ↦ (tree s).Grows (tree s'))
  · intro a _ s' hs'
    exact hs'.trans (hstep s' a)
  · exact .refl (tree s)

namespace Workspace

theorem grows_reviewDeclaration (ctx : Context) (w : Workspace) (id : DeclId) :
    w.tree.Grows (w.reviewDeclaration ctx id).reached.tree := by
  rw [reviewDeclaration_eq]
  split
  next => exact w.tree.grows_completeResource id
  next => exact w.tree.grows_completeResource id

theorem grows_reviewResources (ctx : Context) (w : Workspace) :
    w.tree.Grows (w.reviewResources ctx).reached.tree :=
  grows_inTurn (grows_reviewDeclaration ctx) w w.tree.walk

end Workspace

namespace Binder

theorem step_of_not_covers {b : Binder} {ctx : Context} {s : BindingStep} (h : ¬ b.tree.Covers s) :
    b.step ctx s = .error ⟨.dangling, b⟩ := by
  cases s with
  | expression owner id =>
    cases hd : b.tree.decl? owner with
    | none => simp only [step, hd]
    | some d =>
      cases hx : b.tree.expr? id with
      | none => simp only [step, hd, hx]
      | some x => exact absurd ⟨by simp [hd], by simp [hx]⟩ h
  | dependsOn owner name =>
    cases hd : b.tree.decl? owner with
    | none => simp only [step, hd]
    | some d => exact absurd (Option.isSome_iff_exists.mpr ⟨d, hd⟩) h

theorem grows_step (ctx : Context) (b : Binder) (s : BindingStep) :
    b.tree.Grows (b.step ctx s).reached.tree := by
  by_cases hcov : b.tree.Covers s
  · rw [step_eq hcov]
    cases hm : b.tree.matter? s with
    | none => exact .refl b.tree
    | some m =>
      cases hv : b.tree.judge ctx s with
      | ok v => exact Tree.grows_effect hm hv
      | error fault => exact .refl b.tree
  · rw [step_of_not_covers hcov]
    exact .refl b.tree

end Binder

theorem Workspace.grows_bindReferences (ctx : Context) (w : Workspace) :
    w.tree.Grows (w.bindReferences ctx).reached.tree :=
  grows_inTurn (Binder.grows_step ctx) ⟨w.tree, w.log, .zero⟩ w.tree.bindingSteps

inductive Pass
  | review (ctx : Context)
  | bind (ctx : Context)
  | analyze (directory : Directory) (options : Options)

namespace Workspace

/-- What a pass leaves behind, whether or not a fault ended it. The analysis keeps its reports to
itself. -/
def after (w : Workspace) : Pass → Workspace
  | .review ctx => (w.reviewResources ctx).reached
  | .bind ctx => ⟨(w.bindReferences ctx).reached.tree, (w.bindReferences ctx).reached.log⟩
  | .analyze directory options => { w with tree := (w.tree.analyze directory options).1 }

def run (w : Workspace) (passes : List Pass) : Workspace := passes.foldl after w

end Workspace

section Preserved

variable {I : Tree → Prop}
  (hreview : ∀ (ctx : Context) (w : Workspace), I w.tree → I (w.reviewResources ctx).reached.tree)
  (hbind : ∀ (ctx : Context) (w : Workspace), I w.tree → I (w.bindReferences ctx).reached.tree)

include hreview hbind

theorem Tree.analyze_preserves {t : Tree} (directory : Directory) (options : Options) (ht : I t) :
    I (t.analyze directory options).1 := by
  let ctx : Context := ⟨(SymbolTable.build t).table, directory, options⟩
  have hreview := hreview ctx ⟨t, (SymbolTable.build t).log⟩ ht
  unfold analyze
  split
  next => exact ht
  next =>
    simp only
    split
    next halt hw =>
      rw [hw] at hreview
      exact hreview
    next w hw =>
      rw [hw] at hreview
      have hbind := hbind ctx w hreview
      split
      next halt hb =>
        rw [hb] at hbind
        exact hbind
      next b hb =>
        rw [hb] at hbind
        exact hbind

/-- What the review and the binding of a tree preserve holds along every run of passes. -/
theorem Workspace.run_preserves {w : Workspace} (hw : I w.tree) (passes : List Pass) :
    I (w.run passes).tree := by
  induction passes generalizing w with
  | nil => exact hw
  | cons p passes ih =>
    apply ih
    cases p with
    | review ctx => exact hreview ctx w hw
    | bind ctx => exact hbind ctx w hw
    | analyze directory options => exact Tree.analyze_preserves hreview hbind directory options hw

end Preserved

namespace Workspace

theorem grows_run (w : Workspace) (passes : List Pass) : w.tree.Grows (w.run passes).tree := by
  apply run_preserves (I := w.tree.Grows)
  · intro ctx w' h
    exact h.trans (w'.grows_reviewResources ctx)
  · intro ctx w' h
    exact h.trans (w'.grows_bindReferences ctx)
  · exact .refl w.tree

/-- From any point of a run of passes to any later one, nothing changes but that resources are
filled in, references are bound and the records of declarations are continued. -/
theorem grows_along_run (w : Workspace) (earlier later : List Pass) :
    (w.run earlier).tree.Grows (w.run (earlier ++ later)).tree := by
  have hsplit : w.run (earlier ++ later) = (w.run earlier).run later := List.foldl_append
  rw [hsplit]
  exact (w.run earlier).grows_run later

end Workspace

end InfraModule
