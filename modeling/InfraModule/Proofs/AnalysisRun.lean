import InfraModule.Analysis
import InfraModule.Proofs.BindingTally
import InfraModule.Proofs.ReviewRun

namespace InfraModule

open Provider

namespace Tree

variable {t t' : Tree} {directory : Directory} {options : Options}

def contextOf (t : Tree) (directory : Directory) (options : Options) : Context :=
  ⟨(SymbolTable.build t).table, directory, options⟩

theorem indexes_contextOf (t : Tree) : (t.contextOf directory options).Indexes t :=
  SymbolTable.get?_build t

theorem contextOf_grows (h : t.Grows t') :
    t'.contextOf directory options = t.contextOf directory options := by
  rw [contextOf, contextOf, SymbolTable.build_grows h]

/-- The stages of an analysis that comes to an end: `w` is the tree with its resources filled in
and `b` the one with its references bound. -/
structure Stages (t : Tree) (directory : Directory) (options : Options) (w : Workspace)
    (b : Binder) : Prop where
  valid : t.validate = .ok ()
  review : Workspace.reviewResources (t.contextOf directory options)
    ⟨t, (SymbolTable.build t).log⟩ = .ok w
  bind : w.bindReferences (t.contextOf directory options) = .ok b

def conclusion (t : Tree) (b : Binder) : Analysis :=
  ⟨b.log ++ b.tree.reportCycles, (SymbolTable.build t).table, b.tally,
    b.tree.reportCycles.length⟩

theorem analyze_eq_ok_iff {a : Analysis} : t.analyze directory options = (t', .ok a) ↔
    ∃ w b, t.Stages directory options w b ∧ t' = b.tree ∧ a = t.conclusion b := by
  constructor
  · intro h
    unfold analyze at h
    split at h
    next => cases h
    next hv =>
      simp only at h
      split at h
      next => cases h
      next w hw =>
        split at h
        next => cases h
        next b hb =>
          cases h
          exact ⟨w, b, ⟨hv, hw, hb⟩, rfl, rfl⟩
  · rintro ⟨w, b, ⟨hv, hw, hb⟩, rfl, rfl⟩
    unfold contextOf at hw hb
    simp only [analyze, hv, hw, hb, conclusion]

theorem exists_analyze_eq {a : Analysis} (h : (t.analyze directory options).2.toOption = some a) :
    ∃ t', t.analyze directory options = (t', .ok a) := by
  generalize t.analyze directory options = out at h ⊢
  obtain ⟨t', _ | a'⟩ := out
  · cases h
  · cases h
    exact ⟨t', rfl⟩

namespace Stages

variable {w : Workspace} {b : Binder} (h : t.Stages directory options w b) (hc : t.Closed)

include h hc

theorem reviewed : Workspace.Reviewed (t.contextOf directory options)
    ⟨t, (SymbolTable.build t).log⟩ t.walk w :=
  Workspace.reviewed_of_inTurn hc h.review

omit hc in
theorem ran : Binder.Ran (t.contextOf directory options) w.tree ⟨w.tree, w.log, .zero⟩
    w.tree.bindingSteps b :=
  Binder.ran_of_inTurn (.refl _ w.tree) (fun _ hs ↦ hs) h.bind

theorem grows : t.Grows b.tree := (h.reviewed hc).grows.trans h.ran.grows

end Stages

theorem Holds.of_grows (h : t.Grows t') (hc : t.Closed) {a : DeclId} {e : ExprId}
    (he : t'.Holds a e) : t.Holds a e ∨ t.expr? e = none ∧
      ∃ x, t'.expr? e = some x ∧ x.kind = .object .empty ∧ x.owner = a := by
  induction he with
  | @root d' e hd' hroot hx =>
    obtain ⟨d, hd, hg⟩ := h.exists_decl hd'
    rcases hg.kind.mem_roots hroot with hroot | hnew
    · exact .inl (.root hd hroot (hc.roots a d hd e hroot))
    · exact .inr hnew
  | @part e p he hp hx ih =>
    rcases ih with he | ⟨_, x, hx, hk, _⟩
    · rw [h.partsOf_eq he.isSome] at hp
      exact .inl (.part he hp (hc.partsOf he.isSome p hp))
    · simp [partsOf, hx, hk, ExprKind.children, Registry.values] at hp

theorem Holds.grows (h : t.Grows t') {a : DeclId} {e : ExprId} (he : t.Holds a e) :
    t'.Holds a e := by
  induction he with
  | @root d e hd hroot hx =>
    obtain ⟨d', hd', hg⟩ := h.decl a d hd
    exact .root hd' (hg.kind.roots_subset hroot) (h.isSome_expr? hx)
  | @part e p he hp hx ih =>
    rw [← h.partsOf_eq he.isSome] at hp
    exact .part ih hp (h.isSome_expr? hx)

theorem Unshared.grows (hu : t.Unshared) (hc : t.Closed) (h : t.Grows t') : t'.Unshared := by
  intro a ha b hb e hae hbe
  rw [h.walk_eq] at ha hb
  rcases hae.of_grows h hc with hae | ⟨hn, x, hx, -, rfl⟩
  · rcases hbe.of_grows h hc with hbe | ⟨hn, -⟩
    · exact hu a ha b hb e hae hbe
    · have hsome := hae.isSome
      simp [hn] at hsome
  · rcases hbe.of_grows h hc with hbe | ⟨-, y, hy, -, rfl⟩
    · have hsome := hbe.isSome
      simp [hn] at hsome
    · cases hx.symm.trans hy
      rfl

/-- Once nothing is left to be filled in, the steps of the binding stay the same. -/
theorem bindingSteps_grows (h : t.Grows t') (hc : t.Closed)
    (hcomplete : ∀ a ∈ t.walk, t.CompleteAt a) : t'.bindingSteps = t.bindingSteps := by
  unfold bindingSteps
  rw [h.walk_eq]
  refine List.flatMap_congr fun a ha ↦ ?_
  obtain ⟨d, hd⟩ := exists_decl_of_mem_walk ha
  obtain ⟨d', hd', hg⟩ := h.decl a d hd
  have hk := (hcomplete a ha).kind_eq hd hg
  have hdesc : d.kind.roots.flatMap t'.descendants = d.kind.roots.flatMap t.descendants :=
    List.flatMap_congr fun e he ↦ h.descendants_eq hc (hc.roots a d hd e he)
  simp only [stepsOf, hd, hd', hk, hdesc]

theorem bindingSteps_subset (h : t.Grows t') : t.bindingSteps ⊆ t'.bindingSteps := by
  intro s hs
  cases s with
  | expression a e =>
    rw [expression_mem_bindingSteps] at hs ⊢
    exact ⟨h.walk_eq ▸ hs.1, hs.2.grows h⟩
  | dependsOn a name =>
    rw [dependsOn_mem_bindingSteps] at hs ⊢
    obtain ⟨ha, d, hd, hname⟩ := hs
    obtain ⟨d', hd', hg⟩ := h.decl a d hd
    exact ⟨h.walk_eq ▸ ha, d', hd', hg.kind.dependsOn_eq ▸ hname⟩

theorem mem_bindingSteps_of_matter? (h : t.Grows t') (hc : t.Closed) {s : BindingStep} {m : Matter}
    (hs : s ∈ t'.bindingSteps) (hm : t'.matter? s = some m) : s ∈ t.bindingSteps := by
  cases s with
  | expression a e =>
    rw [expression_mem_bindingSteps] at hs ⊢
    refine ⟨h.walk_eq ▸ hs.1, (hs.2.of_grows h hc).resolve_right ?_⟩
    rintro ⟨-, x, hx, hk, -⟩
    obtain ⟨-, y, r, -, hy, hr, -⟩ := matter?_expression hm
    cases hx.symm.trans hy
    simp [hk, ExprKind.reference?] at hr
  | dependsOn a name =>
    rw [dependsOn_mem_bindingSteps] at hs ⊢
    obtain ⟨ha, d', hd', hname⟩ := hs
    obtain ⟨d, hd, hg⟩ := h.exists_decl hd'
    exact ⟨h.walk_eq ▸ ha, d, hd, hg.kind.dependsOn_eq ▸ hname⟩

end Tree

end InfraModule
