import InfraModule.Proofs.AnalysisRun
import InfraModule.Proofs.Drafting
import InfraModule.Proofs.PassFrame
import Mathlib.Data.List.Perm.Basic

namespace InfraModule

namespace Outcome

variable {σ α : Type} {step : σ → α → Outcome σ} {all as bs : List α} {I : σ → Prop}
  {R : σ → σ → Prop} {s u s' : σ}

section Related

variable (hkeep : ∀ a ∈ all, ∀ s s', I s → step s a = .ok s' → I s')
  (hstep : ∀ a ∈ all, ∀ s u s', I s → I u → R s u → step s a = .ok s' →
    ∃ u', step u a = .ok u' ∧ R s' u')

include hkeep hstep

theorem inTurn_related (has : as ⊆ all) (hs : I s) (hu : I u) (h : R s u)
    (hrun : inTurn step s as = .ok s') : ∃ u', inTurn step u as = .ok u' ∧ R s' u' := by
  induction as generalizing s u with
  | nil =>
    cases hrun
    exact ⟨u, rfl, h⟩
  | cons a as ih =>
    obtain ⟨ha, has⟩ := List.cons_subset.mp has
    rw [inTurn] at hrun
    split at hrun
    next s₁ hs₁ =>
      obtain ⟨u₁, hu₁, h₁⟩ := hstep a ha s u s₁ hs hu h hs₁
      rw [inTurn, hu₁]
      exact ih has (hkeep a ha s s₁ hs hs₁) (hkeep a ha u u₁ hu hu₁) h₁ hrun
    next => cases hrun

/-- Where any two steps can be exchanged, all the steps of a run can be rearranged. -/
theorem inTurn_perm (hrefl : ∀ s, R s s) (htrans : ∀ s u v, R s u → R u v → R s v)
    (hswap : ∀ a ∈ all, ∀ b ∈ all, ∀ s s₁ s₂, I s → step s a = .ok s₁ → step s₁ b = .ok s₂ →
      ∃ u₁ u₂, step s b = .ok u₁ ∧ step u₁ a = .ok u₂ ∧ R s₂ u₂)
    (hperm : as.Perm bs) (has : as ⊆ all) (hs : I s) (hrun : inTurn step s as = .ok s') :
    ∃ u', inTurn step s bs = .ok u' ∧ R s' u' := by
  induction hperm generalizing s s' with
  | nil => exact ⟨s', hrun, hrefl s'⟩
  | cons a _ ih =>
    obtain ⟨ha, has⟩ := List.cons_subset.mp has
    simp only [inTurn] at hrun ⊢
    split at hrun
    next s₁ hs₁ => exact ih has (hkeep a ha s s₁ hs hs₁) hrun
    next => cases hrun
  | swap a b l =>
    obtain ⟨hb, has⟩ := List.cons_subset.mp has
    obtain ⟨ha, hl⟩ := List.cons_subset.mp has
    simp only [inTurn] at hrun
    split at hrun
    next s₁ hs₁ =>
      split at hrun
      next s₂ hs₂ =>
        obtain ⟨u₁, u₂, hu₁, hu₂, h⟩ := hswap b hb a ha s s₁ s₂ hs hs₁ hs₂
        have hIs := hkeep a ha s₁ s₂ (hkeep b hb s s₁ hs hs₁) hs₂
        have hIu := hkeep b hb u₁ u₂ (hkeep a ha s u₁ hs hu₁) hu₂
        obtain ⟨u', hu', h'⟩ := inTurn_related hkeep hstep hl hIs hIu h hrun
        exact ⟨u', by simp only [inTurn, hu₁, hu₂, hu'], h'⟩
      next => cases hrun
    next => cases hrun
  | trans hleft _ ih₁ ih₂ =>
    obtain ⟨u₁, hu₁, h₁⟩ := ih₁ has hs hrun
    obtain ⟨u₂, hu₂, h₂⟩ := ih₂ (fun a ha ↦ has (hleft.mem_iff.mpr ha)) hs hu₁
    exact ⟨u₂, hu₂, htrans s' u₁ u₂ h₁ h₂⟩

end Related

end Outcome

namespace Roster

variable {α : Type} {r r' : Roster α}

theorem perm_iff : r.toList.Perm r'.toList ↔ ∀ a, a ∈ r ↔ a ∈ r' :=
  List.perm_ext_iff_of_nodup r.nodup r'.nodup

variable [DecidableEq α]

theorem insert_perm (h : r.toList.Perm r'.toList) (a : α) :
    (r.insert a).toList.Perm (r'.insert a).toList := by
  rw [perm_iff] at h ⊢
  intro b
  rw [mem_insert, mem_insert, h]

theorem insert_comm (r : Roster α) (a b : α) :
    ((r.insert a).insert b).toList.Perm ((r.insert b).insert a).toList := by
  rw [perm_iff]
  intro c
  simp only [mem_insert]
  exact or_right_comm

end Roster

structure Declaration.Agrees (d d' : Declaration) : Prop where
  name : d'.name = d.name
  fullName : d'.fullName = d.fullName
  parent : d'.parent = d.parent
  children : d'.children = d.children
  location : d'.location = d.location
  kind : d'.kind = d.kind
  dependencies : d.dependencies.toList.Perm d'.dependencies.toList
  missing : d.missing.toList.Perm d'.missing.toList

namespace Declaration.Agrees

variable {d d' d'' : Declaration}

theorem refl (d : Declaration) : d.Agrees d := ⟨rfl, rfl, rfl, rfl, rfl, rfl, .refl _, .refl _⟩

theorem trans (h : d.Agrees d') (h' : d'.Agrees d'') : d.Agrees d'' where
  name := h'.name.trans h.name
  fullName := h'.fullName.trans h.fullName
  parent := h'.parent.trans h.parent
  children := h'.children.trans h.children
  location := h'.location.trans h.location
  kind := h'.kind.trans h.kind
  dependencies := h.dependencies.trans h'.dependencies
  missing := h.missing.trans h'.missing

theorem record (h : d.Agrees d') (m : Matter) (v : Verdict) :
    (m.record v d).Agrees (m.record v d') := by
  cases v with
  | undefined => exact { h with missing := Roster.insert_perm h.missing _ }
  | bound id => exact { h with dependencies := Roster.insert_perm h.dependencies _ }
  | alreadyBound | rejected => exact h

theorem record_comm (d : Declaration) (m m' : Matter) (v v' : Verdict) :
    (m.record v (m'.record v' d)).Agrees (m'.record v' (m.record v d)) := by
  cases v with
  | alreadyBound | rejected => exact .refl _
  | undefined =>
    cases v' with
    | undefined => exact { refl d with missing := Roster.insert_comm .. }
    | bound | alreadyBound | rejected => exact .refl _
  | bound id =>
    cases v' with
    | bound id' => exact { refl d with dependencies := Roster.insert_comm .. }
    | undefined | alreadyBound | rejected => exact .refl _

end Declaration.Agrees

structure Tree.Agrees (t t' : Tree) : Prop where
  decl : ∀ a, Option.Rel Declaration.Agrees (t.decl? a) (t'.decl? a)
  expr : ∀ e, t'.expr? e = t.expr? e

namespace Tree

variable {t t' t'' base : Tree} {ctx : Context} {s s' : BindingStep} {m m' : Matter}

namespace Agrees

theorem refl (t : Tree) : t.Agrees t := by
  refine ⟨fun a ↦ ?_, fun _ ↦ rfl⟩
  cases t.decl? a with
  | none => exact .none
  | some d => exact .some (.refl d)

theorem trans (h : t.Agrees t') (h' : t'.Agrees t'') : t.Agrees t'' := by
  refine ⟨fun a ↦ ?_, fun e ↦ (h'.expr e).trans (h.expr e)⟩
  have hd := h.decl a
  have hd' := h'.decl a
  generalize t.decl? a = x, t'.decl? a = y, t''.decl? a = z at hd hd'
  cases hd with
  | none => exact hd'
  | some hd =>
    cases hd' with
    | some hd' => exact .some (hd.trans hd')

theorem effect (h : t.Agrees t') (m : Matter) (v : Verdict) :
    (m.effect t v).Agrees (m.effect t' v) := by
  refine ⟨fun a ↦ ?_, fun e ↦ ?_⟩
  · have hd := h.decl a
    rw [Matter.decl?_effect, Matter.decl?_effect]
    generalize t.decl? a = x, t'.decl? a = y at hd
    split
    next =>
      cases hd with
      | none => exact .none
      | some hd => exact .some (hd.record m v)
    next => exact hd
  · rw [Matter.expr?_effect, Matter.expr?_effect, h.expr e]

theorem effect_comm (t : Tree) (v v' : Verdict)
    (hne : ∀ e, m.origin = .expression e → m'.origin ≠ .expression e) :
    (m.effect (m'.effect t v') v).Agrees (m'.effect (m.effect t v) v') := by
  refine ⟨fun a ↦ ?_, fun e ↦ ?_⟩
  · simp only [Matter.decl?_effect]
    cases t.decl? a with
    | none => simp
    | some d =>
      by_cases ha : a = m.owner
      · by_cases ha' : a = m'.owner
        · simp only [if_pos ha, if_pos ha', Option.map_some]
          exact .some (.record_comm d m m' v v')
        · simp only [if_pos ha, if_neg ha']
          exact .some (.refl _)
      · simp only [if_neg ha]
        split <;> exact .some (.refl _)
  · simp only [Matter.expr?_effect]
    cases v with
    | undefined | alreadyBound | rejected => rfl
    | bound id =>
      cases v' with
      | undefined | alreadyBound | rejected => rfl
      | bound id' =>
        by_cases hm : m.origin = .expression e
        · simp only [if_neg (hne e hm)]
        · simp only [if_neg hm]

end Agrees

theorem targetOf_effect (hm : base.matter? s = some m)
    (hne : ∀ e, m.origin = .expression e → m'.origin ≠ .expression e) (v : Verdict) :
    (m'.effect t v).targetOf s = t.targetOf s := by
  cases s with
  | dependsOn => rfl
  | expression a e =>
    obtain ⟨d, x, r, -, -, -, rfl⟩ := matter?_expression hm
    have hother : m'.origin ≠ .expression e := hne e rfl
    simp only [targetOf, Matter.expr?_effect, if_neg hother]
    split <;> rfl

theorem Unshared.origin_ne (hu : base.Unshared) (hs : s ∈ base.bindingSteps)
    (hs' : s' ∈ base.bindingSteps) (hne : s ≠ s') (hm : base.matter? s = some m)
    (hm' : base.matter? s' = some m') (e : ExprId) (ho : m.origin = .expression e) :
    m'.origin ≠ .expression e := by
  intro ho'
  apply hne
  rw [origin_expression hm ho] at hs ⊢
  rw [origin_expression hm' ho'] at hs' ⊢
  obtain ⟨ha, he⟩ := expression_mem_bindingSteps.mp hs
  obtain ⟨hb, he'⟩ := expression_mem_bindingSteps.mp hs'
  rw [hu _ ha _ hb e he he']

theorem judge_of_grows (h : base.Grows t) (hcov : base.Covers s) (hm : base.matter? s = some m) :
    t.judge ctx s = if (t.targetOf s).isSome then .ok .alreadyBound else base.ruling ctx s := by
  rw [judge_eq ((matter?_grows h hcov).trans hm), ruling_grows h hcov]

end Tree

/-- Two states of the binding that differ at most in the order of what they hold. -/
structure Binder.Agrees (b b' : Binder) : Prop where
  tree : b.tree.Agrees b'.tree
  log : b.log.Perm b'.log
  tally : b'.tally = b.tally

theorem Tally.count_comm (c : Tally) (v v' : Verdict) :
    (c.count v).count v' = (c.count v').count v := by
  cases v <;> cases v' <;> rfl

namespace Binder

variable {b b' b₁ b₂ : Binder} {base : Tree} {ctx : Context} {s s' : BindingStep} {m : Matter}
  {v : Verdict}

theorem Agrees.refl (b : Binder) : b.Agrees b := ⟨.refl _, .refl _, rfl⟩

theorem Agrees.trans (h : b.Agrees b₁) (h' : b₁.Agrees b₂) : b.Agrees b₂ :=
  ⟨h.tree.trans h'.tree, h.log.trans h'.log, h'.tally.trans h.tally⟩

theorem Agrees.after (h : b.Agrees b') (m : Matter) (v : Verdict) :
    (b.after m v).Agrees (b'.after m v) :=
  ⟨h.tree.effect m v, h.log.append_right _, congrArg (Tally.count · v) h.tally⟩

theorem after_comm (b : Binder) {m m' : Matter} (v v' : Verdict)
    (hne : ∀ e, m.origin = .expression e → m'.origin ≠ .expression e) :
    ((b.after m v).after m' v').Agrees ((b.after m' v').after m v) := by
  refine ⟨.effect_comm b.tree v' v fun e ho' ho ↦ hne e ho ho', ?_, Tally.count_comm ..⟩
  simp only [Binder.after, List.append_assoc b.log]
  exact List.perm_append_comm.append_left b.log

section Step

variable (h : base.Grows b.tree) (hs : s ∈ base.bindingSteps)

include h hs

theorem step_of_matter?_eq_none (hm : base.matter? s = none) : b.step ctx s = .ok b := by
  have hcov := Tree.covers_of_mem_bindingSteps hs
  rw [step_eq (hcov.grows h), Tree.matter?_grows h hcov, hm]

theorem step_of_judge (hm : base.matter? s = some m) (hv : b.tree.judge ctx s = .ok v) :
    b.step ctx s = .ok (b.after m v) := by
  have hcov := Tree.covers_of_mem_bindingSteps hs
  rw [step_eq (hcov.grows h), Tree.matter?_grows h hcov, hm, hv]

theorem step_cases (hstep : b.step ctx s = .ok b') :
    base.matter? s = none ∧ b' = b ∨
    ∃ m v, base.matter? s = some m ∧ b.tree.judge ctx s = .ok v ∧ b' = b.after m v := by
  have hcov := Tree.covers_of_mem_bindingSteps hs
  rw [← Tree.matter?_grows h hcov]
  exact step_ok (hcov.grows h) hstep

omit hs in
theorem grows_of_step (hstep : b.step ctx s = .ok b') : base.Grows b'.tree := by
  have hg := grows_step ctx b s
  rw [hstep] at hg
  exact h.trans hg

theorem Agrees.step (h' : base.Grows b'.tree) (hagrees : b.Agrees b')
    (hstep : b.step ctx s = .ok b₁) : ∃ b₂, b'.step ctx s = .ok b₂ ∧ b₁.Agrees b₂ := by
  rcases step_cases h hs hstep with ⟨hm, rfl⟩ | ⟨m, v, hm, hv, rfl⟩
  · exact ⟨b', step_of_matter?_eq_none h' hs hm, hagrees⟩
  · have hcov := Tree.covers_of_mem_bindingSteps hs
    have htarget : b'.tree.targetOf s = b.tree.targetOf s := by
      cases s with
      | expression a e => simp only [Tree.targetOf, hagrees.tree.expr e]
      | dependsOn => rfl
    rw [Tree.judge_of_grows h hcov hm, ← htarget, ← Tree.judge_of_grows h' hcov hm] at hv
    exact ⟨b'.after m v, step_of_judge h' hs hm hv, hagrees.after m v⟩

/-- Any two steps can be exchanged. -/
theorem step_swap (hu : base.Unshared) (hs' : s' ∈ base.bindingSteps)
    (hstep : b.step ctx s = .ok b₁) (hstep' : b₁.step ctx s' = .ok b₂) :
    ∃ c₁ c₂, b.step ctx s' = .ok c₁ ∧ c₁.step ctx s = .ok c₂ ∧ b₂.Agrees c₂ := by
  by_cases hne : s = s'
  · subst hne
    exact ⟨b₁, b₂, hstep, hstep', .refl b₂⟩
  have h₁ := grows_of_step h hstep
  rcases step_cases h hs hstep with ⟨hm, rfl⟩ | ⟨m, v, hm, hv, rfl⟩
  · have h₂ := grows_of_step h₁ hstep'
    exact ⟨b₂, b₂, hstep', step_of_matter?_eq_none h₂ hs hm, .refl b₂⟩
  rcases step_cases h₁ hs' hstep' with ⟨hm', rfl⟩ | ⟨m', v', hm', hv', rfl⟩
  · exact ⟨b, _, step_of_matter?_eq_none h hs' hm', hstep, .refl _⟩
  have hcov := Tree.covers_of_mem_bindingSteps hs
  have hcov' := Tree.covers_of_mem_bindingSteps hs'
  have horigin := hu.origin_ne hs hs' hne hm hm'
  have horigin' := hu.origin_ne hs' hs (Ne.symm hne) hm' hm
  -- neither verdict depends on whether the other step was made
  rw [Tree.judge_of_grows h₁ hcov' hm', after, Tree.targetOf_effect hm' horigin',
    ← Tree.judge_of_grows h hcov' hm'] at hv'
  have hc₁ := step_of_judge h hs' hm' hv'
  have hgrows := grows_of_step h hc₁
  have hv₂ : (b.after m' v').tree.judge ctx s = .ok v := by
    rw [Tree.judge_of_grows hgrows hcov hm, after, Tree.targetOf_effect hm horigin,
      ← Tree.judge_of_grows h hcov hm, hv]
  exact ⟨_, _, hc₁, step_of_judge hgrows hs hm hv₂, b.after_comm v v' horigin⟩

end Step

theorem inTurn_rearranged (hu : base.Unshared) (h : base.Grows b.tree)
    {steps steps' : List BindingStep} (hsteps : steps ⊆ base.bindingSteps)
    (hperm : steps.Perm steps') (hrun : Outcome.inTurn (step ctx) b steps = .ok b₁) :
    ∃ b₂, Outcome.inTurn (step ctx) b steps' = .ok b₂ ∧ b₁.Agrees b₂ :=
  Outcome.inTurn_perm (I := fun b ↦ base.Grows b.tree)
    (fun _ _ _ _ hb hstep ↦ grows_of_step hb hstep)
    (fun _ hs _ _ _ hb hb' hagrees hstep ↦ hagrees.step hb hs hb' hstep)
    Agrees.refl (fun _ _ _ ↦ Agrees.trans)
    (fun _ hs _ hs' _ _ _ hb hstep hstep' ↦ step_swap hb hs hu hs' hstep hstep')
    hperm hsteps h hrun

end Binder

namespace Draft

/-- The references of a drafted module are bound in any order, and after any passes, to the same
declarations; the same dependencies and missing names are recorded, the same problems reported and
the same outcomes counted. -/
theorem binding_in_any_order (name file : String) (statements : List Statement) (log : Log)
    (passes : List Pass) (ctx : Context) (tally : Tally) {w : Workspace}
    (hw : w = Workspace.run ⟨build name file statements, log⟩ passes)
    {steps steps' : List BindingStep} (hsteps : steps.Perm w.tree.bindingSteps)
    (hsteps' : steps'.Perm w.tree.bindingSteps) {b : Binder}
    (hrun : Outcome.inTurn (Binder.step ctx) ⟨w.tree, w.log, tally⟩ steps = .ok b) :
    ∃ b', Outcome.inTurn (Binder.step ctx) ⟨w.tree, w.log, tally⟩ steps' = .ok b' ∧
      b.Agrees b' := by
  obtain ⟨_, hdrafted, -⟩ := exists_drafted_build name file statements
  have hgrows := Workspace.grows_run ⟨build name file statements, log⟩ passes
  rw [← hw] at hgrows
  exact Binder.inTurn_rearranged (hdrafted.unshared.grows hdrafted.closed hgrows) (.refl _)
    hsteps.subset (hsteps.trans hsteps'.symm) hrun

def entwined : Tree :=
  build "Module" "Module.yml"
    [.declare "Stage" (.parameter "String"),
      .declare "Bucket" (.resource ⟨some "Custom::Bucket", none, none,
        some (.object [("Name", .reference "Stage"), ("Label", .reference "Stage"),
          ("Owner", .reference "Nobody"), ("Peer", .getAttribute "Topic" "Arn")]),
        ["Topic", "Topic"]⟩),
      .declare "Topic" (.resource ⟨some "Custom::Topic", none, none, none, ["Bucket", "Stage"]⟩)]

theorem binding_in_any_order_entwined :
    let ctx := entwined.contextOf .empty .standard
    let w := Workspace.run ⟨entwined, []⟩ [.review ctx]
    let bind := Outcome.inTurn (Binder.step ctx) ⟨w.tree, w.log, .zero⟩
    ∃ b b', bind w.tree.bindingSteps = .ok b ∧ bind w.tree.bindingSteps.reverse = .ok b' ∧
      b.Agrees b' ∧ b.tree ≠ b'.tree := by
  intro ctx w bind
  have hends : (bind w.tree.bindingSteps).toOption.isSome := by decide +kernel
  have hdiffer : (bind w.tree.bindingSteps).toOption.map Binder.tree ≠
      (bind w.tree.bindingSteps.reverse).toOption.map Binder.tree := by decide +kernel
  cases hb : bind w.tree.bindingSteps with
  | error => simp [hb, Except.toOption] at hends
  | ok b =>
    have hreversed : ∃ b', bind w.tree.bindingSteps.reverse = .ok b' ∧ b.Agrees b' :=
      binding_in_any_order "Module" "Module.yml" _ [] [.review ctx] ctx .zero rfl (.refl _)
        (List.reverse_perm _) hb
    obtain ⟨b', hb', hagrees⟩ := hreversed
    refine ⟨b, b', rfl, hb', hagrees, fun heq ↦ hdiffer ?_⟩
    rw [hb, hb']
    exact congrArg some heq

end Draft

end InfraModule
