import InfraModule.Proofs.BindingRun

namespace InfraModule

namespace Verdict

def isRejected : Verdict → Bool
  | rejected _ => true
  | _ => false

def isUndefined : Verdict → Bool
  | undefined => true
  | _ => false

end Verdict

namespace Tally

def total (c : Tally) : Nat := c.bound + c.alreadyBound + c.rejected + c.undefined

theorem total_count (c : Tally) (v : Verdict) : (c.count v).total = c.total + 1 := by
  cases v <;> simp only [total, count] <;> omega

theorem bound_count (c : Tally) (v : Verdict) :
    (c.count v).bound = c.bound + if v.isBound then 1 else 0 := by cases v <;> rfl

end Tally

namespace Tree

variable {t base : Tree} {ctx : Context} {s : BindingStep} {m : Matter}

/-- No two declarations of the walk hold one expression. -/
def Unshared (t : Tree) : Prop :=
  ∀ a ∈ t.walk, ∀ b ∈ t.walk, ∀ e, t.Holds a e → t.Holds b e → a = b

def verdict? (t : Tree) (ctx : Context) (s : BindingStep) : Option Verdict :=
  (t.matter? s).bind fun _ ↦ (t.judge ctx s).toOption

def reportsOf (t : Tree) (ctx : Context) (s : BindingStep) : Log :=
  (t.matter? s).elim [] fun m ↦ m.notes ++ (t.verdict? ctx s).elim [] m.report

theorem Faithful.targetOf (h : Faithful ctx base t) (hu : base.Unshared)
    (hs : s ∈ base.bindingSteps) {id : DeclId} (ht : t.targetOf s = some id) :
    base.targetOf s = some id ∨
      base.targetOf s = none ∧ base.ruling ctx s = .ok (.bound id) := by
  cases s with
  | dependsOn => cases ht
  | expression a e =>
    obtain ⟨ha, he⟩ := expression_mem_bindingSteps.mp hs
    obtain ⟨x, hx⟩ := Option.isSome_iff_exists.mp he.isSome
    obtain ⟨y, hy, hty⟩ := Option.bind_eq_some_iff.mp ht
    simp only [Tree.targetOf, hx, Option.bind_some]
    rcases h.target e x y hx hy with hxy | ⟨hn, b, id', hb, hr, hid⟩
    · exact .inl (hxy.symm.trans hty)
    · obtain ⟨hb, heb⟩ := expression_mem_bindingSteps.mp hb
      cases hu a ha b hb e he heb
      cases hty.symm.trans hid
      exact .inr ⟨hn, hr⟩

theorem Faithful.judge (h : Faithful ctx base t) (hu : base.Unshared)
    (hs : s ∈ base.bindingSteps) (hm : base.matter? s = some m) :
    t.judge ctx s = base.judge ctx s ∨
      t.judge ctx s = .ok .alreadyBound ∧ ∃ id, base.judge ctx s = .ok (.bound id) := by
  have hcov := covers_of_mem_bindingSteps hs
  rw [judge_eq hm, judge_eq ((matter?_grows h.grows hcov).trans hm), ruling_grows h.grows hcov]
  cases ht : t.targetOf s with
  | none =>
    cases hb : base.targetOf s with
    | none => exact .inl rfl
    | some id => simp [h.grows.targetOf_eq hb] at ht
  | some id =>
    rcases h.targetOf hu hs ht with hb | ⟨hb, hr⟩
    · simp [hb]
    · right
      simp [hb, hr]

theorem verdict?_of_matter? (hm : t.matter? s = some m) :
    t.verdict? ctx s = (t.judge ctx s).toOption := by rw [verdict?, hm, Option.bind_some]

section Faithful

variable (h : Faithful ctx base t) (hu : base.Unshared) (hs : s ∈ base.bindingSteps)

include h hu hs

theorem Faithful.verdict? : t.verdict? ctx s = base.verdict? ctx s ∨
    t.verdict? ctx s = some .alreadyBound ∧ ∃ id, base.verdict? ctx s = some (.bound id) := by
  have hm := matter?_grows h.grows (covers_of_mem_bindingSteps hs)
  cases hb : base.matter? s with
  | none => exact .inl (by simp [Tree.verdict?, hm, hb])
  | some m =>
    rw [verdict?_of_matter? hb, verdict?_of_matter? (hm.trans hb)]
    rcases h.judge hu hs hb with hj | ⟨hj, id, hid⟩
    · exact .inl (by rw [hj])
    · exact .inr ⟨by rw [hj]; rfl, id, by rw [hid]; rfl⟩

theorem Faithful.any_verdict? {p : Verdict → Bool} (ha : p .alreadyBound = false)
    (hb : ∀ id, p (.bound id) = false) :
    (t.verdict? ctx s).any p = (base.verdict? ctx s).any p := by
  rcases h.verdict? hu hs with hv | ⟨hv, id, hid⟩
  · rw [hv]
  · rw [hv, hid, Option.any_some, Option.any_some, ha, hb]

theorem Faithful.reportsOf : t.reportsOf ctx s = base.reportsOf ctx s := by
  rw [Tree.reportsOf, Tree.reportsOf, matter?_grows h.grows (covers_of_mem_bindingSteps hs)]
  cases base.matter? s with
  | none => rfl
  | some m =>
    rcases h.verdict? hu hs with hv | ⟨hv, id, hid⟩
    · simp only [hv]
    · simp only [hv, hid, Option.elim_some, Matter.report]

end Faithful

end Tree

namespace Binder

variable {b b' b'' : Binder} {base : Tree} {ctx : Context} {s : BindingStep}
  {steps : List BindingStep}

/-- The reports and counts of a run, read off a tree. -/
structure Accounts (ctx : Context) (base : Tree) (b : Binder) (steps : List BindingStep)
    (b' : Binder) : Prop where
  log : b'.log = b.log ++ steps.flatMap (base.reportsOf ctx)
  total : b'.tally.total = b.tally.total + steps.countP fun s ↦ (base.matter? s).isSome
  rejected : b'.tally.rejected =
    b.tally.rejected + steps.countP fun s ↦ (base.verdict? ctx s).any Verdict.isRejected
  undefined : b'.tally.undefined =
    b.tally.undefined + steps.countP fun s ↦ (base.verdict? ctx s).any Verdict.isUndefined

theorem Accounts.cons (h : Accounts ctx base b [s] b') (h' : Accounts ctx base b' steps b'') :
    Accounts ctx base b (s :: steps) b'' where
  log := by rw [h'.log, h.log, List.append_assoc, ← List.flatMap_append, List.singleton_append]
  total := by rw [h'.total, h.total, Nat.add_assoc, ← List.countP_append, List.singleton_append]
  rejected := by
    rw [h'.rejected, h.rejected, Nat.add_assoc, ← List.countP_append, List.singleton_append]
  undefined := by
    rw [h'.undefined, h.undefined, Nat.add_assoc, ← List.countP_append, List.singleton_append]

theorem accounts_self (hcov : b.tree.Covers s) (h : b.step ctx s = .ok b') :
    Accounts ctx b.tree b [s] b' := by
  rcases step_ok hcov h with ⟨hm, rfl⟩ | ⟨m, v, hm, hv, rfl⟩
  · constructor <;> simp [Tree.reportsOf, Tree.verdict?, hm]
  · have hv' : b.tree.verdict? ctx s = some v := by
      rw [Tree.verdict?_of_matter? hm, hv]
      rfl
    constructor
    · simp [Tree.reportsOf, hm, hv', after]
    · simp [hm, after, Tally.total_count]
    · cases v <;> simp [hv', after, Tally.count, Verdict.isRejected]
    · cases v <;> simp [hv', after, Tally.count, Verdict.isUndefined]

theorem accounts_step (h : base.Faithful ctx b.tree) (hu : base.Unshared)
    (hs : s ∈ base.bindingSteps) (hstep : b.step ctx s = .ok b') :
    Accounts ctx base b [s] b' := by
  have hcov := Tree.covers_of_mem_bindingSteps hs
  obtain ⟨hlog, htotal, hrejected, hundefined⟩ := accounts_self (hcov.grows h.grows) hstep
  simp only [List.flatMap_singleton, List.countP_singleton] at hlog htotal hrejected hundefined
  constructor
  · rw [hlog, List.flatMap_singleton, h.reportsOf hu hs]
  · rw [htotal, List.countP_singleton, Tree.matter?_grows h.grows hcov]
  · rw [hrejected, List.countP_singleton, h.any_verdict? hu hs rfl fun _ ↦ rfl]
  · rw [hundefined, List.countP_singleton, h.any_verdict? hu hs rfl fun _ ↦ rfl]

theorem accounts_of_inTurn (h : base.Faithful ctx b.tree) (hu : base.Unshared)
    (hsteps : ∀ s ∈ steps, s ∈ base.bindingSteps)
    (hrun : Outcome.inTurn (step ctx) b steps = .ok b') : Accounts ctx base b steps b' := by
  induction steps generalizing b with
  | nil =>
    cases hrun
    constructor <;> simp
  | cons s steps ih =>
    rw [List.forall_mem_cons] at hsteps
    rw [Outcome.inTurn] at hrun
    split at hrun
    next b₁ h₁ =>
      have hfirst := ran_step h hsteps.1 h₁
      exact (accounts_step h hu hsteps.1 h₁).cons (ih hfirst.faithful hsteps.2 hrun)
    next => cases hrun

theorem inTurn_of_settled {t : Tree} (hsteps : ∀ s ∈ steps, t.Covers s ∧ t.Settled ctx s)
    (log : Log) (tally : Tally) :
    ∃ b', Outcome.inTurn (step ctx) ⟨t, log, tally⟩ steps = .ok b' ∧ b'.tree = t ∧
      b'.tally.bound =
        tally.bound + steps.countP fun s ↦ (t.verdict? ctx s).any Verdict.isBound := by
  induction steps generalizing log tally with
  | nil => exact ⟨_, rfl, rfl, by simp⟩
  | cons s steps ih =>
    rw [List.forall_mem_cons] at hsteps
    obtain ⟨⟨hcov, hsettled⟩, hrest⟩ := hsteps
    rw [Outcome.inTurn, step_eq hcov, List.countP_cons]
    cases hm : t.matter? s with
    | none =>
      obtain ⟨b', hrun, ht, hbound⟩ := ih hrest log tally
      exact ⟨b', hrun, ht, by simp [hbound, Tree.verdict?, hm]⟩
    | some m =>
      obtain ⟨v, hv, heffect⟩ := hsettled.judge hm
      obtain ⟨b', hrun, ht, hbound⟩ := ih hrest (log ++ (m.notes ++ m.report v)) (tally.count v)
      refine ⟨b', by simpa only [hv, after, heffect] using hrun, ht, ?_⟩
      rw [hbound, Tree.verdict?_of_matter? hm, hv, Tally.bound_count, Nat.add_right_comm,
        Nat.add_assoc]
      rfl

end Binder

end InfraModule
