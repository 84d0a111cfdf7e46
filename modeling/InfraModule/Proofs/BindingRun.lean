import InfraModule.Proofs.BindingStep

namespace InfraModule

namespace Tree

variable {t t' base : Tree} {ctx : Context} {s : BindingStep} {m : Matter} {v : Verdict}

/-- A tree in which some of the steps of another have been carried out. -/
structure Faithful (ctx : Context) (base t : Tree) : Prop where
  grows : base.Grows t
  target : ∀ e x y, base.expr? e = some x → t.expr? e = some y → y.target = x.target ∨
    x.target = none ∧ ∃ owner id, .expression owner e ∈ base.bindingSteps ∧
      base.ruling ctx (.expression owner e) = .ok (.bound id) ∧ y.target = some id
  dependency : ∀ a d d' id, base.decl? a = some d → t.decl? a = some d' →
    ⟨id, .dependsOn⟩ ∈ d'.dependencies → ⟨id, .dependsOn⟩ ∈ d.dependencies ∨
      ∃ name, .dependsOn a name ∈ base.bindingSteps ∧
        base.ruling ctx (.dependsOn a name) = .ok (.bound id)

theorem Faithful.refl (ctx : Context) (t : Tree) : Faithful ctx t t where
  grows := .refl t
  target e x y hx hy := .inl (by cases hx.symm.trans hy; rfl)
  dependency a d d' id hd hd' hm := .inl (by cases hd.symm.trans hd'; exact hm)

theorem mem_bindingSteps : s ∈ t.bindingSteps ↔ ∃ a ∈ t.walk, s ∈ t.stepsOf a := List.mem_flatMap

theorem expression_mem_stepsOf {a b : DeclId} {e : ExprId} :
    .expression b e ∈ t.stepsOf a ↔ b = a ∧ t.Holds a e := by
  cases hd : t.decl? a with
  | none =>
    simp only [stepsOf, hd, List.not_mem_nil, false_iff]
    rintro ⟨-, he⟩
    obtain ⟨d, hd'⟩ := he.exists_decl
    simp [hd] at hd'
  | some d =>
    simp only [stepsOf, hd, holds_iff hd, List.mem_append, List.mem_map,
      BindingStep.expression.injEq, reduceCtorEq, and_false, exists_false, or_false]
    constructor
    · rintro ⟨_, he, rfl, rfl⟩
      exact ⟨rfl, he⟩
    · rintro ⟨rfl, he⟩
      exact ⟨e, he, rfl, rfl⟩

theorem dependsOn_mem_stepsOf {a b : DeclId} {name : String} :
    .dependsOn b name ∈ t.stepsOf a ↔
      b = a ∧ ∃ d, t.decl? a = some d ∧ name ∈ d.kind.dependsOn := by
  cases hd : t.decl? a with
  | none => simp [stepsOf, hd]
  | some d =>
    simp only [stepsOf, hd, List.mem_append, List.mem_map, BindingStep.dependsOn.injEq,
      reduceCtorEq, and_false, exists_false, false_or, Option.some.injEq, exists_eq_left']
    constructor
    · rintro ⟨_, hname, rfl, rfl⟩
      exact ⟨rfl, hname⟩
    · rintro ⟨rfl, hname⟩
      exact ⟨name, hname, rfl, rfl⟩

theorem expression_mem_bindingSteps {a : DeclId} {e : ExprId} :
    .expression a e ∈ t.bindingSteps ↔ a ∈ t.walk ∧ t.Holds a e := by
  simp only [mem_bindingSteps, expression_mem_stepsOf]
  constructor
  · rintro ⟨b, hb, rfl, he⟩
    exact ⟨hb, he⟩
  · rintro ⟨ha, he⟩
    exact ⟨a, ha, rfl, he⟩

theorem dependsOn_mem_bindingSteps {a : DeclId} {name : String} :
    .dependsOn a name ∈ t.bindingSteps ↔
      a ∈ t.walk ∧ ∃ d, t.decl? a = some d ∧ name ∈ d.kind.dependsOn := by
  simp only [mem_bindingSteps, dependsOn_mem_stepsOf]
  constructor
  · rintro ⟨b, hb, rfl, hname⟩
    exact ⟨hb, hname⟩
  · rintro ⟨ha, hname⟩
    exact ⟨a, ha, rfl, hname⟩

theorem covers_of_mem_bindingSteps (hs : s ∈ t.bindingSteps) : t.Covers s := by
  cases s with
  | expression a e =>
    obtain ⟨ha, he⟩ := expression_mem_bindingSteps.mp hs
    exact ⟨Option.isSome_iff_exists.mpr (exists_decl_of_mem_walk ha), he.isSome⟩
  | dependsOn a name =>
    obtain ⟨-, d, hd, -⟩ := dependsOn_mem_bindingSteps.mp hs
    exact Option.isSome_iff_exists.mpr ⟨d, hd⟩

theorem origin_expression {e : ExprId} (hm : t.matter? s = some m)
    (ho : m.origin = .expression e) : s = .expression m.owner e := by
  cases s with
  | expression a e' =>
    obtain ⟨d, x, r, -, -, -, rfl⟩ := matter?_expression hm
    cases ho
    rfl
  | dependsOn a name =>
    obtain ⟨d, -, rfl⟩ := Option.map_eq_some_iff.mp hm
    cases ho

theorem origin_dependsOn (hm : t.matter? s = some m) (ho : m.origin = .dependsOn) :
    s = .dependsOn m.owner m.name := by
  cases s with
  | expression a e =>
    obtain ⟨d, x, r, -, -, -, rfl⟩ := matter?_expression hm
    cases ho
  | dependsOn a name =>
    obtain ⟨d, -, rfl⟩ := Option.map_eq_some_iff.mp hm
    rfl

theorem ruling_of_judge_bound {id : DeclId} (hm : t.matter? s = some m)
    (hv : t.judge ctx s = .ok (.bound id)) :
    t.targetOf s = none ∧ t.ruling ctx s = .ok (.bound id) := by
  rw [judge_eq hm] at hv
  split at hv
  next => cases hv
  next hn => exact ⟨Option.not_isSome_iff_eq_none.mp hn, hv⟩

theorem Faithful.effect (h : Faithful ctx base t) (hs : s ∈ base.bindingSteps)
    (hm : t.matter? s = some m) (hv : t.judge ctx s = .ok v) :
    Faithful ctx base (m.effect t v) where
  grows := h.grows.trans (grows_effect hm hv)
  target e x y hx hy := by
    rw [Matter.expr?_effect] at hy
    split at hy
    next id =>
      split at hy
      next ho =>
        obtain ⟨hn, hr⟩ := ruling_of_judge_bound hm hv
        rw [ruling_grows h.grows (covers_of_mem_bindingSteps hs)] at hr
        cases origin_expression hm ho
        obtain ⟨z, hz, rfl⟩ := Option.map_eq_some_iff.mp hy
        simp only [targetOf, hz, Option.bind_some] at hn
        refine .inr ⟨?_, m.owner, id, hs, hr, rfl⟩
        rcases h.target e x z hx hz with ht | ⟨ht, -⟩
        · rw [← ht, hn]
        · exact ht
      next => exact h.target e x y hx hy
    next => exact h.target e x y hx hy
  dependency a d d' id hd hd' hmem := by
    rw [Matter.decl?_effect] at hd'
    split at hd'
    next ha =>
      obtain ⟨c, hc, rfl⟩ := Option.map_eq_some_iff.mp hd'
      have hbefore := h.dependency a d c id hd hc
      cases v with
      | undefined | alreadyBound | rejected => exact hbefore hmem
      | bound id' =>
        rcases (Roster.mem_insert _ _ _).mp hmem with hmem | heq
        · exact hbefore hmem
        · obtain ⟨rfl, ho⟩ := Dependency.mk.inj heq
          obtain ⟨-, hr⟩ := ruling_of_judge_bound hm hv
          rw [ruling_grows h.grows (covers_of_mem_bindingSteps hs)] at hr
          cases origin_dependsOn hm ho.symm
          subst ha
          exact .inr ⟨m.name, hs, hr⟩
    next => exact h.dependency a d d' id hd hd' hmem

def Records (t : Tree) (m : Matter) : Verdict → Prop
  | .undefined => ∃ d, t.decl? m.owner = some d ∧ m.name ∈ d.missing
  | .bound id => m.origin = .dependsOn ∧
      ∃ d, t.decl? m.owner = some d ∧ ⟨id, .dependsOn⟩ ∈ d.dependencies
  | .alreadyBound | .rejected _ => True

/-- Nothing is left to do for a step. -/
def Settled (t : Tree) (ctx : Context) (s : BindingStep) : Prop :=
  ∀ m, t.matter? s = some m →
    (t.targetOf s).isSome ∨ ∃ v, t.ruling ctx s = .ok v ∧ t.Records m v

theorem exists_decl_of_matter? (hm : t.matter? s = some m) : ∃ d, t.decl? m.owner = some d := by
  cases s with
  | expression a e =>
    obtain ⟨d, x, r, hd, -, -, rfl⟩ := matter?_expression hm
    exact ⟨d, hd⟩
  | dependsOn a name =>
    obtain ⟨d, hd, rfl⟩ := Option.map_eq_some_iff.mp hm
    exact ⟨d, hd⟩

theorem Grows.targetOf_eq {id : DeclId} (h : t.Grows t') (ht : t.targetOf s = some id) :
    t'.targetOf s = some id := by
  cases s with
  | expression a e =>
    obtain ⟨x, hx, ht⟩ := Option.bind_eq_some_iff.mp ht
    obtain ⟨x', hx', hg⟩ := h.expr e x hx
    rcases hg.target with ht' | ⟨hn, -⟩
    · simp [targetOf, hx', ht', ht]
    · simp [ht] at hn
  | dependsOn => cases ht

theorem Grows.isSome_targetOf (h : t.Grows t') (ht : (t.targetOf s).isSome) :
    (t'.targetOf s).isSome := by
  obtain ⟨id, ht⟩ := Option.isSome_iff_exists.mp ht
  simp [h.targetOf_eq ht]

theorem Records.grows (hr : t.Records m v) (h : t.Grows t') : t'.Records m v := by
  cases v with
  | undefined =>
    obtain ⟨d, hd, hmem⟩ := hr
    obtain ⟨d', hd', hg⟩ := h.decl _ d hd
    exact ⟨d', hd', hg.missing.subset hmem⟩
  | bound id =>
    obtain ⟨ho, d, hd, hmem⟩ := hr
    obtain ⟨d', hd', hg⟩ := h.decl _ d hd
    exact ⟨ho, d', hd', hg.dependencies.subset hmem⟩
  | alreadyBound | rejected => trivial

theorem Settled.grows (hs : t.Settled ctx s) (hcov : t.Covers s) (h : t.Grows t') :
    t'.Settled ctx s := by
  intro m hm
  rw [matter?_grows h hcov] at hm
  rcases hs m hm with ht | ⟨v, hv, hr⟩
  · exact .inl (h.isSome_targetOf ht)
  · exact .inr ⟨v, (ruling_grows h hcov).trans hv, hr.grows h⟩

theorem settled_effect (hcov : t.Covers s) (hm : t.matter? s = some m)
    (hv : t.judge ctx s = .ok v) : (m.effect t v).Settled ctx s := by
  have hg := grows_effect hm hv
  intro m' hm'
  rw [matter?_grows hg hcov, hm, Option.some_inj] at hm'
  subst hm'
  rw [judge_eq hm] at hv
  split at hv
  next ht => exact .inl (hg.isSome_targetOf ht)
  next ht =>
    have hruling := (ruling_grows hg hcov).trans hv
    obtain ⟨d, hd⟩ := exists_decl_of_matter? hm
    have howner : (m.effect t v).decl? m.owner = some (m.record v d) := by
      rw [Matter.decl?_effect, if_pos rfl, hd, Option.map_some]
    cases v with
    | alreadyBound | rejected => exact .inr ⟨_, hruling, trivial⟩
    | undefined =>
      exact .inr ⟨_, hruling, _, howner, (Roster.mem_insert _ _ _).mpr (.inr rfl)⟩
    | bound id =>
      cases ho : m.origin with
      | expression e =>
        left
        have hs := origin_expression hm ho
        obtain ⟨x, hx⟩ := Option.isSome_iff_exists.mp (hs ▸ hcov : t.Covers (.expression _ e)).2
        simp [hs, targetOf, Matter.expr?_effect, ho, hx]
      | dependsOn =>
        refine .inr ⟨_, hruling, ho, _, howner, (Roster.mem_insert _ _ _).mpr (.inr ?_)⟩
        rw [ho]

theorem Records.record_eq (hr : t.Records m v) {d : Declaration} (hd : t.decl? m.owner = some d) :
    m.record v d = d := by
  cases v with
  | undefined =>
    obtain ⟨d', hd', hmem⟩ := hr
    cases hd.symm.trans hd'
    simp only [Matter.record, Roster.insert_of_mem hmem]
  | bound id =>
    obtain ⟨ho, d', hd', hmem⟩ := hr
    cases hd.symm.trans hd'
    simp only [Matter.record, ho, Roster.insert_of_mem hmem]
  | alreadyBound | rejected => rfl

theorem Records.effect_eq (hr : t.Records m v) : m.effect t v = t := by
  refine ext_lookup (fun a ↦ ?_) fun e ↦ ?_
  · rw [Matter.decl?_effect]
    split
    next ha =>
      subst ha
      cases hd : t.decl? m.owner with
      | none => rfl
      | some d => rw [Option.map_some, hr.record_eq hd]
    next => rfl
  · rw [Matter.expr?_effect]
    split
    next => rw [if_neg (by simp [hr.1])]
    next => rfl

theorem Settled.judge (hs : t.Settled ctx s) (hm : t.matter? s = some m) :
    ∃ v, t.judge ctx s = .ok v ∧ m.effect t v = t := by
  rw [judge_eq hm]
  rcases hs m hm with ht | ⟨v, hv, hr⟩
  · exact ⟨.alreadyBound, if_pos ht, rfl⟩
  · split
    next => exact ⟨.alreadyBound, rfl, rfl⟩
    next => exact ⟨v, hv, hr.effect_eq⟩

end Tree

namespace Binder

variable {b b' : Binder} {base : Tree} {ctx : Context} {s : BindingStep} {steps : List BindingStep}

theorem step_ok (hcov : b.tree.Covers s) (h : b.step ctx s = .ok b') :
    b.tree.matter? s = none ∧ b' = b ∨
    ∃ m v, b.tree.matter? s = some m ∧ b.tree.judge ctx s = .ok v ∧ b' = b.after m v := by
  rw [step_eq hcov] at h
  split at h
  next hm =>
    cases h
    exact .inl ⟨hm, rfl⟩
  next m hm =>
    split at h
    next v hv =>
      cases h
      exact .inr ⟨m, v, hm, hv, rfl⟩
    next => cases h

/-- What a run comes to: the tree is faithful to where it started, and nothing is left to do. -/
structure Ran (ctx : Context) (base : Tree) (b : Binder) (steps : List BindingStep) (b' : Binder) :
    Prop where
  grows : b.tree.Grows b'.tree
  faithful : base.Faithful ctx b'.tree
  settled : ∀ s ∈ steps, b'.tree.Settled ctx s

theorem ran_step (h : base.Faithful ctx b.tree) (hs : s ∈ base.bindingSteps)
    (hstep : b.step ctx s = .ok b') : Ran ctx base b [s] b' := by
  have hcov := (Tree.covers_of_mem_bindingSteps hs).grows h.grows
  rcases step_ok hcov hstep with ⟨hm, rfl⟩ | ⟨m, v, hm, hv, rfl⟩
  · exact ⟨.refl _, h, by simp [Tree.Settled, hm]⟩
  · exact ⟨Tree.grows_effect hm hv, h.effect hs hm hv,
      List.forall_mem_singleton.mpr (Tree.settled_effect hcov hm hv)⟩

theorem ran_of_inTurn (h : base.Faithful ctx b.tree) (hsteps : ∀ s ∈ steps, s ∈ base.bindingSteps)
    (hrun : Outcome.inTurn (step ctx) b steps = .ok b') : Ran ctx base b steps b' := by
  -- the tree before each step is faithful to `base`; what is settled stays so as the tree grows
  induction steps generalizing b with
  | nil =>
    cases hrun
    exact ⟨.refl _, h, by simp⟩
  | cons s steps ih =>
    rw [List.forall_mem_cons] at hsteps
    rw [Outcome.inTurn] at hrun
    split at hrun
    next b₁ h₁ =>
      have hfirst := ran_step h hsteps.1 h₁
      have hrest := ih hfirst.faithful hsteps.2 hrun
      have hcov := (Tree.covers_of_mem_bindingSteps hsteps.1).grows hfirst.faithful.grows
      refine ⟨hfirst.grows.trans hrest.grows, hrest.faithful, ?_⟩
      rw [List.forall_mem_cons]
      exact ⟨(hfirst.settled s (by simp)).grows hcov hrest.grows, hrest.settled⟩
    next => cases hrun

end Binder

end InfraModule
