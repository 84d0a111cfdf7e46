import InfraModule.Proofs.BindingExactness
import InfraModule.Proofs.Containment

namespace InfraModule

open Provider

theorem Verdict.Fits.eq_undefined_iff {found : Option DeclId} {legal : DeclId → Prop}
    {v : Verdict} (h : v.Fits found legal) : v = .undefined ↔ found = none := by
  cases h with
  | undefined hf => simp [hf]
  | bound hf _ | rejected _ hf _ => simp [hf]

namespace Tree

variable {t t' base : Tree} {ctx : Context} {s : BindingStep} {m : Matter} {v : Verdict}

def Ruled (t : Tree) (ctx : Context) (m : Matter) (v : Verdict) : Prop :=
  ∃ s ∈ t.bindingSteps, t.matter? s = some m ∧ t.ruling ctx s = .ok v

/-- Whatever is recorded in `t` and was not in `base` follows from a verdict there, and whatever
was bound since is recorded. -/
structure Recorded (ctx : Context) (base t : Tree) : Prop where
  grows : base.Grows t
  dependency : ∀ a d d' x, base.decl? a = some d → t.decl? a = some d' → x ∈ d'.dependencies →
    x ∈ d.dependencies ∨
      ∃ m, m.owner = a ∧ m.origin = x.origin ∧ base.Ruled ctx m (.bound x.target)
  missing : ∀ a d d' name, base.decl? a = some d → t.decl? a = some d' → name ∈ d'.missing →
    name ∈ d.missing ∨ ∃ m, m.owner = a ∧ m.name = name ∧ base.Ruled ctx m .undefined
  target : ∀ e x y id, base.expr? e = some x → t.expr? e = some y → y.target = some id →
    x.target = some id ∨ ∃ a d', .expression a e ∈ base.bindingSteps ∧ t.decl? a = some d' ∧
      ⟨id, .expression e⟩ ∈ d'.dependencies

theorem Recorded.refl (ctx : Context) (t : Tree) : Recorded ctx t t := by
  refine ⟨.refl t, ?_, ?_, ?_⟩
  · intro a d d' x hd hd' hx
    cases hd.symm.trans hd'
    exact .inl hx
  · intro a d d' name hd hd' hname
    cases hd.symm.trans hd'
    exact .inl hname
  · intro e x y id hx hy hid
    cases hx.symm.trans hy
    exact .inl hid

section Step

variable (h : Recorded ctx base t) (hs : s ∈ base.bindingSteps) (hm : t.matter? s = some m)
  (hv : t.judge ctx s = .ok v)

include h hs hm hv

theorem Recorded.ruled (hne : v ≠ .alreadyBound) : base.Ruled ctx m v := by
  have hcov := covers_of_mem_bindingSteps hs
  refine ⟨s, hs, (matter?_grows h.grows hcov).symm.trans hm, ?_⟩
  rw [judge_eq hm] at hv
  split at hv
  next => exact absurd (Except.ok.inj hv).symm hne
  next => rwa [ruling_grows h.grows hcov] at hv

theorem Recorded.effect : Recorded ctx base (m.effect t v) := by
  have hgrows := grows_effect hm hv
  refine ⟨h.grows.trans hgrows, ?_, ?_, ?_⟩
  · intro a d d' x hd hd' hx
    rw [Matter.decl?_effect] at hd'
    split at hd'
    next ha =>
      obtain ⟨c, hc, rfl⟩ := Option.map_eq_some_iff.mp hd'
      have hbefore := h.dependency a d c x hd hc
      cases v with
      | undefined | alreadyBound | rejected => exact hbefore hx
      | bound id =>
        rcases (Roster.mem_insert _ _ _).mp hx with hx | rfl
        · exact hbefore hx
        · exact .inr ⟨m, ha.symm, rfl, h.ruled hs hm hv (by simp)⟩
    next => exact h.dependency a d d' x hd hd' hx
  · intro a d d' name hd hd' hname
    rw [Matter.decl?_effect] at hd'
    split at hd'
    next ha =>
      obtain ⟨c, hc, rfl⟩ := Option.map_eq_some_iff.mp hd'
      have hbefore := h.missing a d c name hd hc
      cases v with
      | bound | alreadyBound | rejected => exact hbefore hname
      | undefined =>
        rcases (Roster.mem_insert _ _ _).mp hname with hname | rfl
        · exact hbefore hname
        · exact .inr ⟨m, ha.symm, rfl, h.ruled hs hm hv (by simp)⟩
    next => exact h.missing a d d' name hd hd' hname
  · intro e x y id hx hy hid
    -- a reference bound earlier stays recorded, since records are only continued
    have hkept (z : Expression) (hz : t.expr? e = some z) (hzid : z.target = some id) :
        x.target = some id ∨ ∃ a d', .expression a e ∈ base.bindingSteps ∧
          (m.effect t v).decl? a = some d' ∧ ⟨id, .expression e⟩ ∈ d'.dependencies := by
      rcases h.target e x z id hx hz hzid with hold | ⟨a, d, ha, hd, hmem⟩
      · exact .inl hold
      · obtain ⟨d', hd', hg⟩ := hgrows.decl a d hd
        exact .inr ⟨a, d', ha, hd', hg.dependencies.subset hmem⟩
    have hexpr := Matter.expr?_effect m t v e
    cases v with
    | undefined | alreadyBound | rejected => exact hkept y (hexpr ▸ hy) hid
    | bound id' =>
      simp only at hexpr
      rw [hexpr] at hy
      split at hy
      next ho =>
        obtain ⟨z, -, rfl⟩ := Option.map_eq_some_iff.mp hy
        cases hid
        obtain ⟨c, hc⟩ := exists_decl_of_matter? hm
        refine .inr ⟨m.owner, m.record (.bound id) c, origin_expression hm ho ▸ hs, ?_, ?_⟩
        · rw [Matter.decl?_effect, if_pos rfl, hc, Option.map_some]
        · exact (Roster.mem_insert _ _ _).mpr (.inr (by rw [ho]))
      next => exact hkept y hy hid

end Step

end Tree

namespace Binder

variable {b b' : Binder} {base : Tree} {ctx : Context} {s : BindingStep} {m : Matter}
  {steps : List BindingStep}

theorem recorded_of_inTurn (h : base.Recorded ctx b.tree)
    (hsteps : ∀ s ∈ steps, s ∈ base.bindingSteps)
    (hrun : Outcome.inTurn (step ctx) b steps = .ok b') : base.Recorded ctx b'.tree := by
  refine Outcome.inTurn_invariant (I := fun b ↦ base.Recorded ctx b.tree) ?_ h hrun
  intro s hs b b' h hstep
  have hcov := (Tree.covers_of_mem_bindingSteps (hsteps s hs)).grows h.grows
  rcases step_ok hcov hstep with ⟨-, rfl⟩ | ⟨m, v, hm, hv, rfl⟩
  · exact h
  · exact h.effect (hsteps s hs) hm hv

theorem Ran.exists_ruling (h : Ran ctx base b steps b') (hu : base.Unshared) (hs : s ∈ steps)
    (hbase : s ∈ base.bindingSteps) (hm : base.matter? s = some m)
    (hn : base.targetOf s = none) :
    ∃ v, base.ruling ctx s = .ok v ∧
      ((∃ id, v = .bound id ∧ b'.tree.targetOf s = some id) ∨ b'.tree.Records m v) := by
  have hcov := Tree.covers_of_mem_bindingSteps hbase
  have hgrows := h.faithful.grows
  rcases h.settled s hs m ((Tree.matter?_grows hgrows hcov).trans hm) with ht | ⟨v, hv, hrec⟩
  · obtain ⟨id, ht⟩ := Option.isSome_iff_exists.mp ht
    rcases h.faithful.targetOf hu hbase ht with hb | ⟨-, hr⟩
    · simp [hn] at hb
    · exact ⟨_, hr, .inl ⟨id, rfl, ht⟩⟩
  · rw [Tree.ruling_grows hgrows hcov] at hv
    exact ⟨v, hv, .inr hrec⟩

end Binder

namespace Tree

variable {t t' base : Tree} {ctx : Context} {file : String}

/-- A tree in which nothing was bound or recorded yet, nothing is shared, and nothing is out of
reach. -/
structure Pristine (t : Tree) : Prop where
  closed : t.Closed
  unshared : t.Unshared
  walk : ∀ a, (t.decl? a).isSome → a ∈ t.walk
  target : ∀ e x, t.expr? e = some x → x.target = none
  dependencies : ∀ a d, t.decl? a = some d → d.dependencies = .empty
  missing : ∀ a d, t.decl? a = some d → d.missing = .empty

theorem Pristine.keeps (h : t.Pristine) (hg : t.Grows t') (hk : t.Keeps t') : t'.Pristine where
  closed := h.closed.grows hg
  unshared := h.unshared.grows h.closed hg
  walk a ha := by
    rw [hg.isSome_decl?] at ha
    rw [hg.walk_eq]
    exact h.walk a ha
  target e x' hx' := by
    cases hx : t.expr? e with
    | none => exact (hg.fresh e x' hx hx').2.1
    | some x =>
      cases (hk.expr e x hx).symm.trans hx'
      exact h.target e _ hx
  dependencies a d' hd' := by
    obtain ⟨d, hd, -⟩ := hg.exists_decl hd'
    rw [hk.dependencies a d d' hd hd', h.dependencies a d hd]
  missing a d' hd' := by
    obtain ⟨d, hd, -⟩ := hg.exists_decl hd'
    rw [hk.missing a d d' hd hd', h.missing a d hd]

theorem Drafted.pristine (h : t.Drafted file) (hroot : (t.decl? root).isSome) (hg : t.Grown) :
    t.Pristine :=
  ⟨h.closed, h.unshared, fun _ ha ↦ h.mem_walk hroot ha, fun e x hx ↦ (h.expr e x hx).1,
    fun a d hd ↦ (h.decl a d hd).2.1, fun _ _ hd ↦ hg.missing_eq_empty hd⟩

theorem firstNamed_eq_none (hall : ∀ a, (t.decl? a).isSome → a ∈ t.walk) {name : String} :
    t.firstNamed name = none ↔ ∀ a d, t.decl? a = some d → a ≠ root → d.fullName ≠ name := by
  rw [firstNamed, List.find?_eq_none]
  constructor
  · intro hnone a d hd hne
    have ha := hnone a (mem_nameable.mpr ⟨hall a (by simp [hd]), hne⟩)
    simpa [isNamed, hd] using ha
  · intro hno a ha
    obtain ⟨ha, hne⟩ := mem_nameable.mp ha
    obtain ⟨d, hd⟩ := exists_decl_of_mem_walk ha
    simpa [isNamed, hd] using hno a d hd hne

theorem Grows.denotesInstance_iff (h : t.Grows t') {name : String} {id : DeclId} :
    t'.DenotesInstance name id ↔ t.DenotesInstance name id := by
  unfold DenotesInstance
  rw [h.firstNamed_eq]
  rcases h.decl?_cases id with ⟨hd, hd'⟩ | ⟨d, d', hd, hd', hg⟩
  · simp [hd, hd']
  · simp [hd, hd', hg.kind.isProvisioned_eq]

def Uses (t : Tree) (a : DeclId) (name : String) : Prop :=
  (∃ e x r, t.Holds a e ∧ t.expr? e = some x ∧ x.kind.reference? = some r ∧ r.name = name) ∨
    ∃ d, t.decl? a = some d ∧ name ∈ d.kind.dependsOn

theorem uses_iff {a : DeclId} (ha : a ∈ t.walk) {name : String} :
    t.Uses a name ↔ ∃ s ∈ t.bindingSteps, ∃ m, t.matter? s = some m ∧ m.owner = a ∧
      m.name = name := by
  obtain ⟨d, hd⟩ := exists_decl_of_mem_walk ha
  constructor
  · intro h
    rcases h with ⟨e, x, r, he, hx, hr, hname⟩ | ⟨d, hd, hname⟩
    · exact ⟨_, expression_mem_bindingSteps.mpr ⟨ha, he⟩, _, matter?_of_reference hd hx hr, rfl,
        hname⟩
    · exact ⟨_, dependsOn_mem_bindingSteps.mpr ⟨ha, d, hd, hname⟩, _, matter?_dependsOn hd name,
        rfl, rfl⟩
  · intro h
    obtain ⟨s, hs, m, hm, rfl, rfl⟩ := h
    cases s with
    | expression a e =>
      obtain ⟨-, x, r, -, hx, hr, rfl⟩ := matter?_expression hm
      exact .inl ⟨e, x, r, (expression_mem_bindingSteps.mp hs).2, hx, hr, rfl⟩
    | dependsOn a name =>
      obtain ⟨d, -, rfl⟩ := Option.map_eq_some_iff.mp hm
      exact .inr (dependsOn_mem_bindingSteps.mp hs).2

theorem Grows.uses_iff (h : t.Grows t') (hc : t.Closed) {a : DeclId} (ha : a ∈ t.walk)
    {name : String} : t'.Uses a name ↔ t.Uses a name := by
  rw [Tree.uses_iff ha, Tree.uses_iff (h.walk_eq ▸ ha)]
  constructor
  · intro ⟨s, hs, m, hm, ho, hn⟩
    have hs := mem_bindingSteps_of_matter? h hc hs hm
    rw [matter?_grows h (covers_of_mem_bindingSteps hs)] at hm
    exact ⟨s, hs, m, hm, ho, hn⟩
  · intro ⟨s, hs, m, hm, ho, hn⟩
    rw [← matter?_grows h (covers_of_mem_bindingSteps hs)] at hm
    exact ⟨s, bindingSteps_subset h hs, m, hm, ho, hn⟩

theorem ruling_eq_undefined_iff {s : BindingStep} {m : Matter} {v : Verdict}
    (hctx : ctx.Indexes t) (hm : t.matter? s = some m) (hv : t.ruling ctx s = .ok v) :
    v = .undefined ↔ t.firstNamed m.name = none := by
  cases s with
  | expression a e =>
    obtain ⟨d, x, r, hd, hx, hr, rfl⟩ := matter?_expression hm
    simp only [ruling, hd, hx, hr] at hv
    exact (Context.ruling_fits hctx hv).eq_undefined_iff
  | dependsOn a name =>
    obtain ⟨d, -, rfl⟩ := Option.map_eq_some_iff.mp hm
    exact (Context.judgeDependsOn_fits hctx hv).eq_undefined_iff

end Tree

namespace Binder

open InfraModule.Tree

variable {b b' : Binder} {base : Tree} {ctx : Context} (hp : base.Pristine)
  (hctx : ctx.Indexes base) (hran : Ran ctx base b base.bindingSteps b')
  (hrec : base.Recorded ctx b'.tree) {a : DeclId} {d' : Declaration}
  (hd' : b'.tree.decl? a = some d')

include hp hctx hran hrec hd'

theorem mem_missing_iff {name : String} : name ∈ d'.missing ↔
    b'.tree.Uses a name ∧ b'.tree.firstNamed name = none := by
  obtain ⟨d, hd, -⟩ := hrec.grows.exists_decl hd'
  have ha : a ∈ base.walk := hp.walk a (by simp [hd])
  rw [hrec.grows.uses_iff hp.closed ha, hrec.grows.firstNamed_eq, Tree.uses_iff ha]
  constructor
  · intro hname
    rcases hrec.missing a d d' name hd hd' hname with hold | ⟨m, ho, hn, s, hs, hm, hr⟩
    · rw [hp.missing a d hd] at hold
      cases hold
    · rw [← hn]
      exact ⟨⟨s, hs, m, hm, ho, rfl⟩, (ruling_eq_undefined_iff hctx hm hr).mp rfl⟩
  · intro ⟨⟨s, hs, m, hm, ho, hn⟩, hnone⟩
    obtain ⟨v, hv, hshown⟩ := hran.exists_ruling hp.unshared hs hs hm (targetOf_eq_none hp.target s)
    rw [← hn] at hnone ⊢
    rw [(ruling_eq_undefined_iff hctx hm hv).mpr hnone] at hshown
    rcases hshown with ⟨id, hbound, -⟩ | ⟨c, hc, hmem⟩
    · cases hbound
    · rw [ho, hd'] at hc
      cases hc
      exact hmem

omit hctx in
theorem mem_dependencies_expression {e : ExprId} {id : DeclId} :
    ⟨id, .expression e⟩ ∈ d'.dependencies ↔
      b'.tree.Holds a e ∧ ∃ y, b'.tree.expr? e = some y ∧ y.target = some id := by
  obtain ⟨d, hd, -⟩ := hrec.grows.exists_decl hd'
  have ha : a ∈ base.walk := hp.walk a (by simp [hd])
  constructor
  · intro hmem
    rcases hrec.dependency a d d' _ hd hd' hmem with hold | ⟨m, ho, horigin, s, hs, hm, hr⟩
    · rw [hp.dependencies a d hd] at hold
      cases hold
    · cases origin_expression hm horigin
      obtain ⟨v, hv, hshown⟩ :=
        hran.exists_ruling hp.unshared hs hs hm (targetOf_eq_none hp.target _)
      cases hr.symm.trans hv
      rcases hshown with ⟨id', hbound, ht⟩ | ⟨hdepends, -⟩
      · cases hbound
        rw [ho] at hs
        exact ⟨(expression_mem_bindingSteps.mp hs).2.grows hrec.grows,
          Option.bind_eq_some_iff.mp ht⟩
      · simp [horigin] at hdepends
  · intro ⟨he, y, hy, hid⟩
    cases hx : base.expr? e with
    | none =>
      have hnone := (hrec.grows.fresh e y hx hy).2.1
      simp [hid] at hnone
    | some x =>
      rcases hrec.target e x y id hx hy hid with hold | ⟨c, d₁, hc, hd₁, hmem⟩
      · simp [hp.target e x hx] at hold
      · have held := (he.of_grows hrec.grows hp.closed).resolve_right (by simp [hx])
        obtain ⟨hcw, heldc⟩ := expression_mem_bindingSteps.mp hc
        cases hp.unshared a ha c hcw e held heldc
        cases hd'.symm.trans hd₁
        exact hmem

theorem mem_dependencies_dependsOn {id : DeclId} : ⟨id, .dependsOn⟩ ∈ d'.dependencies ↔
    ∃ name ∈ d'.kind.dependsOn, b'.tree.DenotesInstance name id := by
  obtain ⟨d, hd, hg⟩ := hrec.grows.exists_decl hd'
  have ha : a ∈ base.walk := hp.walk a (by simp [hd])
  rw [hg.kind.dependsOn_eq]
  constructor
  · intro hmem
    rcases hrec.dependency a d d' _ hd hd' hmem with hold | ⟨m, ho, horigin, s, hs, hm, hr⟩
    · rw [hp.dependencies a d hd] at hold
      cases hold
    · cases origin_dependsOn hm horigin
      rw [ho] at hs
      obtain ⟨-, c, hc, hname⟩ := dependsOn_mem_bindingSteps.mp hs
      cases hd.symm.trans hc
      refine ⟨m.name, hname, hrec.grows.denotesInstance_iff.mpr ?_⟩
      exact (Context.judgeDependsOn_fits hctx hr).eq_bound_iff.mp rfl
  · intro ⟨name, hname, hdenotes⟩
    have hs := dependsOn_mem_bindingSteps.mpr ⟨ha, d, hd, hname⟩
    obtain ⟨v, hv, hshown⟩ :=
      hran.exists_ruling hp.unshared hs hs (matter?_dependsOn hd name) rfl
    have hbound := (Context.judgeDependsOn_fits hctx hv).eq_bound_iff.mpr
      (hrec.grows.denotesInstance_iff.mp hdenotes)
    subst hbound
    rcases hshown with ⟨_, -, ht⟩ | ⟨-, c, hc, hmem⟩
    · cases ht
    · cases hd'.symm.trans hc
      exact hmem

end Binder

namespace Draft

/-- After an analysis a declaration depends on what its references were bound to and on the
instances that it is to be deployed after, and misses the names it uses that nothing has. -/
theorem dependencies_exact {name file : String} {statements : List Statement}
    {directory : Directory} {options : Options} {t' : Tree} {analysis : Analysis}
    (h : (build name file statements).analyze directory options = (t', .ok analysis))
    {a : DeclId} {d : Declaration} (hd : t'.decl? a = some d) :
    d.dependencies.toList.Nodup ∧
    (∀ e id, ⟨id, .expression e⟩ ∈ d.dependencies ↔
      t'.Holds a e ∧ ∃ y, t'.expr? e = some y ∧ y.target = some id) ∧
    (∀ id, ⟨id, .dependsOn⟩ ∈ d.dependencies ↔
      ∃ n ∈ d.kind.dependsOn, t'.DenotesInstance n id) ∧
    d.missing.toList.Nodup ∧
    ∀ n, n ∈ d.missing ↔ t'.Uses a n ∧
      ∀ b c, t'.decl? b = some c → b ≠ Tree.root → c.fullName ≠ n := by
  obtain ⟨w, b, hst, rfl, rfl⟩ := Tree.analyze_eq_ok_iff.mp h
  obtain ⟨_, hdraft, hroot⟩ := exists_drafted_build name file statements
  have hgrown := (assembled_build name file statements).grown
  have hrev := hst.reviewed hdraft.closed
  have hp := (hdraft.pristine hroot hgrown).keeps hrev.grows hrev.keeps
  have hctx : ((build name file statements).contextOf directory options).Indexes w.tree :=
    (Tree.indexes_contextOf _).grows hrev.grows
  have hrec := Binder.recorded_of_inTurn (.refl _ w.tree) (fun _ hs ↦ hs) hst.bind
  refine ⟨d.dependencies.nodup, ?_, ?_, d.missing.nodup, ?_⟩
  · intro e id
    exact Binder.mem_dependencies_expression hp hst.ran hrec hd
  · intro id
    exact Binder.mem_dependencies_dependsOn hp hctx hst.ran hrec hd
  · intro n
    rw [Binder.mem_missing_iff hp hctx hst.ran hrec hd, Tree.firstNamed_eq_none]
    intro c hc
    rw [hrec.grows.walk_eq]
    rw [hrec.grows.isSome_decl?] at hc
    exact hp.walk c hc

def hosting : List Statement :=
  [.declare "Bucket" (.resource ⟨some "Custom::Bucket", none, none, none, []⟩),
    .declare "Site" (.resource ⟨some "Custom::Site", none, none,
      some (.list [.getAttribute "Bucket" "Arn", .reference "Nowhere"]),
      ["Bucket", "Ghost", "Bucket"]⟩)]

theorem dependencies_exact_hosting : ∃ t' analysis d,
    (build "Module" "Module.yml" hosting).analyze .empty .standard = (t', .ok analysis) ∧
      t'.decl? ⟨2⟩ = some d ∧
      d.dependencies.toList = [⟨⟨1⟩, .expression ⟨0⟩⟩, ⟨⟨1⟩, .dependsOn⟩] ∧
      d.missing.toList = ["Nowhere", "Ghost"] ∧
      t'.Holds ⟨2⟩ ⟨0⟩ ∧ (∃ n ∈ d.kind.dependsOn, t'.DenotesInstance n ⟨1⟩) ∧
      t'.Uses ⟨2⟩ "Nowhere" ∧ t'.Uses ⟨2⟩ "Ghost" := by
  let out := (build "Module" "Module.yml" hosting).analyze .empty .standard
  obtain ⟨analysis, hanalysis⟩ := Option.isSome_iff_exists.mp
    (show out.2.toOption.isSome by decide +kernel)
  obtain ⟨t', h⟩ := Tree.exists_analyze_eq hanalysis
  have hout : (out.1.decl? ⟨2⟩).map (fun d ↦ (d.dependencies.toList, d.missing.toList)) =
      some ([⟨⟨1⟩, .expression ⟨0⟩⟩, ⟨⟨1⟩, .dependsOn⟩], ["Nowhere", "Ghost"]) := by
    decide +kernel
  rw [show out.1 = t' from congrArg Prod.fst h] at hout
  obtain ⟨d, hd, hlists⟩ := Option.map_eq_some_iff.mp hout
  obtain ⟨hdependencies, hmissing⟩ := Prod.mk.inj hlists
  obtain ⟨-, hexpression, hdependsOn, -, hnames⟩ := dependencies_exact h hd
  have hnowhere : "Nowhere" ∈ d.missing.toList := by simp [hmissing]
  have hghost : "Ghost" ∈ d.missing.toList := by simp [hmissing]
  have hvalue : ⟨⟨1⟩, .expression ⟨0⟩⟩ ∈ d.dependencies.toList := by simp [hdependencies]
  have horder : ⟨⟨1⟩, .dependsOn⟩ ∈ d.dependencies.toList := by simp [hdependencies]
  exact ⟨t', analysis, d, h, hd, hdependencies, hmissing, ((hexpression _ _).mp hvalue).1,
    (hdependsOn _).mp horder, ((hnames _).mp hnowhere).1, ((hnames _).mp hghost).1⟩

end Draft

end InfraModule
