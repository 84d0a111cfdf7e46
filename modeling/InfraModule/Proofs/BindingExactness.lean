import InfraModule.Proofs.AnalysisRun
import InfraModule.Proofs.Drafting

namespace InfraModule

open Provider

namespace Binder

variable {b b' : Binder} {base : Tree} {ctx : Context} {s : BindingStep} {m : Matter}
  {steps : List BindingStep}

/-- After a run every name is ruled on, and a reference points to what was ruled. -/
theorem Ran.ruling (h : Ran ctx base b steps b') (hu : base.Unshared) (hs : s ∈ steps)
    (hbase : s ∈ base.bindingSteps) (hm : base.matter? s = some m)
    (hn : base.targetOf s = none) :
    ∃ v, base.ruling ctx s = .ok v ∧
      ∀ e, m.origin = .expression e → ∀ id, b'.tree.targetOf s = some id ↔ v = .bound id := by
  have hcov := Tree.covers_of_mem_bindingSteps hbase
  have hgrows := h.faithful.grows
  have hlater {id : DeclId} (ht : b'.tree.targetOf s = some id) :
      base.ruling ctx s = .ok (.bound id) := by
    rcases h.faithful.targetOf hu hbase ht with hb | ⟨-, hr⟩
    · simp [hn] at hb
    · exact hr
  rcases h.settled s hs m ((Tree.matter?_grows hgrows hcov).trans hm) with ht | ⟨v, hv, hrec⟩
  · obtain ⟨id, ht⟩ := Option.isSome_iff_exists.mp ht
    refine ⟨.bound id, hlater ht, fun e _ id' ↦ ?_⟩
    rw [ht, Option.some.injEq, Verdict.bound.injEq]
  · rw [Tree.ruling_grows hgrows hcov] at hv
    refine ⟨v, hv, fun e ho id ↦ ⟨fun ht ↦ ?_, ?_⟩⟩
    · exact Except.ok.inj (hv.symm.trans (hlater ht))
    · rintro rfl
      simp [hrec.1] at ho

end Binder

namespace Tree

variable {t t' : Tree} {directory : Directory} {options : Options} {w : Workspace} {b : Binder}
  {file : String}

theorem targetOf_eq_none (h : ∀ e x, t.expr? e = some x → x.target = none) (s : BindingStep) :
    t.targetOf s = none := by
  cases s with
  | expression a e =>
    cases hx : t.expr? e with
    | none => simp [targetOf, hx]
    | some x => simp [targetOf, hx, h e x hx]
  | dependsOn => rfl

theorem Drafted.expression_mem (h : t.Drafted file) (hroot : (t.decl? root).isSome) {a : DeclId}
    {d : Declaration} {e : ExprId} (hd : t.decl? a = some d) (he : t.Holds a e) :
    .expression a e ∈ t.bindingSteps :=
  expression_mem_bindingSteps.mpr ⟨h.mem_walk hroot (by simp [hd]), he⟩

theorem Drafted.dependsOn_mem (h : t.Drafted file) (hroot : (t.decl? root).isSome) {a : DeclId}
    {d : Declaration} {name : String} (hd : t.decl? a = some d) (hname : name ∈ d.kind.dependsOn) :
    .dependsOn a name ∈ t.bindingSteps :=
  dependsOn_mem_bindingSteps.mpr ⟨h.mem_walk hroot (by simp [hd]), d, hd, hname⟩

/-- The verdict on a name in a draft, seen from the tree before the analysis. -/
theorem Drafted.verdict (h : t.Drafted file) (hst : t.Stages directory options w b)
    {s : BindingStep} {m : Matter} (hs : s ∈ t.bindingSteps) (hm : t.matter? s = some m) :
    ∃ v, t.ruling (t.contextOf directory options) s = .ok v ∧
      w.tree.verdict? (t.contextOf directory options) s = some v ∧
      ∀ e, m.origin = .expression e → ∀ id, b.tree.targetOf s = some id ↔ v = .bound id := by
  have hc := h.closed
  have hrev := hst.reviewed hc
  have hgrows := hrev.grows
  have hcov := covers_of_mem_bindingSteps hs
  have hmem := bindingSteps_subset hgrows hs
  have hmw := (matter?_grows hgrows hcov).trans hm
  have hn : w.tree.targetOf s = none := by
    have hn := targetOf_eq_none (fun e x hx ↦ (h.expr e x hx).1) s
    cases s with
    | dependsOn => rfl
    | expression a e =>
      obtain ⟨d, x, r, -, hx, -, -⟩ := matter?_expression hm
      simpa [targetOf, hx, hrev.keeps.expr e x hx] using hn
  obtain ⟨v, hv, htarget⟩ := hst.ran.ruling (h.unshared.grows hc hgrows) hmem hmem hmw hn
  refine ⟨v, (ruling_grows hgrows hcov).symm.trans hv, ?_, htarget⟩
  rw [verdict?_of_matter? hmw, judge_eq hmw, hn, if_neg (by simp), hv]
  rfl

theorem Drafted.exists_target (h : t.Drafted file) (hroot : (t.decl? root).isSome)
    (hst : t.Stages directory options w b) {a : DeclId} {d : Declaration} {e : ExprId}
    {x : Expression} {r : Reference} (hd : t.decl? a = some d) (he : t.Holds a e)
    (hx : t.expr? e = some x) (hr : x.kind.reference? = some r) :
    ∃ y, b.tree.expr? e = some y ∧
      ∀ id, y.target = some id ↔ t.Denotes directory options d.kind.isCondition r id := by
  obtain ⟨v, hv, -, htarget⟩ :=
    h.verdict hst (h.expression_mem hroot hd he) (matter?_of_reference hd hx hr)
  obtain ⟨y, hy, -⟩ := (hst.grows h.closed).expr e x hx
  refine ⟨y, hy, fun id ↦ ?_⟩
  have htarget := htarget e rfl id
  simp only [Tree.ruling, hd, hx, hr] at hv
  simp only [targetOf, hy, Option.bind_some] at htarget
  rw [htarget, (Context.ruling_fits t.indexes_contextOf hv).eq_bound_iff]
  rfl

theorem Drafted.target_eq_none (h : t.Drafted file) (hst : t.Stages directory options w b)
    {e : ExprId} {y : Expression} (hy : b.tree.expr? e = some y)
    (hno : ∀ a x, t.Holds a e → t.expr? e = some x → x.kind.reference? = none) :
    y.target = none := by
  have hc := h.closed
  have hrev := hst.reviewed hc
  cases hx : t.expr? e with
  | none => exact ((hst.grows hc).fresh e y hx hy).2.1
  | some x =>
    have hxw := hrev.keeps.expr e x hx
    rcases hst.ran.faithful.target e x y hxw hy with ht | ⟨-, a, id, hmem, hr, -⟩
    · rw [ht, (h.expr e x hx).1]
    · rcases (expression_mem_bindingSteps.mp hmem).2.of_grows hrev.grows hc with he | ⟨hn, -⟩
      · obtain ⟨d, hd⟩ := exists_decl_of_mem_walk (expression_mem_bindingSteps.mp hmem).1
        simp [Tree.ruling, hd, hxw, hno a x he hx] at hr
      · simp [hn] at hx

end Tree

namespace Draft

/-- References that a draft holds are bound to what they denote, and nothing else is bound. -/
theorem target_iff_denotes {name file : String} {statements : List Statement}
    {directory : Directory} {options : Options} {t' : Tree} {a : Analysis}
    (h : (build name file statements).analyze directory options = (t', .ok a)) :
    let t := build name file statements
    (∀ owner d e x r, t.decl? owner = some d → t.Holds owner e → t.expr? e = some x →
      x.kind.reference? = some r → ∃ y, t'.expr? e = some y ∧
        ∀ id, y.target = some id ↔ t.Denotes directory options d.kind.isCondition r id) ∧
    ∀ e y, t'.expr? e = some y →
      (∀ owner x, t.Holds owner e → t.expr? e = some x → x.kind.reference? = none) →
      y.target = none := by
  intro t
  obtain ⟨w, b, hst, rfl, rfl⟩ := Tree.analyze_eq_ok_iff.mp h
  obtain ⟨_, hdraft, hroot⟩ := exists_drafted_build name file statements
  exact ⟨fun owner d e x r hd he hx hr ↦ hdraft.exists_target hroot hst hd he hx hr,
    fun e y hy hno ↦ hdraft.target_eq_none hst hy hno⟩

def ambiguous : List Statement :=
  [.declare "Bucket" (.resource ⟨some "Custom::Bucket", none, none, none, []⟩),
    .declare "Bucket" (.parameter "String"),
    .declare "Ready" (.condition (.list [.getAttribute "Bucket" "Arn", .reference "Bucket"]))]

/-- The name stands for the resource. A condition may use its attribute, but not its value. -/
theorem target_iff_denotes_ambiguous : ∃ t' a y z,
    (build "Module" "Module.yml" ambiguous).analyze .empty .standard = (t', .ok a) ∧
      t'.expr? ⟨0⟩ = some y ∧ y.target = some ⟨1⟩ ∧ t'.expr? ⟨1⟩ = some z ∧ z.target = none := by
  let t := build "Module" "Module.yml" ambiguous
  obtain ⟨a, ha⟩ := Option.isSome_iff_exists.mp
    (show (t.analyze .empty .standard).2.toOption.isSome by decide +kernel)
  obtain ⟨t', h⟩ := Tree.exists_analyze_eq ha
  obtain ⟨hbound, -⟩ := target_iff_denotes h
  obtain ⟨d, hd, hk⟩ := Option.map_eq_some_iff.mp
    (show (t.decl? ⟨3⟩).map Declaration.kind = some (.condition ⟨2⟩) by decide +kernel)
  have hlist : t.Holds ⟨3⟩ ⟨2⟩ := .root hd (by simp [hk, DeclKind.roots]) (by decide +kernel)
  have hfirst : t.Holds ⟨3⟩ ⟨0⟩ := .part hlist (by decide +kernel) (by decide +kernel)
  have hsecond : t.Holds ⟨3⟩ ⟨1⟩ := .part hlist (by decide +kernel) (by decide +kernel)
  obtain ⟨y, hy, hiff⟩ := hbound ⟨3⟩ d ⟨0⟩ _ (.attributeOf "Bucket" "Arn") hd hfirst rfl rfl
  obtain ⟨z, hz, hnone⟩ := hbound ⟨3⟩ d ⟨1⟩ _ (.value "Bucket") hd hsecond rfl rfl
  obtain ⟨c, hc, hkc⟩ := Option.map_eq_some_iff.mp
    (show (t.decl? ⟨1⟩).map Declaration.kind =
      some (.resource ⟨some "Custom::Bucket", none, none, none, []⟩) by decide +kernel)
  have hname : t.firstNamed "Bucket" = some ⟨1⟩ := by decide +kernel
  refine ⟨t', a, y, z, h, hy, (hiff ⟨1⟩).mpr ⟨hname, c, hc, ?_⟩, hz, ?_⟩
  · rw [hkc]
    exact ⟨rfl, fun _ ↦ .inr ⟨_, rfl, .custom (by decide +kernel)⟩⟩
  · refine Option.eq_none_iff_forall_ne_some.mpr fun id hid ↦ ?_
    obtain ⟨hid, c', hc', hlegal⟩ := (hnone id).mp hid
    cases hname.symm.trans hid
    cases hc.symm.trans hc'
    simp [hk, hkc, Tree.Legal, DeclKind.isCondition, DeclKind.isParameter] at hlegal

end Draft

end InfraModule
