import InfraModule.Proofs.AnalysisRun
import InfraModule.Proofs.Drafting
import Mathlib.Algebra.BigOperators.Group.List.Basic

namespace InfraModule

open Provider

namespace Tree

variable {t t' : Tree} {directory : Directory} {options : Options} {w : Workspace} {b : Binder}

def orders (t : Tree) : List String :=
  t.walk.flatMap fun a ↦ (t.decl? a).elim [] fun d ↦ d.kind.dependsOn

/-- The expressions that the binding comes upon, each as often as it does, with the declarations at
which it is then. -/
def visits (t : Tree) : List (DeclId × ExprId) :=
  t.walk.flatMap fun a ↦ (t.decl? a).elim [] fun d ↦
    (d.kind.roots.flatMap t.descendants).map fun e ↦ (a, e)

theorem mem_visits {v : DeclId × ExprId} (hv : v ∈ t.visits) :
    .expression v.1 v.2 ∈ t.bindingSteps := by
  obtain ⟨a, ha, hv⟩ := List.mem_flatMap.mp hv
  obtain ⟨d, hd⟩ := exists_decl_of_mem_walk ha
  rw [hd, Option.elim_some] at hv
  obtain ⟨e, he, rfl⟩ := List.mem_map.mp hv
  exact expression_mem_bindingSteps.mpr ⟨ha, (holds_iff hd).mpr he⟩

theorem countP_bindingSteps {p : BindingStep → Bool} {q : String → Bool}
    (hq : ∀ a name, .dependsOn a name ∈ t.bindingSteps → p (.dependsOn a name) = q name) :
    t.bindingSteps.countP p =
      (t.visits.countP fun v ↦ p (.expression v.1 v.2)) + t.orders.countP q := by
  simp only [bindingSteps, visits, orders, List.countP_flatMap]
  rw [← List.sum_map_add]
  congr 1
  refine List.map_congr_left fun a ha ↦ ?_
  obtain ⟨d, hd⟩ := exists_decl_of_mem_walk ha
  simp only [Function.comp_apply, stepsOf, hd, Option.elim_some, List.countP_append,
    List.countP_map]
  congr 1
  refine List.countP_congr fun name hname ↦ ?_
  rw [Function.comp_apply, hq a name (dependsOn_mem_bindingSteps.mpr ⟨ha, d, hd, hname⟩)]

def namesInstance (t : Tree) (name : String) : Bool :=
  (t.firstNamed name).any fun id ↦ (t.decl? id).any fun d ↦ d.kind.isProvisioned

theorem namesInstance_iff {name : String} :
    t.namesInstance name ↔ ∃ id, t.DenotesInstance name id := by
  simp [namesInstance, DenotesInstance, Option.any_eq_true]

section Settled

variable {ctx : Context} {a : DeclId}

theorem Settled.isBound_expression {e : ExprId} (hs : t.Settled ctx (.expression a e)) :
    (t.verdict? ctx (.expression a e)).any Verdict.isBound = false := by
  cases hm : t.matter? (.expression a e) with
  | none => simp [verdict?, hm]
  | some m =>
    rw [verdict?_of_matter? hm, judge_eq hm]
    rcases hs m hm with ht | ⟨v, hv, hr⟩
    · simp [ht, Except.toOption, Verdict.isBound]
    · obtain ⟨d, x, r, -, -, -, rfl⟩ := matter?_expression hm
      cases v with
      | bound => cases hr.1
      | alreadyBound | rejected | undefined =>
        rw [hv]
        split <;> rfl

theorem Settled.isBound_dependsOn {name : String} (hidx : ctx.Indexes t)
    (hs : t.Settled ctx (.dependsOn a name)) (hcov : t.Covers (.dependsOn a name)) :
    (t.verdict? ctx (.dependsOn a name)).any Verdict.isBound = t.namesInstance name := by
  obtain ⟨d, hd⟩ := Option.isSome_iff_exists.mp hcov
  have hm := matter?_dependsOn hd name
  obtain ⟨v, hv, -⟩ := hs.judge hm
  rw [verdict?_of_matter? hm, hv, Bool.eq_iff_iff, namesInstance_iff]
  exact (Context.judgeDependsOn_fits hidx hv).isBound_iff

theorem countP_isBound (hidx : ctx.Indexes t) (hs : ∀ s ∈ t.bindingSteps, t.Settled ctx s) :
    (t.bindingSteps.countP fun s ↦ (t.verdict? ctx s).any Verdict.isBound) =
      t.orders.countP t.namesInstance := by
  have horders (a : DeclId) (name : String) (hmem : .dependsOn a name ∈ t.bindingSteps) :
      (t.verdict? ctx (.dependsOn a name)).any Verdict.isBound = t.namesInstance name :=
    (hs _ hmem).isBound_dependsOn hidx (covers_of_mem_bindingSteps hmem)
  rw [countP_bindingSteps horders, List.countP_eq_zero.mpr, Nat.zero_add]
  intro v hv
  rw [(hs _ (mem_visits hv)).isBound_expression]
  exact Bool.false_ne_true

end Settled

theorem Grows.namesInstance_eq (h : t.Grows t') (name : String) :
    t'.namesInstance name = t.namesInstance name := by
  unfold namesInstance
  rw [h.firstNamed_eq]
  cases hn : t.firstNamed name with
  | none => rfl
  | some id =>
    obtain ⟨d, hd, -⟩ := exists_decl_of_firstNamed hn
    obtain ⟨d', hd', hg⟩ := h.decl id d hd
    simp [hd, hd', hg.kind.isProvisioned_eq]

theorem Grows.orders_eq (h : t.Grows t') : t'.orders = t.orders := by
  unfold orders
  rw [h.walk_eq]
  refine List.flatMap_congr fun a ha ↦ ?_
  obtain ⟨d, hd⟩ := exists_decl_of_mem_walk ha
  obtain ⟨d', hd', hg⟩ := h.decl a d hd
  simp [hd, hd', hg.kind.dependsOn_eq]

section Again

variable (h : t.Stages directory options w b) (hc : t.Closed)

include h hc

theorem Stages.review_again :
    Workspace.reviewResources (t.contextOf directory options)
      ⟨b.tree, (SymbolTable.build t).log⟩ = .ok ⟨b.tree, w.log⟩ := by
  have hr := h.reviewed hc
  have hcw := hc.grows hr.grows
  have hg := h.ran.grows
  have hreview (a : DeclId) (ha : a ∈ t.walk) :=
    reviewOf_grows hg hcw (hr.complete a ha) (hr.fault a ha)
  have hagain := Workspace.inTurn_of_complete (w := ⟨b.tree, (SymbolTable.build t).log⟩)
    (fun a ha ↦ (hr.complete a ha).grows hg)
    (fun a ha ↦ (congrArg Findings.fault (hreview a ha)).trans (hr.fault a ha))
  rw [Workspace.reviewResources, (h.grows hc).walk_eq, hagain, hr.log,
    List.flatMap_congr fun a ha ↦ congrArg Findings.log (hreview a ha)]

theorem Stages.again (hu : t.Unshared) : ∃ b',
    b.tree.Stages directory options ⟨b.tree, w.log⟩ b' ∧ b'.tree = b.tree ∧ b'.log = b.log ∧
    b'.tally.rejected = b.tally.rejected ∧ b'.tally.undefined = b.tally.undefined ∧
    b'.tally.bound = t.orders.countP t.namesInstance ∧ b'.tally.total = b.tally.total := by
  let ctx := t.contextOf directory options
  have hr := h.reviewed hc
  have hran := h.ran
  have hgrows := h.grows hc
  have hu' := hu.grows hc hr.grows
  have hsteps : b.tree.bindingSteps = w.tree.bindingSteps :=
    bindingSteps_grows hran.grows (hc.grows hr.grows) fun a ha ↦
      hr.complete a (hr.grows.walk_eq ▸ ha)
  have hfirst := Binder.accounts_of_inTurn (.refl ctx w.tree) hu' (fun _ hs ↦ hs) h.bind
  have hsettled (s : BindingStep) (hs : s ∈ b.tree.bindingSteps) : b.tree.Settled ctx s :=
    hran.settled s (hsteps ▸ hs)
  obtain ⟨b', hrun, htree, hbound⟩ := Binder.inTurn_of_settled
    (fun s hs ↦ ⟨covers_of_mem_bindingSteps hs, hsettled s hs⟩) w.log .zero
  have hagain := Binder.accounts_of_inTurn (b := ⟨b.tree, w.log, .zero⟩) (.refl ctx b.tree)
    (hu.grows hc hgrows) (fun _ hs ↦ hs) hrun
  have hcount {p : Verdict → Bool} (ha : p .alreadyBound = false)
      (hb : ∀ id, p (.bound id) = false) :
      (b.tree.bindingSteps.countP fun s ↦ (b.tree.verdict? ctx s).any p) =
        w.tree.bindingSteps.countP fun s ↦ (w.tree.verdict? ctx s).any p := by
    rw [hsteps]
    exact List.countP_congr fun s hs ↦ by rw [hran.faithful.any_verdict? hu' hs ha hb]
  refine ⟨b', ⟨(validate_grows hgrows).trans h.valid, ?_, ?_⟩, htree, ?_, ?_, ?_, ?_, ?_⟩
  · rw [contextOf_grows hgrows, SymbolTable.build_grows hgrows]
    exact h.review_again hc
  · rw [contextOf_grows hgrows]
    exact hrun
  · rw [hagain.log, hfirst.log, hsteps,
      List.flatMap_congr fun s hs ↦ hran.faithful.reportsOf hu' hs]
  · rw [hagain.rejected, hfirst.rejected, hcount rfl fun _ ↦ rfl]
  · rw [hagain.undefined, hfirst.undefined, hcount rfl fun _ ↦ rfl]
  · rw [hbound, countP_isBound ((indexes_contextOf t).grows hgrows) hsettled, hgrows.orders_eq,
      funext hgrows.namesInstance_eq]
    exact Nat.zero_add _
  · rw [hagain.total, hfirst.total, hsteps, List.countP_congr fun s hs ↦ by
      rw [matter?_grows hran.grows (covers_of_mem_bindingSteps hs)]]

end Again

/-- An analysis that came to an end is repeated with the same outcome. The tree stays as it is, and
of what was bound at first all is bound already but the orders to deploy something after an
instance, which are carried out each time. -/
theorem analyze_again :
    (∀ name file statements, (Draft.build name file statements).Closed ∧
      (Draft.build name file statements).Unshared) ∧
    ∀ (t : Tree) (directory : Directory) (options : Options), t.Closed → t.Unshared →
      ∀ t₁ a₁, t.analyze directory options = (t₁, .ok a₁) →
      ∃ a₂, t₁.analyze directory options = (t₁, .ok a₂) ∧
        a₂.diagnostics = a₁.diagnostics ∧ a₂.symbols = a₁.symbols ∧ a₂.cycles = a₁.cycles ∧
        a₂.tally.rejected = a₁.tally.rejected ∧ a₂.tally.undefined = a₁.tally.undefined ∧
        a₂.tally.bound = t.orders.countP t.namesInstance ∧
        a₂.tally.alreadyBound + a₂.tally.bound = a₁.tally.alreadyBound + a₁.tally.bound := by
  constructor
  · intro name file statements
    obtain ⟨_, h, -⟩ := Draft.exists_drafted_build name file statements
    exact ⟨h.closed, h.unshared⟩
  · intro t directory options hc hu t₁ a₁ h
    obtain ⟨w, b, hstages, rfl, rfl⟩ := analyze_eq_ok_iff.mp h
    obtain ⟨b', hagain, htree, hlog, hrejected, hundefined, hbound, htotal⟩ :=
      hstages.again hc hu
    refine ⟨_, analyze_eq_ok_iff.mpr ⟨_, b', hagain, htree.symm, rfl⟩, ?_, ?_, ?_, hrejected,
      hundefined, hbound, ?_⟩
    · simp only [conclusion, hlog, htree]
    · simp only [conclusion, SymbolTable.build_grows (hstages.grows hc)]
    · simp only [conclusion, htree]
    · simp only [conclusion, Tally.total] at *
      omega

def tangled : Tree :=
  Draft.build "Module" "Module.yml"
    [.declare "Stage" (.parameter "String"),
      .declare "Ready" (.condition (.getAttribute "Bucket" "Arn")),
      .declare "Bucket" (.resource ⟨some "Custom::Bucket", none, none,
        some (.object [("Name", .reference "Stage"), ("Owner", .reference "Nobody")]), ["Topic"]⟩),
      .declare "Topic" (.resource ⟨some "Custom::Topic", none, none, none, ["Bucket", "Stage"]⟩)]

theorem analyze_again_tangled : ∃ t₁ a₁ a₂,
    tangled.analyze .empty .standard = (t₁, .ok a₁) ∧ t₁.analyze .empty .standard = (t₁, .ok a₂) ∧
      a₂.diagnostics = a₁.diagnostics ∧ a₂.tally.bound = 2 := by
  obtain ⟨a₁, ha⟩ := Option.isSome_iff_exists.mp
    (show (tangled.analyze .empty .standard).2.toOption.isSome by decide +kernel)
  obtain ⟨t₁, h⟩ := exists_analyze_eq ha
  obtain ⟨hdraft, hagain⟩ := analyze_again
  obtain ⟨hc, hu⟩ := hdraft "Module" "Module.yml" _
  obtain ⟨a₂, h₂, hlog, -, -, -, -, hbound, -⟩ := hagain tangled .empty .standard hc hu t₁ a₁ h
  exact ⟨t₁, a₁, a₂, h, h₂, hlog, hbound.trans (by decide +kernel)⟩

end Tree

end InfraModule
