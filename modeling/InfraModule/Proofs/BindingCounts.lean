import InfraModule.Proofs.Reanalysis

namespace InfraModule

open Provider

/-- The reports of a binding that has counted so much, besides the references of conditions that it
has taken note of. -/
structure Log.Balanced (log : Log) (tally : Tally) (noted : Nat) : Prop where
  length : log.length = tally.rejected + tally.undefined + noted
  undefined : log.countP (fun d ↦ d.code = some "E0001") = tally.undefined
  codes : ∀ d ∈ log, d.code = some "E0001" ∨ d.code = some "E0012"

namespace Log.Balanced

variable {log : Log} {tally : Tally} {noted : Nat}

theorem nil : Log.Balanced [] .zero 0 := ⟨rfl, rfl, by simp⟩

theorem note (h : log.Balanced tally noted) (reason : String) (location : Option Location) :
    Log.Balanced (log ++ [(Problem.invalidReference reason).report location]) tally
      (noted + 1) := by
  obtain ⟨hlength, hundefined, hcodes⟩ := h
  refine ⟨?_, ?_, ?_⟩
  · rw [List.length_append, hlength]
    rfl
  · rw [List.countP_append, hundefined]
    rfl
  · intro d hd
    rcases List.mem_append.mp hd with hd | hd
    · exact hcodes d hd
    · cases List.mem_singleton.mp hd
      exact .inr rfl

theorem report (h : log.Balanced tally noted) (m : Matter) (v : Verdict) :
    Log.Balanced (log ++ m.report v) (tally.count v) noted := by
  cases v with
  | alreadyBound | bound =>
    rw [Matter.report, List.append_nil]
    exact ⟨h.length, h.undefined, h.codes⟩
  | rejected reason =>
    obtain ⟨hlength, hundefined, hcodes⟩ := h.note (reason.message m.name) m.location
    refine ⟨?_, hundefined, hcodes⟩
    simp only [Matter.report, hlength, Tally.count]
    omega
  | undefined =>
    refine ⟨?_, ?_, ?_⟩
    · simp only [Matter.report, List.length_append, h.length, Tally.count, List.length_singleton]
      omega
    · rw [Matter.report, List.countP_append, h.undefined]
      rfl
    · intro d hd
      rcases List.mem_append.mp hd with hd | hd
      · exact h.codes d hd
      · cases List.mem_singleton.mp hd
        exact .inl rfl

end Log.Balanced

theorem countP_insert {α : Type} [DecidableEq α] {p q : α → Bool} {a : α} {as : List α}
    (hnodup : as.Nodup) (ha : a ∈ as) (hp : p a = false) (hq : ∀ b, q b = (p b || b == a)) :
    as.countP q = as.countP p + 1 := by
  have hcount : as.countP q = as.countP p + as.count a := by
    clear hnodup ha
    induction as with
    | nil => rfl
    | cons b as ih =>
      rw [List.countP_cons, List.countP_cons, List.count_cons, ih, hq]
      by_cases hb : b = a
      · simp [hb, hp]
        omega
      · simp [hb]
        omega
  rw [hcount, List.count_eq_one_of_mem hnodup ha]

namespace Tree

variable {t t' : Tree} {ctx : Context} {s : BindingStep} {m : Matter} {v : Verdict}

def isReference (t : Tree) (visit : DeclId × ExprId) : Bool :=
  (t.expr? visit.2).any fun x ↦ x.kind.reference?.isSome

def isAttributeInCondition (t : Tree) (visit : DeclId × ExprId) : Bool :=
  (t.decl? visit.1).any (fun d ↦ d.kind.isCondition) &&
    (t.expr? visit.2).any fun x ↦ match x.kind with
      | .getAttribute _ _ => true
      | _ => false

def newlyBound (t t' : Tree) : Nat :=
  t'.exprIds.countP fun e ↦ ((t.expr? e).bind Expression.target).isNone &&
    ((t'.expr? e).bind Expression.target).isSome

def isNoted (t : Tree) : BindingStep → Bool
  | .expression owner id => t.isAttributeInCondition (owner, id)
  | .dependsOn .. => false

def ordersAfterInstance (t : Tree) : BindingStep → Bool
  | .expression .. => false
  | .dependsOn _ name => t.namesInstance name

theorem newlyBound_self (t : Tree) : t.newlyBound t = 0 := by
  apply List.countP_eq_zero.mpr
  intro e _
  cases (t.expr? e).bind Expression.target <;> simp

theorem balanced_notes {log : Log} {tally : Tally} {noted : Nat} (hm : t.matter? s = some m)
    (h : log.Balanced tally noted) :
    Log.Balanced (log ++ m.notes) tally (noted + [s].countP t.isNoted) := by
  cases s with
  | dependsOn owner name =>
    obtain ⟨d, -, rfl⟩ := Option.map_eq_some_iff.mp hm
    simpa [isNoted] using h
  | expression owner id =>
    obtain ⟨d, x, r, hd, hx, hr, rfl⟩ := matter?_expression hm
    cases hk : x.kind with
    | getAttribute name attr =>
      rw [hk, ExprKind.reference?, Option.some_inj] at hr
      subst hr
      cases hcond : d.kind.isCondition with
      | true =>
        have hnoted : t.isNoted (.expression owner id) := by
          simp [isNoted, isAttributeInCondition, hd, hx, hk, hcond]
        simpa [hnoted, Reference.notes] using h.note _ _
      | false => simpa [isNoted, isAttributeInCondition, hd, hx, hk, hcond, Reference.notes] using h
    | literal | list | object => simp [hk, ExprKind.reference?] at hr
    | reference | conditionReference | findInMap =>
      rw [hk, ExprKind.reference?, Option.some_inj] at hr
      subst hr
      simpa [isNoted, isAttributeInCondition, hx, hk, Reference.notes] using h

theorem exprIds_effect (m : Matter) (t : Tree) (v : Verdict) :
    (m.effect t v).exprIds = t.exprIds := by
  obtain ⟨owner, origin, name, location, notes⟩ := m
  cases v with
  | bound target =>
    cases origin <;>
      simp [exprIds, Matter.effect, Binder.connect, modifyDecl, modifyExpr]
  | alreadyBound | undefined | rejected => rfl

theorem newlyBound_effect (h : t.Grows t') (hs : t.Covers s) (hm : t'.matter? s = some m)
    (hv : t'.judge ctx s = .ok v) :
    t.newlyBound (m.effect t' v) =
      t.newlyBound t' + if v.isBound ∧ m.origin ≠ .dependsOn then 1 else 0 := by
  simp only [newlyBound, exprIds_effect, Matter.expr?_effect]
  cases v with
  | alreadyBound | undefined | rejected => simp [Verdict.isBound]
  | bound target =>
    cases ho : m.origin with
    | dependsOn => simp
    | expression e =>
      obtain ⟨hafter, -⟩ := ruling_of_judge_bound hm hv
      have hbefore : t.targetOf s = none := by
        by_contra hne
        have hsome := h.isSome_targetOf (Option.isSome_iff_ne_none.mpr hne)
        simp [hafter] at hsome
      obtain rfl := origin_expression hm ho
      rw [if_pos (by simp [Verdict.isBound])]
      apply countP_insert t'.nodup_exprIds (mem_exprIds.mpr (h.isSome_expr? hs.2))
      · simp only [targetOf] at hafter
        simp [hafter]
      · intro e'
        by_cases he : e = e'
        · subst he
          obtain ⟨x, hx⟩ := Option.isSome_iff_exists.mp (h.isSome_expr? hs.2)
          simp only [targetOf] at hbefore
          simp [hbefore, hx]
        · simp [he, Ne.symm he]

theorem ordersAfterInstance_iff (hidx : ctx.Indexes t) (hm : t.matter? s = some m)
    (hv : t.judge ctx s = .ok v) :
    t.ordersAfterInstance s ↔ v.isBound ∧ m.origin = .dependsOn := by
  cases s with
  | expression owner id =>
    obtain ⟨d, x, r, -, -, -, rfl⟩ := matter?_expression hm
    simp [ordersAfterInstance]
  | dependsOn owner name =>
    obtain ⟨d, -, rfl⟩ := Option.map_eq_some_iff.mp hm
    rw [ordersAfterInstance, namesInstance_iff, and_iff_left rfl]
    exact (Context.judgeDependsOn_fits hidx hv).isBound_iff.symm

theorem Grows.ordersAfterInstance_eq (h : t.Grows t') (s : BindingStep) :
    t'.ordersAfterInstance s = t.ordersAfterInstance s := by
  cases s with
  | expression => rfl
  | dependsOn owner name => exact h.namesInstance_eq name

theorem idle_of_matter?_eq_none (hs : t.Covers s) (hm : t.matter? s = none) :
    t.isNoted s = false ∧ t.ordersAfterInstance s = false := by
  cases s with
  | dependsOn owner name =>
    obtain ⟨d, hd⟩ := Option.isSome_iff_exists.mp hs
    simp [matter?_dependsOn hd] at hm
  | expression owner id =>
    obtain ⟨d, hd⟩ := Option.isSome_iff_exists.mp hs.1
    obtain ⟨x, hx⟩ := Option.isSome_iff_exists.mp hs.2
    simp only [matter?, hd, hx, Option.map_eq_none_iff] at hm
    refine ⟨?_, rfl⟩
    cases hk : x.kind with
    | getAttribute => simp [hk, ExprKind.reference?] at hm
    | _ => simp [isNoted, isAttributeInCondition, hx, hk]

theorem countP_matter? (t : Tree) : (t.bindingSteps.countP fun s ↦ (t.matter? s).isSome) =
    t.visits.countP t.isReference + t.orders.length := by
  rw [countP_bindingSteps (q := fun _ ↦ true), List.countP_true]
  · congr 1
    apply List.countP_congr
    intro visit hvisit
    obtain ⟨hd, hx⟩ := covers_of_mem_bindingSteps (mem_visits hvisit)
    obtain ⟨d, hd⟩ := Option.isSome_iff_exists.mp hd
    obtain ⟨x, hx⟩ := Option.isSome_iff_exists.mp hx
    simp [matter?, isReference, hd, hx]
  · intro a name hmem
    obtain ⟨-, d, hd, -⟩ := dependsOn_mem_bindingSteps.mp hmem
    rw [matter?_dependsOn hd, Option.isSome_some]

theorem countP_isNoted (t : Tree) :
    t.bindingSteps.countP t.isNoted = t.visits.countP t.isAttributeInCondition := by
  rw [countP_bindingSteps (q := fun _ ↦ false) fun _ _ _ ↦ rfl, List.countP_false]
  rfl

theorem countP_ordersAfterInstance (t : Tree) :
    t.bindingSteps.countP t.ordersAfterInstance = t.orders.countP t.namesInstance := by
  rw [countP_bindingSteps (q := t.namesInstance) fun _ _ _ ↦ rfl]
  simp [ordersAfterInstance]

end Tree

namespace Binder

variable {b b' : Binder} {t : Tree} {ctx : Context} {log : Log} {s : BindingStep}
  {steps : List BindingStep}

/-- The state of a binding after some steps: what it has counted is what it has come upon. -/
structure Ledger (t : Tree) (log : Log) (steps : List BindingStep) (b : Binder) : Prop where
  grows : t.Grows b.tree
  total : b.tally.total = steps.countP fun s ↦ (t.matter? s).isSome
  log : ∃ added, b.log = log ++ added ∧ added.Balanced b.tally (steps.countP t.isNoted)
  bound : t.newlyBound b.tree + steps.countP t.ordersAfterInstance = b.tally.bound

theorem ledger_start (t : Tree) (log : Log) : Ledger t log [] ⟨t, log, .zero⟩ where
  grows := .refl t
  total := rfl
  log := ⟨[], (List.append_nil log).symm, .nil⟩
  bound := t.newlyBound_self

theorem Ledger.step (h : Ledger t log steps b) (hidx : ctx.Indexes t) (hs : s ∈ t.bindingSteps)
    (hstep : b.step ctx s = .ok b') : Ledger t log (steps ++ [s]) b' := by
  have hcov := Tree.covers_of_mem_bindingSteps hs
  have hmatter := Tree.matter?_grows h.grows hcov
  rcases step_ok (hcov.grows h.grows) hstep with ⟨hm, rfl⟩ | ⟨m, v, hm, hv, rfl⟩
  · rw [hmatter] at hm
    obtain ⟨hnoted, horders⟩ := Tree.idle_of_matter?_eq_none hcov hm
    obtain ⟨hgrows, htotal, hlog, hbound⟩ := h
    constructor <;> simpa [List.countP_append, hm, hnoted, horders]
  · have hm' := hmatter.symm.trans hm
    obtain ⟨added, hlog, hbalanced⟩ := h.log
    refine ⟨h.grows.trans (Tree.grows_effect hm hv), ?_,
      ⟨added ++ (m.notes ++ m.report v), ?_, ?_⟩, ?_⟩
    · rw [after, Tally.total_count, h.total, List.countP_append]
      simp [hm']
    · rw [after, hlog, List.append_assoc]
    · rw [List.countP_append, ← List.append_assoc]
      exact (Tree.balanced_notes hm' hbalanced).report m v
    · have horders := Tree.ordersAfterInstance_iff (hidx.grows h.grows) hm hv
      have hbound := h.bound
      rw [h.grows.ordersAfterInstance_eq] at horders
      simp only [after, Tally.bound_count, Tree.newlyBound_effect h.grows hcov hm hv,
        List.countP_append, List.countP_singleton, horders]
      by_cases hb : v.isBound
      · by_cases ho : m.origin = .dependsOn
        · simp [hb, ho]
          omega
        · simp [hb, ho]
          omega
      · simp [hb]
        omega

theorem ledger_of_inTurn (h : Ledger t log steps b) (hidx : ctx.Indexes t)
    {rest : List BindingStep} (hrest : ∀ s ∈ rest, s ∈ t.bindingSteps)
    (hrun : Outcome.inTurn (step ctx) b rest = .ok b') : Ledger t log (steps ++ rest) b' := by
  induction rest generalizing b steps with
  | nil =>
    cases hrun
    rwa [List.append_nil]
  | cons s rest ih =>
    rw [List.forall_mem_cons] at hrest
    rw [Outcome.inTurn] at hrun
    split at hrun
    next b₁ h₁ =>
      rw [List.append_cons]
      exact ih (h.step hidx hrest.1 h₁) hrest.2 hrun
    next => cases hrun

end Binder

namespace Workspace

/-- A binding that ends has counted every reference that it came upon and every order. It has
reported what it counted as undefined or rejected, and besides the attributes that conditions ask
for. Of what it counted as bound, the expressions are newly bound and the orders are after an
instance. -/
theorem binding_counts_add_up {t : Tree} {directory : Directory} {options : Options} {log : Log}
    {b : Binder} (h : bindReferences (t.contextOf directory options) ⟨t, log⟩ = .ok b) :
    b.tally.bound + b.tally.alreadyBound + b.tally.rejected + b.tally.undefined =
      t.visits.countP t.isReference + t.orders.length ∧
    (∃ added, b.log = log ++ added ∧ added.length =
        b.tally.rejected + b.tally.undefined + t.visits.countP t.isAttributeInCondition ∧
      added.countP (fun d ↦ d.code = some "E0001") = b.tally.undefined ∧
      ∀ d ∈ added, d.code = some "E0001" ∨ d.code = some "E0012") ∧
    t.newlyBound b.tree + t.orders.countP t.namesInstance = b.tally.bound := by
  have hledger := Binder.ledger_of_inTurn (Binder.ledger_start t log) (Tree.indexes_contextOf t)
    (fun _ hs ↦ hs) h
  rw [List.nil_append] at hledger
  obtain ⟨added, hlog, hlength, hundefined, hcodes⟩ := hledger.log
  rw [Tree.countP_isNoted] at hlength
  refine ⟨hledger.total.trans t.countP_matter?, ⟨added, hlog, hlength, hundefined, hcodes⟩, ?_⟩
  rw [← Tree.countP_ordersAfterInstance]
  exact hledger.bound

/-- A condition that asks for an attribute, with a variable that shares its expression. -/
def shared : Tree :=
  (Draft.build "Module" "Module.yml"
    [.declare "Stage" (.parameter "String"),
      .declare "Ready" (.condition (.getAttribute "Bucket" "Arn")),
      .declare "Copy" (.var (.literal "")),
      .declare "Bucket" (.resource ⟨some "Custom::Bucket", none, none,
        some (.object [("Name", .reference "Stage"), ("Owner", .reference "Nobody")]),
        ["Topic", "Stage"]⟩),
      .declare "Topic" (.resource ⟨some "Custom::Topic", none, none, none, ["Bucket"]⟩)]).modifyDecl
    ⟨3⟩ ({ · with kind := .var none ⟨0⟩ })

theorem binding_counts_add_up_shared :
    ∃ b, bindReferences (shared.contextOf .empty .standard) ⟨shared, []⟩ = .ok b ∧
      b.tally = ⟨4, 1, 1, 1⟩ ∧ shared.newlyBound b.tree = 2 ∧ b.log.length = 3 := by
  have htally : (bindReferences (shared.contextOf .empty .standard) ⟨shared, []⟩).toOption.map
      Binder.tally = some ⟨4, 1, 1, 1⟩ := by decide +kernel
  have horders : shared.orders.countP shared.namesInstance = 2 := by decide +kernel
  have hnoted : shared.visits.countP shared.isAttributeInCondition = 1 := by decide +kernel
  cases h : bindReferences (shared.contextOf .empty .standard) ⟨shared, []⟩ with
  | error => simp [h, Except.toOption] at htally
  | ok b =>
    obtain ⟨-, ⟨added, hlog, hlength, -⟩, hbound⟩ := binding_counts_add_up h
    simp only [h, Except.toOption, Option.map_some, Option.some.injEq] at htally
    rw [htally, hnoted] at hlength
    rw [htally, horders] at hbound
    refine ⟨b, rfl, htally, Nat.add_right_cancel hbound, ?_⟩
    rw [hlog, List.nil_append]
    exact hlength

end Workspace

end InfraModule
