import InfraModule.Proofs.Completion

namespace InfraModule

namespace Tree

variable {t t' : Tree} {id : DeclId} {ctx : Context}

def reviewOf (t : Tree) (ctx : Context) (id : DeclId) : Findings :=
  match t.decl? id with
  | none => .halted .dangling
  | some d =>
    match d.kind.resource? with
    | none => .clean
    | some r => r.review ctx t d.location

theorem reviewOf_grows (h : t.Grows t') (hc : t.Closed) (hcomplete : t.CompleteAt id)
    (hf : (t.reviewOf ctx id).fault = none) : t'.reviewOf ctx id = t.reviewOf ctx id := by
  unfold reviewOf at hf ⊢
  cases hd : t.decl? id with
  | none => simp [hd, Findings.halted] at hf
  | some d =>
    obtain ⟨d', hd', hg⟩ := h.decl id d hd
    simp only [hd, hd', hcomplete.kind_eq hd hg, hg.location] at hf ⊢
    cases hr : d.kind.resource? with
    | none => rfl
    | some r =>
      simp only [hr] at hf ⊢
      refine Resource.review_grows h hc (fun e he ↦ hc.roots id d hd e ?_) hf
      rw [DeclKind.resource?_eq_some.mp hr]
      exact he

theorem completeResource_of_not_resource (id : DeclId)
    (h : ∀ d, (t.completeResource id).decl? id = some d → d.kind.resource? = none) :
    t.completeResource id = t := by
  refine completeResource_of_complete fun d r hd hk ↦ ?_
  obtain ⟨d', hd', hg⟩ := (t.grows_completeResource id).decl id d hd
  have hfill := hg.kind
  have hnone := h d' hd'
  rw [hk] at hfill
  generalize d'.kind = k' at hfill hnone
  cases hfill <;> simp [DeclKind.resource?] at hnone

end Tree

namespace Workspace

variable {w w' : Workspace} {ctx : Context}

theorem reviewDeclaration_eq (w : Workspace) (id : DeclId) :
    w.reviewDeclaration ctx id =
      match ((w.tree.completeResource id).reviewOf ctx id).fault with
      | none => .ok ⟨w.tree.completeResource id,
          w.log ++ ((w.tree.completeResource id).reviewOf ctx id).log⟩
      | some fault => .error ⟨fault, w.tree.completeResource id,
          w.log ++ ((w.tree.completeResource id).reviewOf ctx id).log⟩ := by
  have hself := Tree.completeResource_of_not_resource (t := w.tree) id
  unfold reviewDeclaration Tree.reviewOf
  cases hd : (w.tree.completeResource id).decl? id with
  | none =>
    have hself := hself (by simp [hd])
    rw [hself] at hd ⊢
    simp [hd, Findings.halted]
  | some d =>
    cases hr : d.kind.resource? with
    | none =>
      have hself := hself (by simp [hd, hr])
      rw [hself] at hd ⊢
      simp [hd, hr, Findings.clean]
    | some r =>
      cases hf : (r.review ctx (w.tree.completeResource id) d.location).fault <;>
        simp only [hd, hr, hf]

theorem reviewDeclaration_ok {id : DeclId}
    (h : w.reviewDeclaration ctx id = .ok w') :
    w'.tree = w.tree.completeResource id ∧ (w'.tree.reviewOf ctx id).fault = none ∧
      w'.log = w.log ++ (w'.tree.reviewOf ctx id).log := by
  rw [reviewDeclaration_eq] at h
  split at h
  next hf =>
    cases h
    exact ⟨rfl, hf, rfl⟩
  next => cases h

/-- What a review of declarations in turn comes to: it completes them, and reports what there is
to report of the completed tree. -/
structure Reviewed (ctx : Context) (w : Workspace) (ids : List DeclId) (w' : Workspace) :
    Prop where
  grows : w.tree.Grows w'.tree
  keeps : w.tree.Keeps w'.tree
  complete : ∀ id ∈ ids, w'.tree.CompleteAt id
  fault : ∀ id ∈ ids, (w'.tree.reviewOf ctx id).fault = none
  log : w'.log = w.log ++ ids.flatMap fun id ↦ (w'.tree.reviewOf ctx id).log

theorem reviewed_of_inTurn (hc : w.tree.Closed) {ids : List DeclId}
    (h : Outcome.inTurn (reviewDeclaration ctx) w ids = .ok w') : Reviewed ctx w ids w' := by
  induction ids generalizing w with
  | nil =>
    cases h
    exact ⟨.refl _, .refl _, by simp, by simp, by simp⟩
  | cons id ids ih =>
    rw [Outcome.inTurn] at h
    split at h
    next w₁ h₁ =>
      obtain ⟨ht, hf, hlog⟩ := reviewDeclaration_ok h₁
      have hg : w.tree.Grows w₁.tree := ht ▸ w.tree.grows_completeResource id
      have hk : w.tree.Keeps w₁.tree := ht ▸ w.tree.keeps_completeResource id
      have hcomplete : w₁.tree.CompleteAt id := ht ▸ Tree.completeAt_completeResource hc id
      have hc₁ := hc.grows hg
      have hr := ih hc₁ h
      have hsame := Tree.reviewOf_grows hr.grows hc₁ hcomplete hf
      refine ⟨hg.trans hr.grows, hk.trans hg hr.keeps, ?_, ?_, ?_⟩
      · exact List.forall_mem_cons.mpr ⟨hcomplete.grows hr.grows, hr.complete⟩
      · exact List.forall_mem_cons.mpr ⟨hsame ▸ hf, hr.fault⟩
      · rw [hr.log, hlog, List.flatMap_cons, hsame, List.append_assoc]
    next => cases h

theorem inTurn_of_complete {ids : List DeclId}
    (hcomplete : ∀ id ∈ ids, w.tree.CompleteAt id)
    (hf : ∀ id ∈ ids, (w.tree.reviewOf ctx id).fault = none) :
    Outcome.inTurn (reviewDeclaration ctx) w ids =
      .ok ⟨w.tree, w.log ++ ids.flatMap fun id ↦ (w.tree.reviewOf ctx id).log⟩ := by
  induction ids generalizing w with
  | nil => simp [Outcome.inTurn]
  | cons id ids ih =>
    rw [List.forall_mem_cons] at hcomplete hf
    have hself := Tree.completeResource_of_complete hcomplete.1
    rw [Outcome.inTurn, reviewDeclaration_eq, hself]
    simp only [hf.1]
    have hrest := ih (w := ⟨w.tree, w.log ++ (w.tree.reviewOf ctx id).log⟩) hcomplete.2 hf.2
    simpa only [List.flatMap_cons, List.append_assoc] using hrest

end Workspace

end InfraModule
