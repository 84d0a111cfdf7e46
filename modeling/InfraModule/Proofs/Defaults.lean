import InfraModule.Proofs.AnalysisRun
import InfraModule.Proofs.Drafting

namespace InfraModule

namespace Tree

variable {base t t' : Tree} {ids : List DeclId}

def isBare (t : Tree) (a : DeclId) : Bool :=
  (t.decl? a).any fun d ↦ d.kind.resource?.any fun r ↦ r.isManaged && r.properties.isNone

theorem isBare_iff {a : DeclId} : t.isBare a ↔ ∃ d r, t.decl? a = some d ∧
    d.kind = .resource r ∧ r.isManaged ∧ r.properties = none := by
  simp [isBare, Option.any_eq_true, DeclKind.resource?_eq_some]

theorem not_isBare_of_completeAt {a : DeclId} (h : t.CompleteAt a) : ¬ t.isBare a := by
  intro hbare
  obtain ⟨d, r, hd, hk, hm, hp⟩ := isBare_iff.mp hbare
  have hsome := (h d r hd hk).properties hm
  simp [hp] at hsome

/-- What the completion of some declarations makes of a tree. The objects that become properties
stand at its end, in the order of the declarations that own them. -/
structure Defaulted (base : Tree) (ids : List DeclId) (t : Tree) : Prop where
  typed : ∀ a ∈ ids, ∀ d r value, base.decl? a = some d → d.kind = .resource r →
    r.value = some value → r.type = none → ∃ x, base.expr? value = some x ∧
      t.decl? a = some { d with kind := .resource { r with
        type := some (match x.kind with | .list _ => "List" | _ => "String") } }
  furnished : ∀ k a, (ids.filter base.isBare)[k]? = some a →
    ∃ d r, base.decl? a = some d ∧ d.kind = .resource r ∧
      t.decl? a = some { d with kind := .resource { r with
        properties := some ⟨base.expressions.size + k⟩ } }
  other : ∀ a, (a ∈ ids → base.CompleteAt a) → t.decl? a = base.decl? a
  expressions : t.expressions.toList = base.expressions.toList ++
    (ids.filter base.isBare).map fun a ↦
      ⟨a, (base.decl? a).bind Declaration.location, none, .object .empty⟩

namespace Defaulted

theorem nil (t : Tree) : t.Defaulted [] t where
  typed := by simp
  furnished := by simp
  other _ _ := rfl
  expressions := by simp

theorem expr?_eq (h : base.Defaulted ids t) {e : ExprId} {x : Expression}
    (hx : base.expr? e = some x) : t.expr? e = some x := by
  rw [expr?, ← Array.getElem?_toList] at hx ⊢
  rw [h.expressions, List.getElem?_append_left (List.getElem?_eq_some_iff.mp hx).1, hx]

theorem size_eq (h : base.Defaulted ids t) :
    t.expressions.size = base.expressions.size + (ids.filter base.isBare).length := by
  rw [← Array.length_toList, h.expressions, List.length_append, List.length_map,
    Array.length_toList]

theorem trans {ids' : List DeclId} (h : base.Defaulted ids t) (h' : t.Defaulted ids' t')
    (hc : base.Closed) (hdisjoint : ids.Disjoint ids') : base.Defaulted (ids ++ ids') t' := by
  have hfirst {a : DeclId} (ha : a ∈ ids) : t'.decl? a = t.decl? a :=
    h'.other a fun ha' ↦ absurd ha' (hdisjoint ha)
  have hlater {a : DeclId} (ha : a ∈ ids') : t.decl? a = base.decl? a :=
    h.other a fun ha' ↦ absurd ha (hdisjoint ha')
  have hbare : ids'.filter t.isBare = ids'.filter base.isBare := by
    apply List.filter_congr
    intro a ha
    rw [isBare, isBare, hlater ha]
  constructor
  case typed =>
    intro a ha d r value hd hk hv ht
    rcases List.mem_append.mp ha with ha | ha
    · rw [hfirst ha]
      exact h.typed a ha d r value hd hk hv ht
    · obtain ⟨x, hx, hd'⟩ := h'.typed a ha d r value ((hlater ha).trans hd) hk hv ht
      have hsome := hc.roots a d hd value (by simp [hk, DeclKind.roots, hv])
      obtain ⟨y, hy⟩ := Option.isSome_iff_exists.mp hsome
      cases hx.symm.trans (h.expr?_eq hy)
      exact ⟨x, hy, hd'⟩
  case furnished =>
    intro k a hk
    rw [List.filter_append, List.getElem?_append] at hk
    split at hk
    next =>
      rw [hfirst (List.mem_of_mem_filter (List.mem_of_getElem? hk))]
      exact h.furnished k a hk
    next hle =>
      have ha := List.mem_of_mem_filter (List.mem_of_getElem? hk)
      rw [← hbare] at hk
      obtain ⟨d, r, hd, hkind, hd'⟩ := h'.furnished _ a hk
      refine ⟨d, r, (hlater ha).symm.trans hd, hkind, ?_⟩
      rw [hd', h.size_eq, Nat.add_assoc, Nat.add_sub_cancel' (Nat.not_lt.mp hle)]
  case other =>
    intro a ha
    have hbefore := h.other a fun hmem ↦ ha (List.mem_append_left _ hmem)
    rw [← hbefore]
    apply h'.other a
    intro hmem d r hd
    exact ha (List.mem_append_right _ hmem) d r (hbefore.symm.trans hd)
  case expressions =>
    rw [h'.expressions, h.expressions, List.append_assoc, List.filter_append, List.map_append,
      hbare]
    congr 2
    apply List.map_congr_left
    intro a ha
    rw [hlater (List.mem_of_mem_filter ha)]

end Defaulted

theorem defaulted_completeResource (hc : t.Closed) (id : DeclId) :
    t.Defaulted [id] (t.completeResource id) := by
  rcases t.completeResource_cases id with ⟨hcomplete, he⟩ |
    ⟨d, r, value, x, hd, hk, hv, ht, hx, he⟩ | ⟨d, r, type, hd, hk, hv, ht, hp, he⟩
  · have hnone : [id].filter t.isBare = [] := by simp [not_isBare_of_completeAt (hcomplete hc)]
    rw [he]
    refine ⟨fun a ha d r value hd hk hv ht ↦ ?_, by simp [hnone], fun _ _ ↦ rfl, by simp [hnone]⟩
    cases List.mem_singleton.mp ha
    have hsome := (hcomplete hc d r hd hk).type (by simp [hv])
    simp [ht] at hsome
  · have hnone : [id].filter t.isBare = [] := by
      simp [isBare, hd, hk, DeclKind.resource?, Resource.isManaged, ht]
    rw [he]
    refine ⟨fun a ha d' r' value' hd' hk' hv' ht' ↦ ?_, by simp [hnone], fun a ha ↦ ?_,
      by simp [hnone, setResource, modifyDecl]⟩
    · cases List.mem_singleton.mp ha
      cases hd.symm.trans hd'
      cases hk.symm.trans hk'
      cases hv.symm.trans hv'
      refine ⟨x, hx, ?_⟩
      rw [decl?_setResource, if_pos rfl, hd]
      rfl
    · rw [decl?_setResource, if_neg]
      intro heq
      have hsome := (ha (List.mem_singleton.mpr heq) d r (heq ▸ hd) hk).type (by simp [hv])
      simp [ht] at hsome
  · have hbare : [id].filter t.isBare = [id] := by
      simp [isBare, hd, hk, DeclKind.resource?, Resource.isManaged, hv, ht, hp]
    rw [he]
    refine ⟨fun a ha d' r' value' hd' hk' hv' ht' ↦ ?_, fun k a hget ↦ ?_, fun a ha ↦ ?_, ?_⟩
    · cases List.mem_singleton.mp ha
      cases hd.symm.trans hd'
      cases hk.symm.trans hk'
      cases hv.symm.trans hv'
    · rw [hbare, List.getElem?_singleton] at hget
      split at hget
      next hzero =>
        cases hget
        subst hzero
        refine ⟨d, r, hd, hk, ?_⟩
        rw [decl?_setResource, if_pos rfl, decl?_withExpression, hd]
        rfl
      next => cases hget
    · rw [decl?_setResource, if_neg, decl?_withExpression]
      intro heq
      have hsome := (ha (List.mem_singleton.mpr heq) d r (heq ▸ hd) hk).properties
        (by simp [Resource.isManaged, hv, ht])
      simp [hp] at hsome
    · simp [hbare, hd, setResource, modifyDecl, withExpression]

end Tree

theorem DeclKind.Filled.standing_eq {t t' : Tree} {id : DeclId} {k k' : DeclKind}
    (h : k.Filled t t' id k') :
    k'.resource?.map Resource.isExternal = k.resource?.map Resource.isExternal ∧
      k'.resource?.map Resource.isManaged = k.resource?.map Resource.isManaged := by
  cases h with
  | same => exact ⟨rfl, rfl⟩
  | resource hr => simp [resource?, Resource.isExternal, hr.value, hr.isManaged_eq]

namespace Workspace

variable {ctx : Context} {w w' : Workspace}

theorem defaulted_of_inTurn (hc : w.tree.Closed) {ids : List DeclId} (hnodup : ids.Nodup)
    (h : Outcome.inTurn (reviewDeclaration ctx) w ids = .ok w') :
    w.tree.Defaulted ids w'.tree := by
  induction ids generalizing w with
  | nil =>
    cases h
    exact .nil _
  | cons id ids ih =>
    rw [List.nodup_cons] at hnodup
    rw [Outcome.inTurn] at h
    split at h
    next w₁ h₁ =>
      obtain ⟨htree, -, -⟩ := reviewDeclaration_ok h₁
      have hfirst := Tree.defaulted_completeResource hc id
      have hc₁ := hc.grows (w.tree.grows_completeResource id)
      rw [← htree] at hfirst hc₁
      apply hfirst.trans (ih hc₁ hnodup.2 h) hc
      simpa using hnodup.1
    next => cases h

/-- A review that ends has filled in the types and properties of the resources that it walked, each
as it must be, and changed nothing else. What is external, managed or neither stays so, and a second
review finds nothing to fill in and reports the same. -/
theorem review_fills_in_defaults (hc : w.tree.Closed) (h : w.reviewResources ctx = .ok w') :
    w.tree.Defaulted w.tree.walk w'.tree ∧
    (∀ a ∈ w.tree.walk, ∀ d r, w'.tree.decl? a = some d → d.kind = .resource r →
      (r.isExternal → r.type.isSome) ∧ (r.isManaged → r.properties.isSome)) ∧
    (∀ a d d', w.tree.decl? a = some d → w'.tree.decl? a = some d' →
      d'.kind.resource?.map Resource.isExternal = d.kind.resource?.map Resource.isExternal ∧
      d'.kind.resource?.map Resource.isManaged = d.kind.resource?.map Resource.isManaged) ∧
    ∃ found, w'.log = w.log ++ found ∧
      ∀ log, reviewResources ctx ⟨w'.tree, log⟩ = .ok ⟨w'.tree, log ++ found⟩ := by
  have hreviewed := reviewed_of_inTurn hc h
  refine ⟨defaulted_of_inTurn hc w.tree.nodup_walk h, fun a ha d r hd hk ↦ ?_,
    fun a d d' hd hd' ↦ ?_, _, hreviewed.log, fun log ↦ ?_⟩
  · obtain ⟨htype, hproperties⟩ := hreviewed.complete a ha d r hd hk
    exact ⟨htype, hproperties⟩
  · obtain ⟨d'', hd'', hg⟩ := hreviewed.grows.decl a d hd
    cases hd'.symm.trans hd''
    exact hg.kind.standing_eq
  · rw [reviewResources, hreviewed.grows.walk_eq]
    exact inTurn_of_complete (w := ⟨w'.tree, log⟩) hreviewed.complete hreviewed.fault

def sketchy : Tree :=
  Draft.build "Module" "Module.yml"
    [.declare "Roles" (.resource ⟨none, some (.list [.literal "arn:aws:iam::1:role/Reader"]), none,
        some (.object []), []⟩),
      .declare "Bucket" (.resource ⟨some "Custom::Bucket", none, none, none, []⟩),
      .declare "Key" (.resource ⟨none, some (.literal "a key"), none, none, []⟩),
      .beginGroup "Queues",
      .declare "Queue" (.resource ⟨some "Acme::Queue", none, none, none, ["Bucket"]⟩),
      .endGroup,
      .declare "Remainder" (.resource ⟨none, none, none, none, []⟩)]

theorem review_fills_in_defaults_sketchy :
    let ctx := sketchy.contextOf .empty .standard
    sketchy.Closed ∧ ∃ w' found, reviewResources ctx ⟨sketchy, []⟩ = .ok w' ∧
      sketchy.Defaulted sketchy.walk w'.tree ∧
      sketchy.walk.filter sketchy.isBare = [⟨2⟩, ⟨5⟩] ∧ found.length = 4 ∧
      reviewResources ctx ⟨w'.tree, []⟩ = .ok ⟨w'.tree, found⟩ := by
  intro ctx
  obtain ⟨_, hdrafted, -⟩ := Draft.exists_drafted_build "Module" "Module.yml" _
  have hends : (reviewResources ctx ⟨sketchy, []⟩).toOption.map (·.log.length) = some 4 := by
    decide +kernel
  refine ⟨hdrafted.closed, ?_⟩
  cases h : reviewResources ctx ⟨sketchy, []⟩ with
  | error => simp [h, Except.toOption] at hends
  | ok w' =>
    have hfilled := review_fills_in_defaults hdrafted.closed h
    obtain ⟨hdefaulted, -, -, found, hlog, hagain⟩ := hfilled
    refine ⟨w', found, rfl, hdefaulted, by decide +kernel, ?_, hagain []⟩
    simpa [h, Except.toOption, hlog] using hends

end Workspace

end InfraModule
