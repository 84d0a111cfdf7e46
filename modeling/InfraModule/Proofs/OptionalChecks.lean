import InfraModule.Proofs.BindingOrder
import InfraModule.Proofs.CycleSignature
import InfraModule.Proofs.ModuleRules

namespace InfraModule

open Provider

instance : LE Options where
  le o o' := (o.checkProperties → o'.checkProperties) ∧ (o.checkAttributes → o'.checkAttributes)

namespace Log

variable {P : Diagnostic → Prop} {log log' more more' : Log}

/-- The second log is the first with further entries put in, each of which has a property. -/
inductive Supplemented (P : Diagnostic → Prop) : Log → Log → Prop
  | nil : Supplemented P [] []
  | keep {log log' : Log} (x : Diagnostic) : Supplemented P log log' →
      Supplemented P (x :: log) (x :: log')
  | add {log log' : Log} {x : Diagnostic} : P x → Supplemented P log log' →
      Supplemented P log (x :: log')

theorem Supplemented.refl (log : Log) : Supplemented P log log := by
  induction log with
  | nil => exact .nil
  | cons x log ih => exact .keep x ih

theorem Supplemented.append (h : Supplemented P log log') (h' : Supplemented P more more') :
    Supplemented P (log ++ more) (log' ++ more') := by
  induction h with
  | nil => exact h'
  | keep x _ ih => exact .keep x ih
  | add hx _ ih => exact .add hx ih

theorem supplemented_nil (h : ∀ x ∈ log, P x) : Supplemented P [] log := by
  induction log with
  | nil => exact .nil
  | cons x log ih =>
    rw [List.forall_mem_cons] at h
    exact .add h.1 (ih h.2)

theorem Supplemented.flatMap {α : Type} {f f' : α → Log} {as : List α}
    (h : ∀ a ∈ as, Supplemented P (f a) (f' a)) :
    Supplemented P (as.flatMap f) (as.flatMap f') := by
  induction as with
  | nil => exact .nil
  | cons a as ih =>
    rw [List.forall_mem_cons] at h
    exact h.1.append (ih h.2)

end Log

def noAttributeReport (name type attr : String) (location : Option Location) : Diagnostic :=
  (Problem.invalidReference ((Rejection.noAttribute type attr).message name)).report location

/-- What only the optional checks report: a type that nobody knows, properties that are not those
of the type, and a missing attribute. -/
def Diagnostic.IsOptional (x : Diagnostic) : Prop :=
  x.code ∈ ["E0008", "E0017", "E0018"].map some ∨
    ∃ name type attr location, x = noAttributeReport name type attr location

structure Context.Stricter (ctx ctx' : Context) : Prop where
  symbols : ctx'.symbols = ctx.symbols
  directory : ctx'.directory = ctx.directory
  options : ctx.options ≤ ctx'.options

section Review

variable {ctx ctx' : Context} (h : ctx.Stricter ctx') {t : Tree}

include h

theorem Resource.supplemented_review (location : Option Location) (r : Resource) :
    Log.Supplemented Diagnostic.IsOptional (r.review ctx t location).log
      (r.review ctx' t location).log := by
  have hmanaged (type : String) (object : ExprId) :
      checkManaged ctx' t location type object = checkManaged ctx t location type object := by
    simp only [checkManaged, h.directory, h.symbols]
  unfold review
  split
  next => exact .refl _
  next type object _ _ _ =>
    rw [hmanaged]
    by_cases hcheck : ctx.options.checkProperties
    · rw [if_pos hcheck, if_pos (h.options.1 hcheck)]
      exact .refl _
    · rw [if_neg hcheck]
      split
      next =>
        refine Log.supplemented_nil fun x hx ↦ .inl ?_
        have hreports : (checkManaged ctx t location type object).log.Reports
            ["E0008", "E0017", "E0018"] fun _ ↦ True :=
          reports_checkManaged t.stand_somewhere ctx trivial type trivial
        obtain ⟨-, code, hcode, hx⟩ := hreports.among x hx
        exact hx ▸ List.mem_map_of_mem hcode
      next => exact .nil
  next => exact .nil
  next => exact .refl _

theorem Tree.supplemented_reviewOf (a : DeclId) :
    Log.Supplemented Diagnostic.IsOptional (t.reviewOf ctx a).log (t.reviewOf ctx' a).log := by
  unfold reviewOf
  split
  next => exact .nil
  next d _ =>
    split
    next => exact .nil
    next r _ => exact Resource.supplemented_review h d.location r

end Review

theorem Workspace.tree_of_inTurn {ctx : Context} {w w' : Workspace} {ids : List DeclId}
    (h : Outcome.inTurn (reviewDeclaration ctx) w ids = .ok w') :
    w'.tree = ids.foldl Tree.completeResource w.tree := by
  induction ids generalizing w with
  | nil =>
    cases h
    rfl
  | cons id ids ih =>
    rw [Outcome.inTurn] at h
    split at h
    next w₁ h₁ => rw [ih h, (reviewDeclaration_ok h₁).1, List.foldl_cons]
    next => cases h

section Ruling

variable {ctx ctx' : Context} (h : ctx.Stricter ctx') {t : Tree} {v v' : Verdict}

include h

theorem Context.judgeDependsOn_stricter (name : String) :
    ctx'.judgeDependsOn t name = ctx.judgeDependsOn t name := by
  rw [judgeDependsOn, judgeDependsOn, h.symbols]

theorem Context.checkAttribute_stricter {kind : DeclKind} {attr : String} {x x' : Option Rejection}
    (hx : ctx.checkAttribute t kind attr = .ok x) (hx' : ctx'.checkAttribute t kind attr = .ok x') :
    x' = x ∨ x = none ∧ ∃ type, x' = some (.noAttribute type attr) := by
  have hattribute (type : String) :
      ctx'.hasAttribute t type attr = ctx.hasAttribute t type attr := by
    simp only [hasAttribute, h.directory, h.symbols]
  simp only [checkAttribute, hattribute] at hx hx'
  by_cases hcheck : ctx.options.checkAttributes
  · simp only [hcheck, h.options.2 hcheck] at hx hx'
    exact .inl (Except.ok.inj (hx'.symm.trans hx))
  · simp only [hcheck, Bool.not_false, if_true, Except.ok.injEq] at hx
    subst hx
    split at hx'
    next => exact .inl (Except.ok.inj hx').symm
    next =>
      split at hx'
      next => exact .inl (Except.ok.inj hx').symm
      next =>
        split at hx'
        next => exact .inl (Except.ok.inj hx').symm
        next type _ =>
          cases hknown : ctx.hasAttribute t type attr with
          | error => simp [hknown, Except.map] at hx'
          | ok known =>
            simp only [hknown, Except.map, Except.ok.injEq] at hx'
            cases known with
            | true => exact .inl hx'.symm
            | false => exact .inr ⟨rfl, type, hx'.symm⟩

theorem Context.rejection?_stricter {inCondition : Bool} {r : Reference} {target : Declaration}
    {x x' : Option Rejection} (hx : ctx.rejection? t inCondition r target = .ok x)
    (hx' : ctx'.rejection? t inCondition r target = .ok x') :
    x' = x ∨ x = none ∧
      ∃ name type attr, r = .attributeOf name attr ∧ x' = some (.noAttribute type attr) := by
  cases r with
  | value | condition | mapping => exact .inl (Except.ok.inj (hx'.symm.trans hx))
  | attributeOf name attr =>
    simp only [rejection?] at hx hx'
    by_cases hp : target.kind.isProvisioned
    · rw [if_pos hp] at hx hx'
      rcases checkAttribute_stricter h hx hx' with hsame | ⟨hnone, type, hsome⟩
      · exact .inl hsame
      · exact .inr ⟨hnone, name, type, attr, rfl, hsome⟩
    · rw [if_neg hp] at hx hx'
      exact .inl (Except.ok.inj (hx'.symm.trans hx))

theorem Context.ruling_stricter {inCondition : Bool} {r : Reference}
    (hv : ctx.ruling t inCondition r = .ok v) (hv' : ctx'.ruling t inCondition r = .ok v') :
    v' = v ∨ (∃ id, v = .bound id) ∧
      ∃ name type attr, r = .attributeOf name attr ∧ v' = .rejected (.noAttribute type attr) := by
  simp only [ruling, judgeReference, Option.isSome_none, Bool.false_eq_true, if_false,
    h.symbols] at hv hv'
  cases hn : ctx.symbols.get? r.name with
  | none =>
    simp only [hn] at hv hv'
    exact .inl (Except.ok.inj (hv'.symm.trans hv))
  | some id =>
    simp only [hn, bind, Except.bind] at hv hv'
    cases ht : t.referent id with
    | error => simp [ht] at hv
    | ok d =>
      simp only [ht] at hv hv'
      cases hx : ctx.rejection? t inCondition r d with
      | error => simp [hx] at hv
      | ok x =>
        cases hx' : ctx'.rejection? t inCondition r d with
        | error => simp [hx'] at hv'
        | ok x' =>
          simp only [hx, hx'] at hv hv'
          rcases rejection?_stricter h hx hx' with rfl | ⟨rfl, name, type, attr, hr, rfl⟩
          · exact .inl (Except.ok.inj (hv'.symm.trans hv))
          · cases hv
            cases hv'
            exact .inr ⟨⟨id, rfl⟩, name, type, attr, hr, rfl⟩

theorem Tree.ruling_stricter {s : BindingStep} {m : Matter} (hm : t.matter? s = some m)
    (hv : t.ruling ctx s = .ok v) (hv' : t.ruling ctx' s = .ok v') :
    v' = v ∨ (∃ id, v = .bound id) ∧ ∃ e x name type attr, m.origin = .expression e ∧
      t.expr? e = some x ∧ x.kind = .getAttribute name attr ∧
      v' = .rejected (.noAttribute type attr) := by
  cases s with
  | dependsOn a name =>
    simp only [ruling, Context.judgeDependsOn_stricter h] at hv hv'
    exact .inl (Except.ok.inj (hv'.symm.trans hv))
  | expression a e =>
    obtain ⟨d, x, r, hd, hx, hr, rfl⟩ := matter?_expression hm
    simp only [ruling, hd, hx, hr] at hv hv'
    rcases Context.ruling_stricter h hv hv' with hsame | ⟨hbound, name, type, attr, rfl, hrejected⟩
    · exact .inl hsame
    · exact .inr ⟨hbound, e, x, name, type, attr, rfl, hx,
        ExprKind.reference?_eq_attributeOf.mp hr, hrejected⟩

end Ruling

namespace Roster

variable {α : Type}

def filter (r : Roster α) (p : α → Bool) : Roster α := ⟨r.toList.filter p, r.nodup.filter p⟩

variable [DecidableEq α] {r : Roster α} {p : α → Bool} {a : α}

theorem filter_insert_of_pos (ha : p a) : (r.insert a).filter p = (r.filter p).insert a := by
  apply Roster.ext
  simp only [filter, toList_insert, List.mem_filter, ha, and_true]
  split
  next => rfl
  next => simp [ha]

theorem filter_insert_of_neg (ha : ¬ p a) : (r.insert a).filter p = r.filter p := by
  apply Roster.ext
  simp only [filter, toList_insert]
  split
  next => rfl
  next => simp [ha]

end Roster

def Dependency.isOrder (x : Dependency) : Bool := x.origin = .dependsOn

namespace Declaration

variable {d d' : Declaration} {m : Matter}

def withoutReferences (d : Declaration) : Declaration :=
  { d with dependencies := d.dependencies.filter Dependency.isOrder }

theorem dependsOnTargets_withoutReferences (d : Declaration) :
    d.withoutReferences.dependsOnTargets = d.dependsOnTargets := by
  simp only [dependsOnTargets, withoutReferences, Roster.filter, List.filter_filter,
    Dependency.isOrder, Bool.and_self]

theorem withoutReferences_record {e : ExprId} (ho : m.origin = .expression e) (id : DeclId) :
    (m.record (.bound id) d).withoutReferences = d.withoutReferences := by
  have hfilter : ¬ Dependency.isOrder ⟨id, m.origin⟩ := by simp [Dependency.isOrder, ho]
  simp only [withoutReferences, Matter.record, Roster.filter_insert_of_neg hfilter]

theorem record_withoutReferences (h : d'.withoutReferences = d.withoutReferences) (v : Verdict) :
    (m.record v d').withoutReferences = (m.record v d).withoutReferences := by
  cases v with
  | alreadyBound | rejected => exact h
  | undefined => exact congrArg (m.record .undefined) h
  | bound id =>
    cases ho : m.origin with
    | expression e => rw [withoutReferences_record ho, withoutReferences_record ho, h]
    | dependsOn =>
      have hfilter : Dependency.isOrder ⟨id, m.origin⟩ := by simp [Dependency.isOrder, ho]
      have hrecord (d : Declaration) : (m.record (.bound id) d).withoutReferences =
          m.record (.bound id) d.withoutReferences := by
        simp only [withoutReferences, Matter.record, Roster.filter_insert_of_pos hfilter]
      rw [hrecord, hrecord, h]

end Declaration

def Expression.unbound (x : Expression) : Expression := { x with target := none }

theorem Expression.unbound_eq (x : Expression) (h : x.target = none) : x.unbound = x := by
  rw [unbound, ← h]

namespace Tree

variable {t t' base : Tree} {ctx ctx' : Context} {s : BindingStep} {m : Matter} {v v' : Verdict}

def Refuses (t : Tree) (ctx : Context) (e : ExprId) : Prop :=
  ∃ a x name type attr, .expression a e ∈ t.bindingSteps ∧ t.expr? e = some x ∧
    x.kind = .getAttribute name attr ∧
    t.ruling ctx (.expression a e) = .ok (.rejected (.noAttribute type attr))

def Alike (t t' : Tree) : Prop :=
  ∀ a, (t'.decl? a).map Declaration.withoutReferences =
    (t.decl? a).map Declaration.withoutReferences

theorem Alike.decl?_cases (h : t.Alike t') (a : DeclId) :
    t.decl? a = none ∧ t'.decl? a = none ∨ ∃ d d', t.decl? a = some d ∧ t'.decl? a = some d' ∧
      d'.withoutReferences = d.withoutReferences := by
  have ha := h a
  cases hd : t.decl? a with
  | none => exact .inl ⟨rfl, by simpa [hd] using ha⟩
  | some d =>
    rw [hd, Option.map_some] at ha
    obtain ⟨d', hd', hsame⟩ := Option.map_eq_some_iff.mp ha
    exact .inr ⟨d, d', rfl, hd', hsame⟩

theorem Alike.effect (h : t.Alike t') (m : Matter) (v : Verdict) :
    (m.effect t v).Alike (m.effect t' v) := by
  intro a
  rw [Matter.decl?_effect, Matter.decl?_effect]
  split
  next =>
    rcases h.decl?_cases a with ⟨hd, hd'⟩ | ⟨d, d', hd, hd', hsame⟩
    · rw [hd, hd']
    · simp only [hd, hd', Option.map_some, Declaration.record_withoutReferences hsame]
  next => exact h a

theorem Alike.effect_left (h : t.Alike t') {e : ExprId} (ho : m.origin = .expression e)
    (id : DeclId) : (m.effect t (.bound id)).Alike t' := by
  intro a
  rw [Matter.decl?_effect, h a]
  split
  next =>
    cases t.decl? a with
    | none => rfl
    | some d => simp only [Option.map_some, Declaration.withoutReferences_record ho]
  next => rfl

end Tree

namespace Binder

variable {b b' b₁ b₁' : Binder} {base : Tree} {ctx ctx' : Context} {s : BindingStep} {m : Matter}
  {v v' : Verdict}

/-- How far a binding under more checks, `b'`, has come when one under fewer is at `b`. -/
structure Follows (ctx' : Context) (base : Tree) (b b' : Binder) : Prop where
  grows : base.Grows b.tree
  grows' : base.Grows b'.tree
  decl : b.tree.Alike b'.tree
  expr : ∀ e, b'.tree.expr? e = b.tree.expr? e ∨
    base.Refuses ctx' e ∧ b'.tree.expr? e = (b.tree.expr? e).map Expression.unbound
  undefined : b'.tally.undefined = b.tally.undefined
  log : Log.Supplemented Diagnostic.IsOptional b.log b'.log

/-- The second binding refuses a reference, for its attribute, that the first one binds. -/
structure Withholds (ctx' : Context) (base : Tree) (b b' : Binder) (m : Matter) (v : Verdict)
    (e : ExprId) : Prop where
  origin : m.origin = .expression e
  refuses : base.Refuses ctx' e
  unbound : b'.tree.expr? e = (b.tree.expr? e).map Expression.unbound
  bound : v = .alreadyBound ∨ ∃ id, v = .bound id

section Follows

variable (h : Follows ctx' base b b') (hctx : ctx.Stricter ctx') (hu : base.Unshared)
  (hs : s ∈ base.bindingSteps) (hm : base.matter? s = some m)

include h

theorem Follows.after (hgrows : base.Grows (b.after m v).tree)
    (hgrows' : base.Grows (b'.after m v).tree) :
    Follows ctx' base (b.after m v) (b'.after m v) where
  grows := hgrows
  grows' := hgrows'
  decl := h.decl.effect m v
  expr e := by
    simp only [Binder.after, Matter.expr?_effect]
    cases v with
    | alreadyBound | undefined | rejected => exact h.expr e
    | bound id =>
      simp only
      split
      next =>
        left
        rcases h.expr e with hsame | ⟨-, hunbound⟩
        · rw [hsame]
        · rw [hunbound, Option.map_map]
          rfl
      next => exact h.expr e
  undefined := by
    have hcount := h.undefined
    cases v <;> simp [Binder.after, Tally.count, hcount]
  log := h.log.append (.refl _)

theorem Follows.after_withheld {e : ExprId} (hw : Withholds ctx' base b b' m v e)
    (type attr : String) (hgrows : base.Grows (b.after m v).tree) :
    Follows ctx' base (b.after m v) (b'.after m (.rejected (.noAttribute type attr))) where
  grows := hgrows
  grows' := h.grows'
  decl := by
    rcases hw.bound with rfl | ⟨id, rfl⟩
    · exact h.decl
    · exact h.decl.effect_left hw.origin id
  expr e' := by
    rcases hw.bound with rfl | ⟨id, rfl⟩
    · exact h.expr e'
    · simp only [Binder.after, Matter.expr?_effect, hw.origin, Origin.expression.injEq]
      split
      next heq =>
        subst heq
        refine .inr ⟨hw.refuses, hw.unbound.trans ?_⟩
        rw [Option.map_map]
        rfl
      next => exact h.expr e'
  undefined := by
    have hcount := h.undefined
    rcases hw.bound with rfl | ⟨id, rfl⟩ <;> exact hcount
  log := by
    have hreport : m.report v = [] := by rcases hw.bound with rfl | ⟨id, rfl⟩ <;> rfl
    have hoptional : Log.Supplemented Diagnostic.IsOptional []
        (m.report (.rejected (.noAttribute type attr))) :=
      .add (.inr ⟨m.name, type, attr, m.location, rfl⟩) .nil
    simp only [Binder.after, hreport]
    exact h.log.append ((Log.Supplemented.refl _).append hoptional)

theorem Follows.targetOf_eq {id : DeclId} (ht : b'.tree.targetOf s = some id) :
    b.tree.targetOf s = some id := by
  cases s with
  | dependsOn => cases ht
  | expression a e =>
    simp only [Tree.targetOf] at ht ⊢
    rcases h.expr e with hsame | ⟨-, hunbound⟩
    · rwa [← hsame]
    · rw [hunbound] at ht
      cases hx : b.tree.expr? e <;> simp [hx, Expression.unbound] at ht

theorem Follows.expr_eq_unbound {a : DeclId} {e : ExprId}
    (ht : b'.tree.targetOf (.expression a e) = none) :
    b'.tree.expr? e = (b.tree.expr? e).map Expression.unbound := by
  rcases h.expr e with hsame | ⟨-, hunbound⟩
  · cases hx : b.tree.expr? e with
    | none => rw [hsame, hx, Option.map_none]
    | some x =>
      rw [hsame, hx, Option.map_some, x.unbound_eq]
      simpa [Tree.targetOf, hsame, hx] using ht
  · exact hunbound

theorem Follows.refuses_of_targetOf (hu : base.Unshared) {a : DeclId} {e : ExprId}
    (hs : .expression a e ∈ base.bindingSteps) {id : DeclId}
    (ht : b.tree.targetOf (.expression a e) = some id)
    (ht' : b'.tree.targetOf (.expression a e) = none) :
    ∃ type attr, base.Refuses ctx' e ∧
      base.ruling ctx' (.expression a e) = .ok (.rejected (.noAttribute type attr)) := by
  rcases h.expr e with hsame | ⟨hrefuses, -⟩
  · simp only [Tree.targetOf] at ht ht'
    rw [hsame, ht] at ht'
    cases ht'
  · have hparts := hrefuses
    obtain ⟨c, _, _, type, attr, hc, _, _, hr⟩ := hparts
    obtain ⟨ha, he⟩ := Tree.expression_mem_bindingSteps.mp hs
    obtain ⟨hc, he'⟩ := Tree.expression_mem_bindingSteps.mp hc
    cases hu a ha c hc e he he'
    exact ⟨type, attr, hrefuses, hr⟩

include hctx hs hm

omit h in
theorem withholds_of_ruling (hv : base.ruling ctx s = .ok v) (hv' : base.ruling ctx' s = .ok v')
    (hunbound : ∀ e, m.origin = .expression e →
      b'.tree.expr? e = (b.tree.expr? e).map Expression.unbound) :
    v' = v ∨ ∃ e type attr, Withholds ctx' base b b' m v e ∧
      v' = .rejected (.noAttribute type attr) := by
  rcases Tree.ruling_stricter hctx hm hv hv' with
    hsame | ⟨hbound, e, x, name, type, attr, ho, hx, hk, hrejected⟩
  · exact .inl hsame
  · have hstep := Tree.origin_expression hm ho
    refine .inr ⟨e, type, attr, ⟨ho, ?_, hunbound e ho, .inr hbound⟩, hrejected⟩
    exact ⟨m.owner, x, name, type, attr, hstep ▸ hs, hx, hk, hstep ▸ hrejected ▸ hv'⟩

include hu

theorem Follows.verdict (hv : b.tree.judge ctx s = .ok v) (hv' : b'.tree.judge ctx' s = .ok v') :
    v' = v ∨ ∃ e type attr, Withholds ctx' base b b' m v e ∧
      v' = .rejected (.noAttribute type attr) := by
  have hcov := Tree.covers_of_mem_bindingSteps hs
  rw [Tree.judge_of_grows h.grows hcov hm] at hv
  rw [Tree.judge_of_grows h.grows' hcov hm] at hv'
  cases s with
  | dependsOn a name =>
    refine withholds_of_ruling hctx hs hm hv hv' fun e ho ↦ ?_
    cases Tree.origin_expression hm ho
  | expression a e =>
    have ho : m.origin = .expression e := by
      obtain ⟨d, x, r, -, -, -, rfl⟩ := Tree.matter?_expression hm
      rfl
    cases ht' : b'.tree.targetOf (.expression a e) with
    | some id' =>
      have ht : b.tree.targetOf (.expression a e) = some id' := h.targetOf_eq ht'
      rw [ht'] at hv'
      rw [ht] at hv
      exact .inl (Except.ok.inj (hv'.symm.trans hv))
    | none =>
      have hunbound := h.expr_eq_unbound ht'
      rw [ht'] at hv'
      cases ht : b.tree.targetOf (.expression a e) with
      | none =>
        rw [ht] at hv
        refine withholds_of_ruling hctx hs hm hv hv' fun e' ho' ↦ ?_
        cases ho.symm.trans ho'
        exact hunbound
      | some id =>
        rw [ht] at hv
        obtain ⟨type, attr, hrefuses, hrejected⟩ := h.refuses_of_targetOf hu hs ht ht'
        exact .inr ⟨e, type, attr, ⟨ho, hrefuses, hunbound, .inl (Except.ok.inj hv).symm⟩,
          Except.ok.inj (hv'.symm.trans hrejected)⟩

omit hm in
theorem Follows.step (hstep : b.step ctx s = .ok b₁) (hstep' : b'.step ctx' s = .ok b₁') :
    Follows ctx' base b₁ b₁' := by
  have hgrows := grows_of_step h.grows hstep
  have hgrows' := grows_of_step h.grows' hstep'
  rcases step_cases h.grows hs hstep with ⟨hm, rfl⟩ | ⟨m, v, hm, hv, rfl⟩
  · rcases step_cases h.grows' hs hstep' with ⟨-, rfl⟩ | ⟨m', v', hm', -⟩
    · exact h
    · cases hm.symm.trans hm'
  · rcases step_cases h.grows' hs hstep' with ⟨hm', -⟩ | ⟨m', v', hm', hv', rfl⟩
    · cases hm.symm.trans hm'
    · cases hm.symm.trans hm'
      rcases h.verdict hctx hu hs hm hv hv' with rfl | ⟨e, type, attr, hwithholds, rfl⟩
      · exact h.after hgrows hgrows'
      · exact h.after_withheld hwithholds type attr hgrows

end Follows

theorem Follows.inTurn (h : Follows ctx' base b b') (hctx : ctx.Stricter ctx')
    (hu : base.Unshared) {steps : List BindingStep} (hsteps : steps ⊆ base.bindingSteps)
    (hrun : Outcome.inTurn (Binder.step ctx) b steps = .ok b₁)
    (hrun' : Outcome.inTurn (Binder.step ctx') b' steps = .ok b₁') : Follows ctx' base b₁ b₁' := by
  induction steps generalizing b b' with
  | nil =>
    cases hrun
    cases hrun'
    exact h
  | cons s steps ih =>
    obtain ⟨hs, hsteps⟩ := List.cons_subset.mp hsteps
    rw [Outcome.inTurn] at hrun hrun'
    split at hrun
    next b₂ hstep =>
      split at hrun'
      next b₂' hstep' => exact ih (h.step hctx hu hs hstep hstep') hsteps hrun hrun'
      next => cases hrun'
    next => cases hrun

end Binder

namespace Tree

variable {t t' base : Tree} {directory : Directory} {options options' : Options}
  {w w' : Workspace} {b b' : Binder} {file : String}

theorem Alike.reportCycles_eq (halike : t.Alike t') (h : base.Grows t) (h' : base.Grows t') :
    t'.reportCycles = t.reportCycles := by
  have hprerequisites : t'.prerequisites? = t.prerequisites? := by
    funext a
    rcases halike.decl?_cases a with ⟨hd, hd'⟩ | ⟨d, d', hd, hd', hsame⟩
    · rw [prerequisites?, prerequisites?, hd, hd']
    · rw [prerequisites?, prerequisites?, hd, hd', Option.map_some, Option.map_some,
        ← d'.dependsOnTargets_withoutReferences, hsame, d.dependsOnTargets_withoutReferences]
  have hids : t'.declIds = t.declIds := h'.declIds_eq.trans h.declIds_eq.symm
  have hwalk : t'.walk = t.walk := h'.walk_eq.trans h.walk_eq.symm
  have hsize : t'.declarations.size = t.declarations.size := h'.size.trans h.size.symm
  have hname : t'.nameOf = t.nameOf := h'.nameOf_eq.trans h.nameOf_eq.symm
  have hlinks : t'.linksWithin? = t.linksWithin? := by
    funext components a
    rw [linksWithin?, linksWithin?, hprerequisites]
  have hcycles : t'.cycles = t.cycles := by
    simp only [cycles, cycles?, components?, hprerequisites, hlinks, hids, hwalk, hsize]
  have hreport (c : Cycle) : Cycle.report t' c = Cycle.report t c := by
    unfold Cycle.report Cycle.describe
    rw [hname]
    cases c.head? with
    | none => rfl
    | some a =>
      rw [Option.bind_some, Option.bind_some, h'.declLocation_eq, h.declLocation_eq]
  have hdistinct : Cycle.distinct t' t.cycles = Cycle.distinct t t.cycles := by
    unfold Cycle.distinct Cycle.signature
    rw [hname]
  rw [reportCycles_eq_map, reportCycles_eq_map, hcycles, hdistinct]
  exact List.map_congr_left fun c _ ↦ hreport c

theorem Stages.follows (hle : options ≤ options') (hc : t.Closed) (hu : t.Unshared)
    (h : t.Stages directory options w b) (h' : t.Stages directory options' w' b') :
    w'.tree = w.tree ∧ Binder.Follows (t.contextOf directory options') w.tree b b' := by
  have hctx : (t.contextOf directory options).Stricter (t.contextOf directory options') :=
    ⟨rfl, rfl, hle⟩
  have htree : w'.tree = w.tree :=
    (Workspace.tree_of_inTurn h'.review).trans (Workspace.tree_of_inTurn h.review).symm
  have hr := h.reviewed hc
  have hbind := h.bind
  have hbind' := h'.bind
  unfold Workspace.bindReferences at hbind hbind'
  rw [htree] at hbind'
  refine ⟨htree, Binder.Follows.inTurn ?_ hctx (hu.grows hc hr.grows) (List.Subset.refl _) hbind
    hbind'⟩
  refine ⟨.refl _, .refl _, fun _ ↦ rfl, fun _ ↦ .inl rfl, rfl, ?_⟩
  rw [hr.log, (h'.reviewed hc).log, htree]
  exact (Log.Supplemented.refl _).append (.flatMap fun a _ ↦ supplemented_reviewOf hctx a)

theorem Drafted.refused (h : t.Drafted file) (hroot : (t.decl? root).isSome)
    (hst : t.Stages directory options w b) (hst' : t.Stages directory options' w' b')
    {e : ExprId} (hrefuses : w'.tree.Refuses (t.contextOf directory options') e) {y : Expression}
    (hy : b.tree.expr? e = some y) {id : DeclId} (hid : y.target = some id) :
    ∃ d name type attr, t.decl? id = some d ∧ y.kind = .getAttribute name attr ∧
      ¬ t.AttributeAllowed directory d.kind attr ∧
      noAttributeReport name type attr (t.locationOf e) ∈ (t.conclusion b').diagnostics := by
  obtain ⟨a, x', name, type, attr, hs, hx', hk', hruling⟩ := hrefuses
  have hg := (hst'.reviewed h.closed).grows
  obtain ⟨d', hd'⟩ := exists_decl_of_mem_walk (expression_mem_bindingSteps.mp hs).1
  have hm' := matter?_of_reference hd' hx' (ExprKind.reference?_eq_attributeOf.mpr hk')
  have hmem := mem_bindingSteps_of_matter? hg h.closed hs hm'
  have hcov := covers_of_mem_bindingSteps hmem
  obtain ⟨ha, he⟩ := expression_mem_bindingSteps.mp hmem
  obtain ⟨c, hc⟩ := exists_decl_of_mem_walk ha
  obtain ⟨x, _, hx, hx'', hgx⟩ := hg.exists_expr he.isSome
  cases hx'.symm.trans hx''
  have hk : x.kind = .getAttribute name attr := hgx.kind.symm.trans hk'
  have hr := ExprKind.reference?_eq_attributeOf.mpr hk
  have hm := matter?_of_reference hc hx hr
  obtain ⟨v, hv, hverdict, hbound⟩ := h.verdict hst' hmem hm
  rw [ruling_grows hg hcov] at hruling
  cases hv.symm.trans hruling
  obtain ⟨_, hy₁, hdenotes⟩ := h.exists_target hroot hst hc he hx hr
  cases hy.symm.trans hy₁
  obtain ⟨hname, d, hd, hlegal⟩ := (hdenotes id).mp hid
  obtain ⟨_, hy₂, hgy⟩ := (hst.grows h.closed).expr e x hx
  cases hy.symm.trans hy₂
  refine ⟨d, name, type, attr, hd, hgy.kind.trans hk, fun hallowed ↦ ?_, ?_⟩
  · obtain ⟨y', hy', hdenotes'⟩ := h.exists_target hroot hst' hc he hx hr
    have htarget := (hdenotes' id).mpr ⟨hname, d, hd, hlegal.1, fun _ ↦ hallowed⟩
    exact absurd ((hbound e rfl id).mp (by simp [targetOf, hy', htarget])) nofun
  · rw [hst'.diagnostics_eq h.closed h.unshared]
    refine List.mem_append_left _ (List.mem_append_right _ (List.mem_flatMap.mpr ⟨_, hs, ?_⟩))
    simp only [reportsOf, (matter?_grows hg hcov).trans hm, hverdict, Option.elim_some]
    exact List.mem_append_right _ (List.mem_singleton_self _)

end Tree

namespace Draft

/-- More checks lead to more reports, about unknown types, wrong properties and missing attributes,
and to references that stay unbound because of a missing attribute. All else is the same. -/
theorem analysis_under_more_checks {name file : String} {statements : List Statement}
    {directory : Directory} {options options' : Options} (hle : options ≤ options')
    {t₁ t₂ : Tree} {a₁ a₂ : Analysis}
    (h₁ : (build name file statements).analyze directory options = (t₁, .ok a₁))
    (h₂ : (build name file statements).analyze directory options' = (t₂, .ok a₂)) :
    let t := build name file statements
    Log.Supplemented Diagnostic.IsOptional a₁.diagnostics a₂.diagnostics ∧
    a₂.symbols = a₁.symbols ∧ a₂.cycles = a₁.cycles ∧
    a₂.tally.undefined = a₁.tally.undefined ∧
    (∀ id, (t₂.decl? id).map Declaration.withoutReferences =
      (t₁.decl? id).map Declaration.withoutReferences) ∧
    ∀ e, t₂.expr? e = t₁.expr? e ∨ ∃ x id d name type attr, t₁.expr? e = some x ∧
      t₂.expr? e = some x.unbound ∧ x.target = some id ∧ t.decl? id = some d ∧
      x.kind = .getAttribute name attr ∧ ¬ t.AttributeAllowed directory d.kind attr ∧
      noAttributeReport name type attr (t.locationOf e) ∈ a₂.diagnostics := by
  intro t
  obtain ⟨w, b, hst, rfl, rfl⟩ := Tree.analyze_eq_ok_iff.mp h₁
  obtain ⟨w', b', hst', rfl, rfl⟩ := Tree.analyze_eq_ok_iff.mp h₂
  obtain ⟨_, hdraft, hroot⟩ := exists_drafted_build name file statements
  obtain ⟨htree, hfollows⟩ := hst.follows hle hdraft.closed hdraft.unshared hst'
  have hcycles := hfollows.decl.reportCycles_eq hfollows.grows hfollows.grows'
  refine ⟨?_, rfl, congrArg List.length hcycles, hfollows.undefined, hfollows.decl, fun e ↦ ?_⟩
  · simp only [Tree.conclusion, hcycles]
    exact hfollows.log.append (.refl _)
  · rcases hfollows.expr e with hsame | ⟨hrefuses, hunbound⟩
    · exact .inl hsame
    · cases hx : b.tree.expr? e with
      | none => exact .inl (by rw [hunbound, hx, Option.map_none])
      | some x =>
        rw [hx, Option.map_some] at hunbound
        cases ht : x.target with
        | none => exact .inl (by rw [hunbound, x.unbound_eq ht])
        | some id =>
          obtain ⟨d, name, type, attr, hd, hk, hallowed, hreport⟩ :=
            hdraft.refused hroot hst hst' (htree ▸ hrefuses) hx ht
          exact .inr ⟨x, id, d, name, type, attr, rfl, hunbound, ht, hd, hk, hallowed, hreport⟩

/-- A resource with a property that its type does not have, one whose type nobody knows, and a
reference to an attribute that is not there. -/
def sloppy : List Statement :=
  [.declare "Kind" (.resourceType ["Name"] ["Arn"]),
    .declare "First" (.resource ⟨some "Kind", none, none,
      some (.object [("Colour", .literal "red")]), ["Second"]⟩),
    .declare "Second" (.resource ⟨some "Other", none, none,
      some (.object [("Of", .getAttribute "First" "Colour"), ("By", .reference "Nobody")]), []⟩)]

theorem analysis_under_more_checks_sloppy : ∃ t₁ t₂ a₁ a₂,
    (build "Module" "Module.yml" sloppy).analyze .empty .minimal = (t₁, .ok a₁) ∧
    (build "Module" "Module.yml" sloppy).analyze .empty .standard = (t₂, .ok a₂) ∧
    Log.Supplemented Diagnostic.IsOptional a₁.diagnostics a₂.diagnostics ∧
    a₁.diagnostics.length = 1 ∧ a₂.diagnostics.length = 4 ∧
    a₂.tally.undefined = a₁.tally.undefined ∧ t₂.expr? ⟨2⟩ ≠ t₁.expr? ⟨2⟩ := by
  let t := build "Module" "Module.yml" sloppy
  obtain ⟨a₁, ha₁, hlength₁⟩ := Option.map_eq_some_iff.mp
    (show (t.analyze .empty .minimal).2.toOption.map (fun a ↦ a.diagnostics.length) = some 1 by
      decide +kernel)
  obtain ⟨a₂, ha₂, hlength₂⟩ := Option.map_eq_some_iff.mp
    (show (t.analyze .empty .standard).2.toOption.map (fun a ↦ a.diagnostics.length) = some 4 by
      decide +kernel)
  obtain ⟨t₁, h₁⟩ := Tree.exists_analyze_eq ha₁
  obtain ⟨t₂, h₂⟩ := Tree.exists_analyze_eq ha₂
  have hdiffer : (t.analyze .empty .standard).1.expr? ⟨2⟩ ≠
      (t.analyze .empty .minimal).1.expr? ⟨2⟩ := by decide +kernel
  rw [h₁, h₂] at hdiffer
  obtain ⟨hlog, -, -, hundefined, -⟩ :=
    analysis_under_more_checks ⟨fun _ ↦ rfl, fun _ ↦ rfl⟩ h₁ h₂
  exact ⟨t₁, t₂, a₁, a₂, h₁, h₂, hlog, hlength₁, hlength₂, hundefined, hdiffer⟩

end Draft

end InfraModule
