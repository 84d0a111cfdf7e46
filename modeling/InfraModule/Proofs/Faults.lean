import InfraModule.Proofs.Assembly
import InfraModule.Proofs.PassFrame
import InfraModule.Proofs.SpecificationGaps

namespace InfraModule

open Provider

def Fault.Within (Allowed : Inconsistency → Prop) : Fault → Prop
  | inconsistent cause => Allowed cause
  | dangling | endless => False

def Findings.Within (Allowed : Inconsistency → Prop) (found : Findings) : Prop :=
  ∀ fault, found.fault = some fault → fault.Within Allowed

def Findings.StopsAt (P : Fault → Prop) (found : Findings) : Prop :=
  ∀ fault, found.fault = some fault → P fault

namespace Findings

variable {P : Fault → Prop} {found : Findings}

theorem stopsAt_of_none (h : found.fault = none) : found.StopsAt P := by
  intro fault hf
  simp [h] at hf

theorem stopsAt_halted {fault : Fault} (h : P fault) : (halted fault).StopsAt P := by
  intro fault' hf
  cases hf
  exact h

theorem stopsAt_andThen {first : Findings} {second : Unit → Findings} (h : first.StopsAt P)
    (h' : (second ()).StopsAt P) : (first.andThen second).StopsAt P := by
  intro fault hf
  cases hfirst : first.fault with
  | none => exact h' fault (by simpa [andThen, hfirst] using hf)
  | some f => exact h fault (by simpa [andThen, hfirst] using hf)

theorem stopsAt_each {α : Type} {check : α → Findings} {as : List α}
    (h : ∀ a ∈ as, (check a).StopsAt P) : (each check as).StopsAt P := by
  induction as with
  | nil => exact stopsAt_of_none rfl
  | cons a as ih =>
    rw [List.forall_mem_cons] at h
    exact stopsAt_andThen h.1 (ih h.2)

end Findings

namespace Tree

variable {t t' : Tree}

/-- A tree in which every way down ends and every name stands for a declaration of use. -/
structure Navigable (t : Tree) : Prop where
  closed : t.Closed
  ordered : t.Ordered
  named : ∀ a d, t.decl? a = some d → a ≠ root → d.kind.isModuleRoot = false

theorem Ordered.grows (h : t.Ordered) (hg : t.Grows t') : t'.Ordered := by
  intro e c hc
  cases hx : t.expr? e with
  | some x =>
    rw [hg.partsOf_eq (by simp [hx])] at hc
    exact h e c hc
  | none =>
    cases hx' : t'.expr? e with
    | none => simp [partsOf, hx'] at hc
    | some x' =>
      have hk := (hg.fresh e x' hx hx').1
      simp [partsOf, hx', hk, ExprKind.children, Registry.values] at hc

theorem Navigable.grows (h : t.Navigable) (hg : t.Grows t') : t'.Navigable := by
  refine ⟨h.closed.grows hg, h.ordered.grows hg, ?_⟩
  intro a d' hd' hne
  obtain ⟨d, hd, hgd⟩ := hg.exists_decl hd'
  rw [hgd.kind.isModuleRoot_eq]
  exact h.named a d hd hne

/-- Below the expressions of `P` everything is there, and each part has a lower rank than what it
is a part of. -/
structure Descends (t : Tree) (P : ExprId → Prop) (rank : ExprId → ℕ) : Prop where
  present : ∀ e, P e → (t.expr? e).isSome
  parts : ∀ e, P e → ∀ c ∈ t.partsOf e, P c ∧ rank c < rank e

theorem Navigable.descends (h : t.Navigable) :
    t.Descends (fun e ↦ (t.expr? e).isSome) ExprId.index where
  present _ he := he
  parts e he c hc := ⟨h.closed.partsOf he c hc, h.ordered e c hc⟩

end Tree

namespace Resource

variable {t : Tree} {ctx : Context} {Allowed : Inconsistency → Prop} {Known : Container → Prop}

section

variable {P : Fault → Prop}

theorem stopsAt_checkField {s : Specification} {check : ExprId → Container → Findings}
    {c : Container} {field : String × ExprId}
    (hvalue : t.expr? field.2 = none → P .dangling)
    (hfind : ∀ cause, c.property? field.1 = .error cause → P (.inconsistent cause))
    (hnested : ∀ p cause, c.property? field.1 = .ok (some p) → p.complexType?.isSome →
      s.nested p = .error cause → P (.inconsistent cause))
    (hcheck : ∀ p inner, c.property? field.1 = .ok (some p) → p.item = .complex →
      occurrences t p field.2 = .ok inner → ∀ item ∈ inner, ∀ inside, s.nested p = .ok inside →
        (check item inside).StopsAt P) :
    (checkField s t check c field).StopsAt P := by
  unfold checkField
  split
  next cause hp => exact Findings.stopsAt_halted (hfind cause hp)
  next => exact Findings.stopsAt_of_none rfl
  next p hp =>
    split
    next fault hocc =>
      unfold occurrences at hocc
      split at hocc
      next => cases hocc
      next hnone =>
        cases hocc
        exact Findings.stopsAt_halted (hvalue hnone)
      next => split at hocc <;> cases hocc
    next inner hocc =>
      refine Findings.stopsAt_each fun item hitem ↦ ?_
      -- a property without a type has no occurrences, so none is asked for its type
      have hcomplex := item_of_mem_occurrences hocc hitem
      split
      next cause hn =>
        have htype := (Container.wellShaped_of_property? hp).complex_iff.mp hcomplex
        exact Findings.stopsAt_halted (hnested p cause hp htype hn)
      next inside hn => exact hcheck p inner hp hcomplex hocc item hitem inside hn

theorem stopsAt_checkArn {e : ExprId} (he : t.expr? e = none → P .dangling) :
    (checkArn t e).StopsAt P := by
  unfold checkArn
  split
  next hnone => exact Findings.stopsAt_halted (he hnone)
  next => split <;> exact Findings.stopsAt_of_none rfl

theorem stopsAt_checkValue {e : ExprId}
    (he : ∀ e', e' = e ∨ e' ∈ t.partsOf e → t.expr? e' = none → P .dangling) :
    (checkValue t e).StopsAt P := by
  unfold checkValue
  split
  next hnone => exact Findings.stopsAt_halted (he e (.inl rfl) hnone)
  next x hx =>
    split
    next items hk =>
      refine Findings.stopsAt_each fun item hitem ↦ stopsAt_checkArn (he item (.inr ?_))
      simpa [Tree.partsOf, hx, hk, ExprKind.children] using hitem
    next => exact stopsAt_checkArn (he e (.inl rfl))

theorem stopsAt_checkManaged {location : Option Location} {type : String} {object : ExprId}
    (hobject : ∀ shape, ctx.directory.resolve? type = some shape →
      (checkObject ctx.directory.specification t object shape.container).StopsAt P)
    (hname : ∀ id, ctx.symbols.get? type = some id → t.decl? id = none → P .dangling) :
    (checkManaged ctx t location type object).StopsAt P := by
  unfold checkManaged
  split
  next shape hshape => exact hobject shape hshape
  next =>
    split
    next => exact Findings.stopsAt_of_none rfl
    next id hid =>
      split
      next hnone => exact Findings.stopsAt_halted (hname id hid hnone)
      next =>
        split
        next =>
          unfold checkDeclared
          split <;> exact Findings.stopsAt_of_none rfl
        next => exact Findings.stopsAt_of_none rfl

theorem stopsAt_review {location : Option Location} {r : Resource}
    (hvalue : ∀ e ∈ (DeclKind.resource r).roots, (checkValue t e).StopsAt P)
    (hobject : ∀ e ∈ (DeclKind.resource r).roots, ∀ type,
      (checkManaged ctx t location type e).StopsAt P) : (r.review ctx t location).StopsAt P := by
  unfold review
  split
  next value hv =>
    apply Findings.stopsAt_andThen
    · exact Findings.stopsAt_of_none rfl
    · exact hvalue value (by simp [DeclKind.roots, hv])
  next type object _ _ hp =>
    split
    next => exact hobject object (by simp [DeclKind.roots, hp]) type
    next => exact Findings.stopsAt_of_none rfl
  next => exact Findings.stopsAt_of_none rfl
  next => exact Findings.stopsAt_of_none rfl

end

/-- The check of an object descends along parts, and so ends before its depth is used up. -/
theorem within_checkWithin {P : ExprId → Prop} {rank : ExprId → ℕ} (ht : t.Descends P rank)
    {directory : Directory} (hd : directory.FailsOnly Allowed Known) {depth : ℕ} {object : ExprId}
    {c : Container} (ho : P object) (hrank : rank object < depth) (hc : Known c) :
    (checkWithin directory.specification t depth object c).Within Allowed := by
  induction depth generalizing object c with
  | zero => omega
  | succ depth ih =>
    rw [checkWithin_succ]
    split
    next => exact Findings.stopsAt_of_none rfl
    next fields hfields =>
      refine Findings.stopsAt_andThen (Findings.stopsAt_each ?_) (Findings.stopsAt_of_none rfl)
      intro field hfield
      obtain ⟨hvalue, hlt⟩ := ht.parts object ho _ (value_mem_partsOf hfields hfield)
      apply stopsAt_checkField
      · intro hnone
        simpa [hnone] using ht.present _ hvalue
      · intro cause hp
        exact hd.properties c _ cause hc hp
      · intro p cause hp hcomplex hnested
        exact hd.nested c _ p cause hc hp hcomplex hnested
      · intro p inner hp hcomplex hocc item hitem inside hnested
        have hinside := hd.further c _ p inside hc hp hnested
        rcases item_mem_partsOf ((mem_occurrences hocc hcomplex).mp hitem) with rfl | hpart
        · exact ih hvalue (by omega) hinside
        · obtain ⟨hi, hlt'⟩ := ht.parts _ hvalue item hpart
          exact ih hi (by omega) hinside

theorem within_checkValue (hc : t.Closed) {e : ExprId} (he : (t.expr? e).isSome) :
    (checkValue t e).Within Allowed := by
  apply stopsAt_checkValue
  intro e' hmem hnone
  have hsome : (t.expr? e').isSome := hmem.elim (fun h ↦ h ▸ he) (hc.partsOf he e')
  simp [hnone] at hsome

theorem size_lt_depthBound (s : Specification) (t : Tree) :
    t.expressions.size < depthBound s t := by
  have hle : t.expressions.size ≤ t.expressions.size * (s.propertyTypes.size + 1) :=
    Nat.le_mul_of_pos_right _ (Nat.succ_pos _)
  unfold depthBound
  omega

theorem lt_depthBound (s : Specification) {e : ExprId} (he : (t.expr? e).isSome) :
    e.index < depthBound s t := by
  obtain ⟨x, hx⟩ := Option.isSome_iff_exists.mp he
  have hlt : e.index < t.expressions.size := (Array.getElem?_eq_some_iff.mp hx).1
  exact Nat.lt_trans hlt (size_lt_depthBound s t)

section

variable (hn : t.Navigable) (hctx : ctx.Indexes t)
  (hd : ctx.directory.FailsOnly Allowed Known)

include hn hctx hd

theorem within_checkManaged (location : Option Location) (type : String) {object : ExprId}
    (ho : (t.expr? object).isSome) : (checkManaged ctx t location type object).Within Allowed := by
  apply stopsAt_checkManaged
  · intro shape hshape
    exact within_checkWithin hn.descends hd ho (lt_depthBound _ ho) (hd.start type shape hshape)
  · intro id hid hnone
    rw [hctx type] at hid
    obtain ⟨d, hdecl, -, -⟩ := Tree.exists_decl_of_firstNamed hid
    simp [hnone] at hdecl

theorem within_review (location : Option Location) (r : Resource)
    (hr : ∀ e ∈ (DeclKind.resource r).roots, (t.expr? e).isSome) :
    (r.review ctx t location).Within Allowed :=
  stopsAt_review (fun e he ↦ within_checkValue hn.closed (hr e he))
    fun e he type ↦ within_checkManaged hn hctx hd location type (hr e he)

end

end Resource

namespace Tree

variable {t : Tree} {ctx : Context} {Allowed : Inconsistency → Prop} {Known : Container → Prop}
  {fault : Fault}

theorem Navigable.referent_ok (hn : t.Navigable) {name : String} {id : DeclId}
    (h : t.firstNamed name = some id) : ∃ d, t.decl? id = some d ∧ t.referent id = .ok d := by
  obtain ⟨d, hd, hmem, -⟩ := exists_decl_of_firstNamed h
  have hroot := hn.named id d hd (mem_nameable.mp hmem).2
  exact ⟨d, hd, by simp [referent, hd, hroot]⟩

theorem stopsAt_reviewOf {P : Fault → Prop} {id : DeclId}
    (hid : t.decl? id = none → P .dangling)
    (hreview : ∀ d r, t.decl? id = some d → d.kind = .resource r →
      (r.review ctx t d.location).StopsAt P) : (t.reviewOf ctx id).StopsAt P := by
  unfold reviewOf
  split
  next hnone => exact Findings.stopsAt_halted (hid hnone)
  next d hdecl =>
    split
    next => exact Findings.stopsAt_of_none rfl
    next r hr => exact hreview d r hdecl (DeclKind.resource?_eq_some.mp hr)

theorem within_reviewOf (hn : t.Navigable) (hctx : ctx.Indexes t)
    (hd : ctx.directory.FailsOnly Allowed Known) {id : DeclId} (hid : (t.decl? id).isSome) :
    (t.reviewOf ctx id).Within Allowed := by
  apply stopsAt_reviewOf
  · intro hnone
    simp [hnone] at hid
  · intro d r hdecl hk
    refine Resource.within_review hn hctx hd _ r fun e he ↦ hn.closed.roots id d hdecl e ?_
    rwa [hk]

end Tree

namespace Context

variable {t : Tree} {ctx : Context} {fault : Fault}

theorem hasAttribute_eq_error {type attr : String}
    (h : ctx.hasAttribute t type attr = .error fault) :
    (∃ shape cause, ctx.directory.resolve? type = some shape ∧
      shape.attribute? attr = .error cause ∧ fault = .inconsistent cause) ∨
    ∃ id, ctx.symbols.get? type = some id ∧ t.decl? id = none ∧ fault = .dangling := by
  unfold hasAttribute at h
  split at h
  next shape hshape =>
    split at h
    next => cases h
    next cause ha =>
      cases h
      exact .inl ⟨shape, cause, hshape, ha, rfl⟩
  next =>
    split at h
    next => cases h
    next id hid =>
      split at h
      next hnone =>
        cases h
        exact .inr ⟨id, hid, hnone, rfl⟩
      next => split at h <;> cases h

theorem rejection?_eq_error {inCondition : Bool} {r : Reference} {target : Declaration}
    (h : ctx.rejection? t inCondition r target = .error fault) :
    ∃ type attr, ctx.hasAttribute t type attr = .error fault := by
  cases r with
  | value | condition | mapping => cases h
  | attributeOf name attr =>
    simp only [rejection?] at h
    split at h
    next =>
      unfold checkAttribute at h
      split at h
      next => cases h
      next =>
        split at h
        next => cases h
        next =>
          split at h
          next => cases h
          next type _ => exact ⟨type, attr, eq_error_of_map h⟩
    next => cases h

end Context

namespace Tree

variable {t : Tree} {ctx : Context} {Allowed : Inconsistency → Prop} {Known : Container → Prop}
  {fault : Fault} {s : BindingStep} {m : Matter}

theorem ruling_eq_error (hm : t.matter? s = some m) (h : t.ruling ctx s = .error fault) :
    (∃ name id, ctx.symbols.get? name = some id ∧ t.referent id = .error fault) ∨
    ∃ type attr, ctx.hasAttribute t type attr = .error fault := by
  cases s with
  | expression a e =>
    obtain ⟨d, x, r, hdecl, hx, hr, -⟩ := matter?_expression hm
    simp only [ruling, hdecl, hx, hr, Context.ruling, Context.judgeReference, Option.isSome_none,
      Bool.false_eq_true, if_false] at h
    cases hname : ctx.symbols.get? r.name with
    | none => simp [hname] at h
    | some id =>
      cases href : t.referent id with
      | error fault' =>
        simp only [hname, href, bind, Except.bind, Except.error.injEq] at h
        exact .inl ⟨r.name, id, hname, h ▸ href⟩
      | ok target =>
        simp only [hname, href, bind, Except.bind] at h
        cases hx : ctx.rejection? t d.kind.isCondition r target with
        | error fault' =>
          simp only [hx, Except.error.injEq] at h
          exact .inr (Context.rejection?_eq_error (h ▸ hx))
        | ok rejection =>
          simp only [hx] at h
          split at h <;> cases h
  | dependsOn a name =>
    simp only [ruling, Context.judgeDependsOn] at h
    cases hname : ctx.symbols.get? name with
    | none => simp [hname] at h
    | some id =>
      cases href : t.referent id with
      | error fault' =>
        simp only [hname, href, bind, Except.bind, Except.error.injEq] at h
        exact .inl ⟨name, id, hname, h ▸ href⟩
      | ok target => simp [hname, href, bind, Except.bind, pure, Except.pure] at h

theorem within_ruling (hn : t.Navigable) (hctx : ctx.Indexes t)
    (hd : ctx.directory.FailsOnly Allowed Known) (hm : t.matter? s = some m)
    (h : t.ruling ctx s = .error fault) : fault.Within Allowed := by
  rcases ruling_eq_error hm h with ⟨name, id, hname, href⟩ | ⟨type, attr, hattr⟩
  · rw [hctx name] at hname
    obtain ⟨d, -, hok⟩ := hn.referent_ok hname
    cases hok.symm.trans href
  · obtain ⟨shape, cause, hs, ha, rfl⟩ | ⟨id, hid, hnone, -⟩ :=
      Context.hasAttribute_eq_error hattr
    · exact hd.attributes type shape attr cause hs ha
    · rw [hctx type] at hid
      obtain ⟨d, hdecl, -, -⟩ := exists_decl_of_firstNamed hid
      simp [hnone] at hdecl

end Tree

theorem Binder.step_eq_error {b : Binder} {ctx : Context} {s : BindingStep} {halt : Halt Binder}
    (h : b.step ctx s = .error halt) : (¬ b.tree.Covers s ∧ halt.fault = .dangling) ∨
      ∃ m, b.tree.matter? s = some m ∧ b.tree.ruling ctx s = .error halt.fault := by
  by_cases hcov : b.tree.Covers s
  · rw [step_eq hcov] at h
    split at h
    next => cases h
    next m hm =>
      split at h
      next => cases h
      next fault hv =>
        cases h
        rw [Tree.judge_eq hm] at hv
        split at hv
        next => cases hv
        next => exact .inr ⟨m, hm, hv⟩
  · rw [step_of_not_covers hcov] at h
    cases h
    exact .inl ⟨hcov, rfl⟩

section Passes

variable {ctx : Context} {Allowed : Inconsistency → Prop} {Known : Container → Prop}
  (hd : ctx.directory.FailsOnly Allowed Known)

include hd

theorem Workspace.within_reviewResources {w : Workspace} (hn : w.tree.Navigable)
    (hctx : ctx.Indexes w.tree) {halt : Halt Workspace}
    (h : w.reviewResources ctx = .error halt) : halt.fault.Within Allowed := by
  refine Outcome.inTurn_halt (I := fun w' ↦ w.tree.Grows w'.tree)
    (P := fun fault ↦ fault.Within Allowed) ?_ ?_ (.refl _) h
  · intro id _ w₁ w₂ hg hstep
    have hg' := w₁.grows_reviewDeclaration ctx id
    rw [hstep] at hg'
    exact hg.trans hg'
  · intro id hid w₁ halt hg hstep
    have hg' := hg.trans (w₁.tree.grows_completeResource id)
    have hsome : (w.tree.decl? id).isSome :=
      Option.isSome_iff_exists.mpr (Tree.exists_decl_of_mem_walk hid)
    have hwithin := Tree.within_reviewOf (hn.grows hg') (hctx.grows hg') hd
      ((hg'.isSome_decl? id).symm ▸ hsome)
    rw [reviewDeclaration_eq] at hstep
    split at hstep
    next => cases hstep
    next fault hf =>
      cases hstep
      exact hwithin fault hf

theorem Workspace.within_bindReferences {w : Workspace} (hn : w.tree.Navigable)
    (hctx : ctx.Indexes w.tree) {halt : Halt Binder}
    (h : w.bindReferences ctx = .error halt) : halt.fault.Within Allowed := by
  refine Outcome.inTurn_halt (I := fun b ↦ w.tree.Grows b.tree)
    (P := fun fault ↦ fault.Within Allowed) ?_ ?_ (.refl _) h
  · intro s _ b b' hg hstep
    have hg' := b.grows_step ctx s
    rw [hstep] at hg'
    exact hg.trans hg'
  · intro s hs b halt hg hstep
    obtain ⟨hcov, -⟩ | ⟨m, hm, hv⟩ := Binder.step_eq_error hstep
    · exact absurd ((Tree.covers_of_mem_bindingSteps hs).grows hg) hcov
    · exact Tree.within_ruling (hn.grows hg) (hctx.grows hg) hd hm hv

end Passes

/-- What stops the analysis of a tree that is in order is a lookup in the specification. -/
theorem Tree.within_analyze {t t' : Tree} {directory : Directory} {options : Options}
    {fault : Fault} {Allowed : Inconsistency → Prop} {Known : Container → Prop}
    (hn : t.Navigable) (hv : t.validate = .ok ()) (hd : directory.FailsOnly Allowed Known)
    (h : t.analyze directory options = (t', .error fault)) : fault.Within Allowed := by
  let ctx : Context := ⟨(SymbolTable.build t).table, directory, options⟩
  have hctx : ctx.Indexes t := SymbolTable.get?_build t
  have hd : ctx.directory.FailsOnly Allowed Known := hd
  simp only [analyze, hv] at h
  split at h
  next halt hreview =>
    cases h
    exact Workspace.within_reviewResources hd hn hctx hreview
  next w hreview =>
    have hg := Workspace.grows_reviewResources ctx ⟨t, (SymbolTable.build t).log⟩
    rw [hreview] at hg
    split at h
    next halt hbind =>
      cases h
      exact Workspace.within_bindReferences hd (hn.grows hg) (hctx.grows hg) hbind
    next => cases h

end InfraModule
