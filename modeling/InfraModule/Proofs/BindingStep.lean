import InfraModule.Binding.Pass
import InfraModule.Proofs.Legality

namespace InfraModule

namespace Roster

variable {α : Type} [DecidableEq α] {r : Roster α} {a : α}

theorem prefix_insert : r.toList <+: (r.insert a).toList := by
  rw [toList_insert]
  split
  next => exact List.prefix_refl _
  next => exact List.prefix_append _ _

theorem insert_of_mem (h : a ∈ r) : r.insert a = r := by
  have hmem : a ∈ r.toList := h
  apply Roster.ext
  rw [toList_insert, if_pos hmem]

end Roster

def Reference.notes (inCondition : Bool) (location : Option Location) : Reference → Log
  | .attributeOf name _ =>
    if inCondition then
      [(Problem.invalidReference
        ("!GetAtt '" ++ name ++ "' cannot be used inside a Condition")).report location]
    else []
  | _ => []

/-- A use of a name that a step has to decide about. -/
structure Matter where
  owner : DeclId
  origin : Origin
  name : String
  location : Option Location
  notes : Log

namespace Matter

def report (m : Matter) : Verdict → Log
  | .undefined => [(Problem.undefinedReference m.name).report m.location]
  | .rejected reason => [(Problem.invalidReference (reason.message m.name)).report m.location]
  | .alreadyBound | .bound _ => []

def effect (m : Matter) (t : Tree) : Verdict → Tree
  | .undefined => t.modifyDecl m.owner fun d ↦ { d with missing := d.missing.insert m.name }
  | .bound target => Binder.connect t m.owner m.origin target
  | .alreadyBound | .rejected _ => t

def record (m : Matter) (v : Verdict) (d : Declaration) : Declaration :=
  match v with
  | .undefined => { d with missing := d.missing.insert m.name }
  | .bound target => { d with dependencies := d.dependencies.insert ⟨target, m.origin⟩ }
  | .alreadyBound | .rejected _ => d

theorem decl?_effect (m : Matter) (t : Tree) (v : Verdict) (a : DeclId) :
    (m.effect t v).decl? a =
      if a = m.owner then (t.decl? a).map (m.record v) else t.decl? a := by
  obtain ⟨owner, origin, name, location, notes⟩ := m
  cases v with
  | undefined => exact Tree.decl?_modifyDecl ..
  | bound target => cases origin <;> exact Tree.decl?_modifyDecl ..
  | alreadyBound | rejected =>
    change t.decl? a = if a = owner then (t.decl? a).map id else t.decl? a
    simp

theorem expr?_effect (m : Matter) (t : Tree) (v : Verdict) (e : ExprId) :
    (m.effect t v).expr? e =
      match v with
      | .bound target =>
        if m.origin = .expression e then (t.expr? e).map ({ · with target := some target })
        else t.expr? e
      | _ => t.expr? e := by
  obtain ⟨owner, origin, name, location, notes⟩ := m
  cases v with
  | undefined | alreadyBound | rejected => rfl
  | bound target =>
    cases origin with
    | dependsOn => rfl
    | expression id =>
      simp only [Origin.expression.injEq, eq_comm (a := id)]
      exact Tree.expr?_modifyExpr ..

end Matter

namespace Tree

variable {t t' : Tree} {ctx : Context} {s : BindingStep} {m : Matter} {v : Verdict}

def matter? (t : Tree) : BindingStep → Option Matter
  | .expression owner id =>
    match t.decl? owner, t.expr? id with
    | some d, some x => x.kind.reference?.map fun r ↦
      ⟨owner, .expression id, r.name, t.locationOf id,
        r.notes d.kind.isCondition (t.locationOf id)⟩
    | _, _ => none
  | .dependsOn owner name =>
    (t.decl? owner).map fun d ↦ ⟨owner, .dependsOn, name, d.location, []⟩

def judge (t : Tree) (ctx : Context) : BindingStep → Except Fault Verdict
  | .expression owner id =>
    match t.decl? owner, t.expr? id with
    | some d, some x =>
      match x.kind.reference? with
      | some r => ctx.judgeReference t d.kind.isCondition x r
      | none => .error .dangling
    | _, _ => .error .dangling
  | .dependsOn _ name => ctx.judgeDependsOn t name

def Covers (t : Tree) : BindingStep → Prop
  | .expression owner id => (t.decl? owner).isSome ∧ (t.expr? id).isSome
  | .dependsOn owner _ => (t.decl? owner).isSome

end Tree

namespace Binder

variable {b b' : Binder} {ctx : Context} {s : BindingStep}

def after (b : Binder) (m : Matter) (v : Verdict) : Binder :=
  ⟨m.effect b.tree v, b.log ++ (m.notes ++ m.report v), b.tally.count v⟩

theorem noteAttribute_eq (b : Binder) (inCondition : Bool) (r : Reference)
    (location : Option Location) :
    b.noteAttribute inCondition r location =
      { b with log := b.log ++ r.notes inCondition location } := by
  unfold noteAttribute Reference.notes
  split
  next => split <;> simp [report]
  next => simp

theorem settle_eq (b : Binder) (m : Matter) (v : Verdict) :
    settle { b with log := b.log ++ m.notes } m.owner m.origin m.name m.location v =
      b.after m v := by
  cases v <;> simp [settle, after, report, Matter.report, Matter.effect]

theorem step_eq (hs : b.tree.Covers s) :
    b.step ctx s = match b.tree.matter? s with
      | none => .ok b
      | some m =>
        match b.tree.judge ctx s with
        | .ok v => .ok (b.after m v)
        | .error fault => .error ⟨fault, { b with log := b.log ++ m.notes }⟩ := by
  cases s with
  | expression owner id =>
    obtain ⟨d, hd⟩ := Option.isSome_iff_exists.mp hs.1
    obtain ⟨x, hx⟩ := Option.isSome_iff_exists.mp hs.2
    simp only [step, Tree.matter?, Tree.judge, hd, hx]
    cases hr : x.kind.reference? with
    | none => rfl
    | some r =>
      simp only [Option.map_some]
      cases hv : ctx.judgeReference b.tree d.kind.isCondition x r with
      | ok v =>
        simp only [conclude, noteAttribute_eq]
        exact congrArg Except.ok (settle_eq b ⟨owner, .expression id, r.name, _, _⟩ v)
      | error fault => simp only [conclude, noteAttribute_eq]
  | dependsOn owner name =>
    obtain ⟨d, hd⟩ := Option.isSome_iff_exists.mp hs
    simp only [step, Tree.matter?, Tree.judge, hd, Option.map_some]
    cases ctx.judgeDependsOn b.tree name with
    | ok v =>
      have hsettle := settle_eq b ⟨owner, .dependsOn, name, d.location, []⟩ v
      rw [List.append_nil] at hsettle
      exact congrArg Except.ok hsettle
    | error fault => simp [conclude]

end Binder

namespace Tree

variable {t t' : Tree} {ctx : Context} {s : BindingStep} {m : Matter} {v : Verdict}

def targetOf (t : Tree) : BindingStep → Option DeclId
  | .expression _ id => (t.expr? id).bind Expression.target
  | .dependsOn .. => none

/-- The verdict on what is not bound yet. -/
def ruling (t : Tree) (ctx : Context) : BindingStep → Except Fault Verdict
  | .expression owner id =>
    match t.decl? owner, t.expr? id with
    | some d, some x =>
      match x.kind.reference? with
      | some r => ctx.ruling t d.kind.isCondition r
      | none => .error .dangling
    | _, _ => .error .dangling
  | .dependsOn _ name => ctx.judgeDependsOn t name

theorem matter?_expression {owner : DeclId} {id : ExprId}
    (hm : t.matter? (.expression owner id) = some m) : ∃ d x r, t.decl? owner = some d ∧
      t.expr? id = some x ∧ x.kind.reference? = some r ∧
      m = ⟨owner, .expression id, r.name, t.locationOf id,
        r.notes d.kind.isCondition (t.locationOf id)⟩ := by
  simp only [matter?] at hm
  split at hm
  next d x hd hx =>
    obtain ⟨r, hr, rfl⟩ := Option.map_eq_some_iff.mp hm
    exact ⟨d, x, r, hd, hx, hr, rfl⟩
  next => cases hm

theorem matter?_of_reference {owner : DeclId} {id : ExprId} {d : Declaration} {x : Expression}
    {r : Reference} (hd : t.decl? owner = some d) (hx : t.expr? id = some x)
    (hr : x.kind.reference? = some r) : t.matter? (.expression owner id) =
      some ⟨owner, .expression id, r.name, t.locationOf id,
        r.notes d.kind.isCondition (t.locationOf id)⟩ := by
  simp only [matter?, hd, hx, hr, Option.map_some]

theorem matter?_dependsOn {owner : DeclId} {d : Declaration} (hd : t.decl? owner = some d)
    (name : String) :
    t.matter? (.dependsOn owner name) = some ⟨owner, .dependsOn, name, d.location, []⟩ := by
  rw [matter?, hd, Option.map_some]

theorem judge_eq (hm : t.matter? s = some m) :
    t.judge ctx s = if (t.targetOf s).isSome then .ok .alreadyBound else t.ruling ctx s := by
  cases s with
  | expression owner id =>
    obtain ⟨d, x, r, hd, hx, hr, -⟩ := matter?_expression hm
    simp only [judge, ruling, targetOf, hd, hx, hr, Option.bind_some, Context.judgeReference_eq]
  | dependsOn owner name => rfl

theorem Covers.grows (hs : t.Covers s) (h : t.Grows t') : t'.Covers s := by
  cases s with
  | expression owner id => exact ⟨(h.isSome_decl? owner).symm ▸ hs.1, h.isSome_expr? hs.2⟩
  | dependsOn owner name =>
    have hd : (t.decl? owner).isSome := hs
    rwa [← h.isSome_decl? owner] at hd

theorem matter?_grows (h : t.Grows t') (hs : t.Covers s) : t'.matter? s = t.matter? s := by
  cases s with
  | expression owner id =>
    obtain ⟨d, hd⟩ := Option.isSome_iff_exists.mp hs.1
    obtain ⟨d', hd', hgd⟩ := h.decl owner d hd
    obtain ⟨x, x', hx, hx', hgx⟩ := h.exists_expr hs.2
    simp only [matter?, hd, hx, hd', hx', hgx.kind, hgd.kind.isCondition_eq, h.locationOf_eq hs.2]
  | dependsOn owner name =>
    obtain ⟨d, hd⟩ := Option.isSome_iff_exists.mp hs
    obtain ⟨d', hd', hgd⟩ := h.decl owner d hd
    simp only [matter?, hd, hd', Option.map_some, hgd.location]

theorem ruling_grows (h : t.Grows t') (hs : t.Covers s) : t'.ruling ctx s = t.ruling ctx s := by
  cases s with
  | expression owner id =>
    obtain ⟨d, hd⟩ := Option.isSome_iff_exists.mp hs.1
    obtain ⟨d', hd', hgd⟩ := h.decl owner d hd
    obtain ⟨x, x', hx, hx', hgx⟩ := h.exists_expr hs.2
    simp only [ruling, hd, hx, hd', hx', hgx.kind, hgd.kind.isCondition_eq,
      Context.ruling_grows h]
  | dependsOn owner name => exact Context.judgeDependsOn_grows h name

theorem grows_record (t : Tree) (m : Matter) (v : Verdict) :
    t.Grows (t.modifyDecl m.owner (m.record v)) := by
  refine grows_modifyDecl fun d _ ↦ ?_
  cases v with
  | undefined =>
    exact ⟨rfl, rfl, rfl, rfl, rfl, .same _, List.prefix_refl _, Roster.prefix_insert⟩
  | bound =>
    exact ⟨rfl, rfl, rfl, rfl, rfl, .same _, Roster.prefix_insert, List.prefix_refl _⟩
  | alreadyBound | rejected => exact .refl _ _ m.owner d

theorem grows_effect (hm : t.matter? s = some m) (hv : t.judge ctx s = .ok v) :
    t.Grows (m.effect t v) := by
  cases v with
  | alreadyBound | rejected => exact .refl t
  | undefined => exact t.grows_record m .undefined
  | bound target =>
    cases s with
    | expression owner id =>
      obtain ⟨d, x, r, hd, hx, hr, rfl⟩ := matter?_expression hm
      rw [judge_eq hm] at hv
      split at hv
      next => cases hv
      next hn =>
        simp only [targetOf, hx, Option.bind_some, Option.not_isSome_iff_eq_none] at hn
        exact (grows_setTarget hx hn (by simp [hr]) target).trans (grows_record _ _ (.bound target))
    | dependsOn owner name =>
      obtain ⟨d, hd, rfl⟩ := Option.map_eq_some_iff.mp hm
      exact t.grows_record _ (.bound target)

end Tree

end InfraModule
