import InfraModule.Proofs.AnalysisRun
import InfraModule.Proofs.CycleSearch

namespace InfraModule

open Provider

def Log.Severe (log : Log) : Prop := ∀ x ∈ log, x.severity = .error

def Log.Among (log : Log) (codes : List String) : Prop :=
  ∀ x ∈ log, x.severity = .error ∧ ∃ code ∈ codes, x.code = some code

/-- Every entry is about a problem with one of these codes and stands at one of these places. -/
def Log.Reports (log : Log) (codes : List String) (At : Option Location → Prop) : Prop :=
  ∀ x ∈ log, ∃ (p : Problem) (l : Option Location), p.code ∈ codes ∧ At l ∧ x = p.report l

namespace Log

variable {log log' : Log} {codes codes' : List String} {At : Option Location → Prop}

theorem Severe.hasErrors_eq_false (h : log.Severe) : log.hasErrors = false ↔ log = [] := by
  cases log with
  | nil => simp [hasErrors]
  | cons x log => simp [hasErrors, h x]

theorem Among.severe (h : log.Among codes) : log.Severe := fun x hx ↦ (h x hx).1

theorem Among.report_notMem (h : log.Among codes) {p : Problem} (hp : p.code ∉ codes)
    (location : Option Location) : p.report location ∉ log := by
  intro hmem
  obtain ⟨-, code, hcode, hx⟩ := h _ hmem
  exact hp (Option.some.inj hx ▸ hcode)

theorem among_flatMap {α : Type} {f : α → Log} {as : List α} (h : ∀ a ∈ as, (f a).Among codes) :
    Among (as.flatMap f) codes := by
  intro x hx
  obtain ⟨a, ha, hxa⟩ := List.mem_flatMap.mp hx
  exact h a ha x hxa

theorem Reports.among (h : log.Reports codes At) : log.Among codes := by
  intro x hx
  obtain ⟨p, l, hp, -, rfl⟩ := h x hx
  exact ⟨rfl, p.code, hp, rfl⟩

theorem Reports.location (h : log.Reports codes At) : ∀ x ∈ log, At x.location := by
  intro x hx
  obtain ⟨p, l, -, hl, rfl⟩ := h x hx
  exact hl

theorem Reports.mono (h : log.Reports codes At) (hsub : codes ⊆ codes') :
    log.Reports codes' At := by
  intro x hx
  obtain ⟨p, l, hp, hl, rfl⟩ := h x hx
  exact ⟨p, l, hsub hp, hl, rfl⟩

theorem reports_nil : Reports [] codes At := by simp [Reports]

theorem reports_report {p : Problem} (hp : p.code ∈ codes) {l : Option Location} (hl : At l) :
    Reports [p.report l] codes At := by
  intro x hx
  cases List.mem_singleton.mp hx
  exact ⟨p, l, hp, hl, rfl⟩

theorem reports_append (h : log.Reports codes At) (h' : log'.Reports codes At) :
    Reports (log ++ log') codes At :=
  List.forall_mem_append.mpr ⟨h, h'⟩

theorem reports_map {α : Type} {f : α → Diagnostic} {as : List α}
    (h : ∀ a ∈ as, Reports [f a] codes At) : Reports (as.map f) codes At := by
  intro x hx
  obtain ⟨a, ha, rfl⟩ := List.mem_map.mp hx
  exact h a ha _ (.head _)

end Log

namespace Findings

variable {codes : List String} {At : Option Location → Prop}

theorem reports_andThen {first : Findings} {second : Unit → Findings}
    (h : first.log.Reports codes At) (h' : (second ()).log.Reports codes At) :
    (first.andThen second).log.Reports codes At := by
  unfold andThen
  split
  next => exact h
  next => exact Log.reports_append h h'

theorem reports_each {α : Type} {check : α → Findings} {as : List α}
    (h : ∀ a ∈ as, (check a).log.Reports codes At) : (each check as).log.Reports codes At := by
  induction as with
  | nil => exact Log.reports_nil
  | cons a as ih =>
    rw [List.forall_mem_cons] at h
    exact reports_andThen h.1 (ih h.2)

end Findings

/-- The expressions of `P` stand at these places, and all that they are made of is of `P` too. -/
structure Tree.Stand (t : Tree) (P : ExprId → Prop) (At : Option Location → Prop) : Prop where
  parts : ∀ e, P e → ∀ c ∈ t.partsOf e, P c
  place : ∀ e, P e → At (t.locationOf e)

theorem Tree.stand_somewhere (t : Tree) : t.Stand (fun _ ↦ True) fun _ ↦ True :=
  ⟨fun _ _ _ _ ↦ trivial, fun _ _ ↦ trivial⟩

namespace Resource

variable {t : Tree} {P : ExprId → Prop} {At : Option Location → Prop}

theorem reports_checkArn {e : ExprId} (he : At (t.locationOf e)) :
    (checkArn t e).log.Reports ["E0016"] At := by
  unfold checkArn
  split
  next => exact Log.reports_nil
  next =>
    split
    next => exact Log.reports_nil
    next => exact Log.reports_report (.head _) he

theorem reports_checkConflicts {location : Option Location} (hl : At location) (r : Resource) :
    (checkConflicts location r).log.Reports ["E0015"] At := by
  apply Log.reports_append
  · exact Log.reports_map fun _ _ ↦ Log.reports_report (.head _) hl
  · exact Log.reports_map fun _ _ ↦ Log.reports_report (.head _) hl

section

variable (ht : t.Stand P At)

include ht

theorem reports_checkValue {e : ExprId} (he : P e) :
    (checkValue t e).log.Reports ["E0016"] At := by
  unfold checkValue
  split
  next => exact Log.reports_nil
  next x hx =>
    split
    next items hk =>
      refine Findings.reports_each fun item hitem ↦ ?_
      apply reports_checkArn
      apply ht.place item
      apply ht.parts e he
      simpa [Tree.partsOf, hx, hk, ExprKind.children] using hitem
    next => exact reports_checkArn (ht.place e he)

theorem reports_checkField {s : Specification} {check : ExprId → Container → Findings}
    (h : ∀ item, P item → ∀ inside, (check item inside).log.Reports ["E0017", "E0018"] At)
    (c : Container) {field : String × ExprId} (hvalue : P field.2) :
    (checkField s t check c field).log.Reports ["E0017", "E0018"] At := by
  unfold checkField
  split
  next => exact Log.reports_nil
  next => exact Log.reports_report (.head _) (ht.place field.2 hvalue)
  next p _ =>
    split
    next => exact Log.reports_nil
    next inner hinner =>
      refine Findings.reports_each fun item hitem ↦ ?_
      have hcomplex := item_of_mem_occurrences hinner hitem
      have hi : P item := by
        rcases item_mem_partsOf ((mem_occurrences hinner hcomplex).mp hitem) with rfl | hpart
        · exact hvalue
        · exact ht.parts field.2 hvalue item hpart
      split
      next => exact Log.reports_nil
      next inside _ => exact h item hi inside

theorem reports_checkWithin (s : Specification) (depth : Nat) {object : ExprId} (ho : P object)
    (c : Container) : (checkWithin s t depth object c).log.Reports ["E0017", "E0018"] At := by
  induction depth generalizing object c with
  | zero => exact Log.reports_nil
  | succ depth ih =>
    rw [checkWithin_succ]
    split
    next => exact Log.reports_nil
    next fields hfields =>
      apply Findings.reports_andThen
      · refine Findings.reports_each fun field hfield ↦ ?_
        have hvalue := ht.parts object ho field.2 (value_mem_partsOf hfields hfield)
        exact reports_checkField ht (fun item hi inside ↦ ih hi inside) c hvalue
      · exact Log.reports_map fun _ _ ↦ Log.reports_report (.tail _ (.head _)) (ht.place object ho)

theorem reports_checkDeclared (type : String) (declared : List String) {object : ExprId}
    (ho : P object) : (checkDeclared t type declared object).log.Reports ["E0017", "E0018"] At := by
  unfold checkDeclared
  split
  next => exact Log.reports_nil
  next fields hfields =>
    refine Log.reports_map fun field hfield ↦ Log.reports_report (.head _) (ht.place field.2 ?_)
    have hmem := (List.mem_filter.mp hfield).1
    exact ht.parts object ho field.2 (value_mem_partsOf hfields hmem)

theorem reports_checkManaged (ctx : Context) {location : Option Location} (hl : At location)
    (type : String) {object : ExprId} (ho : P object) :
    (checkManaged ctx t location type object).log.Reports ["E0008", "E0017", "E0018"] At := by
  unfold checkManaged
  split
  next => exact (reports_checkWithin ht _ _ ho _).mono (List.subset_cons_self _ _)
  next =>
    split
    next => exact Log.reports_report (.head _) hl
    next =>
      split
      next => exact Log.reports_nil
      next =>
        split
        next => exact (reports_checkDeclared ht _ _ ho).mono (List.subset_cons_self _ _)
        next => exact Log.reports_report (.head _) hl

theorem reports_review (ctx : Context) {location : Option Location} (hl : At location)
    {r : Resource} (hr : ∀ e ∈ (DeclKind.resource r).roots, P e) :
    (r.review ctx t location).log.Reports
      ["E0005", "E0008", "E0015", "E0016", "E0017", "E0018"] At := by
  unfold review
  split
  next value hv =>
    have hvalue := hr value (by simp [DeclKind.roots, hv])
    apply Findings.reports_andThen
    · exact (reports_checkConflicts hl r).mono (by simp)
    · exact (reports_checkValue ht hvalue).mono (by simp)
  next type object _ _ hp =>
    have hobject := hr object (by simp [DeclKind.roots, hp])
    split
    next => exact (reports_checkManaged ht ctx hl type hobject).mono (by simp)
    next => exact Log.reports_nil
  next => exact Log.reports_nil
  next => exact Log.reports_report (.head _) hl

end

end Resource

namespace Tree

variable {t : Tree} {directory : Directory} {options : Options} {w : Workspace} {b : Binder}
  {P : ExprId → Prop} {At : Option Location → Prop}

theorem reports_reviewOf (ht : t.Stand P At) (ctx : Context) {a : DeclId}
    (ha : ∀ d, t.decl? a = some d → At d.location ∧ ∀ e ∈ d.kind.roots, P e) :
    (t.reviewOf ctx a).log.Reports
      ["E0005", "E0008", "E0015", "E0016", "E0017", "E0018"] At := by
  unfold reviewOf
  split
  next => exact Log.reports_nil
  next d hd =>
    obtain ⟨hl, hroots⟩ := ha d hd
    split
    next => exact Log.reports_nil
    next r hr =>
      rw [DeclKind.resource?_eq_some.mp hr] at hroots
      exact Resource.reports_review ht ctx hl hroots

theorem among_reviewOf (ctx : Context) (a : DeclId) : (t.reviewOf ctx a).log.Among
    ["E0005", "E0008", "E0015", "E0016", "E0017", "E0018"] :=
  (reports_reviewOf t.stand_somewhere ctx fun _ _ ↦ ⟨trivial, fun _ _ ↦ trivial⟩).among

theorem reports_reportsOf (ctx : Context) {s : BindingStep}
    (hs : ∀ m, t.matter? s = some m → At m.location) :
    (t.reportsOf ctx s).Reports ["E0001", "E0012"] At := by
  unfold reportsOf
  cases hm : t.matter? s with
  | none => exact Log.reports_nil
  | some m =>
    have hl := hs m hm
    apply Log.reports_append
    · cases s with
      | expression a e =>
        obtain ⟨d, x, r, -, -, -, rfl⟩ := matter?_expression hm
        cases r with
        | attributeOf =>
          simp only [Reference.notes]
          split
          next => exact Log.reports_report (.tail _ (.head _)) hl
          next => exact Log.reports_nil
        | _ => exact Log.reports_nil
      | dependsOn a name =>
        obtain ⟨d, -, rfl⟩ := Option.map_eq_some_iff.mp hm
        exact Log.reports_nil
    · cases t.verdict? ctx s with
      | none => exact Log.reports_nil
      | some v =>
        cases v with
        | undefined => exact Log.reports_report (.head _) hl
        | rejected => exact Log.reports_report (.tail _ (.head _)) hl
        | alreadyBound | bound => exact Log.reports_nil

theorem among_reportsOf (ctx : Context) (s : BindingStep) :
    (t.reportsOf ctx s).Among ["E0001", "E0012"] := by
  have hreports : (t.reportsOf ctx s).Reports ["E0001", "E0012"] fun _ ↦ True :=
    reports_reportsOf ctx fun _ _ ↦ trivial
  exact hreports.among

theorem among_build (t : Tree) : (SymbolTable.build t).log.Among ["E0004"] := by
  rw [(SymbolTable.isIndex_build t).log]
  intro x hx
  obtain ⟨a, -, rfl⟩ := List.mem_map.mp hx
  exact ⟨rfl, _, .head _, rfl⟩

theorem among_reportCycles (t : Tree) : t.reportCycles.Among ["E0007"] := by
  rw [reportCycles_eq_map]
  intro x hx
  obtain ⟨c, -, rfl⟩ := List.mem_map.mp hx
  exact ⟨rfl, _, .head _, rfl⟩

theorem Stages.diagnostics_eq (h : t.Stages directory options w b) (hc : t.Closed)
    (hu : t.Unshared) : (t.conclusion b).diagnostics =
      (SymbolTable.build t).log ++
        (t.walk.flatMap fun a ↦ (w.tree.reviewOf (t.contextOf directory options) a).log) ++
        w.tree.bindingSteps.flatMap (w.tree.reportsOf (t.contextOf directory options)) ++
        b.tree.reportCycles := by
  have hr := h.reviewed hc
  have hbind := Binder.accounts_of_inTurn (.refl (t.contextOf directory options) w.tree)
    (hu.grows hc hr.grows) (fun _ hs ↦ hs) h.bind
  rw [conclusion, hbind.log, hr.log]

theorem Stages.hasErrors_eq_false (h : t.Stages directory options w b) (hc : t.Closed)
    (hu : t.Unshared) : (t.conclusion b).diagnostics.hasErrors = false ↔
      (SymbolTable.build t).log = [] ∧
      (∀ a ∈ t.walk, (w.tree.reviewOf (t.contextOf directory options) a).log = []) ∧
      (∀ s ∈ w.tree.bindingSteps, w.tree.reportsOf (t.contextOf directory options) s = []) ∧
      b.tree.reportCycles = [] := by
  have hsevere : (t.conclusion b).diagnostics.Severe := by
    rw [h.diagnostics_eq hc hu]
    simp only [Log.Severe, List.forall_mem_append]
    exact ⟨⟨⟨(among_build t).severe, (Log.among_flatMap fun a _ ↦ among_reviewOf _ a).severe⟩,
      (Log.among_flatMap fun s _ ↦ among_reportsOf _ s).severe⟩,
      (among_reportCycles b.tree).severe⟩
  rw [hsevere.hasErrors_eq_false, h.diagnostics_eq hc hu]
  simp only [List.append_eq_nil_iff, List.flatMap_eq_nil_iff, and_assoc]

end Tree

end InfraModule
