import InfraModule.Proofs.BindingExactness
import InfraModule.Proofs.CycleSearch
import InfraModule.Proofs.ErrorLog
import InfraModule.Proofs.ResourceRules

namespace InfraModule

open Provider Relation

theorem Verdict.Fits.report_eq_nil {found : Option DeclId} {legal : DeclId → Prop} {v : Verdict}
    (h : v.Fits found legal) (m : Matter) : m.report v = [] ↔ ∃ id, found = some id ∧ legal id := by
  rw [← h.isBound_iff]
  cases h <;> simp [Matter.report, Verdict.isBound]

theorem Reference.notes_eq_nil {r : Reference} {inCondition : Bool} {location : Option Location} :
    r.notes inCondition location = [] ↔
      (inCondition → ∀ name attr, r ≠ .attributeOf name attr) := by
  cases r <;> cases inCondition <;> simp [Reference.notes]

theorem ExprKind.reference?_eq_attributeOf {k : ExprKind} {name attr : String} :
    k.reference? = some (.attributeOf name attr) ↔ k = .getAttribute name attr := by
  cases k <;> simp [ExprKind.reference?]

namespace Tree

variable {t : Tree} {directory : Directory} {options : Options} {w : Workspace} {b : Binder}
  {file : String}

def DeployedAfter (t : Tree) (a b : DeclId) : Prop :=
  ∃ d name, t.decl? a = some d ∧ name ∈ d.kind.dependsOn ∧ t.DenotesInstance name b

/-- The rules, given which types a resource may have with which properties. -/
structure KeepsRules (t : Tree) (directory : Directory) (options : Options)
    (typed : String → Option ExprId → Prop) : Prop where
  names : ∀ a b d d', t.decl? a = some d → t.decl? b = some d' → a ≠ root → b ≠ root →
    d.fullName = d'.fullName → a = b
  described : ∀ a d r, t.decl? a = some d → d.kind = .resource r → r.Described t
  typed : options.checkProperties → ∀ a d r, t.decl? a = some d → d.kind = .resource r →
    r.value = none → ∀ type, r.type = some type → typed type r.properties
  references : ∀ a d e x r, t.decl? a = some d → t.Holds a e → t.expr? e = some x →
    x.kind.reference? = some r → ∃ id, t.Denotes directory options d.kind.isCondition r id
  conditions : ∀ a d e x name attr, t.decl? a = some d → d.kind.isCondition → t.Holds a e →
    t.expr? e = some x → x.kind ≠ .getAttribute name attr
  orders : ∀ a d name, t.decl? a = some d → name ∈ d.kind.dependsOn →
    ∃ id, t.DenotesInstance name id
  acyclic : ∀ a, ¬ TransGen t.DeployedAfter a a

section Draft

variable (h : t.Drafted file) (hroot : (t.decl? root).isSome)

include h hroot

theorem Drafted.log_build_eq_nil : (SymbolTable.build t).log = [] ↔
    ∀ a b d d', t.decl? a = some d → t.decl? b = some d' → a ≠ root → b ≠ root →
      d.fullName = d'.fullName → a = b := by
  rw [SymbolTable.log_build_eq_nil]
  have hmem {a : DeclId} {d : Declaration} (hd : t.decl? a = some d) (hne : a ≠ root) :
      a ∈ t.nameable := mem_nameable.mpr ⟨h.mem_walk hroot (by simp [hd]), hne⟩
  constructor
  · intro hdistinct a b d d' hd hd' ha hb hname
    exact hdistinct a (hmem hd ha) b (hmem hd' hb) d.fullName (by simp [isNamed, hd])
      (by simp [isNamed, hd', hname])
  · intro hdistinct a ha b hb n hna hnb
    rw [mem_nameable] at ha hb
    obtain ⟨d, hd⟩ := exists_decl_of_mem_walk ha.1
    obtain ⟨d', hd'⟩ := exists_decl_of_mem_walk hb.1
    simp only [isNamed, hd, hd', Option.any_some, decide_eq_true_eq] at hna hnb
    exact hdistinct a b d d' hd hd' ha.2 hb.2 (hna.trans hnb.symm)

variable (hst : t.Stages directory options w b)

include hst

theorem Drafted.log_reviews_eq_nil :
    (∀ a ∈ t.walk, (w.tree.reviewOf (t.contextOf directory options) a).log = []) ↔
      ∀ a, t.ResourceInOrder (t.contextOf directory options) a := by
  have hrev := hst.reviewed h.closed
  have hrule (a : DeclId) (ha : a ∈ t.walk) := log_reviewOf_eq_nil hrev.grows h.closed
    t.indexes_contextOf (hrev.complete a ha) (hrev.fault a ha)
  constructor
  · intro hlog a d r hd hk
    have ha := h.mem_walk hroot (a := a) (by simp [hd])
    exact (hrule a ha).mp (hlog a ha) d r hd hk
  · exact fun hall a ha ↦ (hrule a ha).mpr (hall a)

omit hroot in
theorem Drafted.reportsOf_eq_nil {s : BindingStep} {m : Matter} (hs : s ∈ t.bindingSteps)
    (hm : t.matter? s = some m) : ∃ v, t.ruling (t.contextOf directory options) s = .ok v ∧
      (w.tree.reportsOf (t.contextOf directory options) s = [] ↔
        m.notes = [] ∧ m.report v = []) := by
  obtain ⟨v, hv, hverdict, -⟩ := h.verdict hst hs hm
  have hmw := (matter?_grows (hst.reviewed h.closed).grows (covers_of_mem_bindingSteps hs)).trans hm
  refine ⟨v, hv, ?_⟩
  simp only [reportsOf, hmw, hverdict, Option.elim_some, List.append_eq_nil_iff]

theorem Drafted.reports_expression {a : DeclId} {d : Declaration} {e : ExprId} {x : Expression}
    {r : Reference} (hd : t.decl? a = some d) (he : t.Holds a e) (hx : t.expr? e = some x)
    (hr : x.kind.reference? = some r) :
    w.tree.reportsOf (t.contextOf directory options) (.expression a e) = [] ↔
      (d.kind.isCondition → ∀ name attr, x.kind ≠ .getAttribute name attr) ∧
      ∃ id, t.Denotes directory options d.kind.isCondition r id := by
  obtain ⟨v, hv, hiff⟩ :=
    h.reportsOf_eq_nil hst (h.expression_mem hroot hd he) (matter?_of_reference hd hx hr)
  simp only [ruling, hd, hx, hr] at hv
  rw [hiff, (Context.ruling_fits t.indexes_contextOf hv).report_eq_nil, Reference.notes_eq_nil]
  simp only [← ExprKind.reference?_eq_attributeOf, hr, ne_eq, Option.some.injEq]
  rfl

theorem Drafted.reports_dependsOn {a : DeclId} {d : Declaration} {name : String}
    (hd : t.decl? a = some d) (hname : name ∈ d.kind.dependsOn) :
    w.tree.reportsOf (t.contextOf directory options) (.dependsOn a name) = [] ↔
      ∃ id, t.DenotesInstance name id := by
  obtain ⟨v, hv, hiff⟩ :=
    h.reportsOf_eq_nil hst (h.dependsOn_mem hroot hd hname) (matter?_dependsOn hd name)
  rw [hiff, (Context.judgeDependsOn_fits t.indexes_contextOf hv).report_eq_nil]
  simp only [true_and]
  rfl

theorem Drafted.reports_eq_nil :
    (∀ s ∈ w.tree.bindingSteps, w.tree.reportsOf (t.contextOf directory options) s = []) ↔
      (∀ a d e x r, t.decl? a = some d → t.Holds a e → t.expr? e = some x →
        x.kind.reference? = some r →
          (d.kind.isCondition → ∀ name attr, x.kind ≠ .getAttribute name attr) ∧
          ∃ id, t.Denotes directory options d.kind.isCondition r id) ∧
      ∀ a d name, t.decl? a = some d → name ∈ d.kind.dependsOn →
        ∃ id, t.DenotesInstance name id := by
  have hgrows := (hst.reviewed h.closed).grows
  constructor
  · intro hlog
    have hlog (s : BindingStep) (hs : s ∈ t.bindingSteps) := hlog s (bindingSteps_subset hgrows hs)
    constructor
    · intro a d e x r hd he hx hr
      have hs := h.expression_mem hroot hd he
      exact (h.reports_expression hroot hst hd he hx hr).mp (hlog _ hs)
    · intro a d name hd hname
      have hs := h.dependsOn_mem hroot hd hname
      exact (h.reports_dependsOn hroot hst hd hname).mp (hlog _ hs)
  · rintro ⟨hrefs, horders⟩ s hs
    cases hm : w.tree.matter? s with
    | none => simp [reportsOf, hm]
    | some m =>
      have hmem := mem_bindingSteps_of_matter? hgrows h.closed hs hm
      rw [matter?_grows hgrows (covers_of_mem_bindingSteps hmem)] at hm
      cases s with
      | expression a e =>
        obtain ⟨d, x, r, hd, hx, hr, -⟩ := matter?_expression hm
        have he := (expression_mem_bindingSteps.mp hmem).2
        exact (h.reports_expression hroot hst hd he hx hr).mpr (hrefs a d e x r hd he hx hr)
      | dependsOn a name =>
        obtain ⟨-, d, hd, hname⟩ := dependsOn_mem_bindingSteps.mp hmem
        exact (h.reports_dependsOn hroot hst hd hname).mpr (horders a d name hd hname)

omit hroot in
theorem Drafted.deployedAfter_of_requires {a id : DeclId} (hreq : b.tree.Requires a id) :
    t.DeployedAfter a id := by
  have hrev := hst.reviewed h.closed
  obtain ⟨d', hd', hreq⟩ := requires_iff_mem.mp hreq
  obtain ⟨d, hd, -⟩ := (hst.grows h.closed).exists_decl hd'
  obtain ⟨c, hc, -⟩ := hrev.grows.decl a d hd
  rcases hst.ran.faithful.dependency a c d' id hc hd' hreq with hmem | ⟨name, hs, hv⟩
  · rw [hrev.keeps.dependencies a d c hd hc, (h.decl a d hd).2.1] at hmem
    cases hmem
  · have hmem := mem_bindingSteps_of_matter? hrev.grows h.closed hs (matter?_dependsOn hc name)
    obtain ⟨-, d, hd, hname⟩ := dependsOn_mem_bindingSteps.mp hmem
    rw [ruling_grows hrev.grows (covers_of_mem_bindingSteps hmem)] at hv
    have hfits := Context.judgeDependsOn_fits t.indexes_contextOf hv
    exact ⟨d, name, hd, hname, hfits.eq_bound_iff.mp rfl⟩

theorem Drafted.requires_of_deployedAfter {a id : DeclId} (hafter : t.DeployedAfter a id) :
    b.tree.Requires a id := by
  obtain ⟨d, name, hd, hname, hid⟩ := hafter
  have hgrows := hst.grows h.closed
  have hs := h.dependsOn_mem hroot hd hname
  have hcov := covers_of_mem_bindingSteps hs
  have hsettled := hst.ran.settled _ (bindingSteps_subset (hst.reviewed h.closed).grows hs)
  rcases hsettled _ ((matter?_grows hgrows hcov).trans (matter?_dependsOn hd name)) with
    ht | ⟨v, hv, hrec⟩
  · cases ht
  · rw [ruling_grows hgrows hcov] at hv
    cases (Context.judgeDependsOn_fits t.indexes_contextOf hv).eq_bound_iff.mpr hid
    exact requires_iff_mem.mpr hrec.2

theorem Drafted.reportCycles_eq_nil :
    b.tree.reportCycles = [] ↔ ∀ a, ¬ TransGen t.DeployedAfter a a := by
  have hgrows := hst.grows h.closed
  have hrel : b.tree.Requires = t.DeployedAfter := by
    funext a id
    exact propext ⟨h.deployedAfter_of_requires hst, h.requires_of_deployedAfter hroot hst⟩
  rw [reportCycles_eq_nil_iff, cycles_eq_nil_iff, hrel]
  intro a ha
  rw [hgrows.walk_eq]
  rw [mem_declIds, hgrows.isSome_decl?] at ha
  exact h.mem_walk hroot ha

theorem Drafted.hasErrors_eq_false : (t.conclusion b).diagnostics.hasErrors = false ↔
    t.KeepsRules directory options (Resource.WellTyped t directory) := by
  rw [hst.hasErrors_eq_false h.closed h.unshared, h.log_build_eq_nil hroot,
    h.log_reviews_eq_nil hroot hst, h.reports_eq_nil hroot hst, h.reportCycles_eq_nil hroot hst]
  constructor
  · rintro ⟨hnames, hres, ⟨hrefs, horders⟩, hacyclic⟩
    exact {
      names := hnames
      described := fun a d r hd hk ↦ (hres a d r hd hk).1
      typed := fun hcheck a d r hd hk ↦ (hres a d r hd hk).2 hcheck
      references := fun a d e x r hd he hx hr ↦ (hrefs a d e x r hd he hx hr).2
      conditions := fun a d e x name attr hd hcond he hx hk ↦
        (hrefs a d e x _ hd he hx (ExprKind.reference?_eq_attributeOf.mpr hk)).1 hcond name attr hk
      orders := horders
      acyclic := hacyclic }
  · intro hrules
    exact ⟨hrules.names,
      fun a d r hd hk ↦ ⟨hrules.described a d r hd hk,
        fun hcheck ↦ hrules.typed hcheck a d r hd hk⟩,
      ⟨fun a d e x r hd he hx hr ↦ ⟨fun hcond name attr ↦
        hrules.conditions a d e x name attr hd hcond he hx,
        hrules.references a d e x r hd he hx hr⟩, hrules.orders⟩, hrules.acyclic⟩

end Draft

end Tree

namespace Draft

variable {name file : String} {statements : List Statement} {directory : Directory}
  {options : Options} {t' : Tree} {a : Analysis}

/-- The diagnostics of a draft are sound and complete: there are no errors exactly when the draft
keeps the rules of the language. -/
theorem no_errors_iff_keepsRules
    (h : (build name file statements).analyze directory options = (t', .ok a)) :
    a.diagnostics.hasErrors = false ↔ (build name file statements).KeepsRules directory options
      (Resource.WellTyped (build name file statements) directory) := by
  obtain ⟨w, b, hst, rfl, rfl⟩ := Tree.analyze_eq_ok_iff.mp h
  obtain ⟨_, hdraft, hroot⟩ := exists_drafted_build name file statements
  exact hdraft.hasErrors_eq_false hroot hst

def boxes : Directory :=
  .ofSpecification <| (Specification.blank.withResourceType "Acme::Box"
    { (ResourceType.blank.withProperty "Size" { Entry.primitive "String" with required := true }
      |>.withProperty "Lid" (.complex "Lid")) with
        attributes := Registry.empty.put "Arn" (.primitive "String") }).withPropertyType "Lid"
    (PropertyType.blank.withProperty "Color" { Entry.primitive "String" with required := true })

def orderly : List Statement :=
  [.declare "Stage" (.parameter "String"),
    .declare "Ready" (.condition (.list [.reference "Stage"])),
    .declare "My::Thing" (.resourceType ["Owner"] []),
    .declare "Box" (.resource ⟨some "Acme::Box", none, some (.conditionReference "Ready"),
      some (.object [("Size", .reference "Stage"),
        ("Lid", .object [("Color", .literal "red")])]), ["Thing"]⟩),
    .declare "Thing" (.resource ⟨some "My::Thing", none, none,
      some (.object [("Owner", .getAttribute "Box" "Arn")]), []⟩),
    .declare "Role" (.resource ⟨none, some (.list [.literal "*",
      .literal "arn:aws:iam::123456789012:role/Admin"]), none, none, []⟩)]

theorem no_errors_iff_keepsRules_orderly : ∃ t' a,
    (build "Module" "Module.yml" orderly).analyze boxes .standard = (t', .ok a) ∧
      a.diagnostics.hasErrors = false ∧
      (build "Module" "Module.yml" orderly).KeepsRules boxes .standard
        (Resource.WellTyped (build "Module" "Module.yml" orderly) boxes) := by
  have hclean : ((build "Module" "Module.yml" orderly).analyze boxes .standard).2.toOption.map
      (fun a ↦ a.diagnostics.hasErrors) = some false := by decide +kernel
  obtain ⟨a, ha, hno⟩ := Option.map_eq_some_iff.mp hclean
  obtain ⟨t', h⟩ := Tree.exists_analyze_eq ha
  exact ⟨t', a, h, hno, (no_errors_iff_keepsRules h).mp hno⟩

def plainBoxes : Directory :=
  .ofSpecification (Specification.blank.withResourceType "Acme::Box" .blank)

def overridden : List Statement :=
  [.declare "Acme::Box" (.resourceType ["Color"] []),
    .declare "Box" (.resource ⟨some "Acme::Box", none, none,
      some (.object [("Color", .literal "red")]), []⟩)]

/-- It is not enough that either the specification or the module approves of the properties of a
resource: a type of the specification cannot be declared anew. -/
theorem not_no_errors_iff_typedSomewhere :
    ¬ ∀ name file statements directory options t' a,
      (build name file statements).analyze directory options = (t', .ok a) →
      (a.diagnostics.hasErrors = false ↔ (build name file statements).KeepsRules directory options
        (Resource.TypedSomewhere (build name file statements) directory)) := by
  intro hall
  let t := build "Module" "Module.yml" overridden
  let options : Options := ⟨true, false⟩
  have hfails : (t.analyze plainBoxes options).2.toOption.map
      (fun a ↦ a.diagnostics.hasErrors) = some true := by decide +kernel
  obtain ⟨a, ha, herrors⟩ := Option.map_eq_some_iff.mp hfails
  obtain ⟨t', h⟩ := Tree.exists_analyze_eq ha
  have hclean : (t.analyze .empty options).2.toOption.map
      (fun a ↦ a.diagnostics.hasErrors) = some false := by decide +kernel
  obtain ⟨a₀, ha₀, hno⟩ := Option.map_eq_some_iff.mp hclean
  obtain ⟨t₀, h₀⟩ := Tree.exists_analyze_eq ha₀
  obtain ⟨w, b, hst, rfl, rfl⟩ := Tree.analyze_eq_ok_iff.mp h₀
  obtain ⟨_, hdraft, hroot⟩ := exists_drafted_build "Module" "Module.yml" overridden
  have hrules := (hdraft.hasErrors_eq_false hroot hst).mp hno
  have hkeeps : t.KeepsRules plainBoxes options (Resource.TypedSomewhere t plainBoxes) := {
    hrules with
    typed := fun hcheck a d r hd hk hv type ht ↦ by
      cases hrules.typed hcheck a d r hd hk hv type ht with
      | custom hcustom => exact .inl hcustom
      | specified _ hspec => cases hspec
      | declared _ hdeclared => exact .inr (.inr hdeclared)
    references := fun a d e x r hd he hx hr ↦ by
      obtain ⟨id, hname, c, hc, hlegal⟩ := hrules.references a d e x r hd he hx hr
      exact ⟨id, hname, c, hc, hlegal.of_unchecked rfl⟩ }
  rw [(hall _ _ _ _ _ _ _ h).mpr hkeeps] at herrors
  cases herrors

end Draft

end InfraModule
