import InfraModule.Proofs.BindingExactness
import InfraModule.Proofs.ErrorLog
import InfraModule.Proofs.ResourceRules

namespace InfraModule

open Provider Vocabulary

namespace Problem

theorem report_inj {p p' : Problem} {location location' : Option Location} :
    p.report location = p'.report location' ↔
      p.code = p'.code ∧ p.message = p'.message ∧ location = location' := by
  simp only [report, Diagnostic.coded, Diagnostic.mk.injEq, true_and, Option.some.injEq]

theorem message_unknownResourceType_inj {type type' : String} :
    (unknownResourceType type).message = (unknownResourceType type').message ↔ type = type' := by
  unfold message
  rw [String.append_left_inj, String.append_right_inj]

end Problem

def DeclKind.HasOutput (kind : DeclKind) (attr : String) : Prop :=
  kind.isNestedModule ∧ beginsWith attr nestedStackOutputPrefix

theorem DeclKind.Filled.isSome_resource? {t t' : Tree} {id : DeclId} {k k' : DeclKind}
    (h : k.Filled t t' id k') : k'.resource?.isSome = k.resource?.isSome := by cases h <;> rfl

namespace Tree

variable {t t' : Tree} {directory : Directory} {ctx : Context} {type attr : String} {a : DeclId}
  {place : Option Location}

def DeclaresType (t : Tree) (type : String) (properties attributes : List String) : Prop :=
  ∃ id d handler, t.firstNamed type = some id ∧ t.decl? id = some d ∧
    d.kind = .resourceType handler properties attributes

/-- The provider knows a type, or the module declares it. -/
def KnowsType (t : Tree) (directory : Directory) (type : String) : Prop :=
  (directory.resolve? type).isSome ∨
    ∃ properties attributes, t.DeclaresType type properties attributes

def KnowsAttribute (t : Tree) (directory : Directory) (type attr : String) : Prop :=
  (∃ shape, directory.resolve? type = some shape ∧
    ∀ spec, shape.type = some spec → spec.attributes.contains attr) ∨
  ∃ properties attributes, t.DeclaresType type properties attributes ∧ attr ∈ attributes

def ManagedAt (t : Tree) (a : DeclId) (type : String) (place : Option Location) : Prop :=
  ∃ d, t.decl? a = some d ∧ d.kind.resource?.isSome ∧ d.kind.stackType? = some type ∧
    d.location = place

def GetsAttribute (t : Tree) (e : ExprId) (id : DeclId) (attr : String) : Prop :=
  ∃ x name, t.expr? e = some x ∧ x.kind = .getAttribute name attr ∧ x.target = some id

theorem declaresType_grows (h : t.Grows t') {properties attributes : List String} :
    t'.DeclaresType type properties attributes ↔ t.DeclaresType type properties attributes := by
  unfold DeclaresType
  rw [h.firstNamed_eq]
  apply exists_congr
  intro id
  rcases h.decl?_cases id with ⟨hd, hd'⟩ | ⟨d, d', hd, hd', hg⟩
  · simp [hd, hd']
  · simp [hd, hd', hg.kind.resourceType_iff]

theorem knowsType_grows (h : t.Grows t') :
    t'.KnowsType directory type ↔ t.KnowsType directory type := by
  simp only [KnowsType, declaresType_grows h]

theorem managedAt_grows (h : t.Grows t') :
    t'.ManagedAt a type place ↔ t.ManagedAt a type place := by
  unfold ManagedAt
  rcases h.decl?_cases a with ⟨hd, hd'⟩ | ⟨d, d', hd, hd', hg⟩
  · simp [hd, hd']
  · simp [hd, hd', hg.kind.isSome_resource?, hg.kind.stackType?_eq, hg.location]

theorem KnowsAttribute.knowsType (h : t.KnowsAttribute directory type attr) :
    t.KnowsType directory type := by
  rcases h with ⟨shape, hshape, -⟩ | ⟨properties, attributes, hdeclares, -⟩
  · exact .inl (by simp [hshape])
  · exact .inr ⟨properties, attributes, hdeclares⟩

theorem HasAttribute.knowsAttribute (h : t.HasAttribute directory type attr)
    (hknown : t.KnowsType directory type) : t.KnowsAttribute directory type attr := by
  by_cases hcustom : directory.isCustom type
  · exact .inl ⟨⟨type, none⟩, by simp [Directory.resolve?, hcustom], nofun⟩
  cases h with
  | custom h => exact absurd h hcustom
  | specified spec hspec hattr =>
    refine .inl ⟨⟨type, some spec⟩, by simp [Directory.resolve?, hcustom, hspec], ?_⟩
    rintro _ ⟨⟩
    exact hattr
  | declared id d handler properties attributes _ hn hd hk hattr =>
    exact .inr ⟨properties, attributes, ⟨id, d, handler, hn, hd, hk⟩, hattr⟩
  | unknown hspec hno =>
    rcases hknown with hshape | ⟨properties, attributes, id, d, handler, hn, hd, hk⟩
    · simp [Directory.resolve?, hcustom, hspec] at hshape
    · exact absurd hk (hno id d hn hd _ _ _)

end Tree

namespace Resource

variable {t : Tree} {ctx : Context} {r : Resource} {location place : Option Location}
  {type type' : String} {object : ExprId}

theorem checkManaged_of_not_knowsType (hidx : ctx.Indexes t)
    (h : ¬ t.KnowsType ctx.directory type) :
    checkManaged ctx t location type object = .problem (.unknownResourceType type) location := by
  obtain ⟨hshape, hdecl⟩ := not_or.mp h
  rw [Option.not_isSome_iff_eq_none] at hshape
  simp only [checkManaged, hshape, hidx type]
  cases hn : t.firstNamed type with
  | none => rfl
  | some id =>
    obtain ⟨d, hd, -⟩ := Tree.exists_decl_of_firstNamed hn
    simp only [hd]
    split
    next handler properties attributes hk =>
      exact absurd ⟨properties, attributes, id, d, handler, hn, hd, hk⟩ hdecl
    next => rfl

theorem among_checkManaged_of_knowsType (hidx : ctx.Indexes t)
    (h : t.KnowsType ctx.directory type) :
    (checkManaged ctx t location type object).log.Among ["E0017", "E0018"] := by
  unfold checkManaged
  split
  next => exact (reports_checkWithin t.stand_somewhere _ _ trivial _).among
  next hshape =>
    rcases h with h | ⟨properties, attributes, id, d, handler, hn, hd, hk⟩
    · simp [hshape] at h
    · simp only [hidx type, hn, hd, hk]
      exact (reports_checkDeclared t.stand_somewhere _ _ trivial).among

theorem unknown_mem_checkManaged (hidx : ctx.Indexes t) :
    (Problem.unknownResourceType type).report place ∈
        (checkManaged ctx t location type' object).log ↔
      type' = type ∧ location = place ∧ ¬ t.KnowsType ctx.directory type := by
  by_cases hknown : t.KnowsType ctx.directory type'
  · refine iff_of_false ?_ ?_
    · exact (among_checkManaged_of_knowsType hidx hknown).report_notMem (by simp [Problem.code]) _
    · rintro ⟨rfl, -, hunknown⟩
      exact hunknown hknown
  · rw [checkManaged_of_not_knowsType hidx hknown, Findings.problem, List.mem_singleton,
      Problem.report_inj, Problem.message_unknownResourceType_inj]
    constructor
    · rintro ⟨-, rfl, rfl⟩
      exact ⟨rfl, rfl, hknown⟩
    · rintro ⟨rfl, rfl, -⟩
      exact ⟨rfl, rfl, rfl⟩

theorem unknown_mem_review (hidx : ctx.Indexes t) (hcomplete : r.Complete)
    (hcheck : ctx.options.checkProperties) :
    (Problem.unknownResourceType type).report place ∈ (r.review ctx t location).log ↔
      (DeclKind.resource r).stackType? = some type ∧ location = place ∧
        ¬ t.KnowsType ctx.directory type := by
  unfold review
  cases hv : r.value with
  | some value =>
    have hreports : ((checkConflicts location r).andThen fun _ ↦ checkValue t value).log.Reports
        ["E0015", "E0016"] fun _ ↦ True :=
      Findings.reports_andThen ((reports_checkConflicts trivial r).mono (by simp))
        ((reports_checkValue t.stand_somewhere trivial).mono (by simp))
    refine iff_of_false (hreports.among.report_notMem (by simp [Problem.code]) _) ?_
    simp [DeclKind.stackType?, isManaged, hv]
  | none =>
    cases ht : r.type with
    | none => simp [DeclKind.stackType?, isManaged, ht, Findings.problem, Problem.report,
        Diagnostic.coded, Problem.code]
    | some type' =>
      have hm : r.isManaged := by simp [isManaged, hv, ht]
      obtain ⟨object, hobject⟩ := Option.isSome_iff_exists.mp (hcomplete.properties hm)
      simp only [hobject, hcheck, if_true, unknown_mem_checkManaged hidx]
      simp [DeclKind.stackType?, hm, ht]

end Resource

namespace Tree

variable {t t' : Tree} {directory : Directory} {options : Options} {ctx : Context}
  {w : Workspace} {b : Binder} {type attr file : String} {a : DeclId} {place : Option Location}

theorem unknown_mem_reviewOf (hidx : ctx.Indexes t) (hcomplete : t.CompleteAt a)
    (hcheck : ctx.options.checkProperties) :
    (Problem.unknownResourceType type).report place ∈ (t.reviewOf ctx a).log ↔
      t.ManagedAt a type place ∧ ¬ t.KnowsType ctx.directory type := by
  unfold reviewOf ManagedAt
  cases hd : t.decl? a with
  | none => simp [Findings.halted]
  | some d =>
    cases hr : d.kind.resource? with
    | none => simp [Findings.clean, hr]
    | some r =>
      have hk := DeclKind.resource?_eq_some.mp hr
      simp only [hr, Resource.unknown_mem_review hidx (hcomplete d r hd hk) hcheck]
      simp [hk, DeclKind.resource?, and_assoc]

/-- A type is reported as unknown exactly where a resource of this type stands and nobody knows
the type. -/
theorem Stages.unknown_mem_diagnostics (h : t.Stages directory options w b) (hc : t.Closed)
    (hu : t.Unshared) (hcheck : options.checkProperties) :
    (Problem.unknownResourceType type).report place ∈ (t.conclusion b).diagnostics ↔
      (∃ a ∈ t.walk, t.ManagedAt a type place) ∧ ¬ t.KnowsType directory type := by
  have hrev := h.reviewed hc
  have hgrows := hrev.grows
  have hidx : (t.contextOf directory options).Indexes w.tree := t.indexes_contextOf.grows hgrows
  have hmem : ∀ a ∈ t.walk, (Problem.unknownResourceType type).report place ∈
      (w.tree.reviewOf (t.contextOf directory options) a).log ↔
        t.ManagedAt a type place ∧ ¬ t.KnowsType directory type := by
    intro a ha
    rw [unknown_mem_reviewOf hidx (hrev.complete a ha) hcheck, managedAt_grows hgrows,
      knowsType_grows hgrows]
    rfl
  have hbuild : (Problem.unknownResourceType type).report place ∉ (SymbolTable.build t).log :=
    (among_build t).report_notMem (by simp [Problem.code]) place
  have hbind : (Problem.unknownResourceType type).report place ∉
      w.tree.bindingSteps.flatMap (w.tree.reportsOf (t.contextOf directory options)) :=
    (Log.among_flatMap fun s _ ↦ among_reportsOf _ s).report_notMem (by simp [Problem.code]) place
  have hcycles : (Problem.unknownResourceType type).report place ∉ b.tree.reportCycles :=
    (among_reportCycles b.tree).report_notMem (by simp [Problem.code]) place
  rw [h.diagnostics_eq hc hu]
  simp only [List.mem_append, hbuild, hbind, hcycles, false_or, or_false, List.mem_flatMap]
  constructor
  · rintro ⟨a, ha, hx⟩
    obtain ⟨hat, hunknown⟩ := (hmem a ha).mp hx
    exact ⟨⟨a, ha, hat⟩, hunknown⟩
  · rintro ⟨⟨a, ha, hat⟩, hunknown⟩
    exact ⟨a, ha, (hmem a ha).mpr ⟨hat, hunknown⟩⟩

theorem Drafted.attributeAllowed (h : t.Drafted file) (hroot : (t.decl? root).isSome)
    (hst : t.Stages directory options w b) (hcheck : options.checkAttributes) {e : ExprId}
    {id : DeclId} (hget : b.tree.GetsAttribute e id attr) :
    ∃ d, t.decl? id = some d ∧ d.kind.isProvisioned ∧ t.AttributeAllowed directory d.kind attr := by
  obtain ⟨y, name, hy, hk, htarget⟩ := hget
  obtain ⟨owner, x, he, hx⟩ : ∃ owner x, t.Holds owner e ∧ t.expr? e = some x := by
    by_contra hno
    have hnone := h.target_eq_none hst hy fun a x he hx ↦ absurd ⟨a, x, he, hx⟩ hno
    simp [hnone] at htarget
  have hr : x.kind.reference? = some (.attributeOf name attr) := by
    rw [← (hst.grows h.closed).kind_eq hx hy, hk]
    rfl
  obtain ⟨c, hc⟩ := he.exists_decl
  obtain ⟨y', hy', hiff⟩ := h.exists_target hroot hst hc he hx hr
  cases hy.symm.trans hy'
  obtain ⟨-, d, hd, hlegal⟩ := (hiff id).mp htarget
  exact ⟨d, hd, hlegal.1, hlegal.2 hcheck⟩

theorem Drafted.unknown_mem_diagnostics (h : t.Drafted file) (hroot : (t.decl? root).isSome)
    (hst : t.Stages directory options w b) (hcheck : options.checkProperties) :
    (Problem.unknownResourceType type).report place ∈ (t.conclusion b).diagnostics ↔
      (∃ a, t.ManagedAt a type place) ∧ ¬ t.KnowsType directory type := by
  rw [hst.unknown_mem_diagnostics h.closed h.unshared hcheck]
  refine and_congr_left' (exists_congr fun a ↦ and_iff_right_of_imp ?_)
  rintro ⟨d, hd, -⟩
  exact h.mem_walk hroot (by simp [hd])

theorem AttributeAllowed.known {kind : DeclKind} (h : t.AttributeAllowed directory kind attr)
    (htype : kind.stackType? = some type) (hknown : t.KnowsType directory type) :
    kind.HasOutput attr ∨ t.KnowsAttribute directory type attr := by
  refine h.imp id ?_
  rintro ⟨type', htype', hattr⟩
  cases htype.symm.trans htype'
  exact hattr.knowsAttribute hknown

end Tree

namespace Draft

/-- An attribute that is taken of a resource is known, or the type of the resource is reported.
For functions and nested modules this depends on who else knows their type. -/
theorem attribute_known_or_type_reported_iff {name file : String} {statements : List Statement}
    {directory : Directory} {t' : Tree} {a : Analysis}
    (h : (build name file statements).analyze directory .standard = (t', .ok a)) :
    let t := build name file statements
    ∀ e id attr, t'.GetsAttribute e id attr → ∃ d type, t.decl? id = some d ∧
      d.kind.stackType? = some type ∧
      (d.kind.HasOutput attr ∨ t.KnowsAttribute directory type attr ∨
          (∃ place, (Problem.unknownResourceType type).report place ∈ a.diagnostics) ↔
        d.kind.HasOutput attr ∨ t.KnowsType directory type ∨
          ∃ c place, t.ManagedAt c type place) ∧
      (d.kind.resource?.isSome → t.KnowsAttribute directory type attr ∨
        (Problem.unknownResourceType type).report d.location ∈ a.diagnostics) := by
  intro t e id attr hget
  obtain ⟨w, b, hst, rfl, rfl⟩ := Tree.analyze_eq_ok_iff.mp h
  obtain ⟨_, hdraft, hroot⟩ := exists_drafted_build name file statements
  obtain ⟨d, hd, hprovisioned, hallowed⟩ := hdraft.attributeAllowed hroot hst rfl hget
  obtain ⟨type, htype⟩ := DeclKind.exists_stackType? hprovisioned
  have hreported (place : Option Location) :
      (Problem.unknownResourceType type).report place ∈ (t.conclusion b).diagnostics ↔
        (∃ c, t.ManagedAt c type place) ∧ ¬ t.KnowsType directory type :=
    hdraft.unknown_mem_diagnostics hroot hst rfl
  refine ⟨d, type, hd, htype, ⟨?_, ?_⟩, fun hresource ↦ ?_⟩
  · rintro (hout | hattr | ⟨place, hx⟩)
    · exact .inl hout
    · exact .inr (.inl hattr.knowsType)
    · obtain ⟨⟨c, hat⟩, -⟩ := (hreported place).mp hx
      exact .inr (.inr ⟨c, place, hat⟩)
  · intro hreason
    by_cases hknown : t.KnowsType directory type
    · exact (hallowed.known htype hknown).imp_right .inl
    · rcases hreason with hout | hknows | ⟨c, place, hat⟩
      · exact .inl hout
      · exact absurd hknows hknown
      · exact .inr (.inr ⟨place, (hreported place).mpr ⟨⟨c, hat⟩, hknown⟩⟩)
  · by_cases hknown : t.KnowsType directory type
    · rcases hallowed.known htype hknown with hout | hattr
      · obtain ⟨r, hr⟩ := Option.isSome_iff_exists.mp hresource
        simp [DeclKind.HasOutput, DeclKind.resource?_eq_some.mp hr, DeclKind.isNestedModule] at hout
      · exact .inl hattr
    · exact .inr ((hreported _).mpr ⟨⟨id, d, hd, hresource, htype, rfl⟩, hknown⟩)

def carefree : List Statement :=
  [.declare "Handler" (.function none),
    .declare "Address" (.var (.getAttribute "Handler" "Nonsense"))]

/-- Where the provider does not know functions, the attribute is bound and nothing is said. -/
theorem attribute_known_or_type_reported_iff_carefree : ∃ t' a,
    (build "Module" "Module.yml" carefree).analyze .empty .standard = (t', .ok a) ∧
      t'.GetsAttribute ⟨0⟩ ⟨1⟩ "Nonsense" ∧
      ¬ (build "Module" "Module.yml" carefree).KnowsAttribute .empty functionResourceType
        "Nonsense" ∧
      ∀ place, (Problem.unknownResourceType functionResourceType).report place ∉
        a.diagnostics := by
  let t := build "Module" "Module.yml" carefree
  obtain ⟨a, ha⟩ := Option.isSome_iff_exists.mp
    (show (t.analyze .empty .standard).2.toOption.isSome by decide +kernel)
  obtain ⟨t', h⟩ := Tree.exists_analyze_eq ha
  obtain ⟨x, hx, hkind⟩ := Option.map_eq_some_iff.mp
    (show ((t.analyze .empty .standard).1.expr? ⟨0⟩).map (fun x ↦ (x.kind, x.target)) =
      some (.getAttribute "Handler" "Nonsense", some ⟨1⟩) by decide +kernel)
  obtain ⟨hk, htarget⟩ := Prod.mk.inj hkind
  rw [h] at hx
  have hget : t'.GetsAttribute ⟨0⟩ ⟨1⟩ "Nonsense" := ⟨x, "Handler", hx, hk, htarget⟩
  obtain ⟨d, type, hd, htype, hiff, -⟩ := attribute_known_or_type_reported_iff h _ _ _ hget
  have hkind : (t.decl? ⟨1⟩).map Declaration.kind = some (.function none none none) := by
    decide +kernel
  rw [hd, Option.map_some, Option.some.injEq] at hkind
  rw [hkind] at htype hiff
  cases htype
  have hunknown : ¬ t.KnowsType .empty functionResourceType := by
    rintro (hshape | ⟨-, -, id, -, -, hn, -⟩)
    · revert hshape
      decide +kernel
    · have hnone : t.firstNamed functionResourceType = none := by decide +kernel
      simp [hnone] at hn
  have hmanaged : ¬ ∃ c place, t.ManagedAt c functionResourceType place := by
    rintro ⟨c, place, d, hd, hresource, -⟩
    have hnone : ∀ d ∈ t.declarations.toList, d.kind.resource? = none := by decide +kernel
    simp [hnone d (Array.mem_of_getElem? hd).val] at hresource
  have hsilent := (not_congr hiff).mpr (by
    rintro (hout | hknown | hat)
    · cases hout.1
    · exact hunknown hknown
    · exact hmanaged hat)
  refine ⟨t', a, h, hget, fun hattr ↦ hsilent (.inr (.inl hattr)), fun place hx ↦ ?_⟩
  exact hsilent (.inr (.inr ⟨place, hx⟩))

end Draft

end InfraModule
