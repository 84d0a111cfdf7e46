import InfraModule.Proofs.PropertyReports
import InfraModule.Proofs.TypeScope

namespace InfraModule

namespace Provider

namespace Property

variable {name scope : String} {p : Property}

structure Consistent (s : Specification) (p : Property) : Prop where
  complex_iff : p.item = .complex ↔ p.complexType?.isSome
  nested_iff : p.complexType?.isSome ↔ ∀ name, s.nested p ≠ .error (.notComplex name)
  items : p.collection ≠ .single → p.item ≠ .primitive .json

theorem WellShaped.consistent (h : WellShaped p.collection p.item p.complexType?)
    (s : Specification) : p.Consistent s where
  complex_iff := h.complex_iff
  nested_iff := by
    constructor
    · intro hcomplex name hnested
      cases Specification.isGap_of_nested hcomplex hnested
    · intro hne
      by_contra hsimple
      rw [Option.not_isSome_iff_eq_none] at hsimple
      exact hne p.name (by simp [Specification.nested, hsimple])
  items := h.items

theorem scope_of_find? {entries : Option (Registry Entry)}
    (h : find? entries name scope = .ok (some p)) : p.scope = scope := by
  cases entries with
  | none =>
    cases h
    rfl
  | some entries =>
    obtain ⟨e, -, hdescribe⟩ := find?_eq_ok_some_iff.mp h
    exact scope_of_describe hdescribe

end Property

/-- A container asks for what the entries mark as required, and it finds what it asks for. -/
structure Container.AsksFor (c : Container) (entries : Registry Entry) : Prop where
  required_iff : ∀ name, name ∈ c.required ↔ ∃ e, entries.get? name = some e ∧ e.required = true
  found : ∀ name ∈ c.required, c.property? name ≠ .ok none
  agrees : ∀ name p, c.property? name = .ok (some p) → (p.required = true ↔ name ∈ c.required)

theorem Container.asksFor_of_entries {c : Container} {entries : Registry Entry}
    (h : c.entries = some entries) : c.AsksFor entries := by
  have hrequired (name : String) :
      name ∈ c.required ↔ ∃ e, entries.get? name = some e ∧ e.required = true := by
    simp [Resource.mem_required, h]
  refine ⟨hrequired, fun name hname hnone ↦ ?_, fun name p hp ↦ ?_⟩
  · obtain ⟨e, he, -⟩ := (hrequired name).mp hname
    obtain ⟨entries', hentries, hmissing⟩ := Resource.property?_eq_ok_none_iff.mp hnone
    cases h.symm.trans hentries
    simp [he] at hmissing
  · rw [property?, h] at hp
    obtain ⟨e, he, hdescribe⟩ := Property.find?_eq_ok_some_iff.mp hp
    obtain ⟨collection, item, type?, -, rfl⟩ := Property.describe_eq_ok hdescribe
    simp [hrequired, he]

theorem Specification.exists_of_nested {s : Specification} {p : Property} {c : Container}
    (h : s.nested p = .ok c) : c.scope = p.scope ∧
      ∃ type t, p.complexType? = some type ∧ s.typeFor? p.scope type = some t ∧
        c.entries = some t.properties := by
  obtain ⟨type, hp⟩ := Option.isSome_iff_exists.mp (isSome_of_nested h)
  unfold typeFor?
  cases hown : s.propertyTypes.get? (p.scope ++ "." ++ type) with
  | some own =>
    cases h.symm.trans (nested_own hp hown)
    exact ⟨rfl, type, own, hp, by simp [hown], rfl⟩
  | none =>
    cases hshared : s.propertyTypes.get? type with
    | some shared =>
      cases h.symm.trans (nested_shared hp hown hshared)
      exact ⟨rfl, type, shared, hp, by simp [hown, hshared], rfl⟩
    | none => cases h.symm.trans (nested_unresolved hp hown hshared)

namespace LookupPath

variable {s : Specification} {shape : ResourceShape} {path : LookupPath} {p : Property}

theorem consistent_of_run (h : path.run s shape = .ok (some p)) : p.Consistent s := by
  cases path with
  | ofProperty | ofAttribute => exact (Property.wellShaped_of_find? h).consistent s
  | further path name =>
    obtain ⟨q, -, c, -, hp⟩ := run_further_eq_ok_some_iff.mp h
    exact (Property.wellShaped_of_find? hp).consistent s

theorem scope_of_run (h : path.run s shape = .ok (some p)) : p.scope = shape.name := by
  induction path generalizing p with
  | ofProperty | ofAttribute => exact Property.scope_of_find? h
  | further path name ih =>
    obtain ⟨q, hq, c, hc, hp⟩ := run_further_eq_ok_some_iff.mp h
    rw [Property.scope_of_find? hp, (Specification.exists_of_nested hc).1, ih hq]

end LookupPath

/-- What can be relied on from a resource type on, along every path of lookups. -/
structure ResourceShape.Reliable (s : Specification) (shape : ResourceShape) : Prop where
  consistent : ∀ path p, LookupPath.run s shape path = .ok (some p) → p.Consistent s
  specified : ∀ t, shape.type = some t →
    s.resourceTypes.get? shape.name = some t ∧ shape.container.AsksFor t.properties ∧
      ∀ path p, LookupPath.run s shape path = .ok (some p) →
        ∃ e, path.listed? s shape.name = some e ∧ p.complexType? = e.complexType?
  inside : ∀ path p c, LookupPath.run s shape path = .ok (some p) → s.nested p = .ok c →
    ∃ type t, p.complexType? = some type ∧ s.typeFor? shape.name type = some t ∧
      c.AsksFor t.properties
  wildcard : shape.type = none → shape.container.required = [] ∧
    ∀ name, shape.container.property? name = .ok (some (.unconstrained name shape.name)) ∧
      shape.attribute? name = .ok (some (.unconstrained name shape.name))

theorem Directory.name_of_resolve? {directory : Directory} {resource : String}
    {shape : ResourceShape} (h : directory.resolve? resource = some shape) :
    shape.name = resource := by
  obtain rfl | ⟨t, -, rfl⟩ := resolve?_cases h
  · rfl
  · rfl

theorem Directory.reliable_of_resolve? {directory : Directory} {resource : String}
    {shape : ResourceShape} (h : directory.resolve? resource = some shape) :
    shape.Reliable directory.specification where
  consistent path p hp := LookupPath.consistent_of_run hp
  specified t ht := by
    obtain rfl | ⟨u, hu, rfl⟩ := resolve?_cases h
    · cases ht
    · cases ht
      refine ⟨hu, Container.asksFor_of_entries rfl, fun path p hp ↦ ?_⟩
      obtain ⟨e, he, hdescribe⟩ := (LookupPath.run_eq_ok_some_iff hu).mp hp
      exact ⟨e, he, Property.complexType?_of_describe hdescribe⟩
  inside path p c hp hc := by
    obtain ⟨-, type, t, htype, ht, hentries⟩ := Specification.exists_of_nested hc
    rw [LookupPath.scope_of_run hp] at ht
    exact ⟨type, t, htype, ht, Container.asksFor_of_entries hentries⟩
  wildcard ht := by
    simp [ResourceShape.container, ResourceShape.attribute?, Container.required,
      Container.property?, Property.find?, ht]

end Provider

inductive Fault.Expected : Fault → Prop
  | gap {cause : Inconsistency} : cause.isGap → Expected (.inconsistent cause)
  | moduleRoot (kind name : String) : Expected (.inconsistent (.unexpectedKind kind name))
  | dangling : Expected .dangling
  | endless : Expected .endless

theorem Fault.Expected.ne_notComplex {fault : Fault} (h : fault.Expected) (name : String) :
    fault ≠ .inconsistent (.notComplex name) := by
  rintro rfl
  cases h with
  | gap hgap => cases hgap

open Provider

theorem Resource.expected_checkWithin (s : Specification) (t : Tree) (depth : ℕ) (object : ExprId)
    (c : Container) : (checkWithin s t depth object c).StopsAt Fault.Expected := by
  induction depth generalizing object c with
  | zero => exact Findings.stopsAt_halted .endless
  | succ depth ih =>
    rw [checkWithin_succ]
    split
    next => exact Findings.stopsAt_of_none rfl
    next =>
      refine Findings.stopsAt_andThen (Findings.stopsAt_each ?_) (Findings.stopsAt_of_none rfl)
      intro field _
      apply stopsAt_checkField
      · exact fun _ ↦ .dangling
      · exact fun cause hp ↦ .gap (Property.isGap_of_find? hp)
      · exact fun p cause _ hcomplex hnested ↦ .gap (Specification.isGap_of_nested hcomplex hnested)
      · exact fun _ _ _ _ _ item _ inside _ ↦ ih item inside

theorem Tree.expected_reviewOf (t : Tree) (ctx : Context) (id : DeclId) :
    (t.reviewOf ctx id).StopsAt Fault.Expected := by
  apply stopsAt_reviewOf
  · exact fun _ ↦ .dangling
  · intro d r _ _
    apply Resource.stopsAt_review
    · exact fun e _ ↦ Resource.stopsAt_checkValue fun _ _ _ ↦ .dangling
    · intro e _ type
      apply Resource.stopsAt_checkManaged
      · exact fun shape _ ↦ Resource.expected_checkWithin _ t _ e shape.container
      · exact fun _ _ _ ↦ .dangling

theorem Tree.expected_referent {t : Tree} {id : DeclId} {fault : Fault}
    (h : t.referent id = .error fault) : fault.Expected := by
  unfold referent at h
  split at h
  next =>
    cases h
    exact .dangling
  next =>
    split at h
    next =>
      cases h
      exact .moduleRoot _ _
    next => cases h

theorem Tree.expected_ruling {t : Tree} {ctx : Context} {s : BindingStep} {m : Matter}
    {fault : Fault} (hm : t.matter? s = some m) (h : t.ruling ctx s = .error fault) :
    fault.Expected := by
  rcases ruling_eq_error hm h with ⟨name, id, -, href⟩ | ⟨type, attr, hattr⟩
  · exact expected_referent href
  · obtain ⟨shape, cause, -, ha, rfl⟩ | ⟨id, -, -, rfl⟩ := Context.hasAttribute_eq_error hattr
    · exact .gap (Property.isGap_of_find? ha)
    · exact .dangling

theorem Workspace.expected_reviewResources {ctx : Context} {w : Workspace} {halt : Halt Workspace}
    (h : w.reviewResources ctx = .error halt) : halt.fault.Expected := by
  refine Outcome.inTurn_halt (I := fun _ ↦ True) (P := Fault.Expected) ?_ ?_ trivial h
  · exact fun _ _ _ _ _ _ ↦ trivial
  · intro id _ w halt _ hstep
    rw [reviewDeclaration_eq] at hstep
    split at hstep
    next => cases hstep
    next fault hf =>
      cases hstep
      exact Tree.expected_reviewOf _ ctx id fault hf

theorem Workspace.expected_bindReferences {ctx : Context} {w : Workspace} {halt : Halt Binder}
    (h : w.bindReferences ctx = .error halt) : halt.fault.Expected := by
  refine Outcome.inTurn_halt (I := fun _ ↦ True) (P := Fault.Expected) ?_ ?_ trivial h
  · exact fun _ _ _ _ _ _ ↦ trivial
  · intro s _ b halt _ hstep
    obtain ⟨-, hfault⟩ | ⟨m, hm, hruling⟩ := Binder.step_eq_error hstep
    · exact hfault ▸ .dangling
    · exact Tree.expected_ruling hm hruling

namespace Context

/-- Whatever a directory resolves can be relied on, and so no review and no binding stops because
it went on from a property that has no type. -/
theorem directory_reliable (ctx : Context) :
    (∀ resource shape, ctx.directory.resolve? resource = some shape →
      shape.name = resource ∧ shape.Reliable ctx.directory.specification) ∧
    ∀ (w : Workspace) (name : String),
      (∀ halt, w.reviewResources ctx = .error halt →
        halt.fault ≠ .inconsistent (.notComplex name)) ∧
      ∀ halt, w.bindReferences ctx = .error halt →
        halt.fault ≠ .inconsistent (.notComplex name) := by
  refine ⟨fun resource shape h ↦ ?_, fun w name ↦ ⟨?_, ?_⟩⟩
  · exact ⟨Directory.name_of_resolve? h, Directory.reliable_of_resolve? h⟩
  · intro halt h
    exact (Workspace.expected_reviewResources h).ne_notComplex name
  · intro halt h
    exact (Workspace.expected_bindReferences h).ne_notComplex name

def room : ResourceType :=
  ResourceType.blank.withProperty "Seats" (Entry.listOf "Seat").require

def seat : PropertyType :=
  (PropertyType.blank.withProperty "Legs" (Entry.primitive "Integer").require).withProperty "Cover"
    (.complex "Fabric")

def furnished : Specification :=
  (Specification.blank.withResourceType "Acme::Room" room).withPropertyType "Seat" seat

def seated : Tree :=
  Draft.build "Module" "Module.yml" [.declare "Hall" (.resource ⟨some "Acme::Room", none, none,
    some (.object [("Seats", .list [.object [("Cover", .object [])]])]), []⟩)]

/-- Seats ask for legs. The review comes to the cover and stops, but not because it would have no
type. -/
theorem directory_reliable_furnished :
    let ctx : Context := ⟨.empty, .ofSpecification furnished, .standard⟩
    let seats : Property := ⟨"Seats", "Acme::Room", .list, .complex, some "Seat", true, false⟩
    (∃ shape, ctx.directory.resolve? "Acme::Room" = some shape ∧
      (LookupPath.ofProperty "Seats").run furnished shape = .ok (some seats) ∧
      seats.Consistent furnished) ∧
    (∃ c, furnished.nested seats = .ok c ∧ "Legs" ∈ c.required ∧
      c.property? "Legs" ≠ .ok none) ∧
    ∃ halt, Workspace.reviewResources ctx ⟨seated, []⟩ = .error halt ∧
      halt.fault ≠ .inconsistent (.notComplex "Cover") := by
  intro ctx seats
  obtain ⟨hreliable, hruns⟩ := ctx.directory_reliable
  obtain ⟨shape, hshape, hseats⟩ : ∃ shape, ctx.directory.resolve? "Acme::Room" = some shape ∧
      (LookupPath.ofProperty "Seats").run furnished shape = .ok (some seats) :=
    ⟨⟨"Acme::Room", some room⟩, by decide +kernel, by rfl⟩
  obtain ⟨-, hroom⟩ := hreliable _ _ hshape
  refine ⟨⟨shape, hshape, hseats, hroom.consistent _ _ hseats⟩, ?_, ?_⟩
  · have hnested : furnished.nested seats = .ok ⟨"Seat", "Acme::Room", some seat.properties⟩ := rfl
    obtain ⟨type, t, htype, ht, hasks⟩ := hroom.inside _ _ _ hseats hnested
    have hlegs : "Legs" ∈ Container.required ⟨"Seat", "Acme::Room", some seat.properties⟩ := by
      decide +kernel
    exact ⟨_, hnested, hlegs, hasks.found _ hlegs⟩
  · have hstops : (Workspace.reviewResources ctx ⟨seated, []⟩).toOption = none := by decide +kernel
    cases h : Workspace.reviewResources ctx ⟨seated, []⟩ with
    | ok w => simp [h, Except.toOption] at hstops
    | error halt => exact ⟨halt, rfl, (hruns ⟨seated, []⟩ "Cover").1 halt h⟩

end Context

end InfraModule
