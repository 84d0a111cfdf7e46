import InfraModule.Proofs.Conformance
import InfraModule.Provider.Directory

namespace InfraModule

theorem Registry.mem_entries_of_get? {α : Type} {r : Registry α} {name : String} {value : α}
    (h : r.get? name = some value) : (name, value) ∈ r.entries := by
  obtain ⟨before, after, hsplit, -⟩ := List.lookup_eq_some_iff.mp h
  simp [hsplit]

/-- What only the author of a specification can mend. -/
def Inconsistency.isGap : Inconsistency → Bool
  | unresolvedType .. | jsonItem .. | missingItem .. | unknownPrimitive .. => true
  | containmentCycle .. | missingParent .. | parentMismatch .. | missingLocation ..
  | unknownNode .. | notComplex .. | unexpectedKind .. => false

namespace Provider

namespace Property

variable {name tag scope : String} {e : Entry} {cause : Inconsistency}

theorem isGap_of_primitiveOf (h : primitiveOf name tag = .error cause) : cause.isGap := by
  unfold primitiveOf at h
  split at h
  next => cases h
  next =>
    cases h
    rfl

theorem isGap_of_itemOf (h : itemOf name e = .error cause) : cause.isGap := by
  unfold itemOf at h
  split at h
  next tag _ =>
    cases hp : primitiveOf name tag with
    | error cause' =>
      simp only [hp, bind, Except.bind, Except.error.injEq] at h
      exact h ▸ isGap_of_primitiveOf hp
    | ok p =>
      simp only [hp, bind, Except.bind] at h
      split at h
      next =>
        cases h
        rfl
      next => cases h
  next => cases h
  next =>
    cases h
    rfl

theorem isGap_of_shapeOf (h : shapeOf name e = .error cause) : cause.isGap := by
  unfold shapeOf at h
  split at h
  next =>
    split at h
    next => exact isGap_of_itemOf (eq_error_of_map h)
    next =>
      split at h
      next => exact isGap_of_itemOf (eq_error_of_map h)
      next => cases h
  next => exact isGap_of_primitiveOf (eq_error_of_map h)
  next =>
    cases h
    rfl

theorem isGap_of_find? {entries : Option (Registry Entry)}
    (h : find? entries name scope = .error cause) : cause.isGap := by
  unfold find? at h
  split at h
  next => cases h
  next =>
    split at h
    next => cases h
    next => exact isGap_of_shapeOf (eq_error_of_map (eq_error_of_map h))

theorem mem_names_of_find? {entries : Registry Entry}
    (h : find? (some entries) name scope ≠ .ok none) : name ∈ entries.names := by
  have hsome : (entries.get? name).isSome := by
    by_contra hn
    rw [Option.not_isSome_iff_eq_none] at hn
    simp [find?, hn] at h
  rw [← Registry.contains_iff] at hsome
  simpa [Registry.contains] using hsome

end Property

theorem Container.property?_cases {c : Container} {name : String}
    (h : c.property? name ≠ .ok none) : name ∈ c.propertyNames ∨
      c.entries = none ∧ c.property? name = .ok (some (.unconstrained name c.scope)) := by
  cases hentries : c.entries with
  | none => exact .inr ⟨rfl, by simp [property?, Property.find?, hentries]⟩
  | some entries =>
    rw [property?, hentries] at h
    exact .inl (by simpa [propertyNames, hentries] using Property.mem_names_of_find? h)

theorem Specification.isGap_of_nested {s : Specification} {p : Property} {cause : Inconsistency}
    (hp : p.complexType?.isSome) (h : s.nested p = .error cause) : cause.isGap := by
  unfold nested at h
  split at h
  next hn => simp [hn] at hp
  next =>
    split at h
    next =>
      cases h
      rfl
    next => cases h

namespace Specification

/-- The containers that lookups come to, from the properties and the attributes of the resource
types on. -/
inductive Reachable (s : Specification) : Container → Prop
  | ofType {name : String} {type : ResourceType} :
      s.resourceTypes.get? name = some type →
      Reachable s (ResourceShape.container ⟨name, some type⟩)
  | ofProperty {c inner : Container} {name : String} {p : Property} :
      Reachable s c → c.property? name = .ok (some p) → s.nested p = .ok inner →
      Reachable s inner
  | ofAttribute {name attr : String} {type : ResourceType} {p : Property} {inner : Container} :
      s.resourceTypes.get? name = some type →
      ResourceShape.attribute? ⟨name, some type⟩ attr = .ok (some p) → s.nested p = .ok inner →
      Reachable s inner

def Describes (s : Specification) (found : Except Inconsistency (Option Property)) : Prop :=
  ∃ p, found = .ok (some p) ∧ (p.complexType?.isSome → ∃ inner, s.nested p = .ok inner)

/-- Whatever is listed on a way that lookups can take is described. -/
structure Complete (s : Specification) : Prop where
  properties : ∀ c, s.Reachable c → ∀ name ∈ c.propertyNames, s.Describes (c.property? name)
  attributes : ∀ name type, s.resourceTypes.get? name = some type →
    ∀ attr ∈ type.attributes.names, s.Describes (ResourceShape.attribute? ⟨name, some type⟩ attr)

theorem Complete.describes {s : Specification} (h : s.Complete) {c : Container} {name : String}
    (hc : s.Reachable c ∨ c.entries = none) (hp : c.property? name ≠ .ok none) :
    s.Describes (c.property? name) := by
  rcases Container.property?_cases hp with hname | ⟨-, hany⟩
  · rcases hc with hc | hnone
    · exact h.properties c hc name hname
    · simp [Container.propertyNames, hnone] at hname
  · exact ⟨_, hany, by simp [Property.unconstrained]⟩

def describesAmong (s : Specification) (cs : List Container)
    (found : Except Inconsistency (Option Property)) : Bool :=
  match found with
  | .ok (some p) =>
    match s.nested p with
    | .ok inner => decide (inner ∈ cs)
    | .error _ => p.complexType?.isNone
  | _ => false

def isCompleteAmong (s : Specification) (cs : List Container) : Bool :=
  (s.resourceTypes.entries.all fun (name, type) ↦
    decide (ResourceShape.container ⟨name, some type⟩ ∈ cs) &&
      type.attributes.names.all fun attr ↦
        s.describesAmong cs (ResourceShape.attribute? ⟨name, some type⟩ attr)) &&
    cs.all fun c ↦ c.propertyNames.all fun name ↦ s.describesAmong cs (c.property? name)

section Among

variable {s : Specification} {cs : List Container}

theorem describes_of_describesAmong {found : Except Inconsistency (Option Property)}
    (h : s.describesAmong cs found) : s.Describes found := by
  unfold describesAmong at h
  split at h
  next p =>
    refine ⟨p, rfl, fun hcomplex ↦ ?_⟩
    split at h
    next inner hinner => exact ⟨inner, hinner⟩
    next => simp [Option.isSome_iff_ne_none.mp hcomplex] at h
  next => cases h

theorem mem_of_describesAmong {found : Except Inconsistency (Option Property)} {p : Property}
    {inner : Container} (h : s.describesAmong cs found) (hp : found = .ok (some p))
    (hn : s.nested p = .ok inner) : inner ∈ cs := by
  simpa [describesAmong, hp, hn] using h

/-- Completeness can be checked, once the containers are known that lookups lead to. -/
theorem complete_of_isCompleteAmong (cs : List Container) (h : s.isCompleteAmong cs) :
    s.Complete := by
  simp only [isCompleteAmong, Bool.and_eq_true, List.all_eq_true, decide_eq_true_eq] at h
  obtain ⟨hresources, hproperties⟩ := h
  have hresource (name : String) (type : ResourceType)
      (hg : s.resourceTypes.get? name = some type) := hresources _ (Registry.mem_entries_of_get? hg)
  have hmem (c : Container) (hc : s.Reachable c) : c ∈ cs := by
    induction hc with
    | ofType hg => exact (hresource _ _ hg).1
    | @ofProperty c inner name p _ hp hn ih =>
      have hne : c.property? name ≠ .ok none := by simp [hp]
      rcases Container.property?_cases hne with hname | ⟨-, hany⟩
      · exact mem_of_describesAmong (hproperties c ih name hname) hp hn
      · cases hp.symm.trans hany
        cases hn
    | @ofAttribute name attr type p inner hg hp hn =>
      refine mem_of_describesAmong ((hresource _ _ hg).2 attr ?_) hp hn
      exact Property.mem_names_of_find? (fun hnone ↦ by cases hp.symm.trans hnone)
  refine ⟨fun c hc name hname ↦ ?_, fun name type hg attr hattr ↦ ?_⟩
  · exact describes_of_describesAmong (hproperties c (hmem c hc) name hname)
  · exact describes_of_describesAmong ((hresource name type hg).2 attr hattr)

end Among

end Specification

/-- Lookups that begin at the types of a directory stay among the containers of `Known` and fail
for no other causes than `Allowed` ones. -/
structure Directory.FailsOnly (directory : Directory) (Allowed : Inconsistency → Prop)
    (Known : Container → Prop) : Prop where
  start : ∀ type shape, directory.resolve? type = some shape → Known shape.container
  further : ∀ c name p inner, Known c → c.property? name = .ok (some p) →
    directory.specification.nested p = .ok inner → Known inner
  properties : ∀ c name cause, Known c → c.property? name = .error cause → Allowed cause
  nested : ∀ c name p cause, Known c → c.property? name = .ok (some p) →
    p.complexType?.isSome → directory.specification.nested p = .error cause → Allowed cause
  attributes : ∀ type shape attr cause, directory.resolve? type = some shape →
    shape.attribute? attr = .error cause → Allowed cause

namespace Directory

variable (directory : Directory)

theorem failsOnly_gaps : directory.FailsOnly (fun cause ↦ cause.isGap) fun _ ↦ True where
  start _ _ _ := trivial
  further _ _ _ _ _ _ _ := trivial
  properties _ _ _ _ h := Property.isGap_of_find? h
  nested _ _ _ _ _ _ hp h := Specification.isGap_of_nested hp h
  attributes _ _ _ _ _ h := Property.isGap_of_find? h

variable {directory}

theorem resolve?_cases {type : String} {shape : ResourceShape}
    (h : directory.resolve? type = some shape) : shape = ⟨type, none⟩ ∨
      ∃ spec, directory.specification.resourceTypes.get? type = some spec ∧
        shape = ⟨type, some spec⟩ := by
  unfold resolve? at h
  split at h
  next => exact .inl (Option.some.inj h).symm
  next =>
    obtain ⟨spec, hspec, rfl⟩ := Option.map_eq_some_iff.mp h
    exact .inr ⟨spec, hspec, rfl⟩

theorem failsOnly_of_complete (h : directory.specification.Complete) :
    directory.FailsOnly (fun _ ↦ False)
      fun c ↦ directory.specification.Reachable c ∨ c.entries = none where
  start type shape hshape := by
    obtain rfl | ⟨spec, hspec, rfl⟩ := resolve?_cases hshape
    · exact .inr rfl
    · exact .inl (.ofType hspec)
  further c name p inner hc hp hn := by
    rcases hc with hc | hc
    · exact .inl (.ofProperty hc hp hn)
    · rw [Container.property?, hc] at hp
      cases hp
      cases hn
  properties c name cause hc hp := by
    have hne : c.property? name ≠ .ok none := by simp [hp]
    obtain ⟨p, hp', -⟩ := h.describes hc hne
    simp [hp] at hp'
  nested c name p cause hc hp hcomplex hn := by
    have hne : c.property? name ≠ .ok none := by simp [hp]
    obtain ⟨p', hp', hinner⟩ := h.describes hc hne
    cases hp.symm.trans hp'
    obtain ⟨inner, hinner⟩ := hinner hcomplex
    simp [hn] at hinner
  attributes type shape attr cause hshape ha := by
    obtain rfl | ⟨spec, hspec, rfl⟩ := resolve?_cases hshape
    · cases ha
    · have hne : Property.find? (some spec.attributes) attr type ≠ .ok none := by
        intro hnone
        cases ha.symm.trans hnone
      obtain ⟨p, hp, -⟩ := h.attributes type spec hspec attr (Property.mem_names_of_find? hne)
      simp [ha] at hp

end Directory

end Provider

end InfraModule
