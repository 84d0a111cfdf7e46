import InfraModule.Proofs.Containment
import InfraModule.Proofs.CycleSearch
import InfraModule.Proofs.Faults

namespace InfraModule

open Provider

namespace Draft

theorem navigable_build (name file : String) (statements : List Statement) :
    (build name file statements).Navigable := by
  have hassembled := assembled_build name file statements
  obtain ⟨_, hdraft, -⟩ := exists_drafted_build name file statements
  exact ⟨hdraft.closed, hassembled.ordered, fun _ _ ↦ hassembled.isModuleRoot_eq_false⟩

/-- No analysis of a draft looks up a declaration or an expression that is not there, or goes on
without end. It stops at a gap of the specification if at all, and never where there is none. -/
theorem analyze_stops_only_at_gaps (name file : String) (statements : List Statement)
    (directory : Directory) (options : Options) :
    let t := build name file statements
    (t.decl? Tree.root).isSome ∧
    SymbolTable.build? t = some (SymbolTable.build t) ∧
    (∀ t' fault, t.analyze directory options = (t', .error fault) →
      ∃ cause, fault = .inconsistent cause ∧ cause.isGap) ∧
    (∀ t' analysis, t.analyze directory options = (t', .ok analysis) →
      t'.reportCycles? = some t'.reportCycles) ∧
    (directory.specification.Complete →
      ∃ t' analysis, t.analyze directory options = (t', .ok analysis)) := by
  intro t
  obtain ⟨_, -, hroot⟩ := exists_drafted_build name file statements
  have hn := navigable_build name file statements
  have hv := Tree.validate_draft name file statements
  refine ⟨hroot, SymbolTable.build?_eq t, ?_, fun t' _ _ ↦ t'.reportCycles?_eq, ?_⟩
  · intro t' fault h
    have hwithin := Tree.within_analyze hn hv directory.failsOnly_gaps h
    cases fault with
    | inconsistent cause => exact ⟨cause, rfl, hwithin⟩
    | dangling | endless => exact hwithin.elim
  · intro hcomplete
    cases h : t.analyze directory options with
    | mk t' outcome =>
      cases outcome with
      | ok analysis => exact ⟨t', analysis, rfl⟩
      | error fault =>
        have hwithin := Tree.within_analyze hn hv (Directory.failsOnly_of_complete hcomplete) h
        cases fault <;> exact hwithin.elim

def recursive : Specification :=
  (Specification.blank.withResourceType "Acme::Plant"
    ((ResourceType.blank.withProperty "Stem" (.complex "Branch")).withAttribute "Age"
      (.primitive "Integer"))).withPropertyType "Acme::Plant.Branch"
    (PropertyType.blank.withProperty "Twigs" (.listOf "Branch"))

def planted : List Statement :=
  [.declare "Oak" (.resource ⟨some "Acme::Plant", none, none,
    some (.object [("Stem", .object [("Twigs",
      .list [.object [], .object [("Leaf", .list [])]])])]), []⟩)]

/-- The types refer to each other, which is no obstacle; a type that is not there is one. -/
theorem analyze_stops_only_at_gaps_planted :
    recursive.Complete ∧
    (∃ t' analysis, (build "Module" "Module.yml" planted).analyze (.ofSpecification recursive)
      .standard = (t', .ok analysis)) ∧
    ∃ t' cause, (build "Module" "Module.yml" planted).analyze
      (.ofSpecification { recursive with propertyTypes := .empty }) .standard =
        (t', .error (.inconsistent cause)) ∧ cause.isGap := by
  have hcomplete : recursive.Complete := by
    apply Specification.complete_of_isCompleteAmong
      [⟨"Acme::Plant", "Acme::Plant", some (Registry.empty.put "Stem" (.complex "Branch"))⟩,
        ⟨"Acme::Plant.Branch", "Acme::Plant",
          some (Registry.empty.put "Twigs" (.listOf "Branch"))⟩]
    decide +kernel
  let out := (build "Module" "Module.yml" planted).analyze
    (.ofSpecification { recursive with propertyTypes := .empty }) .standard
  have hout : out.2.toOption.isNone := by decide +kernel
  refine ⟨hcomplete, ?_, ?_⟩
  · exact (analyze_stops_only_at_gaps "Module" "Module.yml" planted
      (.ofSpecification recursive) .standard).2.2.2.2 hcomplete
  · obtain ⟨-, -, hgap, -⟩ := analyze_stops_only_at_gaps "Module" "Module.yml" planted
      (.ofSpecification { recursive with propertyTypes := .empty }) .standard
    cases h : out with
    | mk t' outcome =>
      cases outcome with
      | ok analysis => simp [h, Except.toOption] at hout
      | error fault =>
        obtain ⟨cause, rfl, hcause⟩ := hgap t' fault h
        exact ⟨t', cause, h, hcause⟩

end Draft

end InfraModule
