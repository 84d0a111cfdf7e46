import InfraModule.Proofs.CycleReports
import InfraModule.Proofs.ErrorLog
import InfraModule.Proofs.Ownership

namespace InfraModule

open Provider

namespace Tree

variable {t t' : Tree} {file : String} {directory : Directory} {options : Options}
  {w : Workspace} {b : Binder} {ctx : Context} {a : DeclId} {s : BindingStep} {m : Matter}

/-- A report that stands where a declaration does, on its line of the file. -/
structure StandsWith (t : Tree) (file : String) (a : DeclId) (x : Diagnostic) : Prop where
  walked : a ∈ t.walk
  declared : ∃ d, t.decl? a = some d ∧ x.location = d.location
  line : x.location = some (.lineStart file (a.index + 1))

/-- Reports on declarations in the order of the tree, each standing with the one that it is
about. -/
structure Tells (t : Tree) (file : String) (about : DeclId → Log) (log : Log) : Prop where
  inOrder : log = t.walk.flatMap about
  standsWith : ∀ a ∈ t.walk, ∀ x ∈ about a, t.StandsWith file a x

theorem Orderly.standsWith (h : t.Orderly file) (ha : a ∈ t.walk) {x : Diagnostic}
    (hx : x.location = some (.lineStart file (a.index + 1))) : t.StandsWith file a x := by
  obtain ⟨d, hd⟩ := exists_decl_of_mem_walk ha
  exact ⟨ha, ⟨d, hd, hx.trans (h.line a d hd).symm⟩, hx⟩

theorem Orderly.tells (h : t.Orderly file) {about : DeclId → Log}
    (habout : ∀ a ∈ t.walk, ∀ x ∈ about a, x.location = some (.lineStart file (a.index + 1))) :
    t.Tells file about (t.walk.flatMap about) :=
  ⟨rfl, fun a ha x hx ↦ h.standsWith ha (habout a ha x hx)⟩

theorem Orderly.stand (h : t.Orderly file) (a : DeclId) :
    t.Stand (t.Holds a) (· = some (.lineStart file (a.index + 1))) where
  parts e he c hc := .part he hc (h.closed.partsOf he.isSome c hc)
  place e he := by
    obtain ⟨x, hx⟩ := Option.isSome_iff_exists.mp he.isSome
    simp [locationOf, hx, (h.held a e x he hx).2]

theorem Orderly.location_reviewOf (h : t.Orderly file) (ctx : Context) (a : DeclId) :
    ∀ x ∈ (t.reviewOf ctx a).log, x.location = some (.lineStart file (a.index + 1)) := by
  refine (reports_reviewOf (h.stand a) ctx fun d hd ↦ ⟨h.line a d hd, fun e he ↦ ?_⟩).location
  exact .root hd he (h.closed.roots a d hd e he)

theorem Orderly.location_matter? (h : t.Orderly file) (hs : s ∈ t.stepsOf a)
    (hm : t.matter? s = some m) : m.location = some (.lineStart file (a.index + 1)) := by
  cases s with
  | expression c e =>
    obtain ⟨rfl, he⟩ := expression_mem_stepsOf.mp hs
    obtain ⟨d, x, r, -, -, -, rfl⟩ := matter?_expression hm
    exact (h.stand c).place e he
  | dependsOn c name =>
    obtain ⟨rfl, d, hd, -⟩ := dependsOn_mem_stepsOf.mp hs
    rw [matter?_dependsOn hd] at hm
    cases hm
    exact h.line c d hd

theorem Orderly.location_reportsOf (h : t.Orderly file) (ctx : Context) (a : DeclId) :
    ∀ x ∈ (t.stepsOf a).flatMap (t.reportsOf ctx),
      x.location = some (.lineStart file (a.index + 1)) := by
  intro x hx
  obtain ⟨s, hs, hx⟩ := List.mem_flatMap.mp hx
  have hreports : (t.reportsOf ctx s).Reports ["E0001", "E0012"]
      (· = some (.lineStart file (a.index + 1))) :=
    reports_reportsOf ctx fun m ↦ h.location_matter? hs
  exact hreports.location x hx

theorem Orderly.location_repetition (h : t.Orderly file) (ha : a ∈ t.walk) :
    (t.repetition a).location = some (.lineStart file (a.index + 1)) := by
  obtain ⟨d, hd⟩ := exists_decl_of_mem_walk ha
  simp [repetition, hd, h.line a d hd]

theorem Orderly.location_reportCycles (h : t.Orderly file) {x : Diagnostic}
    (hx : x ∈ t.reportCycles) : ∃ c ∈ t.cycles, x = Cycle.report t c ∧
      ∃ a, c.head? = some a ∧ (t.decl? a).isSome ∧
        x.location = some (.lineStart file (a.index + 1)) := by
  rw [reportCycles_eq_map] at hx
  obtain ⟨c, hc, rfl⟩ := List.mem_map.mp hx
  have hcycle := Cycle.distinct_subset hc
  have helementary := isElementaryCycle_of_mem_cycles hcycle
  obtain ⟨a, rest, rfl⟩ := List.exists_cons_of_ne_nil helementary.nonempty
  have ha := mem_declIds.mp (mem_declIds_of_mem_cycle helementary List.mem_cons_self)
  obtain ⟨d, hd⟩ := Option.isSome_iff_exists.mp ha
  refine ⟨_, hcycle, rfl, a, rfl, ha, ?_⟩
  simp [Cycle.report, Problem.report, Diagnostic.coded, hd, h.line a d hd]

theorem map_repetition_eq (t : Tree) : t.repeated.map t.repetition =
    t.walk.flatMap fun a ↦ if a ∈ t.repeated then [t.repetition a] else [] := by
  have hfilter (ids : List DeclId) : (ids.filter (· ∈ t.repeated)).map t.repetition =
      ids.flatMap fun a ↦ if a ∈ t.repeated then [t.repetition a] else [] := by
    induction ids with
    | nil => rfl
    | cons a ids ih => by_cases ha : a ∈ t.repeated <;> simp [ha, ih]
  have hrepeated : t.walk.filter (· ∈ t.repeated) = t.repeated := by
    rw [repeated, nameable, List.filter_filter]
    refine List.filter_congr fun a ha ↦ ?_
    simp [ha, Bool.and_comm]
  rw [← hfilter, hrepeated]

theorem Orderly.tells_repeated (h : t.Orderly file) :
    t.Tells file (fun a ↦ if a ∈ t.repeated then [t.repetition a] else [])
      (t.repeated.map t.repetition) := by
  rw [map_repetition_eq]
  refine h.tells fun a ha x hx ↦ ?_
  split at hx
  next =>
    cases List.mem_singleton.mp hx
    exact h.location_repetition ha
  next => cases hx

theorem Stages.diagnostics_eq_of_final (h : t.Stages directory options w b) (hc : t.Closed)
    (hu : t.Unshared) : (t.conclusion b).diagnostics =
      t.repeated.map t.repetition ++
        (t.walk.flatMap fun a ↦ (b.tree.reviewOf (t.contextOf directory options) a).log) ++
        (t.walk.flatMap fun a ↦
          (b.tree.stepsOf a).flatMap (b.tree.reportsOf (t.contextOf directory options))) ++
        b.tree.reportCycles := by
  -- once it is reviewed, the binding changes nothing that the review or its own reports look at
  have hr := h.reviewed hc
  have hcw := hc.grows hr.grows
  have hwalk : w.tree.walk = t.walk := hr.grows.walk_eq
  have hreview : (t.walk.flatMap fun a ↦
      (b.tree.reviewOf (t.contextOf directory options) a).log) =
        t.walk.flatMap fun a ↦ (w.tree.reviewOf (t.contextOf directory options) a).log := by
    refine List.flatMap_congr fun a ha ↦ ?_
    rw [reviewOf_grows h.ran.grows hcw (hr.complete a ha) (hr.fault a ha)]
  have hsteps : b.tree.bindingSteps = w.tree.bindingSteps :=
    bindingSteps_grows h.ran.grows hcw fun a ha ↦ hr.complete a (hwalk ▸ ha)
  have hbind : b.tree.bindingSteps.flatMap (b.tree.reportsOf (t.contextOf directory options)) =
      w.tree.bindingSteps.flatMap (w.tree.reportsOf (t.contextOf directory options)) := by
    rw [hsteps]
    exact List.flatMap_congr fun s hs ↦ h.ran.faithful.reportsOf (hu.grows hc hr.grows) hs
  rw [h.diagnostics_eq hc hu, (SymbolTable.isIndex_build t).log, hreview, ← hbind, bindingSteps,
    List.flatMap_assoc, h.ran.grows.walk_eq, hwalk]

theorem length_nameable (hroot : root ∈ t.walk) : t.nameable.length + 1 = t.walk.length := by
  have herase : t.nameable = t.walk.erase root := by
    rw [t.nodup_walk.erase_eq_filter, nameable]
    refine List.filter_congr fun a _ ↦ ?_
    rw [Bool.eq_iff_iff, decide_eq_true_iff, bne_iff_ne]
  have hpos := List.length_pos_of_mem hroot
  rw [herase, List.length_erase_of_mem hroot]
  omega

theorem length_walk (hwalk : ∀ a, (t.decl? a).isSome → a ∈ t.walk) :
    t.walk.length = t.declarations.size := by
  have hperm : t.walk.Perm t.declIds := by
    rw [List.perm_ext_iff_of_nodup t.nodup_walk t.nodup_declIds]
    intro a
    rw [mem_declIds]
    exact ⟨fun ha ↦ Option.isSome_iff_exists.mpr (exists_decl_of_mem_walk ha), hwalk a⟩
  rw [hperm.length_eq, length_declIds]

theorem length_repeated (hwalk : ∀ a, (t.decl? a).isSome → a ∈ t.walk)
    (hroot : (t.decl? root).isSome) : (t.repeated.map t.repetition).length +
      (SymbolTable.build t).table.size + 1 = t.declarations.size := by
  have hbuild := (SymbolTable.isIndex_build t).size
  have hnameable := length_nameable (hwalk root hroot)
  have hall := length_walk hwalk
  rw [(SymbolTable.isIndex_build t).log] at hbuild
  omega

end Tree

namespace Draft

/-- The reports of an analysis come stage by stage. Those on names come first, one for each
declaration below the root that has no entry in the table; then those on resources, those on
references, and one for each circular dependency. All are errors, each stage has codes of its own,
and each report stands on the line of the declaration that it is about, in the order of the tree as
long as it is not about a cycle. -/
theorem reports_stage_by_stage {name file : String} {statements : List Statement}
    {directory : Directory} {options : Options} {t' : Tree} {analysis : Analysis}
    (h : (build name file statements).analyze directory options = (t', .ok analysis)) :
    let t := build name file statements
    let ctx := t.contextOf directory options
    ∃ repeated reviewed bound circular,
      analysis.diagnostics = repeated ++ reviewed ++ bound ++ circular ∧
      repeated.Among ["E0004"] ∧
      reviewed.Among ["E0005", "E0008", "E0015", "E0016", "E0017", "E0018"] ∧
      bound.Among ["E0001", "E0012"] ∧
      circular.Among ["E0007"] ∧
      repeated.length + analysis.symbols.size + 1 = t.declarations.size ∧
      circular.length = analysis.cycles ∧
      t.Tells file (fun a ↦ if a ∈ t.repeated then [t.repetition a] else []) repeated ∧
      t.Tells file (fun a ↦ (t'.reviewOf ctx a).log) reviewed ∧
      t.Tells file (fun a ↦ (t'.stepsOf a).flatMap (t'.reportsOf ctx)) bound ∧
      ∀ x ∈ circular, ∃ c ∈ t'.cycles, x = Cycle.report t' c ∧
        ∃ a, c.head? = some a ∧ t.StandsWith file a x := by
  intro t ctx
  obtain ⟨_, -, hroot⟩ := exists_drafted_build name file statements
  have hdrafted : t.Drafted file := drafted_build name file statements
  have horderly : t.Orderly file := orderly_build name file statements
  have horderly' : t'.Orderly file := by
    have hanalyze := horderly.analyze directory options
    rwa [h] at hanalyze
  obtain ⟨w, b, hst, rfl, rfl⟩ := Tree.analyze_eq_ok_iff.mp h
  have hwalk (a : DeclId) (ha : (t.decl? a).isSome) : a ∈ t.walk := hdrafted.mem_walk hroot ha
  have hg : t.Grows b.tree := hst.grows hdrafted.closed
  refine ⟨_, _, _, _, hst.diagnostics_eq_of_final hdrafted.closed hdrafted.unshared,
    ?_, ?_, ?_, ?_, ?_, rfl, ?_, ?_, ?_, ?_⟩
  · exact (SymbolTable.isIndex_build t).log ▸ Tree.among_build t
  · exact Log.among_flatMap fun a _ ↦ Tree.among_reviewOf ctx a
  · exact Log.among_flatMap fun a _ ↦ Log.among_flatMap fun s _ ↦ Tree.among_reportsOf ctx s
  · exact Tree.among_reportCycles b.tree
  · exact Tree.length_repeated hwalk hroot
  · exact horderly.tells_repeated
  · exact horderly.tells fun a _ ↦ horderly'.location_reviewOf ctx a
  · exact horderly.tells fun a _ ↦ horderly'.location_reportsOf ctx a
  · intro x hx
    obtain ⟨c, hc, hreport, a, ha, hsome, hl⟩ := horderly'.location_reportCycles hx
    rw [hg.isSome_decl? a] at hsome
    exact ⟨c, hc, hreport, a, ha, horderly.standsWith (hwalk a hsome) hl⟩

def flawed : List Statement :=
  [.declare "Bucket" (.resource ⟨some "Custom::Bucket", none, none, none, ["Topic"]⟩),
    .declare "Bucket" (.resource ⟨none, none, none, none, []⟩),
    .declare "Topic" (.resource ⟨some "Custom::Topic", none, none,
      some (.object [("Owner", .reference "Nobody")]), ["Bucket"]⟩)]

theorem reports_stage_by_stage_flawed : ∃ t' analysis repeated reviewed bound circular,
    (build "Module" "Module.yml" flawed).analyze .empty .standard = (t', .ok analysis) ∧
    analysis.diagnostics = repeated ++ reviewed ++ bound ++ circular ∧
    repeated.length = 1 ∧ repeated.Among ["E0004"] ∧
    circular.length = 1 ∧ circular.Among ["E0007"] ∧
    analysis.diagnostics.map (fun x ↦ (x.code, x.location)) =
      [(some "E0004", some (.lineStart "Module.yml" 3)),
        (some "E0005", some (.lineStart "Module.yml" 3)),
        (some "E0001", some (.lineStart "Module.yml" 4)),
        (some "E0007", some (.lineStart "Module.yml" 2))] := by
  obtain ⟨analysis, ha, hsummary⟩ := Option.map_eq_some_iff.mp
    (show ((build "Module" "Module.yml" flawed).analyze .empty .standard).2.toOption.map
        (fun a ↦ (a.symbols.size, a.cycles,
          a.diagnostics.map fun x ↦ (x.code, x.location))) =
      some (2, 1, [(some "E0004", some (.lineStart "Module.yml" 3)),
        (some "E0005", some (.lineStart "Module.yml" 3)),
        (some "E0001", some (.lineStart "Module.yml" 4)),
        (some "E0007", some (.lineStart "Module.yml" 2))]) by decide +kernel)
  simp only [Prod.mk.injEq] at hsummary
  obtain ⟨hsymbols, hcycles, hreports⟩ := hsummary
  obtain ⟨t', h⟩ := Tree.exists_analyze_eq ha
  obtain ⟨repeated, reviewed, bound, circular, hparts, hrepeated, -, -, hcircular, hcount,
    hlength, -⟩ := reports_stage_by_stage h
  have hsize : (build "Module" "Module.yml" flawed).declarations.size = 4 := by decide +kernel
  exact ⟨t', analysis, repeated, reviewed, bound, circular, h, hparts, by omega, hrepeated,
    by omega, hcircular, hreports⟩

end Draft

end InfraModule
