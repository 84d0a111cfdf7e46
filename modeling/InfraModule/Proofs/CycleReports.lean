import InfraModule.Proofs.CycleLassos
import InfraModule.Proofs.CycleSignature

namespace InfraModule

open InfraModule.Graph Provider

namespace Cycle

variable {t : Tree} {c : Cycle} {cs cs' : List Cycle}

theorem exists_declarations (h : ∀ a ∈ c, a ∈ t.declIds) :
    ∃ ds, List.Forall₂ (fun a d ↦ t.decl? a = some d) c ds ∧
      ds.map Declaration.fullName = c.map t.nameOf := by
  induction c with
  | nil => exact ⟨[], .nil, rfl⟩
  | cons a c ih =>
    rw [List.forall_mem_cons] at h
    obtain ⟨d, hd⟩ := Option.isSome_iff_exists.mp (Tree.mem_declIds.mp h.1)
    obtain ⟨ds, hds, hnames⟩ := ih h.2
    refine ⟨d :: ds, .cons hd hds, ?_⟩
    rw [List.map_cons, List.map_cons, hnames, Tree.nameOf, hd, Option.elim_some]

/-- A report on a cycle has the full names of its members in order, and the first of them once
more. It stands where the first member does. -/
structure IsReport (t : Tree) (c : Cycle) (x : Diagnostic) : Prop where
  severity : x.severity = .error
  code : x.code = some "E0007"
  members : ∃ first rest, List.Forall₂ (fun a d ↦ t.decl? a = some d) c (first :: rest) ∧
    x.message = "circular dependency: " ++
      " -> ".intercalate ((first :: rest ++ [first]).map Declaration.fullName) ∧
    x.location = first.location

theorem isReport_report (h : IsElementaryCycle t.prerequisitesOf c) :
    IsReport t c (report t c) := by
  obtain ⟨ds, hds, hnames⟩ := exists_declarations fun a ↦ Tree.mem_declIds_of_mem_cycle h
  obtain ⟨a, c, rfl⟩ := List.exists_cons_of_ne_nil h.nonempty
  cases hds with
  | @cons _ d _ ds hd hds =>
    obtain ⟨hfirst, hrest⟩ := List.cons.inj hnames
    refine ⟨rfl, rfl, d, ds, .cons hd hds, ?_, ?_⟩
    · have hpath : (a :: c ++ [a]).map t.nameOf = (d :: ds ++ [d]).map Declaration.fullName := by
        simp [hfirst, hrest]
      rw [← hpath]
      rfl
    · simp [report, Problem.report, Diagnostic.coded, hd]

theorem distinct_eq_of_signatures (h : cs'.map (signature t) = cs.map (signature t)) :
    distinct t cs' = (firstPlaces (cs.map (signature t))).filterMap (cs'[·]?) := by
  rw [distinct_eq, representatives_eq, h]

theorem map_signature_of_rotated (h : List.Forall₂ (· ~r ·) cs cs') :
    cs'.map (signature t) = cs.map (signature t) := by
  induction h with
  | nil => rfl
  | cons hc _ ih => rw [List.map_cons, List.map_cons, ih, signature_congr hc.perm]

theorem isSome_distinct?_of_rotated (h : List.Forall₂ (· ~r ·) cs cs') :
    (distinct? t cs').isSome = (distinct? t cs).isSome := by
  have hperm : cs.flatten.Perm cs'.flatten := List.Perm.flatten_congr (h.imp fun _ _ ↦ (·.perm))
  have hknows : t.knows cs'.flatten = t.knows cs.flatten := hperm.symm.all_eq
  unfold distinct?
  rw [hknows]
  split <;> rfl

theorem mem_firstPlaces_signature {i : ℕ} : i ∈ firstPlaces (cs.map (signature t)) ↔
    ∃ c, cs[i]? = some c ∧ ∀ b ∈ cs.take i, signature t b ≠ signature t c := by
  rw [mem_firstPlaces]
  simp only [List.getElem?_map, Option.map_eq_some_iff, ← List.map_take, List.mem_map]
  constructor
  · rintro ⟨_, ⟨c, hc, rfl⟩, hnot⟩
    exact ⟨c, hc, fun b hb e ↦ hnot ⟨b, hb, e⟩⟩
  · rintro ⟨c, hc, hne⟩
    exact ⟨_, ⟨c, hc, rfl⟩, fun ⟨b, hb, e⟩ ↦ hne b hb e⟩

end Cycle

namespace Tree

open InfraModule.Cycle

variable {t : Tree} {c : Cycle}

def IsCircular (t : Tree) (c : Cycle) : Prop :=
  IsElementaryCycle t.prerequisitesOf c ∧ ∃ v ∈ c, ∃ w ∈ t.walk, t.SameComponent v w

theorem isCircular_of_mem_cycles (h : c ∈ t.cycles) : t.IsCircular c := by
  have helem := isElementaryCycle_of_mem_cycles h
  rw [cycles_eq_flatMap, List.mem_flatMap] at h
  obtain ⟨s, hs, hc⟩ := h
  have hwalk := mem_walk_of_mem_starts hs
  obtain ⟨v, hv⟩ := List.exists_mem_of_ne_nil c helem.nonempty
  exact ⟨helem, v, hv, s, hwalk, (sameComponent_of_mem_loopsAt hwalk hc v hv).symm⟩

theorem mem_signatures_iff {text : String} : text ∈ (distinct t t.cycles).map (signature t) ↔
    ∃ c, t.IsCircular c ∧ signature t c = text := by
  rw [List.mem_map]
  constructor
  · rintro ⟨c, hc, rfl⟩
    exact ⟨c, isCircular_of_mem_cycles (distinct_subset hc), rfl⟩
  · rintro ⟨c, ⟨hc, v, hv, w, hw, hvw, hwv⟩, rfl⟩
    obtain ⟨r, hr, hrot⟩ := exists_rotation_mem_cycles hc hv hw hvw hwv
    obtain ⟨k, hk, hkey⟩ := exists_mem_distinct (t := t) hr
    exact ⟨k, hk, hkey.trans (signature_congr hrot.perm.symm)⟩

/-- Of each signature that a circular dependency has, the first cycle that was found is reported, in
the order in which they were found, and the report says what it is. The analysis hands out their
number. Beginning the cycles elsewhere does not change which of them are kept. -/
theorem reports_one_for_each_signature (t : Tree) :
    (∃ kept : List Cycle, List.Forall₂ (IsReport t) kept t.reportCycles ∧
      kept.Sublist t.cycles ∧
      (∀ c ∈ kept, IsElementaryCycle t.prerequisitesOf c ∧
        t.cycles.find? (fun b ↦ signature t b = signature t c) = some c) ∧
      (kept.map (signature t)).Nodup ∧
      ∀ text, text ∈ kept.map (signature t) ↔ ∃ c, t.IsCircular c ∧ signature t c = text) ∧
    (∀ directory options t' a, t.analyze directory options = (t', .ok a) →
      ∃ earlier, a.diagnostics = earlier ++ t'.reportCycles ∧ a.cycles = t'.reportCycles.length) ∧
    ∀ cs cs' : List Cycle, List.Forall₂ (· ~r ·) cs cs' →
      (distinct? t cs').isSome = (distinct? t cs).isSome ∧
      ∃ places : List ℕ, places.Pairwise (· < ·) ∧
        (∀ i, i ∈ places ↔
          ∃ c, cs[i]? = some c ∧ ∀ b ∈ cs.take i, signature t b ≠ signature t c) ∧
        distinct t cs = places.filterMap (cs[·]?) ∧
        distinct t cs' = places.filterMap (cs'[·]?) := by
  refine ⟨⟨distinct t t.cycles, ?_, ?_, ?_, ?_, fun text ↦ mem_signatures_iff⟩, ?_, ?_⟩
  · rw [reportCycles_eq_map]
    refine List.forall₂_map_right_iff.mpr (List.forall₂_same.mpr fun c hc ↦ ?_)
    exact isReport_report (isElementaryCycle_of_mem_cycles (distinct_subset hc))
  · exact distinct_eq t t.cycles ▸ representatives_sublist _ _
  · intro c hc
    refine ⟨isElementaryCycle_of_mem_cycles (distinct_subset hc), ?_⟩
    rw [distinct_eq] at hc
    exact find?_of_mem_representatives hc
  · exact distinct_eq t t.cycles ▸ nodup_map_representatives _ _
  · intro directory options t' a h
    obtain ⟨w, b, -, rfl, rfl⟩ := analyze_eq_ok_iff.mp h
    exact ⟨b.log, rfl, rfl⟩
  · intro cs cs' h
    refine ⟨isSome_distinct?_of_rotated h, firstPlaces (cs.map (signature t)),
      pairwise_firstPlaces _, fun i ↦ mem_firstPlaces_signature, ?_, ?_⟩
    · exact distinct_eq_of_signatures rfl
    · exact distinct_eq_of_signatures (map_signature_of_rotated h)

end Tree

end InfraModule
