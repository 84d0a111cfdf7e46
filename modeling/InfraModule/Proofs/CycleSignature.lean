import InfraModule.Proofs.BindingExactness
import InfraModule.Proofs.CycleSearch
import Mathlib.Data.List.Sort
import Mathlib.Data.String.Basic

namespace InfraModule

open InfraModule.Graph Provider

namespace Cycle

variable {t : Tree} {c c' : Cycle} {cs : List Cycle}

theorem mergeSort_congr {ns ns' : List String} (h : ns.Perm ns') :
    ns.mergeSort = ns'.mergeSort := by
  have hperm := ((List.mergeSort_perm ns (· ≤ ·)).trans h).trans
    (List.mergeSort_perm ns' (· ≤ ·)).symm
  exact hperm.eq_of_pairwise' (List.pairwise_mergeSort' (· ≤ ·) ns)
    (List.pairwise_mergeSort' (· ≤ ·) ns')

/-- What the commas leave of the sorted names of the members. -/
def pieces (t : Tree) (c : Cycle) : List (List Char) :=
  (c.map t.nameOf).mergeSort.flatMap fun name ↦ name.toList.splitOn ','

theorem splitOn_intercalate_flatMap {xs : List (List Char)} (h : xs ≠ []) :
    ([','].intercalate xs).splitOn ',' = xs.flatMap (List.splitOn ',') := by
  induction xs with
  | nil => exact absurd rfl h
  | cons x xs ih =>
    cases xs with
    | nil => simp
    | cons y ys =>
      have hjoin : [','].intercalate (x :: y :: ys) = x ++ ',' :: [','].intercalate (y :: ys) := by
        simp [List.intercalate]
      rw [hjoin, List.splitOn_append_cons_self, ih (List.cons_ne_nil y ys)]
      rfl

theorem splitOn_signature (hc : c ≠ []) : (signature t c).toList.splitOn ',' = pieces t c := by
  have hne : (c.map t.nameOf).mergeSort.map String.toList ≠ [] := by
    rw [ne_eq, List.map_eq_nil_iff, ← List.length_eq_zero_iff, List.length_mergeSort,
      List.length_map, List.length_eq_zero_iff]
    exact hc
  rw [signature, String.toList_intercalate, pieces]
  exact (splitOn_intercalate_flatMap hne).trans (List.flatMap_map ..)

theorem signature_eq_iff (hc : c ≠ []) (hc' : c' ≠ []) :
    signature t c = signature t c' ↔ pieces t c = pieces t c' := by
  rw [← splitOn_signature hc, ← splitOn_signature hc']
  refine ⟨fun h ↦ by rw [h], fun h ↦ ?_⟩
  have hjoin := congrArg ([','].intercalate ·) h
  simp only [List.intercalate_splitOn] at hjoin
  exact String.toList_inj.mp hjoin

theorem pieces_congr (h : c.Perm c') : pieces t c = pieces t c' := by
  rw [pieces, pieces, mergeSort_congr (h.map t.nameOf)]

theorem signature_congr (h : c.Perm c') : signature t c = signature t c' := by
  rw [signature, signature, mergeSort_congr (h.map t.nameOf)]

def SameMembers (c c' : Cycle) : Prop := ∀ a, a ∈ c ↔ a ∈ c'

theorem SameMembers.symm (h : SameMembers c c') : SameMembers c' c := fun a ↦ (h a).symm

theorem SameMembers.trans {c'' : Cycle} (h : SameMembers c c') (h' : SameMembers c' c'') :
    SameMembers c c'' := fun a ↦ (h a).trans (h' a)

theorem sameMembers_of_isRotated (h : c ~r c') : SameMembers c c' := fun _ ↦ h.perm.mem_iff

theorem SameMembers.perm (h : SameMembers c c') (hc : c.Nodup) (hc' : c'.Nodup) : c.Perm c' :=
  (List.perm_ext_iff_of_nodup hc hc').mpr h

theorem pieces_of_no_comma (h : ∀ a ∈ c, ',' ∉ (t.nameOf a).toList) :
    pieces t c = (c.map t.nameOf).mergeSort.map String.toList := by
  have hsplit : ∀ name ∈ (c.map t.nameOf).mergeSort,
      name.toList.splitOn ',' = [name.toList] := by
    intro name hname
    rw [List.mem_mergeSort] at hname
    obtain ⟨a, ha, rfl⟩ := List.mem_map.mp hname
    exact List.splitOn_eq_singleton (h a ha)
  rw [pieces, List.flatMap_congr hsplit]
  exact List.map_eq_flatMap.symm

theorem sameMembers_of_pieces (hnames : (t.declIds.map t.nameOf).Nodup) (hc : c ⊆ t.declIds)
    (hc' : c' ⊆ t.declIds) (hcomma : ∀ a ∈ t.declIds, ',' ∉ (t.nameOf a).toList)
    (h : pieces t c = pieces t c') : SameMembers c c' := by
  rw [pieces_of_no_comma fun a ha ↦ hcomma a (hc ha),
    pieces_of_no_comma fun a ha ↦ hcomma a (hc' ha)] at h
  have hsorted := List.map_injective_iff.mpr (fun _ _ ↦ String.toList_injective) h
  have hperm : (c.map t.nameOf).Perm (c'.map t.nameOf) :=
    (hsorted ▸ List.mergeSort_perm _ _).symm.trans (List.mergeSort_perm _ _)
  have hmem {b b' : Cycle} (hb : b ⊆ t.declIds) (hb' : b' ⊆ t.declIds)
      (hbb' : (b.map t.nameOf).Perm (b'.map t.nameOf)) {a : DeclId} (ha : a ∈ b) : a ∈ b' := by
    obtain ⟨x, hx, hname⟩ := List.mem_map.mp (hbb'.mem_iff.mp (List.mem_map_of_mem ha))
    rwa [← List.inj_on_of_nodup_map hnames (hb' hx) (hb ha) hname]
  exact fun a ↦ ⟨hmem hc hc' hperm, hmem hc' hc hperm.symm⟩

theorem exists_mem_distinct (hc : c ∈ cs) :
    ∃ c' ∈ distinct t cs, signature t c' = signature t c :=
  distinct_eq t cs ▸ exists_representative (signature t) hc

theorem eq_of_signature_eq (hc : c ∈ distinct t cs) (hc' : c' ∈ distinct t cs)
    (h : signature t c = signature t c') : c = c' := by
  rw [distinct_eq] at hc hc'
  exact List.inj_on_of_nodup_map (nodup_map_representatives _ cs) hc hc' h

def KeepsMembers (t : Tree) (cs : List Cycle) : Prop :=
  ∀ c ∈ cs, ∃ c' ∈ distinct t cs, SameMembers c' c

/-- Of two cycles with the same pieces the members are the same. -/
def ToldApart (t : Tree) (P : Cycle → Prop) : Prop :=
  ∀ c c', P c → P c' → pieces t c = pieces t c' → SameMembers c c'

theorem keepsMembers_of_toldApart (hne : ∀ c ∈ cs, c ≠ []) (h : ToldApart t (· ∈ cs)) :
    KeepsMembers t cs := by
  intro c hc
  obtain ⟨c', hc', hsig⟩ := exists_mem_distinct (t := t) hc
  have hmem := distinct_subset hc'
  exact ⟨c', hc', h c' c hmem hc ((signature_eq_iff (hne c' hmem) (hne c hc)).mp hsig)⟩

theorem keepsMembers_iff (hcs : ∀ c ∈ cs, c ≠ [] ∧ c.Nodup) :
    KeepsMembers t cs ↔ ToldApart t (· ∈ cs) := by
  refine ⟨fun h c c' hc hc' hpieces ↦ ?_, keepsMembers_of_toldApart fun c hc ↦ (hcs c hc).1⟩
  obtain ⟨k, hk, hsame⟩ := h c hc
  obtain ⟨k', hk', hsame'⟩ := h c' hc'
  -- what is kept for each has its signature, so the same one is kept for both
  have hsig {b k : Cycle} (hb : b ∈ cs) (hk : k ∈ distinct t cs) (hsame : SameMembers k b) :
      signature t k = signature t b :=
    signature_congr (hsame.perm (hcs k (distinct_subset hk)).2 (hcs b hb).2)
  have hkk' : k = k' := by
    apply eq_of_signature_eq hk hk'
    rw [hsig hc hk hsame, hsig hc' hk' hsame', signature_eq_iff (hcs c hc).1 (hcs c' hc').1]
    exact hpieces
  subst hkk'
  exact hsame.symm.trans hsame'

end Cycle

namespace Tree

open InfraModule.Cycle

variable {t t' : Tree}

theorem Grows.nameOf_eq (h : t.Grows t') : t'.nameOf = t.nameOf := by
  funext id
  unfold nameOf
  rcases h.decl?_cases id with ⟨hd, hd'⟩ | ⟨d, d', hd, hd', hg⟩
  · rw [hd, hd']
  · simp only [hd, hd', Option.elim_some, hg.fullName]

theorem Grows.pieces_eq (h : t.Grows t') (c : Cycle) : pieces t' c = pieces t c := by
  rw [pieces, pieces, h.nameOf_eq]

def ReportsMembers (t : Tree) : Prop := ∀ c, IsElementaryCycle t.prerequisitesOf c →
  ∃ c' ∈ distinct t t.cycles, SameMembers c' c

theorem reportsMembers_iff (hw : ∀ a ∈ t.declIds, a ∈ t.walk) :
    t.ReportsMembers ↔ ToldApart t (IsElementaryCycle t.prerequisitesOf) := by
  have hfound (c : Cycle) (hc : IsElementaryCycle t.prerequisitesOf c) :
      ∃ r ∈ t.cycles, c ~r r := by
    obtain ⟨v, hv⟩ := List.exists_mem_of_ne_nil c hc.nonempty
    have hwalk := hw v (mem_declIds_of_mem_cycle hc hv)
    exact exists_rotation_mem_cycles hc hv hwalk .refl .refl
  have hkeeps : KeepsMembers t t.cycles ↔ ToldApart t (· ∈ t.cycles) := by
    refine keepsMembers_iff fun c hc ↦ ?_
    have helem := isElementaryCycle_of_mem_cycles hc
    exact ⟨helem.nonempty, helem.nodup⟩
  constructor
  · intro h c c' hc hc' hpieces
    obtain ⟨r, hr, hrot⟩ := hfound c hc
    obtain ⟨r', hr', hrot'⟩ := hfound c' hc'
    have hapart := hkeeps.mp fun c hc ↦ h c (isElementaryCycle_of_mem_cycles hc)
    have hrr' : pieces t r = pieces t r' := by
      rw [← pieces_congr hrot.perm, hpieces, pieces_congr hrot'.perm]
    exact (sameMembers_of_isRotated hrot).trans
      ((hapart r r' hr hr' hrr').trans (sameMembers_of_isRotated hrot').symm)
  · intro h c hc
    obtain ⟨r, hr, hrot⟩ := hfound c hc
    obtain ⟨c', hc', hsame⟩ := hkeeps.mpr (fun c c' hc hc' ↦
      h c c' (isElementaryCycle_of_mem_cycles hc) (isElementaryCycle_of_mem_cycles hc')) r hr
    exact ⟨c', hc', hsame.trans (sameMembers_of_isRotated hrot).symm⟩

def NamedApart (t : Tree) : Prop := (t.declIds.map t.nameOf).Nodup

end Tree

namespace Draft

open InfraModule.Cycle

variable {name file : String} {statements : List Statement}

theorem exists_grows_of_analyze {directory : Directory} {options : Options} {t' : Tree}
    {a : Analysis} (h : (build name file statements).analyze directory options = (t', .ok a)) :
    (build name file statements).Grows t' ∧ (∀ id ∈ t'.declIds, id ∈ t'.walk) ∧
      ∃ earlier, a.diagnostics = earlier ++ t'.reportCycles := by
  obtain ⟨w, b, hst, rfl, rfl⟩ := Tree.analyze_eq_ok_iff.mp h
  obtain ⟨_, hdraft, hroot⟩ := exists_drafted_build name file statements
  have hgrows := hst.grows hdraft.closed
  refine ⟨hgrows, fun id hid ↦ ?_, b.log, rfl⟩
  rw [hgrows.walk_eq]
  rw [Tree.mem_declIds, hgrows.isSome_decl?] at hid
  exact hdraft.mem_walk hroot hid

/-- Cycles are merged only with cycles of the same members exactly where the pieces of their names
tell them apart, and so they do when no name has a comma. -/
theorem merged_only_with_same_members_iff (hnames : (build name file statements).NamedApart) :
    let t := build name file statements
    (∀ cs : List Cycle, (∀ c ∈ cs, c ≠ [] ∧ c.Nodup) →
      (KeepsMembers t cs ↔ ToldApart t (· ∈ cs))) ∧
    (∀ directory options t' a, t.analyze directory options = (t', .ok a) →
      (∃ earlier, a.diagnostics = earlier ++ (distinct t' t'.cycles).map (Cycle.report t')) ∧
      (t'.ReportsMembers ↔ ToldApart t (IsElementaryCycle t'.prerequisitesOf))) ∧
    ((∀ id ∈ t.declIds, ',' ∉ (t.nameOf id).toList) →
      (∀ cs : List Cycle, (∀ c ∈ cs, c ≠ [] ∧ c ⊆ t.declIds) → KeepsMembers t cs) ∧
      ∀ directory options t' a, t.analyze directory options = (t', .ok a) →
        t'.ReportsMembers) := by
  intro t
  have hreports (directory options t' a) (h : t.analyze directory options = (t', .ok a)) :
      t'.ReportsMembers ↔ ToldApart t (IsElementaryCycle t'.prerequisitesOf) := by
    obtain ⟨hgrows, hwalk, -⟩ := exists_grows_of_analyze h
    rw [Tree.reportsMembers_iff hwalk]
    simp only [ToldApart, hgrows.pieces_eq]
    rfl
  refine ⟨fun cs hcs ↦ keepsMembers_iff hcs, fun directory options t' a h ↦ ?_, fun hcomma ↦ ?_⟩
  · refine ⟨?_, hreports directory options t' a h⟩
    rw [← Tree.reportCycles_eq_map]
    exact (exists_grows_of_analyze h).2.2
  refine ⟨fun cs hcs ↦ ?_, fun directory options t' a h ↦ ?_⟩
  · refine keepsMembers_of_toldApart (fun c hc ↦ (hcs c hc).1) fun c c' hc hc' hpieces ↦ ?_
    exact sameMembers_of_pieces hnames (hcs c hc).2 (hcs c' hc').2 hcomma hpieces
  · have hgrows := (exists_grows_of_analyze h).1
    have hsub {c : Cycle} (hc : IsElementaryCycle t'.prerequisitesOf c) : c ⊆ t.declIds :=
      fun x hx ↦ hgrows.declIds_eq ▸ Tree.mem_declIds_of_mem_cycle hc hx
    refine (hreports directory options t' a h).mpr fun c c' hc hc' ↦ ?_
    exact sameMembers_of_pieces hnames (hsub hc) (hsub hc') hcomma

/-- Two resources that wait for each other, and one that waits for itself and whose name is their
two names with a comma between them. -/
def entangled : List Statement :=
  [.declare "A" (.resource ⟨some "Custom::Box", none, none, none, ["B"]⟩),
    .declare "B" (.resource ⟨some "Custom::Box", none, none, none, ["A"]⟩),
    .declare "A,B" (.resource ⟨some "Custom::Box", none, none, none, ["A,B"]⟩)]

theorem merged_only_with_same_members_iff_entangled :
    (build "Module" "Module.yml" entangled).NamedApart ∧ ∃ t' a,
      (build "Module" "Module.yml" entangled).analyze .empty .standard = (t', .ok a) ∧
      t'.cycles = [[⟨1⟩, ⟨2⟩], [⟨3⟩]] ∧ a.cycles = 1 ∧ ¬ t'.ReportsMembers := by
  let t := build "Module" "Module.yml" entangled
  have hnames : t.NamedApart := by
    unfold Tree.NamedApart
    decide +kernel
  have hpieces : pieces t [⟨1⟩, ⟨2⟩] = pieces t [⟨3⟩] := by
    rw [pieces, pieces, List.mergeSort_eq_insertionSort (· ≤ ·),
      List.mergeSort_eq_insertionSort (· ≤ ·)]
    decide +kernel
  have hrun : (t.analyze .empty .standard).2.toOption.isSome := by decide +kernel
  have hcycles : (t.analyze .empty .standard).1.cycles = [[⟨1⟩, ⟨2⟩], [⟨3⟩]] := by
    decide +kernel
  obtain ⟨a, ha⟩ := Option.isSome_iff_exists.mp hrun
  obtain ⟨t', h⟩ := Tree.exists_analyze_eq ha
  rw [h] at hcycles
  obtain ⟨hgrows, -⟩ := exists_grows_of_analyze h
  have hsignature : signature t' [⟨3⟩] = signature t' [⟨1⟩, ⟨2⟩] := by
    rw [signature_eq_iff (by simp) (by simp), hgrows.pieces_eq, hgrows.pieces_eq]
    exact hpieces.symm
  have hone : a.cycles = 1 := by
    obtain ⟨w, b, -, rfl, rfl⟩ := Tree.analyze_eq_ok_iff.mp h
    rw [Tree.conclusion, Tree.reportCycles_eq_map, List.length_map, distinct_eq, hcycles]
    simp [representatives, hsignature]
  refine ⟨hnames, t', a, h, hcycles, hone, fun hreports ↦ ?_⟩
  have hapart := ((merged_only_with_same_members_iff hnames).2.1 _ _ t' a h).2.mp hreports
  have helem {c : Cycle} (hc : c ∈ t'.cycles) := Tree.isElementaryCycle_of_mem_cycles hc
  have hsame := hapart [⟨1⟩, ⟨2⟩] [⟨3⟩] (helem (by simp [hcycles])) (helem (by simp [hcycles]))
    hpieces
  exact absurd ((hsame ⟨1⟩).mp (by simp)) (by simp)

end Draft

end InfraModule
