import InfraModule.Graph.Representative
import Mathlib.Data.List.Nodup
import Mathlib.Data.List.Range

namespace InfraModule.Graph

variable {α β γ : Type} [DecidableEq β]

theorem representatives_sublist (key : α → β) (as : List α) :
    (representatives key as).Sublist as := by
  induction as with
  | nil => exact .slnil
  | cons a as ih => exact (List.filter_sublist.trans ih).cons_cons a

theorem representatives_subset (key : α → β) (as : List α) : representatives key as ⊆ as :=
  (representatives_sublist key as).subset

theorem representatives_eq_nil {key : α → β} {as : List α} :
    representatives key as = [] ↔ as = [] := by
  cases as <;> simp [representatives]

theorem exists_representative (key : α → β) {as : List α} {a : α} (ha : a ∈ as) :
    ∃ b ∈ representatives key as, key b = key a := by
  induction as with
  | nil => simp at ha
  | cons c as ih =>
    rw [representatives]
    by_cases hk : key a = key c
    · exact ⟨c, List.mem_cons_self, hk.symm⟩
    · have ha' : a ∈ as := by grind
      obtain ⟨b, hb, hkb⟩ := ih ha'
      refine ⟨b, List.mem_cons_of_mem c (List.mem_filter.mpr ⟨hb, ?_⟩), hkb⟩
      simpa [hkb] using hk

theorem nodup_map_representatives (key : α → β) (as : List α) :
    ((representatives key as).map key).Nodup := by
  induction as with
  | nil => exact List.nodup_nil
  | cons a as ih =>
    rw [representatives, List.map_cons, List.nodup_cons]
    refine ⟨fun ha ↦ ?_, ih.sublist (List.filter_sublist.map key)⟩
    obtain ⟨b, hb, hkey⟩ := List.mem_map.mp ha
    simp [hkey] at hb

theorem mem_representatives {key : α → β} {as : List α} {a : α} :
    a ∈ representatives key as ↔
      ∃ before after, as = before ++ a :: after ∧ ∀ b ∈ before, key b ≠ key a := by
  induction as with
  | nil => simp [representatives]
  | cons c as ih =>
    rw [representatives, List.mem_cons, List.mem_filter, ih, decide_eq_true_iff]
    constructor
    · rintro (rfl | ⟨⟨before, after, rfl, hb⟩, hne⟩)
      · exact ⟨[], as, rfl, by simp⟩
      · exact ⟨c :: before, after, rfl, List.forall_mem_cons.mpr ⟨hne.symm, hb⟩⟩
    · rintro ⟨before, after, hsplit, hb⟩
      cases before with
      | nil =>
        obtain ⟨rfl, -⟩ := List.cons.inj hsplit
        exact .inl rfl
      | cons d before =>
        obtain ⟨rfl, rfl⟩ := List.cons.inj hsplit
        rw [List.forall_mem_cons] at hb
        exact .inr ⟨⟨before, after, rfl, hb.2⟩, hb.1.symm⟩

theorem representatives_concat (key : α → β) (as : List α) (a : α) :
    representatives key (as ++ [a]) =
      representatives key as ++ if key a ∈ as.map key then [] else [a] := by
  induction as with
  | nil => rfl
  | cons b as ih =>
    rw [List.cons_append, representatives, ih, representatives, List.filter_append,
      List.cons_append]
    by_cases hab : key a = key b
    · simp [hab, apply_ite (List.filter _)]
    · simp [hab, apply_ite (List.filter _)]

theorem find?_of_mem_representatives {key : α → β} {as : List α} {a : α}
    (h : a ∈ representatives key as) : as.find? (fun b ↦ key b = key a) = some a := by
  obtain ⟨before, after, hsplit, hb⟩ := mem_representatives.mp h
  exact List.find?_eq_some_iff_append.mpr ⟨by simp, before, after, hsplit, by simpa using hb⟩

theorem representatives_map (key : γ → β) (f : α → γ) (as : List α) :
    representatives key (as.map f) = (representatives (fun a ↦ key (f a)) as).map f := by
  induction as with
  | nil => rfl
  | cons a as ih =>
    rw [List.map_cons, representatives, ih, representatives, List.map_cons, List.filter_map]
    rfl

def firstPlaces (keys : List β) : List ℕ :=
  (representatives Prod.fst keys.zipIdx).map Prod.snd

theorem pairwise_firstPlaces (keys : List β) : (firstPlaces keys).Pairwise (· < ·) := by
  have hplaces : (firstPlaces keys).Sublist (List.range' 0 keys.length) := by
    rw [← List.zipIdx_map_snd 0 keys]
    exact (representatives_sublist Prod.fst keys.zipIdx).map Prod.snd
  exact (List.pairwise_lt_range' 1).sublist hplaces

theorem mem_firstPlaces {keys : List β} {i : ℕ} :
    i ∈ firstPlaces keys ↔ ∃ k, keys[i]? = some k ∧ k ∉ keys.take i := by
  simp only [firstPlaces, List.mem_map, Prod.exists, exists_eq_right, mem_representatives]
  refine exists_congr fun k ↦ ⟨?_, ?_⟩
  · rintro ⟨before, after, hsplit, hb⟩
    have hget : keys[i]? = some k := by
      rw [← List.mk_mem_zipIdx_iff_getElem?, hsplit]
      simp
    have hlength : before.length = i := by
      have hplace := congrArg (fun l ↦ (l[before.length]?).map Prod.snd) hsplit
      exact (show _ ∧ before.length = i by simpa using hplace).2
    have htake : keys.take i = before.map Prod.fst := by
      rw [← List.zipIdx_map_fst 0 keys, hsplit, ← hlength]
      simp
    refine ⟨hget, fun hk ↦ ?_⟩
    rw [htake] at hk
    obtain ⟨x, hx, rfl⟩ := List.mem_map.mp hk
    exact hb x hx rfl
  · rintro ⟨hget, hk⟩
    obtain ⟨hi, rfl⟩ := List.getElem?_eq_some_iff.mp hget
    have hi' : i < keys.zipIdx.length := by simpa using hi
    refine ⟨keys.zipIdx.take i, keys.zipIdx.drop (i + 1), ?_, fun x hx e ↦ hk ?_⟩
    · conv_lhs => rw [← List.take_append_drop i keys.zipIdx, List.drop_eq_getElem_cons hi']
      rw [List.getElem_zipIdx, Nat.zero_add]
    · have htake : (keys.zipIdx.take i).map Prod.fst = keys.take i := by
        rw [List.map_take, List.zipIdx_map_fst]
      exact htake ▸ List.mem_map.mpr ⟨x, hx, e⟩

theorem representatives_eq (key : α → β) (as : List α) :
    representatives key as = (firstPlaces (as.map key)).filterMap (as[·]?) := by
  have hkept : representatives key as =
      (representatives (fun x ↦ key x.1) as.zipIdx).map Prod.fst := by
    rw [← representatives_map, List.zipIdx_map_fst]
  have hplaces : firstPlaces (as.map key) =
      (representatives (fun x ↦ key x.1) as.zipIdx).map Prod.snd := by
    rw [firstPlaces, List.zipIdx_map, representatives_map, List.map_map]
    rfl
  rw [hkept, hplaces, List.filterMap_map, ← List.filterMap_eq_map]
  refine List.filterMap_congr fun x hx ↦ ?_
  exact (List.mem_zipIdx_iff_getElem?.mp (representatives_subset _ _ hx)).symm

end InfraModule.Graph
