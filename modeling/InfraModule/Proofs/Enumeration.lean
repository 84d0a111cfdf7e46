import Mathlib.Data.List.Nodup

namespace InfraModule

variable {ι κ α γ : Type} {as bs : List α} {R R' : ι → α → Prop}

/-- `Enumerates as R`: there is one entry in `as` for each index that `R` relates to an entry, and
it is that entry. -/
def Enumerates (as : List α) (R : ι → α → Prop) : Prop :=
  ∃ pairs : List (ι × α), (pairs.map Prod.fst).Nodup ∧ (∀ i a, (i, a) ∈ pairs ↔ R i a) ∧
    as = pairs.map Prod.snd

namespace Enumerates

theorem mem_iff (h : Enumerates as R) {a : α} : a ∈ as ↔ ∃ i, R i a := by
  obtain ⟨pairs, -, hpairs, rfl⟩ := h
  simp [← hpairs]

theorem congr (h : Enumerates as R) (hR : ∀ i a, R' i a ↔ R i a) : Enumerates as R' := by
  obtain ⟨pairs, hnodup, hpairs, has⟩ := h
  exact ⟨pairs, hnodup, fun i a ↦ (hpairs i a).trans (hR i a).symm, has⟩

theorem nil (h : ∀ i a, ¬ R i a) : Enumerates [] R :=
  ⟨[], List.nodup_nil, fun i a ↦ by simp [h i a], rfl⟩

theorem singleton {i : ι} {a : α} (h : ∀ j b, R j b ↔ j = i ∧ b = a) : Enumerates [a] R :=
  ⟨[(i, a)], List.nodup_singleton i, fun j b ↦ by simp [h j b], rfl⟩

theorem map_of_nodup {is : List ι} (h : is.Nodup) (f : ι → α) :
    Enumerates (is.map f) fun i a ↦ i ∈ is ∧ a = f i := by
  refine ⟨is.map fun i ↦ (i, f i), by simpa [Function.comp_def] using h, fun i a ↦ ?_, by simp⟩
  simp only [List.mem_map, Prod.mk.injEq]
  constructor
  · rintro ⟨j, hj, rfl, rfl⟩
    exact ⟨hj, rfl⟩
  · rintro ⟨hi, rfl⟩
    exact ⟨i, hi, rfl, rfl⟩

theorem append (h : Enumerates as R) (h' : Enumerates bs R')
    (hapart : ∀ i a b, R i a → ¬ R' i b) : Enumerates (as ++ bs) fun i a ↦ R i a ∨ R' i a := by
  obtain ⟨pairs, hnodup, hpairs, rfl⟩ := h
  obtain ⟨pairs', hnodup', hpairs', rfl⟩ := h'
  refine ⟨pairs ++ pairs', ?_, fun i a ↦ ?_, List.map_append.symm⟩
  · rw [List.map_append]
    refine hnodup.append hnodup' fun i hi hi' ↦ ?_
    obtain ⟨⟨i, a⟩, ha, rfl⟩ := List.mem_map.mp hi
    obtain ⟨⟨j, b⟩, hb, rfl⟩ := List.mem_map.mp hi'
    exact hapart j a b ((hpairs j a).mp ha) ((hpairs' j b).mp hb)
  · rw [List.mem_append, hpairs, hpairs']

/-- What is enumerated for each member of a list is enumerated in turn, as long as each index tells
which member it belongs to. -/
theorem flatMap {xs : List γ} {f : γ → List α} {S : γ → ι → α → Prop} (key : γ → κ)
    (h : ∀ x ∈ xs, Enumerates (f x) (S x)) (hkeys : (xs.map key).Nodup)
    (hapart : ∀ x y i a b, S x i a → S y i b → key x = key y) :
    Enumerates (xs.flatMap f) fun i a ↦ ∃ x ∈ xs, S x i a := by
  induction xs with
  | nil => exact nil (by simp)
  | cons x xs ih =>
    rw [List.forall_mem_cons] at h
    rw [List.map_cons, List.nodup_cons] at hkeys
    rw [List.flatMap_cons]
    refine (h.1.append (ih h.2 hkeys.2) ?_).congr fun i a ↦ by simp
    rintro i a b ha ⟨y, hy, hb⟩
    exact hkeys.1 (List.mem_map.mpr ⟨y, hy, (hapart x y i a b ha hb).symm⟩)

theorem reindex (h : Enumerates as R) {g : ι → κ} (hg : Function.Injective g) :
    Enumerates as fun k a ↦ ∃ i, k = g i ∧ R i a := by
  obtain ⟨pairs, hnodup, hpairs, rfl⟩ := h
  refine ⟨pairs.map fun x ↦ (g x.1, x.2), ?_, fun k a ↦ ?_, by simp⟩
  · simpa [Function.comp_def] using hnodup.map hg
  · simp [← hpairs, eq_comm, and_comm]

theorem flatMap_places {xs : List γ} {f : γ → List α} {S : γ → ι → α → Prop}
    (h : ∀ x ∈ xs, Enumerates (f x) (S x)) :
    Enumerates (xs.flatMap f) fun (place : ℕ × ι) a ↦
      ∃ x, xs[place.1]? = some x ∧ S x place.2 a := by
  have hplaced : Enumerates (xs.zipIdx.flatMap fun x ↦ f x.1) fun (place : ℕ × ι) a ↦
      ∃ x ∈ xs.zipIdx, ∃ i, place = (x.2, i) ∧ S x.1 i a := by
    refine flatMap Prod.snd (fun x hx ↦ ?_) ?_ ?_
    · exact (h x.1 (List.fst_mem_of_mem_zipIdx hx)).reindex (fun _ _ heq ↦ congrArg Prod.snd heq)
    · rw [List.zipIdx_map_snd]
      exact List.nodup_range'
    · rintro x y place a b ⟨i, rfl, -⟩ ⟨j, hj, -⟩
      exact congrArg Prod.fst hj
  have hlist : xs.flatMap f = xs.zipIdx.flatMap fun x ↦ f x.1 := by
    conv_lhs => rw [← List.zipIdx_map_fst 0 xs, List.flatMap_map]
  rw [hlist]
  refine hplaced.congr fun place a ↦ ?_
  constructor
  · rintro ⟨x, hx, ha⟩
    exact ⟨(x, place.1), List.mem_zipIdx_iff_getElem?.mpr hx, place.2, rfl, ha⟩
  · rintro ⟨x, hx, i, rfl, ha⟩
    exact ⟨x.1, List.mem_zipIdx_iff_getElem?.mp hx, ha⟩

end Enumerates

end InfraModule
