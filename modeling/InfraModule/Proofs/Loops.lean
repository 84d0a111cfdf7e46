import InfraModule.Proofs.ComponentSearch
import Mathlib.Data.List.Chain
import Mathlib.Logic.Relation

namespace InfraModule.Graph

open Relation

variable {α : Type} {next : α → List α}

/-- A chain of successors that comes back to its beginning and passes no vertex twice. -/
structure IsElementaryCycle (next : α → List α) (c : List α) : Prop where
  nonempty : c ≠ []
  nodup : c.Nodup
  closed : (c ++ c.take 1).IsChain fun a b ↦ b ∈ next a

theorem IsElementaryCycle.rotate {as bs : List α} (h : IsElementaryCycle next (as ++ bs)) :
    IsElementaryCycle next (bs ++ as) := by
  have hp : (as ++ bs).Perm (bs ++ as) := List.perm_append_comm
  refine ⟨fun e ↦ h.nonempty (List.append_eq_nil_iff.mpr (List.append_eq_nil_iff.mp e).symm),
    hp.nodup_iff.mp h.nodup, ?_⟩
  have hc := h.closed
  cases as with
  | nil => simpa using hc
  | cons a as =>
    cases bs with
    | nil => simpa using hc
    | cons b bs =>
      have hs : (a :: as ++ b :: (bs ++ [a])).IsChain fun a b ↦ b ∈ next a := by simpa using hc
      obtain ⟨h₁, h₂⟩ := List.isChain_split.mp hs
      have ht : (b :: bs ++ a :: (as ++ [b])).IsChain fun a b ↦ b ∈ next a :=
        List.isChain_split.mpr ⟨h₂, h₁⟩
      simpa using ht

theorem exists_rel_of_isChain {R : α → α → Prop} {as : List α} {b : α}
    (h : (as ++ [b]).IsChain R) {a : α} (ha : a ∈ as) : ∃ c, R a c := by
  obtain ⟨xs, ys, rfl⟩ := List.append_of_mem ha
  rw [List.append_assoc] at h
  have hr := h.right_of_append
  cases ys with
  | nil => exact ⟨b, by simpa using hr⟩
  | cons y ys => exact ⟨y, by simp_all⟩

theorem IsElementaryCycle.mono {next' : α → List α} {c : List α} (h : IsElementaryCycle next c)
    (hn : ∀ a ∈ c, ∀ b ∈ c, b ∈ next a → b ∈ next' a) : IsElementaryCycle next' c := by
  refine ⟨h.nonempty, h.nodup, h.closed.imp_of_mem_imp ?_⟩
  intro a b ha hb hab
  have hmem : ∀ x ∈ c ++ c.take 1, x ∈ c := by
    intro x hx
    rcases List.mem_append.mp hx with hx | hx
    · exact hx
    · exact List.mem_of_mem_take hx
  exact hn a (hmem a ha) b (hmem b hb) hab

theorem IsElementaryCycle.reflTransGen {c : List α} (h : IsElementaryCycle next c) {a b : α}
    (ha : a ∈ c) (hb : b ∈ c) : ReflTransGen (fun a b ↦ b ∈ next a) a b := by
  obtain ⟨as, bs, rfl⟩ := List.append_of_mem ha
  have hc : (a :: (bs ++ as)).IsChain (ReflTransGen fun a b ↦ b ∈ next a) :=
    h.rotate.closed.left_of_append.imp fun _ _ ↦ .single
  have hb' : b = a ∨ b ∈ bs ++ as := by
    simpa [or_comm, or_assoc, or_left_comm] using hb
  rcases hb' with rfl | hb'
  · exact .refl
  · exact hc.rel_cons hb'

/-- A way to a set of vertices can be cut down to one that passes no vertex twice and meets the
set at its end alone. -/
theorem exists_path_to {R : α → α → Prop} {S : α → Prop} {a b : α} (h : ReflTransGen R a b)
    (hb : S b) : ∃ path v, S v ∧ (∀ x ∈ path, ¬ S x) ∧ path.Nodup ∧ (path ++ [v]).IsChain R ∧
      (path ++ [v]).head? = some a := by
  classical
  induction h using ReflTransGen.head_induction_on with
  | refl => exact ⟨[], b, hb, by simp, .nil, by simp, rfl⟩
  | @head a c hac _ ih =>
    obtain ⟨path, v, hv, hout, hnd, hchain, hhead⟩ := ih
    by_cases ha : S a
    · exact ⟨[], a, ha, by simp, .nil, by simp, rfl⟩
    by_cases hmem : a ∈ path
    · -- the way has been at `a` before: the part up to there is cut off
      obtain ⟨as, bs, rfl⟩ := List.append_of_mem hmem
      refine ⟨a :: bs, v, hv, fun x hx ↦ hout x (List.mem_append_right as hx),
        (List.nodup_append.mp hnd).2.1, ?_, rfl⟩
      rw [List.append_assoc] at hchain
      exact hchain.right_of_append
    · refine ⟨a :: path, v, hv, List.forall_mem_cons.mpr ⟨ha, hout⟩,
        List.nodup_cons.mpr ⟨hmem, hnd⟩, ?_, rfl⟩
      rw [List.cons_append, List.isChain_cons]
      refine ⟨fun y hy ↦ ?_, hchain⟩
      rw [hhead, Option.mem_some_iff] at hy
      exact hy ▸ hac

theorem exists_isElementaryCycle {a : α} (h : TransGen (fun a b ↦ b ∈ next a) a a) :
    ∃ c, IsElementaryCycle next c ∧ a ∈ c := by
  obtain ⟨b, hab, hba⟩ := TransGen.head'_iff.mp h
  obtain ⟨path, v, rfl, hout, hnodup, hchain, hhead⟩ := exists_path_to (S := (· = a)) hba rfl
  refine ⟨v :: path, ⟨List.cons_ne_nil v path, ?_, ?_⟩, List.mem_cons_self⟩
  · exact List.nodup_cons.mpr ⟨fun hv ↦ hout v hv rfl, hnodup⟩
  · refine List.isChain_cons.mpr ⟨fun y hy ↦ ?_, hchain⟩
    cases hhead.symm.trans hy
    exact hab

theorem IsElementaryCycle.exists_transGen {c : List α} (h : IsElementaryCycle next c) :
    ∃ a ∈ c, TransGen (fun a b ↦ b ∈ next a) a a := by
  obtain ⟨a, rest, rfl⟩ := List.exists_cons_of_ne_nil h.nonempty
  refine ⟨a, List.mem_cons_self, ?_⟩
  have hc := h.closed
  cases rest with
  | nil => exact .single (by simpa using hc)
  | cons b rest =>
    have hab : b ∈ next a := (List.isChain_cons_cons.mp hc).1
    exact .head' hab (h.reflTransGen (by simp) (by simp))

variable [DecidableEq α]

/-- Where the path has come back to one of its vertices, the loop that it closes there; where not,
the loops that are closed after going on. -/
def loopsFrom (next : α → List α) : ℕ → List α → α → List (List α)
  | 0, _, _ => []
  | depth + 1, path, a =>
    if a ∈ path then [path.dropWhile (· ≠ a)]
    else (next a).flatMap (loopsFrom next depth (path ++ [a]))

theorem loopsFrom_sound {depth : ℕ} {path : List α} {a : α} (hp : path.Nodup)
    (hc : (path ++ [a]).IsChain fun a b ↦ b ∈ next a) :
    ∀ c ∈ loopsFrom next depth path a, IsElementaryCycle next c := by
  induction depth generalizing path a with
  | zero => simp [loopsFrom]
  | succ depth ih =>
    intro c h
    rw [loopsFrom] at h
    split at h
    next ha =>
      obtain ⟨as, bs, rfl, hdrop⟩ := dropWhile_ne_of_mem ha
      rw [hdrop, List.mem_singleton] at h
      subst h
      rw [List.append_assoc] at hc
      exact ⟨by simp, (List.nodup_append.mp hp).2.1, hc.right_of_append⟩
    next ha =>
      obtain ⟨b, hb, h⟩ := List.mem_flatMap.mp h
      refine ih ?_ ?_ c h
      · simpa using hp.concat ha
      · rw [List.append_assoc]
        exact List.isChain_split.mpr ⟨hc, by simpa using hb⟩

theorem mem_loopsFrom {depth : ℕ} {path rest : List α} {a b : α}
    (hc : (a :: rest ++ [b]).IsChain fun a b ↦ b ∈ next a) (hp : (path ++ a :: rest).Nodup)
    (hb : b ∈ path ++ a :: rest) (hd : rest.length + 2 ≤ depth) :
    (path ++ a :: rest).dropWhile (· ≠ b) ∈ loopsFrom next depth path a := by
  induction rest generalizing depth path a with
  | nil =>
    obtain ⟨depth, rfl⟩ : ∃ d, depth = d + 2 := ⟨depth - 2, by simp at hd; omega⟩
    have ha : a ∉ path := by grind
    rw [loopsFrom, if_neg ha, List.mem_flatMap]
    refine ⟨b, by simpa using hc, ?_⟩
    rw [loopsFrom, if_pos hb]
    exact List.mem_singleton_self _
  | cons c rest ih =>
    obtain ⟨depth, rfl⟩ : ∃ d, depth = d + 1 := ⟨depth - 1, by simp at hd; omega⟩
    have ha : a ∉ path := by grind
    rw [loopsFrom, if_neg ha, List.mem_flatMap]
    rw [List.cons_append, List.cons_append, List.isChain_cons_cons] at hc
    refine ⟨c, hc.1, ?_⟩
    have hsplit : path ++ a :: c :: rest = (path ++ [a]) ++ c :: rest := by simp
    rw [hsplit] at hp hb ⊢
    exact ih hc.2 hp hb (by simp at hd; omega)

end InfraModule.Graph
