import InfraModule.Graph.Preorder
import Mathlib.Data.List.Basic

namespace InfraModule.Graph

variable {α : Type}

/-- `Reaches next vertices starts a`: some way leads from a start to `a` through vertices alone. -/
inductive Reaches (next : α → List α) (vertices starts : List α) : α → Prop
  | start {a : α} : a ∈ starts → a ∈ vertices → Reaches next vertices starts a
  | step {a b : α} :
      Reaches next vertices starts a → b ∈ next a → b ∈ vertices → Reaches next vertices starts b

variable {next : α → List α}

theorem Reaches.mem {vertices starts : List α} {a : α} (h : Reaches next vertices starts a) :
    a ∈ vertices := by
  cases h with
  | start _ ha => exact ha
  | step _ _ ha => exact ha

variable [DecidableEq α]

@[simp]
theorem preorderFrom_nil (n : ℕ) (fresh : List α) : preorderFrom next n fresh [] = [] := by
  cases n <;> rfl

theorem preorderFrom_visit {n : ℕ} {fresh rest : List α} {a : α} (h : a ∈ fresh) :
    preorderFrom next (n + 1) fresh (a :: rest) =
      a :: preorderFrom next n (fresh.erase a) (next a ++ rest) := by
  simp [preorderFrom, h]

theorem preorderFrom_pass {n : ℕ} {fresh rest : List α} {a : α} (h : a ∉ fresh) :
    preorderFrom next n fresh (a :: rest) = preorderFrom next n fresh rest := by
  cases n with
  | zero => rfl
  | succ n => simp [preorderFrom, h]

/-- Induction along a walk that has visits enough: what is on top of the stack is passed over or
visited. -/
theorem walk_induction (next : α → List α)
    {motive : (n : ℕ) → (fresh stack : List α) → fresh.length ≤ n → Prop}
    (nil : ∀ n fresh hn, motive n fresh [] hn)
    (pass : ∀ n fresh a rest hn, a ∉ fresh → motive n fresh rest hn →
      motive n fresh (a :: rest) hn)
    (visit : ∀ n fresh a rest hn hl, a ∈ fresh → motive n (fresh.erase a) (next a ++ rest) hl →
      motive (n + 1) fresh (a :: rest) hn)
    (n : ℕ) (fresh stack : List α) (hn : fresh.length ≤ n) : motive n fresh stack hn := by
  induction n generalizing fresh stack with
  | zero =>
    have hf : fresh = [] := List.length_eq_zero_iff.mp (by omega)
    subst hf
    induction stack with
    | nil => exact nil 0 [] hn
    | cons a rest ih => exact pass 0 [] a rest hn (by simp) ih
  | succ n ih =>
    induction stack with
    | nil => exact nil (n + 1) fresh hn
    | cons a rest ihs =>
      by_cases ha : a ∈ fresh
      · have hl : (fresh.erase a).length ≤ n := by rw [List.length_erase_of_mem ha]; omega
        exact visit n fresh a rest hn hl ha (ih (fresh.erase a) (next a ++ rest) hl)
      · exact pass (n + 1) fresh a rest hn ha ihs

theorem subset_of_preorderFrom {n : ℕ} {fresh stack : List α} (hn : fresh.length ≤ n) :
    preorderFrom next n fresh stack ⊆ fresh := by
  induction n, fresh, stack, hn using walk_induction next with
  | nil n fresh hn => simp
  | pass n fresh a rest hn ha ih => rwa [preorderFrom_pass ha]
  | visit n fresh a rest hn hl ha ih =>
    rw [preorderFrom_visit ha]
    exact List.cons_subset.mpr ⟨ha, fun b hb ↦ List.mem_of_mem_erase (ih hb)⟩

theorem nodup_preorderFrom {n : ℕ} {fresh stack : List α} (hn : fresh.length ≤ n)
    (hf : fresh.Nodup) : (preorderFrom next n fresh stack).Nodup := by
  induction n, fresh, stack, hn using walk_induction next with
  | nil n fresh hn => simp
  | pass n fresh a rest hn ha ih =>
    rw [preorderFrom_pass ha]
    exact ih hf
  | visit n fresh a rest hn hl ha ih =>
    rw [preorderFrom_visit ha]
    refine List.nodup_cons.mpr ⟨fun h ↦ ?_, ih (hf.erase a)⟩
    exact hf.not_mem_erase (subset_of_preorderFrom hl h)

theorem mem_preorderFrom_of_mem_stack {n : ℕ} {fresh stack : List α} (hn : fresh.length ≤ n)
    {a : α} (ha : a ∈ stack) (hf : a ∈ fresh) : a ∈ preorderFrom next n fresh stack := by
  induction n, fresh, stack, hn using walk_induction next with
  | nil n fresh hn => simp at ha
  | pass n fresh b rest hn hb ih =>
    rw [preorderFrom_pass hb]
    rcases List.mem_cons.mp ha with rfl | ha
    · exact absurd hf hb
    · exact ih ha hf
  | visit n fresh b rest hn hl hb ih =>
    rw [preorderFrom_visit hb]
    by_cases hab : a = b
    · exact hab ▸ List.mem_cons_self
    · have hs : a ∈ next b ++ rest := by simp_all
      exact List.mem_cons_of_mem b (ih hs ((List.mem_erase_of_ne hab).mpr hf))

theorem preorderFrom_closed {n : ℕ} {fresh stack : List α} (hn : fresh.length ≤ n) {a b : α}
    (ha : a ∈ preorderFrom next n fresh stack) (hb : b ∈ next a) (hf : b ∈ fresh) :
    b ∈ preorderFrom next n fresh stack := by
  induction n, fresh, stack, hn using walk_induction next with
  | nil n fresh hn => simp at ha
  | pass n fresh c rest hn hc ih =>
    rw [preorderFrom_pass hc] at ha ⊢
    exact ih ha hf
  | visit n fresh c rest hn hl hc ih =>
    rw [preorderFrom_visit hc] at ha ⊢
    by_cases hbc : b = c
    · exact hbc ▸ List.mem_cons_self
    have hf' : b ∈ fresh.erase c := (List.mem_erase_of_ne hbc).mpr hf
    rcases List.mem_cons.mp ha with rfl | ha
    · have hs : b ∈ next a ++ rest := List.mem_append_left rest hb
      exact List.mem_cons_of_mem a (mem_preorderFrom_of_mem_stack hl hs hf')
    · exact List.mem_cons_of_mem c (ih ha hf')

theorem forall_mem_preorderFrom {P : α → Prop} {n : ℕ} {fresh stack : List α}
    (hn : fresh.length ≤ n) (hstack : ∀ a ∈ stack, a ∈ fresh → P a)
    (hstep : ∀ a, P a → ∀ b ∈ next a, b ∈ fresh → P b) :
    ∀ a ∈ preorderFrom next n fresh stack, P a := by
  induction n, fresh, stack, hn using walk_induction next with
  | nil n fresh hn => simp
  | pass n fresh a rest hn ha ih =>
    rw [preorderFrom_pass ha]
    exact ih (fun b hb ↦ hstack b (List.mem_cons_of_mem a hb)) hstep
  | visit n fresh a rest hn hl ha ih =>
    rw [preorderFrom_visit ha]
    have hP : P a := hstack a List.mem_cons_self ha
    refine List.forall_mem_cons.mpr ⟨hP, ih ?_ ?_⟩
    · intro b hb hf
      have hf' := List.mem_of_mem_erase hf
      rcases List.mem_append.mp hb with hb | hb
      · exact hstep a hP b hb hf'
      · exact hstack b (List.mem_cons_of_mem a hb) hf'
    · exact fun c hc b hb hf ↦ hstep c hc b hb (List.mem_of_mem_erase hf)

/-- Two walks visit the same vertices in the same order when they agree on all that they can come
to. -/
theorem preorderFrom_congr {next' : α → List α} {P : α → Prop}
    (hnext : ∀ a, P a → next' a = next a) (hP : ∀ a, P a → ∀ b ∈ next a, P b)
    {n n' : ℕ} {fresh fresh' stack : List α} (hn : fresh.length ≤ n) (hn' : fresh'.length ≤ n')
    (hf : fresh.Nodup) (hf' : fresh'.Nodup) (hmem : ∀ a, P a → (a ∈ fresh' ↔ a ∈ fresh))
    (hstack : ∀ a ∈ stack, P a) :
    preorderFrom next' n' fresh' stack = preorderFrom next n fresh stack := by
  induction n, fresh, stack, hn using walk_induction next generalizing n' fresh' with
  | nil n fresh hn => simp
  | pass n fresh a rest hn ha ih =>
    have ha' : a ∉ fresh' := fun h ↦ ha ((hmem a (hstack a List.mem_cons_self)).mp h)
    rw [preorderFrom_pass ha, preorderFrom_pass ha']
    exact ih hn' hf hf' hmem (fun b hb ↦ hstack b (List.mem_cons_of_mem a hb))
  | visit n fresh a rest hn hl ha ih =>
    have hPa : P a := hstack a List.mem_cons_self
    have ha' : a ∈ fresh' := (hmem a hPa).mpr ha
    obtain ⟨m, rfl⟩ : ∃ m, n' = m + 1 := by
      have hpos := List.length_pos_of_mem ha'
      exact ⟨n' - 1, by omega⟩
    rw [preorderFrom_visit ha, preorderFrom_visit ha', hnext a hPa]
    congr 1
    apply ih
    · rw [List.length_erase_of_mem ha']; omega
    · exact hf.erase a
    · exact hf'.erase a
    · intro b hb
      rw [hf.mem_erase_iff, hf'.mem_erase_iff, hmem b hb]
    · intro b hb
      rcases List.mem_append.mp hb with hb | hb
      · exact hP a hPa b hb
      · exact hstack b (List.mem_cons_of_mem a hb)

theorem nodup_preorder {vertices : List α} (hv : vertices.Nodup) (starts : List α) :
    (preorder next vertices starts).Nodup := nodup_preorderFrom (Nat.le_refl _) hv

theorem mem_preorder {vertices starts : List α} {a : α} :
    a ∈ preorder next vertices starts ↔ Reaches next vertices starts a := by
  have hl : vertices.length ≤ vertices.length := Nat.le_refl _
  constructor
  · intro h
    exact forall_mem_preorderFrom hl (fun b hb hf ↦ .start hb hf)
      (fun b hb c hc hf ↦ .step hb hc hf) a h
  · intro h
    induction h with
    | start hs hv => exact mem_preorderFrom_of_mem_stack hl hs hv
    | step _ hb hv ih => exact preorderFrom_closed hl ih hb hv

theorem preorder_congr {next' : α → List α} {P : α → Prop} {vertices vertices' starts : List α}
    (hv : vertices.Nodup) (hv' : vertices'.Nodup) (hnext : ∀ a, P a → next' a = next a)
    (hP : ∀ a, P a → ∀ b ∈ next a, P b) (hmem : ∀ a, P a → (a ∈ vertices' ↔ a ∈ vertices))
    (hstarts : ∀ a ∈ starts, P a) :
    preorder next' vertices' starts = preorder next vertices starts :=
  preorderFrom_congr hnext hP (Nat.le_refl _) (Nat.le_refl _) hv hv' hmem hstarts

end InfraModule.Graph
