import InfraModule.Proofs.CycleSearch
import InfraModule.Proofs.Enumeration
import InfraModule.Proofs.Forest

namespace InfraModule

open Relation

namespace Graph

variable {α : Type} {next : α → List α}

/-- A path without repetition whose last vertex leads back to the one at place `i`. -/
structure IsLasso (next : α → List α) (path : List α) (i : ℕ) : Prop where
  nodup : path.Nodup
  closed : ∃ a, path[i]? = some a ∧ (path ++ [a]).IsChain fun a b ↦ b ∈ next a

theorem IsLasso.mono {next' : α → List α} {path : List α} {i : ℕ} (h : IsLasso next path i)
    (hn : ∀ a ∈ path, ∀ b ∈ path, b ∈ next a → b ∈ next' a) : IsLasso next' path i := by
  obtain ⟨a, ha, hchain⟩ := h.closed
  refine ⟨h.nodup, a, ha, hchain.imp_of_mem_imp fun x y hx hy ↦ ?_⟩
  have hmem (z : α) (hz : z ∈ path ++ [a]) : z ∈ path := by
    rcases List.mem_append.mp hz with hz | hz
    · exact hz
    · exact List.mem_singleton.mp hz ▸ List.mem_of_getElem? ha
  exact hn x (hmem x hx) y (hmem y hy)

/-- `GoesOn next path a n lasso loop`: the lasso follows `path` to `a` and is not longer than `n`,
and this is its loop. -/
def GoesOn (next : α → List α) (path : List α) (a : α) (n : ℕ) (lasso : List α × ℕ)
    (loop : List α) : Prop :=
  IsLasso next lasso.1 lasso.2 ∧ lasso.1.length ≤ n ∧ loop = lasso.1.drop lasso.2 ∧
    ∃ b, lasso.1[lasso.2]? = some b ∧ path ++ [a] <+: lasso.1 ++ [b]

variable {path : List α} {a : α}

theorem GoesOn.length_le {n : ℕ} {lasso : List α × ℕ} {loop : List α}
    (h : GoesOn next path a n lasso loop) : path.length ≤ n := by
  obtain ⟨-, hn, -, b, -, hpre⟩ := h
  have hle := hpre.length_le
  simp only [List.length_append, List.length_singleton] at hle
  omega

theorem goesOn_of_notMem (ha : a ∉ path) {n : ℕ} (lasso : List α × ℕ) (loop : List α) :
    GoesOn next path a n lasso loop ↔ ∃ b ∈ next a, GoesOn next (path ++ [a]) b n lasso loop := by
  obtain ⟨p, i⟩ := lasso
  constructor
  · rintro ⟨hl, hn, hloop, b, hb, hpre⟩
    rcases List.prefix_concat_iff.mp hpre with heq | ⟨rest, rfl⟩
    · obtain ⟨rfl, hab⟩ := List.append_inj' heq rfl
      cases hab
      exact absurd (List.mem_of_getElem? hb) ha
    · obtain ⟨b', hb', hchain⟩ := hl.closed
      cases hb.symm.trans hb'
      obtain ⟨c, after, hafter⟩ := List.exists_cons_of_ne_nil (List.append_ne_nil_of_right_ne_nil
        rest (List.cons_ne_nil b []))
      rw [List.append_assoc, hafter] at hchain
      refine ⟨c, ?_, hl, hn, hloop, b, hb, ⟨after, ?_⟩⟩
      · rw [List.append_assoc] at hchain
        have hedge := hchain.right_of_append
        exact (List.isChain_cons_cons.mp hedge).1
      · rw [List.append_assoc _ rest, hafter]
        simp
  · rintro ⟨c, -, hl, hn, hloop, b, hb, hpre⟩
    exact ⟨hl, hn, hloop, b, hb, (List.prefix_append _ _).trans hpre⟩

variable [DecidableEq α]

theorem goesOn_of_mem (hp : path.Nodup) (hc : (path ++ [a]).IsChain fun a b ↦ b ∈ next a)
    (ha : a ∈ path) {n : ℕ} (hn : path.length ≤ n) (lasso : List α × ℕ) (loop : List α) :
    GoesOn next path a n lasso loop ↔
      lasso = (path, path.idxOf a) ∧ loop = path.dropWhile (· ≠ a) := by
  have hlt : path.idxOf a < path.length := List.idxOf_lt_length_iff.mpr ha
  have hget : path[path.idxOf a]? = some a := by simp [hlt]
  have hdrop : path.drop (path.idxOf a) = path.dropWhile (· ≠ a) := by
    rw [List.dropWhile_eq_drop_findIdx_not, List.idxOf]
    congr 2
    funext b
    simp [beq_eq_decide]
  constructor
  · obtain ⟨p, i⟩ := lasso
    rintro ⟨hl, -, rfl, b, hb, hpre⟩
    rcases List.prefix_concat_iff.mp hpre with heq | hpre
    · obtain ⟨rfl, hab⟩ := List.append_inj' heq rfl
      cases hab
      have hi : i = path.idxOf a := by
        have hlt' : i < path.length := (List.getElem?_eq_some_iff.mp hb).1
        exact (List.getElem?_inj hlt' hp).mp (hb.trans hget.symm)
      exact ⟨by rw [hi], by rw [hi, hdrop]⟩
    · have hnd := hl.nodup.sublist hpre.sublist
      rw [List.nodup_append] at hnd
      exact absurd rfl (hnd.2.2 a ha a (List.mem_singleton_self a))
  · rintro ⟨rfl, rfl⟩
    exact ⟨⟨hp, a, hget, hc⟩, hn, hdrop.symm, a, hget, List.prefix_rfl⟩

/-- The search lists the loops of all lassos that are not too long for it, one for each. -/
theorem enumerates_loopsFrom (hnext : ∀ a, (next a).Nodup) {depth n : ℕ} (hp : path.Nodup)
    (hc : (path ++ [a]).IsChain fun a b ↦ b ∈ next a) (hn : path.length + depth = n + 1) :
    Enumerates (loopsFrom next depth path a) (GoesOn next path a n) := by
  induction depth generalizing path a with
  | zero =>
    refine .nil fun lasso loop h ↦ ?_
    have hle := h.length_le
    omega
  | succ depth ih =>
    rw [loopsFrom]
    split
    next ha => exact .singleton (goesOn_of_mem hp hc ha (by omega))
    next ha =>
      refine (Enumerates.flatMap id (fun b hb ↦ ih ?_ ?_ ?_) ?_ ?_).congr (goesOn_of_notMem ha)
      · simpa using hp.concat ha
      · rw [List.append_assoc]
        exact List.isChain_split.mpr ⟨hc, by simpa using hb⟩
      · rw [List.length_append, List.length_singleton]
        omega
      · simpa using hnext a
      · rintro b b' ⟨p, i⟩ _ _ ⟨-, -, -, c, hget, hpre⟩ ⟨-, -, -, c', hget', hpre'⟩
        cases hget.symm.trans hget'
        have heq := (List.prefix_of_prefix_length_le hpre hpre' (by simp)).eq_of_length (by simp)
        simpa using heq

end Graph

namespace Tree

open InfraModule.Graph

variable {t : Tree} {s a b : DeclId}

def SameComponent (t : Tree) (a b : DeclId) : Prop :=
  ReflTransGen t.Requires a b ∧ ReflTransGen t.Requires b a

theorem SameComponent.symm (h : t.SameComponent a b) : t.SameComponent b a := ⟨h.2, h.1⟩

theorem SameComponent.trans {c : DeclId} (h : t.SameComponent a b) (h' : t.SameComponent b c) :
    t.SameComponent a c := ⟨h.1.trans h'.1, h'.2.trans h.2⟩

theorem SameComponent.mem_declIds (h : t.SameComponent a b) (ha : a ∈ t.declIds) :
    b ∈ t.declIds := by
  rcases h.2.cases_head with rfl | ⟨c, hc, -⟩
  · exact ha
  · exact hc.mem_declIds

theorem mutual_iff_sameComponent (ha : a ∈ t.declIds) :
    Mutual t.prerequisitesOf t.declIds a b ↔ t.SameComponent a b := by
  constructor
  · intro h
    exact ⟨leads_of_reaches h.1, leads_of_reaches h.2⟩
  · intro h
    exact ⟨reaches_of_reflTransGen h.1 (h.mem_declIds ha), reaches_of_reflTransGen h.2 ha⟩

theorem mem_declIds_of_mem_walk (h : a ∈ t.walk) : a ∈ t.declIds := (mem_walk.mp h).mem

/-- The first declaration of its component that the walk comes to. -/
def IsFirst (t : Tree) (s : DeclId) : Prop :=
  ∃ before after, t.walk = before ++ s :: after ∧ ∀ a ∈ before, ¬ t.SameComponent a s

structure IsLassoFrom (t : Tree) (s : DeclId) (path : List DeclId) (i : ℕ) : Prop where
  lasso : IsLasso t.prerequisitesOf path i
  head : path.head? = some s
  inside : ∀ a ∈ path, t.SameComponent s a

theorem lookup_eq_iff_sameComponent (ha : a ∈ t.walk) :
    t.components.lookup a = t.components.lookup b ↔ t.SameComponent a b :=
  (t.isNumbering_components.lookup_eq_iff (reaches_of_mem_walk ha)).trans
    (mutual_iff_sameComponent (mem_declIds_of_mem_walk ha))

theorem mem_starts : s ∈ t.starts ↔ t.IsFirst s := by
  refine mem_representatives.trans (exists_congr fun before ↦ exists_congr fun after ↦ ?_)
  refine and_congr_right fun hwalk ↦ forall₂_congr fun a ha ↦ ?_
  rw [ne_eq, lookup_eq_iff_sameComponent]
  rw [hwalk]
  exact List.mem_append_left _ ha

theorem mem_walk_of_mem_starts (hs : s ∈ t.starts) : s ∈ t.walk := representatives_subset _ _ hs

theorem eq_of_mem_starts (ha : a ∈ t.starts) (hb : b ∈ t.starts) (h : t.SameComponent a b) :
    a = b := by
  refine List.inj_on_of_nodup_map (nodup_map_representatives _ _) ha hb ?_
  exact (lookup_eq_iff_sameComponent (mem_walk_of_mem_starts ha)).mpr h

theorem mutual_of_isChain_links {rest : List DeclId}
    (hs : Reaches t.prerequisitesOf t.declIds t.walk s)
    (h : (s :: rest).IsChain fun a b ↦ b ∈ t.linksWithin t.components a) :
    ∀ a ∈ s :: rest, Mutual t.prerequisitesOf t.declIds s a := by
  induction rest generalizing s with
  | nil =>
    intro a ha
    rw [List.mem_singleton.mp ha]
    exact ⟨.self hs.mem, .self hs.mem⟩
  | cons b rest ih =>
    rw [List.isChain_cons_cons] at h
    have hb := ((mem_linksWithin hs).mp h.1).2
    intro a ha
    rcases List.mem_cons.mp ha with rfl | ha
    · exact ⟨.self hs.mem, .self hs.mem⟩
    · exact hb.trans (ih (hs.trans hb.1) h.2 a ha)

theorem isLassoFrom_iff (hs : s ∈ t.walk) {path : List DeclId} {i : ℕ} :
    t.IsLassoFrom s path i ↔
      IsLasso (t.linksWithin t.components) path i ∧ path.head? = some s := by
  have hreach := reaches_of_mem_walk hs
  have hmem := mem_declIds_of_mem_walk hs
  constructor
  · intro h
    have hmutual (a : DeclId) (ha : a ∈ path) : Mutual t.prerequisitesOf t.declIds s a :=
      (mutual_iff_sameComponent hmem).mpr (h.inside a ha)
    refine ⟨h.lasso.mono fun a ha b hb hab ↦ ?_, h.head⟩
    have ha' := hmutual a ha
    exact (mem_linksWithin (hreach.trans ha'.1)).mpr ⟨hab, ha'.symm.trans (hmutual b hb)⟩
  · rintro ⟨h, hhead⟩
    refine ⟨h.mono fun a _ b _ hab ↦ List.mem_of_mem_filter hab, hhead, fun a ha ↦ ?_⟩
    obtain ⟨b, -, hchain⟩ := h.closed
    obtain ⟨rest, rfl⟩ := List.head?_eq_some_iff.mp hhead
    exact (mutual_iff_sameComponent hmem).mp
      (mutual_of_isChain_links hreach hchain a (List.mem_append_left [b] ha))

theorem goesOn_iff (hs : s ∈ t.walk) (lasso : List DeclId × ℕ) (loop : Cycle) :
    t.IsLassoFrom s lasso.1 lasso.2 ∧ loop = lasso.1.drop lasso.2 ↔
      GoesOn (t.linksWithin t.components) [] s t.declarations.size lasso loop := by
  obtain ⟨path, i⟩ := lasso
  constructor
  · rintro ⟨h, rfl⟩
    obtain ⟨hlasso, hhead⟩ := (isLassoFrom_iff hs).mp h
    obtain ⟨a, ha, -⟩ := hlasso.closed
    refine ⟨hlasso, ?_, rfl, a, ha, ?_⟩
    · have hsub : path ⊆ t.declIds := fun a ha ↦
        (h.inside a ha).mem_declIds (mem_declIds_of_mem_walk hs)
      exact length_le_of_nodup hlasso.nodup hsub
    · obtain ⟨rest, rfl⟩ := List.head?_eq_some_iff.mp hhead
      exact ⟨rest ++ [a], by simp⟩
  · rintro ⟨hlasso, -, rfl, a, ha, hpre⟩
    refine ⟨(isLassoFrom_iff hs).mpr ⟨hlasso, ?_⟩, rfl⟩
    cases path with
    | nil => simp at ha
    | cons b rest => simp_all

theorem enumerates_loopsAt (hs : s ∈ t.walk) : Enumerates (t.loopsAt s)
    fun (lasso : List DeclId × ℕ) c ↦
      t.IsLassoFrom s lasso.1 lasso.2 ∧ c = lasso.1.drop lasso.2 :=
  (enumerates_loopsFrom (t.nodup_linksWithin t.components) List.nodup_nil (by simp)
    (Nat.zero_add _)).congr (goesOn_iff hs)

theorem sameComponent_of_mem_loopsAt (hs : s ∈ t.walk) {c : Cycle} (hc : c ∈ t.loopsAt s) :
    ∀ a ∈ c, t.SameComponent s a := by
  obtain ⟨lasso, hlasso, rfl⟩ := (enumerates_loopsAt hs).mem_iff.mp hc
  exact fun a ha ↦ hlasso.inside a (List.mem_of_mem_drop ha)

theorem IsLassoFrom.head?_drop {path : List DeclId} {i : ℕ} (h : t.IsLassoFrom s path i)
    (hs : s ∈ path.drop i) : (path.drop i).head? = some s := by
  obtain ⟨rest, rfl⟩ := List.head?_eq_some_iff.mp h.head
  cases i with
  | zero => rfl
  | succ i =>
    have hnotMem := (List.nodup_cons.mp h.lasso.nodup).1
    rw [List.drop_succ_cons] at hs
    exact absurd (List.mem_of_mem_drop hs) hnotMem

theorem exists_block (hs : s ∈ t.starts) : ∃ before after,
    t.cycles = before ++ t.loopsAt s ++ after ∧
    ∀ c ∈ before ++ after, ∀ a ∈ c, ¬ t.SameComponent s a := by
  obtain ⟨earlier, later, hsplit⟩ := List.append_of_mem hs
  have hnodup : t.starts.Nodup := t.nodup_walk.sublist (representatives_sublist _ _)
  refine ⟨earlier.flatMap t.loopsAt, later.flatMap t.loopsAt, ?_, fun c hc a ha hsa ↦ ?_⟩
  · rw [cycles_eq_flatMap, hsplit]
    simp
  · rw [← List.flatMap_append, List.mem_flatMap] at hc
    obtain ⟨s', hs', hc⟩ := hc
    have hmem : s' ∈ t.starts := by
      rw [hsplit]
      simp only [List.mem_append, List.mem_cons] at hs' ⊢
      tauto
    have hsa' := sameComponent_of_mem_loopsAt (mem_walk_of_mem_starts hmem) hc a ha
    have heq := eq_of_mem_starts hs hmem (hsa.trans hsa'.symm)
    subst heq
    rw [hsplit, List.nodup_middle, List.nodup_cons] at hnodup
    exact hnodup.1 hs'

/-- Cycles are found component by component, in the order in which the walk comes to the
components. Those of a component stand together. There is one for each lasso within the component
that begins at the declaration `s` that the walk comes to first, and it is the loop of that lasso;
so a cycle through `s` is listed from `s` on. -/
theorem cycles_one_for_each_lasso (t : Tree) :
    ∃ (starts : List DeclId) (block : DeclId → List Cycle),
      starts.Sublist t.walk ∧ (∀ s, s ∈ starts ↔ t.IsFirst s) ∧
      (∀ a ∈ t.walk, ∃ s ∈ starts, t.SameComponent s a) ∧
      t.cycles = starts.flatMap block ∧
      ∀ s ∈ starts,
        Enumerates (block s) (fun (lasso : List DeclId × ℕ) c ↦
          t.IsLassoFrom s lasso.1 lasso.2 ∧ c = lasso.1.drop lasso.2) ∧
        (∀ c ∈ block s, ∀ a ∈ c, t.SameComponent s a) ∧
        (∃ before after, t.cycles = before ++ block s ++ after ∧
          ∀ c ∈ before ++ after, ∀ a ∈ c, ¬ t.SameComponent s a) ∧
        ∀ c ∈ t.cycles, s ∈ c → c.head? = some s := by
  refine ⟨t.starts, t.loopsAt, representatives_sublist _ _, fun s ↦ mem_starts, fun a ha ↦ ?_,
    cycles_eq_flatMap t, fun s hs ↦ ?_⟩
  · obtain ⟨s, hs, hkey⟩ := exists_representative (fun id ↦ t.components.lookup id) ha
    exact ⟨s, hs, (lookup_eq_iff_sameComponent (mem_walk_of_mem_starts hs)).mp hkey⟩
  · have hwalk := mem_walk_of_mem_starts hs
    have henum := enumerates_loopsAt hwalk
    obtain ⟨before, after, hcycles, hout⟩ := exists_block hs
    refine ⟨henum, fun c ↦ sameComponent_of_mem_loopsAt hwalk, ⟨before, after, hcycles, hout⟩, ?_⟩
    intro c hc hsc
    have hblock : c ∈ t.loopsAt s := by
      by_contra hnot
      refine hout c ?_ s hsc ⟨.refl, .refl⟩
      rw [hcycles] at hc
      simp only [List.mem_append] at hc ⊢
      tauto
    obtain ⟨lasso, hlasso, rfl⟩ := henum.mem_iff.mp hblock
    exact hlasso.head?_drop hsc

end Tree

end InfraModule
