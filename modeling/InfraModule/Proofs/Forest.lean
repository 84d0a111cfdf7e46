import InfraModule.Proofs.Component
import Mathlib.Data.List.Flatten
import Mathlib.Data.List.Nodup
import Mathlib.Data.List.Perm.Subperm
import Mathlib.Logic.Relation

namespace InfraModule.Graph

variable {α : Type}

/-- Every vertex is a successor at most once, and heights fall along every way. -/
structure IsForest (next : α → List α) (height : α → ℕ) : Prop where
  height_lt : ∀ a, ∀ b ∈ next a, height b < height a
  unique : ∀ a b c, c ∈ next a → c ∈ next b → a = b
  nodup : ∀ a, (next a).Nodup

def below (next : α → List α) : ℕ → α → List α
  | 0, _ => []
  | depth + 1, a => a :: (next a).flatMap (below next depth)

def Leads (next : α → List α) : α → α → Prop := Relation.ReflTransGen fun a b ↦ b ∈ next a

theorem leads_of_reaches {next : α → List α} {vertices : List α} {a b : α}
    (h : Reaches next vertices [a] b) : Leads next a b := by
  induction h with
  | start hs _ =>
    rw [List.mem_singleton] at hs
    exact hs ▸ .refl
  | step _ hb _ ih => exact ih.tail hb

theorem length_preorder_lt [DecidableEq α] {next : α → List α} {vertices : List α}
    (hv : vertices.Nodup) {a b : α} (ha : a ∈ vertices) (hb : b ∈ next a) (hbv : b ∈ vertices)
    (hacyclic : ¬ Relation.TransGen (fun a b ↦ b ∈ next a) a a) :
    (preorder next vertices [b]).length < (preorder next vertices [a]).length := by
  have hedge := Reaches.edge ha hb hbv
  have hnot : a ∉ preorder next vertices [b] := fun hmem ↦
    hacyclic (.head' hb (leads_of_reaches (mem_preorder.mp hmem)))
  have hnodup : (a :: preorder next vertices [b]).Nodup :=
    List.nodup_cons.mpr ⟨hnot, nodup_preorder hv [b]⟩
  have hsub : a :: preorder next vertices [b] ⊆ preorder next vertices [a] := by
    refine List.cons_subset.mpr ⟨mem_preorder.mpr (.self ha), fun x hx ↦ ?_⟩
    exact mem_preorder.mpr (hedge.trans (mem_preorder.mp hx))
  exact (hnodup.subperm hsub).length_le

theorem leads_of_mem_below {next : α → List α} {depth : ℕ} {a b : α}
    (hb : b ∈ below next depth a) : Leads next a b := by
  induction depth generalizing a with
  | zero => simp [below] at hb
  | succ depth ih =>
    rw [below, List.mem_cons, List.mem_flatMap] at hb
    obtain rfl | ⟨c, hc, hb⟩ := hb
    · exact .refl
    · exact .head hc (ih hb)

namespace IsForest

variable {next : α → List α} {height : α → ℕ} (h : IsForest next height)

include h

theorem height_le_of_leads {a b : α} (hab : Leads next a b) : height b ≤ height a := by
  induction hab with
  | refl => exact Nat.le_refl _
  | tail _ hb ih => exact Nat.le_trans (Nat.le_of_lt (h.height_lt _ _ hb)) ih

theorem leads_total {a b c : α} (hac : Leads next a c) (hbc : Leads next b c) :
    Leads next a b ∨ Leads next b a := by
  have hunique : Relator.RightUnique (Function.swap fun a b ↦ b ∈ next a) :=
    fun c a b ha hb ↦ h.unique a b c ha hb
  have htotal := Relation.ReflTransGen.total_of_right_unique hunique
    (Relation.reflTransGen_swap.mpr hac) (Relation.reflTransGen_swap.mpr hbc)
  exact htotal.symm.imp Relation.reflTransGen_swap.mp Relation.reflTransGen_swap.mp

theorem eq_of_leads_sibling {a b c : α} (hb : b ∈ next a) (hc : c ∈ next a)
    (hbc : Leads next b c) : b = c := by
  rcases Relation.ReflTransGen.cases_tail hbc with rfl | ⟨p, hbp, hp⟩
  · rfl
  · rw [h.unique p a c hp hc] at hbp
    have hle := h.height_le_of_leads hbp
    have hlt := h.height_lt a b hb
    omega

theorem nodup_flatMap {as : List α} (has : as.Nodup) : (as.flatMap next).Nodup := by
  rw [List.nodup_flatMap]
  refine ⟨fun a _ ↦ h.nodup a, has.imp ?_⟩
  intro a b hne c hca hcb
  exact hne (h.unique a b c hca hcb)

theorem nodup_below (depth : ℕ) (a : α) : (below next depth a).Nodup := by
  induction depth generalizing a with
  | zero => exact List.nodup_nil
  | succ depth ih =>
    rw [below, List.nodup_cons, List.nodup_flatMap]
    refine ⟨fun ha ↦ ?_, fun b _ ↦ ih b, ?_⟩
    · obtain ⟨b, hb, hab⟩ := List.mem_flatMap.mp ha
      have hle := h.height_le_of_leads (leads_of_mem_below hab)
      have hlt := h.height_lt a b hb
      omega
    · refine (h.nodup a).imp_of_mem fun {b c} hb hc hne x hxb hxc ↦ hne ?_
      have hxb := leads_of_mem_below hxb
      have hxc := leads_of_mem_below hxc
      rcases h.leads_total hxb hxc with hbc | hcb
      · exact h.eq_of_leads_sibling hb hc hbc
      · exact (h.eq_of_leads_sibling hc hb hcb).symm

theorem below_stable {depth depth' : ℕ} {a : α} (hd : height a < depth) (hd' : height a < depth') :
    below next depth a = below next depth' a := by
  induction depth generalizing depth' a with
  | zero => omega
  | succ depth ih =>
    obtain ⟨m, rfl⟩ : ∃ m, depth' = m + 1 := ⟨depth' - 1, by omega⟩
    rw [below, below]
    congr 1
    apply List.flatMap_congr
    intro b hb
    have hlt := h.height_lt a b hb
    exact ih (by omega) (by omega)

variable {depth : ℕ} (hd : ∀ a, height a < depth)

include hd

theorem below_eq (a : α) : below next depth a = a :: (next a).flatMap (below next depth) := by
  rw [← below, h.below_stable (hd a) (Nat.lt_succ_of_lt (hd a))]

theorem below_sublist {a b : α} (hab : Leads next a b) :
    (below next depth b).Sublist (below next depth a) := by
  induction hab using Relation.ReflTransGen.head_induction_on with
  | refl => exact List.Sublist.refl _
  | @head a c hc _ ih =>
    rw [h.below_eq hd a]
    exact (ih.trans (List.infix_flatMap_of_mem hc _).sublist).cons a

theorem pair_sublist_below {a b c : α} (hb : b ∈ below next depth a) (hc : c ∈ next b) :
    [b, c].Sublist (below next depth a) := by
  refine .trans ?_ (h.below_sublist hd (leads_of_mem_below hb))
  have hmem : c ∈ (next b).flatMap (below next depth) := by
    refine List.mem_flatMap.mpr ⟨c, hc, ?_⟩
    rw [h.below_eq hd c]
    exact List.mem_cons_self
  rw [h.below_eq hd b]
  exact (List.singleton_sublist.mpr hmem).cons_cons b

variable [DecidableEq α]

theorem preorderFrom_eq {n : ℕ} {fresh stack : List α} (hn : fresh.length ≤ n)
    (hnodup : (stack.flatMap (below next depth)).Nodup)
    (hfresh : stack.flatMap (below next depth) ⊆ fresh) :
    preorderFrom next n fresh stack = stack.flatMap (below next depth) := by
  induction n, fresh, stack, hn using walk_induction next with
  | nil n fresh hn => simp
  | pass n fresh a rest hn ha ih =>
    rw [List.flatMap_cons, h.below_eq hd a] at hfresh
    exact absurd (hfresh List.mem_cons_self) ha
  | visit n fresh a rest hn hl ha ih =>
    have hsplit : (a :: rest).flatMap (below next depth) =
        a :: (next a ++ rest).flatMap (below next depth) := by
      rw [List.flatMap_cons, h.below_eq hd a, List.cons_append, List.flatMap_append]
    rw [hsplit] at hnodup hfresh ⊢
    obtain ⟨hnotMem, hnodup⟩ := List.nodup_cons.mp hnodup
    rw [preorderFrom_visit ha, ih hnodup]
    intro b hb
    have hne : b ≠ a := fun hba ↦ hnotMem (hba ▸ hb)
    exact (List.mem_erase_of_ne hne).mpr (hfresh (List.mem_cons_of_mem a hb))

theorem preorder_eq {vertices : List α} {a : α} (hv : below next depth a ⊆ vertices) :
    preorder next vertices [a] = below next depth a := by
  have hone : [a].flatMap (below next depth) = below next depth a := by simp
  rw [preorder, h.preorderFrom_eq hd (Nat.le_refl _), hone]
  · exact hone ▸ h.nodup_below depth a
  · exact hone ▸ hv

end IsForest

end InfraModule.Graph
