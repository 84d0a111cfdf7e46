import InfraModule.Proofs.TreeWalk
import Mathlib.Logic.Function.Iterate

namespace InfraModule

namespace Graph

variable {α : Type} [DecidableEq α] {next : α → List α} {vertices seen : List α}

theorem length_unseen_lt {a : α} {visited : List α} (ha : a ∈ vertices) (hs : a ∉ seen)
    (h : seen ++ [a] <+: visited) :
    (vertices.filter (· ∉ visited)).length < (vertices.filter (· ∉ seen)).length := by
  have hsub : seen ++ [a] ⊆ visited := h.subset
  have hfilter : vertices.filter (· ∉ visited) =
      (vertices.filter (· ∉ seen)).filter (· ∉ visited) := by
    rw [List.filter_filter]
    refine List.filter_congr fun b _ ↦ ?_
    by_cases hb : b ∈ seen
    · simp [hb, hsub (List.mem_append_left _ hb)]
    · simp [hb]
  rw [hfilter, List.length_filter_lt_length_iff_exists]
  exact ⟨a, by simp [ha, hs], by simp [hsub (List.mem_append_right _ (List.mem_singleton_self a))]⟩

/-- Visits vertices one after the other, each followed by all that it leads to before the next one
is looked at. `seen` was visited before, and what comes is added to it. -/
def visitAll (next : α → List α) (vertices seen : List α) :
    (pending : List α) → { visited : List α // seen <+: visited }
  | [] => ⟨seen, List.prefix_refl seen⟩
  | a :: rest =>
    if a ∈ vertices ∧ a ∉ seen then
      let below := visitAll next vertices (seen ++ [a]) (next a)
      let visited := visitAll next vertices below rest
      ⟨visited, (List.prefix_append seen [a]).trans (below.2.trans visited.2)⟩
    else visitAll next vertices seen rest
termination_by pending => ((vertices.filter (· ∉ seen)).length, pending.length)
decreasing_by
  next hnew => exact .left _ _ (length_unseen_lt hnew.1 hnew.2 (List.prefix_refl _))
  next hnew => exact .left _ _ (length_unseen_lt hnew.1 hnew.2 below.2)
  next => exact .right _ (Nat.lt_succ_self _)

def depthFirst (next : α → List α) (vertices seen pending : List α) : List α :=
  visitAll next vertices seen pending

@[simp]
theorem depthFirst_nil : depthFirst next vertices seen [] = seen := by
  rw [depthFirst, visitAll]

theorem depthFirst_visit {a : α} {rest : List α} (ha : a ∈ vertices) (hs : a ∉ seen) :
    depthFirst next vertices seen (a :: rest) =
      depthFirst next vertices (depthFirst next vertices (seen ++ [a]) (next a)) rest := by
  rw [depthFirst, visitAll, if_pos ⟨ha, hs⟩]
  rfl

theorem depthFirst_pass {a : α} {rest : List α} (h : ¬ (a ∈ vertices ∧ a ∉ seen)) :
    depthFirst next vertices seen (a :: rest) = depthFirst next vertices seen rest := by
  rw [depthFirst, visitAll, if_neg h]
  rfl

theorem depthFirst_induction (next : α → List α) (vertices : List α)
    {motive : (seen pending : List α) → Prop}
    (nil : ∀ seen, motive seen [])
    (pass : ∀ seen a rest, ¬ (a ∈ vertices ∧ a ∉ seen) → motive seen rest →
      motive seen (a :: rest))
    (visit : ∀ seen a rest, a ∈ vertices → a ∉ seen → motive (seen ++ [a]) (next a) →
      motive (depthFirst next vertices (seen ++ [a]) (next a)) rest → motive seen (a :: rest))
    (seen pending : List α) : motive seen pending := by
  induction seen, pending using visitAll.induct next vertices with
  | case1 seen => exact nil seen
  | case2 seen a rest h below ihb ihr => exact visit seen a rest h.1 h.2 ihb ihr
  | case3 seen a rest h ih => exact pass seen a rest h ih

theorem depthFirst_append (seen pending rest : List α) :
    depthFirst next vertices seen (pending ++ rest) =
      depthFirst next vertices (depthFirst next vertices seen pending) rest := by
  induction seen, pending using depthFirst_induction next vertices with
  | nil seen => simp
  | pass seen a pending h ih => rw [List.cons_append, depthFirst_pass h, depthFirst_pass h, ih]
  | visit seen a pending ha hs _ ih =>
    rw [List.cons_append, depthFirst_visit ha hs, depthFirst_visit ha hs, ih]

structure Traversal (α : Type) where
  stack : List α
  visited : List α

/-- One turn of the loop takes the top off the stack. A vertex that is new is visited, and all that
it leads to is put on the stack, whether new or not. -/
def Traversal.turn (next : α → List α) (vertices : List α) : Traversal α → Traversal α
  | ⟨[], visited⟩ => ⟨[], visited⟩
  | ⟨a :: rest, visited⟩ =>
    if a ∈ vertices ∧ a ∉ visited then ⟨next a ++ rest, visited ++ [a]⟩ else ⟨rest, visited⟩

/-- What is on top of a stack is worked off as the recursion does, whatever is below it. -/
theorem exists_turns (seen pending rest : List α) :
    ∃ turns, (Traversal.turn next vertices)^[turns] ⟨pending ++ rest, seen⟩ =
      ⟨rest, depthFirst next vertices seen pending⟩ := by
  induction seen, pending using depthFirst_induction next vertices generalizing rest with
  | nil seen => exact ⟨0, by simp⟩
  | pass seen a pending h ih =>
    obtain ⟨turns, hturns⟩ := ih rest
    refine ⟨turns + 1, ?_⟩
    rw [Function.iterate_succ_apply, depthFirst_pass h, ← hturns]
    simp only [List.cons_append, Traversal.turn, if_neg h]
  | visit seen a pending ha hs ihnext ih =>
    obtain ⟨turns, hturns⟩ := ihnext (pending ++ rest)
    obtain ⟨turns', hturns'⟩ := ih rest
    refine ⟨turns' + turns + 1, ?_⟩
    rw [depthFirst_visit ha hs, ← hturns', ← hturns, ← Function.iterate_add_apply,
      Function.iterate_succ_apply]
    simp only [List.cons_append, Traversal.turn, if_pos (And.intro ha hs)]

theorem append_preorderFrom {n : ℕ} {fresh stack : List α} (hn : fresh.length ≤ n)
    (hf : fresh.Nodup) (hfresh : ∀ a, a ∈ fresh ↔ a ∈ vertices ∧ a ∉ seen) :
    seen ++ preorderFrom next n fresh stack = depthFirst next vertices seen stack := by
  induction n, fresh, stack, hn using walk_induction next generalizing seen with
  | nil n fresh hn => simp
  | pass n fresh a rest hn ha ih =>
    rw [preorderFrom_pass ha, depthFirst_pass fun h ↦ ha ((hfresh a).mpr h)]
    exact ih hf hfresh
  | visit n fresh a rest hn hl ha ih =>
    obtain ⟨hv, hs⟩ := (hfresh a).mp ha
    rw [preorderFrom_visit ha, depthFirst_visit hv hs, ← depthFirst_append, ← ih (hf.erase a),
      List.append_assoc, List.singleton_append]
    intro b
    rw [hf.mem_erase_iff, hfresh, List.mem_append, List.mem_singleton]
    tauto

theorem preorder_eq_depthFirst (hv : vertices.Nodup) (starts : List α) :
    preorder next vertices starts = depthFirst next vertices [] starts := by
  have hfresh (a : α) : a ∈ vertices ↔ a ∈ vertices ∧ a ∉ [] := by simp
  rw [← append_preorderFrom (Nat.le_refl vertices.length) hv hfresh, List.nil_append, preorder]

example : preorder (fun a ↦ if a = 0 then [1, 2, 3] else if a = 1 then [3, 0, 9] else [])
    [0, 1, 2, 3] [0] = [0, 1, 3, 2] := by decide

structure IsPreorder (next : α → List α) (vertices : List α) (start : α) (visited : List α) :
    Prop where
  loop : ∃ turns, (Traversal.turn next vertices)^[turns] ⟨[start], []⟩ = ⟨[], visited⟩
  recursion : visited = depthFirst next vertices [] [start]
  nodup : visited.Nodup
  mem : ∀ a, a ∈ visited ↔ Reaches next vertices [start] a

theorem isPreorder_preorder (hv : vertices.Nodup) (start : α) :
    IsPreorder next vertices start (preorder next vertices [start]) := by
  have heq : preorder next vertices [start] = depthFirst next vertices [] [start] :=
    preorder_eq_depthFirst hv [start]
  refine ⟨?_, heq, nodup_preorder hv [start], fun a ↦ mem_preorder⟩
  rw [heq]
  exact exists_turns [] [start] []

end Graph

/-- The walk of a tree, and the walk from any expression, however declarations and expressions refer
to each other: the loop comes to an end, its order is that of the recursion that passes over what
does not exist and what it has visited, and it lists once each what can be reached through what
exists. -/
theorem Tree.walks_are_depth_first (t : Tree) :
    Graph.IsPreorder t.childrenOf t.declIds root t.walk ∧
      ∀ e, Graph.IsPreorder t.partsOf t.exprIds e (t.descendants e) :=
  ⟨Graph.isPreorder_preorder t.nodup_declIds root,
    fun e ↦ Graph.isPreorder_preorder t.nodup_exprIds e⟩

end InfraModule
