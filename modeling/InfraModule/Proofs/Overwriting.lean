import InfraModule.Proofs.Component
import InfraModule.Proofs.ReadBack

namespace InfraModule

namespace Graph

variable {α : Type} {next : α → List α} {vertices starts starts' : List α}

theorem Reaches.mono {a : α} (h : Reaches next vertices starts a) (hs : starts ⊆ starts') :
    Reaches next vertices starts' a := by
  induction h with
  | start hmem hv => exact .start (hs hmem) hv
  | step _ hb hv ih => exact ih.step hb hv

theorem reaches_append {a : α} : Reaches next vertices (starts ++ starts') a ↔
    Reaches next vertices starts a ∨ Reaches next vertices starts' a := by
  constructor
  · intro h
    induction h with
    | start hs hv =>
      rcases List.mem_append.mp hs with hs | hs
      · exact .inl (.start hs hv)
      · exact .inr (.start hs hv)
    | step _ hb hv ih => exact ih.imp (·.step hb hv) (·.step hb hv)
  · intro h
    rcases h with h | h
    · exact h.mono (List.subset_append_left _ _)
    · exact h.mono (List.subset_append_right _ _)

theorem reaches_singleton {a b : α} (ha : a ∈ vertices) :
    Reaches next vertices [a] b ↔ Reaches next vertices (next a) b ∨ b = a := by
  constructor
  · intro h
    induction h with
    | start hs _ => exact .inr (List.mem_singleton.mp hs)
    | step _ hb hv ih =>
      rcases ih with ih | rfl
      · exact .inl (ih.step hb hv)
      · exact .inl (.start hb hv)
  · intro h
    rcases h with h | rfl
    · induction h with
      | start hs hv => exact .edge ha hs hv
      | step _ hb hv ih => exact ih.step hb hv
    · exact .self ha

theorem reaches_iff_exists {a : α} : Reaches next vertices starts a ↔
    ∃ s ∈ starts, Reaches next vertices [s] a := by
  constructor
  · intro h
    induction h with
    | @start a hs hv => exact ⟨a, hs, .self hv⟩
    | step _ hb hv ih =>
      obtain ⟨s, hs, h⟩ := ih
      exact ⟨s, hs, h.step hb hv⟩
  · intro ⟨s, hs, h⟩
    exact h.mono (by simpa using hs)

end Graph

namespace Value

mutual

/-- Which nodes of a value are left when its objects have been merged, in the order of the nodes. A
field is lost with all its nodes if its name is given again. -/
def kept : Value → List Bool
  | .literal _ => [true]
  | .list items => keptOfItems items ++ [true]
  | .object fields => keptOfFields fields ++ [true]
  | .reference _ => [true]
  | .getAttribute _ _ => [true]
  | .conditionReference _ => [true]
  | .findInMap _ top second => kept top ++ kept second ++ [true]

def keptOfItems : List Value → List Bool
  | [] => []
  | v :: vs => kept v ++ keptOfItems vs

def keptOfFields : List (String × Value) → List Bool
  | [] => []
  | (name, v) :: vs =>
    (if name ∈ vs.map Prod.fst then List.replicate v.nodes.length false else kept v) ++
      keptOfFields vs

end

mutual

theorem length_kept (v : Value) : v.kept.length = v.nodes.length := by
  match v with
  | .literal _ | .reference _ | .getAttribute _ _ | .conditionReference _ => rfl
  | .list items => simp [kept, nodes, length_keptOfItems items]
  | .object fields => simp [kept, nodes, length_keptOfFields fields]
  | .findInMap mapping top second => simp [kept, nodes, length_kept top, length_kept second]

theorem length_keptOfItems (vs : List Value) :
    (keptOfItems vs).length = (nodesOfItems vs).length := by
  match vs with
  | [] => rfl
  | v :: vs => simp [keptOfItems, nodesOfItems, length_kept v, length_keptOfItems vs]

theorem length_keptOfFields (vs : List (String × Value)) :
    (keptOfFields vs).length = (nodesOfFields vs).length := by
  match vs with
  | [] => rfl
  | (name, v) :: vs =>
    simp only [keptOfFields, nodesOfFields, List.length_append, length_keptOfFields vs]
    split
    next => rw [List.length_replicate]
    next => rw [length_kept v]

end

theorem nodesOfItems_append (vs ws : List Value) :
    nodesOfItems (vs ++ ws) = nodesOfItems vs ++ nodesOfItems ws := by
  induction vs with
  | nil => rfl
  | cons v vs ih => simp [nodesOfItems, ih]

theorem keptOfItems_append (vs ws : List Value) :
    keptOfItems (vs ++ ws) = keptOfItems vs ++ keptOfItems ws := by
  induction vs with
  | nil => rfl
  | cons v vs ih => simp [keptOfItems, ih]

theorem map_fst_fieldsAt (vs : List (String × Value)) (first : Nat) :
    (fieldsAt vs first).map Prod.fst = vs.map Prod.fst := by
  induction vs generalizing first with
  | nil => rfl
  | cons v vs ih => simp [fieldsAt, ih]

end Value

def MarkedFrom (first : Nat) (marks : List Bool) (e : ExprId) : Prop :=
  ∃ k, marks[k]? = some true ∧ e = ⟨first + k⟩

theorem markedFrom_append {first : Nat} {marks marks' : List Bool} {e : ExprId} :
    MarkedFrom first (marks ++ marks') e ↔
      MarkedFrom first marks e ∨ MarkedFrom (first + marks.length) marks' e := by
  constructor
  · intro ⟨k, hk, he⟩
    rcases getElem?_append_cases hk with hk | ⟨j, rfl, hj⟩
    · exact .inl ⟨k, hk, he⟩
    · exact .inr ⟨j, hj, by rw [he, Nat.add_assoc]⟩
  · intro h
    rcases h with ⟨k, hk, he⟩ | ⟨k, hk, he⟩
    · exact ⟨k, by rw [List.getElem?_append_left (List.getElem?_eq_some_iff.mp hk).1, hk], he⟩
    · refine ⟨marks.length + k, ?_, by rw [he, Nat.add_assoc]⟩
      rw [List.getElem?_append_right (Nat.le_add_right _ _), Nat.add_sub_cancel_left, hk]

theorem markedFrom_singleton {first : Nat} {e : ExprId} :
    MarkedFrom first [true] e ↔ e = ⟨first⟩ := by
  constructor
  · intro ⟨k, hk, he⟩
    obtain ⟨rfl, -⟩ := getElem?_singleton hk
    exact he
  · intro he
    exact ⟨0, rfl, he⟩

theorem markedFrom_zero {marks : List Bool} {e : ExprId} :
    MarkedFrom 0 marks e ↔ marks[e.index]? = some true := by
  constructor
  · intro ⟨k, hk, he⟩
    rwa [he, Nat.zero_add]
  · intro h
    exact ⟨e.index, h, by rw [Nat.zero_add]⟩

theorem not_markedFrom_replicate (first n : Nat) (e : ExprId) :
    ¬ MarkedFrom first (List.replicate n false) e := by
  intro ⟨k, hk, _⟩
  rw [List.getElem?_replicate] at hk
  split at hk <;> cases hk

namespace Tree

theorem reaches_whole {t : Tree} {e e' : ExprId} {x : Expression} (hx : t.expr? e = some x) :
    Graph.Reaches t.partsOf t.exprIds [e] e' ↔
      Graph.Reaches t.partsOf t.exprIds x.kind.children e' ∨ e' = e := by
  rw [Graph.reaches_singleton (mem_exprIds.mpr (by simp [hx])), partsOf, hx, Option.elim_some]

theorem not_reaches_nil {t : Tree} {e : ExprId} :
    ¬ Graph.Reaches t.partsOf t.exprIds [] e := by
  intro h
  induction h with
  | start hs => cases hs
  | step _ _ _ ih => exact ih

end Tree

namespace Value

open InfraModule.Tree InfraModule.Graph

variable {t : Tree} {e : ExprId}

mutual

/-- What can be reached from a value that was laid out is what is left of it. -/
theorem reaches_rootAt (v : Value) {first : Nat} (h : t.Carries first (v.layout first)) :
    Reaches t.partsOf t.exprIds [v.rootAt first] e ↔ MarkedFrom first v.kept e := by
  match v with
  | .literal _ | .reference _ | .getAttribute _ _ | .conditionReference _ =>
    obtain ⟨-, x, hx, hk⟩ := exists_expr_rootAt h (List.nil_append _).symm
    rw [reaches_whole hx, hk, kept, markedFrom_singleton]
    simp [ExprKind.children, not_reaches_nil, rootAt, nodes]
  | .list items =>
    obtain ⟨hparts, x, hx, hk⟩ := exists_expr_rootAt h rfl
    rw [reaches_whole hx, hk, kept, markedFrom_append, markedFrom_singleton, ExprKind.children,
      reaches_itemsAt items hparts, rootAt_of_nodes rfl,
      length_keptOfItems]
  | .object fields =>
    obtain ⟨hparts, x, hx, hk⟩ := exists_expr_rootAt h rfl
    rw [reaches_whole hx, hk, kept, markedFrom_append, markedFrom_singleton, ExprKind.children,
      reaches_fieldsAt fields hparts, rootAt_of_nodes rfl,
      length_keptOfFields]
  | .findInMap mapping top second =>
    obtain ⟨hparts, x, hx, hk⟩ := exists_expr_rootAt h rfl
    obtain ⟨htop, hsecond⟩ := carries_append.mp hparts
    rw [length_layout] at hsecond
    have hpair (a b : ExprId) : [a, b] = [a] ++ [b] := rfl
    rw [reaches_whole hx, hk, kept, markedFrom_append, markedFrom_append, markedFrom_singleton,
      ExprKind.children, hpair, reaches_append, reaches_rootAt top htop,
      reaches_rootAt second hsecond, rootAt_of_nodes rfl]
    simp only [List.length_append, length_kept]

theorem reaches_itemsAt (vs : List Value) {first : Nat}
    (h : t.Carries first (layoutOfItems vs first)) :
    Reaches t.partsOf t.exprIds (itemsAt vs first) e ↔ MarkedFrom first (keptOfItems vs) e := by
  match vs with
  | [] =>
    refine iff_of_false not_reaches_nil ?_
    intro ⟨k, hk, _⟩
    cases hk
  | v :: vs =>
    obtain ⟨hfirst, hrest⟩ := carries_append.mp h
    rw [length_layout] at hrest
    rw [itemsAt, ← List.singleton_append, reaches_append, reaches_rootAt v hfirst,
      reaches_itemsAt vs hrest, keptOfItems, markedFrom_append, length_kept]

theorem reaches_fieldsAt (vs : List (String × Value)) {first : Nat}
    (h : t.Carries first (layoutOfFields vs first)) :
    Reaches t.partsOf t.exprIds (Registry.ofList (fieldsAt vs first)).values e ↔
      MarkedFrom first (keptOfFields vs) e := by
  match vs with
  | [] =>
    refine iff_of_false not_reaches_nil ?_
    intro ⟨k, hk, _⟩
    cases hk
  | (name, v) :: vs =>
    obtain ⟨hfirst, hrest⟩ := carries_append.mp h
    rw [length_layout] at hrest
    have hmem (starts : List ExprId) (hs : ∀ i, i ∈ (Registry.ofList
        (fieldsAt ((name, v) :: vs) first)).values ↔ i ∈ starts) :
        Reaches t.partsOf t.exprIds (Registry.ofList (fieldsAt ((name, v) :: vs) first)).values e ↔
          Reaches t.partsOf t.exprIds starts e :=
      ⟨fun hr ↦ hr.mono fun i hi ↦ (hs i).mp hi, fun hr ↦ hr.mono fun i hi ↦ (hs i).mpr hi⟩
    rw [keptOfFields, markedFrom_append]
    by_cases hname : name ∈ vs.map Prod.fst
    · rw [if_pos hname, List.length_replicate, ← reaches_fieldsAt vs hrest,
        hmem (Registry.ofList (fieldsAt vs (first + v.nodes.length))).values]
      · simp [not_markedFrom_replicate]
      · intro i
        rw [fieldsAt, Registry.mem_values_ofList_cons, map_fst_fieldsAt]
        simp [hname]
    · rw [if_neg hname, length_kept, ← reaches_rootAt v hfirst, ← reaches_fieldsAt vs hrest,
        ← reaches_append]
      apply hmem
      intro i
      rw [fieldsAt, Registry.mem_values_ofList_cons, map_fst_fieldsAt]
      simp [hname]

end

end Value

end InfraModule
