import InfraModule.Proofs.Reachability
import InfraModule.Tree.Basic
import Mathlib.Data.List.Nodup
import Mathlib.Data.List.Perm.Subperm

namespace InfraModule.Tree

open InfraModule.Graph

variable {t t' : Tree}

theorem ext_lookup (hd : ∀ id, t.decl? id = t'.decl? id) (he : ∀ id, t.expr? id = t'.expr? id) :
    t = t' := by
  cases t
  cases t'
  rw [Tree.mk.injEq]
  exact ⟨Array.ext_getElem? fun i ↦ hd ⟨i⟩, Array.ext_getElem? fun i ↦ he ⟨i⟩⟩

theorem mem_declIds {id : DeclId} : id ∈ t.declIds ↔ (t.decl? id).isSome := by
  obtain ⟨i⟩ := id
  simp [declIds, decl?]

theorem mem_exprIds {id : ExprId} : id ∈ t.exprIds ↔ (t.expr? id).isSome := by
  obtain ⟨i⟩ := id
  simp [exprIds, expr?]

theorem nodup_declIds (t : Tree) : t.declIds.Nodup :=
  List.nodup_range.map fun _ _ h ↦ DeclId.mk.inj h

theorem nodup_exprIds (t : Tree) : t.exprIds.Nodup :=
  List.nodup_range.map fun _ _ h ↦ ExprId.mk.inj h

@[simp]
theorem length_declIds (t : Tree) : t.declIds.length = t.declarations.size := by
  simp [declIds]

theorem length_le_of_nodup {ids : List DeclId} (h : ids.Nodup) (hsub : ids ⊆ t.declIds) :
    ids.length ≤ t.declarations.size := by
  have hle := (h.subperm hsub).length_le
  rwa [length_declIds] at hle

theorem nodup_walk (t : Tree) : t.walk.Nodup := nodup_preorder t.nodup_declIds [root]

theorem mem_walk {id : DeclId} : id ∈ t.walk ↔ Reaches t.childrenOf t.declIds [root] id :=
  mem_preorder

theorem exists_decl_of_mem_walk {id : DeclId} (h : id ∈ t.walk) : ∃ d, t.decl? id = some d :=
  Option.isSome_iff_exists.mp (mem_declIds.mp (mem_walk.mp h).mem)

theorem isSome_of_mem_childrenOf {a p : DeclId} (h : a ∈ t.childrenOf p) :
    (t.decl? p).isSome := by
  by_contra hn
  rw [Option.not_isSome_iff_eq_none] at hn
  simp [childrenOf, hn] at h

theorem mem_walk_of_parents (hroot : (t.decl? root).isSome)
    (hparent : ∀ a, (t.decl? a).isSome → a ≠ root → ∃ p, p.index < a.index ∧ a ∈ t.childrenOf p)
    {a : DeclId} (ha : (t.decl? a).isSome) : a ∈ t.walk := by
  rw [mem_walk]
  obtain ⟨i⟩ := a
  induction i using Nat.strongRecOn with
  | ind i ih =>
    by_cases hne : (⟨i⟩ : DeclId) = root
    · rw [hne]
      exact .start (List.mem_singleton_self _) (mem_declIds.mpr hroot)
    · obtain ⟨p, hp, hmem⟩ := hparent ⟨i⟩ ha hne
      have hsome := isSome_of_mem_childrenOf hmem
      exact .step (ih p.index hp hsome) hmem (mem_declIds.mpr ha)

theorem walk_congr (hids : t'.declIds = t.declIds) (hc : ∀ id, t'.childrenOf id = t.childrenOf id) :
    t'.walk = t.walk := by
  rw [walk, walk, hids, funext hc]

/-- `t.Holds a e`: the declaration `a` holds the expression `e`, directly or as a part of another
expression. -/
inductive Holds (t : Tree) (a : DeclId) : ExprId → Prop
  | root {d : Declaration} {e : ExprId} : t.decl? a = some d → e ∈ d.kind.roots →
      (t.expr? e).isSome → Holds t a e
  | part {e p : ExprId} : Holds t a e → p ∈ t.partsOf e → (t.expr? p).isSome → Holds t a p

theorem Holds.isSome {a : DeclId} {e : ExprId} (h : t.Holds a e) : (t.expr? e).isSome := by
  cases h with
  | root _ _ he => exact he
  | part _ _ he => exact he

theorem Holds.exists_decl {a : DeclId} {e : ExprId} (h : t.Holds a e) :
    ∃ d, t.decl? a = some d := by
  induction h with
  | root hd => exact ⟨_, hd⟩
  | part _ _ _ ih => exact ih

theorem mem_descendants {e p : ExprId} :
    p ∈ t.descendants e ↔ Reaches t.partsOf t.exprIds [e] p := mem_preorder

theorem holds_iff {a : DeclId} {d : Declaration} (ha : t.decl? a = some d) {e : ExprId} :
    t.Holds a e ↔ e ∈ d.kind.roots.flatMap t.descendants := by
  simp only [List.mem_flatMap, mem_descendants]
  constructor
  · intro h
    induction h with
    | root hd he hs =>
      rw [ha, Option.some_inj] at hd
      subst hd
      exact ⟨_, he, .start (List.mem_singleton_self _) (mem_exprIds.mpr hs)⟩
    | part _ hp hs ih =>
      obtain ⟨r, hr, hreach⟩ := ih
      exact ⟨r, hr, hreach.step hp (mem_exprIds.mpr hs)⟩
  · rintro ⟨r, hr, hreach⟩
    induction hreach with
    | start hs hv =>
      rw [List.mem_singleton] at hs
      subst hs
      exact .root ha hr (mem_exprIds.mp hv)
    | step _ hp hv ih => exact .part ih hp (mem_exprIds.mp hv)

/-- What is below an expression depends on the parts of what is below it alone, as long as these
exist. -/
theorem descendants_congr {e : ExprId} {P : ExprId → Prop} (he : P e)
    (hparts : ∀ x, P x → t'.partsOf x = t.partsOf x) (hP : ∀ x, P x → ∀ y ∈ t.partsOf x, P y)
    (hmem : ∀ x, P x → ((t'.expr? x).isSome ↔ (t.expr? x).isSome)) :
    t'.descendants e = t.descendants e := by
  refine preorder_congr t.nodup_exprIds t'.nodup_exprIds hparts hP ?_ (by simpa using he)
  intro x hx
  rw [mem_exprIds, mem_exprIds]
  exact hmem x hx

end InfraModule.Tree
