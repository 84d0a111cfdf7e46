import InfraModule.Cycle
import InfraModule.Proofs.CycleFinder
import InfraModule.Proofs.TreeWalk
import Mathlib.Data.List.Rotate

namespace InfraModule

open Relation

namespace Graph

variable {α : Type}

theorem mapM_eq_some {β : Type} {f : α → Option β} {g : α → β} {as : List α}
    (h : ∀ a ∈ as, f a = some (g a)) : as.mapM f = some (as.map g) := by
  induction as with
  | nil => rfl
  | cons a as ih =>
    have ha : f a = some (g a) := h a List.mem_cons_self
    have has := ih fun b hb ↦ h b (List.mem_cons_of_mem a hb)
    simp [ha, has]

theorem eraseReps_of_nodup [DecidableEq α] {as : List α} (h : as.Nodup) : as.eraseReps = as := by
  have hloop (a : α) (as acc : List α) (h : (a :: as).Nodup) :
      List.eraseRepsBy.loop (· == ·) a as acc = acc.reverse ++ a :: as := by
    induction as generalizing a acc with
    | nil => simp [List.eraseRepsBy.loop]
    | cons b as ih =>
      obtain ⟨ha, h⟩ := List.nodup_cons.mp h
      have hab : (a == b) = false := beq_false_of_ne (List.ne_of_not_mem_cons ha)
      rw [List.eraseRepsBy.loop, hab, ih b (a :: acc) h, List.reverse_cons, List.append_assoc]
      rfl
  cases as with
  | nil => rfl
  | cons a as => exact hloop a as [] h

end Graph

theorem Declaration.mem_dependsOnTargets {d : Declaration} {id : DeclId} :
    id ∈ d.dependsOnTargets ↔ ⟨id, .dependsOn⟩ ∈ d.dependencies := by
  simp only [dependsOnTargets, List.mem_map, List.mem_filter, decide_eq_true_eq]
  constructor
  · rintro ⟨⟨target, origin⟩, ⟨hmem, rfl⟩, rfl⟩
    exact hmem
  · intro hmem
    exact ⟨_, ⟨hmem, rfl⟩, rfl⟩

theorem Declaration.nodup_dependsOnTargets (d : Declaration) : d.dependsOnTargets.Nodup := by
  refine (d.dependencies.nodup.filter _).map_on fun x hx y hy heq ↦ ?_
  simp only [List.mem_filter, decide_eq_true_eq] at hx hy
  cases x
  cases y
  simp_all

namespace Cycle

theorem distinct_eq (t : Tree) (cs : List Cycle) :
    distinct t cs = Graph.representatives (signature t) cs := by
  rw [distinct, Graph.representatives_map, List.map_map]
  exact List.map_id _

theorem distinct_subset {t : Tree} {cs : List Cycle} : distinct t cs ⊆ cs :=
  distinct_eq t cs ▸ Graph.representatives_subset _ cs

end Cycle

namespace Tree

open InfraModule.Graph

variable {t : Tree}

/-- `t.Requires a b`: the tree says that `a` is to be deployed after `b`. -/
def Requires (t : Tree) (a b : DeclId) : Prop := b ∈ t.prerequisitesOf a

theorem requires_iff_mem {a b : DeclId} : t.Requires a b ↔
    ∃ d, t.decl? a = some d ∧ ⟨b, .dependsOn⟩ ∈ d.dependencies := by
  unfold Requires prerequisitesOf prerequisites?
  cases hd : t.decl? a with
  | none => simp
  | some d => simp [Declaration.mem_dependsOnTargets]

theorem Requires.mem_declIds {a b : DeclId} (h : t.Requires a b) : a ∈ t.declIds := by
  obtain ⟨d, hd, -⟩ := requires_iff_mem.mp h
  simp [Tree.mem_declIds, hd]

theorem reaches_of_reflTransGen {a b : DeclId} (h : ReflTransGen t.Requires a b)
    (hb : b ∈ t.declIds) : Reaches t.prerequisitesOf t.declIds [a] b := by
  suffices hs : a ∈ t.declIds ∧ Reaches t.prerequisitesOf t.declIds [a] b from hs.2
  induction h using ReflTransGen.head_induction_on with
  | refl => exact ⟨hb, .self hb⟩
  | head hac _ ih =>
    have ha := hac.mem_declIds
    exact ⟨ha, (Reaches.edge ha hac ih.1).trans ih.2⟩

theorem prerequisites?_eq {id : DeclId} (h : id ∈ t.declIds) :
    t.prerequisites? id = some (t.prerequisitesOf id) := by
  obtain ⟨d, hd⟩ := Option.isSome_iff_exists.mp (mem_declIds.mp h)
  simp [prerequisitesOf, prerequisites?, hd]

theorem components?_eq (t : Tree) : t.components? = some t.components := by
  obtain ⟨numbers, heq, -⟩ := exists_components (fun _ h ↦ t.prerequisites?_eq h) t.walk
  rw [components, components?, heq, Option.getD_some]

theorem isNumbering_components (t : Tree) :
    IsNumbering t.prerequisitesOf t.declIds t.walk t.components := by
  obtain ⟨numbers, heq, h⟩ := exists_components (fun _ h ↦ t.prerequisites?_eq h) t.walk
  rwa [components, components?, heq, Option.getD_some]

def linksWithin (t : Tree) (components : List (DeclId × ℕ)) (id : DeclId) : List DeclId :=
  (t.prerequisitesOf id).filter fun target ↦ components.lookup target = components.lookup id

theorem nodup_linksWithin (t : Tree) (components : List (DeclId × ℕ)) (a : DeclId) :
    (t.linksWithin components a).Nodup := by
  refine List.Nodup.filter _ ?_
  unfold prerequisitesOf prerequisites?
  cases t.decl? a with
  | none => exact List.nodup_nil
  | some d => exact d.nodup_dependsOnTargets

theorem linksWithin?_eq (components : List (DeclId × ℕ)) {id : DeclId} (h : id ∈ t.declIds) :
    t.linksWithin? components id = some (t.linksWithin components id) := by
  rw [linksWithin?, prerequisites?_eq h, Option.map_some]
  exact congrArg some (eraseReps_of_nodup (t.nodup_linksWithin components id))

theorem mem_linksWithin {a b : DeclId} (ha : Reaches t.prerequisitesOf t.declIds t.walk a) :
    b ∈ t.linksWithin t.components a ↔
      t.Requires a b ∧ Mutual t.prerequisitesOf t.declIds a b := by
  unfold linksWithin
  rw [List.mem_filter, decide_eq_true_iff]
  refine and_congr_right fun _ ↦ ⟨fun h ↦ ?_, fun h ↦ ?_⟩
  · exact (t.isNumbering_components.lookup_eq_iff ha).mp h.symm
  · exact ((t.isNumbering_components.lookup_eq_iff ha).mpr h).symm

theorem reaches_of_mem_walk {a : DeclId} (h : a ∈ t.walk) :
    Reaches t.prerequisitesOf t.declIds t.walk a := .start h (mem_walk.mp h).mem

theorem reflTransGen_linksWithin {a b : DeclId}
    (ha : Reaches t.prerequisitesOf t.declIds t.walk a)
    (h : Mutual t.prerequisitesOf t.declIds a b) :
    ReflTransGen (fun a b ↦ b ∈ t.linksWithin t.components a) a b := by
  obtain ⟨hab, hba⟩ := h
  induction hab with
  | start hs _ =>
    rw [List.mem_singleton] at hs
    exact hs ▸ .refl
  | @step c d hac hcd hd ih =>
    have hca := (Reaches.edge hac.mem hcd hd).trans hba
    refine (ih hca).tail ((mem_linksWithin (ha.trans hac)).mpr ⟨hcd, ?_, hba.trans hac⟩)
    exact .edge hac.mem hcd hd

theorem leads_linksWithin_iff {a b : DeclId}
    (ha : Reaches t.prerequisitesOf t.declIds t.walk a) :
    Leads (t.linksWithin t.components) a b ↔ t.components.lookup b = t.components.lookup a := by
  rw [eq_comm, t.isNumbering_components.lookup_eq_iff ha]
  refine ⟨fun h ↦ ?_, reflTransGen_linksWithin ha⟩
  induction h with
  | refl => exact ⟨.self ha.mem, .self ha.mem⟩
  | tail _ hcd ih => exact ih.trans ((mem_linksWithin (ha.trans ih.1)).mp hcd).2

def starts (t : Tree) : List DeclId := representatives (fun id ↦ t.components.lookup id) t.walk

def loopsAt (t : Tree) (s : DeclId) : List Cycle :=
  loopsFrom (t.linksWithin t.components) (t.declarations.size + 1) [] s

theorem cycles?_eq_flatMap (t : Tree) : t.cycles? = some (t.starts.flatMap t.loopsAt) := by
  let reached := preorder t.prerequisitesOf t.declIds t.walk
  have hsub : reached ⊆ t.declIds := fun id h ↦ (mem_preorder.mp h).mem
  have hlen : reached.length < t.declarations.size + 1 :=
    Nat.lt_succ_of_le (length_le_of_nodup (nodup_preorder t.nodup_declIds t.walk) hsub)
  have hlinks (id : DeclId) (h : id ∈ reached) :
      t.linksWithin? t.components id = some (t.linksWithin t.components id) :=
    linksWithin?_eq _ (hsub h)
  have hclosed (a : DeclId) (ha : a ∈ reached) :
      ∀ b ∈ t.linksWithin t.components a, b ∈ reached := by
    intro b hb
    have ha := mem_preorder.mp ha
    exact mem_preorder.mpr (ha.trans ((mem_linksWithin ha).mp hb).2.1)
  simp only [cycles?, t.components?_eq, bind, Option.bind_some]
  exact cycles?_eq_some hlinks hclosed (fun a ha b ↦ leads_linksWithin_iff (mem_preorder.mp ha))
    hlen fun id h ↦ mem_preorder.mpr (reaches_of_mem_walk h)

theorem cycles_eq_flatMap (t : Tree) : t.cycles = t.starts.flatMap t.loopsAt := by
  rw [cycles, cycles?_eq_flatMap, Option.getD_some]

theorem cycles?_eq (t : Tree) : t.cycles? = some t.cycles := by
  rw [cycles?_eq_flatMap, cycles_eq_flatMap]

theorem mem_declIds_of_mem_cycle {c : List DeclId} (hc : IsElementaryCycle t.prerequisitesOf c)
    {a : DeclId} (ha : a ∈ c) : a ∈ t.declIds := by
  obtain ⟨b, c, rfl⟩ := List.exists_cons_of_ne_nil hc.nonempty
  obtain ⟨d, had⟩ := exists_rel_of_isChain hc.closed ha
  exact Requires.mem_declIds had

theorem mem_cycles_of_lasso {s u : DeclId} {path rest : List DeclId}
    (hs : s ∈ t.starts)
    (hhead : (path ++ [u]).head? = some s)
    (hchain : (path ++ [u]).IsChain fun a b ↦ b ∈ t.linksWithin t.components a)
    (hloop : IsElementaryCycle (t.linksWithin t.components) (u :: rest))
    (hnodup : path.Nodup) (hout : ∀ x ∈ path, x ∉ u :: rest) : u :: rest ∈ t.cycles := by
  have hwhole : (path ++ u :: (rest ++ [u])).IsChain fun a b ↦ b ∈ t.linksWithin t.components a :=
    List.isChain_split.mpr ⟨hchain, hloop.closed⟩
  have hnd : (path ++ u :: rest).Nodup :=
    List.nodup_append.mpr ⟨hnodup, hloop.nodup, fun x hx y hy e ↦ hout x hx (e ▸ hy)⟩
  obtain ⟨way, hway⟩ : ∃ way, path ++ u :: rest = s :: way := by
    cases path with
    | nil => exact ⟨rest, by simp_all⟩
    | cons x path => exact ⟨path ++ u :: rest, by simp_all⟩
  have hclosed : (s :: way ++ [u]).IsChain fun a b ↦ b ∈ t.linksWithin t.components a := by
    rw [← hway, List.append_assoc]
    exact hwhole
  have hsub : s :: way ⊆ t.declIds := by
    intro x hx
    obtain ⟨y, hxy⟩ := exists_rel_of_isChain hclosed hx
    exact Requires.mem_declIds (List.mem_of_mem_filter hxy)
  have hnd' : (s :: way).Nodup := hway ▸ hnd
  have hlen := length_le_of_nodup hnd' hsub
  have hfound : (s :: way).dropWhile (· ≠ u) ∈ t.loopsAt s :=
    mem_loopsFrom hclosed hnd' (by simp [← hway]) (by
      rw [List.length_cons] at hlen
      omega)
  rw [← hway, dropWhile_ne_append_cons fun hu ↦ hout u hu List.mem_cons_self] at hfound
  rw [cycles_eq_flatMap]
  exact List.mem_flatMap.mpr ⟨s, hs, hfound⟩

/-- The cycle is found from the first walked declaration of its component, on a way that meets the
cycle at its end alone, and then once round. -/
theorem exists_rotation_mem_cycles {c : List DeclId} (hc : IsElementaryCycle t.prerequisitesOf c)
    {v w : DeclId} (hv : v ∈ c) (hw : w ∈ t.walk) (hvw : ReflTransGen t.Requires v w)
    (hwv : ReflTransGen t.Requires w v) : ∃ c' ∈ t.cycles, c ~r c' := by
  obtain ⟨s, hs, hkey⟩ := exists_representative (fun id ↦ t.components.lookup id) hw
  have hreach := reaches_of_mem_walk (representatives_subset _ _ hs)
  have hmutual : ∀ x ∈ c, Mutual t.prerequisitesOf t.declIds s x := by
    intro x hx
    have hsw := (t.isNumbering_components.lookup_eq_iff hreach).mp hkey
    have hvx : Mutual t.prerequisitesOf t.declIds v x :=
      ⟨reaches_of_reflTransGen (hc.reflTransGen hv hx) (mem_declIds_of_mem_cycle hc hx),
        reaches_of_reflTransGen (hc.reflTransGen hx hv) (mem_declIds_of_mem_cycle hc hv)⟩
    refine hsw.trans (.trans ⟨?_, ?_⟩ hvx)
    · exact reaches_of_reflTransGen hwv (mem_declIds_of_mem_cycle hc hv)
    · exact reaches_of_reflTransGen hvw (mem_walk.mp hw).mem
  obtain ⟨path, u, hu, hout, hnodup, hchain, hhead⟩ :=
    exists_path_to (S := (· ∈ c)) (reflTransGen_linksWithin hreach (hmutual v hv)) hv
  obtain ⟨as, bs, rfl⟩ := List.append_of_mem hu
  have hmem (x : DeclId) : x ∈ u :: bs ++ as ↔ x ∈ as ++ u :: bs := List.perm_append_comm.mem_iff
  have hloop : IsElementaryCycle (t.linksWithin t.components) (u :: (bs ++ as)) := by
    refine hc.rotate.mono fun x hx y hy hxy ↦ ?_
    have hsx := hmutual x ((hmem x).mp hx)
    have hsy := hmutual y ((hmem y).mp hy)
    exact (mem_linksWithin (hreach.trans hsx.1)).mpr ⟨hxy, hsx.symm.trans hsy⟩
  refine ⟨u :: (bs ++ as), ?_, List.isRotated_append⟩
  exact mem_cycles_of_lasso hs hhead hchain hloop hnodup fun x hx h ↦ hout x hx ((hmem x).mp h)

theorem isElementaryCycle_of_mem_cycles {c : List DeclId} (h : c ∈ t.cycles) :
    IsElementaryCycle t.prerequisitesOf c := by
  rw [cycles_eq_flatMap] at h
  obtain ⟨s, _, hc⟩ := List.mem_flatMap.mp h
  have hlinks := loopsFrom_sound List.nodup_nil (by simp) c hc
  exact hlinks.mono fun x _ y _ hxy ↦ List.mem_of_mem_filter hxy

theorem cycles_eq_nil_iff (hw : ∀ a ∈ t.declIds, a ∈ t.walk) :
    t.cycles = [] ↔ ∀ a, ¬ TransGen t.Requires a a := by
  constructor
  · intro hnil a ha
    obtain ⟨c, hc, hac⟩ := exists_isElementaryCycle ha
    have hwalk := hw a (mem_declIds_of_mem_cycle hc hac)
    obtain ⟨c', hc', -⟩ := exists_rotation_mem_cycles hc hac hwalk .refl .refl
    simp [hnil] at hc'
  · intro h
    refine List.eq_nil_iff_forall_not_mem.mpr fun c hc ↦ ?_
    obtain ⟨a, -, ha⟩ := (isElementaryCycle_of_mem_cycles hc).exists_transGen
    exact h a ha

/-- The search for components comes to its end without looking up a declaration that does not
exist. It gives one number to every declaration that the walked ones lead to, and none to any
other; two of these have the same number exactly when each leads to the other. -/
theorem components_exact (t : Tree) :
    t.components? = some t.components ∧ (t.components.map Prod.fst).Nodup ∧
    (∀ a, (t.components.lookup a).isSome ↔ Reaches t.prerequisitesOf t.declIds t.walk a) ∧
    ∀ a b, (t.components.lookup a).isSome → (t.components.lookup b).isSome →
      (t.components.lookup a = t.components.lookup b ↔
        Mutual t.prerequisitesOf t.declIds a b) := by
  have h := t.isNumbering_components
  refine ⟨t.components?_eq, h.nodup, h.isSome_iff, fun a b ha _ ↦ ?_⟩
  exact h.lookup_eq_iff ((h.isSome_iff a).mp ha)

/-- The search ends without looking up a declaration that does not exist; every list that it returns
is a cycle without repetition; and every cycle in whose component there is a walked declaration
is returned, begun at one of its members. -/
theorem cycles_exact (t : Tree) :
    t.cycles? = some t.cycles ∧
    (∀ c ∈ t.cycles, IsElementaryCycle t.prerequisitesOf c) ∧
    ∀ c, IsElementaryCycle t.prerequisitesOf c →
      (∃ v ∈ c, ∃ w ∈ t.walk, ReflTransGen t.Requires v w ∧ ReflTransGen t.Requires w v) →
      ∃ c' ∈ t.cycles, c ~r c' := by
  refine ⟨t.cycles?_eq, fun c hc ↦ isElementaryCycle_of_mem_cycles hc, ?_⟩
  rintro c hc ⟨v, hv, w, hw, hvw, hwv⟩
  exact exists_rotation_mem_cycles hc hv hw hvw hwv

theorem knows_of_subset_cycles {cs : List Cycle} (h : cs ⊆ t.cycles) : t.knows cs.flatten := by
  simp only [knows, List.all_eq_true, List.mem_flatten]
  intro a ⟨c, hc, ha⟩
  exact mem_declIds.mp (mem_declIds_of_mem_cycle (isElementaryCycle_of_mem_cycles (h hc)) ha)

theorem reportCycles?_eq_map (t : Tree) :
    t.reportCycles? = some ((Cycle.distinct t t.cycles).map (Cycle.report t)) := by
  have hdistinct : Cycle.distinct? t t.cycles = some (Cycle.distinct t t.cycles) :=
    if_pos (knows_of_subset_cycles (List.Subset.refl _))
  have hreport : (Cycle.distinct t t.cycles).mapM (Cycle.report? t) =
      some ((Cycle.distinct t t.cycles).map (Cycle.report t)) := by
    refine mapM_eq_some fun c hc ↦ if_pos ?_
    have hknown : t.knows [c].flatten :=
      knows_of_subset_cycles (by simpa using Cycle.distinct_subset hc)
    rwa [List.flatten_singleton] at hknown
  simp only [reportCycles?, cycles?_eq, bind, Option.bind_some, hdistinct, hreport]

theorem reportCycles_eq_map (t : Tree) :
    t.reportCycles = (Cycle.distinct t t.cycles).map (Cycle.report t) := by
  rw [reportCycles, reportCycles?_eq_map, Option.getD_some]

theorem reportCycles?_eq (t : Tree) : t.reportCycles? = some t.reportCycles := by
  rw [reportCycles?_eq_map, reportCycles_eq_map]

theorem reportCycles_eq_nil_iff : t.reportCycles = [] ↔ t.cycles = [] := by
  rw [reportCycles_eq_map, List.map_eq_nil_iff, Cycle.distinct_eq, representatives_eq_nil]

end Tree

end InfraModule
