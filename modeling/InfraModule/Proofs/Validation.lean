import InfraModule.Draft
import InfraModule.Proofs.Forest
import InfraModule.Proofs.TreeWalk
import InfraModule.Tree.Integrity

namespace InfraModule

open Relation

namespace Graph

variable {α : Type} {next next' : α → List α}

theorem below_congr {a : α} (h : ∀ b, Leads next a b → next' b = next b) (depth : ℕ) :
    below next' depth a = below next depth a := by
  induction depth generalizing a with
  | zero => rfl
  | succ depth ih =>
    rw [below, below, h a .refl]
    congr 1
    apply List.flatMap_congr
    intro b hb
    exact ih fun c hc ↦ h c (.head hb hc)

end Graph

namespace Tree

open InfraModule.Graph

variable {t : Tree}

section Checks

variable {α ε : Type} {as : List α}

theorem throw_ne_pure (e : ε) : (throw e : ExceptT ε Option Unit) ≠ pure () := nofun

theorem bind_eq_pure {x : ExceptT ε Option Unit} {f : Unit → ExceptT ε Option Unit} :
    (x >>= f) = pure () ↔ x = pure () ∧ f () = pure () := by
  match x with
  | none => exact iff_of_false nofun nofun
  | some (.error e) => exact iff_of_false nofun nofun
  | some (.ok ()) => exact (and_iff_right rfl).symm

theorem forM_eq_pure {f : α → ExceptT ε Option Unit} :
    forM as f = pure () ↔ ∀ a ∈ as, f a = pure () := by
  induction as with
  | nil => exact iff_of_true rfl (by simp)
  | cons a as ih => rw [List.forM_cons, bind_eq_pure, List.forall_mem_cons, ih]

theorem forM_eq_mk {f : α → ExceptT ε Option Unit} {g : α → Except ε Unit}
    (h : ∀ a ∈ as, f a = .mk (some (g a))) : forM as f = .mk (some (forM as g)) := by
  induction as with
  | nil => rfl
  | cons a as ih =>
    rw [List.forall_mem_cons] at h
    rw [List.forM_cons, List.forM_cons, h.1, ih h.2]
    cases g a <;> rfl

end Checks

/-- What has been entered on the way down is all different, and there is depth enough for what
has not. -/
structure Entered (t : Tree) (depth : ℕ) (entered : List DeclId) : Prop where
  nodup : entered.Nodup
  subset : entered ⊆ t.declIds
  room : t.declarations.size < depth + entered.length

theorem entered_nil (t : Tree) : t.Entered (t.declarations.size + 1) [] :=
  ⟨List.nodup_nil, List.nil_subset _, by simp⟩

theorem Entered.exists_depth {depth : ℕ} {entered : List DeclId} (h : t.Entered depth entered) :
    ∃ m, depth = m + 1 := by
  have hle := length_le_of_nodup h.nodup h.subset
  have hroom := h.room
  exact ⟨depth - 1, by omega⟩

theorem Entered.cons {depth : ℕ} {entered : List DeclId} {a : DeclId} {d : Declaration}
    (h : t.Entered (depth + 1) entered) (hd : t.decl? a = some d) (ha : a ∉ entered) :
    t.Entered depth (a :: entered) := by
  have hroom := h.room
  refine ⟨List.nodup_cons.mpr ⟨ha, h.nodup⟩, ?_, ?_⟩
  · exact List.cons_subset.mpr ⟨mem_declIds.mpr (by simp [hd]), h.subset⟩
  · rw [List.length_cons]
    omega

theorem Entered.exists_checkFrom {depth : ℕ} {entered : List DeclId} (h : t.Entered depth entered)
    (container : Option DeclId) (a : DeclId) :
    ∃ result, t.checkFrom depth entered container a = .mk (some result) := by
  induction depth generalizing entered container a with
  | zero =>
    obtain ⟨m, hm⟩ := h.exists_depth
    omega
  | succ depth ih =>
    rw [checkFrom]
    cases hd : t.decl? a with
    | none => exact ⟨_, rfl⟩
    | some d =>
      by_cases ha : a ∈ entered
      · simp only [ha, if_true]
        exact ⟨_, rfl⟩
      · choose result hresult using ih (h.cons hd ha) (some a)
        simp only [ha, if_false, List.forM_eq_forM, forM_eq_mk fun b _ ↦ hresult b]
        cases container with
        | none => exact ⟨_, rfl⟩
        | some c =>
          dsimp only
          cases t.checkPlace c d <;> exact ⟨_, rfl⟩

theorem validate?_eq (t : Tree) : t.validate? = .mk (some t.validate) := by
  obtain ⟨result, h⟩ := t.entered_nil.exists_checkFrom none root
  rw [validate, validate?, h]
  rfl

theorem validate_eq_iff {result : Except Inconsistency Unit} :
    t.validate = result ↔ t.validate? = .mk (some result) := by
  rw [validate?_eq]
  exact ⟨fun h ↦ by rw [h], fun h ↦ Option.some.inj h⟩

theorem checkPlace_eq_ok {container : DeclId} {d : Declaration} :
    t.checkPlace container d = .ok () ↔ d.parent = some container ∧ d.location.isSome := by
  unfold checkPlace
  cases d.parent with
  | none => simp
  | some p =>
    by_cases hp : p = container
    · cases d.location <;> simp [hp]
    · simp [hp]

theorem checkFrom_succ_eq_pure {depth : ℕ} {entered : List DeclId} {container : Option DeclId}
    {a : DeclId} : t.checkFrom (depth + 1) entered container a = pure () ↔
      ∃ d, t.decl? a = some d ∧ a ∉ entered ∧
        (∀ c, container = some c → d.parent = some c ∧ d.location.isSome) ∧
        ∀ b ∈ t.childrenOf a, t.checkFrom depth (a :: entered) (some a) b = pure () := by
  rw [checkFrom]
  cases hd : t.decl? a with
  | none => exact iff_of_false (throw_ne_pure _) (by simp)
  | some d =>
    have hchildren : t.childrenOf a = d.children := by simp [childrenOf, hd]
    by_cases ha : a ∈ entered
    · simp only [ha, if_true]
      exact iff_of_false (throw_ne_pure _) (by simp)
    · simp only [ha, if_false, List.forM_eq_forM, Option.some.injEq, exists_eq_left', hchildren,
        not_false_eq_true, true_and, ← forM_eq_pure]
      cases container with
      | none => simp
      | some c =>
        simp only [Option.some.injEq, forall_eq', ← checkPlace_eq_ok (t := t)]
        rw [bind_eq_pure]
        exact and_congr_left fun _ ↦ ⟨Option.some.inj, fun h ↦ congrArg some h⟩

/-- What is below the root exists and has a location, and names as its parent what lists it; nothing
lists the root. -/
structure WellPlaced (t : Tree) : Prop where
  inside : ∀ a, Leads t.childrenOf root a → (t.decl? a).isSome
  rootless : ∀ a, Leads t.childrenOf root a → root ∉ t.childrenOf a
  placed : ∀ a, Leads t.childrenOf root a → ∀ c ∈ t.childrenOf a,
    ∃ d, t.decl? c = some d ∧ d.parent = some a ∧ d.location.isSome

theorem exists_checkFrom_of_leads (h : t.validate = .ok ()) {a : DeclId}
    (ha : Leads t.childrenOf root a) :
    ∃ depth entered container, t.Entered (depth + 1) entered ∧ (a = root ∨ root ∈ entered) ∧
      t.checkFrom (depth + 1) entered container a = pure () := by
  induction ha with
  | refl => exact ⟨_, [], none, t.entered_nil, .inl rfl, validate_eq_iff.mp h⟩
  | @tail p a _ ha ih =>
    obtain ⟨depth, entered, container, hentered, hroot, hcheck⟩ := ih
    obtain ⟨d, hd, hnew, -, hrest⟩ := checkFrom_succ_eq_pure.mp hcheck
    have hentered := hentered.cons hd hnew
    obtain ⟨m, rfl⟩ := hentered.exists_depth
    refine ⟨m, p :: entered, some p, hentered, .inr ?_, hrest a ha⟩
    rcases hroot with rfl | hroot
    · exact List.mem_cons_self
    · exact List.mem_cons_of_mem p hroot

theorem wellPlaced_of_validate (h : t.validate = .ok ()) : t.WellPlaced := by
  have hchild {a c : DeclId} (ha : Leads t.childrenOf root a) (hc : c ∈ t.childrenOf a) :
      c ≠ root ∧ ∃ d, t.decl? c = some d ∧ d.parent = some a ∧ d.location.isSome := by
    obtain ⟨depth, entered, container, hentered, hroot, hcheck⟩ := exists_checkFrom_of_leads h ha
    obtain ⟨d, hd, hnew, -, hrest⟩ := checkFrom_succ_eq_pure.mp hcheck
    obtain ⟨m, rfl⟩ := (hentered.cons hd hnew).exists_depth
    obtain ⟨c', hc', hnew', hplace, -⟩ := checkFrom_succ_eq_pure.mp (hrest c hc)
    refine ⟨?_, c', hc', hplace a rfl⟩
    rintro rfl
    rw [List.mem_cons, not_or] at hnew'
    exact hroot.elim (fun heq ↦ hnew'.1 heq.symm) hnew'.2
  refine ⟨fun a ha ↦ ?_, fun a ha hc ↦ (hchild ha hc).1 rfl, fun a ha c hc ↦ (hchild ha hc).2⟩
  obtain ⟨depth, entered, container, -, -, hcheck⟩ := exists_checkFrom_of_leads h ha
  obtain ⟨d, hd, -⟩ := checkFrom_succ_eq_pure.mp hcheck
  simp [hd]

def HasParent (t : Tree) (a b : DeclId) : Prop := ∃ d, t.decl? a = some d ∧ d.parent = some b

namespace WellPlaced

variable (h : t.WellPlaced)

include h

theorem hasParent {a c : DeclId} (ha : Leads t.childrenOf root a) (hc : c ∈ t.childrenOf a) :
    t.HasParent c a := by
  obtain ⟨d, hd, hp, -⟩ := h.placed a ha c hc
  exact ⟨d, hd, hp⟩

theorem container_unique {a b c : DeclId} (ha : Leads t.childrenOf root a)
    (hb : Leads t.childrenOf root b) (hca : c ∈ t.childrenOf a) (hcb : c ∈ t.childrenOf b) :
    a = b := by
  obtain ⟨d, hd, hp⟩ := h.hasParent ha hca
  obtain ⟨d', hd', hp'⟩ := h.hasParent hb hcb
  cases hd.symm.trans hd'
  exact Option.some.inj (hp.symm.trans hp')

theorem acyclic {a : DeclId} (ha : Leads t.childrenOf root a) :
    ¬ TransGen (fun a b ↦ b ∈ t.childrenOf a) a a := by
  induction ha with
  | refl =>
    intro hround
    obtain ⟨p, hp, hroot⟩ := TransGen.tail'_iff.mp hround
    exact h.rootless p hp hroot
  | @tail p a hp ha ih =>
    intro hround
    -- the way round comes back to `a` from its one container, and so leads round through that
    obtain ⟨q, hq, haq⟩ := TransGen.tail'_iff.mp hround
    have hqp : q = p := h.container_unique ((hp.tail ha).trans hq) hp haq ha
    subst hqp
    exact ih (.head' ha hq)

theorem checkFrom_eq_pure {depth : ℕ} {entered : List DeclId} {container : Option DeclId}
    {a : DeclId} (hdepth : t.Entered depth entered) (ha : Leads t.childrenOf root a)
    (hentered : ∀ b ∈ entered, TransGen (fun a b ↦ b ∈ t.childrenOf a) b a)
    (hcontainer : ∀ c, container = some c → Leads t.childrenOf root c ∧ a ∈ t.childrenOf c) :
    t.checkFrom depth entered container a = pure () := by
  induction depth generalizing entered container a with
  | zero =>
    obtain ⟨m, hm⟩ := hdepth.exists_depth
    omega
  | succ depth ih =>
    obtain ⟨d, hd⟩ := Option.isSome_iff_exists.mp (h.inside a ha)
    have hnew : a ∉ entered := fun hmem ↦ h.acyclic ha (hentered a hmem)
    refine checkFrom_succ_eq_pure.mpr ⟨d, hd, hnew, ?_, ?_⟩
    · intro c hc
      obtain ⟨hlead, hmem⟩ := hcontainer c hc
      obtain ⟨d', hd', hplace⟩ := h.placed c hlead a hmem
      cases hd.symm.trans hd'
      exact hplace
    · intro b hb
      refine ih (hdepth.cons hd hnew) (ha.tail hb) ?_ ?_
      · exact List.forall_mem_cons.mpr ⟨.single hb, fun e he ↦ (hentered e he).tail hb⟩
      · rintro c ⟨⟩
        exact ⟨ha, hb⟩

theorem reflTransGen_hasParent {a : DeclId} (ha : Leads t.childrenOf root a) :
    ReflTransGen t.HasParent a root := by
  induction ha with
  | refl => exact .refl
  | tail hp ha ih => exact .head (h.hasParent hp ha) ih

end WellPlaced

theorem validate_eq_ok_iff : t.validate = .ok () ↔ t.WellPlaced := by
  refine ⟨wellPlaced_of_validate, fun h ↦ ?_⟩
  exact validate_eq_iff.mpr (h.checkFrom_eq_pure t.entered_nil .refl (by simp) (by simp))

theorem leads_of_mem_walk {a : DeclId} (ha : a ∈ t.walk) : Leads t.childrenOf root a :=
  leads_of_reaches (mem_walk.mp ha)

/-- The check ends of itself, whatever tree it is given; it passes exactly the trees whose
declarations are well placed; and there the parents of what is walked lead up to the root. -/
theorem validate_exact (t : Tree) :
    t.validate? = .mk (some t.validate) ∧
    (t.validate = .ok () ↔ t.WellPlaced) ∧
    (t.validate = .ok () → ∀ a ∈ t.walk, ReflTransGen t.HasParent a root) := by
  refine ⟨t.validate?_eq, validate_eq_ok_iff, fun h a ha ↦ ?_⟩
  exact (wellPlaced_of_validate h).reflTransGen_hasParent (leads_of_mem_walk ha)

def pruned : Tree :=
  ((Draft.build "Module" "Module.yml" [.beginGroup "Old", .endGroup, .beginGroup "New",
    .declare "Size" (.parameter "Number")]).modifyDecl root
      fun d ↦ { d with children := [⟨2⟩] }).modifyDecl ⟨1⟩
        fun d ↦ { d with parent := none, children := [root, ⟨1⟩, ⟨99⟩] }

theorem validate_exact_pruned : pruned.validate = .ok () ∧ pruned.WellPlaced ∧
    ReflTransGen pruned.HasParent ⟨3⟩ root := by
  have hvalid : pruned.validate = .ok () := by decide
  exact ⟨hvalid, (validate_exact pruned).2.1.mp hvalid,
    (validate_exact pruned).2.2 hvalid ⟨3⟩ (by decide)⟩

def walkedChildren (t : Tree) (a : DeclId) : List DeclId :=
  if a ∈ t.walk then t.childrenOf a else []

theorem walkedChildren_of_mem {a : DeclId} (ha : a ∈ t.walk) :
    t.walkedChildren a = t.childrenOf a := if_pos ha

theorem mem_walkedChildren {a b : DeclId} :
    b ∈ t.walkedChildren a ↔ a ∈ t.walk ∧ b ∈ t.childrenOf a := by
  unfold walkedChildren
  split <;> simp [*]

def extent (t : Tree) (a : DeclId) : ℕ := (preorder t.childrenOf t.declIds [a]).length

theorem extent_lt (t : Tree) (a : DeclId) : t.extent a < t.declarations.size + 1 := by
  have hsub : preorder t.childrenOf t.declIds [a] ⊆ t.declIds := fun b hb ↦ (mem_preorder.mp hb).mem
  exact Nat.lt_succ_of_le (length_le_of_nodup (nodup_preorder t.nodup_declIds [a]) hsub)

namespace WellPlaced

variable (h : t.WellPlaced)

include h

theorem mem_walk_iff {a : DeclId} : a ∈ t.walk ↔ Leads t.childrenOf root a := by
  refine ⟨leads_of_mem_walk, fun ha ↦ mem_walk.mpr ?_⟩
  induction ha with
  | refl => exact .start (List.mem_singleton_self _) (mem_declIds.mpr (h.inside root .refl))
  | tail hp ha ih => exact ih.step ha (mem_declIds.mpr (h.inside _ (hp.tail ha)))

theorem mem_flatMap_children {a : DeclId} :
    a ∈ t.walk.flatMap t.childrenOf ↔ Leads t.childrenOf root a ∧ a ≠ root := by
  simp only [List.mem_flatMap, h.mem_walk_iff]
  constructor
  · rintro ⟨p, hp, ha⟩
    refine ⟨hp.tail ha, ?_⟩
    rintro rfl
    exact h.rootless p hp ha
  · rintro ⟨ha, hne⟩
    rcases ReflTransGen.cases_tail ha with heq | ⟨p, hp, ha⟩
    · exact absurd heq hne
    · exact ⟨p, hp, ha⟩

theorem nodup_flatMap_children : (t.walk.flatMap t.childrenOf).Nodup ↔
    ∀ p, Leads t.childrenOf root p → (t.childrenOf p).Nodup := by
  simp only [List.nodup_flatMap, h.mem_walk_iff, and_iff_left_iff_imp]
  intro _
  refine t.nodup_walk.pairwise_of_forall_ne fun p hp q hq hne a hap haq ↦ hne ?_
  exact h.container_unique (leads_of_mem_walk hp) (leads_of_mem_walk hq) hap haq

theorem count_children_eq_one :
    (∀ a, Leads t.childrenOf root a → a ≠ root → (t.walk.flatMap t.childrenOf).count a = 1) ↔
      ∀ p, Leads t.childrenOf root p → (t.childrenOf p).Nodup := by
  rw [← h.nodup_flatMap_children, List.nodup_iff_count_eq_one]
  simp only [h.mem_flatMap_children, and_imp]

theorem extent_lt_of_mem {a b : DeclId} (ha : Leads t.childrenOf root a)
    (hb : b ∈ t.childrenOf a) : t.extent b < t.extent a := by
  have hin {x : DeclId} (hx : Leads t.childrenOf root x) : x ∈ t.declIds :=
    mem_declIds.mpr (h.inside x hx)
  exact length_preorder_lt t.nodup_declIds (hin ha) hb (hin (ha.tail hb)) (h.acyclic ha)

theorem isForest (hnodup : ∀ p, Leads t.childrenOf root p → (t.childrenOf p).Nodup) :
    IsForest t.walkedChildren t.extent := by
  refine ⟨?_, ?_, ?_⟩
  · intro a b hb
    obtain ⟨ha, hb⟩ := mem_walkedChildren.mp hb
    exact h.extent_lt_of_mem (leads_of_mem_walk ha) hb
  · intro a b c hca hcb
    obtain ⟨ha, hca⟩ := mem_walkedChildren.mp hca
    obtain ⟨hb, hcb⟩ := mem_walkedChildren.mp hcb
    exact h.container_unique (leads_of_mem_walk ha) (leads_of_mem_walk hb) hca hcb
  · intro a
    unfold walkedChildren
    split
    next ha => exact hnodup a (leads_of_mem_walk ha)
    next => exact List.nodup_nil

theorem below_eq_walk (hnodup : ∀ p, Leads t.childrenOf root p → (t.childrenOf p).Nodup) :
    below t.childrenOf (t.declarations.size + 1) root = t.walk := by
  have hsame (a : DeclId) (ha : Leads t.childrenOf root a) : t.walkedChildren a = t.childrenOf a :=
    walkedChildren_of_mem (h.mem_walk_iff.mpr ha)
  have hbelow := below_congr hsame (t.declarations.size + 1)
  have hwalk : preorder t.walkedChildren t.declIds [root] = t.walk :=
    preorder_congr t.nodup_declIds t.nodup_declIds hsame (fun a ha b hb ↦ ha.tail hb)
      (fun _ _ ↦ Iff.rfl) (by simp [Leads, ReflTransGen.refl])
  rw [← hbelow, ← hwalk, (h.isForest hnodup).preorder_eq t.extent_lt]
  intro a ha
  rw [hbelow] at ha
  exact mem_declIds.mpr (h.inside a (leads_of_mem_below ha))

end WellPlaced

/-- In a tree that passes the check nothing has two containers. Each declaration but the root is
listed once, and come to once, exactly when no container lists the same declaration twice. -/
theorem listed_once_iff_nodup (h : t.validate = .ok ()) :
    (∀ a, a ∈ t.walk ↔ Leads t.childrenOf root a) ∧
    (∀ a p q, Leads t.childrenOf root p → Leads t.childrenOf root q → a ∈ t.childrenOf p →
      a ∈ t.childrenOf q → p = q) ∧
    ((∀ a, Leads t.childrenOf root a → a ≠ root → (t.walk.flatMap t.childrenOf).count a = 1) ∧
        below t.childrenOf (t.declarations.size + 1) root = t.walk ↔
      ∀ p, Leads t.childrenOf root p → (t.childrenOf p).Nodup) := by
  have hplaced := wellPlaced_of_validate h
  refine ⟨fun a ↦ hplaced.mem_walk_iff, ?_, ?_⟩
  · intro a p q hp hq hap haq
    exact hplaced.container_unique hp hq hap haq
  · rw [hplaced.count_children_eq_one]
    exact and_iff_left_of_imp hplaced.below_eq_walk

def repeating : Tree :=
  (Draft.build "Module" "Module.yml" [.declare "Stage" (.parameter "String")]).modifyDecl root
    fun d ↦ { d with children := d.children ++ [⟨1⟩] }

/-- The check passes it all the same, and comes to the parameter twice. -/
theorem listed_once_iff_nodup_repeating : repeating.validate = .ok () ∧
    (repeating.walk.flatMap repeating.childrenOf).count ⟨1⟩ = 2 ∧
    ¬ ((∀ a, Leads repeating.childrenOf root a → a ≠ root →
        (repeating.walk.flatMap repeating.childrenOf).count a = 1) ∧
      below repeating.childrenOf (repeating.declarations.size + 1) root = repeating.walk) := by
  have hvalid : repeating.validate = .ok () := by decide
  refine ⟨hvalid, by decide, fun honce ↦ ?_⟩
  have hnodup := (listed_once_iff_nodup hvalid).2.2.mp honce root .refl
  exact absurd hnodup (by decide)

end Tree

end InfraModule
