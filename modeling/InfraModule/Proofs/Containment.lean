import InfraModule.Proofs.Assembly
import InfraModule.Proofs.Validation

namespace InfraModule.Tree

open InfraModule.Graph Vocabulary

variable {t t' : Tree}

/-- Each declaration but the root is listed by its parent alone, came after it and is named
accordingly. -/
structure Contained (t : Tree) : Prop where
  root : (t.decl? root).isSome
  parent : ∀ a d, t.decl? a = some d → a ≠ Tree.root → ∃ p c, d.parent = some p ∧
    p.index < a.index ∧ t.decl? p = some c ∧ a ∈ c.children ∧
    d.fullName = if p = Tree.root then d.name else c.fullName ++ fullNameSeparator ++ d.name
  child : ∀ p c, t.decl? p = some c → ∀ a ∈ c.children, a ≠ Tree.root ∧
    ∃ d, t.decl? a = some d ∧ d.parent = some p
  nodup : ∀ p c, t.decl? p = some c → c.children.Nodup

theorem Contained.congr (h : t.Contained) (hd : t'.declarations = t.declarations) :
    t'.Contained := by
  have hdecl (a : DeclId) : t'.decl? a = t.decl? a := by rw [decl?, decl?, hd]
  constructor <;> simp only [hdecl]
  · exact h.root
  · exact h.parent
  · exact h.child
  · exact h.nodup

theorem contained_new (name : String) (location : Option Location) :
    (Tree.new name location).Contained := by
  refine ⟨rfl, ?_, ?_, ?_⟩
  · intro a d hd hne
    exact absurd (decl?_new hd).1 hne
  · intro p c hc a ha
    obtain ⟨-, rfl⟩ := decl?_new hc
    cases ha
  · intro p c hc
    obtain ⟨-, rfl⟩ := decl?_new hc
    exact List.nodup_nil

theorem Contained.linked {parent : DeclId} {p d : Declaration} (hp : t.decl? parent = some p)
    (h : t.Contained) (hparent : d.parent = some parent)
    (hchildren : d.children = []) (hname : d.fullName = t.fullNameUnder parent d.name) :
    (t.linked parent d).Contained := by
  have hsize : 0 < t.declarations.size := by
    obtain ⟨r, hr⟩ := Option.isSome_iff_exists.mp h.root
    exact index_lt_of_decl? hr
  refine ⟨isSome_decl?_linked parent d (.inl h.root), ?_, ?_, ?_⟩
  · intro a c' hc' hne
    obtain ⟨rfl, rfl⟩ | ⟨c, hc, rfl⟩ := decl?_linked_cases hp hc'
    · refine ⟨parent, _, hparent, index_lt_of_decl? hp, decl?_linked_old hp hp, by simp, ?_⟩
      rw [hname, fullNameUnder, hp]
      rfl
    · obtain ⟨q, b, hq, hlt, hb, hmem, hfull⟩ := h.parent a c hc hne
      refine ⟨q, _, hq, hlt, decl?_linked_old hp hb, ?_, hfull⟩
      dsimp only
      split
      next => exact List.mem_append_left _ hmem
      next => exact hmem
  · intro q b' hb' a ha
    obtain ⟨rfl, rfl⟩ | ⟨b, hb, rfl⟩ := decl?_linked_cases hp hb'
    · simp [hchildren] at ha
    have hold : a ∈ b.children ∨ q = parent ∧ a = ⟨t.declarations.size⟩ := by
      dsimp only at ha
      split at ha
      next hqp => simpa [hqp] using ha
      next => exact .inl ha
    rcases hold with hold | ⟨rfl, rfl⟩
    · obtain ⟨hne, c, hc, hcp⟩ := h.child q b hb a hold
      exact ⟨hne, _, decl?_linked_old hp hc, hcp⟩
    · refine ⟨fun heq ↦ ?_, d, decl?_linked_new hp, hparent⟩
      have hzero : t.declarations.size = 0 := congrArg DeclId.index heq
      omega
  · intro q b' hb'
    obtain ⟨rfl, rfl⟩ | ⟨b, hb, rfl⟩ := decl?_linked_cases hp hb'
    · simp [hchildren]
    have hnew : (⟨t.declarations.size⟩ : DeclId) ∉ b.children := by
      intro hmem
      obtain ⟨-, c, hc, -⟩ := h.child q b hb _ hmem
      exact Nat.lt_irrefl _ (index_lt_of_decl? hc)
    dsimp only
    split
    next => exact (h.nodup q b hb).append (List.nodup_singleton _) (by simpa using hnew)
    next => exact h.nodup q b hb

theorem Grown.contained (h : t.Grown) : t.Contained := by
  induction h with
  | new name location => exact contained_new name location
  | expression kind location _ ih => exact ih.congr rfl
  | ownedExpression owner kind location _ ih =>
    exact ih.congr (reowned_adopt _ owner _).declarations
  | @declaration t parent name location kind _ hp ih =>
    obtain ⟨p, hp⟩ := Option.isSome_iff_exists.mp hp
    exact (ih.linked hp rfl rfl rfl).congr
      (t.reowned_addDeclaration parent name location kind).declarations

def placesAfter (t : Tree) (a : DeclId) : ℕ := t.declarations.size - a.index

theorem placesAfter_lt (t : Tree) (a : DeclId) : t.placesAfter a < t.declarations.size + 1 := by
  simp only [placesAfter]
  omega

def isUnlocated (t : Tree) (a : DeclId) : Bool :=
  a ≠ root && (t.decl? a).any fun d ↦ d.location.isNone

def checkLocated (t : Tree) (a : DeclId) : Except Inconsistency Unit :=
  if t.isUnlocated a then .error (.missingLocation (t.nameOrPlace a)) else .ok ()

section Checks

variable {α β ε : Type}

theorem forM_flatMap (f : α → List β) (g : β → Except ε Unit) (as : List α) :
    forM (as.flatMap f) g = forM as fun a ↦ forM (f a) g := by
  induction as with
  | nil => rfl
  | cons a as ih => rw [List.flatMap_cons, List.forM_append, List.forM_cons, ih]

theorem forM_checkLocated (t : Tree) (as : List DeclId) : forM as t.checkLocated =
    (as.find? t.isUnlocated).elim (.ok ()) fun a ↦ .error (.missingLocation (t.nameOrPlace a)) := by
  induction as with
  | nil => rfl
  | cons a as ih =>
    rw [List.forM_cons, ih, checkLocated, List.find?_cons]
    cases t.isUnlocated a <;> rfl

end Checks

namespace Contained

variable (h : t.Contained)

include h

theorem child_of_mem {a b : DeclId} (hb : b ∈ t.childrenOf a) :
    b ≠ Tree.root ∧ ∃ d, t.decl? b = some d ∧ d.parent = some a := by
  cases hc : t.decl? a with
  | none => simp [childrenOf, hc] at hb
  | some c =>
    simp only [childrenOf, hc, Option.elim_some] at hb
    exact h.child a c hc b hb

theorem index_lt_of_mem {a b : DeclId} (hb : b ∈ t.childrenOf a) : a.index < b.index := by
  obtain ⟨hne, d, hd, hda⟩ := h.child_of_mem hb
  obtain ⟨p, -, hp, hlt, -⟩ := h.parent b d hd hne
  cases hda.symm.trans hp
  exact hlt

theorem isForest : IsForest t.childrenOf t.placesAfter := by
  refine ⟨?_, ?_, ?_⟩
  · intro a b hb
    obtain ⟨-, d, hd, -⟩ := h.child_of_mem hb
    have hlt := h.index_lt_of_mem hb
    have hsize := index_lt_of_decl? hd
    simp only [placesAfter]
    omega
  · intro a b c hca hcb
    obtain ⟨-, d, hd, hda⟩ := h.child_of_mem hca
    obtain ⟨-, d', hd', hdb⟩ := h.child_of_mem hcb
    cases hd.symm.trans hd'
    exact Option.some.inj (hda.symm.trans hdb)
  · intro a
    cases hc : t.decl? a with
    | none => simp [childrenOf, hc]
    | some c => simpa [childrenOf, hc] using h.nodup a c hc

theorem mem_childrenOf_parent {a : DeclId} (ha : (t.decl? a).isSome) (hne : a ≠ Tree.root) :
    ∃ p, p.index < a.index ∧ a ∈ t.childrenOf p := by
  obtain ⟨d, hd⟩ := Option.isSome_iff_exists.mp ha
  obtain ⟨p, c, -, hlt, hc, hmem, -⟩ := h.parent a d hd hne
  exact ⟨p, hlt, by simpa [childrenOf, hc] using hmem⟩

theorem walk_perm : t.walk.Perm t.declIds := by
  rw [List.perm_ext_iff_of_nodup t.nodup_walk t.nodup_declIds]
  intro a
  constructor
  · intro ha
    exact (mem_walk.mp ha).mem
  · intro ha
    exact mem_walk_of_parents h.root (fun _ hs hne ↦ h.mem_childrenOf_parent hs hne)
      (mem_declIds.mp ha)

theorem isSome_of_leads {a b : DeclId} (ha : (t.decl? a).isSome) (hab : Leads t.childrenOf a b) :
    (t.decl? b).isSome := by
  rcases Relation.ReflTransGen.cases_tail hab with rfl | ⟨p, -, hb⟩
  · exact ha
  · obtain ⟨-, d, hd, -⟩ := h.child_of_mem hb
    simp [hd]

theorem walk_eq : t.walk = below t.childrenOf (t.declarations.size + 1) Tree.root := by
  refine h.isForest.preorder_eq t.placesAfter_lt fun a ha ↦ ?_
  exact mem_declIds.mpr (h.isSome_of_leads h.root (leads_of_mem_below ha))

theorem pair_sublist_walk {p a : DeclId} (ha : a ∈ t.childrenOf p) : [p, a].Sublist t.walk := by
  have hp := isSome_of_mem_childrenOf ha
  have hmem : p ∈ t.walk := h.walk_perm.mem_iff.mpr (mem_declIds.mpr hp)
  rw [h.walk_eq] at hmem ⊢
  exact h.isForest.pair_sublist_below t.placesAfter_lt hmem ha

theorem count_children {p a : DeclId} (ha : a ∈ t.childrenOf p) :
    (t.declIds.flatMap t.childrenOf).count a = 1 := by
  refine List.count_eq_one_of_mem (h.isForest.nodup_flatMap t.nodup_declIds) ?_
  have hp : p ∈ t.walk := (h.pair_sublist_walk ha).subset List.mem_cons_self
  exact List.mem_flatMap.mpr ⟨p, h.walk_perm.mem_iff.mp hp, ha⟩

theorem checkPlace_eq {p a : DeclId} {d : Declaration} (hd : t.decl? a = some d)
    (ha : a ∈ t.childrenOf p) : t.checkPlace p d = t.checkLocated a := by
  obtain ⟨hne, d', hd', hp⟩ := h.child_of_mem ha
  cases hd.symm.trans hd'
  simp [checkPlace, hp, checkLocated, isUnlocated, nameOrPlace, hd, hne]

/-- The recursive check goes the way of the walk and finds no cycle. -/
theorem checkFrom_eq {depth : ℕ} {entered : List DeclId} {container : Option DeclId} {a : DeclId}
    (hdepth : t.Entered depth entered) (ha : (t.decl? a).isSome)
    (hentered : ∀ b ∈ entered, b.index < a.index)
    (hcontainer : container = none ∧ a = Tree.root ∨
      ∃ p, container = some p ∧ a ∈ t.childrenOf p) :
    t.checkFrom depth entered container a =
      .mk (some (forM (below t.childrenOf depth a) t.checkLocated)) := by
  induction depth generalizing entered container a with
  | zero =>
    obtain ⟨m, hm⟩ := hdepth.exists_depth
    omega
  | succ depth ih =>
    obtain ⟨d, hd⟩ := Option.isSome_iff_exists.mp ha
    have hnew : a ∉ entered := fun hmem ↦ Nat.lt_irrefl _ (hentered a hmem)
    have hchildren : t.childrenOf a = d.children := by simp [childrenOf, hd]
    have hrest : forM d.children (t.checkFrom depth (a :: entered) (some a)) =
        .mk (some (forM ((t.childrenOf a).flatMap (below t.childrenOf depth))
          t.checkLocated)) := by
      rw [hchildren, forM_flatMap]
      refine forM_eq_mk fun b hb ↦ ?_
      rw [← hchildren] at hb
      obtain ⟨-, c, hc, -⟩ := h.child_of_mem hb
      have hlt := h.index_lt_of_mem hb
      -- a child comes later than its parent, and so than all that was entered before
      apply ih (hdepth.cons hd hnew) (by simp [hc]) _ (.inr ⟨a, rfl, hb⟩)
      intro e he
      rcases List.mem_cons.mp he with rfl | he
      · exact hlt
      · have hlt' := hentered e he
        omega
    rw [checkFrom, below, List.forM_cons]
    simp only [hd, hnew, if_false, List.forM_eq_forM, hrest]
    rcases hcontainer with ⟨rfl, rfl⟩ | ⟨p, rfl, hmem⟩
    · have hself : t.checkLocated Tree.root = .ok () := by simp [checkLocated, isUnlocated]
      rw [hself]
      rfl
    · dsimp only
      rw [← h.checkPlace_eq hd hmem]
      cases t.checkPlace p d <;> rfl

theorem validate_eq : t.validate = forM t.walk t.checkLocated := by
  rw [validate_eq_iff, h.walk_eq]
  exact h.checkFrom_eq t.entered_nil h.root (by simp) (.inl ⟨rfl, rfl⟩)

theorem find?_isUnlocated_eq_none : t.walk.find? t.isUnlocated = none ↔
    ∀ a d, t.decl? a = some d → a ≠ Tree.root → d.location.isSome := by
  rw [List.find?_eq_none]
  constructor
  · intro hnone a d hd hne
    have ha : a ∈ t.walk := h.walk_perm.mem_iff.mpr (mem_declIds.mpr (by simp [hd]))
    simpa [isUnlocated, hd, hne, Option.isSome_iff_ne_none] using hnone a ha
  · intro hall a ha
    obtain ⟨d, hd⟩ := exists_decl_of_mem_walk ha
    simpa [isUnlocated, hd, Option.isSome_iff_ne_none] using hall a d hd

theorem validate_eq_ok : t.validate = .ok () ↔
    ∀ a d, t.decl? a = some d → a ≠ Tree.root → d.location.isSome := by
  rw [← h.find?_isUnlocated_eq_none, h.validate_eq, forM_checkLocated]
  cases t.walk.find? t.isUnlocated <;> simp

theorem validate_eq_error {cause : Inconsistency} : t.validate = .error cause ↔
    ∃ a d, t.walk.find? t.isUnlocated = some a ∧ t.decl? a = some d ∧
      cause = .missingLocation d.fullName := by
  rw [h.validate_eq, forM_checkLocated]
  cases ha : t.walk.find? t.isUnlocated with
  | none => simp
  | some a =>
    obtain ⟨d, hd⟩ := exists_decl_of_mem_walk (List.mem_of_find?_eq_some ha)
    simp [nameOrPlace, hd, eq_comm]

end Contained

/-- What one can rely on in a tree of declarations: the walk comes to each once and to parents
first, each but the root is listed once and by its parent, after which it is named, and the first
one without a location is all that the check ever finds. -/
structure WellFormed (t : Tree) : Prop where
  walk : t.walk.Perm t.declIds
  order : ∀ p, ∀ a ∈ t.childrenOf p, [p, a].Sublist t.walk
  place : ∀ a d, t.decl? a = some d → a ≠ root →
    (t.declIds.flatMap t.childrenOf).count a = 1 ∧
    ∃ p c, d.parent = some p ∧ t.decl? p = some c ∧ a ∈ c.children ∧
      d.fullName = if p = root then d.name else c.fullName ++ "::" ++ d.name
  valid : t.validate = .ok () ↔ ∀ a d, t.decl? a = some d → a ≠ root → d.location.isSome
  invalid : ∀ cause, t.validate = .error cause ↔
    ∃ a d, t.walk.find? t.isUnlocated = some a ∧ t.decl? a = some d ∧
      cause = .missingLocation d.fullName

theorem Contained.wellFormed (h : t.Contained) : t.WellFormed := by
  refine ⟨h.walk_perm, fun _ _ ha ↦ h.pair_sublist_walk ha, ?_, h.validate_eq_ok,
    fun _ ↦ h.validate_eq_error⟩
  intro a d hd hne
  obtain ⟨p, c, hp, -, hc, hmem, hname⟩ := h.parent a d hd hne
  have hmem' : a ∈ t.childrenOf p := by simpa [childrenOf, hc] using hmem
  exact ⟨h.count_children hmem', p, c, hp, hc, hmem, hname⟩

theorem validate_draft (name file : String) (statements : List Statement) :
    (Draft.build name file statements).validate = .ok () := by
  have hgrown := (Draft.assembled_build name file statements).grown
  obtain ⟨file', hdrafted, -⟩ := Draft.exists_drafted_build name file statements
  rw [hgrown.contained.validate_eq_ok]
  intro a d hd _
  rw [(hdrafted.decl a d hd).1]
  rfl

/-- Whatever is grown is well formed; what drafts grow has its locations too. -/
theorem grown_wellFormed : (∀ t : Tree, t.Grown → t.WellFormed) ∧
    ∀ name file statements, (Draft.build name file statements).Grown ∧
      (Draft.build name file statements).validate = .ok () := by
  refine ⟨fun t h ↦ h.contained.wellFormed, fun name file statements ↦ ?_⟩
  exact ⟨(Draft.assembled_build name file statements).grown, validate_draft name file statements⟩

def stray : Tree :=
  (((Tree.new "module" none).addDeclaration root "Storage" (some (.lineStart "module.yml" 2))
    .group).2.addDeclaration ⟨1⟩ "Name" none (.parameter "String" none)).2

theorem grown_wellFormed_stray : stray.Grown ∧ stray.WellFormed ∧
    stray.walk = [root, ⟨1⟩, ⟨2⟩] ∧ stray.validate = .error (.missingLocation "Storage::Name") := by
  have hgrown : stray.Grown :=
    .declaration "Name" none _ (.declaration "Storage" _ _ (.new "module" none) rfl) rfl
  exact ⟨hgrown, grown_wellFormed.1 stray hgrown, by decide, by decide⟩

end InfraModule.Tree
