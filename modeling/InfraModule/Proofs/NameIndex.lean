import InfraModule.Cycle
import InfraModule.Proofs.Growth
import InfraModule.SymbolTable
import InfraModule.Tree.Integrity
import Mathlib.Data.Finset.Card
import Mathlib.Data.List.Find

namespace InfraModule

namespace Registry

variable {α : Type} {r : Registry α} {name : String}

@[simp]
theorem length_names (r : Registry α) : r.names.length = r.size := by
  simp [names, size]

theorem mem_names_iff : name ∈ r.names ↔ (r.get? name).isSome := by
  rw [← contains_iff, contains, List.contains_iff_mem]

theorem size_add (h : r.get? name = none) (value : α) : (r.add name value).size = r.size + 1 := by
  have hnew : name ∉ r.names := by simp [mem_names_iff, h]
  rw [← length_names, names_add, if_neg hnew, List.length_append, length_names,
    List.length_singleton]

end Registry

namespace Tree

variable {t t' : Tree}

def nameable (t : Tree) : List DeclId := t.walk.filter (· ≠ root)

def isNamed (t : Tree) (name : String) (id : DeclId) : Bool :=
  (t.decl? id).any fun d ↦ d.fullName = name

/-- The first declaration of a name below the root. -/
def firstNamed (t : Tree) (name : String) : Option DeclId := t.nameable.find? (t.isNamed name)

theorem mem_nameable {id : DeclId} : id ∈ t.nameable ↔ id ∈ t.walk ∧ id ≠ root := by
  simp [nameable]

theorem exists_decl_of_firstNamed {name : String} {id : DeclId} (h : t.firstNamed name = some id) :
    ∃ d, t.decl? id = some d ∧ id ∈ t.nameable ∧ d.fullName = name := by
  have hn := List.find?_some h
  have hm := List.mem_of_find?_eq_some h
  obtain ⟨d, hd⟩ := exists_decl_of_mem_walk (mem_nameable.mp hm).1
  simp only [isNamed, hd, Option.any_some, decide_eq_true_eq] at hn
  exact ⟨d, hd, hm, hn⟩

theorem isSome_of_mem_nameable {id : DeclId} (h : id ∈ t.nameable) : (t.decl? id).isSome :=
  Option.isSome_iff_exists.mpr (exists_decl_of_mem_walk (mem_nameable.mp h).1)

theorem isNamed_iff {name : String} {id : DeclId} (h : (t.decl? id).isSome) :
    t.isNamed name id ↔ t.nameOf id = name := by
  obtain ⟨d, hd⟩ := Option.isSome_iff_exists.mp h
  simp [isNamed, nameOf, hd]

theorem firstNamed_eq (t : Tree) (name : String) :
    t.firstNamed name = t.nameable.find? fun id ↦ t.nameOf id = name := by
  refine List.find?_congr fun id hid ↦ ?_
  rw [Bool.eq_iff_iff, isNamed_iff (isSome_of_mem_nameable hid), decide_eq_true_iff]

theorem firstNamed_eq_some_iff {name : String} {id : DeclId} :
    t.firstNamed name = some id ↔ ∃ earlier later, t.nameable = earlier ++ id :: later ∧
      t.nameOf id = name ∧ ∀ a ∈ earlier, t.nameOf a ≠ name := by
  rw [firstNamed_eq, List.find?_eq_some_iff_append]
  simp only [decide_eq_true_iff, Bool.not_eq_eq_eq_not, Bool.not_true, decide_eq_false_iff_not]
  constructor
  · rintro ⟨hname, earlier, later, hsplit, hearlier⟩
    exact ⟨earlier, later, hsplit, hname, hearlier⟩
  · rintro ⟨earlier, later, hsplit, hname, hearlier⟩
    exact ⟨hname, earlier, later, hsplit, hearlier⟩

theorem firstNamed_eq_none_iff {name : String} :
    t.firstNamed name = none ↔ ∀ id ∈ t.nameable, t.nameOf id ≠ name := by
  simp [firstNamed_eq]

theorem isSome_firstNamed_iff {name : String} :
    (t.firstNamed name).isSome ↔ ∃ id ∈ t.nameable, t.nameOf id = name := by
  simp [Option.isSome_iff_ne_none, Ne, firstNamed_eq_none_iff]

def repeated (t : Tree) : List DeclId :=
  t.nameable.filter fun id ↦ t.firstNamed (t.nameOf id) ≠ some id

/-- What there is to say of a declaration that is not the first of its name. It is said where the
declaration stands, and tells where the first one does. -/
def repetition (t : Tree) (id : DeclId) : Diagnostic where
  severity := .error
  code := some "E0004"
  message := "duplicate declaration: '" ++ t.nameOf id ++ "' is already declared" ++
    (((t.firstNamed (t.nameOf id)).bind t.decl?).bind Declaration.location).elim ""
      fun first ↦ " at " ++ first.render
  location := (t.decl? id).bind Declaration.location

theorem repetition_eq {id first : DeclId} {d : Declaration} (hd : t.decl? id = some d)
    (hfirst : t.firstNamed d.fullName = some first) : t.repetition id =
      (Problem.duplicateDeclaration d.fullName ((t.decl? first).bind Declaration.location)).report
        d.location := by
  simp only [repetition, nameOf, hd, hfirst, Option.elim_some, Option.bind_some]
  rfl

end Tree

namespace SymbolTable

variable {t t' : Tree}

structure Index.Extends (t : Tree) (id : DeclId) (index index' : Index) : Prop where
  get? : ∀ name, index'.table.get? name =
    (index.table.get? name).or (if t.isNamed name id then some id else none)
  filed : index.table.get? (t.nameOf id) = none → index'.log = index.log
  reported : ∀ first, index.table.get? (t.nameOf id) = some first →
    t.firstNamed (t.nameOf id) = some first → index'.log = index.log ++ [t.repetition id]
  size : index'.table.size + index'.log.length = index.table.size + index.log.length + 1

theorem exists_enter? {index : Index} {id : DeclId} (hid : (t.decl? id).isSome)
    (htable : ∀ name first, index.table.get? name = some first → (t.decl? first).isSome) :
    ∃ index', index.enter? t id = some index' ∧ Index.Extends t id index index' := by
  obtain ⟨d, hd⟩ := Option.isSome_iff_exists.mp hid
  have hname : t.nameOf id = d.fullName := by simp [Tree.nameOf, hd]
  cases hg : index.table.get? d.fullName with
  | none =>
    refine ⟨{ index with table := index.table.add d.fullName id }, by simp [Index.enter?, hd,
      insert, hg], fun name ↦ ?_, fun _ ↦ rfl, fun first hfirst ↦ ?_, ?_⟩
    · by_cases hn : name = d.fullName
      · simp [Registry.get?_add, Tree.isNamed, hd, hn, hg]
      · simp [Registry.get?_add, Tree.isNamed, hd, hn, Ne.symm hn]
    · rw [hname, hg] at hfirst
      cases hfirst
    · rw [Registry.size_add hg, Nat.add_right_comm]
  | some first =>
    obtain ⟨previous, hprevious⟩ := Option.isSome_iff_exists.mp (htable _ first hg)
    refine ⟨{ index with log := index.log ++ [(Problem.duplicateDeclaration d.fullName
      previous.location).report d.location] }, by simp [Index.enter?, hd, insert, hg, hprevious],
      fun name ↦ ?_, fun hnone ↦ ?_, fun first' hfirst' hnamed ↦ ?_, ?_⟩
    · by_cases hn : name = d.fullName
      · simp [hn, hg]
      · simp [Tree.isNamed, hd, Ne.symm hn]
    · rw [hname, hg] at hnone
      cases hnone
    · rw [hname, hg] at hfirst'
      cases hfirst'
      rw [hname] at hnamed
      rw [Tree.repetition_eq hd hnamed, hprevious, Option.bind_some]
    · rw [List.length_append, List.length_singleton, Nat.add_assoc]

theorem Index.Extends.get?_cases {index index' : Index} {id first : DeclId} {name : String}
    (h : Index.Extends t id index index') (hg : index'.table.get? name = some first) :
    index.table.get? name = some first ∨ first = id := by
  rw [h.get?, Option.or_eq_some_iff] at hg
  refine hg.imp_right fun ⟨_, hg⟩ ↦ ?_
  split at hg
  next => exact (Option.some.inj hg).symm
  next => cases hg

theorem Index.Extends.log_eq {index index' : Index} {id : DeclId}
    (h : Index.Extends t id index index')
    (hend : (index.table.get? (t.nameOf id)).or (some id) = t.firstNamed (t.nameOf id))
    (hnew : ∀ first, index.table.get? (t.nameOf id) = some first → first ≠ id) :
    index'.log = index.log ++
      ([id].filter fun id ↦ t.firstNamed (t.nameOf id) ≠ some id).map t.repetition := by
  cases hg : index.table.get? (t.nameOf id) with
  | none =>
    rw [hg, Option.none_or] at hend
    rw [h.filed hg, List.filter_cons_of_neg (by simp [← hend]), List.filter_nil, List.map_nil,
      List.append_nil]
  | some first =>
    rw [hg, Option.some_or] at hend
    rw [h.reported first hg hend.symm, List.filter_cons_of_pos (by simp [← hend, hnew first hg]),
      List.filter_nil, List.map_singleton]

/-- Entering declarations reports those that are not the first of their names, by what the names
stand for in the end. -/
theorem exists_foldlM_enter? {ids : List DeclId} (hids : ∀ id ∈ ids, (t.decl? id).isSome)
    (hnodup : ids.Nodup) {index : Index}
    (htable : ∀ name first, index.table.get? name = some first →
      (t.decl? first).isSome ∧ first ∉ ids)
    (hend : ∀ name, (index.table.get? name).or (ids.find? (t.isNamed name)) = t.firstNamed name) :
    ∃ index', ids.foldlM (Index.enter? t) index = some index' ∧
      (∀ name, index'.table.get? name = t.firstNamed name) ∧
      index'.log = index.log ++
        (ids.filter fun id ↦ t.firstNamed (t.nameOf id) ≠ some id).map t.repetition ∧
      index'.table.size + index'.log.length =
        index.table.size + index.log.length + ids.length := by
  induction ids generalizing index with
  | nil => exact ⟨index, rfl, fun name ↦ by simpa using hend name, by simp, rfl⟩
  | cons id ids ih =>
    rw [List.forall_mem_cons] at hids
    rw [List.nodup_cons] at hnodup
    obtain ⟨next, hnext, hext⟩ := exists_enter? hids.1 fun name first hg ↦ (htable name first hg).1
    have hknown (name : String) (first : DeclId) (hg : next.table.get? name = some first) :
        (t.decl? first).isSome ∧ first ∉ ids := by
      rcases hext.get?_cases hg with hg | rfl
      · obtain ⟨hsome, hnew⟩ := htable name first hg
        exact ⟨hsome, fun hmem ↦ hnew (List.mem_cons_of_mem id hmem)⟩
      · exact ⟨hids.1, hnodup.1⟩
    have hrest (name : String) :
        (next.table.get? name).or (ids.find? (t.isNamed name)) = t.firstNamed name := by
      rw [← hend, hext.get?, List.find?_cons]
      cases t.isNamed name id <;> cases index.table.get? name <;> rfl
    obtain ⟨index', hfold, hget, hlog, hsize⟩ := ih hids.2 hnodup.2 hknown hrest
    refine ⟨index', by rw [List.foldlM_cons, hnext]; exact hfold, hget, hlog.trans ?_, ?_⟩
    · have hnamed : t.isNamed (t.nameOf id) id := (Tree.isNamed_iff hids.1).mpr rfl
      have hfirst := hend (t.nameOf id)
      rw [List.find?_cons_of_pos hnamed] at hfirst
      have hnew (first : DeclId) (hg : index.table.get? (t.nameOf id) = some first) : first ≠ id :=
        fun heq ↦ (htable _ first hg).2 (heq ▸ List.mem_cons_self)
      rw [hext.log_eq hfirst hnew, List.append_assoc, ← List.map_append, ← List.filter_append,
        List.singleton_append]
    · rw [hsize, hext.size, List.length_cons]
      omega

structure IsIndex (t : Tree) (index : Index) : Prop where
  get? : ∀ name, index.table.get? name = t.firstNamed name
  log : index.log = t.repeated.map t.repetition
  size : index.table.size + index.log.length = t.nameable.length

theorem exists_build? (t : Tree) : ∃ index, build? t = some index ∧ IsIndex t index := by
  have hempty (name : String) (first : DeclId)
      (h : Registry.empty.get? name = some first) :
      (t.decl? first).isSome ∧ first ∉ t.nameable := by
    cases h
  have hend (name : String) : (Registry.empty.get? name).or (t.nameable.find? (t.isNamed name)) =
      t.firstNamed name := rfl
  obtain ⟨index, heq, hget, hlog, hsize⟩ : ∃ index, t.nameable.foldlM (Index.enter? t)
      ⟨.empty, []⟩ = some index ∧ _ :=
    exists_foldlM_enter? (fun _ ↦ Tree.isSome_of_mem_nameable) (t.nodup_walk.filter _) hempty hend
  refine ⟨index, heq, hget, hlog, hsize.trans ?_⟩
  simp [Registry.size]

theorem build?_eq (t : Tree) : build? t = some (build t) := by
  obtain ⟨index, heq, -⟩ := exists_build? t
  rw [build, heq, Option.getD_some]

theorem isIndex_build (t : Tree) : IsIndex t (build t) := by
  obtain ⟨index, heq, h⟩ := exists_build? t
  rwa [build, heq, Option.getD_some]

theorem get?_build (t : Tree) (name : String) :
    (build t).table.get? name = t.firstNamed name := (isIndex_build t).get? name

theorem log_build_eq_nil : (build t).log = [] ↔
    ∀ a ∈ t.nameable, ∀ b ∈ t.nameable, ∀ n, t.isNamed n a → t.isNamed n b → a = b := by
  simp only [(isIndex_build t).log, List.map_eq_nil_iff, Tree.repeated, List.filter_eq_nil_iff,
    decide_eq_true_eq, not_not]
  constructor
  · intro h a ha b hb n hna hnb
    have hfa := h a ha
    have hfb := h b hb
    rw [(Tree.isNamed_iff (Tree.isSome_of_mem_nameable ha)).mp hna] at hfa
    rw [(Tree.isNamed_iff (Tree.isSome_of_mem_nameable hb)).mp hnb] at hfb
    exact Option.some.inj (hfa.symm.trans hfb)
  · intro h a ha
    obtain ⟨first, hfirst⟩ :=
      Option.isSome_iff_exists.mp (Tree.isSome_firstNamed_iff.mpr ⟨a, ha, rfl⟩)
    have hna := (Tree.isNamed_iff (Tree.isSome_of_mem_nameable ha)).mpr rfl
    rw [hfirst, h first (List.mem_of_find?_eq_some hfirst) a ha _ (List.find?_some hfirst) hna]

theorem size_table_build (t : Tree) :
    (build t).table.size = (t.nameable.map t.nameOf).toFinset.card := by
  have hnodup : (build t).table.names.Nodup := (build t).table.nodup
  rw [← Registry.length_names, ← List.toFinset_card_of_nodup hnodup]
  congr 1
  ext name
  rw [List.mem_toFinset, List.mem_toFinset, Registry.mem_names_iff, get?_build,
    Tree.isSome_firstNamed_iff, List.mem_map]

/-- In the table of a tree a name stands for the first declaration below the root that has it. There
is one entry for each name, and one report for each declaration that is not the first of its name,
in the order of the walk. -/
theorem first_declaration_wins (t : Tree) :
    (∀ name, (build t).table.get? name = t.firstNamed name) ∧
    (∀ name id, t.firstNamed name = some id ↔ ∃ earlier later,
      t.nameable = earlier ++ id :: later ∧ t.nameOf id = name ∧
        ∀ a ∈ earlier, t.nameOf a ≠ name) ∧
    (∀ name, t.firstNamed name = none ↔ ∀ id ∈ t.nameable, t.nameOf id ≠ name) ∧
    (build t).table.size = (t.nameable.map t.nameOf).toFinset.card ∧
    (build t).log = t.repeated.map t.repetition :=
  ⟨get?_build t, fun _ _ ↦ Tree.firstNamed_eq_some_iff, fun _ ↦ Tree.firstNamed_eq_none_iff,
    size_table_build t, (isIndex_build t).log⟩

theorem enter?_grows (h : t.Grows t') : Index.enter? t' = Index.enter? t := by
  funext index id
  rcases h.decl?_cases id with ⟨hd, hd'⟩ | ⟨d, d', hd, hd', hg⟩
  · simp only [Index.enter?, hd, hd', bind, Option.bind_none]
  · simp only [Index.enter?, hd, hd', hg.fullName, hg.location, bind, Option.bind_some]
    split
    next => rfl
    next first _ =>
      rcases h.decl?_cases first with ⟨hp, hp'⟩ | ⟨p, p', hp, hp', hgp⟩
      · rw [hp, hp']
      · simp only [hp, hp', Option.bind_some, hgp.location]

theorem build_grows (h : t.Grows t') : build t' = build t := by
  rw [build, build, build?, build?, enter?_grows h, h.walk_eq]

end SymbolTable

namespace Tree

variable {t t' : Tree}

theorem Grows.isNamed_eq (h : t.Grows t') (name : String) (id : DeclId) :
    t'.isNamed name id = t.isNamed name id := by
  unfold isNamed
  rcases h.decl?_cases id with ⟨hd, hd'⟩ | ⟨d, d', hd, hd', hg⟩
  · rw [hd, hd']
  · simp only [hd, hd', Option.any_some, hg.fullName]

theorem Grows.firstNamed_eq (h : t.Grows t') (name : String) :
    t'.firstNamed name = t.firstNamed name := by
  have hn : t'.isNamed name = t.isNamed name := funext (h.isNamed_eq name)
  rw [firstNamed, firstNamed, nameable, nameable, h.walk_eq, hn]

theorem Grows.nameOrPlace_eq (h : t.Grows t') (id : DeclId) :
    t'.nameOrPlace id = t.nameOrPlace id := by
  unfold nameOrPlace
  rcases h.decl?_cases id with ⟨hd, hd'⟩ | ⟨d, d', hd, hd', hg⟩
  · rw [hd, hd']
  · simp only [hd, hd', Option.elim_some, hg.fullName]

theorem checkFrom_grows (h : t.Grows t') (depth : Nat) (entered : List DeclId)
    (container : Option DeclId) (id : DeclId) :
    t'.checkFrom depth entered container id = t.checkFrom depth entered container id := by
  induction depth generalizing entered container id with
  | zero => rfl
  | succ depth ih =>
    rcases h.decl?_cases id with ⟨hd, hd'⟩ | ⟨d, d', hd, hd', hg⟩
    · simp only [checkFrom, hd, hd']
    · have hrest : t'.checkFrom depth (id :: entered) (some id) =
          t.checkFrom depth (id :: entered) (some id) := funext (ih _ _)
      simp only [checkFrom, hd, hd', hg.fullName, hg.children, hrest, checkPlace, hg.parent,
        hg.location, h.nameOrPlace_eq]

theorem validate_grows (h : t.Grows t') : t'.validate = t.validate := by
  rw [validate, validate, validate?, validate?, checkFrom_grows h, h.size]

end Tree

end InfraModule
