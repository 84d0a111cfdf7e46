import InfraModule.Proofs.AnalysisRun
import InfraModule.Proofs.Assembly
import InfraModule.Proofs.Overwriting

namespace InfraModule

def Item.values : Item → List Value
  | .var value | .condition value | .mapping value | .macroDef value => [value]
  | .resource body => body.value.toList ++ body.condition.toList ++ body.properties.toList
  | .function environment => environment.toList
  | .parameter _ | .resourceType _ _ | .importedModule _ | .package _ | .nestedModule _ _ => []

def Statement.values : Statement → List Value
  | .declare _ item => item.values
  | .pseudoParameters | .beginGroup _ | .endGroup => []

namespace Value

theorem itemsAt_append (vs ws : List Value) (first : Nat) :
    itemsAt (vs ++ ws) first =
      itemsAt vs first ++ itemsAt ws (first + (nodesOfItems vs).length) := by
  induction vs generalizing first with
  | nil => rfl
  | cons v vs ih => simp [itemsAt, nodesOfItems, ih, Nat.add_assoc]

theorem layoutOfItems_append (vs ws : List Value) (first : Nat) :
    layoutOfItems (vs ++ ws) first =
      layoutOfItems vs first ++ layoutOfItems ws (first + (nodesOfItems vs).length) := by
  induction vs generalizing first with
  | nil => rfl
  | cons v vs ih => simp [layoutOfItems, nodesOfItems, ih, Nat.add_assoc]

theorem storeOption_eq (location : Option Location) (v : Option Value) (t : Tree) :
    (storeOption location v t).1.toList = itemsAt v.toList t.expressions.size ∧
      (storeOption location v t).2 =
        t.withKinds location (layoutOfItems v.toList t.expressions.size) := by
  cases v with
  | none => simp [storeOption, itemsAt, layoutOfItems]
  | some v => simp [storeOption, store_eq, itemsAt, layoutOfItems]

end Value

open Value in
theorem Item.store_eq (location : Option Location) (item : Item) (t : Tree) :
    (item.store location t).1.roots = itemsAt item.values t.expressions.size ∧
      (item.store location t).2 =
        t.withKinds location (layoutOfItems item.values t.expressions.size) := by
  cases item with
  | parameter | resourceType | importedModule | package | nestedModule =>
    simp [Item.store, DeclKind.roots, values, itemsAt, layoutOfItems]
  | var value | condition value | mapping value | macroDef value =>
    simp [Item.store, DeclKind.roots, values, Value.store_eq, itemsAt, layoutOfItems]
  | function environment =>
    simpa [Item.store, DeclKind.roots, values] using storeOption_eq location environment t
  | resource body =>
    obtain ⟨hvalue, htree⟩ := storeOption_eq location body.value t
    simp only [Item.store, DeclKind.roots, values, itemsAt_append, layoutOfItems_append,
      Tree.withKinds_append, hvalue, htree]
    obtain ⟨hguard, htree⟩ := storeOption_eq location body.condition
      (t.withKinds location (layoutOfItems body.value.toList t.expressions.size))
    rw [hguard, htree]
    obtain ⟨hproperties, htree⟩ := storeOption_eq location body.properties
      ((t.withKinds location (layoutOfItems body.value.toList t.expressions.size)).withKinds
        location (layoutOfItems body.condition.toList (t.withKinds location
          (layoutOfItems body.value.toList t.expressions.size)).expressions.size))
    rw [hproperties, htree]
    simp [length_layoutOfItems, nodesOfItems_append, Nat.add_assoc]

namespace Tree

variable {t t' : Tree} {location : Option Location}

theorem mem_flatMap_descendants {roots : List ExprId} {e : ExprId} :
    e ∈ roots.flatMap t.descendants ↔ Graph.Reaches t.partsOf t.exprIds roots e := by
  simp only [List.mem_flatMap, mem_descendants]
  exact Graph.reaches_iff_exists.symm

theorem holds_iff_exists {a : DeclId} {e : ExprId} : t.Holds a e ↔
    ∃ d, t.decl? a = some d ∧ e ∈ d.kind.roots.flatMap t.descendants := by
  constructor
  · intro h
    obtain ⟨d, hd⟩ := h.exists_decl
    exact ⟨d, hd, (holds_iff hd).mp h⟩
  · intro ⟨d, hd, h⟩
    exact (holds_iff hd).mpr h

theorem index_lt_of_isSome {e : ExprId} (he : (t.expr? e).isSome) :
    e.index < t.expressions.size := by
  obtain ⟨x, hx⟩ := Option.isSome_iff_exists.mp he
  exact (Array.getElem?_eq_some_iff.mp hx).1

theorem Reowned.isSome_expr? (h : Reowned t t') (e : ExprId) :
    (t'.expr? e).isSome = (t.expr? e).isSome := by
  obtain ⟨owner, hx⟩ := h.expr e
  rw [hx, Option.isSome_map]

theorem Reowned.size_eq (h : Reowned t t') : t'.expressions.size = t.expressions.size := by
  have hsame := h.isSome_expr?
  simp only [expr?] at hsame
  apply Nat.le_antisymm
  · by_contra hlt
    have hs := hsame ⟨t.expressions.size⟩
    simp at hs
    omega
  · by_contra hlt
    have hs := hsame ⟨t'.expressions.size⟩
    simp at hs
    omega

theorem Reowned.descendants_eq (h : Reowned t t') (e : ExprId) :
    t'.descendants e = t.descendants e := by
  rw [descendants, descendants, exprIds, exprIds, h.size_eq, funext h.partsOf_eq]

theorem expr?_foldl_owner (owner : DeclId) (ids : List ExprId) (t : Tree) (e : ExprId) :
    (ids.foldl (fun s e ↦ s.modifyExpr e fun x ↦ { x with owner := owner }) t).expr? e =
      if e ∈ ids then (t.expr? e).map ({ · with owner := owner }) else t.expr? e := by
  induction ids generalizing t with
  | nil => rfl
  | cons id ids ih =>
    rw [List.foldl_cons, ih, expr?_modifyExpr]
    by_cases he : e = id
    · cases hx : t.expr? e <;> simp [he]
    · simp [he]

theorem expr?_foldl_adopt (owner : DeclId) (roots : List ExprId) (t : Tree) (e : ExprId) :
    (roots.foldl (fun s r ↦ s.adopt owner r) t).expr? e =
      if e ∈ roots.flatMap t.descendants then (t.expr? e).map ({ · with owner := owner })
      else t.expr? e := by
  induction roots generalizing t with
  | nil => rfl
  | cons r roots ih =>
    have hsame := funext (reowned_adopt t owner r).descendants_eq
    rw [List.foldl_cons, ih, hsame, List.flatMap_cons, adopt, expr?_foldl_owner]
    simp only [List.mem_append]
    by_cases hr : e ∈ t.descendants r
    · cases hx : t.expr? e <;> simp [hr]
    · simp [hr]

section AddDeclaration

variable {parent : DeclId} {name : String} {kind : DeclKind}

theorem expr?_addDeclaration (e : ExprId) :
    (t.addDeclaration parent name location kind).2.expr? e =
      if e ∈ kind.roots.flatMap t.descendants then
        (t.expr? e).map ({ · with owner := ⟨t.declarations.size⟩ })
      else t.expr? e :=
  expr?_foldl_adopt ⟨t.declarations.size⟩ kind.roots (t.linked parent _) e

theorem holds_addDeclaration (hp : (t.decl? parent).isSome) {a : DeclId} {e : ExprId} :
    (t.addDeclaration parent name location kind).2.Holds a e ↔
      a = ⟨t.declarations.size⟩ ∧ e ∈ kind.roots.flatMap t.descendants ∨ t.Holds a e := by
  obtain ⟨p, hp⟩ := Option.isSome_iff_exists.mp hp
  have hre := t.reowned_addDeclaration parent name location kind
  have hdesc : (t.addDeclaration parent name location kind).2.descendants = t.descendants :=
    funext hre.descendants_eq
  rw [holds_iff_exists, holds_iff_exists, hdesc]
  have hdecl (a : DeclId) : (t.addDeclaration parent name location kind).2.decl? a =
      (t.linked parent ⟨name, t.fullNameUnder parent name, some parent, [], location, .empty,
        .empty, kind⟩).decl? a := by rw [decl?, decl?, hre.declarations]
  simp only [hdecl]
  constructor
  · intro h
    obtain ⟨d, hd, he⟩ := h
    rcases decl?_linked_cases hp hd with ⟨rfl, rfl⟩ | ⟨old, hold, rfl⟩
    · exact .inl ⟨rfl, he⟩
    · exact .inr ⟨old, hold, he⟩
  · intro h
    rcases h with ⟨rfl, he⟩ | ⟨d, hd, he⟩
    · exact ⟨_, decl?_linked_new hp, he⟩
    · exact ⟨_, decl?_linked_old hp hd, he⟩

end AddDeclaration

theorem expr?_withKinds {kinds : List ExprKind} {e : ExprId} {x : Expression}
    (hx : (t.withKinds location kinds).expr? e = some x) :
    t.expr? e = some x ∨ t.expr? e = none ∧ x.owner = root := by
  rw [expr?, withKinds, Array.getElem?_append] at hx
  split at hx
  next => exact .inl hx
  next hlt =>
    refine .inr ⟨by simpa [expr?] using hlt, ?_⟩
    simp only [List.getElem?_toArray, List.getElem?_map] at hx
    obtain ⟨kind, -, rfl⟩ := Option.map_eq_some_iff.mp hx
    rfl

theorem expr?_withKinds_old (kinds : List ExprKind) {e : ExprId} (he : (t.expr? e).isSome) :
    (t.withKinds location kinds).expr? e = t.expr? e := by
  rw [expr?, withKinds, Array.getElem?_append_left (index_lt_of_isSome he)]
  rfl

theorem holds_withKinds (hc : t.Closed) (kinds : List ExprKind) {a : DeclId} {e : ExprId} :
    (t.withKinds location kinds).Holds a e ↔ t.Holds a e := by
  rw [holds_iff_exists, holds_iff_exists]
  change (∃ d, t.decl? a = some d ∧ _) ↔ _
  refine exists_congr fun d ↦ and_congr_right fun hd ↦ ?_
  have hdesc : ∀ r ∈ d.kind.roots,
      (t.withKinds location kinds).descendants r = t.descendants r := by
    intro r hr
    apply descendants_congr (P := fun e ↦ (t.expr? e).isSome) (hc.roots a d hd r hr)
    · intro e he
      rw [partsOf, partsOf, expr?_withKinds_old kinds he]
    · intro e he
      exact hc.partsOf he
    · intro e he
      rw [expr?_withKinds_old kinds he]
  rw [List.flatMap_congr hdesc]

/-- The expressions of a tree are those of some values: what is left of the values is held and owned
by the declaration that holds it, and the rest belongs to the root. -/
structure Accounted (t : Tree) (values : List Value) : Prop where
  size : t.expressions.size = (Value.nodesOfItems values).length
  held : ∀ e, (∃ a, t.Holds a e) ↔ MarkedFrom 0 (Value.keptOfItems values) e
  owner : ∀ e x, t.expr? e = some x → (∀ a, t.Holds a e → x.owner = a) ∧
    ((∀ a, ¬ t.Holds a e) → x.owner = root)

section Declaration

variable {values ws : List Value} {parent : DeclId} {name : String} {place : Option Location}
  {kind : DeclKind}

theorem mem_descendants_withKinds (hkind : kind.roots = Value.itemsAt ws t.expressions.size)
    {e : ExprId} : e ∈ kind.roots.flatMap
        (t.withKinds location (Value.layoutOfItems ws t.expressions.size)).descendants ↔
      MarkedFrom t.expressions.size (Value.keptOfItems ws) e := by
  rw [mem_flatMap_descendants, hkind]
  exact Value.reaches_itemsAt ws (carries_withKinds t location _)

theorem holds_declaration (hc : t.Closed) (hp : (t.decl? parent).isSome)
    (hkind : kind.roots = Value.itemsAt ws t.expressions.size) {a : DeclId} {e : ExprId} :
    ((t.withKinds location (Value.layoutOfItems ws t.expressions.size)).addDeclaration parent name
        place kind).2.Holds a e ↔
      a = ⟨t.declarations.size⟩ ∧ MarkedFrom t.expressions.size (Value.keptOfItems ws) e ∨
        t.Holds a e := by
  have hp' : ((t.withKinds location
      (Value.layoutOfItems ws t.expressions.size)).decl? parent).isSome := hp
  rw [holds_addDeclaration hp', mem_descendants_withKinds hkind, holds_withKinds hc]
  rfl

theorem Accounted.declaration (h : t.Accounted values) (hc : t.Closed)
    (hp : (t.decl? parent).isSome) (ws : List Value) (name : String)
    (location place : Option Location)
    (hkind : kind.roots = Value.itemsAt ws t.expressions.size) :
    ((t.withKinds location (Value.layoutOfItems ws t.expressions.size)).addDeclaration parent name
      place kind).2.Accounted (values ++ ws) := by
  refine ⟨?_, fun e ↦ ?_, fun e x hx ↦ ?_⟩
  · have hsize := (reowned_addDeclaration (t.withKinds location
      (Value.layoutOfItems ws t.expressions.size)) parent name place kind).size_eq
    change _ = (t.withKinds location (Value.layoutOfItems ws _)).expressions.size at hsize
    rw [hsize, size_withKinds, h.size, Value.nodesOfItems_append, List.length_append,
      Value.length_layoutOfItems]
  · rw [Value.keptOfItems_append, markedFrom_append, ← h.held, Value.length_keptOfItems,
      Nat.zero_add, ← h.size]
    simp only [holds_declaration hc hp hkind]
    constructor
    · intro ⟨a, ha⟩
      rcases ha with ⟨-, he⟩ | he
      · exact .inr he
      · exact .inl ⟨a, he⟩
    · intro he
      rcases he with ⟨a, he⟩ | he
      · exact ⟨a, .inr he⟩
      · exact ⟨_, .inl ⟨rfl, he⟩⟩
  · simp only [holds_declaration hc hp hkind]
    rw [expr?_addDeclaration] at hx
    split at hx
    next he =>
      rw [mem_descendants_withKinds hkind] at he
      obtain ⟨y, -, rfl⟩ := Option.map_eq_some_iff.mp hx
      refine ⟨fun a ha ↦ ?_, fun hno ↦ absurd (.inl ⟨rfl, he⟩) (hno ⟨t.declarations.size⟩)⟩
      rcases ha with ⟨rfl, -⟩ | ha
      · rfl
      · have hlt := index_lt_of_isSome ha.isSome
        obtain ⟨k, -, rfl⟩ := he
        exact absurd hlt (Nat.not_lt.mpr (Nat.le_add_right _ _))
    next he =>
      rw [mem_descendants_withKinds hkind] at he
      simp only [he, and_false, false_or]
      rcases expr?_withKinds hx with hx | ⟨hn, hroot⟩
      · exact h.owner e x hx
      · refine ⟨fun a ha ↦ ?_, fun _ ↦ hroot⟩
        have hsome := ha.isSome
        simp [hn] at hsome

end Declaration

end Tree

namespace Draft

variable {d : Draft}

theorem Sound.accounted_place {values : List Value} (h : d.Sound)
    (ha : d.tree.Accounted values) {parent : DeclId} (hp : (d.tree.decl? parent).isSome)
    (name : String) {kind : DeclKind} (hk : kind.roots = []) :
    (d.place parent name kind).2.tree.Accounted values := by
  have hplace := ha.declaration h.drafted.closed hp [] name none (some d.nextLocation) hk
  rwa [List.append_nil, Value.layoutOfItems, Tree.withKinds_nil] at hplace

theorem Sound.accounted_perform {values : List Value} (h : d.Sound) (ha : d.tree.Accounted values)
    (s : Statement) : (d.perform s).2.tree.Accounted (values ++ s.values) := by
  cases s with
  | pseudoParameters =>
    change d.addPseudoParameters.tree.Accounted (values ++ [])
    rw [List.append_nil]
    unfold Draft.addPseudoParameters
    generalize Vocabulary.pseudoParameters = ps
    induction ps generalizing d with
    | nil => exact ha
    | cons p ps ih =>
      apply ih (h.place h.root p.1 (.pseudoParameter p.2) (by simp [DeclKind.roots])).1
      exact h.accounted_place ha h.root p.1 rfl
  | declare name item =>
    obtain ⟨hroots, htree⟩ := item.store_eq (some d.nextLocation) d.tree
    have hplace := ha.declaration h.drafted.closed h.isSome_scope item.values name
      (some d.nextLocation) (some d.nextLocation) hroots
    rwa [← htree] at hplace
  | beginGroup name =>
    change (d.place d.scope name .group).2.tree.Accounted (values ++ [])
    rw [List.append_nil]
    exact h.accounted_place ha h.isSome_scope name rfl
  | endGroup =>
    change d.tree.Accounted (values ++ [])
    rwa [List.append_nil]

theorem Sound.accounted_foldl {values : List Value} (h : d.Sound) (ha : d.tree.Accounted values)
    (statements : List Statement) :
    (statements.foldl (fun d s ↦ (d.perform s).2) d).tree.Accounted
      (values ++ statements.flatMap Statement.values) := by
  induction statements generalizing d values with
  | nil =>
    rw [List.flatMap_nil, List.append_nil]
    exact ha
  | cons s statements ih =>
    rw [List.flatMap_cons, ← List.append_assoc]
    exact ih (h.perform s) (h.accounted_perform ha s)

theorem accounted_start (name file : String) : (start name file).tree.Accounted [] := by
  have hnone (e : ExprId) : (start name file).tree.expr? e = none := rfl
  refine ⟨rfl, fun e ↦ ?_, fun e x hx ↦ ?_⟩
  · refine iff_of_false ?_ ?_
    · intro ⟨a, ha⟩
      have hsome := ha.isSome
      simp [hnone] at hsome
    · intro ⟨k, hk, _⟩
      cases hk
  · simp [hnone] at hx

theorem accounted_build (name file : String) (statements : List Statement) :
    (build name file statements).Accounted (statements.flatMap Statement.values) :=
  (sound_start name file).accounted_foldl (accounted_start name file) statements

theorem file_perform (d : Draft) (s : Statement) : (d.perform s).2.file = d.file := by
  cases s with
  | pseudoParameters =>
    change d.addPseudoParameters.file = d.file
    unfold addPseudoParameters
    generalize Vocabulary.pseudoParameters = ps
    induction ps generalizing d with
    | nil => rfl
    | cons p ps ih => exact ih _
  | declare | beginGroup | endGroup => rfl

theorem file_foldl (d : Draft) (statements : List Statement) :
    (statements.foldl (fun d s ↦ (d.perform s).2) d).file = d.file := by
  induction statements generalizing d with
  | nil => rfl
  | cons s statements ih => exact (ih _).trans (d.file_perform s)

theorem drafted_build (name file : String) (statements : List Statement) :
    (build name file statements).Drafted file := by
  have h := (sound_foldl (sound_start name file) statements).drafted
  rwa [file_foldl] at h

end Draft

namespace Tree

variable {t t' : Tree} {file : String}

theorem Grows.loose_iff (hg : t.Grows t') (hc : t.Closed) (e : ExprId) :
    ((t'.expr? e).isSome ∧ ∀ a, ¬ t'.Holds a e) ↔ (t.expr? e).isSome ∧ ∀ a, ¬ t.Holds a e := by
  constructor
  · intro ⟨he, hloose⟩
    refine ⟨?_, fun a ha ↦ hloose a (ha.grows hg)⟩
    by_contra hn
    obtain ⟨x, hx⟩ := Option.isSome_iff_exists.mp he
    obtain ⟨-, -, d, r, hd, hk, -, hp⟩ :=
      hg.fresh e x (Option.not_isSome_iff_eq_none.mp hn) hx
    exact hloose x.owner (.root hd (by simp [hk, DeclKind.roots, hp]) he)
  · intro ⟨he, hloose⟩
    refine ⟨hg.isSome_expr? he, fun a ha ↦ ?_⟩
    rcases ha.of_grows hg hc with ha | ⟨hn, -⟩
    · exact hloose a ha
    · simp [hn] at he

/-- Declarations stand on lines of their own, with the expressions that they hold. What nothing
holds belongs to the root and is not bound. -/
structure Orderly (file : String) (t : Tree) : Prop where
  closed : t.Closed
  line : ∀ a d, t.decl? a = some d → d.location = some (.lineStart file (a.index + 1))
  held : ∀ a e x, t.Holds a e → t.expr? e = some x →
    x.owner = a ∧ x.location = some (.lineStart file (a.index + 1))
  loose : ∀ e x, t.expr? e = some x → (∀ a, ¬ t.Holds a e) → x.owner = root ∧ x.target = none

theorem Orderly.grows (h : t.Orderly file) (hg : t.Grows t')
    (hfresh : ∀ e x, t.expr? e = none → t'.expr? e = some x →
      x.location = some (.lineStart file (x.owner.index + 1)))
    (hbound : ∀ e x x', t.expr? e = some x → t'.expr? e = some x' →
      x'.target = x.target ∨ ∃ a, t.Holds a e) : t'.Orderly file where
  closed := h.closed.grows hg
  line a d' hd' := by
    obtain ⟨d, hd, hgd⟩ := hg.exists_decl hd'
    rw [hgd.location, h.line a d hd]
  held a e x' ha hx' := by
    rcases ha.of_grows hg h.closed with ha | ⟨hn, y, hy, -, rfl⟩
    · obtain ⟨x, y, hx, hy, hgx⟩ := hg.exists_expr ha.isSome
      cases hx'.symm.trans hy
      rw [hgx.owner, hgx.location]
      exact h.held a e x ha hx
    · cases hx'.symm.trans hy
      exact ⟨rfl, hfresh e x' hn hx'⟩
  loose e x' hx' hloose := by
    obtain ⟨he, hbefore⟩ := (hg.loose_iff h.closed e).mp ⟨by simp [hx'], hloose⟩
    obtain ⟨x, y, hx, hy, hgx⟩ := hg.exists_expr he
    cases hx'.symm.trans hy
    obtain ⟨howner, htarget⟩ := h.loose e x hx hbefore
    refine ⟨hgx.owner.trans howner, ?_⟩
    rcases hbound e x x' hx hx' with hsame | ⟨a, ha⟩
    · exact hsame.trans htarget
    · exact absurd ha (hbefore a)

theorem Orderly.completeResource (h : t.Orderly file) (id : DeclId) :
    (t.completeResource id).Orderly file := by
  refine h.grows (t.grows_completeResource id) (fun e x hn hx ↦ ?_) fun e x x' hx hx' ↦ ?_
  · rcases t.completeResource_cases id with ⟨-, he⟩ | ⟨d, r, value, y, -, -, -, -, -, he⟩ |
      ⟨d, r, type, hd, -, -, -, -, he⟩
    · rw [he, hn] at hx
      cases hx
    · rw [he, expr?_setResource, hn] at hx
      cases hx
    · rw [he, expr?_setResource, expr?_withExpression] at hx
      split at hx
      next =>
        cases hx
        exact h.line id d hd
      next =>
        rw [hn] at hx
        cases hx
  · have hsame := (t.keeps_completeResource id).expr e x hx
    cases hx'.symm.trans hsame
    exact .inl rfl

theorem Orderly.effect {ctx : Context} {s : BindingStep} {m : Matter} {v : Verdict}
    (h : t.Orderly file) (hs : ∀ a e, s = .expression a e → t.Holds a e)
    (hm : t.matter? s = some m) (hv : t.judge ctx s = .ok v) : (m.effect t v).Orderly file := by
  refine h.grows (grows_effect hm hv) (fun e x hn hx ↦ ?_) fun e x x' hx hx' ↦ ?_
  · rw [Matter.expr?_effect, hn] at hx
    split at hx
    next => split at hx <;> cases hx
    next => cases hx
  · rw [Matter.expr?_effect, hx] at hx'
    split at hx'
    next =>
      split at hx'
      next ho => exact .inr ⟨m.owner, hs _ e (origin_expression hm ho)⟩
      next =>
        cases hx'
        exact .inl rfl
    next =>
      cases hx'
      exact .inl rfl

end Tree

theorem Draft.orderly_build (name file : String) (statements : List Statement) :
    (build name file statements).Orderly file := by
  have hdrafted := drafted_build name file statements
  have haccounted := accounted_build name file statements
  refine ⟨hdrafted.closed, fun a d hd ↦ (hdrafted.decl a d hd).1, fun a e x ha hx ↦ ?_,
    fun e x hx hloose ↦ ?_⟩
  · obtain ⟨y, hy, hl⟩ := hdrafted.standsAt_of_holds ha
    cases hx.symm.trans hy
    exact ⟨(haccounted.owner e x hx).1 a ha, hl⟩
  · exact ⟨(haccounted.owner e x hx).2 hloose, (hdrafted.expr e x hx).1⟩

namespace Workspace

variable {w : Workspace} {file : String}

theorem orderly_reviewDeclaration (ctx : Context) (w : Workspace) (id : DeclId)
    (h : w.tree.Orderly file) : (w.reviewDeclaration ctx id).reached.tree.Orderly file := by
  rw [reviewDeclaration_eq]
  split
  next => exact h.completeResource id
  next => exact h.completeResource id

theorem orderly_reviewResources (ctx : Context) (w : Workspace) (h : w.tree.Orderly file) :
    (w.reviewResources ctx).reached.tree.Orderly file :=
  Outcome.reached_inTurn (I := fun w : Workspace ↦ w.tree.Orderly file)
    (fun id _ w h ↦ w.orderly_reviewDeclaration ctx id h) h

end Workspace

theorem Binder.orderly_step {ctx : Context} {b : Binder} {s : BindingStep} {file : String}
    (h : b.tree.Orderly file) (hs : ∀ a e, s = .expression a e → b.tree.Holds a e) :
    (b.step ctx s).reached.tree.Orderly file := by
  by_cases hcov : b.tree.Covers s
  · rw [step_eq hcov]
    cases hm : b.tree.matter? s with
    | none => exact h
    | some m =>
      cases hv : b.tree.judge ctx s with
      | ok v => exact h.effect hs hm hv
      | error fault => exact h
  · rw [step_of_not_covers hcov]
    exact h

namespace Workspace

theorem orderly_bindReferences {file : String} (ctx : Context) (w : Workspace)
    (h : w.tree.Orderly file) : (w.bindReferences ctx).reached.tree.Orderly file := by
  have hrun : w.tree.Grows (w.bindReferences ctx).reached.tree ∧
      (w.bindReferences ctx).reached.tree.Orderly file := by
    apply Outcome.reached_inTurn (I := fun b : Binder ↦ w.tree.Grows b.tree ∧ b.tree.Orderly file)
    · intro s hs b ⟨hg, hb⟩
      refine ⟨hg.trans (Binder.grows_step ctx b s), Binder.orderly_step hb fun a e heq ↦ ?_⟩
      subst heq
      exact (Tree.expression_mem_bindingSteps.mp hs).2.grows hg
    · exact ⟨.refl w.tree, h⟩
  exact hrun.2

theorem orderly_run {w : Workspace} {file : String} (h : w.tree.Orderly file)
    (passes : List Pass) : (w.run passes).tree.Orderly file :=
  run_preserves (fun ctx w ↦ w.orderly_reviewResources ctx)
    (fun ctx w ↦ w.orderly_bindReferences ctx) h passes

end Workspace

theorem Tree.Orderly.analyze {t : Tree} {file : String} (h : t.Orderly file)
    (directory : Provider.Directory) (options : Options) :
    (t.analyze directory options).1.Orderly file :=
  Tree.analyze_preserves (fun ctx w ↦ w.orderly_reviewResources ctx)
    (fun ctx w ↦ w.orderly_bindReferences ctx) directory options h

theorem Tree.Accounted.loose_iff {t : Tree} {values : List Value} (h : t.Accounted values)
    (e : ExprId) : ((t.expr? e).isSome ∧ ∀ a, ¬ t.Holds a e) ↔
      (Value.keptOfItems values)[e.index]? = some false := by
  have hlen : (Value.keptOfItems values).length = t.expressions.size := by
    rw [Value.length_keptOfItems, h.size]
  rw [← not_exists, h.held, markedFrom_zero, expr?, isSome_getElem?, ← hlen]
  cases hk : (Value.keptOfItems values)[e.index]? with
  | none => simpa using hk
  | some mark =>
    have hlt := (List.getElem?_eq_some_iff.mp hk).1
    simp [hlt]

/-- In a draft, and after any passes over it, no expression is held by two declarations, and the one
that holds it owns it and stands on the same line. The expressions that nothing holds are those that
were given for a field and then given again, with all that is below them; they belong to the root
and are not bound. The declarations stand on the lines in turn, one on each. -/
theorem Draft.expressions_with_their_holder (name file : String) (statements : List Statement)
    (log : Log) (passes : List Pass) :
    let t := (Workspace.run ⟨build name file statements, log⟩ passes).tree
    (∀ a b e, t.Holds a e → t.Holds b e → a = b) ∧
    (∀ a d e x, t.decl? a = some d → t.Holds a e → t.expr? e = some x →
      x.owner = a ∧ x.location = d.location) ∧
    (∀ e, ((t.expr? e).isSome ∧ ∀ a, ¬ t.Holds a e) ↔
      (Value.keptOfItems (statements.flatMap Statement.values))[e.index]? = some false) ∧
    (∀ e x, t.expr? e = some x → (∀ a, ¬ t.Holds a e) → x.owner = Tree.root ∧ x.target = none) ∧
    (∀ a d, t.decl? a = some d → d.location = some (.lineStart file (a.index + 1))) ∧
    ∀ a b d d', t.decl? a = some d → t.decl? b = some d' → d.location = d'.location → a = b := by
  intro t
  have hbuild := orderly_build name file statements
  have horderly : t.Orderly file := Workspace.orderly_run hbuild passes
  refine ⟨fun a b e ha hb ↦ ?_, fun a d e x hd ha hx ↦ ?_, fun e ↦ ?_, horderly.loose,
    horderly.line, fun a b d d' hd hd' hl ↦ ?_⟩
  · obtain ⟨x, hx⟩ := Option.isSome_iff_exists.mp ha.isSome
    rw [← (horderly.held a e x ha hx).1, ← (horderly.held b e x hb hx).1]
  · rw [horderly.line a d hd]
    exact horderly.held a e x ha hx
  · rw [← (accounted_build name file statements).loose_iff]
    exact (Workspace.grows_run _ passes).loose_iff hbuild.closed e
  · rw [horderly.line a d hd, horderly.line b d' hd', Option.some_inj] at hl
    exact DeclId.eq_of_lineStart hl

end InfraModule
