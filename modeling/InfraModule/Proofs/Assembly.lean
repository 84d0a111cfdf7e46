import InfraModule.Proofs.Drafting

namespace InfraModule

namespace Tree

inductive Grown : Tree → Prop
  | new (name : String) (location : Option Location) : Grown (.new name location)
  | expression {t : Tree} (kind : ExprKind) (location : Option Location) :
      Grown t → Grown (t.addExpression kind location).2
  | ownedExpression {t : Tree} (owner : DeclId) (kind : ExprKind) (location : Option Location) :
      Grown t → Grown (t.addOwnedExpression owner kind location).2
  | declaration {t : Tree} {parent : DeclId} (name : String) (location : Option Location)
      (kind : DeclKind) : Grown t → (t.decl? parent).isSome →
      Grown (t.addDeclaration parent name location kind).2

inductive Assembled : Tree → Prop
  | new (name : String) (location : Option Location) : Assembled (.new name location)
  | expression {t : Tree} {kind : ExprKind} (location : Option Location) :
      Assembled t → (∀ c ∈ kind.children, (t.expr? c).isSome) →
      Assembled (t.addExpression kind location).2
  | declaration {t : Tree} {parent : DeclId} {kind : DeclKind} (name : String)
      (location : Option Location) : Assembled t → (t.decl? parent).isSome →
      (∀ e ∈ kind.roots, (t.expr? e).isSome) → kind.isModuleRoot = false →
      Assembled (t.addDeclaration parent name location kind).2

variable {t t' : Tree}

theorem Assembled.grown (h : t.Assembled) : t.Grown := by
  induction h with
  | new name location => exact .new name location
  | expression location _ _ ih => exact .expression _ location ih
  | declaration name location _ hp _ _ ih => exact .declaration name location _ ih hp

theorem isSome_of_standsAt {location : Option Location} {e : ExprId}
    (he : t.StandsAt location e) : (t.expr? e).isSome := by
  obtain ⟨x, hx, -⟩ := he
  simp [hx]

theorem Assembled.whole {location : Option Location} {ids : List ExprId} {kind : ExprKind}
    (h : t'.Assembled) (hstored : Stored location t ids t') (hk : kind.children ⊆ ids) :
    (t'.addExpression kind location).2.Assembled :=
  .expression location h fun c hc ↦ isSome_of_standsAt (hstored.stands c (hk hc))

end Tree

namespace Value

open InfraModule.Tree

variable (location : Option Location)

mutual

theorem assembled_store {t : Tree} (h : t.Assembled) (v : Value) :
    (v.store location t).2.Assembled := by
  match v with
  | .literal _ | .reference _ | .getAttribute _ _ | .conditionReference _ =>
    exact .expression location h (by simp [ExprKind.children])
  | .list items =>
    exact (assembled_storeItems h items).whole (stored_storeItems location items t)
      (List.Subset.refl _)
  | .object fields =>
    exact (assembled_storeFields h fields).whole (stored_storeFields location fields t)
      (Registry.values_ofList_subset _)
  | .findInMap mapping top second =>
    exact (assembled_store (assembled_store h top) second).whole
      ((stored_store location top t).cons (stored_store location second _)) (List.Subset.refl _)

theorem assembled_storeItems {t : Tree} (h : t.Assembled) (vs : List Value) :
    (storeItems location vs t).2.Assembled := by
  match vs with
  | [] => exact h
  | v :: vs => exact assembled_storeItems (assembled_store h v) vs

theorem assembled_storeFields {t : Tree} (h : t.Assembled) (vs : List (String × Value)) :
    (storeFields location vs t).2.Assembled := by
  match vs with
  | [] => exact h
  | (name, v) :: vs => exact assembled_storeFields (assembled_store h v) vs

end

theorem assembled_storeOption {t : Tree} (h : t.Assembled) (v : Option Value) :
    (storeOption location v t).2.Assembled := by
  cases v with
  | none => exact h
  | some v => exact assembled_store location h v

end Value

theorem Item.assembled_store (location : Option Location) {t : Tree} (h : t.Assembled)
    (item : Item) : (item.store location t).2.Assembled := by
  cases item with
  | parameter | resourceType | importedModule | package | nestedModule => exact h
  | var value | condition value | mapping value | macroDef value =>
    exact Value.assembled_store location h value
  | function environment => exact Value.assembled_storeOption location h environment
  | resource body =>
    apply Value.assembled_storeOption
    apply Value.assembled_storeOption
    exact Value.assembled_storeOption location h body.value

theorem Item.isModuleRoot_store (location : Option Location) (t : Tree) (item : Item) :
    (item.store location t).1.isModuleRoot = false := by
  cases item <;> rfl

namespace Draft

variable {d : Draft}

theorem Sound.assembled_addPseudoParameters (h : d.Sound) (ha : d.tree.Assembled) :
    d.addPseudoParameters.tree.Assembled := by
  unfold Draft.addPseudoParameters
  generalize Vocabulary.pseudoParameters = ps
  induction ps generalizing d with
  | nil => exact ha
  | cons p ps ih =>
    have hroots : ∀ e ∈ (DeclKind.pseudoParameter p.2).roots,
        d.tree.StandsAt (some d.nextLocation) e := by simp [DeclKind.roots]
    apply ih (h.place h.root p.1 _ hroots).1
    exact .declaration p.1 _ ha h.root (by simp [DeclKind.roots]) rfl

theorem Sound.assembled_declare (h : d.Sound) (ha : d.tree.Assembled) (name : String)
    (item : Item) : (d.declare name item).2.tree.Assembled := by
  have hstored := Tree.stored_store (some d.nextLocation) item d.tree
  apply Tree.Assembled.declaration
  · exact item.assembled_store _ ha
  · have hscope := h.isSome_scope
    rwa [Tree.decl?, ← hstored.grown.declarations] at hscope
  · intro e he
    exact Tree.isSome_of_standsAt (hstored.stands e he)
  · exact item.isModuleRoot_store _ _

theorem Sound.assembled_perform (h : d.Sound) (ha : d.tree.Assembled) (s : Statement) :
    (d.perform s).2.tree.Assembled := by
  cases s with
  | pseudoParameters => exact h.assembled_addPseudoParameters ha
  | declare name item => exact h.assembled_declare ha name item
  | beginGroup name =>
    exact .declaration name _ ha h.isSome_scope (by simp [DeclKind.roots]) rfl
  | endGroup => exact ha

theorem assembled_build (name file : String) (statements : List Statement) :
    (build name file statements).Assembled := by
  suffices h : ∀ d : Draft, d.Sound → d.tree.Assembled →
      (statements.foldl (fun d s ↦ (d.perform s).2) d).tree.Assembled from
    h _ (sound_start name file) (.new name _)
  induction statements with
  | nil =>
    intro d _ ha
    exact ha
  | cons s statements ih =>
    intro d h ha
    exact ih _ (h.perform s) (h.assembled_perform ha s)

end Draft

namespace Tree

variable {t t' : Tree}

section Linked

variable {parent a : DeclId} {p c d : Declaration} (hp : t.decl? parent = some p)

include hp

theorem decl?_linked_new : (t.linked parent d).decl? ⟨t.declarations.size⟩ = some d := by
  have hne : (⟨t.declarations.size⟩ : DeclId) ≠ parent := by
    intro heq
    have hlt := index_lt_of_decl? hp
    rw [← heq] at hlt
    exact Nat.lt_irrefl _ hlt
  rw [decl?_linked hp, if_neg hne, if_pos rfl]

theorem decl?_linked_old (hc : t.decl? a = some c) : (t.linked parent d).decl? a =
    some { c with children :=
      if a = parent then c.children ++ [⟨t.declarations.size⟩] else c.children } := by
  rw [decl?_linked hp]
  by_cases hap : a = parent
  · subst hap
    cases hp.symm.trans hc
    simp
  · have hne : a ≠ ⟨t.declarations.size⟩ := by
      intro heq
      have hlt := index_lt_of_decl? hc
      rw [heq] at hlt
      exact Nat.lt_irrefl _ hlt
    simp [hap, hne, hc]

theorem decl?_linked_cases (hc : (t.linked parent d).decl? a = some c) :
    a = ⟨t.declarations.size⟩ ∧ c = d ∨ ∃ old, t.decl? a = some old ∧
      c = { old with children :=
        if a = parent then old.children ++ [⟨t.declarations.size⟩] else old.children } := by
  cases hold : t.decl? a with
  | some old =>
    rw [decl?_linked_old hp hold] at hc
    exact .inr ⟨old, rfl, (Option.some.inj hc).symm⟩
  | none =>
    by_cases hnew : a = ⟨t.declarations.size⟩
    · subst hnew
      rw [decl?_linked_new hp] at hc
      exact .inl ⟨rfl, (Option.some.inj hc).symm⟩
    · have hne : a ≠ parent := by
        intro heq
        rw [heq, hp] at hold
        cases hold
      rw [decl?_linked hp, if_neg hne, if_neg hnew, hold] at hc
      cases hc

end Linked

theorem decl?_new {name : String} {location : Option Location} {a : DeclId} {d : Declaration}
    (hd : (Tree.new name location).decl? a = some d) : a = root ∧
      d = ⟨name, name, none, [], location, .empty, .empty, .moduleRoot none none⟩ := by
  obtain ⟨i⟩ := a
  cases i with
  | zero =>
    cases hd
    exact ⟨rfl, rfl⟩
  | succ i => simp [Tree.new, decl?] at hd

theorem decl?_addDeclaration {parent a : DeclId} {name : String} {location : Option Location}
    {kind : DeclKind} {c : Declaration} (hp : (t.decl? parent).isSome)
    (hc : (t.addDeclaration parent name location kind).2.decl? a = some c) :
    c = ⟨name, t.fullNameUnder parent name, some parent, [], location, .empty, .empty, kind⟩ ∨
      ∃ old children, t.decl? a = some old ∧ c = { old with children := children } := by
  obtain ⟨p, hp⟩ := Option.isSome_iff_exists.mp hp
  rw [decl?, (t.reowned_addDeclaration parent name location kind).declarations] at hc
  obtain ⟨-, rfl⟩ | ⟨old, hold, rfl⟩ := decl?_linked_cases hp hc
  · exact .inl rfl
  · exact .inr ⟨old, _, hold, rfl⟩

theorem Grown.missing_eq_empty (h : t.Grown) {a : DeclId} {d : Declaration}
    (hd : t.decl? a = some d) : d.missing = .empty := by
  induction h generalizing a d with
  | new name location =>
    obtain ⟨-, rfl⟩ := decl?_new hd
    rfl
  | expression kind location _ ih => exact ih hd
  | ownedExpression owner kind location _ ih =>
    rw [decl?, addOwnedExpression, (reowned_adopt _ owner _).declarations] at hd
    exact ih hd
  | declaration name location kind _ hp ih =>
    obtain rfl | ⟨old, children, hold, rfl⟩ := decl?_addDeclaration hp hd
    · rfl
    · change old.missing = .empty
      exact ih hold

theorem Assembled.isModuleRoot_eq_false (h : t.Assembled) {a : DeclId} {d : Declaration}
    (hd : t.decl? a = some d) (hne : a ≠ root) : d.kind.isModuleRoot = false := by
  induction h generalizing a d with
  | new name location => exact absurd (decl?_new hd).1 hne
  | expression location _ _ ih => exact ih hd hne
  | declaration name location _ hp _ hk ih =>
    obtain rfl | ⟨old, children, hold, rfl⟩ := decl?_addDeclaration hp hd
    · exact hk
    · change old.kind.isModuleRoot = false
      exact ih hold hne

theorem Reowned.partsOf_eq (h : Reowned t t') (e : ExprId) : t'.partsOf e = t.partsOf e := by
  obtain ⟨owner, hx⟩ := h.expr e
  rw [partsOf, partsOf, hx]
  cases t.expr? e <;> rfl

/-- Parts come before what they are parts of. -/
def Ordered (t : Tree) : Prop := ∀ e, ∀ c ∈ t.partsOf e, c.index < e.index

theorem Ordered.addExpression (h : t.Ordered) {kind : ExprKind} (location : Option Location)
    (hk : ∀ c ∈ kind.children, (t.expr? c).isSome) : (t.addExpression kind location).2.Ordered := by
  intro e c hc
  change c ∈ (t.withExpression ⟨root, location, none, kind⟩).partsOf e at hc
  rw [partsOf, expr?_withExpression] at hc
  split at hc
  next he =>
    obtain ⟨x, hx⟩ := Option.isSome_iff_exists.mp (hk c hc)
    subst he
    exact (Array.getElem?_eq_some_iff.mp hx).1
  next => exact h e c hc

theorem Assembled.ordered (h : t.Assembled) : t.Ordered := by
  induction h with
  | new name location =>
    intro e c hc
    simp [partsOf, Tree.new, expr?] at hc
  | expression location _ hk ih => exact ih.addExpression location hk
  | @declaration t parent kind name location _ _ _ _ ih =>
    intro e c hc
    rw [(t.reowned_addDeclaration parent name location kind).partsOf_eq] at hc
    exact ih e c hc

end Tree

end InfraModule
