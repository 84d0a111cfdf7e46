import InfraModule.Draft
import InfraModule.Proofs.BindingTally
import InfraModule.Proofs.Completion

namespace InfraModule

theorem Registry.mem_values_put {α : Type} {r : Registry α} {name : String} {value v : α}
    (hv : v ∈ (r.put name value).values) : v ∈ r.values ∨ v = value := by
  unfold put at hv
  split at hv
  · simp only [values, overwrite, List.map_map, List.mem_map, Function.comp_apply] at hv ⊢
    obtain ⟨e, he, rfl⟩ := hv
    by_cases hname : e.1 = name
    · simp [hname]
    · exact .inl ⟨e, he, by simp [hname]⟩
  · simpa [values] using hv

theorem Registry.values_ofList_subset {α : Type} (entries : List (String × α)) :
    (Registry.ofList entries).values ⊆ entries.map Prod.snd := by
  suffices h : ∀ r : Registry α, ∀ v ∈ (entries.foldl (fun r e ↦ r.put e.1 e.2) r).values,
      v ∈ r.values ∨ v ∈ entries.map Prod.snd from
    fun v hv ↦ (h .empty v hv).resolve_left (by simp [values])
  induction entries with
  | nil => exact fun r v hv ↦ .inl hv
  | cons e es ih =>
    intro r v hv
    rw [List.map_cons, List.mem_cons]
    rcases ih (r.put e.1 e.2) v hv with hv | hv
    · exact (mem_values_put hv).imp id .inl
    · exact .inr (.inr hv)

namespace Tree

variable {t t' t'' : Tree} {location : Option Location} {e : ExprId}

def StandsAt (t : Tree) (location : Option Location) (e : ExprId) : Prop :=
  ∃ x, t.expr? e = some x ∧ x.location = location

/-- Expressions are added at one place; of the others at most the owners change. -/
structure Extends (location : Option Location) (t t' : Tree) : Prop where
  declarations : t'.declarations = t.declarations
  old : ∀ e x, t.expr? e = some x → ∃ owner, t'.expr? e = some { x with owner := owner }
  new : ∀ e x, t.expr? e = none → t'.expr? e = some x → x.target = none ∧
    x.location = location ∧ ∀ c ∈ x.kind.children, t'.StandsAt location c

theorem StandsAt.extends {place : Option Location} (he : t.StandsAt location e)
    (h : Extends place t t') : t'.StandsAt location e := by
  obtain ⟨x, hx, hl⟩ := he
  obtain ⟨owner, hx'⟩ := h.old e x hx
  exact ⟨_, hx', hl⟩

theorem Extends.refl (location : Option Location) (t : Tree) : Extends location t t :=
  ⟨rfl, fun _ x hx ↦ ⟨x.owner, hx⟩, fun e x hn hx ↦ by simp [hn] at hx⟩

theorem Extends.trans (h : Extends location t t') (h' : Extends location t' t'') :
    Extends location t t'' where
  declarations := h'.declarations.trans h.declarations
  old e x hx := by
    obtain ⟨_, hx'⟩ := h.old e x hx
    obtain ⟨owner, hx''⟩ := h'.old e _ hx'
    exact ⟨owner, hx''⟩
  new e x hn hx := by
    cases hx' : t'.expr? e with
    | none => exact h'.new e x hx' hx
    | some x' =>
      obtain ⟨owner, hx''⟩ := h'.old e x' hx'
      cases hx.symm.trans hx''
      obtain ⟨ht, hl, hparts⟩ := h.new e x' hn hx'
      exact ⟨ht, hl, fun c hc ↦ (hparts c hc).extends h'⟩

structure Stored (location : Option Location) (t : Tree) (ids : List ExprId) (t' : Tree) :
    Prop where
  grown : Extends location t t'
  stands : ∀ e ∈ ids, t'.StandsAt location e

theorem Stored.cons {ids : List ExprId} (h : Stored location t [e] t')
    (h' : Stored location t' ids t'') : Stored location t (e :: ids) t'' :=
  ⟨h.grown.trans h'.grown, List.forall_mem_cons.mpr
    ⟨(h.stands e (List.mem_singleton_self e)).extends h'.grown, h'.stands⟩⟩

theorem stored_addExpression {kind : ExprKind} (hk : ∀ c ∈ kind.children, t.StandsAt location c) :
    Stored location t [(t.addExpression kind location).1] (t.addExpression kind location).2 := by
  let x : Expression := ⟨root, location, none, kind⟩
  have hadd : (t.addExpression kind location).2 = t.withExpression x := rfl
  have hold (e : ExprId) (y : Expression) (hy : t.expr? e = some y) :
      (t.withExpression x).expr? e = some y := (keeps_withExpression t x).expr e y hy
  refine ⟨⟨rfl, fun e y hy ↦ ⟨y.owner, hold e y hy⟩, fun e y hn hy ↦ ?_⟩,
    List.forall_mem_singleton.mpr ⟨x, ?_, rfl⟩⟩
  · rw [hadd, expr?_withExpression, hn] at hy
    split at hy
    next =>
      cases hy
      refine ⟨rfl, rfl, fun c hc ↦ ?_⟩
      obtain ⟨z, hz, hl⟩ := hk c hc
      exact ⟨z, hold c z hz, hl⟩
    next => cases hy
  · rw [hadd, expr?_withExpression]
    exact if_pos rfl

theorem Stored.whole {ids : List ExprId} {kind : ExprKind} (h : Stored location t ids t')
    (hk : kind.children ⊆ ids) :
    Stored location t [(t'.addExpression kind location).1] (t'.addExpression kind location).2 :=
  have hwhole := stored_addExpression fun c hc ↦ h.stands c (hk hc)
  ⟨h.grown.trans hwhole.grown, hwhole.stands⟩

end Tree

namespace Value

open InfraModule.Tree

variable (location : Option Location)

mutual

theorem stored_store (v : Value) (t : Tree) :
    Stored location t [(v.store location t).1] (v.store location t).2 := by
  match v with
  | .literal _ | .reference _ | .getAttribute _ _ | .conditionReference _ =>
    exact stored_addExpression (by simp [ExprKind.children])
  | .list items =>
    exact (stored_storeItems items t).whole (List.Subset.refl _)
  | .object fields =>
    exact (stored_storeFields fields t).whole (Registry.values_ofList_subset _)
  | .findInMap mapping top second =>
    exact ((stored_store top t).cons (stored_store second _)).whole (List.Subset.refl _)

theorem stored_storeItems (vs : List Value) (t : Tree) :
    Stored location t (storeItems location vs t).1 (storeItems location vs t).2 := by
  match vs with
  | [] => exact ⟨.refl location t, by simp [storeItems]⟩
  | v :: vs => exact (stored_store v t).cons (stored_storeItems vs _)

theorem stored_storeFields (vs : List (String × Value)) (t : Tree) :
    Stored location t ((storeFields location vs t).1.map Prod.snd)
      (storeFields location vs t).2 := by
  match vs with
  | [] => exact ⟨.refl location t, by simp [storeFields]⟩
  | (name, v) :: vs => exact (stored_store v t).cons (stored_storeFields vs _)

end

theorem stored_storeOption (v : Option Value) (t : Tree) :
    Stored location t (storeOption location v t).1.toList (storeOption location v t).2 := by
  cases v with
  | none => exact ⟨.refl location t, by simp [storeOption]⟩
  | some v => exact stored_store location v t

end Value

namespace Tree

variable {t t' t'' : Tree} {location : Option Location} {file : String}

theorem Stored.append {ids ids' : List ExprId} (h : Stored location t ids t')
    (h' : Stored location t' ids' t'') : Stored location t (ids ++ ids') t'' :=
  ⟨h.grown.trans h'.grown, List.forall_mem_append.mpr
    ⟨fun e he ↦ (h.stands e he).extends h'.grown, h'.stands⟩⟩

theorem stored_store (location : Option Location) (item : Item) (t : Tree) :
    Stored location t (item.store location t).1.roots (item.store location t).2 := by
  cases item with
  | parameter | resourceType | importedModule | package | nestedModule =>
    exact ⟨.refl location t, by simp [Item.store, DeclKind.roots]⟩
  | var value | condition value | mapping value | macroDef value =>
    exact Value.stored_store location value t
  | function environment =>
    simpa [Item.store, DeclKind.roots] using Value.stored_storeOption location environment t
  | resource body =>
    exact ((Value.stored_storeOption location body.value t).append
      (Value.stored_storeOption location body.condition _)).append
      (Value.stored_storeOption location body.properties _)

structure Reowned (t t' : Tree) : Prop where
  declarations : t'.declarations = t.declarations
  expr : ∀ e, ∃ owner, t'.expr? e = (t.expr? e).map fun x ↦ { x with owner := owner }

theorem Reowned.refl (t : Tree) : Reowned t t := by
  refine ⟨rfl, fun e ↦ ?_⟩
  cases t.expr? e with
  | none => exact ⟨root, rfl⟩
  | some x => exact ⟨x.owner, rfl⟩

theorem Reowned.trans (h : Reowned t t') (h' : Reowned t' t'') : Reowned t t'' := by
  refine ⟨h'.declarations.trans h.declarations, fun e ↦ ?_⟩
  obtain ⟨_, hx⟩ := h.expr e
  obtain ⟨owner, hx'⟩ := h'.expr e
  exact ⟨owner, by rw [hx', hx, Option.map_map]; rfl⟩

theorem Reowned.extends (h : Reowned t t') (location : Option Location) :
    Extends location t t' := by
  refine ⟨h.declarations, fun e x hx ↦ ?_, fun e x hn hx ↦ ?_⟩
  · obtain ⟨owner, hx'⟩ := h.expr e
    exact ⟨owner, by rw [hx', hx, Option.map_some]⟩
  · obtain ⟨owner, hx'⟩ := h.expr e
    simp [hx', hn] at hx

theorem reowned_foldl {α : Type} (f : Tree → α → Tree) (hf : ∀ t a, Reowned t (f t a))
    (as : List α) (t : Tree) : Reowned t (as.foldl f t) := by
  induction as generalizing t with
  | nil => exact .refl t
  | cons a as ih => exact (hf t a).trans (ih (f t a))

theorem reowned_modifyOwner (t : Tree) (e : ExprId) (owner : DeclId) :
    Reowned t (t.modifyExpr e fun x ↦ { x with owner := owner }) := by
  refine ⟨rfl, fun e' ↦ ?_⟩
  rw [expr?_modifyExpr]
  split
  next => exact ⟨owner, rfl⟩
  next => exact (Reowned.refl t).expr e'

theorem reowned_adopt (t : Tree) (owner : DeclId) (e : ExprId) : Reowned t (t.adopt owner e) :=
  reowned_foldl _ (fun t e ↦ reowned_modifyOwner t e owner) _ t

/-- The trees that drafts are made of: the declaration with index `i` and all that it holds stand
on line `i + 1`, and each one but the root has a parent that came before it. -/
structure Drafted (file : String) (t : Tree) : Prop where
  decl : ∀ a d, t.decl? a = some d → d.location = some (.lineStart file (a.index + 1)) ∧
    d.dependencies = .empty ∧ ∀ e ∈ d.kind.roots, t.StandsAt d.location e
  expr : ∀ e x, t.expr? e = some x → x.target = none ∧
    ∀ c ∈ x.kind.children, t.StandsAt x.location c
  parent : ∀ a, (t.decl? a).isSome → a ≠ root → ∃ p, p.index < a.index ∧ a ∈ t.childrenOf p

theorem Drafted.extends (h : t.Drafted file) (hx : Extends location t t') : t'.Drafted file := by
  have hdecl (a : DeclId) : t'.decl? a = t.decl? a := by rw [decl?, decl?, hx.declarations]
  refine ⟨fun a d hd ↦ ?_, fun e x' hx' ↦ ?_, fun a ha hne ↦ ?_⟩
  · obtain ⟨hl, hdep, hroots⟩ := h.decl a d (hdecl a ▸ hd)
    exact ⟨hl, hdep, fun e he ↦ (hroots e he).extends hx⟩
  · cases hold : t.expr? e with
    | none =>
      obtain ⟨ht, rfl, hparts⟩ := hx.new e x' hold hx'
      exact ⟨ht, hparts⟩
    | some x =>
      obtain ⟨owner, hx''⟩ := hx.old e x hold
      cases hx'.symm.trans hx''
      obtain ⟨ht, hparts⟩ := h.expr e x hold
      exact ⟨ht, fun c hc ↦ (hparts c hc).extends hx⟩
  · obtain ⟨p, hp, hmem⟩ := h.parent a (hdecl a ▸ ha) hne
    exact ⟨p, hp, by rwa [childrenOf, hdecl]⟩

def withDeclaration (t : Tree) (d : Declaration) : Tree :=
  { t with declarations := t.declarations.push d }

theorem decl?_withDeclaration (t : Tree) (d : Declaration) (a : DeclId) :
    (t.withDeclaration d).decl? a = if a = ⟨t.declarations.size⟩ then some d else t.decl? a := by
  obtain ⟨i⟩ := a
  simp only [withDeclaration, decl?, Array.getElem?_push, DeclId.mk.injEq]

theorem index_lt_of_decl? {a : DeclId} {d : Declaration} (hd : t.decl? a = some d) :
    a.index < t.declarations.size := (Array.getElem?_eq_some_iff.mp hd).1

def linked (t : Tree) (parent : DeclId) (d : Declaration) : Tree :=
  (t.withDeclaration d).modifyDecl parent fun p ↦
    { p with children := p.children ++ [⟨t.declarations.size⟩] }

section Linked

variable {parent : DeclId} {p d : Declaration} (hp : t.decl? parent = some p)

include hp

theorem decl?_linked (a : DeclId) : (t.linked parent d).decl? a =
    if a = parent then some { p with children := p.children ++ [⟨t.declarations.size⟩] }
    else if a = ⟨t.declarations.size⟩ then some d else t.decl? a := by
  rw [linked, decl?_modifyDecl, decl?_withDeclaration]
  by_cases ha : a = parent
  · have hne : parent ≠ ⟨t.declarations.size⟩ := by
      rintro rfl
      exact Nat.lt_irrefl _ (index_lt_of_decl? hp)
    simp [ha, hne, hp]
  · simp [ha]

theorem Drafted.linked (h : t.Drafted file)
    (hl : d.location = some (.lineStart file (t.declarations.size + 1)))
    (hdep : d.dependencies = .empty) (hroots : ∀ e ∈ d.kind.roots, t.StandsAt d.location e) :
    (t.linked parent d).Drafted file := by
  have hlt := index_lt_of_decl? hp
  refine ⟨fun a c hc ↦ ?_, h.expr, fun a ha hne ↦ ?_⟩
  · rw [decl?_linked hp] at hc
    split at hc
    next hap =>
      cases hc
      subst hap
      exact h.decl a p hp
    next =>
      split at hc
      next hnew =>
        cases hc
        subst hnew
        exact ⟨hl, hdep, hroots⟩
      next => exact h.decl a c hc
  · by_cases hnew : a = ⟨t.declarations.size⟩
    · subst hnew
      exact ⟨parent, hlt, by simp [childrenOf, decl?_linked hp]⟩
    · have hold : (t.decl? a).isSome := by
        by_cases hap : a = parent
        · simp [hap, hp]
        · simpa [decl?_linked hp, hap, hnew] using ha
      obtain ⟨q, hq, hmem⟩ := h.parent a hold hne
      refine ⟨q, hq, ?_⟩
      obtain ⟨c, hc⟩ := Option.isSome_iff_exists.mp hold
      have hqnew : q ≠ ⟨t.declarations.size⟩ := by
        rintro rfl
        exact absurd (index_lt_of_decl? hc) (Nat.not_lt.mpr (Nat.le_of_lt hq))
      rw [childrenOf, decl?_linked hp, if_neg hqnew]
      split
      next hqp =>
        subst hqp
        simp only [childrenOf, hp, Option.elim_some] at hmem ⊢
        exact List.mem_append_left _ hmem
      next => exact hmem

end Linked

theorem isSome_decl?_linked {a : DeclId} (parent : DeclId) (d : Declaration)
    (ha : (t.decl? a).isSome ∨ a = ⟨t.declarations.size⟩) :
    ((t.linked parent d).decl? a).isSome := by
  rw [linked, decl?_modifyDecl, decl?_withDeclaration]
  rcases ha with ha | rfl
  · split <;> split <;> simp [ha]
  · simp [apply_ite]

theorem reowned_addDeclaration (t : Tree) (parent : DeclId) (name : String)
    (location : Option Location) (kind : DeclKind) :
    Reowned (t.linked parent ⟨name, t.fullNameUnder parent name, some parent, [], location,
      .empty, .empty, kind⟩) (t.addDeclaration parent name location kind).2 :=
  reowned_foldl _ (fun t e ↦ reowned_adopt t _ e) _ _

end Tree

namespace Draft

variable {d : Draft}

structure Sound (d : Draft) : Prop where
  drafted : d.tree.Drafted d.file
  line : d.line = d.tree.declarations.size
  root : (d.tree.decl? Tree.root).isSome
  groups : ∀ g ∈ d.groups, (d.tree.decl? g).isSome

theorem sound_start (name file : String) : (start name file).Sound where
  drafted := by
    refine ⟨fun a d hd ↦ ?_, fun e x hx ↦ ?_, fun a ha hne ↦ ?_⟩
    · obtain ⟨i⟩ := a
      cases i with
      | zero =>
        cases hd
        exact ⟨rfl, rfl, fun _ he ↦ absurd he List.not_mem_nil⟩
      | succ i => simp [start, Tree.new, Tree.decl?] at hd
    · simp [start, Tree.new, Tree.expr?] at hx
    · obtain ⟨i⟩ := a
      cases i with
      | zero => exact absurd rfl hne
      | succ i => simp [start, Tree.new, Tree.decl?] at ha
  line := rfl
  root := rfl
  groups := by simp [start]

theorem Sound.isSome_scope (h : d.Sound) : (d.tree.decl? d.scope).isSome := by
  cases hg : d.groups with
  | nil => simpa [scope, hg] using h.root
  | cons g gs =>
    have hmem := h.groups g (by simp [hg])
    simpa [scope, hg] using hmem

section Place

variable (h : d.Sound) {parent : DeclId} (hp : (d.tree.decl? parent).isSome) (name : String)
  (kind : DeclKind) (hk : ∀ e ∈ kind.roots, d.tree.StandsAt (some d.nextLocation) e)

include h hp hk

theorem Sound.place : (d.place parent name kind).2.Sound ∧
    ((d.place parent name kind).2.tree.decl? (d.place parent name kind).1).isSome := by
  obtain ⟨p, hp⟩ := Option.isSome_iff_exists.mp hp
  have hx := d.tree.reowned_addDeclaration parent name (some d.nextLocation) kind
  have hsome (a : DeclId) (ha : (d.tree.decl? a).isSome ∨ a = ⟨d.tree.declarations.size⟩) :
      ((d.place parent name kind).2.tree.decl? a).isSome := by
    rw [Tree.decl?]
    change ((d.tree.addDeclaration parent name _ kind).2.declarations[a.index]?).isSome
    rw [hx.declarations]
    exact Tree.isSome_decl?_linked parent _ ha
  have hline : d.nextLocation = .lineStart d.file (d.tree.declarations.size + 1) := by
    rw [nextLocation, h.line]
  refine ⟨⟨(h.drafted.linked hp (congrArg some hline) rfl hk).extends
    (hx.extends (some d.nextLocation)), ?_,
    hsome _ (.inl h.root), fun g hg ↦ hsome g (.inl (h.groups g hg))⟩, hsome _ (.inr rfl)⟩
  change d.line + 1 = (d.tree.addDeclaration parent name _ kind).2.declarations.size
  rw [hx.declarations, h.line]
  simp [Tree.linked, Tree.withDeclaration, Tree.modifyDecl]

end Place

theorem Sound.declare (h : d.Sound) (name : String) (item : Item) :
    (d.declare name item).2.Sound := by
  have hstored := Tree.stored_store (some d.nextLocation) item d.tree
  have hsome (a : DeclId) (ha : (d.tree.decl? a).isSome) :
      ((item.store (some d.nextLocation) d.tree).2.decl? a).isSome := by
    rwa [Tree.decl?, hstored.grown.declarations]
  have hsound : Sound { d with tree := (item.store (some d.nextLocation) d.tree).2 } :=
    ⟨h.drafted.extends hstored.grown, by rw [h.line, hstored.grown.declarations],
      hsome _ h.root, fun g hg ↦ hsome g (h.groups g hg)⟩
  exact (hsound.place (hsome _ h.isSome_scope) name _ hstored.stands).1

theorem Sound.beginGroup (h : d.Sound) (name : String) : (d.beginGroup name).2.Sound := by
  obtain ⟨⟨hdrafted, hline, hroot, hgroups⟩, hnew⟩ :=
    h.place h.isSome_scope name .group (by simp [DeclKind.roots])
  exact ⟨hdrafted, hline, hroot, List.forall_mem_cons.mpr ⟨hnew, hgroups⟩⟩

theorem Sound.addPseudoParameters (h : d.Sound) : d.addPseudoParameters.Sound := by
  unfold Draft.addPseudoParameters
  generalize Vocabulary.pseudoParameters = ps
  induction ps generalizing d with
  | nil => exact h
  | cons p ps ih =>
    exact ih (h.place h.root p.1 (.pseudoParameter p.2) (by simp [DeclKind.roots])).1

theorem Sound.perform (h : d.Sound) (s : Statement) : (d.perform s).2.Sound := by
  cases s with
  | pseudoParameters => exact h.addPseudoParameters
  | declare name item => exact h.declare name item
  | beginGroup name => exact h.beginGroup name
  | endGroup =>
    exact ⟨h.drafted, h.line, h.root, fun g hg ↦ h.groups g (List.mem_of_mem_tail hg)⟩

theorem sound_foldl (h : d.Sound) (statements : List Statement) :
    (statements.foldl (fun d s ↦ (d.perform s).2) d).Sound := by
  induction statements generalizing d with
  | nil => exact h
  | cons s statements ih => exact ih (h.perform s)

theorem exists_drafted_build (name file : String) (statements : List Statement) :
    ∃ file', (build name file statements).Drafted file' ∧
      ((build name file statements).decl? Tree.root).isSome :=
  have h := sound_foldl (sound_start name file) statements
  ⟨_, h.drafted, h.root⟩

end Draft

theorem DeclId.eq_of_lineStart {file : String} {a b : DeclId}
    (h : Location.lineStart file (a.index + 1) = .lineStart file (b.index + 1)) : a = b := by
  obtain ⟨i⟩ := a
  obtain ⟨j⟩ := b
  simp only [Location.lineStart, Location.mk.injEq, Position.mk.injEq] at h
  congr 1
  omega

namespace Tree.Drafted

variable {t : Tree} {file : String} (h : t.Drafted file)

include h

theorem closed : t.Closed := by
  refine ⟨fun a d hd e he ↦ ?_, fun e x hx c hc ↦ ?_⟩
  · obtain ⟨x, hx, -⟩ := (h.decl a d hd).2.2 e he
    simp [hx]
  · obtain ⟨y, hy, -⟩ := (h.expr e x hx).2 c hc
    simp [hy]

theorem standsAt_of_holds {a : DeclId} {e : ExprId} (he : t.Holds a e) :
    t.StandsAt (some (.lineStart file (a.index + 1))) e := by
  induction he with
  | @root d e hd hroot hx =>
    obtain ⟨hl, -, hroots⟩ := h.decl a d hd
    exact hl ▸ hroots e hroot
  | @part e p he hp hx ih =>
    obtain ⟨x, hx, hl⟩ := ih
    simp only [partsOf, hx, Option.elim_some] at hp
    exact hl ▸ (h.expr e x hx).2 p hp

theorem unshared : t.Unshared := by
  intro a _ b _ e ha hb
  obtain ⟨x, hx, hxa⟩ := h.standsAt_of_holds ha
  obtain ⟨y, hy, hyb⟩ := h.standsAt_of_holds hb
  cases hx.symm.trans hy
  exact DeclId.eq_of_lineStart (Option.some_inj.mp (hxa.symm.trans hyb))

theorem mem_walk (hroot : (t.decl? root).isSome) {a : DeclId} (ha : (t.decl? a).isSome) :
    a ∈ t.walk := mem_walk_of_parents hroot h.parent ha

end Tree.Drafted

end InfraModule
