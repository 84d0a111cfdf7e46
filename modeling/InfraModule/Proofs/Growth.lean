import InfraModule.Proofs.TreeWalk
import Mathlib.Data.List.Basic

namespace InfraModule

/-- What a resource left out was filled in: the type of an external one, and the properties of a
managed one, by a new object without fields that the resource owns. -/
structure Resource.Filled (t t' : Tree) (id : DeclId) (r r' : Resource) : Prop where
  value : r'.value = r.value
  condition : r'.condition = r.condition
  dependsOn : r'.dependsOn = r.dependsOn
  type : r'.type = r.type ∨ r.type = none ∧ r.value.isSome
  properties : r'.properties = r.properties ∨ r.properties = none ∧ r.isManaged ∧
    ∃ e x, r'.properties = some e ∧ t.expr? e = none ∧ t'.expr? e = some x ∧
      x.kind = .object .empty ∧ x.owner = id

inductive DeclKind.Filled (t t' : Tree) (id : DeclId) : DeclKind → DeclKind → Prop
  | same (kind : DeclKind) : Filled t t' id kind kind
  | resource {r r' : Resource} : r.Filled t t' id r' → Filled t t' id (.resource r) (.resource r')

structure Declaration.Grows (t t' : Tree) (id : DeclId) (d d' : Declaration) : Prop where
  name : d'.name = d.name
  fullName : d'.fullName = d.fullName
  parent : d'.parent = d.parent
  children : d'.children = d.children
  location : d'.location = d.location
  kind : d.kind.Filled t t' id d'.kind
  dependencies : d.dependencies.toList <+: d'.dependencies.toList
  missing : d.missing.toList <+: d'.missing.toList

/-- Only a reference that is not bound yet can become bound. -/
structure Expression.Grows (x x' : Expression) : Prop where
  owner : x'.owner = x.owner
  location : x'.location = x.location
  kind : x'.kind = x.kind
  target : x'.target = x.target ∨ x.target = none ∧ x.kind.reference?.isSome

structure Tree.Grows (t t' : Tree) : Prop where
  size : t'.declarations.size = t.declarations.size
  decl : ∀ id d, t.decl? id = some d → ∃ d', t'.decl? id = some d' ∧ d.Grows t t' id d'
  expr : ∀ id x, t.expr? id = some x → ∃ x', t'.expr? id = some x' ∧ x.Grows x'
  fresh : ∀ id x', t.expr? id = none → t'.expr? id = some x' →
    x'.kind = .object .empty ∧ x'.target = none ∧ ∃ d' r', t'.decl? x'.owner = some d' ∧
      d'.kind = .resource r' ∧ r'.isManaged ∧ r'.properties = some id

variable {t t' t'' : Tree} {id : DeclId}

namespace Resource.Filled

variable {r r' : Resource}

theorem isManaged_eq (h : r.Filled t t' id r') : r'.isManaged = r.isManaged := by
  unfold isManaged
  rw [h.value]
  rcases h.type with ht | ⟨_, hv⟩
  · rw [ht]
  · obtain ⟨v, hv⟩ := Option.isSome_iff_exists.mp hv
    simp [hv]

theorem type_of_isManaged (h : r.Filled t t' id r') (hm : r.isManaged) : r'.type = r.type := by
  rcases h.type with ht | ⟨_, hv⟩
  · exact ht
  · simp_all [isManaged]

end Resource.Filled

namespace DeclKind.Filled

variable {k k' : DeclKind} (h : k.Filled t t' id k')

include h

theorem dependsOn_eq : k'.dependsOn = k.dependsOn := by
  cases h with
  | same => rfl
  | resource hr => exact hr.dependsOn

theorem isProvisioned_eq : k'.isProvisioned = k.isProvisioned := by
  cases h with
  | same => rfl
  | resource hr => exact hr.isManaged_eq

theorem stackType?_eq : k'.stackType? = k.stackType? := by
  cases h with
  | same => rfl
  | @resource r r' hr =>
    simp only [stackType?, hr.isManaged_eq]
    split
    next hm => exact hr.type_of_isManaged hm
    next => rfl

theorem mem_roots {e : ExprId} (he : e ∈ k'.roots) : e ∈ k.roots ∨
    t.expr? e = none ∧ ∃ x, t'.expr? e = some x ∧ x.kind = .object .empty ∧ x.owner = id := by
  cases h with
  | same => exact .inl he
  | @resource r r' hr =>
    rcases hr.properties with hp | ⟨_, _, p, x, hp, hn, hx, hk, ho⟩
    · left
      simpa only [roots, hr.value, hr.condition, hp] using he
    · simp only [roots, hr.value, hr.condition, hp, List.mem_append, Option.toList_some,
        List.mem_singleton] at he ⊢
      rcases he with he | rfl
      · exact .inl (.inl he)
      · exact .inr ⟨hn, x, hx, hk, ho⟩

theorem roots_subset : k.roots ⊆ k'.roots := by
  cases h with
  | same => exact List.Subset.refl _
  | @resource r r' hr =>
    rcases hr.properties with hp | ⟨hp, -⟩
    · simp [roots, hr.value, hr.condition, hp]
    · simp [roots, hr.value, hr.condition, hp]

theorem isCondition_eq : k'.isCondition = k.isCondition := by cases h <;> rfl

theorem isMapping_eq : k'.isMapping = k.isMapping := by cases h <;> rfl

theorem isNestedModule_eq : k'.isNestedModule = k.isNestedModule := by cases h <;> rfl

theorem label_eq : k'.label = k.label := by cases h <;> rfl

theorem resourceType_iff {handler : Option ExprId} {properties attributes : List String} :
    k' = .resourceType handler properties attributes ↔
      k = .resourceType handler properties attributes := by
  cases h with
  | same => exact Iff.rfl
  | resource => exact iff_of_false nofun nofun

end DeclKind.Filled

theorem Declaration.Grows.refl (t t' : Tree) (id : DeclId) (d : Declaration) :
    d.Grows t t' id d :=
  ⟨rfl, rfl, rfl, rfl, rfl, .same d.kind, List.prefix_refl _, List.prefix_refl _⟩

theorem Expression.Grows.refl (x : Expression) : x.Grows x := ⟨rfl, rfl, rfl, .inl rfl⟩

theorem Expression.Grows.trans {x x' x'' : Expression} (h : x.Grows x') (h' : x'.Grows x'') :
    x.Grows x'' := by
  refine ⟨h'.owner.trans h.owner, h'.location.trans h.location, h'.kind.trans h.kind, ?_⟩
  rcases h'.target with ht' | ⟨ht', hr⟩
  · rw [ht']
    exact h.target
  · refine h.target.elim (fun ht ↦ .inr ⟨ht ▸ ht', h.kind ▸ hr⟩) .inr

namespace Tree.Grows

theorem refl (t : Tree) : t.Grows t where
  size := rfl
  decl id d hd := ⟨d, hd, .refl t t id d⟩
  expr id x hx := ⟨x, hx, .refl x⟩
  fresh id x hn hs := by simp [hn] at hs

variable (h : t.Grows t')

include h

theorem declIds_eq : t'.declIds = t.declIds := by rw [declIds, declIds, h.size]

theorem isSome_decl? (id : DeclId) : (t'.decl? id).isSome = (t.decl? id).isSome := by
  rw [Bool.eq_iff_iff, ← mem_declIds, ← mem_declIds, h.declIds_eq]

theorem exists_decl {d' : Declaration} (hd' : t'.decl? id = some d') :
    ∃ d, t.decl? id = some d ∧ d.Grows t t' id d' := by
  obtain ⟨d, hd⟩ : ∃ d, t.decl? id = some d := by
    rw [← Option.isSome_iff_exists, ← h.isSome_decl?, hd']
    rfl
  obtain ⟨d'', hd'', hg⟩ := h.decl id d hd
  rw [hd', Option.some_inj] at hd''
  exact ⟨d, hd, hd'' ▸ hg⟩

theorem decl?_cases (id : DeclId) : t.decl? id = none ∧ t'.decl? id = none ∨
    ∃ d d', t.decl? id = some d ∧ t'.decl? id = some d' ∧ d.Grows t t' id d' := by
  cases hd : t.decl? id with
  | none =>
    refine .inl ⟨rfl, ?_⟩
    rw [← Option.not_isSome_iff_eq_none, h.isSome_decl?, hd]
    exact Bool.false_ne_true
  | some d =>
    obtain ⟨d', hd', hg⟩ := h.decl id d hd
    exact .inr ⟨d, d', rfl, hd', hg⟩

theorem exists_expr {e : ExprId} (he : (t.expr? e).isSome) :
    ∃ x x', t.expr? e = some x ∧ t'.expr? e = some x' ∧ x.Grows x' := by
  obtain ⟨x, hx⟩ := Option.isSome_iff_exists.mp he
  obtain ⟨x', hx', hg⟩ := h.expr e x hx
  exact ⟨x, x', hx, hx', hg⟩

theorem isSome_expr? {e : ExprId} (he : (t.expr? e).isSome) : (t'.expr? e).isSome := by
  obtain ⟨x, x', -, hx', -⟩ := h.exists_expr he
  simp [hx']

theorem expr?_eq_none {e : ExprId} (he : t'.expr? e = none) : t.expr? e = none := by
  by_contra hn
  have hs := h.isSome_expr? (Option.isSome_iff_ne_none.mpr hn)
  simp [he] at hs

theorem expressions_size_le : t.expressions.size ≤ t'.expressions.size := by
  by_contra hlt
  have hs : (t.expr? ⟨t'.expressions.size⟩).isSome := by
    simp [expr?]
    omega
  have hs' := h.isSome_expr? hs
  simp [expr?] at hs'

theorem kind_eq {e : ExprId} {x x' : Expression} (hx : t.expr? e = some x)
    (hx' : t'.expr? e = some x') : x'.kind = x.kind := by
  obtain ⟨y, hy, hg⟩ := h.expr e x hx
  rw [hx', Option.some_inj] at hy
  exact hy ▸ hg.kind

end Tree.Grows

theorem Resource.Filled.trans {r r' r'' : Resource} (hr : r.Filled t t' id r')
    (hr' : r'.Filled t' t'' id r'') (h : t.Grows t') (h' : t'.Grows t'') :
    r.Filled t t'' id r'' := by
  refine ⟨hr'.value.trans hr.value, hr'.condition.trans hr.condition,
    hr'.dependsOn.trans hr.dependsOn, ?_, ?_⟩
  · rcases hr'.type with ht | ⟨ht, hv⟩
    · exact ht ▸ hr.type
    · exact hr.type.elim (fun e ↦ .inr ⟨e ▸ ht, hr.value ▸ hv⟩) .inr
  · rcases hr'.properties with hp' | ⟨hp', hm, e, x, he, hn, hx, hk, ho⟩
    · rcases hr.properties with hp | ⟨hp, hm, e, x, he, hn, hx, hk, ho⟩
      · exact .inl (hp'.trans hp)
      · obtain ⟨x', hx', hg⟩ := h'.expr e x hx
        exact .inr ⟨hp, hm, e, x', hp'.trans he, hn, hx', hg.kind.trans hk, hg.owner.trans ho⟩
    · have hn' := h.expr?_eq_none hn
      rcases hr.properties with hp | ⟨_, _, e', _, he', _⟩
      · exact .inr ⟨hp ▸ hp', hr.isManaged_eq ▸ hm, e, x, he, hn', hx, hk, ho⟩
      · rw [he'] at hp'
        cases hp'

theorem Resource.Filled.refl (t t' : Tree) (id : DeclId) (r : Resource) : r.Filled t t' id r :=
  ⟨rfl, rfl, rfl, .inl rfl, .inl rfl⟩

theorem DeclKind.Filled.of_resource {r : Resource} {k' : DeclKind}
    (hk : (DeclKind.resource r).Filled t t' id k') :
    ∃ r', k' = .resource r' ∧ r.Filled t t' id r' := by
  cases hk with
  | same => exact ⟨r, rfl, .refl t t' id r⟩
  | resource hr => exact ⟨_, rfl, hr⟩

theorem DeclKind.Filled.to_resource {r' : Resource} {k : DeclKind}
    (hk : k.Filled t t' id (.resource r')) : ∃ r, k = .resource r ∧ r.Filled t t' id r' := by
  cases hk with
  | same => exact ⟨r', rfl, .refl t t' id r'⟩
  | resource hr => exact ⟨_, rfl, hr⟩

theorem DeclKind.Filled.trans {k k' k'' : DeclKind} (hk : k.Filled t t' id k')
    (hk' : k'.Filled t' t'' id k'') (h : t.Grows t') (h' : t'.Grows t'') :
    k.Filled t t'' id k'' := by
  cases hk with
  | same =>
    cases hk' with
    | same => exact .same _
    | resource hr' => exact .resource ((Resource.Filled.refl t t' id _).trans hr' h h')
  | resource hr =>
    cases hk' with
    | same => exact .resource (hr.trans (Resource.Filled.refl t' t'' id _) h h')
    | resource hr' => exact .resource (hr.trans hr' h h')

theorem Declaration.Grows.trans {d d' d'' : Declaration} (hd : d.Grows t t' id d')
    (hd' : d'.Grows t' t'' id d'') (h : t.Grows t') (h' : t'.Grows t'') :
    d.Grows t t'' id d'' where
  name := hd'.name.trans hd.name
  fullName := hd'.fullName.trans hd.fullName
  parent := hd'.parent.trans hd.parent
  children := hd'.children.trans hd.children
  location := hd'.location.trans hd.location
  kind := hd.kind.trans hd'.kind h h'
  dependencies := hd.dependencies.trans hd'.dependencies
  missing := hd.missing.trans hd'.missing

namespace Tree.Grows

theorem trans (h : t.Grows t') (h' : t'.Grows t'') : t.Grows t'' where
  size := h'.size.trans h.size
  decl id d hd := by
    obtain ⟨d', hd', hg⟩ := h.decl id d hd
    obtain ⟨d'', hd'', hg'⟩ := h'.decl id d' hd'
    exact ⟨d'', hd'', hg.trans hg' h h'⟩
  expr id x hx := by
    obtain ⟨x', hx', hg⟩ := h.expr id x hx
    obtain ⟨x'', hx'', hg'⟩ := h'.expr id x' hx'
    exact ⟨x'', hx'', hg.trans hg'⟩
  fresh id x'' hn hx'' := by
    cases hx' : t'.expr? id with
    | none => exact h'.fresh id x'' hx' hx''
    | some x' =>
      obtain ⟨hk, ht, d', r', hd', hkind, hm, hp⟩ := h.fresh id x' hn hx'
      obtain ⟨y, hy, hg⟩ := h'.expr id x' hx'
      rw [hx'', Option.some_inj] at hy
      subst hy
      obtain ⟨d'', hd'', hgd⟩ := h'.decl x'.owner d' hd'
      refine ⟨hg.kind.trans hk, ?_, ?_⟩
      · rcases hg.target with ht' | ⟨_, hr⟩
        · exact ht'.trans ht
        · simp [hk, ExprKind.reference?] at hr
      · have hfill := hgd.kind
        rw [hkind] at hfill
        rw [hg.owner]
        generalize hk'' : d''.kind = k'' at hfill
        cases hfill with
        | same => exact ⟨d'', r', hd'', hk'', hm, hp⟩
        | @resource _ r'' hr =>
          refine ⟨d'', r'', hd'', hk'', hr.isManaged_eq ▸ hm, ?_⟩
          rcases hr.properties with he | ⟨he, _⟩
          · exact he.trans hp
          · simp [hp] at he

variable (h : t.Grows t')

include h

theorem childrenOf_eq (id : DeclId) : t'.childrenOf id = t.childrenOf id := by
  unfold childrenOf
  rcases h.decl?_cases id with ⟨hd, hd'⟩ | ⟨d, d', hd, hd', hg⟩
  · rw [hd, hd']
  · simp [hd, hd', hg.children]

theorem walk_eq : t'.walk = t.walk := walk_congr h.declIds_eq h.childrenOf_eq

theorem declLocation_eq (id : DeclId) :
    (t'.decl? id).bind Declaration.location = (t.decl? id).bind Declaration.location := by
  rcases h.decl?_cases id with ⟨hd, hd'⟩ | ⟨d, d', hd, hd', hg⟩
  · rw [hd, hd']
  · simp [hd, hd', hg.location]

variable {e : ExprId} (he : (t.expr? e).isSome)

include he

theorem partsOf_eq : t'.partsOf e = t.partsOf e := by
  obtain ⟨x, x', hx, hx', hg⟩ := h.exists_expr he
  simp [partsOf, hx, hx', hg.kind]

theorem locationOf_eq : t'.locationOf e = t.locationOf e := by
  obtain ⟨x, x', hx, hx', hg⟩ := h.exists_expr he
  simp [locationOf, hx, hx', hg.location, hg.owner, h.declLocation_eq]

theorem fieldsOf_eq : t'.fieldsOf e = t.fieldsOf e := by
  obtain ⟨x, x', hx, hx', hg⟩ := h.exists_expr he
  simp [fieldsOf, hx, hx', hg.kind]

end Tree.Grows

namespace Tree

theorem grows_modifyDecl {f : Declaration → Declaration}
    (hf : ∀ d, t.decl? id = some d → d.Grows t (t.modifyDecl id f) id (f d)) :
    t.Grows (t.modifyDecl id f) where
  size := by simp [modifyDecl]
  decl a d hd := by
    rw [decl?_modifyDecl]
    split
    next ha =>
      subst ha
      exact ⟨f d, by rw [hd]; rfl, hf d hd⟩
    next => exact ⟨d, hd, .refl _ _ a d⟩
  expr e x hx := ⟨x, hx, .refl x⟩
  fresh e x hn hx := by simp [hn] at hx

theorem grows_setTarget {e : ExprId} {x : Expression} (hx : t.expr? e = some x)
    (hn : x.target = none) (hr : x.kind.reference?.isSome) (target : DeclId) :
    t.Grows (t.modifyExpr e ({ · with target := some target })) where
  size := rfl
  decl a d hd := ⟨d, hd, .refl _ _ a d⟩
  expr e' x' hx' := by
    rw [expr?_modifyExpr]
    split
    next he =>
      subst he
      cases hx.symm.trans hx'
      exact ⟨{ x with target := some target }, by rw [hx]; rfl, rfl, rfl, rfl, .inr ⟨hn, hr⟩⟩
    next => exact ⟨x', hx', .refl x'⟩
  fresh e' x' hn' hx' := by
    rw [expr?_modifyExpr, hn'] at hx'
    split at hx' <;> cases hx'

/-- Every expression that a declaration or an expression names is there. -/
structure Closed (t : Tree) : Prop where
  roots : ∀ id d, t.decl? id = some d → ∀ e ∈ d.kind.roots, (t.expr? e).isSome
  parts : ∀ id x, t.expr? id = some x → ∀ e ∈ x.kind.children, (t.expr? e).isSome

theorem Closed.partsOf {e : ExprId} (hc : t.Closed) (he : (t.expr? e).isSome) :
    ∀ p ∈ t.partsOf e, (t.expr? p).isSome := by
  obtain ⟨x, hx⟩ := Option.isSome_iff_exists.mp he
  simpa [Tree.partsOf, hx] using hc.parts e x hx

theorem Closed.grows (hc : t.Closed) (h : t.Grows t') : t'.Closed := by
  constructor
  · intro id d' hd' e he
    obtain ⟨d, hd, hg⟩ := h.exists_decl hd'
    rcases hg.kind.mem_roots he with he | ⟨_, x, hx, _⟩
    · exact h.isSome_expr? (hc.roots id d hd e he)
    · simp [hx]
  · intro id x' hx' e he
    cases hx : t.expr? id with
    | none =>
      obtain ⟨hk, _⟩ := h.fresh id x' hx hx'
      simp [hk, ExprKind.children, Registry.values] at he
    | some x => exact h.isSome_expr? (hc.parts id x hx e (h.kind_eq hx hx' ▸ he))

theorem Grows.descendants_eq (h : t.Grows t') (hc : t.Closed) {e : ExprId}
    (he : (t.expr? e).isSome) : t'.descendants e = t.descendants e :=
  descendants_congr he (fun _ hx ↦ h.partsOf_eq hx) (fun _ hx ↦ hc.partsOf hx)
    fun _ hx ↦ ⟨fun _ ↦ hx, fun _ ↦ h.isSome_expr? hx⟩

end Tree

end InfraModule
