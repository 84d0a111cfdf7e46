import InfraModule.Proofs.Conformance
import InfraModule.Resource.Review

namespace InfraModule

theorem DeclKind.resource?_eq_some {k : DeclKind} {r : Resource} :
    k.resource? = some r ↔ k = .resource r := by
  cases k <;> simp [DeclKind.resource?]

structure Resource.Complete (r : Resource) : Prop where
  type : r.value.isSome → r.type.isSome
  properties : r.isManaged → r.properties.isSome

theorem Resource.Filled.eq_of_complete {t t' : Tree} {id : DeclId} {r r' : Resource}
    (h : r.Filled t t' id r') (hr : r.Complete) : r' = r := by
  have ht : r'.type = r.type := by
    rcases h.type with ht | ⟨ht, hv⟩
    · exact ht
    · simpa [ht] using hr.type hv
  have hp : r'.properties = r.properties := by
    rcases h.properties with hp | ⟨hp, hm, _⟩
    · exact hp
    · simpa [hp] using hr.properties hm
  obtain ⟨hv, hcond, hdep, _, _⟩ := h
  cases r
  cases r'
  simp_all

namespace Tree

variable {t t' : Tree} {id : DeclId}

def withExpression (t : Tree) (x : Expression) : Tree :=
  { t with expressions := t.expressions.push x }

@[simp]
theorem decl?_withExpression (t : Tree) (x : Expression) (id : DeclId) :
    (t.withExpression x).decl? id = t.decl? id := rfl

theorem expr?_withExpression (t : Tree) (x : Expression) (e : ExprId) :
    (t.withExpression x).expr? e = if e = ⟨t.expressions.size⟩ then some x else t.expr? e := by
  obtain ⟨i⟩ := e
  simp only [withExpression, expr?, Array.getElem?_push, ExprId.mk.injEq]

theorem expr?_size (t : Tree) : t.expr? ⟨t.expressions.size⟩ = none := by simp [expr?]

theorem addOwnedExpression_leaf (t : Tree) (owner : DeclId) (kind : ExprKind)
    (location : Option Location) (h : kind.children = []) :
    t.addOwnedExpression owner kind location =
      (⟨t.expressions.size⟩, t.withExpression ⟨owner, location, none, kind⟩) := by
  let x : Expression := ⟨root, location, none, kind⟩
  have hx : (t.withExpression x).expr? ⟨t.expressions.size⟩ = some x := by
    simp [expr?_withExpression]
  have hlen : (t.withExpression x).exprIds.length = t.expressions.size + 1 := by
    simp [exprIds, withExpression]
  have hparts : (t.withExpression x).partsOf ⟨t.expressions.size⟩ = [] := by
    simp [partsOf, hx, x, h]
  have hmem : (⟨t.expressions.size⟩ : ExprId) ∈ (t.withExpression x).exprIds := by
    simp [mem_exprIds, hx]
  have hdesc : (t.withExpression x).descendants ⟨t.expressions.size⟩ =
      [⟨t.expressions.size⟩] := by
    rw [descendants, Graph.preorder, hlen, Graph.preorderFrom_visit hmem, hparts]
    simp
  change (_, (t.withExpression x).adopt owner ⟨t.expressions.size⟩) = _
  rw [adopt, hdesc, Prod.mk.injEq]
  refine ⟨rfl, ext_lookup (fun _ ↦ rfl) fun e ↦ ?_⟩
  rw [List.foldl_cons, List.foldl_nil, expr?_modifyExpr, expr?_withExpression,
    expr?_withExpression]
  split <;> rfl

def CompleteAt (t : Tree) (id : DeclId) : Prop :=
  ∀ d r, t.decl? id = some d → d.kind = .resource r → r.Complete

def setResource (t : Tree) (id : DeclId) (r : Resource) : Tree :=
  t.modifyDecl id fun d ↦ { d with kind := .resource r }

@[simp]
theorem expr?_setResource (t : Tree) (id : DeclId) (r : Resource) (e : ExprId) :
    (t.setResource id r).expr? e = t.expr? e := rfl

theorem decl?_setResource (t : Tree) (id : DeclId) (r : Resource) (id' : DeclId) :
    (t.setResource id r).decl? id' =
      if id' = id then (t.decl? id').map fun d ↦ { d with kind := .resource r }
      else t.decl? id' := decl?_modifyDecl t id _ id'

theorem modifyDecl_mapResource {d : Declaration} {r : Resource} (hd : t.decl? id = some d)
    (hk : d.kind = .resource r) (f : Resource → Resource) :
    (t.modifyDecl id fun d ↦ { d with kind := d.kind.mapResource f }) =
      t.setResource id (f r) := by
  refine ext_lookup (fun id' ↦ ?_) fun _ ↦ rfl
  rw [decl?_modifyDecl, decl?_setResource]
  split
  next h => simp [h, hd, hk, DeclKind.mapResource]
  next => rfl

/-- What is filled in at one declaration. In a tree that is not closed the value of a resource may
be missing, and then there is nothing to tell its type from. -/
theorem completeResource_cases (t : Tree) (id : DeclId) :
    (t.Closed → t.CompleteAt id) ∧ t.completeResource id = t ∨
    (∃ d r value x, t.decl? id = some d ∧ d.kind = .resource r ∧ r.value = some value ∧
      r.type = none ∧ t.expr? value = some x ∧
      t.completeResource id = t.setResource id { r with type := some (Resource.valueType x) }) ∨
    ∃ d r type, t.decl? id = some d ∧ d.kind = .resource r ∧ r.value = none ∧
      r.type = some type ∧ r.properties = none ∧ t.completeResource id =
        (t.withExpression ⟨id, d.location, none, .object .empty⟩).setResource id
          { r with properties := some ⟨t.expressions.size⟩ } := by
  unfold completeResource CompleteAt
  cases hd : t.decl? id with
  | none => exact .inl ⟨by simp, rfl⟩
  | some d =>
    cases hk : d.kind.resource? with
    | none =>
      refine .inl ⟨fun _ d' r hd' hr ↦ ?_, by simp [hk]⟩
      rw [Option.some_inj] at hd'
      subst hd'
      simp [hr, DeclKind.resource?] at hk
    | some r =>
      have hkind := DeclKind.resource?_eq_some.mp hk
      have hall {P : Resource → Prop} (hP : P r) :
          ∀ d' r', some d = some d' → d'.kind = .resource r' → P r' := by
        intro d' r' hd' hr'
        rw [Option.some_inj] at hd'
        subst hd'
        rw [hkind, DeclKind.resource.injEq] at hr'
        exact hr' ▸ hP
      simp only [hk]
      cases hv : r.value with
      | some value =>
        cases ht : r.type with
        | none =>
          cases hx : t.expr? value with
          | none =>
            refine .inl ⟨fun hc ↦ ?_, by simp only [hx, Option.elim_none]⟩
            have hsome := hc.roots id d hd value (by simp [hkind, DeclKind.roots, hv])
            simp [hx] at hsome
          | some x =>
            refine .inr (.inl ⟨d, r, value, x, rfl, hkind, hv, ht, hx, ?_⟩)
            simp only [hx, Option.elim_some]
            exact modifyDecl_mapResource hd hkind _
        | some type =>
          exact .inl ⟨fun _ ↦ hall ⟨by simp [ht], by simp [Resource.isManaged, hv]⟩, rfl⟩
      | none =>
        cases ht : r.type with
        | none =>
          exact .inl ⟨fun _ ↦ hall ⟨by simp [hv], by simp [Resource.isManaged, ht]⟩, rfl⟩
        | some type =>
          cases hp : r.properties with
          | none =>
            refine .inr (.inr ⟨d, r, type, rfl, hkind, hv, ht, hp, ?_⟩)
            simp only [addOwnedExpression_leaf t id (ExprKind.object .empty) d.location rfl]
            exact modifyDecl_mapResource (t := t.withExpression _) hd hkind _
          | some e => exact .inl ⟨fun _ ↦ hall ⟨by simp [ht], by simp [hp]⟩, rfl⟩

theorem grows_setType {d : Declaration} {r : Resource} (hd : t.decl? id = some d)
    (hk : d.kind = .resource r) (hv : r.value.isSome) (ht : r.type = none) (type : String) :
    t.Grows (t.setResource id ⟨some type, r.value, r.condition, r.properties, r.dependsOn⟩) := by
  refine grows_modifyDecl fun d' hd' ↦ ?_
  cases hd.symm.trans hd'
  refine ⟨rfl, rfl, rfl, rfl, rfl, ?_, List.prefix_refl _, List.prefix_refl _⟩
  rw [hk]
  exact .resource ⟨rfl, rfl, rfl, .inr ⟨ht, hv⟩, .inl rfl⟩

theorem grows_setProperties {d : Declaration} {r : Resource} (hd : t.decl? id = some d)
    (hk : d.kind = .resource r) (hm : r.isManaged) (hp : r.properties = none)
    (location : Option Location) :
    t.Grows ((t.withExpression ⟨id, location, none, .object .empty⟩).setResource id
      ⟨r.type, r.value, r.condition, some ⟨t.expressions.size⟩, r.dependsOn⟩) where
  size := by simp [setResource, modifyDecl, withExpression]
  decl id' d' hd' := by
    rw [decl?_setResource, decl?_withExpression]
    split
    next h =>
      subst h
      rw [hd, Option.some_inj] at hd'
      subst hd'
      refine ⟨{ d with kind := .resource _ }, by rw [hd]; rfl, rfl, rfl, rfl, rfl, rfl, ?_,
        List.prefix_refl _, List.prefix_refl _⟩
      rw [hk]
      refine .resource ⟨rfl, rfl, rfl, .inl rfl, .inr ⟨hp, hm, ⟨t.expressions.size⟩,
        ⟨id', location, none, .object .empty⟩, rfl, t.expr?_size, ?_, rfl, rfl⟩⟩
      rw [expr?_setResource, expr?_withExpression, if_pos rfl]
    next => exact ⟨d', hd', .refl _ _ id' d'⟩
  expr e x hx := by
    refine ⟨x, ?_, .refl x⟩
    rw [expr?_setResource, expr?_withExpression, if_neg, hx]
    rintro rfl
    simp [expr?_size] at hx
  fresh e x hn hx := by
    rw [expr?_setResource, expr?_withExpression] at hx
    split at hx
    next h =>
      rw [Option.some_inj] at hx
      subst h hx
      refine ⟨rfl, rfl, { d with kind := .resource _ },
        ⟨r.type, r.value, r.condition, some ⟨t.expressions.size⟩, r.dependsOn⟩, ?_, rfl, hm, rfl⟩
      simp [decl?_setResource, hd]
    next => simp [hn] at hx

theorem grows_completeResource (t : Tree) (id : DeclId) : t.Grows (t.completeResource id) := by
  rcases t.completeResource_cases id with ⟨_, he⟩ | ⟨d, r, value, x, hd, hk, hv, ht, hx, he⟩ |
    ⟨d, r, type, hd, hk, hv, ht, hp, he⟩
  · rw [he]
    exact .refl t
  · rw [he]
    exact grows_setType hd hk (by simp [hv]) ht _
  · rw [he]
    exact grows_setProperties hd hk (by simp [Resource.isManaged, hv, ht]) hp _

structure Keeps (t t' : Tree) : Prop where
  expr : ∀ e x, t.expr? e = some x → t'.expr? e = some x
  dependencies : ∀ a d d', t.decl? a = some d → t'.decl? a = some d' →
    d'.dependencies = d.dependencies
  missing : ∀ a d d', t.decl? a = some d → t'.decl? a = some d' → d'.missing = d.missing

theorem Keeps.refl (t : Tree) : t.Keeps t where
  expr _ _ hx := hx
  dependencies _ _ _ hd hd' := by rw [Option.some_inj.mp (hd.symm.trans hd')]
  missing _ _ _ hd hd' := by rw [Option.some_inj.mp (hd.symm.trans hd')]

theorem Keeps.trans {t'' : Tree} (h : t.Keeps t') (hg : t.Grows t') (h' : t'.Keeps t'') :
    t.Keeps t'' where
  expr e x hx := h'.expr e x (h.expr e x hx)
  dependencies a d d'' hd hd'' := by
    obtain ⟨d', hd', -⟩ := hg.decl a d hd
    rw [h'.dependencies a d' d'' hd' hd'', h.dependencies a d d' hd hd']
  missing a d d'' hd hd'' := by
    obtain ⟨d', hd', -⟩ := hg.decl a d hd
    rw [h'.missing a d' d'' hd' hd'', h.missing a d d' hd hd']

theorem keeps_setResource (t : Tree) (id : DeclId) (r : Resource) :
    t.Keeps (t.setResource id r) where
  expr _ _ hx := hx
  dependencies a d d' hd hd' := by
    rw [decl?_setResource, hd] at hd'
    split at hd' <;> cases hd' <;> rfl
  missing a d d' hd hd' := by
    rw [decl?_setResource, hd] at hd'
    split at hd' <;> cases hd' <;> rfl

theorem keeps_withExpression (t : Tree) (x : Expression) : t.Keeps (t.withExpression x) where
  expr e y hy := by
    rw [expr?_withExpression, if_neg, hy]
    rintro rfl
    simp [expr?_size] at hy
  dependencies := (Keeps.refl t).dependencies
  missing := (Keeps.refl t).missing

theorem keeps_completeResource (t : Tree) (id : DeclId) : t.Keeps (t.completeResource id) := by
  rcases t.completeResource_cases id with ⟨_, he⟩ | ⟨d, r, value, x, -, -, -, -, -, he⟩ |
    ⟨d, r, type, -, -, -, -, -, he⟩
  · rw [he]
    exact .refl t
  · rw [he]
    exact keeps_setResource t id _
  · rw [he]
    have h := keeps_setResource (t.withExpression ⟨id, d.location, none, .object .empty⟩) id
      { r with properties := some ⟨t.expressions.size⟩ }
    exact ⟨fun e y hy ↦ h.expr e y ((keeps_withExpression t _).expr e y hy), h.dependencies,
      h.missing⟩

theorem completeAt_completeResource (hc : t.Closed) (id : DeclId) :
    (t.completeResource id).CompleteAt id := by
  rcases t.completeResource_cases id with ⟨hcomplete, he⟩ |
    ⟨d, r, value, x, hd, hk, hv, ht, hx, he⟩ | ⟨d, r, type, hd, hk, hv, ht, hp, he⟩
  · rw [he]
    exact hcomplete hc
  · intro d' r' hd' hk'
    rw [he, decl?_setResource, if_pos rfl, hd, Option.map_some, Option.some_inj] at hd'
    subst hd'
    cases hk'
    exact ⟨by simp, by simp [Resource.isManaged, hv]⟩
  · intro d' r' hd' hk'
    rw [he, decl?_setResource, if_pos rfl, decl?_withExpression, hd, Option.map_some,
      Option.some_inj] at hd'
    subst hd'
    cases hk'
    exact ⟨by simp [ht], by simp⟩

theorem CompleteAt.kind_eq (hcomplete : t.CompleteAt id) {d d' : Declaration}
    (hd : t.decl? id = some d) (hg : d.Grows t t' id d') : d'.kind = d.kind := by
  have hfill := hg.kind
  generalize hk : d.kind = k at hfill
  generalize hk' : d'.kind = k' at hfill
  cases hfill with
  | same => rfl
  | resource hr => rw [hr.eq_of_complete (hcomplete d _ hd hk)]

theorem CompleteAt.grows (hcomplete : t.CompleteAt id) (h : t.Grows t') : t'.CompleteAt id := by
  intro d' r hd' hk'
  obtain ⟨d, hd, hg⟩ := h.exists_decl hd'
  exact hcomplete d r hd (hcomplete.kind_eq hd hg ▸ hk')

theorem completeResource_of_complete (hcomplete : t.CompleteAt id) :
    t.completeResource id = t := by
  rcases t.completeResource_cases id with ⟨_, he⟩ | ⟨d, r, value, x, hd, hk, hv, ht, hx, he⟩ |
    ⟨d, r, type, hd, hk, hv, ht, hp, he⟩
  · exact he
  · have h := (hcomplete d r hd hk).type (by simp [hv])
    simp [ht] at h
  · have h := (hcomplete d r hd hk).properties (by simp [Resource.isManaged, hv, ht])
    simp [hp] at h

end Tree

namespace Resource

variable {t t' : Tree} {ctx : Context}

theorem checkArn_grows (h : t.Grows t') {e : ExprId} (he : (t.expr? e).isSome) :
    checkArn t' e = checkArn t e := by
  obtain ⟨x, x', hx, hx', hg⟩ := h.exists_expr he
  simp only [checkArn, hx, hx', hg.kind, h.locationOf_eq he]

theorem checkValue_grows (h : t.Grows t') (hc : t.Closed) {e : ExprId} (he : (t.expr? e).isSome) :
    checkValue t' e = checkValue t e := by
  obtain ⟨x, x', hx, hx', hg⟩ := h.exists_expr he
  simp only [checkValue, hx, hx', hg.kind]
  split
  next items hk =>
    refine Findings.each_congr fun item hitem ↦ checkArn_grows h (hc.parts e x hx item ?_)
    simpa [hk, ExprKind.children] using hitem
  next => exact checkArn_grows h he

theorem checkDeclared_grows (h : t.Grows t') (hc : t.Closed) (type : String)
    (declared : List String) {object : ExprId} (ho : (t.expr? object).isSome) :
    checkDeclared t' type declared object = checkDeclared t type declared object := by
  unfold checkDeclared
  rw [h.fieldsOf_eq ho]
  split <;> try rfl
  next fields hfields =>
    congr 1
    refine List.map_congr_left fun field hfield ↦ ?_
    rw [h.locationOf_eq (isSome_of_mem_fields hc hfields (List.mem_of_mem_filter hfield))]

theorem depthBound_le (h : t.Grows t') (s : Provider.Specification) :
    depthBound s t ≤ depthBound s t' := by
  unfold depthBound
  have hm := Nat.mul_le_mul_right (s.propertyTypes.size + 1) h.expressions_size_le
  omega

theorem checkManaged_grows (h : t.Grows t') (hc : t.Closed) {location : Option Location}
    {type : String} {object : ExprId} (ho : (t.expr? object).isSome)
    (hf : (checkManaged ctx t location type object).fault = none) :
    checkManaged ctx t' location type object = checkManaged ctx t location type object := by
  unfold checkManaged at hf ⊢
  cases hshape : ctx.directory.resolve? type with
  | some shape =>
    simp only [hshape, checkObject] at hf ⊢
    rw [checkWithin_grows h hc ho, checkWithin_eq_of_le (depthBound_le h _) hf]
  | none =>
    cases hid : ctx.symbols.get? type with
    | none => rfl
    | some id =>
      rcases h.decl?_cases id with ⟨hd, hd'⟩ | ⟨d, d', hd, hd', hg⟩
      · simp only [hd, hd']
      · have hfill := hg.kind
        simp only [hd, hd']
        generalize d.kind = k at hfill
        generalize d'.kind = k' at hfill
        cases hfill with
        | same =>
          split <;> try rfl
          next declared _ => exact checkDeclared_grows h hc type declared ho
        | resource => rfl

theorem review_grows (h : t.Grows t') (hc : t.Closed) {location : Option Location} {r : Resource}
    (hr : ∀ e ∈ (DeclKind.resource r).roots, (t.expr? e).isSome)
    (hf : (r.review ctx t location).fault = none) :
    r.review ctx t' location = r.review ctx t location := by
  unfold review at hf ⊢
  split <;> try rfl
  next value hv =>
    rw [checkValue_grows h hc (hr value (by simp [DeclKind.roots, hv]))]
  next type object hv ht hp =>
    simp only [hv, ht, hp] at hf
    split <;> try rfl
    next hcheck =>
      rw [if_pos hcheck] at hf
      exact checkManaged_grows h hc (hr object (by simp [DeclKind.roots, hp])) hf

end Resource

end InfraModule
