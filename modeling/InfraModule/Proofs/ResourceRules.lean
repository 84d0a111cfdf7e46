import InfraModule.Proofs.Legality
import InfraModule.Proofs.ReviewRun

namespace InfraModule

open Provider Vocabulary Relation

namespace Resource

variable {t t' : Tree} {r r' : Resource} {ctx : Context}

/-- What can stand where an ARN is expected: what looks like one, the wildcard, and what is known
at deployment time alone. -/
def ArnLike : ExprKind → Prop
  | .literal text => text = arnWildcard ∨ Arn.isArn text
  | .reference _ | .getAttribute _ _ | .findInMap _ _ _ => True
  | .list _ | .object _ | .conditionReference _ => False

def ArnValue (t : Tree) (value : ExprId) : Prop :=
  ∃ x, t.expr? value = some x ∧
    match x.kind with
    | .list items => ∀ item ∈ items, ∃ y, t.expr? item = some y ∧ ArnLike y.kind
    | kind => ArnLike kind

def Described (t : Tree) (r : Resource) : Prop :=
  match r.value with
  | some value => r.condition = none ∧ r.properties = none ∧ ArnValue t value
  | none => r.type.isSome

def keys (t : Tree) (properties : Option ExprId) : List String :=
  (properties.bind t.fieldsOf).elim [] Registry.names

def PropertiesConform (s : Specification) (t : Tree) (properties : Option ExprId)
    (c : Container) : Prop :=
  match properties with
  | some object => Conforms s t object c
  | none => c.required = []

def DeclaredIn (t : Tree) (type : String) (properties : Option ExprId) : Prop :=
  ∃ id d handler declared attributes, t.firstNamed type = some id ∧ t.decl? id = some d ∧
    d.kind = .resourceType handler declared attributes ∧
    ∀ key ∈ keys t properties, key ∈ declared

/-- A type is known and asks for these properties. What the specification says of a type comes
before what the module says of it. -/
inductive WellTyped (t : Tree) (directory : Directory) (type : String)
    (properties : Option ExprId) : Prop
  | custom : directory.isCustom type → WellTyped t directory type properties
  | specified (spec : ResourceType) : directory.specification.resourceTypes.get? type = some spec →
      PropertiesConform directory.specification t properties ⟨type, type, some spec.properties⟩ →
      WellTyped t directory type properties
  | declared : directory.specification.resourceTypes.get? type = none →
      DeclaredIn t type properties → WellTyped t directory type properties

def TypedSomewhere (t : Tree) (directory : Directory) (type : String)
    (properties : Option ExprId) : Prop :=
  directory.isCustom type ∨
    (∃ spec, directory.specification.resourceTypes.get? type = some spec ∧
      PropertiesConform directory.specification t properties
        ⟨type, type, some spec.properties⟩) ∨
    DeclaredIn t type properties

section WellTyped

variable {directory : Directory} {type : String} {properties : Option ExprId}

theorem wellTyped_of_specified {spec : ResourceType} (hcustom : ¬ directory.isCustom type)
    (hspec : directory.specification.resourceTypes.get? type = some spec) :
    WellTyped t directory type properties ↔ PropertiesConform directory.specification t properties
      ⟨type, type, some spec.properties⟩ := by
  refine ⟨fun h ↦ ?_, .specified spec hspec⟩
  cases h with
  | custom h => exact absurd h hcustom
  | specified spec' hspec' h =>
    cases hspec.symm.trans hspec'
    exact h
  | declared hn => simp [hspec] at hn

theorem wellTyped_of_unspecified (hcustom : ¬ directory.isCustom type)
    (hspec : directory.specification.resourceTypes.get? type = none) :
    WellTyped t directory type properties ↔ DeclaredIn t type properties := by
  refine ⟨fun h ↦ ?_, .declared hspec⟩
  cases h with
  | custom h => exact absurd h hcustom
  | specified _ hspec' => simp [hspec] at hspec'
  | declared _ h => exact h

theorem declaredIn_iff {id : DeclId} {d : Declaration} (hn : t.firstNamed type = some id)
    (hd : t.decl? id = some d) : DeclaredIn t type properties ↔ ∃ handler declared attributes,
      d.kind = .resourceType handler declared attributes ∧
        ∀ key ∈ keys t properties, key ∈ declared := by
  constructor
  · rintro ⟨id', d', handler, declared, attributes, hn', hd', hk⟩
    cases hn.symm.trans hn'
    cases hd.symm.trans hd'
    exact ⟨handler, declared, attributes, hk⟩
  · rintro ⟨handler, declared, attributes, hk⟩
    exact ⟨id, d, handler, declared, attributes, hn, hd, hk⟩

end WellTyped

theorem mayBeArn_iff (k : ExprKind) : mayBeArn k = true ↔ ArnLike k := by
  cases k <;> simp [mayBeArn, ArnLike, Arn.isArnOrWildcard]

theorem log_checkArn_eq_nil {e : ExprId} (hf : (checkArn t e).fault = none) :
    (checkArn t e).log = [] ↔ ∃ x, t.expr? e = some x ∧ ArnLike x.kind := by
  unfold checkArn at hf ⊢
  cases hx : t.expr? e with
  | none => simp [hx, Findings.halted] at hf
  | some x =>
    simp only [Option.some.injEq, exists_eq_left', ← mayBeArn_iff]
    split <;> simp_all [Findings.clean, Findings.problem]

theorem log_checkValue_eq_nil {e : ExprId} (hf : (checkValue t e).fault = none) :
    (checkValue t e).log = [] ↔ ArnValue t e := by
  unfold checkValue at hf ⊢
  unfold ArnValue
  cases hx : t.expr? e with
  | none => simp [hx, Findings.halted] at hf
  | some x =>
    simp only [hx, Option.some.injEq, exists_eq_left'] at hf ⊢
    cases hk : x.kind with
    | list items =>
      simp only [hk] at hf ⊢
      rw [Findings.log_each_eq_nil hf]
      exact forall₂_congr fun item hitem ↦
        log_checkArn_eq_nil (Findings.fault_each.mp hf item hitem)
    | _ =>
      simp only [hk] at hf ⊢
      rw [log_checkArn_eq_nil hf]
      simp [hx, hk]

theorem log_checkConflicts_eq_nil {location : Option Location} :
    (checkConflicts location r).log = [] ↔ r.condition = none ∧ r.properties = none := by
  cases hc : r.condition <;> cases hp : r.properties <;> simp [checkConflicts, hc, hp]

theorem conforms_wildcard (s : Specification) (object : ExprId) (name scope : String) :
    Conforms s t object ⟨name, scope, none⟩ := by
  rw [conforms_iff]
  refine ⟨fun fields _ ↦ ⟨fun key _ ↦ ⟨_, rfl⟩, by simp [Container.required]⟩, ?_⟩
  rintro item type ⟨-, -, hp, -, hn⟩
  have hitem := item_of_nested hp hn
  cases hp
  cases hitem

theorem conforms_of_empty {s : Specification} {object : ExprId} {c : Container}
    (ho : t.fieldsOf object = some .empty) : Conforms s t object c ↔ c.required = [] := by
  rw [conforms_iff]
  constructor
  · intro h
    exact List.eq_nil_iff_forall_not_mem.mpr fun name hname ↦ by
      simpa [Registry.names] using (h.1 _ ho).2 name hname
  · intro hreq
    refine ⟨fun fields hf ↦ ?_, ?_⟩
    · cases ho.symm.trans hf
      simp [Registry.names, hreq]
    · rintro item type ⟨hf, hfield, -⟩
      cases ho.symm.trans hf
      cases hfield

/-- How the properties of a managed resource were completed. -/
inductive Completed (t t' : Tree) (object : ExprId) : Option ExprId → Prop
  | given : (t.expr? object).isSome → Completed t t' object (some object)
  | left_out : t'.fieldsOf object = some .empty → Completed t t' object none

variable {object : ExprId} {properties : Option ExprId}

theorem Completed.keys_eq (hp : Completed t t' object properties) (h : t.Grows t') :
    keys t' (some object) = keys t properties := by
  cases hp with
  | given ho => simp only [keys, Option.bind_some, h.fieldsOf_eq ho]
  | left_out ho => simp [keys, ho, Registry.names]

theorem Completed.conform_iff {s : Specification} {c : Container}
    (hp : Completed t t' object properties) (h : t.Grows t') (hc : t.Closed)
    (hf : (checkObject s t' object c).fault = none) :
    (checkObject s t' object c).log = [] ↔ PropertiesConform s t properties c := by
  unfold checkObject at hf ⊢
  cases hp with
  | given ho =>
    rw [checkWithin_grows h hc ho] at hf ⊢
    exact log_checkWithin_eq_nil hf
  | left_out ho =>
    rw [log_checkWithin_eq_nil hf]
    exact conforms_of_empty ho

theorem log_checkDeclared_eq_nil {type : String} {declared : List String} :
    (checkDeclared t type declared object).log = [] ↔
      ∀ key ∈ keys t (some object), key ∈ declared := by
  unfold checkDeclared keys
  cases hf : t.fieldsOf object <;> simp [hf, Findings.clean, Registry.names]

section Managed

variable (hp : Completed t t' object properties) (h : t.Grows t') (hc : t.Closed)
  (hidx : ctx.Indexes t) {location : Option Location} {type : String}

include hp h hc hidx

theorem log_checkManaged_eq_nil (hf : (checkManaged ctx t' location type object).fault = none) :
    (checkManaged ctx t' location type object).log = [] ↔
      WellTyped t ctx.directory type properties := by
  unfold checkManaged Directory.resolve? at hf ⊢
  by_cases hcustom : ctx.directory.isCustom type
  · simp only [hcustom, if_true] at hf ⊢
    exact iff_of_true ((log_checkWithin_eq_nil hf).mpr (conforms_wildcard _ _ _ _))
      (.custom hcustom)
  simp only [hcustom, Bool.false_eq_true, if_false] at hf ⊢
  cases hspec : ctx.directory.specification.resourceTypes.get? type with
  | some spec =>
    simp only [hspec, Option.map_some] at hf ⊢
    rw [hp.conform_iff h hc hf, wellTyped_of_specified hcustom hspec]
    rfl
  | none =>
    simp only [hspec, Option.map_none, hidx type] at hf ⊢
    rw [wellTyped_of_unspecified hcustom hspec]
    cases hn : t.firstNamed type with
    | none => simp [DeclaredIn, hn, Findings.problem]
    | some id =>
      obtain ⟨d, hd, -⟩ := Tree.exists_decl_of_firstNamed hn
      obtain ⟨d', hd', hg⟩ := h.decl id d hd
      rw [declaredIn_iff hn hd]
      simp only [hd', ← hg.kind.resourceType_iff]
      split
      next handler declared attributes hk =>
        rw [log_checkDeclared_eq_nil, hp.keys_eq h]
        refine ⟨fun hkeys ↦ ⟨handler, declared, attributes, hk, hkeys⟩, ?_⟩
        rintro ⟨_, _, _, hk', hkeys⟩
        cases hk.symm.trans hk'
        exact hkeys
      next hno =>
        refine iff_of_false (by simp [Findings.problem]) ?_
        rintro ⟨handler, declared, attributes, hk, -⟩
        exact hno handler declared attributes hk

end Managed

theorem Filled.completed {id : DeclId} (hfill : r.Filled t t' id r') (hm : r.isManaged)
    (hcomplete : r'.Complete)
    (hroots : ∀ e ∈ (DeclKind.resource r).roots, (t.expr? e).isSome) :
    ∃ object, r'.properties = some object ∧ Completed t t' object r.properties := by
  rcases hfill.properties with hp | ⟨hp, -, object, x, hp', -, hx, hk, -⟩
  · obtain ⟨object, hobject⟩ := Option.isSome_iff_exists.mp
      (hcomplete.properties (hfill.isManaged_eq.trans hm))
    refine ⟨object, hobject, ?_⟩
    rw [← hp, hobject]
    exact .given (hroots object (by simp [DeclKind.roots, ← hp, hobject]))
  · refine ⟨object, hp', ?_⟩
    rw [hp]
    exact .left_out (by simp [Tree.fieldsOf, hx, hk, ExprKind.fields?])

/-- The review of a completed resource reports nothing exactly when the resource was described and
typed as it should be. -/
theorem log_review_eq_nil {id : DeclId} {location : Option Location} (h : t.Grows t')
    (hc : t.Closed) (hidx : ctx.Indexes t) (hfill : r.Filled t t' id r') (hcomplete : r'.Complete)
    (hroots : ∀ e ∈ (DeclKind.resource r).roots, (t.expr? e).isSome)
    (hf : (r'.review ctx t' location).fault = none) :
    (r'.review ctx t' location).log = [] ↔ Described t r ∧ (ctx.options.checkProperties →
      r.value = none → ∀ type, r.type = some type →
        WellTyped t ctx.directory type r.properties) := by
  unfold review at hf ⊢
  rw [hfill.value] at hf ⊢
  unfold Described
  cases hv : r.value with
  | some value =>
    have hp : r'.properties = r.properties := by
      rcases hfill.properties with hp | ⟨-, hm, -⟩
      · exact hp
      · simp [isManaged, hv] at hm
    have hvalue := hroots value (by simp [DeclKind.roots, hv])
    simp only [hv] at hf ⊢
    have hfault := (Findings.fault_andThen.mp hf).2
    rw [Findings.log_andThen rfl, List.append_eq_nil_iff, log_checkConflicts_eq_nil, hp,
      hfill.condition]
    rw [checkValue_grows h hc hvalue] at hfault ⊢
    rw [log_checkValue_eq_nil hfault, and_assoc]
    simp
  | none =>
    cases ht : r.type with
    | none =>
      have ht' : r'.type = none := by
        rcases hfill.type with hr | ⟨-, hs⟩
        · rw [hr, ht]
        · simp [hv] at hs
      simp [ht', Findings.problem]
    | some type =>
      have hm : r.isManaged := by simp [isManaged, hv, ht]
      have ht' := (hfill.type_of_isManaged hm).trans ht
      obtain ⟨object, hobject, hp⟩ := hfill.completed hm hcomplete hroots
      simp only [hv, ht', hobject] at hf ⊢
      by_cases hcheck : ctx.options.checkProperties
      · simp only [hcheck, if_true] at hf ⊢
        rw [log_checkManaged_eq_nil hp h hc hidx hf]
        simp
      · simp [hcheck, Findings.clean]

end Resource

namespace Tree

variable {t t' : Tree} {ctx : Context} {a : DeclId}

def ResourceInOrder (t : Tree) (ctx : Context) (a : DeclId) : Prop :=
  ∀ d r, t.decl? a = some d → d.kind = .resource r → r.Described t ∧
    (ctx.options.checkProperties → r.value = none → ∀ type, r.type = some type →
      Resource.WellTyped t ctx.directory type r.properties)

theorem log_reviewOf_eq_nil (h : t.Grows t') (hc : t.Closed) (hidx : ctx.Indexes t)
    (hcomplete : t'.CompleteAt a) (hf : (t'.reviewOf ctx a).fault = none) :
    (t'.reviewOf ctx a).log = [] ↔ t.ResourceInOrder ctx a := by
  unfold reviewOf at hf ⊢
  unfold ResourceInOrder
  cases hd' : t'.decl? a with
  | none => simp [hd', Findings.halted] at hf
  | some d' =>
    obtain ⟨d, hd, hg⟩ := h.exists_decl hd'
    simp only [hd', hd, Option.some.injEq] at hf ⊢
    cases hr : d'.kind.resource? with
    | none =>
      refine iff_of_true rfl fun _ r hdr hk ↦ ?_
      subst hdr
      obtain ⟨r', hk', -⟩ := (hk ▸ hg.kind).of_resource
      simp [hk', DeclKind.resource?] at hr
    | some r' =>
      have hk' := DeclKind.resource?_eq_some.mp hr
      obtain ⟨r, hk, hfill⟩ := (hk' ▸ hg.kind).to_resource
      simp only [hr] at hf ⊢
      rw [Resource.log_review_eq_nil h hc hidx hfill (hcomplete d' r' hd' hk')
        (hk ▸ hc.roots a d hd) hf]
      refine ⟨fun hrules _ r₂ hd₂ hk₂ ↦ ?_, fun hrules ↦ hrules d r rfl hk⟩
      subst hd₂
      cases hk.symm.trans hk₂
      exact hrules

end Tree

end InfraModule
