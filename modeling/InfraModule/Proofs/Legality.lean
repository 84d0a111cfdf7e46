import InfraModule.Binding.Rule
import InfraModule.Proofs.NameIndex

namespace InfraModule

open Provider Vocabulary

theorem Provider.ResourceShape.isSome_attribute? {spec : ResourceType} {type attr : String}
    {p : Option Property} (h : ResourceShape.attribute? ⟨type, some spec⟩ attr = .ok p) :
    p.isSome = spec.attributes.contains attr := by
  rw [Bool.eq_iff_iff, Registry.contains_iff]
  unfold ResourceShape.attribute? Property.find? at h
  simp only [Option.map_some] at h
  cases he : spec.attributes.get? attr with
  | none =>
    simp only [he, Except.ok.injEq] at h
    simp [← h]
  | some e =>
    simp only [he] at h
    cases hp : Property.describe attr type e with
    | error => simp [hp, Except.map] at h
    | ok q =>
      simp only [hp, Except.map, Except.ok.injEq] at h
      simp [← h]

namespace DeclKind

def isParameter : DeclKind → Bool
  | parameter .. | pseudoParameter .. => true
  | _ => false

def isValueless : DeclKind → Bool
  | condition .. | mapping .. | resourceType .. | group => true
  | _ => false

theorem hasValue_true (k : DeclKind) : k.hasValue true = k.isParameter := by cases k <;> rfl

theorem hasValue_false {k : DeclKind} (hk : k.isModuleRoot = false) :
    k.hasValue false = !k.isValueless := by
  cases k <;> first | rfl | cases hk

theorem Filled.hasValue_eq {t t' : Tree} {id : DeclId} {k k' : DeclKind}
    (h : k.Filled t t' id k') (inCondition : Bool) :
    k'.hasValue inCondition = k.hasValue inCondition := by cases h <;> rfl

theorem Filled.isModuleRoot_eq {t t' : Tree} {id : DeclId} {k k' : DeclKind}
    (h : k.Filled t t' id k') : k'.isModuleRoot = k.isModuleRoot := by cases h <;> rfl

theorem exists_stackType? {k : DeclKind} (hk : k.isProvisioned) :
    ∃ type, k.stackType? = some type := by
  cases k with
  | resource r =>
    obtain ⟨type, htype⟩ := Option.isSome_iff_exists.mp (Bool.and_eq_true_iff.mp hk).2
    have hmanaged : r.isManaged := hk
    exact ⟨type, by simp [stackType?, hmanaged, htype]⟩
  | function | nestedModule => exact ⟨_, rfl⟩
  | _ => cases hk

end DeclKind

namespace Tree

variable {t t' : Tree} {ctx : Context}

/-- Whether resources of a type have an attribute, as far as somebody knows the type: a custom type
has every attribute, the specification comes before the module, and of a type that neither knows
nothing is asked. -/
inductive HasAttribute (t : Tree) (directory : Directory) (type attr : String) : Prop
  | custom : directory.isCustom type → HasAttribute t directory type attr
  | specified (spec : ResourceType) : directory.specification.resourceTypes.get? type = some spec →
      spec.attributes.contains attr → HasAttribute t directory type attr
  | declared (id : DeclId) (d : Declaration) (handler : Option ExprId)
      (properties attributes : List String) :
      directory.specification.resourceTypes.get? type = none → t.firstNamed type = some id →
      t.decl? id = some d → d.kind = .resourceType handler properties attributes →
      attr ∈ attributes → HasAttribute t directory type attr
  | unknown : directory.specification.resourceTypes.get? type = none →
      (∀ id d, t.firstNamed type = some id → t.decl? id = some d →
        ∀ handler properties attributes, d.kind ≠ .resourceType handler properties attributes) →
      HasAttribute t directory type attr

def AttributeAllowed (t : Tree) (directory : Directory) (kind : DeclKind) (attr : String) : Prop :=
  kind.isNestedModule ∧ beginsWith attr nestedStackOutputPrefix ∨
    ∃ type, kind.stackType? = some type ∧ t.HasAttribute directory type attr

/-- The kinds of declarations that a reference may refer to. Conditions know the values of
parameters only. -/
def Legal (t : Tree) (directory : Directory) (options : Options) (inCondition : Bool) :
    Reference → DeclKind → Prop
  | .value _, kind => if inCondition then kind.isParameter else kind.isValueless = false
  | .attributeOf _ attr, kind => kind.isProvisioned ∧
      (options.checkAttributes → t.AttributeAllowed directory kind attr)
  | .condition _, kind => kind.isCondition
  | .mapping _, kind => kind.isMapping

theorem referent_ok {id : DeclId} {d : Declaration} (h : t.referent id = .ok d) :
    t.decl? id = some d ∧ d.kind.isModuleRoot = false := by
  unfold referent at h
  cases hd : t.decl? id with
  | none => simp [hd] at h
  | some d' =>
    simp only [hd] at h
    split at h
    next => cases h
    next hroot =>
      cases h
      exact ⟨rfl, by simpa using hroot⟩

theorem Legal.of_unchecked {directory directory' : Directory} {options : Options}
    {inCondition : Bool} {r : Reference} {kind : DeclKind}
    (h : t.Legal directory options inCondition r kind) (ho : options.checkAttributes = false) :
    t.Legal directory' options inCondition r kind := by
  cases r with
  | attributeOf => exact ⟨h.1, by simp [ho]⟩
  | value | condition | mapping => exact h

/-- A reference denotes the first declaration of its name, if that one is legal for it. -/
def Denotes (t : Tree) (directory : Directory) (options : Options) (inCondition : Bool)
    (r : Reference) (id : DeclId) : Prop :=
  t.firstNamed r.name = some id ∧
    ∃ d, t.decl? id = some d ∧ t.Legal directory options inCondition r d.kind

def DenotesInstance (t : Tree) (name : String) (id : DeclId) : Prop :=
  t.firstNamed name = some id ∧ ∃ d, t.decl? id = some d ∧ d.kind.isProvisioned

end Tree

namespace Context

variable {t t' : Tree} {ctx : Context}

def Indexes (ctx : Context) (t : Tree) : Prop := ∀ name, ctx.symbols.get? name = t.firstNamed name

theorem Indexes.grows (hs : ctx.Indexes t) (h : t.Grows t') : ctx.Indexes t' := fun name ↦
  (hs name).trans (h.firstNamed_eq name).symm

section HasAttribute

variable {directory : Directory} {type attr : String}

theorem hasAttribute_of_specified {spec : ResourceType} (hcustom : ¬ directory.isCustom type)
    (hspec : directory.specification.resourceTypes.get? type = some spec) :
    t.HasAttribute directory type attr ↔ spec.attributes.contains attr := by
  refine ⟨fun h ↦ ?_, .specified spec hspec⟩
  cases h with
  | custom h => exact absurd h hcustom
  | specified spec' hspec' h => rwa [Option.some.inj (hspec.symm.trans hspec')]
  | declared _ _ _ _ _ hn | unknown hn => simp [hspec] at hn

theorem hasAttribute_of_declared {id : DeclId} {d : Declaration} {handler : Option ExprId}
    {properties attributes : List String} (hcustom : ¬ directory.isCustom type)
    (hspec : directory.specification.resourceTypes.get? type = none)
    (hn : t.firstNamed type = some id) (hd : t.decl? id = some d)
    (hk : d.kind = .resourceType handler properties attributes) :
    t.HasAttribute directory type attr ↔ attr ∈ attributes := by
  refine ⟨fun h ↦ ?_, .declared id d handler properties attributes hspec hn hd hk⟩
  cases h with
  | custom h => exact absurd h hcustom
  | specified _ hspec' => simp [hspec] at hspec'
  | declared id' d' _ _ _ _ hn' hd' hk' h =>
    cases hn.symm.trans hn'
    cases hd.symm.trans hd'
    cases hk.symm.trans hk'
    exact h
  | unknown _ hno => exact absurd hk (hno id d hn hd _ _ _)

end HasAttribute

theorem hasAttribute_eq_true {type attr : String} {known : Bool} (hs : ctx.Indexes t)
    (h : ctx.hasAttribute t type attr = .ok known) :
    known = true ↔ t.HasAttribute ctx.directory type attr := by
  unfold hasAttribute Directory.resolve? at h
  by_cases hcustom : ctx.directory.isCustom type
  · simp only [hcustom, if_true, ResourceShape.attribute?, Property.find?, Option.map_none,
      Option.isSome_some, Except.ok.injEq] at h
    exact iff_of_true h.symm (.custom hcustom)
  simp only [hcustom, if_neg, Bool.false_eq_true, not_false_eq_true] at h
  cases hspec : ctx.directory.specification.resourceTypes.get? type with
  | some spec =>
    simp only [hspec, Option.map_some] at h
    cases hp : ResourceShape.attribute? ⟨type, some spec⟩ attr with
    | error => simp [hp] at h
    | ok p =>
      simp only [hp, Except.ok.injEq, ResourceShape.isSome_attribute? hp] at h
      rw [← h, hasAttribute_of_specified hcustom hspec]
  | none =>
    simp only [hspec, Option.map_none, hs type] at h
    cases hn : t.firstNamed type with
    | none =>
      simp only [hn, Except.ok.injEq] at h
      exact iff_of_true h.symm (.unknown hspec (by simp [hn]))
    | some id =>
      obtain ⟨d, hd, -⟩ := Tree.exists_decl_of_firstNamed hn
      simp only [hn, hd] at h
      split at h
      next handler properties attributes hk =>
        simp only [Except.ok.injEq] at h
        rw [← h, List.contains_iff_mem, hasAttribute_of_declared hcustom hspec hn hd hk]
      next hk =>
        simp only [Except.ok.injEq] at h
        refine iff_of_true h.symm (.unknown hspec fun id' d' hn' hd' ↦ ?_)
        cases hn.symm.trans hn'
        cases hd.symm.trans hd'
        exact hk

theorem checkAttribute_eq_none {kind : DeclKind} {attr : String} {x : Option Rejection}
    (hs : ctx.Indexes t) (hk : kind.isProvisioned)
    (h : ctx.checkAttribute t kind attr = .ok x) :
    x = none ↔ (ctx.options.checkAttributes → t.AttributeAllowed ctx.directory kind attr) := by
  unfold checkAttribute at h
  by_cases hcheck : ctx.options.checkAttributes
  · simp only [hcheck, Bool.not_true, Bool.false_eq_true, if_false] at h
    by_cases houtput : kind.isNestedModule && beginsWith attr nestedStackOutputPrefix
    · simp only [houtput, if_true, Except.ok.injEq] at h
      exact iff_of_true h.symm fun _ ↦ .inl (Bool.and_eq_true_iff.mp houtput)
    · obtain ⟨type, htype⟩ := DeclKind.exists_stackType? hk
      simp only [houtput, htype, Bool.false_eq_true, if_false] at h
      cases hknown : ctx.hasAttribute t type attr with
      | error => simp [hknown, Except.map] at h
      | ok known =>
        simp only [hknown, Except.map, Except.ok.injEq] at h
        have hiff := hasAttribute_eq_true hs hknown
        rw [Bool.and_eq_true_iff] at houtput
        simp only [Tree.AttributeAllowed, houtput, htype, Option.some.injEq, exists_eq_left',
          false_or, hcheck, true_imp_iff, ← hiff, ← h]
        cases known <;> simp
  · simp only [hcheck, Bool.not_false, if_true, Except.ok.injEq] at h
    exact iff_of_true h.symm fun hc ↦ absurd hc hcheck

theorem rejection?_eq_none {inCondition : Bool} {r : Reference} {target : Declaration}
    {x : Option Rejection} (hs : ctx.Indexes t) (hroot : target.kind.isModuleRoot = false)
    (h : ctx.rejection? t inCondition r target = .ok x) :
    x = none ↔ t.Legal ctx.directory ctx.options inCondition r target.kind := by
  cases r with
  | value name =>
    cases Except.ok.inj h
    cases inCondition with
    | true => simp [Tree.Legal, DeclKind.hasValue_true]
    | false => simp [Tree.Legal, DeclKind.hasValue_false hroot]
  | attributeOf name attr =>
    simp only [rejection?] at h
    split at h
    next hp => rw [checkAttribute_eq_none hs hp h, Tree.Legal, and_iff_right hp]
    next hp =>
      cases Except.ok.inj h
      simp [Tree.Legal, hp]
  | condition name =>
    cases Except.ok.inj h
    simp [Tree.Legal]
  | mapping name =>
    cases Except.ok.inj h
    simp [Tree.Legal]

end Context

def Verdict.isBound : Verdict → Bool
  | bound _ => true
  | _ => false

inductive Verdict.Fits (found : Option DeclId) (legal : DeclId → Prop) : Verdict → Prop
  | undefined : found = none → Fits found legal .undefined
  | bound {id : DeclId} : found = some id → legal id → Fits found legal (.bound id)
  | rejected {id : DeclId} (reason : Rejection) : found = some id → ¬ legal id →
      Fits found legal (.rejected reason)

namespace Verdict.Fits

variable {found : Option DeclId} {legal : DeclId → Prop} {v : Verdict}

theorem eq_bound_iff (h : v.Fits found legal) {id : DeclId} :
    v = .bound id ↔ found = some id ∧ legal id := by
  cases h with
  | undefined hf => simp [hf]
  | bound hf hl =>
    rw [Verdict.bound.injEq, hf, Option.some.injEq]
    exact ⟨fun e ↦ ⟨e, e ▸ hl⟩, And.left⟩
  | rejected _ hf hl =>
    simp only [reduceCtorEq, hf, Option.some.injEq, false_iff, not_and]
    rintro rfl
    exact hl

theorem isBound_iff (h : v.Fits found legal) :
    v.isBound ↔ ∃ id, found = some id ∧ legal id := by
  simp only [← h.eq_bound_iff]
  cases v <;> simp [isBound]

end Verdict.Fits

namespace Context

variable {t t' : Tree} {ctx : Context}

def ruling (ctx : Context) (t : Tree) (inCondition : Bool) (r : Reference) :
    Except Fault Verdict :=
  ctx.judgeReference t inCondition ⟨Tree.root, none, none, .reference r.name⟩ r

theorem judgeReference_eq (inCondition : Bool) (e : Expression) (r : Reference) :
    ctx.judgeReference t inCondition e r =
      if e.target.isSome then .ok .alreadyBound else ctx.ruling t inCondition r := rfl

theorem ruling_fits {inCondition : Bool} {r : Reference} {v : Verdict} (hs : ctx.Indexes t)
    (h : ctx.ruling t inCondition r = .ok v) :
    v.Fits (t.firstNamed r.name) fun id ↦
      ∃ d, t.decl? id = some d ∧ t.Legal ctx.directory ctx.options inCondition r d.kind := by
  simp only [ruling, judgeReference, Option.isSome_none, Bool.false_eq_true, if_false,
    hs r.name] at h
  cases hn : t.firstNamed r.name with
  | none =>
    simp only [hn, Except.ok.injEq] at h
    exact h ▸ .undefined rfl
  | some id =>
    simp only [hn, bind, Except.bind] at h
    cases ht : t.referent id with
    | error => simp [ht] at h
    | ok d =>
      obtain ⟨hd, hroot⟩ := Tree.referent_ok ht
      simp only [ht] at h
      cases hx : ctx.rejection? t inCondition r d with
      | error => simp [hx] at h
      | ok x =>
        have hlegal := rejection?_eq_none hs hroot hx
        simp only [hx] at h
        cases x with
        | none =>
          cases h
          exact .bound rfl ⟨d, hd, hlegal.mp rfl⟩
        | some reason =>
          cases h
          refine .rejected reason rfl ?_
          rintro ⟨d', hd', hl⟩
          cases hd.symm.trans hd'
          exact absurd (hlegal.mpr hl) nofun

theorem judgeDependsOn_fits {name : String} {v : Verdict} (hs : ctx.Indexes t)
    (h : ctx.judgeDependsOn t name = .ok v) :
    v.Fits (t.firstNamed name) fun id ↦ ∃ d, t.decl? id = some d ∧ d.kind.isProvisioned := by
  simp only [judgeDependsOn, hs name] at h
  cases hn : t.firstNamed name with
  | none =>
    simp only [hn, Except.ok.injEq] at h
    exact h ▸ .undefined rfl
  | some id =>
    simp only [hn, bind, Except.bind] at h
    cases ht : t.referent id with
    | error => simp [ht] at h
    | ok d =>
      have hd := (Tree.referent_ok ht).1
      simp only [ht, pure, Except.pure, Except.ok.injEq] at h
      subst h
      split
      next hp => exact .bound rfl ⟨d, hd, hp⟩
      next hp =>
        refine .rejected _ rfl ?_
        rintro ⟨d', hd', hp'⟩
        cases hd.symm.trans hd'
        exact hp hp'

section Grows

variable (h : t.Grows t')

include h

theorem hasAttribute_grows (type attr : String) :
    ctx.hasAttribute t' type attr = ctx.hasAttribute t type attr := by
  unfold hasAttribute
  cases ctx.directory.resolve? type with
  | some shape => rfl
  | none =>
    cases ctx.symbols.get? type with
    | none => rfl
    | some id =>
      rcases h.decl?_cases id with ⟨hd, hd'⟩ | ⟨d, d', hd, hd', hg⟩
      · simp only [hd, hd']
      · have hk := hg.kind
        simp only [hd, hd']
        generalize d.kind = k, d'.kind = k' at hk
        cases hk <;> rfl

theorem rejection?_grows (inCondition : Bool) (r : Reference) {id : DeclId} {d d' : Declaration}
    (hd : d.Grows t t' id d') :
    ctx.rejection? t' inCondition r d' = ctx.rejection? t inCondition r d := by
  unfold rejection? checkAttribute
  simp only [hasAttribute_grows h, hd.kind.hasValue_eq, hd.kind.isProvisioned_eq,
    hd.kind.isCondition_eq, hd.kind.isMapping_eq, hd.kind.isNestedModule_eq,
    hd.kind.stackType?_eq]

theorem referent_bind_grows {α : Type} (id : DeclId) {f f' : Declaration → Except Fault α}
    (hf : ∀ d d', d.Grows t t' id d' → f' d' = f d) :
    (t'.referent id).bind f' = (t.referent id).bind f := by
  unfold Tree.referent
  rcases h.decl?_cases id with ⟨hd, hd'⟩ | ⟨d, d', hd, hd', hg⟩
  · rw [hd, hd']
    rfl
  · simp only [hd, hd', hg.kind.isModuleRoot_eq, hg.kind.label_eq, hg.fullName]
    split
    next => rfl
    next => exact hf d d' hg

theorem ruling_grows (inCondition : Bool) (r : Reference) :
    ctx.ruling t' inCondition r = ctx.ruling t inCondition r := by
  simp only [ruling, judgeReference, Option.isSome_none, Bool.false_eq_true, if_false]
  cases ctx.symbols.get? r.name with
  | none => rfl
  | some id =>
    refine referent_bind_grows h id fun d d' hd ↦ ?_
    rw [rejection?_grows h inCondition r hd]

theorem judgeDependsOn_grows (name : String) :
    ctx.judgeDependsOn t' name = ctx.judgeDependsOn t name := by
  simp only [judgeDependsOn]
  cases ctx.symbols.get? name with
  | none => rfl
  | some id =>
    refine referent_bind_grows h id fun d d' hd ↦ ?_
    rw [hd.kind.isProvisioned_eq]

end Grows

end Context

end InfraModule
