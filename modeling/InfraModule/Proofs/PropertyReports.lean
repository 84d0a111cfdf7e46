import InfraModule.Proofs.Enumeration
import InfraModule.Proofs.Faults
import InfraModule.Proofs.Forest

namespace InfraModule

open Provider Relation

theorem Registry.get?_eq_some_iff {α : Type} {r : Registry α} {name : String} {value : α} :
    r.get? name = some value ↔ (name, value) ∈ r.entries := by
  refine ⟨mem_entries_of_get?, fun h ↦ ?_⟩
  have hname : name ∈ r.entries.map Prod.fst := List.mem_map_of_mem h
  obtain ⟨v, hv⟩ := Option.isSome_iff_exists.mp (isSome_lookup_iff.mpr hname)
  have heq := List.inj_on_of_nodup_map r.nodup (mem_entries_of_get? hv) h rfl
  cases heq
  exact hv

namespace Tree

open InfraModule.Graph

variable {t : Tree} {e : ExprId}

/-- Everything below an expression is there, and nothing of it is below itself. -/
structure Intact (t : Tree) (e : ExprId) : Prop where
  present : ∀ x, Leads t.partsOf e x → (t.expr? x).isSome
  acyclic : ∀ x, Leads t.partsOf e x → ¬ TransGen (fun a b ↦ b ∈ t.partsOf a) x x

theorem Intact.descends (h : t.Intact e) :
    t.Descends (Leads t.partsOf e) fun x ↦ (t.descendants x).length where
  present := h.present
  parts x hx c hc := by
    have hin (y : ExprId) (hy : Leads t.partsOf e y) : y ∈ t.exprIds :=
      mem_exprIds.mpr (h.present y hy)
    refine ⟨hx.tail hc, ?_⟩
    exact length_preorder_lt t.nodup_exprIds (hin x hx) hc (hin c (hx.tail hc)) (h.acyclic x hx)

theorem length_descendants_le (t : Tree) (e : ExprId) :
    (t.descendants e).length ≤ t.expressions.size := by
  have hsub : t.descendants e ⊆ t.exprIds := fun x hx ↦ (mem_descendants.mp hx).mem
  have hle := ((nodup_preorder t.nodup_exprIds [e]).subperm hsub).length_le
  rwa [exprIds, List.length_map, List.length_range] at hle

theorem Descends.intact {P : ExprId → Prop} {rank : ExprId → ℕ} (h : t.Descends P rank)
    (he : P e) : t.Intact e := by
  have hbelow (x : ExprId) (hx : Leads t.partsOf e x) : P x := by
    induction hx with
    | refl => exact he
    | tail _ hb ih => exact (h.parts _ ih _ hb).1
  have hfalls (x y : ExprId) (hxy : TransGen (fun a b ↦ b ∈ t.partsOf a) x y) (hx : P x) :
      P y ∧ rank y < rank x := by
    induction hxy with
    | single hb => exact h.parts _ hx _ hb
    | tail _ hb ih =>
      obtain ⟨hy, hlt⟩ := ih
      obtain ⟨hz, hlt'⟩ := h.parts _ hy _ hb
      exact ⟨hz, Nat.lt_trans hlt' hlt⟩
  refine ⟨fun x hx ↦ h.present x (hbelow x hx), fun x hx hloop ↦ ?_⟩
  exact Nat.lt_irrefl _ (hfalls x x hloop (hbelow x hx)).2

end Tree

namespace Resource

variable {s : Specification} {t : Tree} {object : ExprId} {c : Container}

theorem within_checkObject (h : t.Intact object) (s : Specification) (c : Container) :
    (checkObject s t object c).Within fun cause ↦ cause.isGap := by
  have hrank := Nat.lt_of_le_of_lt (t.length_descendants_le object) (size_lt_depthBound s t)
  exact within_checkWithin h.descends (Directory.failsOnly_gaps (.ofSpecification s)) .refl hrank
    trivial

/-- A way down through an object: at each step the key that is followed, and the place of the item
among those that its value has. -/
abbrev Way := List (String × ℕ)

/-- `TypedAt s t way object c inner type`: the way goes from an object that has the type `c` to what
has the type `type` inside it. -/
inductive TypedAt (s : Specification) (t : Tree) :
    Way → ExprId → Container → ExprId → Container → Prop
  | here {object : ExprId} {c : Container} : TypedAt s t [] object c object c
  | inside {object value item inner : ExprId} {c type innerType : Container} {p : Property}
      {fields : Registry ExprId} {key : String} {i : ℕ} {way : Way} :
      t.fieldsOf object = some fields → fields.get? key = some value →
      c.property? key = .ok (some p) → ItemAt t p.collection value i item →
      s.nested p = .ok type → TypedAt s t way item type inner innerType →
      TypedAt s t ((key, i) :: way) object c inner innerType

inductive Lapse where
  | unknown (key : String)
  | missing (name : String)

inductive HasLapse (t : Tree) (object : ExprId) (c : Container) : Lapse → Diagnostic → Prop
  | unknown {fields : Registry ExprId} {entries : Registry Entry} {key : String}
      {value : ExprId} :
      t.fieldsOf object = some fields → fields.get? key = some value →
      c.entries = some entries → entries.get? key = none →
      HasLapse t object c (.unknown key) (.coded (t.locationOf value) "E0017"
        ("unknown property '" ++ key ++ "' for '" ++ c.name ++ "'"))
  | missing {fields : Registry ExprId} {entries : Registry Entry} {name : String}
      {entry : Entry} :
      t.fieldsOf object = some fields → c.entries = some entries →
      entries.get? name = some entry → entry.required = true → fields.get? name = none →
      HasLapse t object c (.missing name) (.coded (t.locationOf object) "E0018"
        ("missing required property '" ++ name ++ "' for '" ++ c.name ++ "'"))

/-- What there is to report of an object and of what is inside it: each lapse, at the end of each
way that leads to it. -/
def Lapses (s : Specification) (t : Tree) (object : ExprId) (c : Container) (place : Way × Lapse)
    (x : Diagnostic) : Prop :=
  ∃ inner type, TypedAt s t place.1 object c inner type ∧ HasLapse t inner type place.2 x

inductive FieldLapses (s : Specification) (t : Tree) (c : Container) (field : String × ExprId) :
    Way × Lapse → Diagnostic → Prop
  | unknown : c.property? field.1 = .ok none →
      FieldLapses s t c field ([], .unknown field.1)
        ((Problem.unknownProperty field.1 c.name).report (t.locationOf field.2))
  | inside {p : Property} {i : ℕ} {item : ExprId} {type : Container} {way : Way} {lapse : Lapse}
      {x : Diagnostic} :
      c.property? field.1 = .ok (some p) → ItemAt t p.collection field.2 i item →
      s.nested p = .ok type → Lapses s t item type (way, lapse) x →
      FieldLapses s t c field ((field.1, i) :: way, lapse) x

theorem property?_eq_ok_none_iff {name : String} : c.property? name = .ok none ↔
    ∃ entries, c.entries = some entries ∧ entries.get? name = none := by
  cases hc : c.entries with
  | none => simp [Container.property?, Property.find?, hc]
  | some entries =>
    cases he : entries.get? name with
    | none => simp [Container.property?, Property.find?, hc, he]
    | some e =>
      cases hd : Property.describe name c.scope e <;>
        simp [Container.property?, Property.find?, hc, he, hd, Except.map]

theorem mem_required {name : String} : name ∈ c.required ↔
    ∃ entries, c.entries = some entries ∧ ∃ e, entries.get? name = some e ∧ e.required = true := by
  cases hc : c.entries with
  | none => simp [Container.required, hc]
  | some entries => simp [Container.required, hc, Registry.get?_eq_some_iff]

theorem nodup_required (c : Container) : c.required.Nodup := by
  cases hc : c.entries with
  | none => simp [Container.required, hc]
  | some entries =>
    simp only [Container.required, hc, Option.elim_some]
    exact (List.filter_sublist.map Prod.fst).nodup entries.nodup

theorem lapses_iff {fields : Registry ExprId} (hf : t.fieldsOf object = some fields)
    {place : Way × Lapse} {x : Diagnostic} :
    Lapses s t object c place x ↔ (∃ field ∈ fields.entries, FieldLapses s t c field place x) ∨
      ∃ name, place = ([], .missing name) ∧
        name ∈ c.required.filter (fun name ↦ !fields.contains name) ∧
        x = (Problem.missingProperty name c.name).report (t.locationOf object) := by
  obtain ⟨way, lapse⟩ := place
  constructor
  · rintro ⟨inner, type, hway, hlapse⟩
    cases hway with
    | here =>
      cases hlapse with
      | @unknown fields' entries key value hf' hkey hentries hnone =>
        cases hf.symm.trans hf'
        refine .inl ⟨(key, value), Registry.get?_eq_some_iff.mp hkey, .unknown ?_⟩
        exact property?_eq_ok_none_iff.mpr ⟨entries, hentries, hnone⟩
      | @missing fields' entries name entry hf' hentries hname hrequired hnone =>
        cases hf.symm.trans hf'
        refine .inr ⟨name, rfl, List.mem_filter.mpr ⟨?_, ?_⟩, rfl⟩
        · exact mem_required.mpr ⟨entries, hentries, entry, hname, hrequired⟩
        · rw [Bool.not_eq_true', ← Bool.not_eq_true, Registry.contains_iff, hnone]
          simp
    | @inside _ value item _ _ type _ p fields' key i way hf' hkey hp hi hn hrest =>
      cases hf.symm.trans hf'
      refine .inl ⟨(key, value), Registry.get?_eq_some_iff.mp hkey, ?_⟩
      exact .inside hp hi hn ⟨inner, _, hrest, hlapse⟩
  · rintro (⟨⟨key, value⟩, hfield, h⟩ | ⟨name, hplace, hname, rfl⟩)
    · have hkey := Registry.get?_eq_some_iff.mpr hfield
      cases h with
      | unknown hnone =>
        obtain ⟨entries, hentries, hnone⟩ := property?_eq_ok_none_iff.mp hnone
        exact ⟨object, c, .here, .unknown hf hkey hentries hnone⟩
      | inside hp hi hn hbelow =>
        obtain ⟨inner, type, hway, hlapse⟩ := hbelow
        exact ⟨inner, type, .inside hf hkey hp hi hn hway, hlapse⟩
    · cases hplace
      obtain ⟨hrequired, hnone⟩ := List.mem_filter.mp hname
      obtain ⟨entries, hentries, e, he, hrequired⟩ := mem_required.mp hrequired
      rw [Bool.not_eq_true', ← Bool.not_eq_true, Registry.contains_iff,
        Option.not_isSome_iff_eq_none] at hnone
      exact ⟨object, c, .here, .missing hf hentries he hrequired hnone⟩

theorem fieldLapses_iff {field : String × ExprId} {p : Property}
    (hp : c.property? field.1 = .ok (some p)) {place : Way × Lapse} {x : Diagnostic} :
    FieldLapses s t c field place x ↔ ∃ type, s.nested p = .ok type ∧
      ∃ within : ℕ × Way × Lapse, place = ((field.1, within.1) :: within.2.1, within.2.2) ∧
        ∃ item, ItemAt t p.collection field.2 within.1 item ∧
          Lapses s t item type within.2 x := by
  constructor
  · intro h
    cases h with
    | unknown hp' => simp [hp] at hp'
    | @inside p' i item type way lapse _ hp' hi hn hbelow =>
      rw [hp, Except.ok.injEq, Option.some_inj] at hp'
      subst hp'
      exact ⟨type, hn, (i, way, lapse), rfl, item, hi, hbelow⟩
  · rintro ⟨type, hn, ⟨i, way, lapse⟩, rfl, item, hi, hbelow⟩
    exact .inside hp hi hn hbelow

theorem enumerates_checkField {check : ExprId → Container → Findings} {field : String × ExprId}
    (hcheck : ∀ item type, (check item type).fault = none →
      Enumerates (check item type).log (Lapses s t item type))
    (h : (checkField s t check c field).fault = none) :
    Enumerates (checkField s t check c field).log (FieldLapses s t c field) := by
  unfold checkField at h ⊢
  cases hp : c.property? field.1 with
  | error cause => simp [hp, Findings.halted] at h
  | ok p =>
    cases p with
    | none =>
      refine Enumerates.singleton (i := ([], .unknown field.1)) fun place x ↦ ⟨fun hx ↦ ?_, ?_⟩
      · cases hx with
        | unknown => exact ⟨rfl, rfl⟩
        | inside hp' => simp [hp] at hp'
      · rintro ⟨rfl, rfl⟩
        exact .unknown hp
    | some p =>
      cases ho : occurrences t p field.2 with
      | error fault => simp [hp, ho, Findings.halted] at h
      | ok inner =>
        simp only [hp, ho] at h ⊢
        have hf := Findings.fault_each.mp h
        rw [Findings.log_each hf]
        cases hn : s.nested p with
        | error cause =>
          have hnone : inner = [] := by
            refine List.eq_nil_iff_forall_not_mem.mpr fun item hitem ↦ ?_
            simpa [hn, Findings.halted] using hf item hitem
          subst hnone
          exact Enumerates.nil fun place x ↦ by simp [fieldLapses_iff hp, hn]
        | ok type =>
          simp only [hn] at hf ⊢
          have hitem := item_of_nested hp hn
          have hall := Enumerates.flatMap_places fun item hitem ↦ hcheck item type (hf item hitem)
          have hinj : Function.Injective fun within : ℕ × Way × Lapse ↦
              ((field.1, within.1) :: within.2.1, within.2.2) := by
            rintro ⟨i, way, lapse⟩ ⟨j, way', lapse'⟩ heq
            simp_all
          refine (hall.reindex hinj).congr fun place x ↦ ?_
          simp only [fieldLapses_iff hp, hn, getElem?_occurrences ho hitem, Except.ok.injEq,
            exists_eq_left']

theorem enumerates_checkWithin {depth : ℕ} (h : (checkWithin s t depth object c).fault = none) :
    Enumerates (checkWithin s t depth object c).log (Lapses s t object c) := by
  induction depth generalizing object c with
  | zero => simp [checkWithin, Findings.halted] at h
  | succ depth ih =>
    rw [checkWithin_succ] at h ⊢
    cases hf : t.fieldsOf object with
    | none =>
      refine Enumerates.nil ?_
      rintro ⟨way, lapse⟩ x ⟨inner, type, hway, hlapse⟩
      cases hway with
      | here => cases hlapse <;> simp_all
      | inside hf' => simp [hf] at hf'
    | some fields =>
      simp only [hf] at h ⊢
      have heach := (Findings.fault_andThen.mp h).1
      have hfields := Findings.fault_each.mp heach
      rw [Findings.log_andThen heach, Findings.log_each hfields]
      have hknown : Enumerates
          (fields.entries.flatMap fun field ↦ (checkField s t (checkWithin s t depth) c field).log)
          fun place x ↦ ∃ field ∈ fields.entries, FieldLapses s t c field place x := by
        refine Enumerates.flatMap Prod.fst (fun field hfield ↦ ?_) fields.nodup ?_
        · exact enumerates_checkField (fun _ _ ↦ ih) (hfields field hfield)
        · rintro ⟨key, value⟩ ⟨key', value'⟩ place x y hx hy
          cases hx <;> cases hy <;> rfl
      have hmissing := (Enumerates.map_of_nodup
        ((nodup_required c).filter fun name ↦ !fields.contains name)
        fun name ↦ (Problem.missingProperty name c.name).report (t.locationOf object)).reindex
          (g := fun name ↦ (([] : Way), Lapse.missing name)) (by intro a b heq; simpa using heq)
      refine (hknown.append hmissing ?_).congr fun place x ↦ lapses_iff hf
      rintro place x y ⟨field, -, hx⟩ ⟨name, rfl, -⟩
      cases hx

theorem reflTransGen_inner_iff {inner : ExprId} {type : Container} :
    ReflTransGen (Inner s t) (object, c) (inner, type) ↔
      ∃ way, TypedAt s t way object c inner type := by
  constructor
  · intro h
    generalize hstart : (object, c) = start at h
    induction h using ReflTransGen.head_induction_on generalizing object c with
    | refl =>
      cases hstart
      exact ⟨[], .here⟩
    | head hstep _ ih =>
      cases hstep with
      | step hf hfield hp hi hn =>
        cases hstart
        obtain ⟨i, hi⟩ := itemOf_iff.mp hi
        obtain ⟨way, hway⟩ := ih rfl
        exact ⟨_ :: way, .inside hf (Registry.get?_eq_some_iff.mpr hfield) hp hi hn hway⟩
  · rintro ⟨way, h⟩
    induction h with
    | here => exact .refl
    | inside hf hkey hp hi hn _ ih =>
      exact .head (.step hf (Registry.get?_eq_some_iff.mp hkey) hp (itemOf_iff.mpr ⟨_, hi⟩) hn) ih

theorem conforms_iff_typedAt : Conforms s t object c ↔
    ∀ way inner type, TypedAt s t way object c inner type → HasShape t inner type := by
  constructor
  · intro h way inner type hway
    exact h (inner, type) (reflTransGen_inner_iff.mpr ⟨way, hway⟩)
  · rintro h ⟨inner, type⟩ hinner
    obtain ⟨way, hway⟩ := reflTransGen_inner_iff.mp hinner
    exact h way inner type hway

/-- The check of an object that is intact comes to an end, unless the specification leaves open what
it needs to know. What it then has reported corresponds one to one to the unknown keys and the
missing properties at the ends of the ways through the object, and it has reported nothing exactly
when all that has a type has the shape of its type. -/
theorem checkObject_reports_each_lapse (h : t.Intact object) (s : Specification) (c : Container) :
    ((checkObject s t object c).Within fun cause ↦ cause.isGap) ∧
    ((checkObject s t object c).fault = none →
      Enumerates (checkObject s t object c).log (Lapses s t object c) ∧
      ((checkObject s t object c).log = [] ↔
        ∀ way inner type, TypedAt s t way object c inner type → HasShape t inner type)) := by
  refine ⟨within_checkObject h s c, fun hfault ↦ ⟨enumerates_checkWithin hfault, ?_⟩⟩
  rw [← conforms_iff_typedAt]
  exact log_checkWithin_eq_nil hfault

def branching : Specification :=
  (Specification.blank.withResourceType "Acme::Graph"
    (ResourceType.blank.withProperty "Root" (.complex "Node"))).withPropertyType "Acme::Graph.Node"
    (((PropertyType.blank.withProperty "Label" (Entry.string.require)).withProperty "Next"
      (.complex "Node")).withProperty "Branches" (.listOf "Node"))

def forked : Tree :=
  { Tree.new "Module" none with
    expressions := #[
      ⟨Tree.root, none, none, .literal "red"⟩,
      ⟨Tree.root, none, none, .object (.ofList [("Colour", ⟨0⟩)])⟩,
      ⟨Tree.root, none, none, .list [⟨1⟩, ⟨1⟩]⟩,
      ⟨Tree.root, none, none, .reference "Other"⟩,
      ⟨Tree.root, none, none, .object (.ofList [("Branches", ⟨2⟩), ("Next", ⟨3⟩)])⟩,
      ⟨Tree.root, none, none, .object (.ofList [("Root", ⟨4⟩)])⟩] }

def graph : Container :=
  ⟨"Acme::Graph", "Acme::Graph", some (.ofList [("Root", .complex "Node")])⟩

/-- The node is without a label and has a colour, which is reported at each of the two branches. -/
theorem checkObject_reports_each_lapse_forked :
    forked.Intact ⟨5⟩ ∧ (checkObject branching forked ⟨5⟩ graph).fault = none ∧
    (checkObject branching forked ⟨5⟩ graph).log.map (·.code) =
      [some "E0017", some "E0018", some "E0017", some "E0018", some "E0018"] ∧
    Enumerates (checkObject branching forked ⟨5⟩ graph).log (Lapses branching forked ⟨5⟩ graph) ∧
    ¬ ∀ way inner type, TypedAt branching forked way ⟨5⟩ graph inner type →
      HasShape forked inner type := by
  have hdescends : forked.Descends (· ∈ forked.exprIds) ExprId.index := by
    constructor <;> decide +kernel
  have hintact : forked.Intact ⟨5⟩ := hdescends.intact (by decide +kernel)
  have hfault : (checkObject branching forked ⟨5⟩ graph).fault = none := by decide +kernel
  have hlog : (checkObject branching forked ⟨5⟩ graph).log.map (·.code) =
      [some "E0017", some "E0018", some "E0017", some "E0018", some "E0018"] := by decide +kernel
  obtain ⟨heach, hnone⟩ := (checkObject_reports_each_lapse hintact branching graph).2 hfault
  refine ⟨hintact, hfault, hlog, heach, fun hall ↦ ?_⟩
  rw [hnone.mpr hall] at hlog
  exact absurd hlog (by decide)

end Resource

end InfraModule
