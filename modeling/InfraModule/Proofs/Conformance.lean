import InfraModule.Proofs.Growth
import InfraModule.Proofs.PropertyShapes
import InfraModule.Resource.Conformance
import Mathlib.Logic.Relation

namespace InfraModule

open Provider Relation

namespace Findings

variable {α : Type} {check check' : α → Findings} {as : List α}

theorem fault_andThen {first : Findings} {second : Unit → Findings} :
    (first.andThen second).fault = none ↔ first.fault = none ∧ (second ()).fault = none := by
  unfold andThen
  split <;> simp_all

theorem log_andThen {first : Findings} {second : Unit → Findings} (h : first.fault = none) :
    (first.andThen second).log = first.log ++ (second ()).log := by
  simp [andThen, h]

theorem fault_each : (each check as).fault = none ↔ ∀ a ∈ as, (check a).fault = none := by
  induction as with
  | nil => simp [each, clean]
  | cons a as ih => rw [each, fault_andThen, ih, List.forall_mem_cons]

theorem log_each (h : ∀ a ∈ as, (check a).fault = none) :
    (each check as).log = as.flatMap fun a ↦ (check a).log := by
  induction as with
  | nil => rfl
  | cons a as ih =>
    rw [List.forall_mem_cons] at h
    rw [each, log_andThen h.1, ih h.2, List.flatMap_cons]

theorem each_congr (h : ∀ a ∈ as, check' a = check a) : each check' as = each check as := by
  induction as with
  | nil => rfl
  | cons a as ih =>
    rw [List.forall_mem_cons] at h
    rw [each, each, h.1, ih h.2]

theorem log_each_eq_nil (h : (each check as).fault = none) :
    (each check as).log = [] ↔ ∀ a ∈ as, (check a).log = [] := by
  rw [log_each (fault_each.mp h), List.flatMap_eq_nil_iff]

end Findings

namespace Resource

variable {s : Specification} {t t' : Tree}

def checkField (s : Specification) (t : Tree) (check : ExprId → Container → Findings)
    (c : Container) (field : String × ExprId) : Findings :=
  match c.property? field.1 with
  | .error cause => .halted (.inconsistent cause)
  | .ok none => .problem (.unknownProperty field.1 c.name) (t.locationOf field.2)
  | .ok (some p) =>
    match occurrences t p field.2 with
    | .error fault => .halted fault
    | .ok inner =>
      Findings.each (fun item ↦
        match s.nested p with
        | .error cause => .halted (.inconsistent cause)
        | .ok type => check item type) inner

theorem checkWithin_succ (depth : ℕ) (object : ExprId) (c : Container) :
    checkWithin s t (depth + 1) object c =
      match t.fieldsOf object with
      | none => .clean
      | some fields =>
        (Findings.each (checkField s t (checkWithin s t depth) c) fields.entries).andThen
          fun _ ↦ ⟨missingProperties t object fields c, none⟩ := rfl

theorem checkField_congr {check check' : ExprId → Container → Findings} {c : Container}
    {field : String × ExprId}
    (h : ∀ item type, (check item type).fault = none → check' item type = check item type)
    (hf : (checkField s t check c field).fault = none) :
    checkField s t check' c field = checkField s t check c field := by
  unfold checkField at hf ⊢
  split <;> try rfl
  split <;> try rfl
  simp only [*] at hf
  refine Findings.each_congr fun item hitem ↦ ?_
  have hi := Findings.fault_each.mp hf item hitem
  split <;> simp_all

theorem checkWithin_succ_eq {depth : ℕ} {object : ExprId} {c : Container}
    (h : (checkWithin s t depth object c).fault = none) :
    checkWithin s t (depth + 1) object c = checkWithin s t depth object c := by
  induction depth generalizing object c with
  | zero => simp [checkWithin, Findings.halted] at h
  | succ depth ih =>
    rw [checkWithin_succ] at h ⊢
    rw [checkWithin_succ depth]
    split <;> try rfl
    next fields hfields =>
      simp only [hfields] at h
      have heach := (Findings.fault_andThen.mp h).1
      congr 1
      refine Findings.each_congr fun field hfield ↦ ?_
      exact checkField_congr (fun _ _ ↦ ih) (Findings.fault_each.mp heach field hfield)

theorem checkWithin_eq_of_le {depth depth' : ℕ} {object : ExprId} {c : Container}
    (hle : depth ≤ depth') (h : (checkWithin s t depth object c).fault = none) :
    checkWithin s t depth' object c = checkWithin s t depth object c := by
  induction hle with
  | refl => rfl
  | step _ ih => rw [checkWithin_succ_eq (ih ▸ h), ih]

inductive ItemOf (t : Tree) : Collection → ExprId → ExprId → Prop
  | single {value : ExprId} : (t.fieldsOf value).isSome → ItemOf t .single value value
  | list {value item : ExprId} {x : Expression} {items : List ExprId} :
      t.expr? value = some x → x.kind = .list items → item ∈ items → ItemOf t .list value item
  | map {value item : ExprId} {entries : Registry ExprId} :
      t.fieldsOf value = some entries → item ∈ entries.values → ItemOf t .map value item

inductive ItemAt (t : Tree) : Collection → ExprId → ℕ → ExprId → Prop
  | single {value : ExprId} : (t.fieldsOf value).isSome → ItemAt t .single value 0 value
  | list {value item : ExprId} {x : Expression} {items : List ExprId} {i : ℕ} :
      t.expr? value = some x → x.kind = .list items → items[i]? = some item →
      ItemAt t .list value i item
  | map {value item : ExprId} {entries : Registry ExprId} {i : ℕ} :
      t.fieldsOf value = some entries → entries.values[i]? = some item →
      ItemAt t .map value i item

theorem itemOf_iff {collection : Collection} {value item : ExprId} :
    ItemOf t collection value item ↔ ∃ i, ItemAt t collection value i item := by
  constructor
  · intro h
    cases h with
    | single hs => exact ⟨0, .single hs⟩
    | list hx hk hi =>
      obtain ⟨i, hi⟩ := List.mem_iff_getElem?.mp hi
      exact ⟨i, .list hx hk hi⟩
    | map he hi =>
      obtain ⟨i, hi⟩ := List.mem_iff_getElem?.mp hi
      exact ⟨i, .map he hi⟩
  · rintro ⟨i, h⟩
    cases h with
    | single hs => exact .single hs
    | list hx hk hi => exact .list hx hk (List.mem_of_getElem? hi)
    | map he hi => exact .map he (List.mem_of_getElem? hi)

theorem itemAt_iff {collection : Collection} {value item : ExprId} {x : Expression} {i : ℕ}
    (hx : t.expr? value = some x) :
    ItemAt t collection value i item ↔
      match collection, x.kind with
      | .single, .object _ => i = 0 ∧ item = value
      | .list, .list items => items[i]? = some item
      | .map, .object entries => entries.values[i]? = some item
      | _, _ => False := by
  have hf : t.fieldsOf value = x.kind.fields? := by simp [Tree.fieldsOf, hx]
  constructor
  · intro h
    cases h with
    | single hs =>
      cases hk : x.kind <;> simp_all [ExprKind.fields?]
    | list hx' hk hi =>
      rw [hx, Option.some_inj] at hx'
      simp_all
    | map he hi =>
      cases hk : x.kind <;> simp_all [ExprKind.fields?]
  · intro h
    split at h
    next hk =>
      obtain ⟨rfl, rfl⟩ := h
      exact .single (by simp [hf, hk, ExprKind.fields?])
    next hk => exact .list hx hk h
    next hk => exact .map (by simp [hf, hk, ExprKind.fields?]) h
    next => exact h.elim

theorem getElem?_occurrences {p : Property} {value : ExprId} {inner : List ExprId}
    (h : occurrences t p value = .ok inner) (hp : p.item = .complex)
    {i : ℕ} {item : ExprId} : inner[i]? = some item ↔ ItemAt t p.collection value i item := by
  unfold occurrences at h
  rw [hp] at h
  cases hx : t.expr? value with
  | none => simp [hx] at h
  | some x =>
    rw [itemAt_iff hx]
    simp only [hx] at h
    split at h <;> simp_all
    all_goals grind

theorem mem_occurrences {p : Property} {value : ExprId} {inner : List ExprId}
    (h : occurrences t p value = .ok inner) (hp : p.item = .complex)
    {item : ExprId} : item ∈ inner ↔ ItemOf t p.collection value item := by
  rw [itemOf_iff, List.mem_iff_getElem?]
  exact exists_congr fun i ↦ getElem?_occurrences h hp

theorem item_of_mem_occurrences {p : Property} {value item : ExprId} {inner : List ExprId}
    (h : occurrences t p value = .ok inner) (hi : item ∈ inner) : p.item = .complex := by
  cases hp : p.item with
  | complex => rfl
  | primitive =>
    simp only [occurrences, hp, Except.ok.injEq] at h
    simp [← h] at hi

theorem value_mem_partsOf {object : ExprId} {fields : Registry ExprId}
    (hf : t.fieldsOf object = some fields) {field : String × ExprId} (h : field ∈ fields.entries) :
    field.2 ∈ t.partsOf object := by
  obtain ⟨x, hx, hk⟩ := Option.bind_eq_some_iff.mp hf
  cases hkind : x.kind with
  | object fs =>
    simp only [hkind, ExprKind.fields?, Option.some_inj] at hk
    subst hk
    simp only [Tree.partsOf, hx, hkind, Option.elim_some, ExprKind.children]
    exact List.mem_map_of_mem h
  | _ => simp [hkind, ExprKind.fields?] at hk

theorem item_mem_partsOf {collection : Collection} {value item : ExprId}
    (h : ItemOf t collection value item) : item = value ∨ item ∈ t.partsOf value := by
  cases h with
  | single _ => exact .inl rfl
  | list hx hk hi => exact .inr (by simpa [Tree.partsOf, hx, hk, ExprKind.children] using hi)
  | map he hi =>
    obtain ⟨field, hfield, rfl⟩ := List.mem_map.mp hi
    exact .inr (value_mem_partsOf he hfield)

theorem isSome_of_mem_fields (hc : t.Closed) {object : ExprId} {fields : Registry ExprId}
    (hf : t.fieldsOf object = some fields) {field : String × ExprId} (h : field ∈ fields.entries) :
    (t.expr? field.2).isSome := by
  obtain ⟨x, hx, -⟩ := Option.bind_eq_some_iff.mp hf
  exact hc.partsOf (by simp [hx]) field.2 (value_mem_partsOf hf h)

theorem isSome_of_itemOf (hc : t.Closed) {collection : Collection} {value item : ExprId}
    (hv : (t.expr? value).isSome) (h : ItemOf t collection value item) : (t.expr? item).isSome := by
  rcases item_mem_partsOf h with rfl | hi
  · exact hv
  · exact hc.partsOf hv item hi

/-- One step from an object of a type to an object inside it that has a type too. -/
inductive Inner (s : Specification) (t : Tree) : ExprId × Container → ExprId × Container → Prop
  | step {object item : ExprId} {c type : Container} {fields : Registry ExprId} {p : Property}
      {field : String × ExprId} :
      t.fieldsOf object = some fields → field ∈ fields.entries →
      c.property? field.1 = .ok (some p) → ItemOf t p.collection field.2 item →
      s.nested p = .ok type → Inner s t (object, c) (item, type)

def HasShape (t : Tree) (object : ExprId) (c : Container) : Prop :=
  ∀ fields, t.fieldsOf object = some fields →
    (∀ name ∈ fields.names, ∃ p, c.property? name = .ok (some p)) ∧
    ∀ name ∈ c.required, name ∈ fields.names

/-- An object and all objects inside it that have a type have the shape of their types. -/
def Conforms (s : Specification) (t : Tree) (object : ExprId) (c : Container) : Prop :=
  ∀ inner, ReflTransGen (Inner s t) (object, c) inner → HasShape t inner.1 inner.2

theorem conforms_iff {object : ExprId} {c : Container} :
    Conforms s t object c ↔ HasShape t object c ∧
      ∀ item type, Inner s t (object, c) (item, type) → Conforms s t item type := by
  constructor
  · intro h
    exact ⟨h _ .refl, fun item type hi inner hr ↦ h inner (.head hi hr)⟩
  · rintro ⟨hs, hi⟩ inner hr
    cases hr using ReflTransGen.head_induction_on with
    | refl => exact hs
    | head hstep hrest => exact hi _ _ hstep inner hrest

theorem missingProperties_eq_nil {object : ExprId} {fields : Registry ExprId} {c : Container} :
    missingProperties t object fields c = [] ↔ ∀ name ∈ c.required, name ∈ fields.names := by
  simp [missingProperties, Registry.contains]

theorem item_of_nested {c : Container} {name : String} {p : Property} {type : Container}
    (hp : c.property? name = .ok (some p)) (h : s.nested p = .ok type) : p.item = .complex :=
  (Container.wellShaped_of_property? hp).complex_iff.mpr (Specification.isSome_of_nested h)

section

variable {check : ExprId → Container → Findings} {c : Container} {field : String × ExprId}

theorem fault_checkField (h : (checkField s t check c field).fault = none) {p : Property}
    (hp : c.property? field.1 = .ok (some p)) {item : ExprId} {type : Container}
    (hi : ItemOf t p.collection field.2 item) (hn : s.nested p = .ok type) :
    (check item type).fault = none := by
  unfold checkField at h
  cases ho : occurrences t p field.2 with
  | error fault => simp [hp, ho, Findings.halted] at h
  | ok inner =>
    simp only [hp, ho] at h
    have hitem := item_of_nested hp hn
    have hf := Findings.fault_each.mp h item ((mem_occurrences ho hitem).mpr hi)
    simpa only [hn] using hf

theorem log_checkField_eq_nil (h : (checkField s t check c field).fault = none) :
    (checkField s t check c field).log = [] ↔ ∃ p, c.property? field.1 = .ok (some p) ∧
      ∀ item type, ItemOf t p.collection field.2 item → s.nested p = .ok type →
        (check item type).log = [] := by
  unfold checkField at h ⊢
  cases hp : c.property? field.1 with
  | error cause => simp [hp, Findings.halted] at h
  | ok p =>
    cases p with
    | none => simp [Findings.problem]
    | some p =>
      cases ho : occurrences t p field.2 with
      | error fault => simp [hp, ho, Findings.halted] at h
      | ok inner =>
        simp only [hp, ho] at h ⊢
        rw [Findings.log_each_eq_nil h]
        constructor
        · refine fun hlog ↦ ⟨p, rfl, fun item type hi hn ↦ ?_⟩
          have hitem := item_of_nested hp hn
          simpa only [hn] using hlog item ((mem_occurrences ho hitem).mpr hi)
        · rintro ⟨p', hp', hall⟩ item hmem
          simp only [Except.ok.injEq, Option.some_inj] at hp'
          subst hp'
          have hf := Findings.fault_each.mp h item hmem
          cases hn : s.nested p with
          | error cause => simp [hn, Findings.halted] at hf
          | ok type =>
            have hitem := item_of_nested hp hn
            exact hall item type ((mem_occurrences ho hitem).mp hmem) hn

end

/-- The check of an object reports nothing exactly when the object conforms. -/
theorem log_checkWithin_eq_nil {depth : ℕ} {object : ExprId} {c : Container}
    (h : (checkWithin s t depth object c).fault = none) :
    (checkWithin s t depth object c).log = [] ↔ Conforms s t object c := by
  induction depth generalizing object c with
  | zero => simp [checkWithin, Findings.halted] at h
  | succ depth ih =>
    rw [checkWithin_succ] at h ⊢
    rw [conforms_iff]
    cases hfields : t.fieldsOf object with
    | none =>
      simp only [Findings.clean, true_iff]
      refine ⟨fun fields hf ↦ by simp [hfields] at hf, fun item type hi ↦ ?_⟩
      cases hi with
      | step hf => simp [hfields] at hf
    | some fields =>
      simp only [hfields] at h ⊢
      have heach := (Findings.fault_andThen.mp h).1
      have hf := Findings.fault_each.mp heach
      rw [Findings.log_andThen heach, List.append_eq_nil_iff, Findings.log_each_eq_nil heach,
        missingProperties_eq_nil]
      constructor
      · rintro ⟨hlog, hreq⟩
        refine ⟨fun fields' hf' ↦ ?_, fun item type hi ↦ ?_⟩
        · rw [hfields, Option.some_inj] at hf'
          subst hf'
          refine ⟨fun name hname ↦ ?_, hreq⟩
          obtain ⟨field, hfield, rfl⟩ := List.mem_map.mp hname
          obtain ⟨p, hp, _⟩ := (log_checkField_eq_nil (hf field hfield)).mp (hlog field hfield)
          exact ⟨p, hp⟩
        · cases hi with
          | @step _ _ _ _ _ p field hf' hfield hp hi hn =>
            rw [hfields, Option.some_inj] at hf'
            subst hf'
            have hfault := hf field hfield
            obtain ⟨p', hp', hall⟩ := (log_checkField_eq_nil hfault).mp (hlog field hfield)
            rw [hp, Except.ok.injEq, Option.some_inj] at hp'
            subst hp'
            exact (ih (fault_checkField hfault hp hi hn)).mp (hall item type hi hn)
      · rintro ⟨hshape, hinner⟩
        obtain ⟨hknown, hreq⟩ := hshape fields hfields
        refine ⟨fun field hfield ↦ ?_, hreq⟩
        have hfault := hf field hfield
        obtain ⟨p, hp⟩ := hknown field.1 (List.mem_map_of_mem hfield)
        refine (log_checkField_eq_nil hfault).mpr ⟨p, hp, fun item type hi hn ↦ ?_⟩
        exact (ih (fault_checkField hfault hp hi hn)).mpr
          (hinner item type (.step hfields hfield hp hi hn))

theorem occurrences_grows (h : t.Grows t') (p : Property) {value : ExprId}
    (hv : (t.expr? value).isSome) : occurrences t' p value = occurrences t p value := by
  obtain ⟨x, x', hx, hx', hg⟩ := h.exists_expr hv
  cases hp : p.item <;> simp only [occurrences, hp, hx, hx', hg.kind]

theorem checkWithin_grows (h : t.Grows t') (hc : t.Closed) {depth : ℕ} {object : ExprId}
    {c : Container} (ho : (t.expr? object).isSome) :
    checkWithin s t' depth object c = checkWithin s t depth object c := by
  induction depth generalizing object c with
  | zero => rfl
  | succ depth ih =>
    rw [checkWithin_succ, checkWithin_succ, h.fieldsOf_eq ho]
    split <;> try rfl
    next fields hfields =>
      unfold missingProperties
      rw [h.locationOf_eq ho]
      congr 1
      refine Findings.each_congr fun field hfield ↦ ?_
      have hv := isSome_of_mem_fields hc hfields hfield
      unfold checkField
      rw [h.locationOf_eq hv]
      split <;> try rfl
      next p hp =>
        rw [occurrences_grows h p hv]
        split <;> try rfl
        next inner hinner =>
          refine Findings.each_congr fun item hitem ↦ ?_
          split <;> try rfl
          next type hn =>
            have hcomplex := item_of_nested hp hn
            exact ih (isSome_of_itemOf hc hv ((mem_occurrences hinner hcomplex).mp hitem))

end Resource

end InfraModule
