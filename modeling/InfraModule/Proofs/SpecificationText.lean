import InfraModule.Proofs.Filing
import InfraModule.Proofs.JsonText
import InfraModule.Provider.Document
import Mathlib.Data.List.Forall2
import Mathlib.Data.List.Nodup

namespace InfraModule

namespace Provider

namespace ResourceType

inductive Call
  | withProperty (name : String) (entry : Entry)
  | withAttribute (name : String) (entry : Entry)

namespace Call

def property? : Call → Option (String × Entry)
  | withProperty name entry => some (name, entry)
  | withAttribute _ _ => none

def attribute? : Call → Option (String × Entry)
  | withProperty _ _ => none
  | withAttribute name entry => some (name, entry)

end Call

def perform (t : ResourceType) : Call → ResourceType
  | .withProperty name entry => t.withProperty name entry
  | .withAttribute name entry => t.withAttribute name entry

def built (documentation : Option String) (calls : List Call) : ResourceType :=
  calls.foldl perform { blank with documentation := documentation }

theorem foldl_perform (calls : List Call) (t : ResourceType) :
    calls.foldl perform t = ⟨t.documentation,
      (calls.filterMap Call.property?).foldl (fun r c ↦ r.put c.1 c.2) t.properties,
      (calls.filterMap Call.attribute?).foldl (fun r c ↦ r.put c.1 c.2) t.attributes⟩ := by
  induction calls generalizing t with
  | nil => rfl
  | cons call calls ih => cases call <;> exact ih _

theorem built_eq (documentation : Option String) (calls : List Call) :
    built documentation calls = ⟨documentation, .ofList (calls.filterMap Call.property?),
      .ofList (calls.filterMap Call.attribute?)⟩ := foldl_perform calls _

structure Holds (said : Option String × List Call) (t : ResourceType) : Prop where
  documentation : t.documentation = said.1
  properties : Registry.Files Eq (said.2.filterMap Call.property?) t.properties
  attributes : Registry.Files Eq (said.2.filterMap Call.attribute?) t.attributes

theorem holds_built (said : Option String × List Call) : Holds said (built said.1 said.2) := by
  rw [built_eq]
  exact ⟨rfl, Registry.files_eq_ofList _, Registry.files_eq_ofList _⟩

end ResourceType

namespace PropertyType

def built (documentation : Option String) (calls : List (String × Entry)) : PropertyType :=
  calls.foldl (fun t c ↦ t.withProperty c.1 c.2) { blank with documentation := documentation }

theorem foldl_withProperty (calls : List (String × Entry)) (t : PropertyType) :
    calls.foldl (fun t c ↦ t.withProperty c.1 c.2) t =
      ⟨t.documentation, calls.foldl (fun r c ↦ r.put c.1 c.2) t.properties⟩ := by
  induction calls generalizing t with
  | nil => rfl
  | cons call calls ih => exact ih _

theorem built_eq (documentation : Option String) (calls : List (String × Entry)) :
    built documentation calls = ⟨documentation, .ofList calls⟩ := foldl_withProperty calls _

structure Holds (said : Option String × List (String × Entry)) (t : PropertyType) : Prop where
  documentation : t.documentation = said.1
  properties : Registry.Files Eq said.2 t.properties

theorem holds_built (said : Option String × List (String × Entry)) :
    Holds said (built said.1 said.2) := by
  rw [built_eq]
  exact ⟨rfl, Registry.files_eq_ofList _⟩

end PropertyType

namespace Specification

inductive Call
  | withResourceType (name : String) (documentation : Option String)
      (calls : List ResourceType.Call)
  | withPropertyType (name : String) (documentation : Option String)
      (calls : List (String × Entry))

namespace Call

def resourceType? : Call → Option (String × Option String × List ResourceType.Call)
  | withResourceType name documentation calls => some (name, documentation, calls)
  | withPropertyType _ _ _ => none

def propertyType? : Call → Option (String × Option String × List (String × Entry))
  | withResourceType _ _ _ => none
  | withPropertyType name documentation calls => some (name, documentation, calls)

end Call

def perform (s : Specification) : Call → Specification
  | .withResourceType name documentation calls =>
    s.withResourceType name (ResourceType.built documentation calls)
  | .withPropertyType name documentation calls =>
    s.withPropertyType name (PropertyType.built documentation calls)

def built (version : Option String) (calls : List Call) : Specification :=
  calls.foldl perform { blank with version := version }

theorem foldl_perform (calls : List Call) (s : Specification) :
    calls.foldl perform s = ⟨s.version,
      ((calls.filterMap Call.resourceType?).map fun c ↦ (c.1, ResourceType.built c.2.1 c.2.2)).foldl
        (fun r c ↦ r.put c.1 c.2) s.resourceTypes,
      ((calls.filterMap Call.propertyType?).map fun c ↦ (c.1, PropertyType.built c.2.1 c.2.2)).foldl
        (fun r c ↦ r.put c.1 c.2) s.propertyTypes⟩ := by
  induction calls generalizing s with
  | nil => rfl
  | cons call calls ih => cases call <;> exact ih _

theorem built_eq (version : Option String) (calls : List Call) :
    built version calls = ⟨version,
      .ofList ((calls.filterMap Call.resourceType?).map fun c ↦
        (c.1, ResourceType.built c.2.1 c.2.2)),
      .ofList ((calls.filterMap Call.propertyType?).map fun c ↦
        (c.1, PropertyType.built c.2.1 c.2.2))⟩ := foldl_perform calls _

/-- A specification holds what was said last about each type, in the order in which the types were
first spoken of. -/
structure Holds (version : Option String) (calls : List Call) (s : Specification) : Prop where
  version : s.version = version
  resourceTypes :
    Registry.Files ResourceType.Holds (calls.filterMap Call.resourceType?) s.resourceTypes
  propertyTypes :
    Registry.Files PropertyType.Holds (calls.filterMap Call.propertyType?) s.propertyTypes

theorem holds_built (version : Option String) (calls : List Call) :
    Holds version calls (built version calls) := by
  rw [built_eq]
  exact ⟨rfl, Registry.files_ofList ResourceType.holds_built _,
    Registry.files_ofList PropertyType.holds_built _⟩

end Specification

namespace Document

/-- A field of a record: what may be written for it, and whether it may be left out. -/
structure Field where
  name : String
  Written : Json → Prop
  Absent : Prop

def Field.Admits (f : Field) : Option Json → Prop
  | none => f.Absent
  | some j => f.Written j

def given (fields : List Field) (choices : List (Option Json)) : Record :=
  (fields.zip choices).filterMap fun p ↦ p.2.map (p.1.name, ·)

/-- The two ways to write a record: by the names of the fields, in any order, or by the fields' own
order, where the last ones may be missing. -/
inductive RecordOf (fields : List Field) : Json → Prop
  | object {choices : List (Option Json)} {record : Record} :
      List.Forall₂ Field.Admits fields choices → record.Perm (given fields choices) →
      RecordOf fields (.object (record.map fun m ↦ (some m.1, m.2)))
  | array {items : List Json} {omitted : ℕ} :
      List.Forall₂ Field.Admits fields (items.map some ++ List.replicate omitted none) →
      RecordOf fields (.array items)

inductive TableOf {α : Type} (entryOf : α → Json → Prop) : List (String × α) → Json → Prop
  | mk {entries : List (String × α)} {record : Record} :
      List.Forall₂ (fun e m ↦ m.1 = e.1 ∧ entryOf e.2 m.2) entries record →
      TableOf entryOf entries (.object (record.map fun m ↦ (some m.1, m.2)))

def textJson : Option String → Json
  | none => .null
  | some text => .string (some text)

def textField (name : String) (text : Option String) : Field :=
  ⟨name, (· = textJson text), text = none⟩

def flagField (name : String) (value : Bool) : Field := ⟨name, (· = .bool value), value = false⟩

def tableField {α : Type} (name : String) (entryOf : α → Json → Prop)
    (entries : List (String × α)) : Field := ⟨name, TableOf entryOf entries, entries = []⟩

def EntryOf (e : Entry) : Json → Prop :=
  RecordOf [textField "Type" e.type, textField "PrimitiveType" e.primitiveType,
    textField "ItemType" e.itemType, textField "PrimitiveItemType" e.primitiveItemType,
    flagField "Required" e.required, flagField "DuplicatesAllowed" e.duplicatesAllowed,
    textField "UpdateType" e.updateType, textField "Documentation" e.documentation]

def ResourceTypeOf (said : Option String × List ResourceType.Call) : Json → Prop :=
  RecordOf [textField "Documentation" said.1,
    tableField "Properties" EntryOf (said.2.filterMap ResourceType.Call.property?),
    tableField "Attributes" EntryOf (said.2.filterMap ResourceType.Call.attribute?)]

def PropertyTypeOf (said : Option String × List (String × Entry)) : Json → Prop :=
  RecordOf [textField "Documentation" said.1, tableField "Properties" EntryOf said.2]

/-- The documents that say the same as a sequence of calls. -/
def SpecificationOf (version : Option String) (calls : List Specification.Call) : Json → Prop :=
  RecordOf [textField "ResourceSpecificationVersion" version,
    tableField "ResourceTypes" ResourceTypeOf (calls.filterMap Specification.Call.resourceType?),
    tableField "PropertyTypes" PropertyTypeOf (calls.filterMap Specification.Call.propertyType?)]

variable {fields : List Field} {choices : List (Option Json)} {record : Record} {j : Json}

theorem named?_map (record : Record) :
    named? (record.map fun m ↦ (some m.1, m.2)) = some record := by
  induction record with
  | nil => rfl
  | cons m record ih =>
    rw [named?] at ih ⊢
    simp [ih]

theorem given_cons (f : Field) (c : Option Json) :
    given (f :: fields) (c :: choices) =
      (c.map (f.name, ·)).toList ++ given fields choices := by
  cases c <;> simp [given]

theorem names_given_sublist (fields : List Field) (choices : List (Option Json)) :
    ((given fields choices).map Prod.fst).Sublist (fields.map Field.name) := by
  induction fields generalizing choices with
  | nil => simp [given]
  | cons f fields ih =>
    cases choices with
    | nil => simp [given]
    | cons c choices =>
      rw [given_cons]
      cases c with
      | none => exact (ih choices).cons f.name
      | some j => exact (ih choices).cons_cons f.name

theorem given_array (fields : List Field) (items : List Json) (omitted : ℕ) :
    given fields (items.map some ++ List.replicate omitted none) =
      (fields.map Field.name).zip items := by
  induction fields generalizing items omitted with
  | nil => simp [given]
  | cons f fields ih =>
    cases items with
    | cons j items => rw [List.map_cons, List.cons_append, given_cons, ih]; rfl
    | nil =>
      cases omitted with
      | zero => simp [given]
      | succ omitted =>
        have hrest := ih [] omitted
        rw [List.map_nil, List.nil_append] at hrest ⊢
        rw [List.replicate_succ, given_cons, hrest]
        simp

theorem admits_lookup_given (hn : (fields.map Field.name).Nodup)
    (h : List.Forall₂ Field.Admits fields choices) :
    ∀ f ∈ fields, f.Admits ((given fields choices).lookup f.name) := by
  induction h with
  | nil => simp
  | @cons f c fields choices hc _ ih =>
    rw [List.map_cons, List.nodup_cons] at hn
    refine List.forall_mem_cons.mpr ⟨?_, fun f' hf' ↦ ?_⟩
    · cases c with
      | some j =>
        rw [given_cons, Option.map_some, Option.toList_some, List.singleton_append,
          lookup_cons_eq, if_pos rfl]
        exact hc
      | none =>
        have hnone : (given fields choices).lookup f.name = none := by
          rw [← Option.not_isSome_iff_eq_none, isSome_lookup_iff]
          exact fun hmem ↦ hn.1 ((names_given_sublist _ _).subset hmem)
        rw [given_cons, Option.map_none, Option.toList_none, List.nil_append, hnone]
        exact hc
    · have hne : f'.name ≠ f.name := fun heq ↦ hn.1 (heq ▸ List.mem_map_of_mem hf')
      have hskip : (given (f :: fields) (c :: choices)).lookup f'.name =
          (given fields choices).lookup f'.name := by
        cases c with
        | some j => exact (lookup_cons_eq ..).trans (if_neg hne)
        | none => rfl
      rw [hskip]
      exact ih hn.2 f' hf'

theorem lookup_perm {l l' : Record} (h : l.Perm l') (hn : (l.map Prod.fst).Nodup) (name : String) :
    l.lookup name = l'.lookup name := by
  induction h with
  | nil => rfl
  | cons m _ ih =>
    rw [List.map_cons, List.nodup_cons] at hn
    rw [lookup_cons_eq, lookup_cons_eq, ih hn.2]
  | swap m m' l =>
    have hne : m'.1 ≠ m.1 := by
      simp only [List.map_cons, List.nodup_cons, List.mem_cons, not_or] at hn
      exact hn.1.1
    obtain ⟨k, v⟩ := m
    obtain ⟨k', v'⟩ := m'
    simp only [lookup_cons_eq]
    by_cases hk : name = k
    · rw [if_pos hk, if_neg fun hk' ↦ hne (hk'.symm.trans hk), if_pos hk]
    · rw [if_neg hk, if_neg hk]
  | trans h _ ih₁ ih₂ => exact (ih₁ hn).trans (ih₂ ((h.map Prod.fst).nodup_iff.mp hn))

theorem exists_record {names : List String} (hn : names.Nodup)
    (hnames : fields.map Field.name = names) (h : RecordOf fields j) :
    ∃ record, record? names j = some record ∧
      ∀ f ∈ fields, f.Admits (record.lookup f.name) := by
  subst hnames
  cases h with
  | @object choices record hchoices hperm =>
    have hnames := (hperm.map Prod.fst).nodup_iff.mpr ((names_given_sublist _ _).nodup hn)
    have hknown (m : String × Json) (hm : m ∈ record) : m.1 ∈ fields.map Field.name :=
      (names_given_sublist _ _).subset (List.mem_map_of_mem (hperm.mem_iff.mp hm))
    have hfilter : (record.filter fun m ↦ (fields.map Field.name).contains m.1) = record :=
      List.filter_eq_self.mpr fun m hm ↦ List.contains_iff_mem.mpr (hknown m hm)
    refine ⟨record, ?_, fun f hf ↦ ?_⟩
    · simp only [record?, named?_map, Option.bind_eq_bind, Option.bind_some, hfilter, hnames,
        if_true]
    · rw [lookup_perm hperm hnames]
      exact admits_lookup_given hn hchoices f hf
  | @array items omitted hchoices =>
    have hlength := hchoices.length_eq
    rw [List.length_append, List.length_map, List.length_replicate] at hlength
    refine ⟨(fields.map Field.name).zip items, ?_, fun f hf ↦ ?_⟩
    · rw [record?, if_pos]
      rw [List.length_map]
      omega
    · rw [← given_array fields items omitted]
      exact admits_lookup_given hn hchoices f hf

section Fields

variable {name : String} {α β : Type}

theorem field_eq {f : Field} {read : Json → Option α} {missing v : α}
    (h : f.Admits (record.lookup f.name)) (hread : ∀ j, f.Written j → read j = some v)
    (hmissing : f.Absent → missing = v) : field record f.name read missing = some v := by
  unfold field
  cases hj : record.lookup f.name with
  | none =>
    rw [hj] at h
    exact congrArg some (hmissing h)
  | some j =>
    rw [hj] at h
    exact hread j h

theorem field_text {text : Option String}
    (h : (textField name text).Admits (record.lookup name)) :
    field record name text? none = some text := by
  refine field_eq h (fun j hj ↦ ?_) Eq.symm
  cases (show j = textJson text from hj)
  cases text <;> rfl

theorem field_flag {value : Bool} (h : (flagField name value).Admits (record.lookup name)) :
    field record name flag? false = some value := by
  refine field_eq h (fun j hj ↦ ?_) Eq.symm
  cases (show j = .bool value from hj)
  rfl

variable {entryOf : α → Json → Prop} {read : Json → Option β} {build : α → β}
  (hread : ∀ a j, entryOf a j → read j = some (build a))

include hread

theorem table?_eq {entries : List (String × α)} (h : TableOf entryOf entries j) :
    table? read j = some (.ofList (entries.map fun e ↦ (e.1, build e.2))) := by
  obtain ⟨hentries⟩ := h
  have hmap {entries : List (String × α)} {record : Record}
      (h : List.Forall₂ (fun e m ↦ m.1 = e.1 ∧ entryOf e.2 m.2) entries record) :
      (record.mapM fun m ↦ (read m.2).map (m.1, ·)) =
        some (entries.map fun e ↦ (e.1, build e.2)) := by
    induction h with
    | nil => rfl
    | cons he _ ih => simp [ih, hread _ _ he.2, he.1]
  simp only [table?, named?_map, Option.bind_eq_bind, Option.bind_some, hmap hentries]
  rfl

theorem field_table {entries : List (String × α)}
    (h : (tableField name entryOf entries).Admits (record.lookup name)) :
    field record name (table? read) .empty =
      some (.ofList (entries.map fun e ↦ (e.1, build e.2))) := by
  refine field_eq h (fun j hj ↦ table?_eq hread hj) fun hnil ↦ ?_
  cases (show entries = [] from hnil)
  rfl

end Fields

theorem entryOf?_eq (e : Entry) (j : Json) (h : EntryOf e j) : entryOf? j = some e := by
  obtain ⟨record, hrecord, hfields⟩ := exists_record (show entryFields.Nodup by decide) rfl h
  simp only [List.forall_mem_cons] at hfields
  obtain ⟨h₁, h₂, h₃, h₄, h₅, h₆, h₇, h₈, -⟩ := hfields
  simp only [entryOf?, hrecord, field_text h₁, field_text h₂, field_text h₃, field_text h₄,
    field_flag h₅, field_flag h₆, field_text h₇, field_text h₈, Option.bind_eq_bind,
    Option.bind_some]
  rfl

theorem resourceType?_eq (said : Option String × List ResourceType.Call) (j : Json)
    (h : ResourceTypeOf said j) : resourceType? j = some (ResourceType.built said.1 said.2) := by
  obtain ⟨record, hrecord, hfields⟩ :=
    exists_record (show resourceTypeFields.Nodup by decide) rfl h
  simp only [List.forall_mem_cons] at hfields
  obtain ⟨hdocumentation, hproperties, hattributes, -⟩ := hfields
  simp only [resourceType?, hrecord, field_text hdocumentation, field_table entryOf?_eq hproperties,
    field_table entryOf?_eq hattributes, Option.bind_eq_bind, Option.bind_some, List.map_id',
    ResourceType.built_eq]
  rfl

theorem propertyType?_eq (said : Option String × List (String × Entry)) (j : Json)
    (h : PropertyTypeOf said j) : propertyType? j = some (PropertyType.built said.1 said.2) := by
  obtain ⟨record, hrecord, hfields⟩ :=
    exists_record (show propertyTypeFields.Nodup by decide) rfl h
  simp only [List.forall_mem_cons] at hfields
  obtain ⟨hdocumentation, hproperties, -⟩ := hfields
  simp only [propertyType?, hrecord, field_text hdocumentation, field_table entryOf?_eq hproperties,
    Option.bind_eq_bind, Option.bind_some, List.map_id', PropertyType.built_eq]
  rfl

theorem specification?_eq {version : Option String} {calls : List Specification.Call}
    (h : SpecificationOf version calls j) :
    specification? j = some (Specification.built version calls) := by
  obtain ⟨record, hrecord, hfields⟩ :=
    exists_record (show specificationFields.Nodup by decide) rfl h
  simp only [List.forall_mem_cons] at hfields
  obtain ⟨hversion, hresourceTypes, hpropertyTypes, -⟩ := hfields
  simp only [specification?, hrecord, field_text hversion,
    field_table resourceType?_eq hresourceTypes, field_table propertyType?_eq hpropertyTypes,
    Option.bind_eq_bind, Option.bind_some, Specification.built_eq]
  rfl

section Exists

theorem exists_recordOf (h : ∀ f ∈ fields, ∃ j, f.Written j ∧ j.Writable) :
    ∃ j, RecordOf fields j ∧ j.Writable := by
  have hitems : ∃ items : List Json, List.Forall₂ Field.Admits fields (items.map some) ∧
      ∀ j ∈ items, j.Writable := by
    induction fields with
    | nil => exact ⟨[], .nil, List.forall_mem_nil _⟩
    | cons f fields ih =>
      obtain ⟨⟨j, hj, hwritable⟩, hfields⟩ := List.forall_mem_cons.mp h
      obtain ⟨items, hitems, hrest⟩ := ih hfields
      exact ⟨j :: items, .cons hj hitems, List.forall_mem_cons.mpr ⟨hwritable, hrest⟩⟩
  obtain ⟨items, hitems, hwritable⟩ := hitems
  refine ⟨.array items, @RecordOf.array _ items 0 ?_, Json.writable_array hwritable⟩
  rwa [List.replicate_zero, List.append_nil]

theorem exists_textField (name : String) (text : Option String) :
    ∃ j, (textField name text).Written j ∧ j.Writable := by
  refine ⟨textJson text, rfl, ?_⟩
  cases text with
  | none => exact Json.writable_null
  | some text => exact Json.writable_string text

theorem exists_flagField (name : String) (value : Bool) :
    ∃ j, (flagField name value).Written j ∧ j.Writable :=
  ⟨.bool value, rfl, Json.writable_bool value⟩

theorem exists_tableField {α : Type} {entryOf : α → Json → Prop}
    (h : ∀ a, ∃ j, entryOf a j ∧ j.Writable) (name : String) (entries : List (String × α)) :
    ∃ j, (tableField name entryOf entries).Written j ∧ j.Writable := by
  have hrecord : ∃ record : Record,
      List.Forall₂ (fun e m ↦ m.1 = e.1 ∧ entryOf e.2 m.2) entries record ∧
      ∀ m ∈ record, m.2.Writable := by
    induction entries with
    | nil => exact ⟨[], .nil, List.forall_mem_nil _⟩
    | cons e entries ih =>
      obtain ⟨j, hj, hwritable⟩ := h e.2
      obtain ⟨record, hrecord, hrest⟩ := ih
      exact ⟨(e.1, j) :: record, .cons ⟨rfl, hj⟩ hrecord,
        List.forall_mem_cons.mpr ⟨hwritable, hrest⟩⟩
  obtain ⟨record, hrecord, hwritable⟩ := hrecord
  exact ⟨_, .mk hrecord, Json.writable_object hwritable⟩

theorem exists_entryOf (e : Entry) : ∃ j, EntryOf e j ∧ j.Writable :=
  exists_recordOf (by simp [exists_textField, exists_flagField])

theorem exists_resourceTypeOf (said : Option String × List ResourceType.Call) :
    ∃ j, ResourceTypeOf said j ∧ j.Writable :=
  exists_recordOf (by simp [exists_textField, exists_tableField exists_entryOf])

theorem exists_propertyTypeOf (said : Option String × List (String × Entry)) :
    ∃ j, PropertyTypeOf said j ∧ j.Writable :=
  exists_recordOf (by simp [exists_textField, exists_tableField exists_entryOf])

theorem exists_specificationOf (version : Option String) (calls : List Specification.Call) :
    ∃ j, SpecificationOf version calls j ∧ j.Writable :=
  exists_recordOf (by simp [exists_textField, exists_tableField exists_resourceTypeOf,
    exists_tableField exists_propertyTypeOf])

end Exists

end Document

namespace Specification

open Document

/-- Whatever is said call by call can be said in a document. Reading a document that says it, in
whatever way it is written, gives the specification that the calls build: each name stands where it
came first, with what was said of it last. -/
theorem ofText_eq_built (version : Option String) (calls : List Call) :
    (∃ j text, SpecificationOf version calls j ∧ j.Written text) ∧
    ∀ j text, SpecificationOf version calls j → j.Written text →
      ofText text = .ok (built version calls) ∧ Holds version calls (built version calls) := by
  constructor
  · obtain ⟨j, hdocument, hwritable⟩ := exists_specificationOf version calls
    obtain ⟨text, htext⟩ := hwritable.exists_written
    exact ⟨j, text, hdocument, htext⟩
  · intro j text hdocument htext
    refine ⟨?_, holds_built version calls⟩
    rw [ofText, Json.parse?_eq htext, Option.bind_some, specification?_eq hdocument]

def revised : List Call :=
  [.withResourceType "A" none [],
    .withResourceType "A" none [.withAttribute "😀" (Entry.complex "a\n").require]]

def revisedText : String :=
  "[null, \x7b\"\\u0041\": [], \"A\": \x7b\"Attributes\": " ++
    "\x7b\"\\uD83d\\uDE00\": \x7b\"Required\": true, \"Type\": \"a\\n\"\x7d\x7d\x7d\x7d]"

def revisedEntry : Json :=
  .object [(some "Required", .bool true), (some "Type", .string (some "a\n"))]

def revisedTable : Json := .object [(some "😀", revisedEntry)]

def revisedType : Json := .object [(some "Attributes", revisedTable)]

def revisedDocument : Json :=
  .array [.null, .object [(some "A", .array []), (some "A", revisedType)]]

theorem revisedDocument_says : SpecificationOf none revised revisedDocument := by
  have hentry : EntryOf (Entry.complex "a\n").require revisedEntry :=
    @RecordOf.object _
      [some (.string (some "a\n")), none, none, none, some (.bool true), none, none, none]
      [("Required", .bool true), ("Type", .string (some "a\n"))]
      (by repeat' constructor) (.swap _ _ [])
  have htable : TableOf EntryOf [("😀", (Entry.complex "a\n").require)] revisedTable :=
    @TableOf.mk _ _ _ [("😀", revisedEntry)] (.cons ⟨rfl, hentry⟩ .nil)
  have htype : ResourceTypeOf (none, [.withAttribute "😀" (Entry.complex "a\n").require])
      revisedType :=
    @RecordOf.object _ [none, none, some revisedTable] [("Attributes", revisedTable)]
      (.cons rfl (.cons rfl (.cons htable .nil))) (.refl _)
  have hblank : ResourceTypeOf (none, []) (.array []) :=
    @RecordOf.array _ [] 3 (by repeat' constructor)
  exact @RecordOf.array _ [_, _] 1 (.cons rfl (.cons
    (@TableOf.mk _ _ _ [("A", .array []), ("A", revisedType)]
      (.cons ⟨rfl, hblank⟩ (.cons ⟨rfl, htype⟩ .nil))) (.cons rfl .nil)))

open Json in
theorem revisedDocument_written : revisedDocument.Written revisedText := by
  have hplain {text : String}
      (h : text.toList.all fun c ↦ 32 ≤ c.toNat ∧ c ≠ '"' ∧ c ≠ '\\') :
      Lexeme (.string (some text)) ('"' :: (text.toList ++ ['"'])) :=
    .string (.of_plain fun c hc ↦ of_decide_eq_true (List.all_eq_true.mp h c hc))
  have hunit : UnitSpelling 0x41 ['\\', 'u', '0', '0', '4', '1'] :=
    @UnitSpelling.mk 0 0 4 1 _ _ _ _ (.inl rfl) (.inl rfl) (.inl rfl) (.inl rfl)
  have hhigh : UnitSpelling 0xD83D ['\\', 'u', 'D', '8', '3', 'd'] :=
    @UnitSpelling.mk 13 8 3 13 _ _ _ _ (.inr rfl) (.inl rfl) (.inl rfl) (.inl rfl)
  have hlow : UnitSpelling 0xDE00 ['\\', 'u', 'D', 'E', '0', '0'] :=
    @UnitSpelling.mk 13 14 0 0 _ _ _ _ (.inr rfl) (.inr rfl) (.inl rfl) (.inl rfl)
  have hA : Lexeme (.string (some "A")) _ := .string (.cons (.unit hunit) .nil)
  have hface : Lexeme (.string (some "😀")) _ :=
    .string (.cons (@CharSpelling.pair _ 0x3D 0x200 _ _ (by decide) (by decide) rfl hhigh hlow)
      .nil)
  have hline : Lexeme (.string (some "a\n")) _ :=
    .string (.cons (.plain (by decide) (by decide) (by decide))
      (.cons (@CharSpelling.letter 'n' _ (by decide)) .nil))
  have hspace : ' ' ∈ [' ', '\t', '\n', '\r'] := by decide
  have htokens : TokensWritten (tokens revisedDocument) _ :=
    .token .openArray <| .token .null <| .token .comma <| .blank hspace <|
    .token .openObject <| .token hA <| .token .colon <| .blank hspace <|
    .token .openArray <| .token .closeArray <| .token .comma <| .blank hspace <|
    .token (hplain (by decide)) <| .token .colon <| .blank hspace <|
    .token .openObject <| .token (hplain (by decide)) <| .token .colon <| .blank hspace <|
    .token .openObject <| .token hface <| .token .colon <| .blank hspace <|
    .token .openObject <| .token (hplain (by decide)) <| .token .colon <| .blank hspace <|
    .token .yes <| .token .comma <| .blank hspace <|
    .token (hplain (by decide)) <| .token .colon <| .blank hspace <| .token hline <|
    .token .closeObject <| .token .closeObject <| .token .closeObject <| .token .closeObject <|
    .token .closeArray .nil
  exact htokens

theorem ofText_eq_built_revised : ofText revisedText = .ok (built none revised) ∧
    Holds none revised (built none revised) :=
  (ofText_eq_built none revised).2 _ _ revisedDocument_says revisedDocument_written

end Specification

end Provider

end InfraModule
