namespace InfraModule

section Lookup

variable {κ α : Type} [DecidableEq κ]

theorem lookup_cons_eq (k : κ) (v : α) (es : List (κ × α)) (key : κ) :
    ((k, v) :: es).lookup key = if key = k then some v else es.lookup key := by
  rw [List.lookup_cons]
  by_cases h : key = k
  · simp [h]
  · simp [h, beq_false_of_ne h]

theorem isSome_lookup_iff {es : List (κ × α)} {key : κ} :
    (es.lookup key).isSome ↔ key ∈ es.map Prod.fst := by
  induction es with
  | nil => simp
  | cons e es ih =>
    rw [lookup_cons_eq, List.map_cons, List.mem_cons]
    split <;> simp [*]

end Lookup

/-- Values filed under names, in order of first arrival. -/
structure Registry (α : Type) where
  entries : List (String × α)
  nodup : (entries.map Prod.fst).Nodup

namespace Registry

variable {α : Type}

def empty : Registry α := ⟨[], .nil⟩

instance : Inhabited (Registry α) := ⟨empty⟩

@[ext]
theorem ext {r s : Registry α} (h : r.entries = s.entries) : r = s := by
  cases r
  cases s
  cases h
  rfl

instance [DecidableEq α] : DecidableEq (Registry α) := fun r s ↦
  if h : r.entries = s.entries then .isTrue (ext h) else .isFalse (fun e ↦ h (e ▸ rfl))

def names (r : Registry α) : List String := r.entries.map Prod.fst

def values (r : Registry α) : List α := r.entries.map Prod.snd

def size (r : Registry α) : Nat := r.entries.length

def get? (r : Registry α) (name : String) : Option α := r.entries.lookup name

def contains (r : Registry α) (name : String) : Bool := r.names.contains name

def overwrite (name : String) (value : α) (entries : List (String × α)) : List (String × α) :=
  entries.map fun e ↦ if e.1 = name then (name, value) else e

theorem map_fst_overwrite (name : String) (value : α) (entries : List (String × α)) :
    (overwrite name value entries).map Prod.fst = entries.map Prod.fst := by
  simp only [overwrite, List.map_map, List.map_inj_left]
  intro e _
  by_cases h : e.1 = name <;> simp [h]

theorem nodup_append_name {entries : List (String × α)} {name : String} (value : α)
    (hn : (entries.map Prod.fst).Nodup) (h : name ∉ entries.map Prod.fst) :
    ((entries ++ [(name, value)]).map Prod.fst).Nodup := by
  rw [List.map_append, List.nodup_append]
  refine ⟨hn, by simp, ?_⟩
  intro a ha b hb
  simp only [List.map_cons, List.map_nil, List.mem_singleton] at hb
  subst hb
  exact fun e ↦ h (e ▸ ha)

/-- The last value filed under a name stands at the name's first place. -/
def put (r : Registry α) (name : String) (value : α) : Registry α :=
  if h : name ∈ r.entries.map Prod.fst then
    ⟨overwrite name value r.entries, (map_fst_overwrite name value r.entries).symm ▸ r.nodup⟩
  else
    ⟨r.entries ++ [(name, value)], nodup_append_name value r.nodup h⟩

/-- The first value filed under a name stays. -/
def add (r : Registry α) (name : String) (value : α) : Registry α :=
  if h : name ∈ r.entries.map Prod.fst then r
  else ⟨r.entries ++ [(name, value)], nodup_append_name value r.nodup h⟩

def ofList (entries : List (String × α)) : Registry α :=
  entries.foldl (fun r e ↦ r.put e.1 e.2) empty

@[simp]
theorem entries_empty : (empty : Registry α).entries = [] := rfl

@[simp]
theorem get?_empty (name : String) : (empty : Registry α).get? name = none := rfl

theorem names_put (r : Registry α) (name : String) (value : α) :
    (r.put name value).names = if name ∈ r.names then r.names else r.names ++ [name] := by
  unfold put names
  split
  · simp only [map_fst_overwrite]
  · simp

theorem names_add (r : Registry α) (name : String) (value : α) :
    (r.add name value).names = if name ∈ r.names then r.names else r.names ++ [name] := by
  unfold add names
  split <;> simp

theorem lookup_append_name {entries : List (String × α)} {name : String} (value : α)
    (h : name ∉ entries.map Prod.fst) (other : String) :
    (entries ++ [(name, value)]).lookup other =
      if other = name then some value else entries.lookup other := by
  induction entries with
  | nil => rw [List.nil_append, lookup_cons_eq]
  | cons e es ih =>
    rw [List.map_cons, List.mem_cons, not_or] at h
    rw [List.cons_append, lookup_cons_eq, lookup_cons_eq, ih h.2]
    by_cases ho : other = name
    · simp [ho, h.1]
    · simp [ho]

theorem lookup_overwrite (entries : List (String × α)) (name : String) (value : α)
    (other : String) :
    (overwrite name value entries).lookup other =
      if other = name then (entries.lookup name).map (fun _ ↦ value) else entries.lookup other := by
  induction entries with
  | nil => by_cases ho : other = name <;> simp [overwrite, ho]
  | cons e es ih =>
    have hc : overwrite name value (e :: es) =
        ((if e.1 = name then name else e.1, if e.1 = name then value else e.2) ::
          overwrite name value es) := by
      by_cases he : e.1 = name <;> simp [overwrite, he]
    rw [hc, lookup_cons_eq, ih, lookup_cons_eq, lookup_cons_eq]
    by_cases he : e.1 = name
    · by_cases ho : other = name <;> simp [he, ho]
    · by_cases ho : other = name
      · simp [he, ho, Ne.symm he]
      · simp [he, ho]

theorem get?_put (r : Registry α) (name : String) (value : α) (other : String) :
    (r.put name value).get? other = if other = name then some value else r.get? other := by
  unfold put get?
  split
  next h =>
    obtain ⟨v, hv⟩ := Option.isSome_iff_exists.1 (isSome_lookup_iff.2 h)
    rw [lookup_overwrite, hv, Option.map_some]
  next h => exact lookup_append_name value h other

theorem get?_add (r : Registry α) (name : String) (value : α) (other : String) :
    (r.add name value).get? other =
      if other = name then some ((r.get? name).getD value) else r.get? other := by
  unfold add get?
  split
  next h =>
    obtain ⟨v, hv⟩ := Option.isSome_iff_exists.1 (isSome_lookup_iff.2 h)
    by_cases ho : other = name <;> simp [ho, hv]
  next h =>
    have hn : r.entries.lookup name = none := by
      rw [← Option.not_isSome_iff_eq_none, isSome_lookup_iff]
      exact h
    rw [hn, Option.getD_none]
    exact lookup_append_name value h other

theorem contains_iff (r : Registry α) (name : String) :
    r.contains name = true ↔ (r.get? name).isSome := by
  unfold contains names get?
  rw [isSome_lookup_iff, List.contains_iff_mem]

end Registry

end InfraModule
