import InfraModule.Registry
import Mathlib.Data.List.Forall2
import Mathlib.Data.List.Induction
import Mathlib.Data.List.Nodup

namespace InfraModule.Registry

variable {α β : Type}

/-- What is filed for entries that come one after the other: each name stands where it came first,
with what came for it last. -/
structure Files (R : α → β → Prop) (entries : List (String × α)) (r : Registry β) : Prop where
  names : r.names = (entries.map Prod.fst).eraseDups
  last (name : String) : Option.Rel R (entries.reverse.lookup name) (r.get? name)

theorem files_ofList {R : α → β → Prop} {build : α → β} (h : ∀ a, R a (build a))
    (entries : List (String × α)) :
    Files R entries (.ofList (entries.map fun e ↦ (e.1, build e.2))) := by
  -- by induction from the end, as the last entry is the last to be filed
  induction entries using List.reverseRecOn with
  | nil => exact ⟨rfl, fun _ ↦ .none⟩
  | append_singleton entries e ih =>
    have hput : ofList ((entries ++ [e]).map fun e ↦ (e.1, build e.2)) =
        (ofList (entries.map fun e ↦ (e.1, build e.2))).put e.1 (build e.2) := by
      simp only [ofList, List.map_append, List.foldl_append, List.map_cons, List.map_nil,
        List.foldl_cons, List.foldl_nil]
    refine ⟨?_, fun name ↦ ?_⟩
    · rw [hput, names_put, ih.names, List.map_append, List.eraseDups_append]
      by_cases hmem : e.1 ∈ entries.map Prod.fst <;>
        simp [List.removeAll, List.eraseDups_cons, -List.mem_map, hmem]
    · rw [hput, get?_put, List.reverse_append, List.reverse_singleton, List.singleton_append,
        lookup_cons_eq]
      by_cases hname : name = e.1
      · rw [if_pos hname, if_pos hname]
        exact .some (h e.2)
      · rw [if_neg hname, if_neg hname]
        exact ih.last name

theorem files_eq_ofList (entries : List (String × α)) : Files Eq entries (.ofList entries) := by
  simpa using files_ofList (fun a ↦ (rfl : a = id a)) entries

def merge (entries : List (String × α)) : List (String × α) :=
  (entries.map Prod.fst).eraseDups.filterMap fun name ↦
    (entries.reverse.lookup name).map (name, ·)

theorem filterMap_lookup {entries : List (String × α)} (h : (entries.map Prod.fst).Nodup) :
    (entries.map Prod.fst).filterMap (fun name ↦ (entries.lookup name).map (name, ·)) =
      entries := by
  induction entries with
  | nil => rfl
  | cons e es ih =>
    rw [List.map_cons, List.nodup_cons] at h
    have hrest : ∀ name ∈ es.map Prod.fst,
        ((e :: es).lookup name).map (name, ·) = (es.lookup name).map (name, ·) := by
      intro name hname
      rw [lookup_cons_eq, if_neg]
      rintro rfl
      exact h.1 hname
    rw [List.map_cons, List.filterMap_cons, lookup_cons_eq, if_pos rfl,
      List.filterMap_congr hrest, ih h.2]
    rfl

theorem get?_ofList (entries : List (String × α)) (name : String) :
    (ofList entries).get? name = entries.reverse.lookup name := by
  have hrel := (files_eq_ofList entries).last name
  generalize entries.reverse.lookup name = given, (ofList entries).get? name = filed at hrel
  cases hrel with
  | none => rfl
  | some heq => rw [heq]

theorem entries_ofList (entries : List (String × α)) :
    (ofList entries).entries = merge entries := by
  rw [← filterMap_lookup (ofList entries).nodup, merge, ← (files_eq_ofList entries).names, names]
  refine List.filterMap_congr fun name _ ↦ ?_
  rw [← get?_ofList, get?]

theorem mem_values_ofList {entries : List (String × α)} {v : α} :
    v ∈ (ofList entries).values ↔ ∃ name, entries.reverse.lookup name = some v := by
  simp only [values, entries_ofList, merge, List.mem_map, List.mem_filterMap, List.mem_eraseDups]
  constructor
  · intro ⟨e, ⟨name, _, hlast⟩, he⟩
    obtain ⟨u, hu, rfl⟩ := Option.map_eq_some_iff.mp hlast
    exact ⟨name, by rw [hu, ← he]⟩
  · intro ⟨name, hlast⟩
    have hname : name ∈ entries.reverse.map Prod.fst := isSome_lookup_iff.mp (by simp [hlast])
    exact ⟨(name, v), ⟨name, by simpa using hname, by rw [hlast]; rfl⟩, rfl⟩

theorem mem_values_ofList_cons {entries : List (String × α)} {name : String} {value v : α} :
    v ∈ (ofList ((name, value) :: entries)).values ↔
      name ∉ entries.map Prod.fst ∧ v = value ∨ v ∈ (ofList entries).values := by
  have hnone : entries.reverse.lookup name = none ↔ name ∉ entries.map Prod.fst := by
    rw [← Option.not_isSome_iff_eq_none, isSome_lookup_iff, List.map_reverse, List.mem_reverse]
  rw [mem_values_ofList, mem_values_ofList, ← hnone]
  simp only [List.reverse_cons, List.lookup_append, Option.or_eq_some_iff, lookup_cons_eq,
    List.lookup_nil]
  constructor
  · intro ⟨other, h⟩
    rcases h with h | ⟨h, hv⟩
    · exact .inr ⟨other, h⟩
    · split at hv
      next heq =>
        subst heq
        exact .inl ⟨h, (Option.some.inj hv).symm⟩
      next => cases hv
  · intro h
    rcases h with ⟨h, rfl⟩ | ⟨other, h⟩
    · exact ⟨name, .inr ⟨h, if_pos rfl⟩⟩
    · exact ⟨other, .inl h⟩

theorem lookup_forall₂ {f : α → Option β} {as : List (String × α)} {bs : List (String × β)}
    (h : List.Forall₂ (fun a b ↦ a.1 = b.1 ∧ f a.2 = some b.2) as bs) (name : String) :
    Option.Rel (fun a b ↦ f a = some b) (as.lookup name) (bs.lookup name) := by
  induction h with
  | nil => exact .none
  | @cons a b as bs hab _ ih =>
    rw [lookup_cons_eq, lookup_cons_eq, hab.1]
    split
    next => exact .some hab.2
    next => exact ih

theorem mapM_filterMap {γ δ : Type} {f : γ → Option α} {g : γ → Option δ} {read : α → Option δ}
    (h : ∀ c, Option.Rel (fun a b ↦ read a = some b) (f c) (g c)) (cs : List γ) :
    (cs.filterMap f).mapM read = some (cs.filterMap g) := by
  induction cs with
  | nil => rfl
  | cons c cs ih =>
    have hc := h c
    rw [List.filterMap_cons, List.filterMap_cons]
    generalize f c = a, g c = b at hc
    cases hc with
    | none => exact ih
    | some hread => simp [hread, ih]

theorem mapM_merge {f : α → Option β} {as : List (String × α)} {bs : List (String × β)}
    (h : List.Forall₂ (fun a b ↦ a.1 = b.1 ∧ f a.2 = some b.2) as bs) :
    (merge as).mapM (fun a ↦ (f a.2).map (a.1, ·)) = some (merge bs) := by
  have hnames : as.map Prod.fst = bs.map Prod.fst := by
    induction h with
    | nil => rfl
    | cons hab _ ih => rw [List.map_cons, List.map_cons, hab.1, ih]
  rw [merge, merge, hnames]
  refine mapM_filterMap (fun name ↦ ?_) _
  have hlast := lookup_forall₂ (List.rel_reverse h) name
  generalize as.reverse.lookup name = a, bs.reverse.lookup name = b at hlast
  cases hlast with
  | none => exact .none
  | some hread => exact .some (by rw [hread]; rfl)

end InfraModule.Registry
