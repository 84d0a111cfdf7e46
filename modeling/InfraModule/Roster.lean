namespace InfraModule

/-- Members without repetition, in order of arrival. -/
structure Roster (α : Type) where
  toList : List α
  nodup : toList.Nodup

namespace Roster

variable {α : Type}

def empty : Roster α := ⟨[], .nil⟩

instance : Inhabited (Roster α) := ⟨empty⟩

instance : Membership α (Roster α) := ⟨fun r a ↦ a ∈ r.toList⟩

@[ext]
theorem ext {r s : Roster α} (h : r.toList = s.toList) : r = s := by
  cases r
  cases s
  cases h
  rfl

variable [DecidableEq α]

instance : DecidableEq (Roster α) := fun r s ↦
  if h : r.toList = s.toList then .isTrue (ext h) else .isFalse (fun e ↦ h (e ▸ rfl))

def insert (r : Roster α) (a : α) : Roster α :=
  if h : a ∈ r.toList then r
  else ⟨r.toList ++ [a], by
    rw [List.nodup_append]
    refine ⟨r.nodup, by simp, ?_⟩
    intro b hb c hc e
    rw [List.mem_singleton] at hc
    exact h (hc ▸ e ▸ hb)⟩

@[simp]
theorem toList_insert (r : Roster α) (a : α) :
    (r.insert a).toList = if a ∈ r.toList then r.toList else r.toList ++ [a] := by
  unfold insert
  split <;> rfl

theorem mem_insert (r : Roster α) (a b : α) : b ∈ r.insert a ↔ b ∈ r ∨ b = a := by
  change b ∈ (r.insert a).toList ↔ b ∈ r.toList ∨ b = a
  rw [toList_insert]
  split
  next h => exact ⟨.inl, fun hb ↦ hb.elim id (fun e ↦ e ▸ h)⟩
  next => simp

end Roster

end InfraModule
