import InfraModule.Graph.Component
import InfraModule.Proofs.Reachability

namespace InfraModule.Graph

variable {α : Type} {next : α → List α} {vertices starts : List α}

theorem Reaches.trans {a b : α} (ha : Reaches next vertices starts a)
    (hb : Reaches next vertices [a] b) : Reaches next vertices starts b := by
  induction hb with
  | start hs hv =>
    rw [List.mem_singleton] at hs
    exact hs ▸ ha
  | step _ hc hv ih => exact ih.step hc hv

theorem Reaches.self {a : α} (ha : a ∈ vertices) : Reaches next vertices [a] a :=
  .start (List.mem_singleton_self a) ha

theorem Reaches.edge {a b : α} (ha : a ∈ vertices) (hb : b ∈ next a) (hv : b ∈ vertices) :
    Reaches next vertices [a] b := (Reaches.self ha).step hb hv

def Mutual (next : α → List α) (vertices : List α) (a b : α) : Prop :=
  Reaches next vertices [a] b ∧ Reaches next vertices [b] a

theorem Mutual.symm {a b : α} (h : Mutual next vertices a b) : Mutual next vertices b a :=
  ⟨h.2, h.1⟩

theorem Mutual.trans {a b c : α} (h : Mutual next vertices a b) (h' : Mutual next vertices b c) :
    Mutual next vertices a c := ⟨h.1.trans h'.1, h'.2.trans h.2⟩

end InfraModule.Graph
