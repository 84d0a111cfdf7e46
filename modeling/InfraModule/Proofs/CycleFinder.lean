import InfraModule.Graph.Finder
import InfraModule.Proofs.Forest
import InfraModule.Proofs.Loops
import InfraModule.Proofs.Representative

namespace InfraModule.Graph

variable {α β : Type} {next : α → List α} {vertices : List α}

theorem mem_of_leads (hclosed : ∀ a ∈ vertices, ∀ b ∈ next a, b ∈ vertices) {a b : α}
    (ha : a ∈ vertices) (h : Leads next a b) : b ∈ vertices := by
  induction h with
  | refl => exact ha
  | tail _ hbc ih => exact hclosed _ ih _ hbc

namespace Finder

/-- From `f` to `f'` the search has closed `loops` and entered `passed`, and is back where it
was. -/
structure Extends (loops : List (List α)) (passed : List α) (f f' : Finder α) : Prop where
  path : f'.path = f.path
  exhausted : f'.exhausted = f.exhausted
  cycles : f'.cycles = f.cycles ++ loops
  reached : ∀ b, b ∈ f'.reached ↔ b ∈ f.reached ∨ b ∈ passed

theorem exists_foldlM {step : Finder α → α → Option (Finder α)} {loops : α → List (List α)}
    {passed : α → List α} {f : Finder α} {targets : List α}
    (h : ∀ b ∈ targets, ∀ g : Finder α, g.path = f.path → g.exhausted = f.exhausted →
      ∃ g', step g b = some g' ∧ Extends (loops b) (passed b) g g') :
    ∃ f', targets.foldlM step f = some f' ∧
      Extends (targets.flatMap loops) (targets.flatMap passed) f f' := by
  induction targets generalizing f with
  | nil => exact ⟨f, rfl, rfl, rfl, by simp, by simp⟩
  | cons b targets ih =>
    obtain ⟨g, hstep, hg⟩ := h b List.mem_cons_self f rfl rfl
    obtain ⟨f', hfold, hf'⟩ := ih fun c hc k hpath hexhausted ↦
      h c (List.mem_cons_of_mem b hc) k (hpath.trans hg.path) (hexhausted.trans hg.exhausted)
    refine ⟨f', ?_, hf'.path.trans hg.path, hf'.exhausted.trans hg.exhausted, ?_, fun c ↦ ?_⟩
    · rw [List.foldlM_cons, hstep]
      exact hfold
    · rw [hf'.cycles, hg.cycles, List.append_assoc, List.flatMap_cons]
    · rw [hf'.reached, hg.reached, List.flatMap_cons, List.mem_append, or_assoc]

end Finder

variable [DecidableEq α]

def passedFrom (next : α → List α) : ℕ → List α → α → List α
  | 0, _, _ => []
  | depth + 1, path, a =>
    if a ∈ path then [] else a :: (next a).flatMap (passedFrom next depth (path ++ [a]))

theorem leads_of_mem_passedFrom {depth : ℕ} {path : List α} {a b : α}
    (hb : b ∈ passedFrom next depth path a) : Leads next a b := by
  induction depth generalizing path a with
  | zero => cases hb
  | succ depth ih =>
    rw [passedFrom] at hb
    split at hb
    next => cases hb
    next =>
      rcases List.mem_cons.mp hb with rfl | hb
      · exact .refl
      · obtain ⟨c, hc, hb⟩ := List.mem_flatMap.mp hb
        exact .head hc (ih hb)

theorem subset_passedFrom {depth : ℕ} {path rest : List α} {a : α}
    (hc : (a :: rest).IsChain fun a b ↦ b ∈ next a) (hp : (path ++ a :: rest).Nodup)
    (hd : rest.length < depth) : a :: rest ⊆ passedFrom next depth path a := by
  induction rest generalizing depth path a with
  | nil =>
    obtain ⟨depth, rfl⟩ : ∃ d, depth = d + 1 := ⟨depth - 1, by omega⟩
    have ha : a ∉ path := by grind
    rw [passedFrom, if_neg ha]
    exact List.cons_subset_cons a (List.nil_subset _)
  | cons c rest ih =>
    obtain ⟨depth, rfl⟩ : ∃ d, depth = d + 1 := ⟨depth - 1, by omega⟩
    have ha : a ∉ path := by grind
    rw [List.isChain_cons_cons] at hc
    have hrest : c :: rest ⊆ passedFrom next depth (path ++ [a]) c :=
      ih hc.2 (by simpa using hp) (by simpa using hd)
    rw [passedFrom, if_neg ha]
    exact List.cons_subset_cons a fun b hb ↦ List.mem_flatMap.mpr ⟨c, hc.1, hrest hb⟩

theorem mem_passedFrom_iff (hclosed : ∀ a ∈ vertices, ∀ b ∈ next a, b ∈ vertices) {depth : ℕ}
    (hd : vertices.length ≤ depth) {a b : α} (ha : a ∈ vertices) :
    b ∈ passedFrom next depth [] a ↔ Leads next a b := by
  refine ⟨leads_of_mem_passedFrom, fun h ↦ ?_⟩
  obtain ⟨path, v, rfl, hout, hnodup, hchain, hhead⟩ := exists_path_to (S := (· = b)) h rfl
  obtain ⟨rest, hrest⟩ := List.head?_eq_some_iff.mp hhead
  have hnodup : (a :: rest).Nodup := by
    rw [← hrest]
    exact List.nodup_append.mpr ⟨hnodup, by simp, by simpa using hout⟩
  rw [hrest] at hchain
  have hlead : (a :: rest).IsChain (Relation.ReflTransGen fun a b ↦ b ∈ next a) :=
    hchain.imp fun _ _ ↦ .single
  have hsub : a :: rest ⊆ vertices :=
    List.cons_subset.mpr ⟨ha, fun c hc ↦ mem_of_leads hclosed ha (hlead.rel_cons hc)⟩
  have hlen := (hnodup.subperm hsub).length_le
  rw [List.length_cons] at hlen
  have hmem : v ∈ a :: rest := hrest ▸ List.mem_append_right path (List.mem_singleton_self v)
  exact subset_passedFrom hchain hnodup (by omega) hmem

namespace Finder

variable {next? : α → Option (List α)} {f : Finder α} {a : α} {depth : ℕ}
  (hnext : ∀ a ∈ vertices, next? a = some (next a))
  (hclosed : ∀ a ∈ vertices, ∀ b ∈ next a, b ∈ vertices)

include hnext hclosed

/-- A visit that can come to nothing exhausted closes the loops of all paths. The depth is enough,
since a path without repetition is no longer than the list of all vertices. -/
theorem exists_visit (hp : f.path.Nodup) (hsub : f.path ⊆ vertices) (ha : a ∈ vertices)
    (hd : vertices.length < depth + f.path.length)
    (hfresh : ∀ b, Leads next a b → b ∉ f.exhausted) :
    ∃ f', f.visit next? depth a = some f' ∧
      Extends (loopsFrom next depth f.path a) (passedFrom next depth f.path a) f f' := by
  induction depth generalizing f a with
  | zero =>
    have hle := (hp.subperm hsub).length_le
    omega
  | succ depth ih =>
    rw [visit, loopsFrom, passedFrom]
    by_cases hmem : a ∈ f.path
    · rw [if_pos hmem, if_pos hmem, if_pos hmem]
      exact ⟨_, rfl, rfl, rfl, rfl, by simp⟩
    · rw [if_neg hmem, if_neg hmem, if_neg hmem, if_neg (hfresh a .refl), hnext a ha,
        Option.bind_some]
      obtain ⟨g, hfold, hg⟩ : ∃ g, (next a).foldlM (visit next? depth) (f.enter a) = some g ∧
          Extends ((next a).flatMap (loopsFrom next depth (f.path ++ [a])))
            ((next a).flatMap (passedFrom next depth (f.path ++ [a]))) (f.enter a) g := by
        refine exists_foldlM fun b hb g hpath hexhausted ↦ ?_
        change g.path = f.path ++ [a] at hpath
        change g.exhausted = f.exhausted at hexhausted
        rw [← hpath]
        refine ih ?_ ?_ (hclosed a ha b hb) ?_ fun c hc ↦ ?_
        · rw [hpath]
          simpa using hp.concat hmem
        · rw [hpath]
          exact List.append_subset.mpr ⟨hsub, by simpa using ha⟩
        · rw [hpath, List.length_append, List.length_singleton]
          omega
        · rw [hexhausted]
          exact hfresh c (.head hb hc)
      refine ⟨g.leave, by rw [hfold, Option.map_some], ?_, hg.exhausted, hg.cycles, fun b ↦ ?_⟩
      · rw [leave, hg.path, enter, List.dropLast_concat]
      · change b ∈ g.reached ↔ _
        rw [hg.reached, enter, List.mem_insert_iff, List.mem_cons]
        tauto

variable [DecidableEq β] {key : α → β} {seen starts : List α}

structure Between (key : α → β) (loops : α → List (List α)) (seen : List α) (f : Finder α) :
    Prop where
  path : f.path = []
  reached : f.reached = []
  exhausted : ∀ b, b ∈ f.exhausted ↔ key b ∈ seen.map key
  cycles : f.cycles = (representatives key seen).flatMap loops

variable (hkey : ∀ a ∈ vertices, ∀ b, Leads next a b ↔ key b = key a)
  (hd : vertices.length < depth)

include hkey hd

/-- What is exhausted is all that has a key of one of the starts, so a start is passed over exactly
when one with its key went before. -/
theorem Between.exists_explore (h : Between key (loopsFrom next depth []) seen f)
    (ha : a ∈ vertices) : ∃ f', f.explore next? depth a = some f' ∧
      Between key (loopsFrom next depth []) (seen ++ [a]) f' := by
  have hcycles := representatives_concat key seen a
  by_cases hold : key a ∈ seen.map key
  · refine ⟨f, if_pos ((h.exhausted a).mpr hold), h.path, h.reached, fun b ↦ ?_, ?_⟩
    · rw [h.exhausted, List.map_append, List.mem_append]
      refine (or_iff_left_of_imp fun hb ↦ ?_).symm
      exact List.mem_singleton.mp hb ▸ hold
    · rw [h.cycles, hcycles, if_pos hold, List.append_nil]
  · obtain ⟨g, hvisit, hg⟩ : ∃ g, f.visit next? depth a = some g ∧
        Extends (loopsFrom next depth f.path a) (passedFrom next depth f.path a) f g := by
      refine exists_visit hnext hclosed ?_ ?_ ha ?_ fun b hb ↦ ?_
      · simp [h.path]
      · simp [h.path]
      · simpa [h.path] using hd
      · rwa [h.exhausted, (hkey a ha b).mp hb]
    have hpassed (b : α) : b ∈ g.reached ↔ key b = key a := by
      rw [hg.reached, h.reached, h.path, mem_passedFrom_iff hclosed hd.le ha, hkey a ha]
      simp
    refine ⟨g.retire, ?_, hg.path.trans h.path, rfl, fun b ↦ ?_, ?_⟩
    · rw [explore, if_neg ((h.exhausted a).not.mpr hold), hvisit, Option.map_some]
    · change b ∈ g.exhausted ++ g.reached ↔ _
      rw [List.mem_append, hg.exhausted, h.exhausted, hpassed, List.map_append, List.mem_append,
        List.map_singleton, List.mem_singleton]
    · change g.cycles = _
      rw [hg.cycles, h.cycles, h.path, hcycles, if_neg hold, List.flatMap_append,
        List.flatMap_singleton]

theorem Between.exists_foldlM (h : Between key (loopsFrom next depth []) seen f)
    (hstarts : starts ⊆ vertices) : ∃ f', starts.foldlM (explore next? depth) f = some f' ∧
      Between key (loopsFrom next depth []) (seen ++ starts) f' := by
  induction starts generalizing f seen with
  | nil => exact ⟨f, rfl, by rwa [List.append_nil]⟩
  | cons a starts ih =>
    obtain ⟨ha, hstarts⟩ := List.cons_subset.mp hstarts
    obtain ⟨g, hexplore, hg⟩ := h.exists_explore hnext hclosed hkey hd ha
    obtain ⟨f', hfold, hf'⟩ := ih hg hstarts
    refine ⟨f', ?_, by rwa [List.append_cons]⟩
    rw [List.foldlM_cons, hexplore]
    exact hfold

end Finder

/-- Where keys tell which vertices lead to each other, the search closes the loops of all paths from
the first start of each key, and from no other. -/
theorem cycles?_eq_some [DecidableEq β] {next? : α → Option (List α)} {depth : ℕ} {key : α → β}
    {starts : List α} (hnext : ∀ a ∈ vertices, next? a = some (next a))
    (hclosed : ∀ a ∈ vertices, ∀ b ∈ next a, b ∈ vertices)
    (hkey : ∀ a ∈ vertices, ∀ b, Leads next a b ↔ key b = key a) (hd : vertices.length < depth)
    (hstarts : starts ⊆ vertices) : cycles? next? depth starts =
      some ((representatives key starts).flatMap (loopsFrom next depth [])) := by
  have hidle : Finder.Between key (loopsFrom next depth []) [] (.idle : Finder α) :=
    ⟨rfl, rfl, by simp [Finder.idle], rfl⟩
  obtain ⟨f, hfold, hf⟩ := hidle.exists_foldlM hnext hclosed hkey hd hstarts
  rw [cycles?, hfold, Option.map_some, hf.cycles, List.nil_append]

end InfraModule.Graph
