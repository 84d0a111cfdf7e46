import InfraModule.Proofs.Component
import InfraModule.Registry
import Mathlib.Data.List.Flatten
import Mathlib.Data.List.Nodup
import Mathlib.Order.Lattice

namespace InfraModule.Graph

variable {α : Type} [DecidableEq α]

theorem lookup_map_const {β : Type} (x : β) (as : List α) (a : α) :
    (as.map (·, x)).lookup a = if a ∈ as then some x else none := by
  induction as with
  | nil => rfl
  | cons b as ih =>
    rw [List.map_cons, lookup_cons_eq, ih]
    by_cases h : a = b <;> simp [h]

theorem dropWhile_ne_append_cons {as bs : List α} {a : α} (ha : a ∉ as) :
    (as ++ a :: bs).dropWhile (· ≠ a) = a :: bs := by
  induction as with
  | nil => simp
  | cons b as ih =>
    rw [List.mem_cons, not_or] at ha
    rw [List.cons_append, List.dropWhile_cons_of_pos (by simpa using Ne.symm ha.1), ih ha.2]

theorem dropWhile_ne_of_mem {path : List α} {a : α} (ha : a ∈ path) :
    ∃ as bs, path = as ++ a :: bs ∧ path.dropWhile (· ≠ a) = a :: bs := by
  obtain ⟨as, bs, rfl, hnot⟩ := List.eq_append_cons_of_mem ha
  exact ⟨as, bs, rfl, dropWhile_ne_append_cons hnot⟩

namespace Search

variable {next : α → List α} {vertices starts successors : List α} {s : Search α} {a b : α}
  {b? : Option α}

def Known (s : Search α) (a : α) : Prop := (s.index.lookup a).isSome

def Done (s : Search α) (a : α) : Prop := (s.component.lookup a).isSome

def number (s : Search α) (a : α) : ℕ := (s.index.lookup a).getD 0

/-- What holds of numbers and components, whatever way the search is on. -/
structure Sound (next : α → List α) (vertices starts : List α) (s : Search α) : Prop where
  number_lt : ∀ a, s.Known a → s.number a < s.index.length
  known : ∀ a, s.Known a ↔ a ∈ s.pending ∨ s.Done a
  apart : ∀ a ∈ s.pending, ¬ s.Done a
  sorted : s.pending.Pairwise fun a b ↦ s.number b < s.number a
  reached : ∀ a, s.Known a → Reaches next vertices starts a
  closed : ∀ a, s.Done a → ∀ b ∈ next a, b ∈ vertices → s.Done b
  component : ∀ a k, s.component.lookup a = some k →
    ∀ b, s.component.lookup b = some k ↔ Mutual next vertices a b
  count : ∀ a k, s.component.lookup a = some k → k < s.count
  nodup : (s.component.map Prod.fst).Nodup

def way (s : Search α) : List α := s.frames.map Frame.vertex

/-- How the way runs through the pending vertices. -/
structure Trail (next : α → List α) (vertices : List α) (number : α → ℕ) (pending way : List α) :
    Prop where
  subset : way ⊆ pending
  descending : way.Pairwise fun a b ↦ number b < number a
  covered : ∀ v ∈ pending, ∃ a ∈ way, number a ≤ number v
  down : ∀ a ∈ way, ∀ v ∈ pending, number a ≤ number v → Reaches next vertices [a] v
  returns : ∀ v ∈ pending, v ∉ way →
    ∃ u ∈ pending, number u < number v ∧ Reaches next vertices [v] u

/-- What a frame says of its vertex. Its low number bounds every edge looked at that begins at the
vertex, or at one that was come to from there and left again. -/
structure Fits (next : α → List α) (vertices : List α) (number : α → ℕ) (pending way : List α)
    (f : Frame α) : Prop where
  targets : ∀ c ∈ f.targets, c ∈ next f.vertex ∧ c ∈ vertices
  low_le : f.low ≤ number f.vertex
  low_reached : ∃ u ∈ pending, number u = f.low ∧ Reaches next vertices [f.vertex] u
  low_bound : ∀ v ∈ pending, ∀ w ∈ pending, w ∈ next v → number f.vertex ≤ number v →
    (∀ x ∈ way, number f.vertex < number x → number v < number x) →
    (v = f.vertex → w ∉ f.targets) → f.low ≤ number w

/-- What holds of the way that the search is on. `b?` is the vertex that was named and remains to be
entered. -/
structure OnWay (next : α → List α) (vertices : List α) (b? : Option α) (s : Search α) : Prop where
  trail : Trail next vertices s.number s.pending s.way
  fits : ∀ f ∈ s.frames, Fits next vertices s.number s.pending s.way f
  looked : ∀ v, s.Known v → ∀ c ∈ next v, c ∈ vertices →
    s.Known c ∨ c ∈ b? ∨ ∃ f ∈ s.frames, f.vertex = v ∧ c ∈ f.targets
  named : ∀ b ∈ b?, b ∈ vertices ∧ ¬ s.Known b ∧ ∀ a ∈ s.way, Reaches next vertices [a] b

theorem Sound.known_of_pending (hs : Sound next vertices starts s) (ha : a ∈ s.pending) :
    s.Known a := (hs.known a).mpr (.inl ha)

theorem Sound.mem_of_pending (hs : Sound next vertices starts s) (ha : a ∈ s.pending) :
    a ∈ vertices := (hs.reached a (hs.known_of_pending ha)).mem

theorem Sound.withFrames (hs : Sound next vertices starts s) (frames : List (Frame α)) :
    Sound next vertices starts { s with frames := frames } :=
  ⟨hs.number_lt, hs.known, hs.apart, hs.sorted, hs.reached, hs.closed, hs.component, hs.count,
    hs.nodup⟩

theorem Sound.done_of_reaches (hs : Sound next vertices starts s) (ha : s.Done a)
    (h : Reaches next vertices [a] b) : s.Done b := by
  induction h with
  | start hmem _ => rwa [List.mem_singleton.mp hmem]
  | step _ hvw hmem ih => exact hs.closed _ ih _ hvw hmem

theorem number_eq_of_lookup {i : ℕ} (h : s.index.lookup a = some i) : s.number a = i := by
  rw [number, h, Option.getD_some]

theorem lookup_eq_some_iff (ha : s.Known a) {i : ℕ} :
    s.index.lookup a = some i ↔ s.number a = i := by
  obtain ⟨j, hj⟩ := Option.isSome_iff_exists.mp ha
  rw [number, hj, Option.getD_some, Option.some_inj]

section Enter

theorem lookup_enter (s : Search α) (a b : α) :
    (s.enter vertices b successors).index.lookup a =
      if a = b then some s.index.length else s.index.lookup a := lookup_cons_eq ..

theorem known_enter : (s.enter vertices b successors).Known a ↔ a = b ∨ s.Known a := by
  unfold Known
  rw [lookup_enter]
  split <;> simp [*]

theorem number_enter_self : (s.enter vertices b successors).number b = s.index.length := by
  rw [number, lookup_enter, if_pos rfl, Option.getD_some]

theorem number_enter_of_ne (h : a ≠ b) :
    (s.enter vertices b successors).number a = s.number a := by
  rw [number, lookup_enter, if_neg h, number]

theorem Sound.ne_of_pending (hs : Sound next vertices starts s) (hb : ¬ s.Known b)
    (ha : a ∈ s.pending) : a ≠ b := fun h ↦ hb (h ▸ hs.known_of_pending ha)

theorem Sound.enter (hs : Sound next vertices starts s) (hb : ¬ s.Known b)
    (hr : Reaches next vertices starts b) :
    Sound next vertices starts (s.enter vertices b successors) where
  number_lt a ha := by
    change _ < s.index.length + 1
    by_cases hab : a = b
    · rw [hab, number_enter_self]
      omega
    · rw [number_enter_of_ne hab]
      have hlt := hs.number_lt a ((known_enter.mp ha).resolve_left hab)
      omega
  known a := by
    rw [known_enter, hs.known]
    change _ ↔ a ∈ b :: s.pending ∨ s.Done a
    rw [List.mem_cons, or_assoc]
  apart a ha := by
    rcases List.mem_cons.mp ha with rfl | ha
    · exact fun hdone ↦ hb ((hs.known a).mpr (.inr hdone))
    · exact hs.apart a ha
  sorted := by
    refine List.pairwise_cons.mpr ⟨fun a ha ↦ ?_, hs.sorted.imp_of_mem fun {a c} ha hc h ↦ ?_⟩
    · rw [number_enter_self, number_enter_of_ne (hs.ne_of_pending hb ha)]
      exact hs.number_lt a (hs.known_of_pending ha)
    · rwa [number_enter_of_ne (hs.ne_of_pending hb ha), number_enter_of_ne (hs.ne_of_pending hb hc)]
  reached a ha := by
    rcases known_enter.mp ha with rfl | ha
    · exact hr
    · exact hs.reached a ha
  closed := hs.closed
  component := hs.component
  count := hs.count
  nodup := hs.nodup

end Enter

section Complete

theorem Sound.exists_split (hs : Sound next vertices starts s) (ha : a ∈ s.pending) :
    ∃ as bs, s.pending = as ++ a :: bs ∧
      s.complete a = { s with
        pending := bs
        component := (as ++ [a]).map (·, s.count) ++ s.component
        count := s.count + 1 } ∧
      (∀ v, v ∈ as ++ [a] ↔ v ∈ s.pending ∧ s.number a ≤ s.number v) ∧
      ∀ v, v ∈ bs ↔ v ∈ s.pending ∧ s.number v < s.number a := by
  obtain ⟨as, bs, hpending, hdrop⟩ := dropWhile_ne_of_mem ha
  have htake : s.pending.takeWhile (· ≠ a) = as := by
    have h := List.takeWhile_append_dropWhile (p := (· ≠ a)) (l := s.pending)
    rw [hdrop] at h
    exact List.append_cancel_right (h.trans hpending)
  obtain ⟨-, hafter, hbefore⟩ := List.pairwise_append.mp (hpending ▸ hs.sorted)
  have hafter := (List.pairwise_cons.mp hafter).1
  refine ⟨as, bs, hpending, by simp only [complete, htake, hdrop, List.tail_cons], ?_, ?_⟩
  · intro v
    rw [hpending, List.mem_append, List.mem_append, List.mem_singleton, List.mem_cons]
    have hv := hbefore v
    grind
  · intro v
    rw [hpending, List.mem_append, List.mem_cons]
    have hv := hbefore v
    grind

theorem Sound.lookup_complete (hs : Sound next vertices starts s) (ha : a ∈ s.pending) (v : α) :
    (s.complete a).component.lookup v =
      if v ∈ s.pending ∧ s.number a ≤ s.number v then some s.count
      else s.component.lookup v := by
  obtain ⟨as, bs, -, hcomplete, hmembers, -⟩ := hs.exists_split ha
  rw [hcomplete, List.lookup_append, lookup_map_const]
  simp only [hmembers]
  split <;> rfl

theorem Sound.done_complete (hs : Sound next vertices starts s) (ha : a ∈ s.pending) (v : α) :
    (s.complete a).Done v ↔ v ∈ s.pending ∧ s.number a ≤ s.number v ∨ s.Done v := by
  rw [Done, hs.lookup_complete ha]
  split
  next h => exact iff_of_true rfl (.inl h)
  next h => exact (or_iff_right h).symm

theorem Sound.nodup_complete (hs : Sound next vertices starts s) (ha : a ∈ s.pending) :
    ((s.complete a).component.map Prod.fst).Nodup := by
  obtain ⟨as, bs, hpending, hcomplete, hmembers, -⟩ := hs.exists_split ha
  have hnodup : (as ++ [a]).Nodup := by
    have h : s.pending.Nodup := hs.sorted.imp fun {v w} h e ↦ by simp [e] at h
    rw [hpending, List.append_cons] at h
    exact h.of_append_left
  rw [hcomplete, List.map_append, List.map_map, List.nodup_append]
  refine ⟨by simpa [Function.comp_def] using hnodup, hs.nodup, fun v hv w hw e ↦ ?_⟩
  have hv : v ∈ as ++ [a] := by simpa [Function.comp_def] using hv
  exact hs.apart v ((hmembers v).mp hv).1 (isSome_lookup_iff.mpr (e ▸ hw))

/-- What has come since a vertex is taken out as one component if it is one. -/
theorem Sound.complete (hs : Sound next vertices starts s) (ha : a ∈ s.pending)
    (hmutual : ∀ x y, x ∈ s.pending → s.number a ≤ s.number x →
      (Mutual next vertices x y ↔ y ∈ s.pending ∧ s.number a ≤ s.number y))
    (hclosed : ∀ x y, x ∈ s.pending → s.number a ≤ s.number x → Reaches next vertices [x] y →
      y ∈ s.pending ∧ s.number a ≤ s.number y ∨ s.Done y) :
    Sound next vertices starts (s.complete a) := by
  obtain ⟨as, bs, hpending, hcomplete, -, hrest⟩ := hs.exists_split ha
  replace hrest (v : α) :
      v ∈ (s.complete a).pending ↔ v ∈ s.pending ∧ s.number v < s.number a := by
    rw [hcomplete]
    exact hrest v
  refine ⟨hs.number_lt, fun v ↦ ?_, fun v hv ↦ ?_, ?_, hs.reached, fun v hv w hvw hmem ↦ ?_,
    fun v k hk w ↦ ?_, fun v k hk ↦ ?_, hs.nodup_complete ha⟩
  · rw [hs.done_complete ha, hrest]
    refine (hs.known v).trans ?_
    have hlt := Nat.lt_or_ge (s.number v) (s.number a)
    tauto
  · obtain ⟨hv, hlt⟩ := (hrest v).mp hv
    rw [hs.done_complete ha, not_or]
    exact ⟨fun h ↦ absurd h.2 hlt.not_ge, hs.apart v hv⟩
  · have hsublist : (s.complete a).pending.Sublist s.pending := by
      rw [hcomplete, hpending]
      exact (List.sublist_cons_self a bs).trans (List.sublist_append_right as _)
    exact hs.sorted.sublist hsublist
  · rw [hs.done_complete ha] at hv ⊢
    rcases hv with ⟨hv, hle⟩ | hv
    · exact hclosed v w hv hle (.edge (hs.mem_of_pending hv) hvw hmem)
    · exact .inr (hs.closed v hv w hvw hmem)
  · rw [hs.lookup_complete ha] at hk ⊢
    by_cases hv : v ∈ s.pending ∧ s.number a ≤ s.number v
    · rw [if_pos hv, Option.some_inj] at hk
      rw [hmutual v w hv.1 hv.2, ← hk]
      split
      next hw => exact iff_of_true rfl hw
      next hw => exact iff_of_false (fun h ↦ Nat.lt_irrefl _ (hs.count w _ h)) hw
    · rw [if_neg hv] at hk
      split
      next hw =>
        refine iff_of_false (fun h ↦ ?_) fun h ↦ ?_
        · exact Nat.lt_irrefl _ (Option.some.inj h ▸ hs.count v k hk)
        · refine hs.apart w hw.1 (hs.done_of_reaches ?_ h.1)
          rw [Done, hk]
          rfl
      next => exact hs.component v k hk w
  · rw [hs.lookup_complete ha] at hk
    split at hk
    next => exact Option.some.inj hk ▸ Nat.lt_succ_self _
    next => exact (hs.count v k hk).trans (Nat.lt_succ_self _)

end Complete

section Way

variable {number number' : α → ℕ} {pending way : List α}
  (hnum : ∀ v ∈ pending, number' v = number v) (hlt : ∀ v ∈ pending, number v < number' b)

include hnum hlt

omit [DecidableEq α] in
theorem Trail.push (h : Trail next vertices number pending way) (hmem : b ∈ vertices)
    (hreach : ∀ a ∈ way, Reaches next vertices [a] b) :
    Trail next vertices number' (b :: pending) (b :: way) := by
  have hway (a : α) (ha : a ∈ way) := hnum a (h.subset ha)
  refine ⟨List.cons_subset_cons b h.subset, List.pairwise_cons.mpr ⟨?_, ?_⟩,
    List.forall_mem_cons.mpr ⟨⟨b, List.mem_cons_self, Nat.le_refl _⟩, ?_⟩,
    List.forall_mem_cons.mpr ⟨List.forall_mem_cons.mpr ⟨fun _ ↦ .self hmem, ?_⟩, fun a ha ↦
      List.forall_mem_cons.mpr ⟨fun _ ↦ hreach a ha, ?_⟩⟩,
    List.forall_mem_cons.mpr ⟨fun hno ↦ absurd List.mem_cons_self hno, ?_⟩⟩
  · intro a ha
    rw [hway a ha]
    exact hlt a (h.subset ha)
  · refine h.descending.imp_of_mem fun ha hc hac ↦ ?_
    rwa [hway _ ha, hway _ hc]
  · intro v hv
    obtain ⟨a, ha, hle⟩ := h.covered v hv
    refine ⟨a, List.mem_cons_of_mem b ha, ?_⟩
    rwa [hway a ha, hnum v hv]
  · intro v hv hle
    rw [hnum v hv] at hle
    exact absurd hle (hlt v hv).not_ge
  · intro v hv hle
    rw [hway a ha, hnum v hv] at hle
    exact h.down a ha v hv hle
  · intro v hv hno
    obtain ⟨u, hu, huv, hvu⟩ := h.returns v hv fun hvw ↦ hno (List.mem_cons_of_mem b hvw)
    refine ⟨u, List.mem_cons_of_mem b hu, ?_, hvu⟩
    rwa [hnum u hu, hnum v hv]

theorem Fits.top (hmem : b ∈ vertices) (hpending : ∀ v ∈ pending, v ∈ vertices) :
    Fits next vertices number' (b :: pending) (b :: way)
      ⟨b, number' b, (next b).filter (· ∈ vertices)⟩ := by
  refine ⟨fun c hc ↦ by rwa [List.mem_filter, decide_eq_true_iff] at hc, Nat.le_refl _,
    ⟨b, List.mem_cons_self, rfl, .self hmem⟩, fun v hv w hw hvw hle _ htarget ↦ ?_⟩
  rcases List.mem_cons.mp hv with rfl | hv
  · refine absurd ?_ (htarget rfl)
    rw [List.mem_filter, decide_eq_true_iff]
    exact ⟨hvw, List.forall_mem_cons.mpr ⟨hmem, hpending⟩ w hw⟩
  · rw [hnum v hv] at hle
    exact absurd hle (hlt v hv).not_ge

omit [DecidableEq α] in
theorem Fits.push {f : Frame α} (h : Fits next vertices number pending way f)
    (hf : f.vertex ∈ way) (hsub : way ⊆ pending) :
    Fits next vertices number' (b :: pending) (b :: way) f := by
  have hfnum := hnum f.vertex (hsub hf)
  refine ⟨h.targets, hfnum ▸ h.low_le, ?_, fun v hv w hw hvw hle habove htarget ↦ ?_⟩
  · obtain ⟨u, hu, hlow, hfu⟩ := h.low_reached
    exact ⟨u, List.mem_cons_of_mem b hu, (hnum u hu).trans hlow, hfu⟩
  rw [hfnum] at hle habove
  have hvb := habove b List.mem_cons_self (hlt f.vertex (hsub hf))
  have hv : v ∈ pending := by
    refine (List.mem_cons.mp hv).resolve_left fun hvb' ↦ ?_
    rw [hvb'] at hvb
    exact Nat.lt_irrefl _ hvb
  rcases List.mem_cons.mp hw with rfl | hw
  · exact (h.low_le.trans_lt (hlt f.vertex (hsub hf))).le
  · rw [hnum w hw]
    rw [hnum v hv] at hle habove
    refine h.low_bound v hv w hw hvw hle (fun x hx hfx ↦ ?_) htarget
    have hvx := habove x (List.mem_cons_of_mem b hx)
    rw [hnum x (hsub hx)] at hvx
    exact hvx hfx

omit hnum hlt in
theorem OnWay.enter (hs : Sound next vertices starts s) (hw : OnWay next vertices (some b) s) :
    OnWay next vertices none (s.enter vertices b (next b)) := by
  obtain ⟨hmem, hb, hreach⟩ := hw.named b rfl
  have htop : (s.enter vertices b (next b)).number b = s.index.length := number_enter_self
  have hnum (v : α) (hv : v ∈ s.pending) :
      (s.enter vertices b (next b)).number v = s.number v :=
    number_enter_of_ne (hs.ne_of_pending hb hv)
  have hlt (v : α) (hv : v ∈ s.pending) :
      s.number v < (s.enter vertices b (next b)).number b :=
    htop ▸ hs.number_lt v (hs.known_of_pending hv)
  refine ⟨hw.trail.push hnum hlt hmem hreach, List.forall_mem_cons.mpr ⟨?_, fun f hf ↦
    (hw.fits f hf).push hnum hlt (List.mem_map_of_mem hf) hw.trail.subset⟩, ?_, by simp⟩
  · have h : Fits next vertices _ (b :: s.pending) (b :: s.way) _ :=
      .top hnum hlt hmem fun v ↦ hs.mem_of_pending
    rwa [htop] at h
  · intro v hv c hc hcv
    rw [known_enter] at hv ⊢
    rcases hv with rfl | hv
    · refine .inr (.inr ⟨_, List.mem_cons_self, rfl, ?_⟩)
      rw [List.mem_filter, decide_eq_true_iff]
      exact ⟨hc, hcv⟩
    · rcases hw.looked v hv c hc hcv with hk | hk | ⟨f, hf, hfv, hcf⟩
      · exact .inl (.inr hk)
      · cases hk
        exact .inl (.inl rfl)
      · exact .inr (.inr ⟨f, List.mem_cons_of_mem _ hf, hfv, hcf⟩)

end Way

section Look

variable {low : ℕ} {targets : List α} {below : List (Frame α)}

theorem OnWay.look (hs : Sound next vertices starts s) (hw : OnWay next vertices none s)
    (hf : s.frames = ⟨a, low, b :: targets⟩ :: below) {low' : ℕ} (hle : low' ≤ low)
    (hreached : low' = low ∨ b ∈ s.pending ∧ s.number b = low')
    (hbound : b ∈ s.pending → low' ≤ s.number b) (hb : s.Known b ∨ b? = some b)
    (hnamed : ∀ c ∈ b?, c = b ∧ ¬ s.Known b) :
    OnWay next vertices b? { s with frames := ⟨a, low', targets⟩ :: below } := by
  have hway : s.way = a :: below.map Frame.vertex := by simp [way, hf]
  have htrail := hw.trail
  have hfits := hw.fits
  rw [hway] at htrail hfits
  rw [hf, List.forall_mem_cons] at hfits
  obtain ⟨hfit, hfits⟩ := hfits
  have ha : a ∈ s.pending := htrail.subset List.mem_cons_self
  obtain ⟨hedge, hbv⟩ := hfit.targets b List.mem_cons_self
  have hab : Reaches next vertices [a] b := .edge (hs.mem_of_pending ha) hedge hbv
  refine ⟨htrail, List.forall_mem_cons.mpr ⟨⟨?_, ?_, ?_, ?_⟩, hfits⟩, ?_, ?_⟩
  · exact fun c hc ↦ hfit.targets c (List.mem_cons_of_mem b hc)
  · exact hle.trans hfit.low_le
  · rcases hreached with rfl | ⟨hbp, hlow⟩
    · exact hfit.low_reached
    · exact ⟨b, hbp, hlow, hab⟩
  · intro v hv w hwp hvw hav habove htarget
    by_cases hwb : w = b
    · exact hwb ▸ hbound (hwb ▸ hwp)
    · refine hle.trans (hfit.low_bound v hv w hwp hvw hav habove fun hva ↦ ?_)
      exact List.not_mem_cons_of_ne_of_not_mem hwb (htarget hva)
  · intro v hv c hc hcv
    rcases hw.looked v hv c hc hcv with hk | hk | ⟨f, hfm, rfl, hcf⟩
    · exact .inl hk
    · cases hk
    · rw [hf] at hfm
      rcases List.mem_cons.mp hfm with rfl | hfm
      · rcases List.mem_cons.mp hcf with rfl | hcf
        · exact hb.imp id .inl
        · exact .inr (.inr ⟨_, List.mem_cons_self, rfl, hcf⟩)
      · exact .inr (.inr ⟨f, List.mem_cons_of_mem _ hfm, rfl, hcf⟩)
  · intro c hc
    obtain ⟨rfl, hunknown⟩ := hnamed c hc
    refine ⟨hbv, hunknown, List.forall_mem_cons.mpr ⟨hab, fun x hx ↦ ?_⟩⟩
    have hlt := (List.pairwise_cons.mp htrail.descending).1 x hx
    exact (htrail.down x (List.mem_cons_of_mem a hx) a ha hlt.le).trans hab

end Look

section Back

omit [DecidableEq α]

variable {number : α → ℕ} {pending way : List α}

theorem Trail.pop (h : Trail next vertices number pending (a :: b :: way)) {u : α}
    (hu : u ∈ pending) (hlt : number u < number a) (hau : Reaches next vertices [a] u) :
    Trail next vertices number pending (b :: way) := by
  obtain ⟨hafter, hdesc⟩ := List.pairwise_cons.mp h.descending
  refine ⟨List.subset_of_cons_subset h.subset, hdesc, fun v hv ↦ ?_,
    fun x hx ↦ h.down x (List.mem_cons_of_mem a hx), fun v hv hno ↦ ?_⟩
  · obtain ⟨x, hx, hle⟩ := h.covered v hv
    rcases List.mem_cons.mp hx with rfl | hx
    · exact ⟨b, List.mem_cons_self, (hafter b List.mem_cons_self).le.trans hle⟩
    · exact ⟨x, hx, hle⟩
  · by_cases hva : v = a
    · exact ⟨u, hu, hva ▸ hlt, hva ▸ hau⟩
    · exact h.returns v hv (List.not_mem_cons_of_ne_of_not_mem hva hno)

theorem Fits.top_bound {low : ℕ} (h : Fits next vertices number pending (a :: way) ⟨a, low, []⟩)
    (hdesc : (a :: way).Pairwise fun x y ↦ number y < number x) {v w : α} (hv : v ∈ pending)
    (hw : w ∈ pending) (hvw : w ∈ next v) (hle : number a ≤ number v) : low ≤ number w := by
  have hafter := (List.pairwise_cons.mp hdesc).1
  refine h.low_bound v hv w hw hvw hle (List.forall_mem_cons.mpr ⟨?_, fun x hx hax ↦ ?_⟩) (by simp)
  · exact fun haa ↦ absurd haa (Nat.lt_irrefl _)
  · exact absurd hax (hafter x hx).not_gt

theorem Fits.takeOver {p : Frame α} {low : ℕ}
    (h : Fits next vertices number pending (a :: p.vertex :: way) p)
    (htrail : Trail next vertices number pending (a :: p.vertex :: way))
    (htop : Fits next vertices number pending (a :: p.vertex :: way) ⟨a, low, []⟩) :
    Fits next vertices number pending (p.vertex :: way) { p with low := min p.low low } := by
  obtain ⟨hafter, hdesc⟩ := List.pairwise_cons.mp htrail.descending
  have hpa : number p.vertex < number a := hafter p.vertex List.mem_cons_self
  refine ⟨h.targets, (min_le_left _ _).trans h.low_le, ?_, fun v hv w hw hvw hle _ htarget ↦ ?_⟩
  · rcases Nat.le_total p.low low with hmin | hmin
    · simp only [min_eq_left hmin]
      exact h.low_reached
    · obtain ⟨u, hu, hulow, hau⟩ := htop.low_reached
      refine ⟨u, hu, hulow.trans (min_eq_right hmin).symm, .trans ?_ hau⟩
      exact htrail.down p.vertex (List.mem_cons_of_mem a List.mem_cons_self) a
        (htrail.subset List.mem_cons_self) hpa.le
  · by_cases hva : number a ≤ number v
    · exact (min_le_right _ _).trans (htop.top_bound htrail.descending hv hw hvw hva)
    · refine (min_le_left _ _).trans (h.low_bound v hv w hw hvw hle ?_ htarget)
      refine List.forall_mem_cons.mpr ⟨fun _ ↦ by omega, List.forall_mem_cons.mpr ⟨?_, ?_⟩⟩
      · exact fun hpp ↦ absurd hpp (Nat.lt_irrefl _)
      · exact fun x hx hpx ↦ absurd hpx ((List.pairwise_cons.mp hdesc).1 x hx).not_gt

theorem Fits.shrink {pending' : List α} {f : Frame α}
    (h : Fits next vertices number pending (a :: way) f) (hsub : pending' ⊆ pending)
    (hkept : ∀ u ∈ pending, number u ≤ number f.vertex → u ∈ pending')
    (hbelow : ∀ v ∈ pending', (∀ x ∈ way, number f.vertex < number x → number v < number x) →
      number v < number a) : Fits next vertices number pending' way f := by
  refine ⟨h.targets, h.low_le, ?_, fun v hv w hwp hvw hle habove htarget ↦ ?_⟩
  · obtain ⟨u, hu, hlow, hfu⟩ := h.low_reached
    exact ⟨u, hkept u hu (hlow ▸ h.low_le), hlow, hfu⟩
  · refine h.low_bound v (hsub hv) w (hsub hwp) hvw hle ?_ htarget
    exact List.forall_mem_cons.mpr ⟨fun _ ↦ hbelow v hv habove, habove⟩

end Back

section Leave

variable {low : ℕ} {below : List (Frame α)} (hs : Sound next vertices starts s)
  (hw : OnWay next vertices none s) (hf : s.frames = ⟨a, low, []⟩ :: below)

include hw hf

theorem OnWay.trail_cons :
    Trail next vertices s.number s.pending (a :: below.map Frame.vertex) := by
  have h := hw.trail
  rwa [way, hf] at h

theorem OnWay.fits_cons : ∀ f ∈ (⟨a, low, []⟩ : Frame α) :: below,
    Fits next vertices s.number s.pending (a :: below.map Frame.vertex) f := by
  have h := hw.fits
  rwa [way, hf] at h

theorem OnWay.looked_below {v c : α} (hv : s.Known v) (hc : c ∈ next v) (hcv : c ∈ vertices) :
    s.Known c ∨ ∃ f ∈ below, f.vertex = v ∧ c ∈ f.targets := by
  rcases hw.looked v hv c hc hcv with hk | hk | ⟨f, hfm, hfv, hcf⟩
  · exact .inl hk
  · cases hk
  · rw [hf] at hfm
    rcases List.mem_cons.mp hfm with rfl | hfm
    · cases hcf
    · exact .inr ⟨f, hfm, hfv, hcf⟩

theorem OnWay.looked_since {v c : α} (hv : s.Known v) (hle : s.number a ≤ s.number v)
    (hc : c ∈ next v) (hcv : c ∈ vertices) : s.Known c := by
  refine (hw.looked_below hf hv hc hcv).resolve_right fun ⟨f, hfm, hfv, _⟩ ↦ ?_
  have hlt := (List.pairwise_cons.mp (hw.trail_cons hf).descending).1 f.vertex
    (List.mem_map_of_mem hfm)
  rw [hfv] at hlt
  omega

theorem OnWay.goBack (hlow : s.number a ≠ low) : ∃ p ps, below = p :: ps ∧
    OnWay next vertices none { s with frames := { p with low := min p.low low } :: ps } := by
  have htrail := hw.trail_cons hf
  obtain ⟨htop, hfits⟩ := List.forall_mem_cons.mp (hw.fits_cons hf)
  obtain ⟨u, hu, hulow, hau⟩ := htop.low_reached
  have hult : s.number u < s.number a := hulow.trans_lt (lt_of_le_of_ne htop.low_le hlow.symm)
  cases below with
  | nil =>
    obtain ⟨x, hx, hle⟩ := htrail.covered u hu
    cases List.mem_singleton.mp hx
    omega
  | cons p ps =>
    obtain ⟨hfit, hfits⟩ := List.forall_mem_cons.mp hfits
    refine ⟨p, ps, rfl, htrail.pop hu hult hau,
      List.forall_mem_cons.mpr ⟨hfit.takeOver htrail htop, fun f h ↦ ?_⟩, ?_, by simp⟩
    · obtain ⟨hafter, hdesc⟩ := List.pairwise_cons.mp htrail.descending
      refine (hfits f h).shrink (List.Subset.refl _) (fun u hu _ ↦ hu) fun v _ habove ↦ ?_
      have hfp := (List.pairwise_cons.mp hdesc).1 f.vertex (List.mem_map_of_mem h)
      exact (habove p.vertex List.mem_cons_self hfp).trans (hafter p.vertex List.mem_cons_self)
    · intro v hv c hc hcv
      rcases hw.looked_below hf hv hc hcv with hk | ⟨f, hfm, hfv, hcf⟩
      · exact .inl hk
      · rcases List.mem_cons.mp hfm with rfl | hfm
        · exact .inr (.inr ⟨_, List.mem_cons_self, hfv, hcf⟩)
        · exact .inr (.inr ⟨f, List.mem_cons_of_mem _ hfm, hfv, hcf⟩)

include hs

section Root

variable (hroot : s.number a = low)

include hroot

theorem OnWay.since_closed {x y : α} (hx : x ∈ s.pending) (hle : s.number a ≤ s.number x)
    (h : Reaches next vertices [x] y) :
    y ∈ s.pending ∧ s.number a ≤ s.number y ∨ s.Done y := by
  have htop := hw.fits_cons hf _ List.mem_cons_self
  have hdesc := (hw.trail_cons hf).descending
  induction h with
  | start hmem _ =>
    rw [List.mem_singleton] at hmem
    exact .inl ⟨hmem ▸ hx, hmem ▸ hle⟩
  | @step v w _ hvw hmem ih =>
    rcases ih with ⟨hv, hav⟩ | hdone
    · have hknown := hw.looked_since hf (hs.known_of_pending hv) hav hvw hmem
      refine ((hs.known w).mp hknown).imp (fun hwp ↦ ⟨hwp, ?_⟩) id
      exact hroot.le.trans (htop.top_bound hdesc hv hwp hvw hav)
    · exact .inr (hs.closed v hdone w hvw hmem)

/-- Everything pending since the vertex on top leads back to it. -/
theorem OnWay.since_back {x : α} (hx : x ∈ s.pending) (hle : s.number a ≤ s.number x) :
    Reaches next vertices [x] a := by
  have htrail := hw.trail_cons hf
  induction hn : s.number x using Nat.strongRecOn generalizing x with
  | ind n ih =>
    by_cases hxa : x ∈ a :: below.map Frame.vertex
    · rcases List.mem_cons.mp hxa with rfl | hxa
      · exact .self (hs.mem_of_pending hx)
      · have hlt := (List.pairwise_cons.mp htrail.descending).1 x hxa
        omega
    · obtain ⟨u, hu, hlt, hxu⟩ := htrail.returns x hx hxa
      rcases hw.since_closed hs hf hroot hx hle hxu with ⟨_, hau⟩ | hdone
      · exact hxu.trans (ih _ (hn ▸ hlt) hu hau rfl)
      · exact absurd hdone (hs.apart u hu)

theorem OnWay.since_mutual {x y : α} (hx : x ∈ s.pending) (hle : s.number a ≤ s.number x) :
    Mutual next vertices x y ↔ y ∈ s.pending ∧ s.number a ≤ s.number y := by
  have hdown := (hw.trail_cons hf).down a List.mem_cons_self
  constructor
  · intro ⟨hxy, hyx⟩
    refine (hw.since_closed hs hf hroot hx hle hxy).resolve_right fun hdone ↦ hs.apart x hx ?_
    exact hs.done_of_reaches hdone hyx
  · intro ⟨hy, hay⟩
    exact ⟨(hw.since_back hs hf hroot hx hle).trans (hdown y hy hay),
      (hw.since_back hs hf hroot hy hay).trans (hdown x hx hle)⟩

theorem OnWay.complete :
    OnWay next vertices none (({ s with frames := below } : Search α).complete a) := by
  have htrail := hw.trail_cons hf
  have hfits := (List.forall_mem_cons.mp (hw.fits_cons hf)).2
  obtain ⟨hafter, hdesc⟩ := List.pairwise_cons.mp htrail.descending
  have ha : a ∈ s.pending := htrail.subset List.mem_cons_self
  obtain ⟨as, bs, -, hcomplete, -, hrest⟩ := (hs.withFrames below).exists_split ha
  rw [hcomplete]
  replace hrest (v : α) : v ∈ bs ↔ v ∈ s.pending ∧ s.number v < s.number a := hrest v
  refine ⟨⟨fun x hx ↦ ?_, hdesc, fun v hv ↦ ?_, fun x hx v hv ↦ ?_, fun v hv hno ↦ ?_⟩,
    fun f h ↦ ?_, fun v hv c hc hcv ↦ ?_, by simp⟩
  · exact (hrest x).mpr ⟨htrail.subset (List.mem_cons_of_mem a hx), hafter x hx⟩
  · obtain ⟨hv, hlt⟩ := (hrest v).mp hv
    obtain ⟨x, hx, hle⟩ := htrail.covered v hv
    rcases List.mem_cons.mp hx with rfl | hx
    · omega
    · exact ⟨x, hx, hle⟩
  · exact htrail.down x (List.mem_cons_of_mem a hx) v ((hrest v).mp hv).1
  · obtain ⟨hv, hlt⟩ := (hrest v).mp hv
    have hva : v ≠ a := fun h ↦ Nat.lt_irrefl _ (h ▸ hlt)
    obtain ⟨u, hu, hlt', hvu⟩ :=
      htrail.returns v hv (List.not_mem_cons_of_ne_of_not_mem hva hno)
    exact ⟨u, (hrest u).mpr ⟨hu, hlt'.trans hlt⟩, hlt', hvu⟩
  · have hfa := hafter f.vertex (List.mem_map_of_mem h)
    exact (hfits f h).shrink (fun v hv ↦ ((hrest v).mp hv).1)
      (fun u hu hle ↦ (hrest u).mpr ⟨hu, hle.trans_lt hfa⟩) fun v hv _ ↦ ((hrest v).mp hv).2
  · exact (hw.looked_below hf hv hc hcv).imp id .inr

end Root

theorem leave_invariant : Sound next vertices starts (s.leave ⟨a, low, []⟩ below) ∧
    OnWay next vertices none (s.leave ⟨a, low, []⟩ below) := by
  have htrail := hw.trail_cons hf
  obtain ⟨htop, hfits⟩ := List.forall_mem_cons.mp (hw.fits_cons hf)
  have ha : a ∈ s.pending := htrail.subset List.mem_cons_self
  unfold leave
  simp only [lookup_eq_some_iff (hs.known_of_pending ha)]
  split
  next hroot =>
    -- the frame below came earlier, so its low number is less already
    have hsame : below.modifyHead (fun p ↦ { p with low := min p.low low }) = below := by
      cases below with
      | nil => rfl
      | cons p ps =>
        have hp := (hfits p List.mem_cons_self).low_le
        have hlt := (List.pairwise_cons.mp htrail.descending).1 p.vertex List.mem_cons_self
        rw [List.modifyHead_cons, Nat.min_eq_left (by omega)]
    rw [hsame]
    refine ⟨(hs.withFrames below).complete ha ?_ ?_, hw.complete hs hf hroot⟩
    · exact fun x y hx hle ↦ hw.since_mutual hs hf hroot hx hle
    · exact fun x y hx hle h ↦ hw.since_closed hs hf hroot hx hle h
  next hlow =>
    obtain ⟨p, ps, rfl, hback⟩ := hw.goBack hf hlow
    exact ⟨hs.withFrames _, hback⟩

end Leave

/-- The steps that are still to be made: an edge is looked at once, and a vertex left once. -/
def work (next : α → List α) (vertices : List α) (s : Search α) : ℕ :=
  ((vertices.filter fun a ↦ (s.index.lookup a).isNone).flatMap fun a ↦ a :: next a).length +
    (s.frames.flatMap fun f ↦ f.vertex :: f.targets).length

theorem length_flatMap_filter_ne (g : α → List α) {l : List α} (hb : b ∈ l) :
    ((l.filter (· ≠ b)).flatMap g).length + (g b).length ≤ (l.flatMap g).length := by
  induction l with
  | nil => cases hb
  | cons a l ih =>
    rw [List.flatMap_cons, List.length_append, Nat.add_comm (g a).length]
    by_cases hab : a = b
    · have hle : ((l.filter (· ≠ b)).flatMap g).length ≤ (l.flatMap g).length :=
        (List.filter_sublist.flatMap g).length_le
      rw [hab, List.filter_cons_of_neg (by simp)]
      omega
    · have hrest := ih ((List.mem_cons.mp hb).resolve_left (Ne.symm hab))
      rw [List.filter_cons_of_pos (by simpa using hab), List.flatMap_cons, List.length_append]
      omega

theorem work_enter (hb : ¬ s.Known b) (hmem : b ∈ vertices) :
    (s.enter vertices b (next b)).work next vertices ≤ s.work next vertices := by
  have hfilter : (vertices.filter fun a ↦
        ((s.enter vertices b (next b)).index.lookup a).isNone) =
      (vertices.filter fun a ↦ (s.index.lookup a).isNone).filter (· ≠ b) := by
    rw [List.filter_filter]
    refine List.filter_congr fun a _ ↦ ?_
    rw [lookup_enter]
    by_cases hab : a = b <;> simp [hab]
  have hfresh : b ∈ vertices.filter fun a ↦ (s.index.lookup a).isNone := by
    rw [List.mem_filter, Option.isNone_iff_eq_none, ← Option.not_isSome_iff_eq_none]
    exact ⟨hmem, hb⟩
  have hlength := length_flatMap_filter_ne (fun a ↦ a :: next a) hfresh
  have htargets : ((next b).filter (· ∈ vertices)).length ≤ (next b).length :=
    List.length_filter_le _ _
  rw [work, work, hfilter]
  simp only [enter, List.flatMap_cons, List.length_append, List.length_cons] at hlength ⊢
  omega

structure Onward (next : α → List α) (vertices starts : List α) (s s' : Search α) : Prop where
  sound : Sound next vertices starts s'
  onWay : OnWay next vertices none s'
  work_lt : s'.work next vertices < s.work next vertices
  kept : ∀ a, s.Known a → s'.Known a

section Step

variable {next? : α → Option (List α)} {low number : ℕ} {targets : List α} {below : List (Frame α)}

theorem step_leave (hf : s.frames = ⟨a, low, []⟩ :: below) :
    s.step next? vertices = some (s.leave ⟨a, low, []⟩ below) := by
  simp [step, advance, hf]

theorem step_look (hf : s.frames = ⟨a, low, b :: targets⟩ :: below)
    (hb : s.index.lookup b = some number) :
    s.step next? vertices = some { s with
      frames := ⟨a, if b ∈ s.pending then min low number else low, targets⟩ :: below } := by
  simp [step, advance, hf, hb]

theorem step_enter (hf : s.frames = ⟨a, low, b :: targets⟩ :: below)
    (hb : s.index.lookup b = none) (h : next? b = some successors) :
    s.step next? vertices =
      some (({ s with frames := ⟨a, low, targets⟩ :: below } : Search α).enter vertices b
        successors) := by
  simp [step, advance, hf, hb, h]

variable (hs : Sound next vertices starts s) (hw : OnWay next vertices none s)

include hs hw

theorem onward_leave (hf : s.frames = ⟨a, low, []⟩ :: below) :
    Onward next vertices starts s (s.leave ⟨a, low, []⟩ below) := by
  obtain ⟨hs', hw'⟩ := leave_invariant hs hw hf
  have hbelow : ((below.modifyHead fun p ↦ { p with low := min p.low low }).flatMap
      fun f ↦ f.vertex :: f.targets) = below.flatMap fun f ↦ f.vertex :: f.targets := by
    cases below <;> rfl
  refine ⟨hs', hw', ?_, fun c hc ↦ ?_⟩
  · simp only [leave]
    split <;>
      simp only [work, complete, hf, hbelow, List.flatMap_cons, List.length_append,
        List.length_cons] <;>
      omega
  · simp only [leave]
    split <;> exact hc

theorem onward_look (hf : s.frames = ⟨a, low, b :: targets⟩ :: below)
    (hb : s.index.lookup b = some number) : Onward next vertices starts s { s with
      frames := ⟨a, if b ∈ s.pending then min low number else low, targets⟩ :: below } := by
  have hnum : s.number b = number := number_eq_of_lookup hb
  have hknown : s.Known b := by simp [Known, hb]
  refine ⟨hs.withFrames _, ?_, ?_, fun c hc ↦ hc⟩
  · by_cases hpending : b ∈ s.pending
    · simp only [hpending, if_true]
      refine hw.look hs hf (Nat.min_le_left _ _) ?_ ?_ (.inl hknown) (by simp)
      · rcases Nat.le_total low number with hle | hle
        · exact .inl (Nat.min_eq_left hle)
        · exact .inr ⟨hpending, hnum.trans (Nat.min_eq_right hle).symm⟩
      · exact fun _ ↦ hnum ▸ Nat.min_le_right _ _
    · simp only [hpending, if_false]
      exact hw.look hs hf (Nat.le_refl _) (.inl rfl) (fun h ↦ absurd h hpending)
        (.inl hknown) (by simp)
  · simp only [work, hf, List.flatMap_cons, List.length_append, List.length_cons]
    omega

theorem onward_enter (hf : s.frames = ⟨a, low, b :: targets⟩ :: below)
    (hb : s.index.lookup b = none) : Onward next vertices starts s
      (({ s with frames := ⟨a, low, targets⟩ :: below } : Search α).enter vertices b (next b)) := by
  have hunknown : ¬ s.Known b := by simp [Known, hb]
  have hentering : OnWay next vertices (some b)
      { s with frames := ⟨a, low, targets⟩ :: below } :=
    hw.look hs hf (Nat.le_refl _) (.inl rfl)
      (fun h ↦ absurd (hs.known_of_pending h) hunknown) (.inr rfl)
      fun c hc ↦ ⟨(Option.some.inj hc).symm, hunknown⟩
  obtain ⟨hmem, -, hreach⟩ := hentering.named b rfl
  have ha : a ∈ s.pending := hentering.trail.subset List.mem_cons_self
  have hs' := hs.withFrames (⟨a, low, targets⟩ :: below)
  refine ⟨hs'.enter hunknown ?_, hentering.enter hs', ?_, fun c hc ↦ known_enter.mpr (.inr hc)⟩
  · exact (hs.reached a (hs.known_of_pending ha)).trans (hreach a List.mem_cons_self)
  · have hlt : work next vertices { s with frames := ⟨a, low, targets⟩ :: below } <
        s.work next vertices := by
      simp only [work, hf, List.flatMap_cons, List.length_append, List.length_cons]
      omega
    refine lt_of_le_of_lt (work_enter ?_ hmem) hlt
    exact hunknown

theorem exists_step (h : ∀ a ∈ vertices, next? a = some (next a)) (hne : s.frames ≠ []) :
    ∃ s', s.step next? vertices = some s' ∧ Onward next vertices starts s s' := by
  obtain ⟨⟨a, low, _ | ⟨b, targets⟩⟩, below, hf⟩ := List.exists_cons_of_ne_nil hne
  · exact ⟨_, step_leave hf, onward_leave hs hw hf⟩
  · cases hb : s.index.lookup b with
    | none =>
      have hfit := hw.fits ⟨a, low, b :: targets⟩ (by simp [hf])
      have hmem : b ∈ vertices := (hfit.targets b List.mem_cons_self).2
      exact ⟨_, step_enter hf hb (h b hmem), onward_enter hs hw hf hb⟩
    | some number => exact ⟨_, step_look hf hb, onward_look hs hw hf hb⟩

end Step

structure Idle (next : α → List α) (vertices starts : List α) (s : Search α) : Prop where
  sound : Sound next vertices starts s
  onWay : OnWay next vertices none s
  frames : s.frames = []

theorem Idle.known_iff (h : Idle next vertices starts s) : s.Known a ↔ s.Done a := by
  refine (h.sound.known a).trans (or_iff_right fun ha ↦ ?_)
  obtain ⟨x, hx, -⟩ := h.onWay.trail.covered a ha
  simp [way, h.frames] at hx

theorem idle_start : Idle next vertices starts start := by
  refine ⟨⟨?_, ?_, ?_, .nil, ?_, ?_, ?_, ?_, .nil⟩, ⟨⟨?_, .nil, ?_, ?_, ?_⟩, ?_, ?_, ?_⟩, rfl⟩ <;>
    simp [start, Known, Done, way]

theorem Idle.enter (h : Idle next vertices starts s) (ha : a ∈ starts) (hmem : a ∈ vertices)
    (hunknown : ¬ s.Known a) : Sound next vertices starts (s.enter vertices a (next a)) ∧
      OnWay next vertices none (s.enter vertices a (next a)) := by
  obtain ⟨htrail, hfits, hlooked, -⟩ := h.onWay
  have hentering : OnWay next vertices (some a) s := by
    refine ⟨htrail, hfits, fun v hv c hc hcv ↦ ?_, fun b hb ↦ ?_⟩
    · exact (hlooked v hv c hc hcv).imp_right fun hk ↦ hk.imp_left nofun
    · cases hb
      exact ⟨hmem, hunknown, by simp [way, h.frames]⟩
  exact ⟨h.sound.enter hunknown (.start ha hmem), hentering.enter h.sound⟩

section Run

variable {next? : α → Option (List α)} (h : ∀ a ∈ vertices, next? a = some (next a))

include h

theorem exists_run (hs : Sound next vertices starts s) (hw : OnWay next vertices none s)
    {n : ℕ} (hn : s.work next vertices ≤ n) : ∃ s', s.run next? vertices n = some s' ∧
      Idle next vertices starts s' ∧ ∀ a, s.Known a → s'.Known a := by
  induction n generalizing s with
  | zero =>
    have hframes : s.frames = [] := by
      by_contra hne
      obtain ⟨s', -, hstep⟩ := exists_step hs hw h hne
      have hlt := hstep.work_lt
      omega
    exact ⟨s, by simp [run, hframes], ⟨hs, hw, hframes⟩, fun a ha ↦ ha⟩
  | succ n ih =>
    by_cases hframes : s.frames = []
    · exact ⟨s, by simp [run, hframes], ⟨hs, hw, hframes⟩, fun a ha ↦ ha⟩
    · obtain ⟨s', heq, hstep⟩ := exists_step hs hw h hframes
      have hlt := hstep.work_lt
      obtain ⟨s'', hrun, hidle, hkept⟩ := ih hstep.sound hstep.onWay (by omega)
      refine ⟨s'', ?_, hidle, fun a ha ↦ hkept a (hstep.kept a ha)⟩
      rw [run, if_neg (by simpa using hframes), heq, Option.bind_some, hrun]

theorem Idle.work_le_bound (hidle : Idle next vertices starts s) :
    s.work next vertices ≤ bound next? vertices := by
  have hbound : bound next? vertices = (vertices.flatMap fun a ↦ a :: next a).length := by
    rw [bound, List.flatMap_congr fun a ha ↦ by rw [h a ha, Option.getD_some]]
  rw [work, hidle.frames, List.flatMap_nil, List.length_nil, Nat.add_zero, hbound]
  exact (List.filter_sublist.flatMap _).length_le

theorem Idle.exists_visit (hidle : Idle next vertices starts s) (ha : a ∈ starts) :
    ∃ s', s.visit next? vertices a = some s' ∧ Idle next vertices starts s' ∧
      (a ∈ vertices → s'.Known a) ∧ ∀ b, s.Known b → s'.Known b := by
  by_cases hnew : a ∈ vertices ∧ s.index.lookup a = none
  · have hunknown : ¬ s.Known a := by simp [Known, hnew.2]
    obtain ⟨hs, hw⟩ := hidle.enter ha hnew.1 hunknown
    obtain ⟨s', hrun, hidle', hkept⟩ :=
      exists_run h hs hw ((work_enter hunknown hnew.1).trans (hidle.work_le_bound h))
    refine ⟨s', ?_, hidle', fun _ ↦ hkept a (known_enter.mpr (.inl rfl)), fun b hb ↦
      hkept b (known_enter.mpr (.inr hb))⟩
    rw [Search.visit, if_pos hnew, h a hnew.1, Option.bind_some, hrun]
  · refine ⟨s, if_neg hnew, hidle, fun hmem ↦ ?_, fun b hb ↦ hb⟩
    exact Option.isSome_iff_ne_none.mpr fun hnone ↦ hnew ⟨hmem, hnone⟩

theorem Idle.exists_foldlM (hidle : Idle next vertices starts s) {rest : List α}
    (hrest : rest ⊆ starts) : ∃ s', rest.foldlM (Search.visit next? vertices) s = some s' ∧
      Idle next vertices starts s' ∧ (∀ a ∈ rest, a ∈ vertices → s'.Known a) ∧
      ∀ b, s.Known b → s'.Known b := by
  induction rest generalizing s with
  | nil => exact ⟨s, rfl, hidle, by simp, fun b hb ↦ hb⟩
  | cons a rest ih =>
    obtain ⟨ha, hrest⟩ := List.cons_subset.mp hrest
    obtain ⟨s', heq, hidle', hknown, hkept⟩ := hidle.exists_visit h ha
    obtain ⟨s'', hfold, hidle'', hknown', hkept'⟩ := ih hidle' hrest
    refine ⟨s'', ?_, hidle'', List.forall_mem_cons.mpr ⟨fun hmem ↦ ?_, hknown'⟩, fun b hb ↦ ?_⟩
    · rw [List.foldlM_cons, heq]
      exact hfold
    · exact hkept' a (hknown hmem)
    · exact hkept' b (hkept b hb)

end Run

end Search

/-- Each vertex that can be reached has one number, and it shares it with those that can be reached
from it and lead back to it. -/
structure IsNumbering (next : α → List α) (vertices starts : List α) (numbers : List (α × ℕ)) :
    Prop where
  nodup : (numbers.map Prod.fst).Nodup
  isSome_iff : ∀ a, (numbers.lookup a).isSome ↔ Reaches next vertices starts a
  lookup_eq_iff : ∀ {a b}, Reaches next vertices starts a →
    (numbers.lookup a = numbers.lookup b ↔ Mutual next vertices a b)

theorem exists_components {next? : α → Option (List α)} {next : α → List α} {vertices : List α}
    (h : ∀ a ∈ vertices, next? a = some (next a)) (starts : List α) :
    ∃ numbers, components? next? vertices starts = some numbers ∧
      IsNumbering next vertices starts numbers := by
  obtain ⟨s, heq, hidle, hknown, -⟩ :=
    Search.idle_start.exists_foldlM h (List.Subset.refl starts)
  have hsome (a : α) : (s.component.lookup a).isSome ↔ Reaches next vertices starts a := by
    refine (hidle.known_iff (a := a)).symm.trans ⟨hidle.sound.reached a, fun ha ↦ ?_⟩
    induction ha with
    | start hs hv => exact hknown _ hs hv
    | step _ hb hv ih =>
      rw [hidle.known_iff] at ih ⊢
      exact hidle.sound.closed _ ih _ hb hv
  refine ⟨s.component, by rw [components?, heq, Option.map_some], hidle.sound.nodup, hsome, ?_⟩
  intro a b ha
  obtain ⟨k, hk⟩ := Option.isSome_iff_exists.mp ((hsome a).mpr ha)
  rw [hk, eq_comm]
  exact hidle.sound.component a k hk b

end InfraModule.Graph
