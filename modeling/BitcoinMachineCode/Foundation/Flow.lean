import Mathlib.Algebra.BigOperators.Group.Finset.Basic
import Mathlib.Algebra.Order.BigOperators.Group.Finset
import Mathlib.Data.Fintype.BigOperators
import Mathlib.Data.List.Nodup
import Mathlib.Logic.Relation
import Mathlib.Tactic.Linarith
import Mathlib.Tactic.Ring

/-!
# Flows by blocking paths

Residual capacities on a finite set of vertices: a breadth-first search gives the levels,
a depth-first search pushes along arcs one level down, trying no arc twice, and the two
alternate until the sink is out of reach.  What is reached then is a cut of the size of
the flow.
-/

namespace BitcoinMachineCode.Foundation

variable {V : Type*} [DecidableEq V]

/-! ## Cuts -/

section Cuts

variable [Fintype V]

/-- Capacities `cap` are what a flow of this value from `s` to `t` leaves of `cap₀`. -/
structure Residual (cap₀ cap : V → V → ℤ) (s t : V) (flow : ℤ) : Prop where
  pair : ∀ x y, cap x y + cap y x = cap₀ x y + cap₀ y x
  nonneg : ∀ x y, 0 ≤ cap x y
  kept : ∀ x, x ≠ s → x ≠ t → ∑ y, (cap₀ x y - cap x y) = 0
  out : ∑ y, (cap₀ s y - cap s y) = flow

variable {cap₀ cap : V → V → ℤ} {s t : V} {flow : ℤ}

/-- What flows out of `s` flows out of every set that has `s` and not `t`. -/
theorem Residual.flow_eq (h : Residual cap₀ cap s t flow) {S : Finset V} (hs : s ∈ S)
    (ht : t ∉ S) : flow = ∑ x ∈ S, ∑ y ∈ Sᶜ, (cap₀ x y - cap x y) := by
  have hout : ∑ x ∈ S, ∑ y, (cap₀ x y - cap x y) = flow := by
    rw [Finset.sum_eq_single_of_mem s hs, h.out]
    intro x hx hne
    exact h.kept x hne fun heq => ht (heq ▸ hx)
  have hinside : ∑ x ∈ S, ∑ y ∈ S, (cap₀ x y - cap x y) = 0 := by
    have hswap : ∑ x ∈ S, ∑ y ∈ S, (cap₀ x y - cap x y) =
        ∑ x ∈ S, ∑ y ∈ S, (cap₀ y x - cap y x) := Finset.sum_comm
    have hneg : ∑ x ∈ S, ∑ y ∈ S, (cap₀ y x - cap y x) =
        - ∑ x ∈ S, ∑ y ∈ S, (cap₀ x y - cap x y) := by
      rw [← Finset.sum_neg_distrib]
      refine Finset.sum_congr rfl fun x _ => ?_
      rw [← Finset.sum_neg_distrib]
      refine Finset.sum_congr rfl fun y _ => ?_
      have := h.pair x y
      linarith
    linarith
  rw [← hout, ← add_zero (∑ x ∈ S, ∑ y ∈ Sᶜ, _), ← hinside, ← Finset.sum_add_distrib]
  refine Finset.sum_congr rfl fun x _ => ?_
  rw [add_comm, Finset.sum_add_sum_compl]

theorem Residual.flow_le (h : Residual cap₀ cap s t flow) {S : Finset V} (hs : s ∈ S)
    (ht : t ∉ S) : flow ≤ ∑ x ∈ S, ∑ y ∈ Sᶜ, cap₀ x y := by
  rw [h.flow_eq hs ht]
  refine Finset.sum_le_sum fun x _ => Finset.sum_le_sum fun y _ => ?_
  have := h.nonneg x y
  linarith

/-- A cut with no residual arc out of it is as large as the flow, and only such a one. -/
theorem Residual.flow_eq_iff (h : Residual cap₀ cap s t flow) {S : Finset V} (hs : s ∈ S)
    (ht : t ∉ S) :
    flow = ∑ x ∈ S, ∑ y ∈ Sᶜ, cap₀ x y ↔ ∀ x ∈ S, ∀ y ∉ S, cap x y = 0 := by
  have hrest : flow = ∑ x ∈ S, ∑ y ∈ Sᶜ, cap₀ x y - ∑ x ∈ S, ∑ y ∈ Sᶜ, cap x y := by
    rw [h.flow_eq hs ht, ← Finset.sum_sub_distrib]
    exact Finset.sum_congr rfl fun x _ => Finset.sum_sub_distrib _ _
  constructor
  · intro heq x hx y hy
    have hzero : ∑ x ∈ S, ∑ y ∈ Sᶜ, cap x y = 0 := by linarith
    rw [Finset.sum_eq_zero_iff_of_nonneg
      fun x _ => Finset.sum_nonneg fun y _ => h.nonneg x y] at hzero
    have hrow := hzero x hx
    rw [Finset.sum_eq_zero_iff_of_nonneg fun y _ => h.nonneg x y] at hrow
    exact hrow y (Finset.mem_compl.mpr hy)
  · intro hcut
    have hzero : ∑ x ∈ S, ∑ y ∈ Sᶜ, cap x y = 0 :=
      Finset.sum_eq_zero fun x hx => Finset.sum_eq_zero fun y hy =>
        hcut x hx y (Finset.mem_compl.mp hy)
    linarith

omit [DecidableEq V] in
theorem Residual.start (hnonneg : ∀ x y, 0 ≤ cap₀ x y) : Residual cap₀ cap₀ s t 0 where
  pair _ _ := rfl
  nonneg := hnonneg
  kept _ _ _ := by simp
  out := by simp

end Cuts

/-! ## Levels -/

/-- The breadth-first search from what is queued; a level below zero is not set. -/
def bfs (arc : V → V → Bool) (vs : List V) : Nat → List V → (V → ℤ) → V → ℤ
  | 0, _, level => level
  | _ + 1, [], level => level
  | fuel + 1, u :: queue, level =>
      let new := vs.filter fun v => decide (level v < 0) && arc u v
      bfs arc vs fuel (queue ++ new) fun v => if v ∈ new then level u + 1 else level v

/-- The levels of all vertices, from `s`. -/
def levels (arc : V → V → Bool) (vs : List V) (s : V) : V → ℤ :=
  bfs arc vs vs.length [s] fun v => if v = s then 0 else -1

section Levels

variable [Fintype V] {arc : V → V → Bool} {vs : List V} {s : V}

def setLevels (level : V → ℤ) : Finset V := Finset.univ.filter fun v => 0 ≤ level v

structure BfsInv (arc : V → V → Bool) (s : V) (queue : List V) (level : V → ℤ) : Prop where
  source : level s = 0
  queued : ∀ u ∈ queue, 0 ≤ level u
  expanded : ∀ u, 0 ≤ level u → u ∉ queue → ∀ v, arc u v = true → 0 ≤ level v
  /-- a vertex with a level has one before it -/
  before : ∀ v, 0 ≤ level v → v ≠ s → ∃ u, 0 ≤ level u ∧ arc u v = true ∧ level v = level u + 1
  low : ∀ v, level v < (setLevels level).card

theorem BfsInv.step {u : V} {queue : List V} {level : V → ℤ}
    (h : BfsInv arc s (u :: queue) level) (hvs : vs.Nodup) (hall : ∀ v, v ∈ vs) :
    BfsInv arc s (queue ++ vs.filter fun v => decide (level v < 0) && arc u v)
        (fun v => if v ∈ vs.filter (fun v => decide (level v < 0) && arc u v) then level u + 1
          else level v) ∧
      (setLevels fun v => if v ∈ vs.filter (fun v => decide (level v < 0) && arc u v) then
        level u + 1 else level v).card =
        (setLevels level).card + (vs.filter fun v => decide (level v < 0) && arc u v).length := by
  have hu : 0 ≤ level u := h.queued u List.mem_cons_self
  have hnew : ∀ {v}, v ∈ vs.filter (fun v => decide (level v < 0) && arc u v) ↔
      level v < 0 ∧ arc u v = true := by
    intro v
    simp [List.mem_filter, hall v]
  have hset : ∀ {v}, 0 ≤ level v → v ∉ vs.filter fun v => decide (level v < 0) && arc u v := by
    intro v hv hin
    have := (hnew.mp hin).1
    omega
  have hcard : (setLevels fun v => if v ∈ vs.filter (fun v => decide (level v < 0) && arc u v) then
      level u + 1 else level v).card =
      (setLevels level).card + (vs.filter fun v => decide (level v < 0) && arc u v).length := by
    have hunion : (setLevels fun v =>
        if v ∈ vs.filter (fun v => decide (level v < 0) && arc u v) then level u + 1
        else level v) =
        setLevels level ∪ (vs.filter fun v => decide (level v < 0) && arc u v).toFinset := by
      ext v
      simp only [setLevels, Finset.mem_filter, Finset.mem_univ, true_and, Finset.mem_union,
        List.mem_toFinset]
      by_cases hin : v ∈ vs.filter fun v => decide (level v < 0) && arc u v
      · simp only [hin, if_true, or_true, iff_true]
        omega
      · simp only [hin, if_false, or_false]
    rw [hunion, Finset.card_union_of_disjoint, List.toFinset_card_of_nodup (hvs.filter _)]
    refine Finset.disjoint_left.mpr fun v hv hin => ?_
    exact hset (Finset.mem_filter.mp hv).2 (List.mem_toFinset.mp hin)
  refine ⟨⟨?_, ?_, ?_, ?_, ?_⟩, hcard⟩
  · simp only [if_neg (hset h.source.ge)]
    exact h.source
  · intro v hv
    rcases List.mem_append.mp hv with hv | hv
    · have hlev := h.queued v (List.mem_cons_of_mem _ hv)
      simp only [if_neg (hset hlev)]
      exact hlev
    · simp only [if_pos hv]
      omega
  · intro x hx hout v harc
    by_cases hin : v ∈ vs.filter fun v => decide (level v < 0) && arc u v
    · simp only [if_pos hin]
      omega
    · simp only [if_neg hin]
      by_cases hxin : x ∈ vs.filter fun v => decide (level v < 0) && arc u v
      · exact absurd (List.mem_append_right _ hxin) hout
      simp only [if_neg hxin] at hx
      by_cases hxu : x = u
      · subst hxu
        by_contra hneg
        exact hin (hnew.mpr ⟨by omega, harc⟩)
      · refine h.expanded x hx (fun hq => ?_) v harc
        rcases List.mem_cons.mp hq with rfl | hq
        · exact hxu rfl
        · exact hout (List.mem_append_left _ hq)
  · intro v hv hvs'
    by_cases hin : v ∈ vs.filter fun v => decide (level v < 0) && arc u v
    · refine ⟨u, ?_, (hnew.mp hin).2, ?_⟩
      · simp only [if_neg (hset hu)]
        exact hu
      · simp only [if_pos hin, if_neg (hset hu)]
    · simp only [if_neg hin] at hv
      obtain ⟨x, hx, harc, heq⟩ := h.before v hv hvs'
      refine ⟨x, ?_, harc, ?_⟩
      · simp only [if_neg (hset hx)]
        exact hx
      · simp only [if_neg hin, if_neg (hset hx)]
        exact heq
  · intro v
    rw [hcard]
    by_cases hin : v ∈ vs.filter fun v => decide (level v < 0) && arc u v
    · simp only [if_pos hin]
      have hlen := List.length_pos_of_mem hin
      have hlow := h.low u
      push_cast
      omega
    · simp only [if_neg hin]
      have hlow := h.low v
      push_cast
      omega

theorem bfs_inv (hvs : vs.Nodup) (hall : ∀ v, v ∈ vs) {fuel : Nat} {queue : List V}
    {level : V → ℤ} (h : BfsInv arc s queue level)
    (hfuel : queue.length + vs.length ≤ fuel + (setLevels level).card) :
    BfsInv arc s [] (bfs arc vs fuel queue level) := by
  induction fuel generalizing queue level with
  | zero =>
      have hcard : (setLevels level).card ≤ vs.length := by
        have hsub : setLevels level ⊆ vs.toFinset := fun v _ => List.mem_toFinset.mpr (hall v)
        exact (Finset.card_le_card hsub).trans (List.toFinset_card_le vs)
      have hnil : queue = [] := List.length_eq_zero_iff.mp (by omega)
      subst hnil
      exact h
  | succ fuel ih =>
      cases queue with
      | nil => exact h
      | cons u queue =>
          obtain ⟨hstep, hcard⟩ := h.step hvs hall
          unfold bfs
          refine ih hstep ?_
          rw [hcard, List.length_append]
          rw [List.length_cons] at hfuel
          omega

theorem levels_inv (hvs : vs.Nodup) (hall : ∀ v, v ∈ vs) :
    BfsInv arc s [] (levels arc vs s) := by
  have hset : setLevels (fun v => if v = s then (0 : ℤ) else -1) = {s} := by
    ext v
    simp only [setLevels, Finset.mem_filter, Finset.mem_univ, true_and, Finset.mem_singleton]
    by_cases hv : v = s
    · simp [hv]
    · simp [hv]
  have hstart : BfsInv arc s [s] fun v => if v = s then (0 : ℤ) else -1 := by
    refine ⟨if_pos rfl, fun u hu => ?_, fun u hu hout => ?_, fun v hv hne => ?_, fun v => ?_⟩
    · rw [List.mem_singleton.mp hu, if_pos rfl]
    · by_cases hus : u = s
      · exact absurd (List.mem_singleton.mpr hus) hout
      · simp [hus] at hu
    · simp [hne] at hv
    · rw [hset]
      simp only [Finset.card_singleton]
      split <;> simp
  refine bfs_inv hvs hall hstart ?_
  rw [hset]
  simp
  omega

end Levels

/-! ## Pushing along levels -/

/-- The capacities, and for each vertex the ones its pointer has still to try. -/
structure Search (V : Type*) where
  cap : V → V → ℤ
  left : V → List V

def Search.advance (st : Search V) (u : V) : Search V :=
  { st with left := fun x => if x = u then (st.left u).tail else st.left x }

def Search.push (st : Search V) (u w : V) (d : ℤ) : Search V :=
  { st with
    cap := fun x y =>
      if x = u ∧ y = w then st.cap x y - d
      else if x = w ∧ y = u then st.cap x y + d
      else st.cap x y }

/-- The arcs out of `u` from its pointer on, until one of them leads to the sink. -/
def tryArcs (level : V → ℤ) (next : Search V → V → ℤ → ℤ × Search V) (u : V) (f : ℤ) :
    Nat → Search V → ℤ × Search V
  | 0, st => (0, st)
  | k + 1, st =>
      match st.left u with
      | [] => (0, st)
      | w :: _ =>
          if st.cap u w ≤ 0 ∨ level w ≠ level u + 1 then tryArcs level next u f k (st.advance u)
          else
            let found := next st w (min f (st.cap u w))
            if 0 < found.1 then (found.1, found.2.push u w found.1)
            else tryArcs level next u f k (found.2.advance u)

/-- The depth-first search for a path to `t` that takes at most `f`. -/
def dfs (level : V → ℤ) (t : V) (width : Nat) : Nat → Search V → V → ℤ → ℤ × Search V
  | 0, st, _, _ => (0, st)
  | depth + 1, st, u, f =>
      if u = t then (f, st) else tryArcs level (dfs level t width depth) u f (width + 1) st

section Push

variable [Fintype V] {level : V → ℤ} {t : V}

/-- `d` more from `u` to `t`, with nothing above the level of `u` changed. -/
structure Pushed (level : V → ℤ) (t : V) (cap cap' : V → V → ℤ) (u : V) (d : ℤ) : Prop where
  pair : ∀ x y, cap' x y + cap' y x = cap x y + cap y x
  nonneg : ∀ x y, 0 ≤ cap' x y
  moved : ∀ x, ∑ y, (cap x y - cap' x y) = (if x = u then d else 0) - if x = t then d else 0
  frame : ∀ x y, level x < level u ∨ level y < level u → cap' x y = cap x y

/-- What a search that takes at most `f` out of `u` may do to the capacities. -/
structure Searched (level : V → ℤ) (t : V) (cap : V → V → ℤ) (u : V) (f : ℤ)
    (found : ℤ × Search V) : Prop where
  nonneg : 0 ≤ found.1
  le : found.1 ≤ f
  pushed : Pushed level t cap found.2.cap u found.1
  unchanged : found.1 = 0 → found.2.cap = cap

theorem Pushed.refl {cap : V → V → ℤ} (hnonneg : ∀ x y, 0 ≤ cap x y) (u : V) :
    Pushed level t cap cap u 0 :=
  ⟨fun _ _ => rfl, hnonneg, fun x => by simp, fun _ _ _ => rfl⟩

/-- One arc in front of a path. -/
theorem Pushed.arc {cap : V → V → ℤ} {st : Search V} {u w : V} {d : ℤ}
    (h : Pushed level t cap st.cap w d) (hlevel : level w = level u + 1) (hut : u ≠ t)
    (hd : 0 ≤ d) (hle : d ≤ cap u w) : Pushed level t cap (st.push u w d).cap u d := by
  have huw : u ≠ w := by
    rintro rfl
    omega
  have hsame : st.cap u w = cap u w := h.frame u w (.inl (by omega))
  refine ⟨fun x y => ?_, fun x y => ?_, fun x => ?_, fun x y hxy => ?_⟩
  · have hpair := h.pair x y
    simp only [Search.push]
    by_cases h1 : x = u ∧ y = w
    · obtain ⟨rfl, rfl⟩ := h1
      simp [huw]
      linarith
    · by_cases h2 : x = w ∧ y = u
      · obtain ⟨rfl, rfl⟩ := h2
        simp [huw, huw.symm]
        linarith
      · have h3 : ¬ (y = w ∧ x = u) := fun hyx => h1 ⟨hyx.2, hyx.1⟩
        have h4 : ¬ (y = u ∧ x = w) := fun hyx => h2 ⟨hyx.2, hyx.1⟩
        simp only [h1, h2, h3, h4, if_false]
        exact hpair
  · have hpos := h.nonneg x y
    simp only [Search.push]
    split
    · next h1 =>
        rw [h1.1, h1.2, hsame]
        linarith
    · split
      · linarith
      · exact hpos
  · have hsum : ∀ y, cap x y - (st.push u w d).cap x y =
        (cap x y - st.cap x y) + ((if x = u ∧ y = w then d else 0) -
          if x = w ∧ y = u then d else 0) := by
      intro y
      simp only [Search.push]
      by_cases h1 : x = u ∧ y = w
      · have h2 : ¬ (x = w ∧ y = u) := fun hbad => huw (h1.1.symm.trans hbad.1)
        rw [if_pos h1, if_pos h1, if_neg h2]
        ring
      · by_cases h2 : x = w ∧ y = u
        · rw [if_neg h1, if_pos h2, if_neg h1, if_pos h2]
          ring
        · rw [if_neg h1, if_neg h2, if_neg h1, if_neg h2]
          ring
    have hu : ∑ y, (if x = u ∧ y = w then d else 0) = if x = u then d else 0 := by
      by_cases hx : x = u
      · simp [hx]
      · simp [hx]
    have hw : ∑ y, (if x = w ∧ y = u then d else 0) = if x = w then d else 0 := by
      by_cases hx : x = w
      · simp [hx]
      · simp [hx]
    have hmoved := h.moved x
    have harc : ∑ y, ((if x = u ∧ y = w then d else 0) - if x = w ∧ y = u then d else 0) =
        (if x = u then d else 0) - if x = w then d else 0 := by
      rw [Finset.sum_sub_distrib, hu, hw]
    rw [Finset.sum_congr rfl fun y _ => hsum y, Finset.sum_add_distrib, hmoved, harc]
    ring
  · have hx : ¬ (x = u ∧ y = w) := by
      rintro ⟨rfl, rfl⟩
      omega
    have hy : ¬ (x = w ∧ y = u) := by
      rintro ⟨rfl, rfl⟩
      omega
    simp only [Search.push, hx, hy, if_false]
    exact h.frame x y (by omega)

theorem tryArcs_searched {next : Search V → V → ℤ → ℤ × Search V}
    (hnext : ∀ (st : Search V) (w : V) (f : ℤ), (∀ x y, 0 ≤ st.cap x y) → 0 ≤ f →
      Searched level t st.cap w f (next st w f)) {u : V} (hut : u ≠ t) {f : ℤ} (hf : 0 ≤ f)
    (k : Nat) {st : Search V} (hnonneg : ∀ x y, 0 ≤ st.cap x y) :
    Searched level t st.cap u f (tryArcs level next u f k st) := by
  induction k generalizing st with
  | zero => exact ⟨le_rfl, hf, Pushed.refl hnonneg u, fun _ => rfl⟩
  | succ k ih =>
      unfold tryArcs
      split
      · exact ⟨le_rfl, hf, Pushed.refl hnonneg u, fun _ => rfl⟩
      · next w rest _ =>
          split
          · have hnonneg' : ∀ x y, 0 ≤ (st.advance u).cap x y := hnonneg
            exact ih hnonneg'
          · next harc =>
              push Not at harc
              have hfound := hnext st w (min f (st.cap u w)) hnonneg (le_min hf harc.1.le)
              simp only
              split
              · refine ⟨hfound.nonneg, hfound.le.trans (min_le_left _ _), ?_, fun hzero => ?_⟩
                · exact hfound.pushed.arc harc.2 hut hfound.nonneg
                    (hfound.le.trans (min_le_right _ _))
                · omega
              · next hnot =>
                  have hsame := hfound.unchanged (le_antisymm (not_lt.mp hnot) hfound.nonneg)
                  have hnonneg' : ∀ x y,
                      0 ≤ ((next st w (min f (st.cap u w))).2.advance u).cap x y := by
                    change ∀ x y, 0 ≤ (next st w (min f (st.cap u w))).2.cap x y
                    rw [hsame]
                    exact hnonneg
                  have hrest := ih hnonneg'
                  change Searched level t (next st w (min f (st.cap u w))).2.cap u f _ at hrest
                  rw [hsame] at hrest
                  exact hrest

theorem dfs_searched (width depth : Nat) {st : Search V} (hnonneg : ∀ x y, 0 ≤ st.cap x y)
    (u : V) {f : ℤ} (hf : 0 ≤ f) : Searched level t st.cap u f (dfs level t width depth st u f) := by
  induction depth generalizing st u f with
  | zero => exact ⟨le_rfl, hf, Pushed.refl hnonneg u, fun _ => rfl⟩
  | succ depth ih =>
      unfold dfs
      split
      · next hut =>
          subst hut
          exact ⟨hf, le_rfl, ⟨fun _ _ => rfl, hnonneg, fun x => by simp, fun _ _ _ => rfl⟩,
            fun _ => rfl⟩
      · next hut =>
          exact tryArcs_searched (fun st w f hst hf => ih hst w hf) hut hf _ hnonneg

end Push

/-! ## Searches that find nothing -/

section Dead

variable {level : V → ℤ} {t : V}

/-- The arcs a search may take. -/
def Admissible (level : V → ℤ) (cap : V → V → ℤ) (x y : V) : Prop :=
  0 < cap x y ∧ level y = level x + 1

/-- No admissible path leads to the sink. -/
def Dead (level : V → ℤ) (t : V) (cap : V → V → ℤ) (x : V) : Prop :=
  ¬ Relation.ReflTransGen (Admissible level cap) x t

/-- The pointers have only passed arcs into dead ends. -/
def PointersSound (level : V → ℤ) (t : V) (st : Search V) : Prop :=
  ∀ x y, Admissible level st.cap x y → y ∉ st.left x → Dead level t st.cap y

/-- What a search that finds nothing out of `u` leaves behind. -/
structure DeadEnd (level : V → ℤ) (t : V) (st : Search V) (u : V) (st' : Search V) : Prop where
  cap : st'.cap = st.cap
  sound : PointersSound level t st'
  dead : Dead level t st.cap u
  shorter : ∀ x, (st'.left x).length ≤ (st.left x).length
  frame : ∀ x, level x < level u → st'.left x = st.left x

omit [DecidableEq V] in
theorem dead_of_arcs {cap : V → V → ℤ} {u : V} (hut : u ≠ t)
    (h : ∀ y, Admissible level cap u y → Dead level t cap y) : Dead level t cap u := by
  intro hpath
  rcases Relation.ReflTransGen.cases_head hpath with heq | ⟨y, harc, hrest⟩
  · exact hut heq
  · exact h y harc hrest

theorem PointersSound.advance {st : Search V} (h : PointersSound level t st) {u w : V}
    {rest : List V} (hleft : st.left u = w :: rest)
    (hw : Admissible level st.cap u w → Dead level t st.cap w) :
    PointersSound level t (st.advance u) := by
  intro x y harc hout
  by_cases hx : x = u
  · subst hx
    by_cases hy : y = w
    · subst hy
      exact hw harc
    · refine h x y harc fun hin => hout ?_
      rw [hleft] at hin
      simp only [Search.advance, if_true, hleft, List.tail_cons]
      exact (List.mem_cons.mp hin).resolve_left hy
  · refine h x y harc fun hin => hout ?_
    simp only [Search.advance, if_neg hx]
    exact hin

theorem shorter_advance (st : Search V) (u x : V) :
    ((st.advance u).left x).length ≤ (st.left x).length := by
  simp only [Search.advance]
  split
  · next hx =>
      subst hx
      simp
  · exact le_rfl

theorem tryArcs_deadEnd {next : Search V → V → ℤ → ℤ × Search V} (width : Nat) {u : V}
    (hnext : ∀ (st : Search V) (w : V) (f : ℤ), level w = level u + 1 → 0 < f →
      PointersSound level t st → (∀ x, (st.left x).length ≤ width) → ¬ 0 < (next st w f).1 →
      DeadEnd level t st w (next st w f).2) (hut : u ≠ t) {f : ℤ} (hf : 0 < f) {k : Nat}
    {st : Search V} (hsound : PointersSound level t st)
    (hwidth : ∀ x, (st.left x).length ≤ width) (hk : (st.left u).length < k)
    (hzero : ¬ 0 < (tryArcs level next u f k st).1) :
    DeadEnd level t st u (tryArcs level next u f k st).2 := by
  induction k generalizing st with
  | zero => exact absurd hk (Nat.not_lt_zero _)
  | succ k ih =>
      unfold tryArcs at hzero ⊢
      split at hzero
      · next hnil =>
          refine ⟨rfl, hsound, dead_of_arcs hut fun y harc => ?_, fun _ => le_rfl, fun _ _ => rfl⟩
          exact hsound u y harc (by simp [hnil])
      · next w rest hleft =>
          have hlen : (st.left u).tail.length < k := by
            rw [hleft] at hk ⊢
            simpa using hk
          split at hzero
          · next harc =>
              rw [if_pos harc]
              have hsound' := hsound.advance hleft fun hadm =>
                absurd hadm.2 (harc.resolve_left (not_le.mpr hadm.1))
              have hleft' : ((st.advance u).left u).length < k := by
                simpa only [Search.advance, if_true] using hlen
              have hrest := ih hsound' (fun x => (shorter_advance st u x).trans (hwidth x))
                hleft' hzero
              refine ⟨hrest.cap, hrest.sound, hrest.dead,
                fun x => (hrest.shorter x).trans (shorter_advance st u x), fun x hx => ?_⟩
              rw [hrest.frame x hx]
              have hne : x ≠ u := by
                rintro rfl
                exact lt_irrefl _ hx
              simp only [Search.advance, if_neg hne]
          · next harc =>
              rw [if_neg harc]
              push Not at harc
              simp only at hzero ⊢
              split at hzero
              · next hpos => exact absurd hpos hzero
              · next hnot =>
                  rw [if_neg hnot]
                  have hdead := hnext st w (min f (st.cap u w)) harc.2 (lt_min hf harc.1) hsound
                    hwidth hnot
                  have hsame : (next st w (min f (st.cap u w))).2.left u = w :: rest := by
                    rw [hdead.frame u (by omega), hleft]
                  have hsound' := hdead.sound.advance hsame fun _ => by
                    rw [hdead.cap]
                    exact hdead.dead
                  have hleft' : (((next st w (min f (st.cap u w))).2.advance u).left u).length <
                      k := by
                    simp only [Search.advance, if_true, hsame, List.tail_cons]
                    rw [hleft] at hlen
                    simpa using hlen
                  have hshort : ∀ x, (((next st w (min f (st.cap u w))).2.advance u).left x).length
                      ≤ (st.left x).length :=
                    fun x => (shorter_advance _ u x).trans (hdead.shorter x)
                  have hrest := ih hsound' (fun x => (hshort x).trans (hwidth x)) hleft' hzero
                  refine ⟨hrest.cap.trans hdead.cap, hrest.sound, ?_,
                    fun x => (hrest.shorter x).trans (hshort x), fun x hx => ?_⟩
                  · have := hrest.dead
                    change Dead level t (next st w (min f (st.cap u w))).2.cap u at this
                    rwa [hdead.cap] at this
                  · rw [hrest.frame x hx]
                    have hne : x ≠ u := by
                      rintro rfl
                      exact lt_irrefl _ hx
                    simp only [Search.advance, if_neg hne]
                    exact hdead.frame x (by omega)

/-- A search with depth enough for the levels that finds nothing has tried everything. -/
theorem dfs_deadEnd {width depth : Nat} {bound : ℤ} (hbound : ∀ x, level x < bound)
    {st : Search V} (hsound : PointersSound level t st)
    (hwidth : ∀ x, (st.left x).length ≤ width) {u : V} (hdepth : bound ≤ level u + depth) {f : ℤ}
    (hf : 0 < f) (hzero : ¬ 0 < (dfs level t width depth st u f).1) :
    DeadEnd level t st u (dfs level t width depth st u f).2 := by
  induction depth generalizing st u f with
  | zero =>
      have := hbound u
      simp only [Nat.cast_zero, add_zero] at hdepth
      omega
  | succ depth ih =>
      unfold dfs at hzero ⊢
      split at hzero
      · exact absurd hf hzero
      · next hut =>
          rw [if_neg hut]
          refine tryArcs_deadEnd width (fun st w f hw hf hs hwd hz => ?_) hut hf hsound
            hwidth (Nat.lt_succ_of_le (hwidth u)) hzero
          refine ih hs hwd ?_ hf hz
          push_cast at hdepth
          omega

end Dead

/-! ## Until the sink is out of reach -/

def openArc (cap : V → V → ℤ) (u v : V) : Bool := decide (0 < cap u v)

/-- Searches from `s` along the same levels until one finds nothing; none when there is no
end to them. -/
def augment (level : V → ℤ) (vs : List V) (s t : V) (inf : ℤ) :
    Nat → Search V → ℤ → Option (Search V × ℤ)
  | 0, _, _ => none
  | k + 1, st, flow =>
      let found := dfs level t vs.length (vs.length + 1) st s inf
      if 0 < found.1 then augment level vs s t inf k found.2 (flow + found.1)
      else some (found.2, flow)

/-- New levels and new searches until the levels do not reach `t`. -/
def maxFlow (vs : List V) (s t : V) (inf : ℤ) (steps : Nat) :
    Nat → (V → V → ℤ) → ℤ → Option ((V → V → ℤ) × ℤ)
  | 0, _, _ => none
  | k + 1, cap, flow =>
      let level := levels (openArc cap) vs s
      if level t < 0 then some (cap, flow)
      else
        (augment level vs s t inf steps ⟨cap, fun _ => vs⟩ flow).bind fun result =>
          maxFlow vs s t inf steps k result.1.cap result.2

section MaxFlow

variable [Fintype V] {vs : List V} {s t : V} {inf : ℤ} {cap₀ : V → V → ℤ}

theorem Residual.pushed {level : V → ℤ} {cap cap' : V → V → ℤ} {flow d : ℤ}
    (h : Residual cap₀ cap s t flow) (hst : s ≠ t) (hpush : Pushed level t cap cap' s d) :
    Residual cap₀ cap' s t (flow + d) := by
  have hsum : ∀ x, ∑ y, (cap₀ x y - cap' x y) =
      ∑ y, (cap₀ x y - cap x y) + ∑ y, (cap x y - cap' x y) := by
    intro x
    rw [← Finset.sum_add_distrib]
    exact Finset.sum_congr rfl fun y _ => by ring
  refine ⟨fun x y => (hpush.pair x y).trans (h.pair x y), hpush.nonneg, fun x hs ht => ?_, ?_⟩
  · rw [hsum, h.kept x hs ht, hpush.moved x, if_neg hs, if_neg ht]
    ring
  · rw [hsum, h.out, hpush.moved s, if_pos rfl, if_neg hst]
    ring

/-- With as many searches as the flow can grow there is one that finds nothing. -/
theorem augment_residual {level : V → ℤ} (hst : s ≠ t) (hinf : 0 ≤ inf) {bound : ℤ}
    (hbound : ∀ cap flow, Residual cap₀ cap s t flow → flow ≤ bound) {k : Nat}
    {st : Search V} {flow : ℤ} (h : Residual cap₀ st.cap s t flow) (hk : bound < flow + k) :
    ∃ st' flow', augment level vs s t inf k st flow = some (st', flow') ∧
      Residual cap₀ st'.cap s t flow' ∧
        flow + (dfs level t vs.length (vs.length + 1) st s inf).1 ≤ flow' := by
  induction k generalizing st flow with
  | zero =>
      have := hbound _ _ h
      push_cast at hk
      omega
  | succ k ih =>
      have hfound : Searched level t st.cap s inf (dfs level t vs.length (vs.length + 1) st s inf) :=
        dfs_searched vs.length (vs.length + 1) h.nonneg s hinf
      have hnext := h.pushed hst hfound.pushed
      unfold augment
      simp only
      split
      · next hpos =>
          obtain ⟨st', flow', heq, hres, hle⟩ := ih hnext (by push_cast at hk; omega)
          have hagain : Searched level t (dfs level t vs.length (vs.length + 1) st s inf).2.cap s
              inf _ := dfs_searched vs.length (vs.length + 1) hnext.nonneg s hinf
          exact ⟨st', flow', heq, hres, le_trans (le_add_of_nonneg_right hagain.nonneg) hle⟩
      · next hnot =>
          have hzero : (dfs level t vs.length (vs.length + 1) st s inf).1 = 0 :=
            le_antisymm (not_lt.mp hnot) hfound.nonneg
          rw [hzero, add_zero] at hnext
          exact ⟨_, flow, rfl, hnext, by rw [hzero, add_zero]⟩

/-- Levels that reach the sink lead to it, so the first search finds a path. -/
theorem dfs_pos (hvs : vs.Nodup) (hall : ∀ v, v ∈ vs) (hinf : 0 < inf) {cap : V → V → ℤ}
    (hreach : ¬ levels (openArc cap) vs s t < 0) :
    0 < (dfs (levels (openArc cap) vs s) t vs.length (vs.length + 1) ⟨cap, fun _ => vs⟩ s inf).1 := by
  have hinv : BfsInv (openArc cap) s [] (levels (openArc cap) vs s) := levels_inv hvs hall
  -- along the levels the sink is reached
  have hpath : ∀ (n : Nat) (v : V), levels (openArc cap) vs s v = n →
      Relation.ReflTransGen (Admissible (levels (openArc cap) vs s) cap) s v := by
    intro n
    induction n with
    | zero =>
        intro v hv
        by_cases hvs' : v = s
        · rw [hvs']
        · obtain ⟨u, hu, -, heq⟩ := hinv.before v (by omega) hvs'
          push_cast at hv
          omega
    | succ n ih =>
        intro v hv
        by_cases hvs' : v = s
        · rw [hvs']
        · obtain ⟨u, hu, harc, heq⟩ := hinv.before v (by push_cast at hv; omega) hvs'
          refine (ih u (by push_cast at hv; omega)).tail ⟨?_, heq⟩
          exact of_decide_eq_true harc
  by_contra hzero
  have hcard : (setLevels (levels (openArc cap) vs s)).card ≤ vs.length := by
    have hsub : setLevels (levels (openArc cap) vs s) ⊆ vs.toFinset :=
      fun v _ => List.mem_toFinset.mpr (hall v)
    exact (Finset.card_le_card hsub).trans (List.toFinset_card_le vs)
  have hbound : ∀ x, levels (openArc cap) vs s x < (vs.length : ℤ) := fun x =>
    lt_of_lt_of_le (hinv.low x) (by exact_mod_cast hcard)
  have hsource : (vs.length : ℤ) ≤ levels (openArc cap) vs s s + (vs.length + 1 : Nat) := by
    rw [hinv.source]
    push_cast
    omega
  have hsound : PointersSound (levels (openArc cap) vs s) t ⟨cap, fun _ => vs⟩ :=
    fun x y _ hout => absurd (hall y) hout
  have hdead := dfs_deadEnd hbound hsound (fun _ => le_rfl) hsource hinf hzero
  refine hdead.dead (hpath (levels (openArc cap) vs s t).toNat t ?_)
  omega

/-- With as many rounds as the flow can grow the sink ends up out of reach. -/
theorem maxFlow_spec (hvs : vs.Nodup) (hall : ∀ v, v ∈ vs) (hst : s ≠ t) (hinf : 0 < inf)
    {bound : ℤ} (hbound : ∀ cap flow, Residual cap₀ cap s t flow → flow ≤ bound)
    {steps k : Nat} {cap : V → V → ℤ} {flow : ℤ} (h : Residual cap₀ cap s t flow)
    (hsteps : bound < flow + steps) (hk : bound < flow + k) :
    ∃ cap' flow', maxFlow vs s t inf steps k cap flow = some (cap', flow') ∧
      Residual cap₀ cap' s t flow' ∧ levels (openArc cap') vs s t < 0 := by
  induction k generalizing cap flow with
  | zero =>
      have := hbound cap flow h
      push_cast at hk
      omega
  | succ k ih =>
      unfold maxFlow
      simp only
      split
      · next hcut => exact ⟨cap, flow, rfl, h, hcut⟩
      · next hreach =>
          have hres : Residual cap₀ (Search.mk cap fun _ => vs).cap s t flow := h
          obtain ⟨st', flow', heq, hres', hle⟩ := augment_residual hst hinf.le hbound hres hsteps
          have hpos := dfs_pos hvs hall hinf hreach
          rw [heq, Option.bind_some]
          refine ih hres' ?_ ?_
          · omega
          · push_cast at hk
            omega

end MaxFlow

end BitcoinMachineCode.Foundation
