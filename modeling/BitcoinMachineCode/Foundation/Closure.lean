import BitcoinMachineCode.Foundation.Diagram
import BitcoinMachineCode.Foundation.Flow
import Mathlib.Algebra.BigOperators.Fin
import Mathlib.Algebra.BigOperators.Ring.Finset

/-!
# Closed sets of an order

Each element has the set of those above it.  A part of what remains is closed when it has
everything above its elements that remains.  The heaviest closed part is one side of a
smallest cut, the part with the best ratio of two weights is reached by a few such cuts,
and taking parts of the best ratio one after another gives the highest diagram of all
orders that list everything after what is above it.
-/

namespace BitcoinMachineCode.Foundation

variable {V : Type*} [DecidableEq V]

def Closed (up : V → Finset V) (rem S : Finset V) : Prop :=
  S ⊆ rem ∧ ∀ v ∈ S, ∀ u ∈ up v, u ∈ rem → u ∈ S

section Closed

variable {up : V → Finset V} {rem S T : Finset V}

omit [DecidableEq V] in
theorem closed_empty : Closed up rem ∅ := ⟨Finset.empty_subset _, nofun⟩

theorem Closed.union (hS : Closed up rem S) (hT : Closed up rem T) : Closed up rem (S ∪ T) := by
  refine ⟨Finset.union_subset hS.1 hT.1, fun v hv u hu hrem => ?_⟩
  rcases Finset.mem_union.mp hv with hv | hv
  · exact Finset.mem_union_left _ (hS.2 v hv u hu hrem)
  · exact Finset.mem_union_right _ (hT.2 v hv u hu hrem)

theorem Closed.inter (hS : Closed up rem S) (hT : Closed up rem T) : Closed up rem (S ∩ T) := by
  refine ⟨Finset.inter_subset_left.trans hS.1, fun v hv u hu hrem => ?_⟩
  obtain ⟨hvS, hvT⟩ := Finset.mem_inter.mp hv
  exact Finset.mem_inter.mpr ⟨hS.2 v hvS u hu hrem, hT.2 v hvT u hu hrem⟩

/-- What is left of a closed part once another is taken. -/
theorem Closed.sdiff (hT : Closed up rem T) : Closed up (rem \ S) (T \ S) := by
  refine ⟨Finset.sdiff_subset_sdiff hT.1 subset_rfl, fun v hv u hu hrem => ?_⟩
  obtain ⟨hrem, hout⟩ := Finset.mem_sdiff.mp hrem
  exact Finset.mem_sdiff.mpr ⟨hT.2 v (Finset.mem_sdiff.mp hv).1 u hu hrem, hout⟩

theorem Closed.union_of_sdiff (hS : Closed up rem S) (hT : Closed up (rem \ S) T) :
    Closed up rem (S ∪ T) := by
  refine ⟨Finset.union_subset hS.1 (hT.1.trans Finset.sdiff_subset), fun v hv u hu hrem => ?_⟩
  by_cases huS : u ∈ S
  · exact Finset.mem_union_left _ huS
  · rcases Finset.mem_union.mp hv with hv | hv
    · exact absurd (hS.2 v hv u hu hrem) huS
    · exact Finset.mem_union_right _ (hT.2 v hv u hu (Finset.mem_sdiff.mpr ⟨hrem, huS⟩))

end Closed

/-! ## The heaviest closed part -/

/-- The network of a weighing: the elements, a source and a sink. -/
inductive Vertex (V : Type*)
  | member (v : V)
  | source
  | sink
  deriving DecidableEq

namespace Vertex

def equivOption : Vertex V ≃ Option (Option V) where
  toFun
    | member v => some (some v)
    | source => some none
    | sink => none
  invFun
    | some (some v) => member v
    | some none => source
    | none => sink
  left_inv x := by cases x <;> rfl
  right_inv x := by rcases x with _ | _ | _ <;> rfl

instance [Fintype V] : Fintype (Vertex V) := Fintype.ofEquiv _ equivOption.symm

end Vertex

open Vertex

/-- From the source to what weighs more than nothing, from what weighs less to the sink,
and beyond all of it from an element to what is above it. -/
def closureCap (up : V → Finset V) (rem : Finset V) (p : V → ℤ) (inf : ℤ) :
    Vertex V → Vertex V → ℤ
  | source, member v => if v ∈ rem ∧ 0 < p v then p v else 0
  | member v, sink => if v ∈ rem ∧ p v < 0 then -p v else 0
  | member v, member u => if v ∈ rem ∧ u ∈ up v ∧ u ∈ rem ∧ u ≠ v then inf else 0
  | _, _ => 0

/-- All that weighs more than nothing. -/
def positive (rem : Finset V) (p : V → ℤ) : ℤ := ∑ v ∈ rem, max 0 (p v)

/-- The members that the levels reach. -/
def reached [Fintype V] (level : Vertex V → ℤ) : Finset V :=
  Finset.univ.filter fun v => 0 ≤ level (member v)

/-- The side of the source for a part. -/
def sourceSide (S : Finset V) : Finset (Vertex V) :=
  insert source (S.image member)

section Cut

variable {up : V → Finset V} {rem S : Finset V} {p : V → ℤ} {inf : ℤ}

@[simp] theorem mem_sourceSide_member {v : V} : member v ∈ sourceSide S ↔ v ∈ S := by
  simp [sourceSide]

@[simp] theorem source_mem_sourceSide : (source : Vertex V) ∈ sourceSide S := by
  simp [sourceSide]

@[simp] theorem sink_not_mem_sourceSide : (sink : Vertex V) ∉ sourceSide S := by
  simp [sourceSide]

theorem sum_sourceSide (f : Vertex V → ℤ) :
    ∑ x ∈ sourceSide S, f x = f source + ∑ v ∈ S, f (member v) := by
  unfold sourceSide
  rw [Finset.sum_insert (by simp), Finset.sum_image (by simp)]

theorem closureCap_nonneg (hinf : 0 ≤ inf) (x y : Vertex V) :
    0 ≤ closureCap up rem p inf x y := by
  unfold closureCap
  split
  all_goals first
    | exact le_rfl
    | split
      · omega
      · exact le_rfl

omit [DecidableEq V] in
theorem positive_nonneg : 0 ≤ positive rem p :=
  Finset.sum_nonneg fun _ _ => le_max_left _ _

variable [Fintype V]

theorem sum_sourceSide_compl (f : Vertex V → ℤ) :
    ∑ x ∈ (sourceSide S)ᶜ, f x = f sink + ∑ v ∈ Sᶜ, f (member v) := by
  have hset : (sourceSide S)ᶜ = insert sink (Sᶜ.image member) := by
    ext x
    cases x <;> simp
  rw [hset, Finset.sum_insert (by simp), Finset.sum_image (by simp)]

/-- The arcs out of a closed part are those of what is left out and weighs, and of what is
in it and is a burden. -/
theorem cut_eq (hS : Closed up rem S) :
    ∑ x ∈ sourceSide S, ∑ y ∈ (sourceSide S)ᶜ, closureCap up rem p inf x y =
      positive rem p - ∑ v ∈ S, p v := by
  have hsource : ∑ y ∈ (sourceSide S)ᶜ, closureCap up rem p inf source y =
      ∑ v ∈ rem \ S, max 0 (p v) := by
    rw [sum_sourceSide_compl]
    simp only [closureCap, zero_add]
    have hsub : rem \ S ⊆ Sᶜ := fun v hv => Finset.mem_compl.mpr (Finset.mem_sdiff.mp hv).2
    rw [← Finset.sum_subset hsub]
    · refine Finset.sum_congr rfl fun v hv => ?_
      have hrem := (Finset.mem_sdiff.mp hv).1
      by_cases hp : 0 < p v
      · simp [hrem, hp, hp.le]
      · simp [hp, not_lt.mp hp]
    · intro v hv hout
      have : v ∉ rem := fun hrem =>
        hout (Finset.mem_sdiff.mpr ⟨hrem, Finset.mem_compl.mp hv⟩)
      simp [this]
  have hmember : ∀ v ∈ S, ∑ y ∈ (sourceSide S)ᶜ, closureCap up rem p inf (member v) y =
      max 0 (p v) - p v := by
    intro v hv
    rw [sum_sourceSide_compl, Finset.sum_eq_zero, add_zero]
    · simp only [closureCap]
      by_cases hp : p v < 0
      · rw [if_pos ⟨hS.1 hv, hp⟩, max_eq_left hp.le, zero_sub]
      · rw [if_neg fun h => hp h.2, max_eq_right (not_lt.mp hp), sub_self]
    · intro u hu
      simp only [closureCap]
      refine if_neg fun h => ?_
      exact Finset.mem_compl.mp hu (hS.2 v hv u h.2.1 h.2.2.1)
  rw [sum_sourceSide, hsource, Finset.sum_congr rfl hmember, Finset.sum_sub_distrib, positive,
    ← Finset.sum_sdiff hS.1]
  ring

theorem flow_le_positive {cap : Vertex V → Vertex V → ℤ} {flow : ℤ}
    (h : Residual (closureCap up rem p inf) cap source sink flow) : flow ≤ positive rem p := by
  have hcut := h.flow_le source_mem_sourceSide (sink_not_mem_sourceSide (S := ∅))
  rwa [cut_eq closed_empty, Finset.sum_empty, sub_zero] at hcut

/-- A closed part of the greatest weight, within all others of that weight. -/
structure Heaviest (up : V → Finset V) (rem : Finset V) (p : V → ℤ) (S : Finset V) : Prop where
  closed : Closed up rem S
  le : ∀ T, Closed up rem T → ∑ v ∈ T, p v ≤ ∑ v ∈ S, p v
  least : ∀ T, Closed up rem T → ∑ v ∈ T, p v = ∑ v ∈ S, p v → S ⊆ T

variable {vs : List (Vertex V)} {cap : Vertex V → Vertex V → ℤ} {flow : ℤ}

/-- What a search reaches is on the source's side of every cut without open arcs. -/
theorem reached_subset (hvs : vs.Nodup) (hall : ∀ x, x ∈ vs)
    (hcut : ∀ x ∈ sourceSide S, ∀ y ∉ sourceSide S, cap x y = 0) :
    reached (levels (openArc cap) vs source) ⊆ S := by
  have hinv : BfsInv (openArc cap) source [] (levels (openArc cap) vs source) :=
    levels_inv hvs hall
  have hside : ∀ (n : Nat) (x : Vertex V), levels (openArc cap) vs source x = n →
      x ∈ sourceSide S := by
    intro n
    induction n with
    | zero =>
        intro x hx
        by_cases hsource : x = source
        · rw [hsource]
          exact source_mem_sourceSide
        · obtain ⟨u, hu, -, heq⟩ := hinv.before x (by omega) hsource
          push_cast at hx
          omega
    | succ n ih =>
        intro x hx
        by_cases hsource : x = source
        · rw [hsource]
          exact source_mem_sourceSide
        · obtain ⟨u, hu, harc, heq⟩ := hinv.before x (by push_cast at hx; omega) hsource
          by_contra hout
          have hzero := hcut u (ih u (by push_cast at hx; omega)) x hout
          have hpos : 0 < cap u x := of_decide_eq_true harc
          omega
  intro v hv
  have hlev := (Finset.mem_filter.mp hv).2
  exact mem_sourceSide_member.mp (hside (levels (openArc cap) vs source (member v)).toNat _
    (Int.toNat_of_nonneg hlev).symm)

/-- No arc at all touches what does not remain, so no search comes there. -/
theorem reached_subset_rem (hvs : vs.Nodup) (hall : ∀ x, x ∈ vs)
    (h : Residual (closureCap up rem p inf) cap source sink flow) :
    reached (levels (openArc cap) vs source) ⊆ rem := by
  have hinv : BfsInv (openArc cap) source [] (levels (openArc cap) vs source) :=
    levels_inv hvs hall
  intro v hv
  obtain ⟨u, -, harc, -⟩ := hinv.before (member v) (Finset.mem_filter.mp hv).2 nofun
  have hpos : 0 < cap u (member v) := of_decide_eq_true harc
  have hpair := h.pair u (member v)
  have hback := h.nonneg (member v) u
  by_contra hout
  have hzero : closureCap up rem p inf u (member v) + closureCap up rem p inf (member v) u = 0 := by
    cases u <;> simp [closureCap, hout]
  omega

/-- When the sink is out of reach, what is reached is the heaviest closed part. -/
theorem heaviest_reached (hvs : vs.Nodup) (hall : ∀ x, x ∈ vs)
    (h : Residual (closureCap up rem p (positive rem p + 1)) cap source sink flow)
    (hend : levels (openArc cap) vs source sink < 0) :
    Heaviest up rem p (reached (levels (openArc cap) vs source)) ∧
      ∑ v ∈ reached (levels (openArc cap) vs source), p v = positive rem p - flow := by
  have hinv : BfsInv (openArc cap) source [] (levels (openArc cap) vs source) :=
    levels_inv hvs hall
  have hmem : ∀ x, x ∈ sourceSide (reached (levels (openArc cap) vs source)) ↔
      0 ≤ levels (openArc cap) vs source x := by
    intro x
    cases x with
    | member v => simp [reached]
    | source => simp [hinv.source]
    | sink => simp [hend]
  have hclosedArcs : ∀ x ∈ sourceSide (reached (levels (openArc cap) vs source)),
      ∀ y ∉ sourceSide (reached (levels (openArc cap) vs source)), cap x y = 0 := by
    intro x hx y hy
    by_contra hne
    have hpos : 0 < cap x y := lt_of_le_of_ne (h.nonneg x y) (Ne.symm hne)
    exact hy ((hmem y).mpr (hinv.expanded x ((hmem x).mp hx) List.not_mem_nil y (decide_eq_true hpos)))
  have hflow := (h.flow_eq_iff source_mem_sourceSide sink_not_mem_sourceSide).mpr hclosedArcs
  have hsub := reached_subset_rem hvs hall h
  -- an arc to something above is more than the whole flow
  have hclosed : Closed up rem (reached (levels (openArc cap) vs source)) := by
    refine ⟨hsub, fun v hv u hu hrem => ?_⟩
    by_contra hout
    have hne : u ≠ v := fun heq => hout (heq ▸ hv)
    have harc : closureCap up rem p (positive rem p + 1) (member v) (member u) =
        positive rem p + 1 := if_pos ⟨hsub hv, hu, hrem, hne⟩
    have hinf : 0 ≤ positive rem p + 1 := add_nonneg positive_nonneg zero_le_one
    have hnonneg : ∀ x y, 0 ≤ closureCap up rem p (positive rem p + 1) x y :=
      closureCap_nonneg hinf
    have hrow := Finset.single_le_sum
      (f := fun y => closureCap up rem p (positive rem p + 1) (member v) y)
      (fun y _ => hnonneg _ y) (Finset.mem_compl.mpr (mem_sourceSide_member.not.mpr hout))
    have hall := Finset.single_le_sum
      (f := fun x => ∑ y ∈ (sourceSide (reached (levels (openArc cap) vs source)))ᶜ,
        closureCap up rem p (positive rem p + 1) x y)
      (fun x _ => Finset.sum_nonneg fun y _ => hnonneg x y) (mem_sourceSide_member.mpr hv)
    have hle := flow_le_positive h
    omega
  have hvalue : ∑ v ∈ reached (levels (openArc cap) vs source), p v = positive rem p - flow := by
    rw [cut_eq hclosed] at hflow
    omega
  refine ⟨⟨hclosed, fun T hT => ?_, fun T hT heq => ?_⟩, hvalue⟩
  · have hle := h.flow_le source_mem_sourceSide (sink_not_mem_sourceSide (S := T))
    rw [cut_eq hT] at hle
    omega
  · refine reached_subset hvs hall ?_
    refine (h.flow_eq_iff source_mem_sourceSide sink_not_mem_sourceSide).mp ?_
    rw [cut_eq hT]
    omega

end Cut

/-! ## The best ratio -/

section Ratio

variable {up : V → Finset V} {rem S T : Finset V} {a b : V → ℕ}

/-- How much more than the ratio `F / W` an element has, times `W`. -/
def surplus (a b : V → ℕ) (F W : ℕ) (v : V) : ℤ := a v * W - F * b v

omit [DecidableEq V] in
theorem sum_surplus (F W : ℕ) (S : Finset V) :
    ∑ v ∈ S, surplus a b F W v = (∑ v ∈ S, a v : ℕ) * W - F * (∑ v ∈ S, b v : ℕ) := by
  unfold surplus
  rw [Finset.sum_sub_distrib, ← Finset.sum_mul, ← Finset.mul_sum]
  push_cast
  rfl

/-- A nonempty closed part no other exceeds in the ratio of its sums. -/
structure BestRatio (up : V → Finset V) (rem : Finset V) (a b : V → ℕ) (S : Finset V) : Prop where
  closed : Closed up rem S
  nonempty : S.Nonempty
  best : ∀ T, Closed up rem T → (∑ v ∈ T, a v) * (∑ v ∈ S, b v) ≤ (∑ v ∈ S, a v) * (∑ v ∈ T, b v)

omit [DecidableEq V] in
theorem bestRatio_of_surplus (hS : Closed up rem S) (hne : S.Nonempty)
    (h : ∀ T, Closed up rem T →
      ∑ v ∈ T, surplus a b (∑ v ∈ S, a v) (∑ v ∈ S, b v) v ≤ 0) : BestRatio up rem a b S := by
  refine ⟨hS, hne, fun T hT => ?_⟩
  have := h T hT
  rw [sum_surplus] at this
  have hle : ((∑ v ∈ T, a v : ℕ) : ℤ) * (∑ v ∈ S, b v : ℕ) ≤
      (∑ v ∈ S, a v : ℕ) * (∑ v ∈ T, b v : ℕ) := by linarith
  exact_mod_cast hle

/-- The heaviest part over a better ratio is within the heaviest over a lesser one: from one
cut to the next the part shrinks. -/
theorem heaviest_ssubset {F W : ℕ} (hb : ∀ v ∈ rem, 0 < b v)
    (hS : Heaviest up rem (surplus a b F W) S) (hgain : 0 < ∑ v ∈ S, surplus a b F W v)
    (hT : Heaviest up rem (surplus a b (∑ v ∈ S, a v) (∑ v ∈ S, b v)) T)
    (hmore : 0 < ∑ v ∈ T, surplus a b (∑ v ∈ S, a v) (∑ v ∈ S, b v) v) : T ⊂ S := by
  have hself : ∑ v ∈ S, surplus a b (∑ v ∈ S, a v) (∑ v ∈ S, b v) v = 0 := by
    rw [sum_surplus]
    ring
  refine Finset.ssubset_iff_subset_ne.mpr ⟨?_, fun heq => ?_⟩
  · by_contra hout
    -- the union would gain over `F / W` what `S` does and more
    have hlarger : ∑ v ∈ S, b v < ∑ v ∈ S ∪ T, b v := by
      obtain ⟨v, hvT, hvS⟩ := Finset.not_subset.mp hout
      exact Finset.sum_lt_sum_of_subset Finset.subset_union_left
        (Finset.mem_union_right _ hvT) hvS (hb v (hT.closed.1 hvT)) fun _ _ _ => Nat.zero_le _
    have hmod : ∑ v ∈ S ∪ T, surplus a b (∑ v ∈ S, a v) (∑ v ∈ S, b v) v +
        ∑ v ∈ S ∩ T, surplus a b (∑ v ∈ S, a v) (∑ v ∈ S, b v) v =
        ∑ v ∈ S, surplus a b (∑ v ∈ S, a v) (∑ v ∈ S, b v) v +
        ∑ v ∈ T, surplus a b (∑ v ∈ S, a v) (∑ v ∈ S, b v) v := Finset.sum_union_inter
    have hinter := hT.le _ (hS.closed.inter hT.closed)
    have hunion := hS.le _ (hS.closed.union hT.closed)
    rw [sum_surplus, sum_surplus] at hunion
    have hup : 0 ≤ ∑ v ∈ S ∪ T, surplus a b (∑ v ∈ S, a v) (∑ v ∈ S, b v) v := by linarith
    rw [sum_surplus] at hup hgain
    have hW : 0 ≤ (W : ℤ) := Int.natCast_nonneg W
    have hlarger' : ((∑ v ∈ S, b v : ℕ) : ℤ) < (∑ v ∈ S ∪ T, b v : ℕ) := by exact_mod_cast hlarger
    have hSb : 0 ≤ ((∑ v ∈ S, b v : ℕ) : ℤ) := Int.natCast_nonneg _
    have hscaled := mul_le_mul_of_nonneg_left hunion hSb
    have hgrow := mul_lt_mul_of_pos_left hlarger' hgain
    have hpart := mul_nonneg hW hup
    nlinarith
  · rw [heq, hself] at hmore
    exact lt_irrefl _ hmore

end Ratio

/-! ## Peeling off the best parts -/

section Peel

variable {up : V → Finset V} {rem S T : Finset V} {a b : V → ℕ}

/-- The segment of a part. -/
def segment (a b : V → ℕ) (S : Finset V) : Segment := ⟨(∑ v ∈ S, a v : ℕ), (∑ v ∈ S, b v : ℕ)⟩

/-- A part of the best ratio, then one of what is left, to the end. -/
inductive Peeled (up : V → Finset V) (a b : V → ℕ) : Finset V → List (Finset V) → Prop
  | nil : Peeled up a b ∅ []
  | cons {rem S parts} (best : BestRatio up rem a b S) (rest : Peeled up a b (rem \ S) parts) :
      Peeled up a b rem (S :: parts)

theorem segment_union (hdisj : Disjoint S T) :
    segment a b (S ∪ T) = segment a b S + segment a b T := by
  unfold segment
  rw [Finset.sum_union hdisj, Finset.sum_union hdisj, Nat.cast_add, Nat.cast_add]
  rfl

omit [DecidableEq V] in
theorem segment_run_pos (hb : ∀ v ∈ rem, 0 < b v) (hS : S ⊆ rem) (hne : S.Nonempty) :
    0 < (segment a b S).run := by
  have : 0 < ∑ v ∈ S, b v := Finset.sum_pos (fun v hv => hb v (hS hv)) hne
  have hcast : (0 : ℚ) < (∑ v ∈ S, b v : ℕ) := by exact_mod_cast this
  exact hcast

theorem Peeled.head {parts : List (Finset V)}
    (h : Peeled up a b rem (S :: parts)) : BestRatio up rem a b S := by
  cases h with
  | cons best rest => exact best

theorem Peeled.forward {parts : List (Finset V)} (h : Peeled up a b rem parts)
    (hb : ∀ v ∈ rem, 0 < b v) : Forward (parts.map (segment a b)) := by
  induction h with
  | nil => exact nofun
  | cons best rest ih =>
      intro s hs
      rcases List.mem_cons.mp hs with rfl | hs
      · exact segment_run_pos hb best.closed.1 best.nonempty
      · exact ih (fun v hv => hb v (Finset.mem_sdiff.mp hv).1) s hs

omit [DecidableEq V] in
/-- Of a closed part no more can be gained than the best one gains. -/
theorem BestRatio.above_le (hS : BestRatio up rem a b S) (hb : ∀ v ∈ rem, 0 < b v)
    (hT : Closed up rem T) (hsub : T ⊆ S) (r : ℚ) :
    (segment a b T).above r ≤ max 0 ((segment a b S).above r) := by
  have hbest : ((∑ v ∈ T, a v : ℕ) : ℚ) * (∑ v ∈ S, b v : ℕ) ≤
      (∑ v ∈ S, a v : ℕ) * (∑ v ∈ T, b v : ℕ) := by exact_mod_cast hS.best T hT
  have hrun := segment_run_pos (a := a) hb hS.closed.1 hS.nonempty
  have hle : ((∑ v ∈ T, b v : ℕ) : ℚ) ≤ (∑ v ∈ S, b v : ℕ) := by
    exact_mod_cast Finset.sum_le_sum_of_subset hsub
  have hnonneg : (0 : ℚ) ≤ (∑ v ∈ T, b v : ℕ) := Nat.cast_nonneg _
  simp only [segment, Segment.above] at hrun ⊢
  generalize ((∑ v ∈ T, a v : ℕ) : ℚ) = at' at *
  generalize ((∑ v ∈ S, a v : ℕ) : ℚ) = as at *
  generalize ((∑ v ∈ T, b v : ℕ) : ℚ) = bt at *
  generalize ((∑ v ∈ S, b v : ℕ) : ℚ) = bs at *
  -- `T` gains at most its share of what `S` gains
  have hshare : (at' - r * bt) * bs ≤ (as - r * bs) * bt := by nlinarith
  rcases le_total 0 (as - r * bs) with hpos | hneg
  · rw [max_eq_right hpos]
    have : (as - r * bs) * bt ≤ (as - r * bs) * bs := mul_le_mul_of_nonneg_left hle hpos
    exact le_of_mul_le_mul_right (hshare.trans this) hrun
  · rw [max_eq_left hneg]
    have : (as - r * bs) * bt ≤ 0 * bs := by nlinarith
    exact le_of_mul_le_mul_right (hshare.trans this) hrun

theorem Peeled.falling {parts : List (Finset V)} (h : Peeled up a b rem parts)
    (hb : ∀ v ∈ rem, 0 < b v) : Falling (parts.map (segment a b)) := by
  induction h with
  | nil => exact List.Pairwise.nil
  | @cons rem S parts best rest ih =>
      have hb' : ∀ v ∈ rem \ S, 0 < b v := fun v hv => hb v (Finset.mem_sdiff.mp hv).1
      refine List.pairwise_cons.mpr ⟨?_, ih hb'⟩
      have hfwd := rest.forward hb'
      have hrunS := segment_run_pos (a := a) hb best.closed.1 best.nonempty
      have hfall := ih hb'
      cases parts with
      | nil => exact nofun
      | cons T parts =>
          have hT := rest.head
          -- the next part together with this one is closed too
          have hdisj : Disjoint S T := by
            refine Finset.disjoint_left.mpr fun v hvS hvT => ?_
            exact (Finset.mem_sdiff.mp (hT.closed.1 hvT)).2 hvS
          have hfirst : ¬ Segment.Below (segment a b S) (segment a b T) := by
            have hbest := best.best _ (best.closed.union_of_sdiff hT.closed)
            rw [Finset.sum_union hdisj, Finset.sum_union hdisj] at hbest
            unfold Segment.Below
            push Not
            have hle : (∑ v ∈ T, a v) * (∑ v ∈ S, b v) ≤ (∑ v ∈ S, a v) * (∑ v ∈ T, b v) := by
              nlinarith
            simp only [segment]
            exact_mod_cast hle
          intro s hs
          rcases List.mem_cons.mp hs with rfl | hs
          · exact hfirst
          · have hrunT : 0 < (segment a b T).run := hfwd _ List.mem_cons_self
            exact not_below_trans hrunS hrunT (hfwd s (List.mem_cons_of_mem _ hs)) hfirst
              ((List.pairwise_cons.mp hfall).1 s hs)

/-- No closed part rises above a line more than the parts peeled off do. -/
theorem Peeled.above_le {parts : List (Finset V)} (h : Peeled up a b rem parts)
    (hb : ∀ v ∈ rem, 0 < b v) (hT : Closed up rem T) (r : ℚ) :
    (segment a b T).above r ≤ peak r (parts.map (segment a b)) := by
  rw [peak_eq_sum (h.forward hb) (h.falling hb)]
  induction h generalizing T with
  | nil =>
      have hnil : T = ∅ := Finset.subset_empty.mp hT.1
      simp [hnil, segment, Segment.above]
  | @cons rem S parts best rest ih =>
      have hb' : ∀ v ∈ rem \ S, 0 < b v := fun v hv => hb v (Finset.mem_sdiff.mp hv).1
      have hin := best.above_le hb (hT.inter best.closed) Finset.inter_subset_right r
      have hout := ih hb' (hT.sdiff (S := S))
      have hsplit : segment a b T = segment a b (T ∩ S) + segment a b (T \ S) := by
        rw [← segment_union (Finset.disjoint_sdiff_inter T S).symm, Finset.union_comm,
          Finset.sdiff_union_inter]
      rw [hsplit, Segment.above_add, List.map_cons, List.map_cons, List.sum_cons]
      exact add_le_add hin hout

/-! ## Orders -/

/-- The segments of an order, one for each element. -/
def single (a b : V → ℕ) (v : V) : Segment := ⟨a v, b v⟩

/-- Each after what is above it and in `rem`; `seen` stands in front. -/
def After (up : V → Finset V) (rem : Finset V) (seen lin : List V) : Prop :=
  ∀ pre v post, lin = pre ++ v :: post → ∀ u ∈ up v, u ∈ rem → u ≠ v → u ∈ seen ∨ u ∈ pre

/-- All of `rem`, each after what is above it. -/
structure Topological (up : V → Finset V) (rem : Finset V) (lin : List V) : Prop where
  nodup : lin.Nodup
  toFinset : lin.toFinset = rem
  after : After up rem [] lin

omit [DecidableEq V] in
theorem After.append {seen l m : List V} (hl : After up rem seen l)
    (hm : After up rem (seen ++ l) m) : After up rem seen (l ++ m) := by
  intro pre v post heq u hu hrem hne
  rcases List.append_eq_append_iff.mp heq with ⟨x, rfl, hx⟩ | ⟨x, hx, hx'⟩
  · rcases hm x v post hx u hu hrem hne with hseen | hpre
    · rcases List.mem_append.mp hseen with hseen | hl
      · exact .inl hseen
      · exact .inr (List.mem_append_left _ hl)
    · exact .inr (List.mem_append_right _ hpre)
  · cases x with
    | nil =>
        rw [List.append_nil] at hx
        rcases hm [] v post (by simpa using hx'.symm) u hu hrem hne with hseen | hpre
        · rw [← hx]
          exact List.mem_append.mp hseen
        · exact absurd hpre List.not_mem_nil
    | cons w x =>
        obtain ⟨rfl, -⟩ := List.cons.inj hx'
        exact hl pre v x hx u hu hrem hne

/-- An order of a closed part and one of the rest. -/
theorem Topological.append {l m : List V} (hS : Closed up rem S) (hl : Topological up S l)
    (hm : Topological up (rem \ S) m) : Topological up rem (l ++ m) := by
  have hmemS : ∀ {v}, v ∈ l ↔ v ∈ S := fun {v} => by rw [← hl.toFinset, List.mem_toFinset]
  have hmemR : ∀ {v}, v ∈ m ↔ v ∈ rem \ S := fun {v} => by rw [← hm.toFinset, List.mem_toFinset]
  refine ⟨?_, ?_, After.append ?_ ?_⟩
  · refine List.nodup_append.mpr ⟨hl.nodup, hm.nodup, fun x hx y hy heq => ?_⟩
    subst heq
    exact (Finset.mem_sdiff.mp (hmemR.mp hy)).2 (hmemS.mp hx)
  · rw [List.toFinset_append, hl.toFinset, hm.toFinset, Finset.union_sdiff_of_subset hS.1]
  · intro pre v post heq u hu hrem hne
    have hv : v ∈ S := hmemS.mp (heq ▸ List.mem_append_right _ List.mem_cons_self)
    exact hl.after pre v post heq u hu (hS.2 v hv u hu hrem) hne
  · intro pre v post heq u hu hrem hne
    by_cases huS : u ∈ S
    · exact .inl (hmemS.mpr huS)
    · have hout := Finset.mem_sdiff.mpr ⟨hrem, huS⟩
      exact .inr ((hm.after pre v post heq u hu hout hne).resolve_left List.not_mem_nil)

theorem totalAbove_single (r : ℚ) {l : List V} (hl : l.Nodup) :
    totalAbove r (l.map (single a b)) = (segment a b l.toFinset).above r := by
  induction l with
  | nil => simp [totalAbove, segment, Segment.above]
  | cons v l ih =>
      obtain ⟨hv, hl⟩ := List.nodup_cons.mp hl
      have hset : (v :: l).toFinset = {v} ∪ l.toFinset := by
        rw [List.toFinset_cons, Finset.insert_eq]
      have hdisj : Disjoint {v} l.toFinset :=
        Finset.disjoint_singleton_left.mpr fun h => hv (List.mem_toFinset.mp h)
      rw [hset, segment_union hdisj, Segment.above_add, ← ih hl]
      simp [totalAbove, segment, single]

/-- What stands at the front of an order is closed. -/
theorem Topological.closed_front {lin pre post : List V} (h : Topological up rem lin)
    (heq : lin = pre ++ post) : Closed up rem pre.toFinset := by
  refine ⟨fun v hv => ?_, fun v hv u hu hrem => ?_⟩
  · rw [← h.toFinset, heq]
    exact List.mem_toFinset.mpr (List.mem_append_left _ (List.mem_toFinset.mp hv))
  · obtain ⟨front, back, hsplit⟩ := List.append_of_mem (List.mem_toFinset.mp hv)
    by_cases huv : u = v
    · rw [huv]
      exact hv
    · have hmem := (h.after front v (back ++ post) (by rw [heq, hsplit]; simp) u hu hrem
        huv).resolve_left List.not_mem_nil
      rw [hsplit]
      exact List.mem_toFinset.mpr (List.mem_append_left _ hmem)

/-- An order that lists the parts peeled off one after another rises as high as they do. -/
theorem peak_parts_le (r : ℚ) {orders : List (List V)} (hnodup : orders.flatten.Nodup) :
    peak r ((orders.map List.toFinset).map (segment a b)) ≤
      peak r (orders.flatten.map (single a b)) := by
  induction orders with
  | nil => exact le_rfl
  | cons l orders ih =>
      rw [List.flatten_cons] at hnodup
      obtain ⟨hl, hrest, -⟩ := List.nodup_append.mp hnodup
      have hfront := totalAbove_add_peak_le r (l.map (single a b)) (orders.flatten.map (single a b))
      rw [totalAbove_single r hl] at hfront
      simp only [List.map_cons, List.flatten_cons, List.map_append, peak_cons]
      refine max_le (peak_nonneg _ _) ?_
      have := ih hrest
      linarith

omit [DecidableEq V] in
theorem pairwise_of_splits {R : V → V → Prop} {l : List V}
    (h : ∀ pre u post, l = pre ++ u :: post → ∀ v ∈ post, R u v) : l.Pairwise R := by
  induction l with
  | nil => exact List.Pairwise.nil
  | cons a l ih =>
      refine List.pairwise_cons.mpr ⟨h [] a l rfl, ih fun pre u post heq => ?_⟩
      exact h (a :: pre) u post (by rw [heq]; rfl)

/-- An order holds everything once, and nothing ahead of what is above it. -/
theorem topological_iff {lin : List V} :
    Topological up rem lin ↔
      lin.Nodup ∧ lin.toFinset = rem ∧ lin.Pairwise fun u v => v ∉ up u := by
  constructor
  · rintro ⟨hnodup, hset, hafter⟩
    refine ⟨hnodup, hset, pairwise_of_splits fun pre u post heq v hv hup => ?_⟩
    have hrem : v ∈ rem := by
      rw [← hset, heq]
      exact List.mem_toFinset.mpr (List.mem_append_right _ (List.mem_cons_of_mem _ hv))
    rw [heq] at hnodup
    obtain ⟨-, hback, hcross⟩ := List.nodup_append.mp hnodup
    have hne : v ≠ u := fun h => (List.nodup_cons.mp hback).1 (h ▸ hv)
    have hpre := (hafter pre u post heq v hup hrem hne).resolve_left List.not_mem_nil
    exact hcross v hpre v (List.mem_cons_of_mem _ hv) rfl
  · rintro ⟨hnodup, hset, hpair⟩
    refine ⟨hnodup, hset, fun pre v post heq u hu hrem hne => .inr ?_⟩
    have hmem : u ∈ lin := by
      rw [← List.mem_toFinset, hset]
      exact hrem
    rw [heq] at hmem hpair
    rcases List.mem_append.mp hmem with hpre | hpost
    · exact hpre
    · rcases List.mem_cons.mp hpost with rfl | hpost
      · exact absurd rfl hne
      · have hcons := (List.pairwise_append.mp hpair).2.1
        exact absurd hu ((List.pairwise_cons.mp hcons).1 u hpost)

/-- The most a closed part rises above a line of slope `r`. -/
structure IsPeak (up : V → Finset V) (rem : Finset V) (a b : V → ℕ) (r v : ℚ) : Prop where
  le : ∀ T, Closed up rem T → (segment a b T).above r ≤ v
  attained : ∃ T, Closed up rem T ∧ (segment a b T).above r = v

omit [DecidableEq V] in
theorem IsPeak.unique {r v w : ℚ} (hv : IsPeak up rem a b r v) (hw : IsPeak up rem a b r w) :
    v = w := by
  obtain ⟨T, hT, rfl⟩ := hv.attained
  obtain ⟨U, hU, rfl⟩ := hw.attained
  exact le_antisymm (hw.le T hT) (hv.le U hU)

/-- The peak of an order is what some closed part rises. -/
theorem Topological.exists_peak_eq {lin : List V} (h : Topological up rem lin) (r : ℚ) :
    ∃ T, Closed up rem T ∧ (segment a b T).above r = peak r (lin.map (single a b)) := by
  obtain ⟨p, hp, heq⟩ := Foundation.exists_peak_eq r (lin.map (single a b))
  obtain ⟨pre, hpre, rfl⟩ := List.prefix_map_iff.mp hp
  obtain ⟨post, hsplit⟩ := hpre
  have hnodup : pre.Nodup := (List.nodup_append.mp (hsplit ▸ h.nodup)).1
  exact ⟨pre.toFinset, h.closed_front hsplit.symm, by rw [heq, totalAbove_single r hnodup]⟩

/-- An order with the highest peak stays one when its peak is not lowered. -/
theorem IsPeak.of_le {r v : ℚ} (hv : IsPeak up rem a b r v) {lin : List V}
    (h : Topological up rem lin) (hle : v ≤ peak r (lin.map (single a b))) :
    IsPeak up rem a b r (peak r (lin.map (single a b))) :=
  ⟨fun T hT => (hv.le T hT).trans hle, h.exists_peak_eq r⟩

/-- The order of the parts peeled off has the highest peaks of all. -/
theorem isPeak_of_peeled {orders : List (List V)} (hb : ∀ v ∈ rem, 0 < b v)
    (hpeel : Peeled up a b rem (orders.map List.toFinset))
    (htop : Topological up rem orders.flatten) (r : ℚ) :
    IsPeak up rem a b r (peak r (orders.flatten.map (single a b))) :=
  ⟨fun _ hT => (hpeel.above_le hb hT r).trans (peak_parts_le r htop.nodup), htop.exists_peak_eq r⟩

omit [DecidableEq V] in
theorem forward_single (hb : ∀ v ∈ rem, 0 < b v) {l : List V} (hl : ∀ v ∈ l, v ∈ rem) :
    Forward (l.map (single a b)) := by
  intro s hs
  obtain ⟨v, hv, rfl⟩ := List.mem_map.mp hs
  have hpos : (0 : ℚ) < b v := by exact_mod_cast hb v (hl v hv)
  exact hpos

omit [DecidableEq V] in
theorem rise_nonneg_single (l : List V) : ∀ s ∈ l.map (single a b), 0 ≤ s.rise := by
  intro s hs
  obtain ⟨v, -, rfl⟩ := List.mem_map.mp hs
  have hnonneg : (0 : ℚ) ≤ a v := Nat.cast_nonneg _
  exact hnonneg

/-- An order with the highest peaks has the highest diagram. -/
theorem height_joined_le (hb : ∀ v ∈ rem, 0 < b v) {best lin : List V}
    (hbest : Topological up rem best)
    (hpeak : ∀ r, IsPeak up rem a b r (peak r (best.map (single a b))))
    (hlin : Topological up rem lin) {x : ℚ} (hx : 0 ≤ x) :
    height (joined (lin.map (single a b))) x ≤ height (joined (best.map (single a b))) x := by
  have hmem : ∀ {l}, Topological up rem l → ∀ v ∈ l, v ∈ rem := fun {l} hl v hv =>
    hl.toFinset ▸ List.mem_toFinset.mpr hv
  obtain ⟨hfwd1, -, hpeak1⟩ := joined_spec (forward_single (a := a) hb (hmem hlin))
  obtain ⟨hfwd2, hfall2, hpeak2⟩ := joined_spec (forward_single (a := a) hb (hmem hbest))
  refine height_le_of_peak_le hfwd1 hfwd2 hfall2 (rise_nonneg_joined (rise_nonneg_single _))
    (fun r _ => ?_) hx
  rw [hpeak1, hpeak2]
  obtain ⟨T, hT, heq⟩ := hlin.exists_peak_eq (a := a) (b := b) r
  rw [← heq]
  exact (hpeak r).le T hT

end Peel

end BitcoinMachineCode.Foundation
