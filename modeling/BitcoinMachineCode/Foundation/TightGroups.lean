import BitcoinMachineCode.Foundation.Closure

/-!
# Groups that no part of theirs beats

A group is tight when no part of it that is closed under what is above has a higher slope
than the whole.  Tight groups in the order of their slopes draw the highest diagram there
is, since what a closed set takes out of each group gains no more than the group does.
-/

namespace BitcoinMachineCode.Foundation

open Segment

variable {V : Type*} [DecidableEq V] {up : V → Finset V} {g w : V → ℚ}

/-- What a set gains, over what it weighs. -/
def load (g w : V → ℚ) (S : Finset V) : Segment := ⟨∑ v ∈ S, g v, ∑ v ∈ S, w v⟩

def Tight (up : V → Finset V) (g w : V → ℚ) (G : Finset V) : Prop :=
  ∀ T, Closed up G T → ¬ Below (load g w G) (load g w T)

/-! ## Slopes -/

theorem not_below_add {x s t : Segment} (hs : ¬ Below x s) (ht : ¬ Below x t) :
    ¬ Below x (s + t) := by
  unfold Below at *
  rw [not_lt] at *
  rw [rise_add, run_add]
  linarith

theorem add_not_below {x s t : Segment} (hs : ¬ Below s x) (ht : ¬ Below t x) :
    ¬ Below (s + t) x := by
  unfold Below at *
  rw [not_lt] at *
  rw [rise_add, run_add]
  linarith

/-- The less steep of two is not steeper than both together. -/
theorem join_not_below {s t : Segment} (h : Below s t) : ¬ Below (s + t) s := by
  unfold Below at *
  rw [not_lt, rise_add, run_add]
  linarith

theorem not_below_of_le {x s t : Segment} (hs : 0 < s.run) (ht : 0 ≤ t.run) (hx : 0 < x.run)
    (hxs : ¬ Below x s) (hst : ¬ Below s t) : ¬ Below x t := by
  unfold Below at *
  rw [not_lt] at *
  have h1 : t.rise * s.run * x.run ≤ s.rise * t.run * x.run :=
    mul_le_mul_of_nonneg_right hst hx.le
  have h2 : s.rise * x.run * t.run ≤ x.rise * s.run * t.run := mul_le_mul_of_nonneg_right hxs ht
  refine le_of_mul_le_mul_right ?_ hs
  linarith

/-! ## Parts of groups -/

omit [DecidableEq V] in
theorem run_load_nonneg (hw : ∀ v, 0 < w v) (S : Finset V) : 0 ≤ (load g w S).run :=
  Finset.sum_nonneg fun v _ => (hw v).le

omit [DecidableEq V] in
theorem run_load_pos (hw : ∀ v, 0 < w v) {S : Finset V} (hS : S.Nonempty) :
    0 < (load g w S).run := Finset.sum_pos (fun v _ => hw v) hS

theorem load_union {S T : Finset V} (h : Disjoint S T) :
    load g w (S ∪ T) = load g w S + load g w T := by
  unfold load
  rw [Finset.sum_union h, Finset.sum_union h]
  rfl

/-- A closed part of a union is made up of closed parts. -/
theorem Closed.inter_of_subset {G H T : Finset V} (h : Closed up H T) (hG : G ⊆ H) :
    Closed up G (T ∩ G) := by
  refine ⟨Finset.inter_subset_right, fun v hv u hu hmem => ?_⟩
  exact Finset.mem_inter.mpr ⟨h.2 v (Finset.mem_inter.mp hv).1 u hu (hG hmem), hmem⟩

theorem load_inter_union {P C T : Finset V} (hdisj : Disjoint P C) (hT : T ⊆ P ∪ C) :
    load g w T = load g w (T ∩ P) + load g w (T ∩ C) := by
  rw [← load_union (hdisj.mono Finset.inter_subset_right Finset.inter_subset_right),
    ← Finset.inter_union_distrib_left, Finset.inter_eq_left.mpr hT]

omit [DecidableEq V] in
/-- A closed part with a member that everything is above is the whole. -/
theorem Closed.eq_of_root {G T : Finset V} (h : Closed up G T) {i : V} (hG : G ⊆ up i)
    (hi : i ∈ T) : T = G :=
  subset_antisymm h.1 fun u hu => h.2 i hi u (hG hu) hu

/-- Parts without `i` that are no steeper than `x`. -/
def Topped (up : V → Finset V) (g w : V → ℚ) (i : V) (G : Finset V) (x : Segment) : Prop :=
  ∀ T, Closed up G T → i ∉ T → ¬ Below x (load g w T)

omit [DecidableEq V] in
theorem Topped.mono {G : Finset V} {i : V} {x y : Segment} (hw : ∀ v, 0 < w v) (hx : 0 < x.run)
    (hy : 0 < y.run) (h : Topped up g w i G x) (hle : ¬ Below y x) : Topped up g w i G y :=
  fun T hT hi => not_below_of_le hx (run_load_nonneg hw T) hy hle (h T hT hi)

theorem Topped.join {P C : Finset V} {i : V} {x : Segment} (hw : ∀ v, 0 < w v)
    (hdisj : Disjoint P C) (hne : P.Nonempty) (hx : 0 < x.run) (hP : Tight up g w P)
    (hle : ¬ Below x (load g w P)) (hC : Topped up g w i C x) :
    Topped up g w i (P ∪ C) x := by
  intro T hT hi
  rw [load_inter_union hdisj hT.1]
  refine not_below_add ?_ ?_
  · exact not_below_of_le (run_load_pos hw hne) (run_load_nonneg hw _) hx hle
      (hP _ (hT.inter_of_subset Finset.subset_union_left))
  · exact hC _ (hT.inter_of_subset Finset.subset_union_right) fun hmem =>
      hi (Finset.mem_inter.mp hmem).1

theorem tight_of_topped {G : Finset V} {i : V} (hG : G ⊆ up i)
    (h : Topped up g w i G (load g w G)) : Tight up g w G := by
  intro T hT
  by_cases hi : i ∈ T
  · rw [hT.eq_of_root hG hi]
    exact lt_irrefl _
  · exact h T hT hi

/-- What is left of a group when a closed part is taken out is closed the other way. -/
theorem tight_transpose {down : V → Finset V} (hdown : ∀ u v, u ∈ down v ↔ v ∈ up u)
    {G : Finset V} (h : Tight down (fun v => -g v) w G) : Tight up g w G := by
  intro T hT
  have hrest : Closed down G (G \ T) := by
    refine ⟨Finset.sdiff_subset, fun v hv u hu hmem => ?_⟩
    refine Finset.mem_sdiff.mpr ⟨hmem, fun huT => ?_⟩
    obtain ⟨hvG, hvT⟩ := Finset.mem_sdiff.mp hv
    exact hvT (hT.2 u huT v ((hdown u v).mp hu) hvG)
  have hnot := h _ hrest
  have hg := Finset.sum_sdiff (f := g) hT.1
  have hsum := Finset.sum_sdiff (f := w) hT.1
  unfold Below load at *
  simp only [Finset.sum_neg_distrib, not_lt] at *
  rw [← hg, ← hsum] at *
  linarith

/-! ## The best order -/

omit [DecidableEq V] in
theorem above_le_of_tight {G T : Finset V} (hw : ∀ v, 0 < w v) (hne : G.Nonempty)
    (hG : Tight up g w G) (hT : Closed up G T) (r : ℚ) :
    (load g w T).above r ≤ max 0 ((load g w G).above r) := by
  have hpos : 0 < (load g w G).run := run_load_pos hw hne
  have hnonneg : 0 ≤ (load g w T).run := run_load_nonneg hw T
  have hle : (load g w T).run ≤ (load g w G).run :=
    Finset.sum_le_sum_of_subset_of_nonneg hT.1 fun v _ _ => (hw v).le
  have hnot := hG T hT
  generalize load g w G = s at *
  generalize load g w T = t at *
  unfold Below at hnot
  rw [not_lt] at hnot
  unfold above
  refine le_of_mul_le_mul_right (a := s.run) ?_ hpos
  have hpart : (t.rise - r * t.run) * s.run ≤ (s.rise - r * s.run) * t.run := by linarith
  refine hpart.trans ?_
  rcases le_total 0 (s.rise - r * s.run) with hup | hdown
  · rw [max_eq_right hup]
    exact mul_le_mul_of_nonneg_left hle hup
  · rw [max_eq_left hdown, zero_mul]
    exact mul_nonpos_of_nonpos_of_nonneg hdown hnonneg

theorem above_le_sum {groups : List (Finset V)} (hw : ∀ v, 0 < w v)
    (hne : ∀ G ∈ groups, G.Nonempty) (hdisj : groups.Pairwise Disjoint)
    (htight : ∀ G ∈ groups, Tight up g w G) {T : Finset V} (hcover : ∀ v ∈ T, ∃ G ∈ groups, v ∈ G)
    (hT : ∀ G ∈ groups, Closed up G (T ∩ G)) (r : ℚ) :
    (load g w T).above r ≤ ((groups.map (load g w)).map fun s => max 0 (s.above r)).sum := by
  induction groups generalizing T with
  | nil =>
      have hnil : T = ∅ := by
        refine Finset.eq_empty_of_forall_notMem fun v hv => ?_
        obtain ⟨G, hG, -⟩ := hcover v hv
        exact absurd hG List.not_mem_nil
      rw [hnil]
      simp [load, above]
  | cons G groups ih =>
      obtain ⟨hhead, htail⟩ := List.pairwise_cons.mp hdisj
      have hrest : ∀ H ∈ groups, (T \ G) ∩ H = T ∩ H := by
        intro H hH
        rw [Finset.inter_comm, ← Finset.inter_sdiff_assoc, Finset.inter_comm]
        refine Finset.sdiff_eq_self_of_disjoint ?_
        exact ((hhead H hH).mono_right Finset.inter_subset_right).symm
      have hout := ih (fun H hH => hne H (List.mem_cons_of_mem _ hH)) htail
        (fun H hH => htight H (List.mem_cons_of_mem _ hH)) (T := T \ G)
        (fun v hv => by
          obtain ⟨hvT, hvG⟩ := Finset.mem_sdiff.mp hv
          obtain ⟨H, hH, hvH⟩ := hcover v hvT
          rcases List.mem_cons.mp hH with rfl | hH
          · exact absurd hvH hvG
          · exact ⟨H, hH, hvH⟩)
        (fun H hH => hrest H hH ▸ hT H (List.mem_cons_of_mem _ hH))
      have hin := above_le_of_tight hw (hne G List.mem_cons_self) (htight G List.mem_cons_self)
        (hT G List.mem_cons_self) r
      have hsplit : load g w T = load g w (T ∩ G) + load g w (T \ G) := by
        rw [← load_union (Finset.disjoint_sdiff_inter T G).symm, Finset.union_comm,
          Finset.sdiff_union_inter]
      rw [hsplit, above_add, List.map_cons, List.map_cons, List.sum_cons]
      exact add_le_add hin hout

/-- No closed set rises higher above a line than tight groups with falling slopes do. -/
theorem above_le_peak {groups : List (Finset V)} {rem T : Finset V} (hw : ∀ v, 0 < w v)
    (hne : ∀ G ∈ groups, G.Nonempty) (hdisj : groups.Pairwise Disjoint)
    (htight : ∀ G ∈ groups, Tight up g w G) (hcover : ∀ v ∈ rem, ∃ G ∈ groups, v ∈ G)
    (hsub : ∀ G ∈ groups, G ⊆ rem) (hfall : Falling (groups.map (load g w)))
    (hT : Closed up rem T) (r : ℚ) :
    (load g w T).above r ≤ peak r (groups.map (load g w)) := by
  have hfwd : Forward (groups.map (load g w)) := by
    intro s hs
    obtain ⟨G, hG, rfl⟩ := List.mem_map.mp hs
    exact run_load_pos hw (hne G hG)
  rw [peak_eq_sum hfwd hfall]
  exact above_le_sum hw hne hdisj htight (fun v hv => hcover v (hT.1 hv))
    (fun G hG => hT.inter_of_subset (hsub G hG)) r

end BitcoinMachineCode.Foundation
