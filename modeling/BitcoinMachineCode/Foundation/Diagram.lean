import Mathlib.Algebra.Order.BigOperators.Group.List
import Mathlib.Algebra.Order.Field.Basic
import Mathlib.Algebra.Order.Field.Rat
import Mathlib.Tactic.Linarith
import Mathlib.Tactic.FieldSimp
import Mathlib.Tactic.Ring
import Mathlib.Tactic.NormNum

/-!
# Diagrams of segments

A list of segments, each with a run and a rise, laid end to end, is the graph of a
piecewise linear function that stays flat after the last one.  Where the slopes do not
increase the function is concave, and it is known from its peaks: how far it rises above
the lines of each slope.  Peaks of lists laid together add up, so one diagram stays above
another when the same segments are merged into both.
-/

namespace BitcoinMachineCode.Foundation

structure Segment where
  rise : ℚ
  run : ℚ
  deriving DecidableEq

namespace Segment

instance : Add Segment := ⟨fun s t => ⟨s.rise + t.rise, s.run + t.run⟩⟩

@[simp] theorem rise_add (s t : Segment) : (s + t).rise = s.rise + t.rise := rfl

@[simp] theorem run_add (s t : Segment) : (s + t).run = s.run + t.run := rfl

/-- How much the segment rises above a line of slope `r`. -/
def above (r : ℚ) (s : Segment) : ℚ := s.rise - r * s.run

theorem above_add (r : ℚ) (s t : Segment) : (s + t).above r = s.above r + t.above r := by
  simp only [above, rise_add, run_add]
  ring

/-- The slope of `s` is less than that of `t`. -/
def Below (s t : Segment) : Prop := s.rise * t.run < t.rise * s.run

instance (s t : Segment) : Decidable (Below s t) :=
  inferInstanceAs (Decidable (_ < _))

end Segment

open Segment

/-- The runs are positive. -/
def Forward (l : List Segment) : Prop := ∀ s ∈ l, 0 < s.run

/-- The slopes do not increase. -/
def Falling (l : List Segment) : Prop := l.Pairwise fun s t => ¬ Below s t

/-- The height of the graph at `x`. -/
def height : List Segment → ℚ → ℚ
  | [], _ => 0
  | s :: l, x => if x ≤ s.run then s.rise * x / s.run else s.rise + height l (x - s.run)

/-- The most a part at the front rises above a line of slope `r`. -/
def peak (r : ℚ) : List Segment → ℚ
  | [] => 0
  | s :: l => max 0 (s.above r + peak r l)

@[simp] theorem height_nil (x : ℚ) : height [] x = 0 := rfl

theorem height_cons (s : Segment) (l : List Segment) (x : ℚ) :
    height (s :: l) x =
      if x ≤ s.run then s.rise * x / s.run else s.rise + height l (x - s.run) := rfl

@[simp] theorem peak_nil (r : ℚ) : peak r [] = 0 := rfl

theorem peak_cons (r : ℚ) (s : Segment) (l : List Segment) :
    peak r (s :: l) = max 0 (s.above r + peak r l) := rfl

theorem Forward.tail {s : Segment} {l : List Segment} (h : Forward (s :: l)) : Forward l :=
  fun t ht => h t (List.mem_cons_of_mem _ ht)

theorem Forward.head {s : Segment} {l : List Segment} (h : Forward (s :: l)) : 0 < s.run :=
  h s List.mem_cons_self

theorem peak_nonneg (r : ℚ) (l : List Segment) : 0 ≤ peak r l := by
  cases l with
  | nil => exact le_rfl
  | cons s l => exact le_max_left _ _

/-! ## Peaks and parts at the front -/

def totalAbove (r : ℚ) (l : List Segment) : ℚ := (l.map (above r)).sum

theorem totalAbove_add_peak_le (r : ℚ) (p l : List Segment) :
    totalAbove r p + peak r l ≤ peak r (p ++ l) := by
  induction p with
  | nil => simp [totalAbove]
  | cons s p ih =>
      simp only [totalAbove, List.map_cons, List.sum_cons, List.cons_append, peak_cons] at ih ⊢
      refine le_trans ?_ (le_max_right _ _)
      linarith

theorem exists_peak_eq (r : ℚ) (l : List Segment) : ∃ p, p <+: l ∧ peak r l = totalAbove r p := by
  induction l with
  | nil => exact ⟨[], List.prefix_rfl, rfl⟩
  | cons s l ih =>
      obtain ⟨p, hp, heq⟩ := ih
      rcases le_total (s.above r + peak r l) 0 with hneg | hpos
      · refine ⟨[], List.nil_prefix, ?_⟩
        rw [peak_cons, max_eq_left hneg]
        rfl
      · refine ⟨s :: p, List.prefix_cons_inj s |>.mpr hp, ?_⟩
        rw [peak_cons, max_eq_right hpos, heq]
        rfl

theorem peak_append_congr (r : ℚ) (p : List Segment) {l m : List Segment}
    (h : peak r l = peak r m) : peak r (p ++ l) = peak r (p ++ m) := by
  induction p with
  | nil => exact h
  | cons s p ih =>
      simp only [List.cons_append, peak_cons]
      rw [ih]

/-- A segment joined to a steeper one behind it: the corner in between is under the line. -/
theorem peak_join (r : ℚ) {s t : Segment} (hs : 0 < s.run) (ht : 0 < t.run) (h : Below s t)
    (l : List Segment) : peak r (s :: t :: l) = peak r ((s + t) :: l) := by
  simp only [peak_cons, above_add]
  have hl := peak_nonneg r l
  rcases le_total 0 (t.above r) with hpos | hneg
  · have hin : 0 ≤ t.above r + peak r l := by linarith
    rw [max_eq_right hin, add_assoc]
  · -- a steeper segment that does not rise above the line has one that sinks before it
    have hsink : s.above r < 0 := by
      unfold Below at h
      unfold above at hneg ⊢
      by_contra hge
      push Not at hge
      have h1 : r * s.run * t.run ≤ s.rise * t.run := by nlinarith
      have h2 : t.rise * s.run ≤ r * t.run * s.run := by nlinarith
      nlinarith
    rcases le_total 0 (t.above r + peak r l) with hup | hdown
    · rw [max_eq_right hup, add_assoc]
    · rw [max_eq_left hdown, add_zero, max_eq_left hsink.le, max_eq_left]
      linarith

theorem peak_append_mono (r : ℚ) (p : List Segment) {l m : List Segment}
    (h : peak r l ≤ peak r m) : peak r (p ++ l) ≤ peak r (p ++ m) := by
  induction p with
  | nil => exact h
  | cons s p ih =>
      simp only [List.cons_append, peak_cons]
      exact max_le_max le_rfl (by linarith)

/-- A steeper segment gains from being moved in front. -/
theorem peak_swap_le (r : ℚ) {s t : Segment} (hs : 0 < s.run) (ht : 0 < t.run) (h : Below s t)
    (l : List Segment) : peak r (s :: t :: l) ≤ peak r (t :: s :: l) := by
  have hjoin : s + t = t + s := by
    change Segment.mk _ _ = Segment.mk _ _
    rw [add_comm s.rise, add_comm s.run]
  rw [peak_join r hs ht h, hjoin]
  simp only [peak_cons, above_add]
  refine max_le_max le_rfl ?_
  have := le_max_right 0 (s.above r + peak r l)
  linarith

/-! ## Falling lists -/

theorem above_nonpos_of_not_below {r : ℚ} {s t : Segment} (hs : 0 < s.run) (ht : 0 < t.run)
    (h : ¬ Below s t) (hneg : s.above r ≤ 0) : t.above r ≤ 0 := by
  unfold Below at h
  unfold above at hneg ⊢
  push Not at h
  by_contra hpos
  push Not at hpos
  have h1 : s.rise * t.run ≤ r * s.run * t.run := by nlinarith
  have h2 : r * t.run * s.run < t.rise * s.run := by nlinarith
  nlinarith

/-- Of a falling list nothing is left to gain once a segment does not rise above the line. -/
theorem peak_eq_zero {r : ℚ} {l : List Segment} (h : ∀ s ∈ l, s.above r ≤ 0) : peak r l = 0 := by
  induction l with
  | nil => rfl
  | cons s l ih =>
      rw [peak_cons, ih fun t ht => h t (List.mem_cons_of_mem _ ht), add_zero]
      exact max_eq_left (h s List.mem_cons_self)

/-- The peak of a falling list is the sum of what its segments gain. -/
theorem peak_eq_sum {r : ℚ} {l : List Segment} (hfwd : Forward l) (hfall : Falling l) :
    peak r l = (l.map fun s => max 0 (s.above r)).sum := by
  induction l with
  | nil => rfl
  | cons s l ih =>
      obtain ⟨hhead, htail⟩ := List.pairwise_cons.mp hfall
      rw [List.map_cons, List.sum_cons, ← ih hfwd.tail htail, peak_cons]
      rcases le_total 0 (s.above r) with hpos | hneg
      · rw [max_eq_right hpos, max_eq_right]
        have := peak_nonneg r l
        linarith
      · have hzero : peak r l = 0 := peak_eq_zero fun t ht =>
          above_nonpos_of_not_below hfwd.head (hfwd.tail t ht) (hhead t ht) hneg
        rw [hzero, add_zero, add_zero]

/-! ## Heights -/

theorem height_le {r x : ℚ} (hr : 0 ≤ r) {l : List Segment} (hfwd : Forward l) (hx : 0 ≤ x) :
    height l x ≤ peak r l + r * x := by
  induction l generalizing x with
  | nil =>
      simp only [height_nil, peak_nil, zero_add]
      positivity
  | cons s l ih =>
      have hrun := hfwd.head
      rw [height_cons]
      split
      · next hle =>
          -- a part of the segment gains at most what the whole of it would, or nothing
          have hpart : s.rise * x / s.run = (x / s.run) * s.above r + r * x := by
            unfold above
            field_simp
            ring
          have hfrac : 0 ≤ x / s.run ∧ x / s.run ≤ 1 :=
            ⟨div_nonneg hx hrun.le, (div_le_one hrun).mpr hle⟩
          have hpeak : max 0 (s.above r) ≤ peak r (s :: l) := by
            refine max_le (peak_nonneg _ _) ?_
            rw [peak_cons]
            refine le_trans ?_ (le_max_right _ _)
            have := peak_nonneg r l
            linarith
          have hgain : (x / s.run) * s.above r ≤ max 0 (s.above r) := by
            rcases le_total 0 (s.above r) with hpos | hneg
            · rw [max_eq_right hpos]
              nlinarith [hfrac.2]
            · rw [max_eq_left hneg]
              nlinarith [hfrac.1]
          rw [hpart]
          linarith
      · next hlt =>
          push Not at hlt
          have hrest := ih hfwd.tail (x := x - s.run) (by linarith)
          have hpeak : s.above r + peak r l ≤ peak r (s :: l) := le_max_right _ _
          unfold above at hpeak
          linarith

/-- At every point of a falling graph that does not sink some line touches it from above. -/
theorem exists_height_eq {l : List Segment} (hfwd : Forward l) (hfall : Falling l)
    (hrise : ∀ s ∈ l, 0 ≤ s.rise) {x : ℚ} (hx : 0 ≤ x) :
    ∃ r, 0 ≤ r ∧ (r = 0 ∨ ∃ s ∈ l, s.above r = 0) ∧ height l x = peak r l + r * x := by
  induction l generalizing x with
  | nil => exact ⟨0, le_rfl, .inl rfl, by simp⟩
  | cons s l ih =>
      have hrun := hfwd.head
      obtain ⟨hhead, htail⟩ := List.pairwise_cons.mp hfall
      by_cases hle : x ≤ s.run
      · have hzero : s.above (s.rise / s.run) = 0 := by
          unfold above
          field_simp
          ring
        refine ⟨s.rise / s.run, div_nonneg (hrise s List.mem_cons_self) hrun.le,
          .inr ⟨s, List.mem_cons_self, hzero⟩, ?_⟩
        have hpeak : peak (s.rise / s.run) (s :: l) = 0 := by
          refine peak_eq_zero fun t ht => ?_
          rcases List.mem_cons.mp ht with rfl | ht
          · exact hzero.le
          · exact above_nonpos_of_not_below hrun (hfwd.tail t ht) (hhead t ht) hzero.le
        rw [height_cons, if_pos hle, hpeak, zero_add]
        ring
      · obtain ⟨r, hr, hline, heq⟩ := ih hfwd.tail htail
          (fun t ht => hrise t (List.mem_cons_of_mem _ ht)) (x := x - s.run)
          (by push Not at hle; linarith)
        refine ⟨r, hr, hline.imp_right fun ⟨t, ht, hzero⟩ =>
          ⟨t, List.mem_cons_of_mem _ ht, hzero⟩, ?_⟩
        have hup : 0 ≤ s.above r := by
          rcases hline with rfl | ⟨t, ht, hzero⟩
          · simpa [above] using hrise s List.mem_cons_self
          · by_contra hneg
            push Not at hneg
            have hnot := hhead t ht
            unfold Below at hnot
            unfold above at hneg hzero
            have ht' := hfwd.tail t ht
            nlinarith
        have hpeak : peak r (s :: l) = s.above r + peak r l := by
          rw [peak_cons, max_eq_right]
          have := peak_nonneg r l
          linarith
        rw [height_cons, if_neg hle, heq, hpeak]
        unfold above
        ring

/-- At the end of a part the graph is as high as the part rises. -/
theorem height_front {p q : List Segment} (hfwd : Forward (p ++ q)) :
    height (p ++ q) (p.map run).sum = (p.map rise).sum := by
  induction p with
  | nil =>
      cases q with
      | nil => rfl
      | cons s q =>
          have hrun := Forward.head hfwd
          simp only [List.nil_append, List.map_nil, List.sum_nil, height_cons]
          rw [if_pos hrun.le, mul_zero, zero_div]
  | cons s p ih =>
      have hrun := Forward.head hfwd
      have hfwd' : Forward (p ++ q) := Forward.tail hfwd
      have hnonneg : 0 ≤ (p.map run).sum := by
        refine List.sum_nonneg fun y hy => ?_
        obtain ⟨t, ht, rfl⟩ := List.mem_map.mp hy
        exact (hfwd' t (List.mem_append_left _ ht)).le
      simp only [List.cons_append, List.map_cons, List.sum_cons, height_cons]
      split
      · next hle =>
          have hzero : (p.map run).sum = 0 := le_antisymm (by linarith) hnonneg
          have hnil : p = [] := by
            cases p with
            | nil => rfl
            | cons t p =>
                have ht := hfwd' t List.mem_cons_self
                have hrest : 0 ≤ (p.map run).sum := by
                  refine List.sum_nonneg fun y hy => ?_
                  obtain ⟨u, hu, rfl⟩ := List.mem_map.mp hy
                  exact (hfwd' u (List.mem_append_left _ (List.mem_cons_of_mem _ hu))).le
                rw [List.map_cons, List.sum_cons] at hzero
                linarith
          subst hnil
          simp only [List.map_nil, List.sum_nil, add_zero]
          field_simp
      · rw [add_sub_cancel_left, ih hfwd']

theorem totalAbove_eq (r : ℚ) (p : List Segment) :
    totalAbove r p = (p.map rise).sum - r * (p.map run).sum := by
  induction p with
  | nil => simp [totalAbove]
  | cons s p ih =>
      simp only [totalAbove, List.map_cons, List.sum_cons] at ih ⊢
      rw [ih]
      unfold above
      ring

/-! ## Comparing diagrams -/

theorem height_le_of_peak_le {l m : List Segment} (hl : Forward l) (hm : Forward m)
    (hfall : Falling m) (hrise : ∀ s ∈ m, 0 ≤ s.rise)
    (h : ∀ r, 0 ≤ r → peak r l ≤ peak r m) {x : ℚ} (hx : 0 ≤ x) : height l x ≤ height m x := by
  obtain ⟨r, hr, -, heq⟩ := exists_height_eq hm hfall hrise hx
  calc height l x ≤ peak r l + r * x := height_le hr hl hx
    _ ≤ peak r m + r * x := by linarith [h r hr]
    _ = height m x := heq.symm

/-! ## Joining until the slopes fall -/

/-- A segment on top of a stack, joined with what is below it while that is less steep. -/
def absorb : List Segment → Segment → List Segment
  | [], s => [s]
  | t :: l, s => if Below t s then absorb l (t + s) else s :: t :: l

/-- The slopes of a stack do not increase on the way up. -/
def Stacked (l : List Segment) : Prop := l.Pairwise fun t s => ¬ Below s t

theorem not_below_trans {s t u : Segment} (hs : 0 < s.run) (ht : 0 < t.run) (hu : 0 < u.run)
    (hst : ¬ Below s t) (htu : ¬ Below t u) : ¬ Below s u := by
  unfold Below at *
  push Not at *
  by_contra hsu
  push Not at hsu
  have h1 : s.rise * u.run * t.run < u.rise * s.run * t.run := by nlinarith
  have h2 : u.rise * t.run * s.run ≤ t.rise * u.run * s.run := by nlinarith
  have h3 : t.rise * s.run * u.run ≤ s.rise * t.run * u.run := by nlinarith
  nlinarith

/-- What joining keeps holds of the whole stack. -/
theorem forall_mem_absorb {P : Segment → Prop} (hadd : ∀ s t, P s → P t → P (s + t))
    {l : List Segment} {s : Segment} (hl : ∀ t ∈ l, P t) (hs : P s) : ∀ t ∈ absorb l s, P t := by
  induction l generalizing s with
  | nil =>
      intro t ht
      rw [List.mem_singleton.mp ht]
      exact hs
  | cons u l ih =>
      unfold absorb
      split
      · exact ih (fun t ht => hl t (List.mem_cons_of_mem _ ht))
          (hadd _ _ (hl u List.mem_cons_self) hs)
      · intro t ht
        rcases List.mem_cons.mp ht with rfl | ht
        · exact hs
        · exact hl t ht

theorem forall_mem_joined {P : Segment → Prop} (hadd : ∀ s t, P s → P t → P (s + t))
    {l : List Segment} (hl : ∀ t ∈ l, P t) : ∀ t ∈ (l.foldl absorb []).reverse, P t := by
  have hall : ∀ (l stack : List Segment), (∀ t ∈ l, P t) → (∀ t ∈ stack, P t) →
      ∀ t ∈ l.foldl absorb stack, P t := by
    intro l
    induction l with
    | nil => exact fun stack _ hstack => hstack
    | cons s l ih =>
        intro stack hl hstack
        exact ih _ (fun t ht => hl t (List.mem_cons_of_mem _ ht))
          (forall_mem_absorb hadd hstack (hl s List.mem_cons_self))
  exact fun t ht => hall l [] hl nofun t (List.mem_reverse.mp ht)

theorem Forward.absorb {l : List Segment} {s : Segment} (hl : Forward l) (hs : 0 < s.run) :
    Forward (absorb l s) :=
  forall_mem_absorb (P := fun t => 0 < t.run) (fun _ _ h h' => add_pos h h') hl hs

theorem Stacked.absorb {l : List Segment} {s : Segment} (h : Stacked l) (hl : Forward l)
    (hs : 0 < s.run) : Stacked (absorb l s) := by
  induction l generalizing s with
  | nil => exact List.pairwise_singleton _ _
  | cons t l ih =>
      obtain ⟨hhead, htail⟩ := List.pairwise_cons.mp h
      unfold Foundation.absorb
      split
      · exact ih htail hl.tail (add_pos hl.head hs)
      · next hnot =>
          refine List.pairwise_cons.mpr ⟨fun u hu => ?_, h⟩
          rcases List.mem_cons.mp hu with rfl | hu
          · exact hnot
          · exact not_below_trans (hl.tail u hu) hl.head hs (hhead u hu) hnot

theorem peak_absorb (r : ℚ) {l : List Segment} {s : Segment} (hl : Forward l) (hs : 0 < s.run)
    (q : List Segment) : peak r ((absorb l s).reverse ++ q) = peak r (l.reverse ++ s :: q) := by
  induction l generalizing s with
  | nil => rfl
  | cons t l ih =>
      unfold absorb
      split
      · next hbelow =>
          rw [ih hl.tail (add_pos hl.head hs), List.reverse_cons, List.append_assoc]
          exact peak_append_congr r _ (peak_join r hl.head hs hbelow q).symm
      · simp

/-- The list joined up until its slopes fall. -/
def joined (l : List Segment) : List Segment := (l.foldl absorb []).reverse

theorem joined_spec {l : List Segment} (hfwd : Forward l) :
    Forward (joined l) ∧ Falling (joined l) ∧ ∀ r, peak r (joined l) = peak r l := by
  have hgen : ∀ (l stack : List Segment), Forward l → Forward stack → Stacked stack →
      Forward (l.foldl absorb stack) ∧ Stacked (l.foldl absorb stack) ∧
        ∀ r, peak r (l.foldl absorb stack).reverse = peak r (stack.reverse ++ l) := by
    intro l
    induction l with
    | nil =>
        intro stack _ hfwd hstack
        exact ⟨hfwd, hstack, fun r => by rw [List.append_nil]; rfl⟩
    | cons s l ih =>
        intro stack hl hfwd hstack
        obtain ⟨hf, hs, hpeak⟩ := ih (absorb stack s) hl.tail (hfwd.absorb hl.head)
          (hstack.absorb hfwd hl.head)
        exact ⟨hf, hs, fun r => (hpeak r).trans (peak_absorb r hfwd hl.head l)⟩
  obtain ⟨hf, hs, hpeak⟩ := hgen l [] hfwd nofun List.Pairwise.nil
  refine ⟨fun s hs => hf s (List.mem_reverse.mp hs), List.pairwise_reverse.mpr hs, fun r => ?_⟩
  exact hpeak r

theorem rise_nonneg_joined {l : List Segment} (h : ∀ s ∈ l, 0 ≤ s.rise) :
    ∀ s ∈ joined l, 0 ≤ s.rise :=
  forall_mem_joined (P := fun t => 0 ≤ t.rise) (fun _ _ h h' => add_nonneg h h') h

end BitcoinMachineCode.Foundation
