import BitcoinMachineCode.Foundation.Diagram
import Mathlib.Topology.Algebra.Order.Archimedean
import Mathlib.Topology.Instances.Real.Lemmas

/-!
# Diagrams at their corners and at every real point

A falling diagram is above another one as soon as it is at the other's corners, and cutting
a list into groups that are drawn as one segment each lowers the graph.  A graph is
continuous, so what holds of two diagrams at the rational points holds at the real ones.
-/

namespace BitcoinMachineCode.Foundation

open Segment

/-! ## Corners -/

theorem height_zero {l : List Segment} (hfwd : Forward l) : height l 0 = 0 := by
  simpa using height_front (p := []) (q := l) hfwd

theorem height_cons_of_run_le {s : Segment} {l : List Segment} (hfwd : Forward (s :: l)) {x : ℚ}
    (hx : s.run ≤ x) : height (s :: l) x = s.rise + height l (x - s.run) := by
  have hrun := hfwd.head
  rw [height_cons]
  split
  · next hle =>
      rw [le_antisymm hle hx, sub_self, height_zero hfwd.tail, add_zero]
      field_simp
  · rfl

theorem peak_le_of_corners {l m : List Segment} (hl : Forward l) (hm : Forward m)
    (h : ∀ p, p <+: l → (p.map rise).sum ≤ height m (p.map run).sum) {r : ℚ} (hr : 0 ≤ r) :
    peak r l ≤ peak r m := by
  obtain ⟨p, hp, heq⟩ := exists_peak_eq r l
  have hx : 0 ≤ (p.map run).sum := by
    refine List.sum_nonneg fun y hy => ?_
    obtain ⟨t, ht, rfl⟩ := List.mem_map.mp hy
    exact (hl t (hp.subset ht)).le
  have hline := height_le hr hm hx
  have hcorner := h p hp
  rw [heq, totalAbove_eq]
  linarith

/-- The corners of a diagram decide whether a falling one is above it. -/
theorem height_le_iff_corners {l m : List Segment} (hl : Forward l) (hm : Forward m)
    (hfall : Falling m) (hrise : ∀ s ∈ m, 0 ≤ s.rise) :
    (∀ x, 0 ≤ x → height l x ≤ height m x) ↔
      ∀ p, p <+: l → (p.map rise).sum ≤ height m (p.map run).sum := by
  constructor
  · rintro h p ⟨q, rfl⟩
    have hx : 0 ≤ (p.map run).sum := by
      refine List.sum_nonneg fun y hy => ?_
      obtain ⟨t, ht, rfl⟩ := List.mem_map.mp hy
      exact (hl t (List.mem_append_left _ ht)).le
    rw [← height_front hl]
    exact h _ hx
  · intro h x hx
    exact height_le_of_peak_le hl hm hfall hrise (fun r hr => peak_le_of_corners hl hm h hr) hx

/-! ## Groups drawn as one segment -/

def total (l : List Segment) : Segment := ⟨(l.map rise).sum, (l.map run).sum⟩

theorem above_total (r : ℚ) (l : List Segment) : (total l).above r = totalAbove r l :=
  (totalAbove_eq r l).symm

theorem peak_map_total_le (r : ℚ) (groups : List (List Segment)) :
    peak r (groups.map total) ≤ peak r groups.flatten := by
  induction groups with
  | nil => exact le_rfl
  | cons g groups ih =>
      rw [List.map_cons, List.flatten_cons, peak_cons, above_total]
      refine max_le (peak_nonneg _ _) ?_
      have := totalAbove_add_peak_le r g groups.flatten
      linarith

/-! ## Real points -/

/-- The height of the graph at a real point. -/
noncomputable def heightAt : List Segment → ℝ → ℝ
  | [], _ => 0
  | s :: l, x => if x ≤ s.run then s.rise * x / s.run else s.rise + heightAt l (x - s.run)

theorem heightAt_cast (l : List Segment) (x : ℚ) : heightAt l x = height l x := by
  induction l generalizing x with
  | nil => simp [heightAt]
  | cons s l ih =>
      unfold heightAt height
      simp only [Rat.cast_le]
      split
      · push_cast
        rfl
      · rw [← Rat.cast_sub, ih]
        push_cast
        rfl

theorem heightAt_zero {l : List Segment} (hfwd : Forward l) : heightAt l 0 = 0 := by
  have := heightAt_cast l 0
  rwa [height_zero hfwd, Rat.cast_zero] at this

theorem heightAt_cons_of_run_le {s : Segment} {l : List Segment} (hfwd : Forward (s :: l)) {x : ℝ}
    (hx : s.run ≤ x) : heightAt (s :: l) x = s.rise + heightAt l (x - s.run) := by
  have hrun : (s.run : ℝ) ≠ 0 := Rat.cast_ne_zero.mpr hfwd.head.ne'
  rw [heightAt]
  split
  · next hle =>
      rw [le_antisymm hle hx, sub_self, heightAt_zero hfwd.tail, add_zero]
      field_simp
  · rfl

/-- Where two functions are lines up to `b`, one is above the other from `a` on if it is at
`a` or somewhere from `b` on. -/
theorem exists_lt_iff_of_lines {f g : ℝ → ℝ} {a b p q r s : ℝ} (hab : a ≤ b)
    (hf : ∀ x, a ≤ x → x ≤ b → f x = p + q * x) (hg : ∀ x, a ≤ x → x ≤ b → g x = r + s * x) :
    (∃ x, a ≤ x ∧ g x < f x) ↔ g a < f a ∨ ∃ x, b ≤ x ∧ g x < f x := by
  constructor
  · rintro ⟨x, hx, hlt⟩
    by_contra hnone
    rw [not_or, not_lt, not_exists] at hnone
    obtain ⟨hstart, hrest⟩ := hnone
    have hxb : x < b := lt_of_not_ge fun hbx => hrest x ⟨hbx, hlt⟩
    have hend : f b ≤ g b := not_lt.mp fun hlt => hrest b ⟨le_rfl, hlt⟩
    rw [hf a le_rfl hab, hg a le_rfl hab] at hstart
    rw [hf b hab le_rfl, hg b hab le_rfl] at hend
    rw [hf x hx hxb.le, hg x hx hxb.le] at hlt
    -- the difference at `x` is a mean of those at the ends
    have hleft : (b - x) * (p + q * a) ≤ (b - x) * (r + s * a) :=
      mul_le_mul_of_nonneg_left hstart (sub_nonneg.mpr hxb.le)
    have hright : (x - a) * (p + q * b) ≤ (x - a) * (r + s * b) :=
      mul_le_mul_of_nonneg_left hend (sub_nonneg.mpr hx)
    have hmean : (b - a) * (p + q * x) ≤ (b - a) * (r + s * x) := by linarith
    exact absurd hlt (not_lt.mpr (le_of_mul_le_mul_left hmean (sub_pos.mpr (hx.trans_lt hxb))))
  · rintro (hlt | ⟨x, hx, hlt⟩)
    · exact ⟨a, le_rfl, hlt⟩
    · exact ⟨x, hab.trans hx, hlt⟩

theorem continuous_heightAt {l : List Segment} (hfwd : Forward l) : Continuous (heightAt l) := by
  induction l with
  | nil => exact continuous_const
  | cons s l ih =>
      have hrun : (s.run : ℝ) ≠ 0 := Rat.cast_ne_zero.mpr hfwd.head.ne'
      have hrest := ih hfwd.tail
      have hunfold : heightAt (s :: l) = fun x : ℝ =>
          if x ≤ s.run then s.rise * x / s.run else s.rise + heightAt l (x - s.run) := rfl
      rw [hunfold]
      refine Continuous.if_le (by fun_prop) ?_ continuous_id continuous_const fun x hx => ?_
      · exact continuous_const.add (hrest.comp (continuous_id.sub continuous_const))
      · -- the two pieces meet where the segment ends
        rw [hx, sub_self, heightAt_zero hfwd.tail, add_zero]
        field_simp

/-- Diagrams compare at the real points as they do at the rational ones. -/
theorem heightAt_le_iff {l m : List Segment} (hl : Forward l) (hm : Forward m) :
    (∀ x : ℝ, 0 ≤ x → heightAt l x ≤ heightAt m x) ↔ ∀ x, 0 ≤ x → height l x ≤ height m x := by
  constructor
  · intro h x hx
    have := h x (Rat.cast_nonneg.mpr hx)
    rwa [heightAt_cast, heightAt_cast, Rat.cast_le] at this
  · intro h x hx
    have hclosed : IsClosed {y : ℝ | heightAt l (max y 0) ≤ heightAt m (max y 0)} := by
      have hmax : Continuous fun y : ℝ => max y 0 := continuous_id.max continuous_const
      exact isClosed_le ((continuous_heightAt hl).comp hmax) ((continuous_heightAt hm).comp hmax)
    have hall : heightAt l (max x 0) ≤ heightAt m (max x 0) := by
      refine Rat.denseRange_cast.induction_on x hclosed fun q => ?_
      rw [← Rat.cast_zero, ← Rat.cast_max, heightAt_cast, heightAt_cast, Rat.cast_le]
      exact h _ (le_max_right _ _)
    rwa [max_eq_left hx] at hall

end BitcoinMachineCode.Foundation
