import Mathlib.Algebra.BigOperators.Intervals
import Mathlib.Algebra.Order.BigOperators.Group.Finset

/-!
# Depth-first search over subsets

A search that decides for one index after the other, inclusion first, keeps the indexes it
included on a stack.  Between two steps the subsets it has not seen yet are those that agree
with the stack on the indexes already decided, and for every index on the stack those that
leave it out.
-/

namespace BitcoinMachineCode.Foundation.SubsetSearch

variable {stack : List Nat} {i j n : Nat} {S : Finset Nat}

def Agrees (stack : List Nat) (i : Nat) (S : Finset Nat) : Prop := ∀ x < i, x ∈ S ↔ x ∈ stack

/-- Left out at the latest inclusion or at an earlier one. -/
def Later : List Nat → Finset Nat → Prop
  | [], _ => False
  | j :: stack, S => Agrees stack (j + 1) S ∨ Later stack S

def Pending (stack : List Nat) (i : Nat) (S : Finset Nat) : Prop := Agrees stack i S ∨ Later stack S

/-- The indexes on the stack are decided, the latest first. -/
def Stacked : List Nat → Nat → Prop
  | [], _ => True
  | j :: stack, i => j < i ∧ Stacked stack j

theorem pending_start (S : Finset Nat) : Pending [] 0 S := .inl fun x hx => absurd hx (Nat.not_lt_zero x)

theorem Stacked.mono (h : Stacked stack i) (hij : i ≤ j) : Stacked stack j := by
  cases stack with
  | nil => trivial
  | cons k stack => exact ⟨h.1.trans_le hij, h.2⟩

theorem Stacked.lt (h : Stacked stack i) {x : Nat} (hx : x ∈ stack) : x < i := by
  induction stack generalizing i with
  | nil => cases hx
  | cons j stack ih =>
      rcases List.mem_cons.mp hx with rfl | hx
      · exact h.1
      · exact (ih h.2 hx).trans h.1

theorem Stacked.nodup (h : Stacked stack i) : stack.Nodup := by
  induction stack generalizing i with
  | nil => exact List.nodup_nil
  | cons j stack ih => exact List.nodup_cons.mpr ⟨fun hj => (h.2.lt hj).false, ih h.2⟩

/-- Including the next index leaves its exclusion for later. -/
theorem Pending.descend (h : Pending stack i S) (hst : Stacked stack i) : Pending (i :: stack) (i + 1) S := by
  rcases h with hagrees | hlater
  · by_cases hi : i ∈ S
    · left
      intro x hx
      rcases Nat.lt_succ_iff_lt_or_eq.mp hx with hlt | rfl
      · rw [hagrees x hlt, List.mem_cons, or_iff_right hlt.ne]
      · simp [hi]
    · right
      left
      intro x hx
      rcases Nat.lt_succ_iff_lt_or_eq.mp hx with hlt | rfl
      · exact hagrees x hlt
      · exact iff_of_false hi fun hx => (hst.lt hx).false
  · exact .inr (.inr hlater)

/-- Going back loses only the subsets that agree with the whole stack. -/
theorem Pending.back (h : Pending (j :: stack) i S) (hnot : ¬ Agrees (j :: stack) i S) :
    Pending stack (j + 1) S := by
  rcases h with hagrees | hlater
  · exact absurd hagrees hnot
  · exact hlater

theorem Agrees.subset (h : Agrees stack i S) (hst : Stacked stack i) : stack.toFinset ⊆ S := by
  intro x hx
  have hx := List.mem_toFinset.mp hx
  exact (h x (hst.lt hx)).mpr hx

theorem Agrees.subset_union (h : Agrees stack i S) (hS : S ⊆ Finset.range n) :
    S ⊆ stack.toFinset ∪ Finset.Ico i n := by
  intro x hx
  rcases Nat.lt_or_ge x i with hlt | hge
  · exact Finset.mem_union_left _ (List.mem_toFinset.mpr ((h x hlt).mp hx))
  · exact Finset.mem_union_right _ (Finset.mem_Ico.mpr ⟨hge, Finset.mem_range.mp (hS hx)⟩)

theorem Stacked.disjoint (hst : Stacked stack i) : Disjoint stack.toFinset (Finset.Ico i n) := by
  rw [Finset.disjoint_left]
  intro x hx hico
  have := hst.lt (List.mem_toFinset.mp hx)
  have := (Finset.mem_Ico.mp hico).1
  omega

/-! ## Weights -/

section Weights

variable {M : Type*} [AddCommMonoid M]

theorem sum_drop (weights : List M) {i : Nat} (hi : i ≤ weights.length) :
    (weights.drop i).sum = ∑ k ∈ Finset.Ico i weights.length, weights.getD k 0 := by
  induction hd : weights.length - i generalizing i with
  | zero =>
      obtain rfl : i = weights.length := by omega
      simp
  | succ d ih =>
      have hlt : i < weights.length := by omega
      rw [List.drop_eq_getElem_cons hlt, List.sum_cons, ih hlt (by omega),
        Finset.sum_eq_sum_Ico_succ_bot hlt]
      simp [hlt]

variable [PartialOrder M] [IsOrderedAddMonoid M] {weight : Nat → M}

/-- Nothing that agrees with the stack weighs less than it. -/
theorem Agrees.le_sum (h : Agrees stack i S) (hst : Stacked stack i) (hpos : ∀ k, 0 ≤ weight k) :
    ∑ k ∈ stack.toFinset, weight k ≤ ∑ k ∈ S, weight k :=
  Finset.sum_le_sum_of_subset_of_nonneg (h.subset hst) fun k _ _ => hpos k

/-- Nor more than it with all that is undecided. -/
theorem Agrees.sum_le (h : Agrees stack i S) (hst : Stacked stack i) (hS : S ⊆ Finset.range n)
    (hpos : ∀ k, 0 ≤ weight k) :
    ∑ k ∈ S, weight k ≤ ∑ k ∈ stack.toFinset, weight k + ∑ k ∈ Finset.Ico i n, weight k := by
  rw [← Finset.sum_union hst.disjoint]
  exact Finset.sum_le_sum_of_subset_of_nonneg (h.subset_union hS) fun k _ _ => hpos k

/-- The stack and the undecided are parts of the whole. -/
theorem Stacked.sum_add_le (hst : Stacked stack i) (hi : i ≤ n) (hpos : ∀ k, 0 ≤ weight k) :
    ∑ k ∈ stack.toFinset, weight k + ∑ k ∈ Finset.Ico i n, weight k ≤ ∑ k ∈ Finset.range n, weight k := by
  rw [← Finset.sum_union hst.disjoint]
  apply Finset.sum_le_sum_of_subset_of_nonneg
  · intro x hx
    rcases Finset.mem_union.mp hx with hx | hx
    · exact Finset.mem_range.mpr ((hst.lt (List.mem_toFinset.mp hx)).trans_le hi)
    · exact Finset.mem_range.mpr (Finset.mem_Ico.mp hx).2
  · exact fun k _ _ => hpos k

end Weights

end BitcoinMachineCode.Foundation.SubsetSearch
