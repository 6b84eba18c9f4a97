import Mathlib.Logic.Function.Basic

/-!
# Stamped slots

A ring of `size` slots takes items under sequence numbers that only grow; the item of `q`
goes to slot `q % size`.  The one writer clears the stamp of the slot, stores the item piece
by piece and stamps the slot with `q + 1`.  A reader that finds the stamp of `q` before and
after it loads the pieces has loaded the item of `q`: stamps do not come back.
-/

namespace BitcoinMachineCode.Foundation

structure Stamped (β : Type*) where
  stamp : Nat
  item : β

namespace Stamped

variable {β : Type*} {size filled p q : Nat} {slots : Nat → Stamped β} {Good : Nat → β → Prop}

def Has (size : Nat) (slots : Nat → Stamped β) (q : Nat) : Prop := (slots (q % size)).stamp = q + 1

instance : Decidable (Has size slots q) := inferInstanceAs (Decidable (_ = _))

def clear (size : Nat) (slots : Nat → Stamped β) (q : Nat) : Nat → Stamped β :=
  Function.update slots (q % size) { slots (q % size) with stamp := 0 }

def store (size : Nat) (slots : Nat → Stamped β) (q : Nat) (f : β → β) : Nat → Stamped β :=
  Function.update slots (q % size) { slots (q % size) with item := f (slots (q % size)).item }

def mark (size : Nat) (slots : Nat → Stamped β) (q : Nat) : Nat → Stamped β :=
  Function.update slots (q % size) { slots (q % size) with stamp := q + 1 }

/-- A stamp is that of an item already written, and the slot has that item. -/
def Sound (size : Nat) (Good : Nat → β → Prop) (slots : Nat → Stamped β) (filled : Nat) : Prop :=
  ∀ q, Has size slots q → q < filled ∧ Good q (slots (q % size)).item

@[simp] theorem clear_self : clear size slots q (q % size) = { slots (q % size) with stamp := 0 } := by
  simp [clear]

@[simp] theorem store_self (f : β → β) :
    store size slots q f (q % size) = { slots (q % size) with item := f (slots (q % size)).item } := by
  simp [store]

@[simp] theorem mark_self : mark size slots q (q % size) = { slots (q % size) with stamp := q + 1 } := by
  simp [mark]

theorem has_clear (h : Has size (clear size slots q) p) : p % size ≠ q % size ∧ Has size slots p := by
  by_cases heq : p % size = q % size
  · simp [Has, heq] at h
  · refine ⟨heq, ?_⟩
    simpa [Has, clear, heq] using h

theorem has_store {f : β → β} (hzero : (slots (q % size)).stamp = 0) (h : Has size (store size slots q f) p) :
    p % size ≠ q % size ∧ Has size slots p := by
  by_cases heq : p % size = q % size
  · simp [Has, heq, hzero] at h
  · refine ⟨heq, ?_⟩
    simpa [Has, store, heq] using h

theorem has_mark (h : Has size (mark size slots q) p) : p = q ∨ p % size ≠ q % size ∧ Has size slots p := by
  by_cases heq : p % size = q % size
  · simp [Has, heq] at h
    exact .inl h.symm
  · refine .inr ⟨heq, ?_⟩
    simpa [Has, mark, heq] using h

theorem Sound.clear (h : Sound size Good slots filled) : Sound size Good (clear size slots q) filled := by
  intro p hp
  obtain ⟨hne, hold⟩ := has_clear hp
  simpa [Stamped.clear, hne] using h p hold

theorem Sound.store {f : β → β} (h : Sound size Good slots filled) (hzero : (slots (q % size)).stamp = 0) :
    Sound size Good (store size slots q f) filled := by
  intro p hp
  obtain ⟨hne, hold⟩ := has_store hzero hp
  simpa [Stamped.store, hne] using h p hold

theorem Sound.mark (h : Sound size Good slots filled) (hgood : Good filled (slots (filled % size)).item) :
    Sound size Good (mark size slots filled) (filled + 1) := by
  intro p hp
  rcases has_mark hp with rfl | ⟨hne, hold⟩
  · simpa using hgood
  · have hp' := h p hold
    refine ⟨by omega, ?_⟩
    simpa [Stamped.mark, hne] using hp'.2

theorem Sound.mono {Good' : Nat → β → Prop} (h : Sound size Good slots filled)
    (hgood : ∀ q b, Good q b → Good' q b) : Sound size Good' slots filled := by
  intro p hp
  exact ⟨(h p hp).1, hgood _ _ (h p hp).2⟩

end Stamped

end BitcoinMachineCode.Foundation
