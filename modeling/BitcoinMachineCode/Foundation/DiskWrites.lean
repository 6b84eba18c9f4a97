import Mathlib.Data.List.Basic

/-!
# Sequences of writes

A call is a list of writes to a disk.  It is carried out whole, or up to some write when the
process dies.
-/

namespace BitcoinMachineCode.Foundation

variable {δ ω : Type*} (apply : δ → ω → δ) (P : δ → Prop)

/-- The property holds of every disk that the writes lead through. -/
def Along : δ → List ω → Prop
  | d, [] => P d
  | d, w :: ws => P d ∧ Along (apply d w) ws

variable {apply P} {d : δ} {ws vs : List ω}

theorem Along.start (h : Along apply P d ws) : P d := by
  cases ws with
  | nil => exact h
  | cons w ws => exact h.1

theorem Along.take (h : Along apply P d ws) (k : Nat) : P ((ws.take k).foldl apply d) := by
  induction ws generalizing d k with
  | nil => simpa [Along] using h
  | cons w ws ih =>
      cases k with
      | zero => exact h.1
      | succ k => exact ih h.2 k

theorem Along.whole (h : Along apply P d ws) : P (ws.foldl apply d) := by
  have hall := h.take ws.length
  rwa [List.take_length] at hall

theorem Along.append (h : Along apply P d ws) (h' : Along apply P (ws.foldl apply d) vs) :
    Along apply P d (ws ++ vs) := by
  induction ws generalizing d with
  | nil => exact h'
  | cons w ws ih => exact ⟨h.1, ih h.2 h'⟩

end BitcoinMachineCode.Foundation
