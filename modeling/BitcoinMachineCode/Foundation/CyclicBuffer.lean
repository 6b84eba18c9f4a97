import Mathlib.Algebra.BigOperators.Group.List.Basic
import Mathlib.Data.Nat.ModEq
import Mathlib.Logic.Function.Basic

/-!
# Cyclic buffers

A buffer of `size` cells is addressed by counters that only grow: the cell of `pos` is
`pos % size`.  Cells less than a whole turn apart are different, so what is stored past the
end of a framed queue, and less than a turn past its start, does not disturb it.
-/

namespace BitcoinMachineCode.Foundation.Cyclic

variable {α ρ : Type*} {size : Nat}

def put (size : Nat) (buf : Nat → α) (pos : Nat) (a : α) : Nat → α := Function.update buf (pos % size) a

def Holds (size : Nat) (buf : Nat → α) (pos : Nat) (items : List α) : Prop :=
  ∀ k a, items[k]? = some a → buf ((pos + k) % size) = a

theorem mod_ne_mod {a b : Nat} (hab : a < b) (hb : b < a + size) : a % size ≠ b % size := by
  intro h
  have hdvd : size ∣ b - a := (Nat.modEq_iff_dvd' hab.le).mp h
  have hle := Nat.le_of_dvd (by omega) hdvd
  omega

theorem holds_nil (buf : Nat → α) (pos : Nat) : Holds size buf pos [] := by
  intro k a h
  simp at h

/-- A store past the items, less than a turn from their first, leaves them. -/
theorem Holds.put {buf : Nat → α} {pos q : Nat} {items : List α} (h : Holds size buf pos items) (a : α)
    (hq : pos + items.length ≤ q) (hturn : q < pos + size) : Holds size (put size buf q a) pos items := by
  intro k b hk
  obtain ⟨hlt, -⟩ := List.getElem?_eq_some_iff.mp hk
  have hne : (pos + k) % size ≠ q % size := mod_ne_mod (by omega) (by omega)
  rw [Cyclic.put, Function.update_of_ne hne]
  exact h k b hk

theorem Holds.snoc {buf : Nat → α} {pos : Nat} {items : List α} (h : Holds size buf pos items) (a : α)
    (hlen : items.length < size) : Holds size (Cyclic.put size buf (pos + items.length) a) pos (items ++ [a]) := by
  intro k b hk
  by_cases hlt : k < items.length
  · rw [List.getElem?_append_left hlt] at hk
    exact h.put a le_rfl (by omega) k b hk
  · obtain ⟨hk', -⟩ := List.getElem?_eq_some_iff.mp hk
    have heq : k = items.length := by
      simp at hk'
      omega
    subst heq
    simp at hk
    rw [Cyclic.put, Function.update_self, hk]

/-! ## Queues of framed records -/

section Frames

variable (enc : ρ → List α) (room : ρ → Nat)

def span (rs : List ρ) : Nat := (rs.map room).sum

/-- The records stand one behind the other, each at the start of the room it has. -/
def Framed (size : Nat) (buf : Nat → α) : Nat → List ρ → Prop
  | _, [] => True
  | pos, r :: rs => Holds size buf pos (enc r) ∧ Framed size buf (pos + room r) rs

variable {enc room}

@[simp] theorem span_nil : span room [] = 0 := rfl

@[simp] theorem span_cons (r : ρ) (rs : List ρ) : span room (r :: rs) = room r + span room rs := by
  simp [span]

@[simp] theorem span_append (rs qs : List ρ) : span room (rs ++ qs) = span room rs + span room qs := by
  simp [span]

theorem Framed.put {buf : Nat → α} {pos q : Nat} {rs : List ρ} (henc : ∀ r, (enc r).length ≤ room r)
    (h : Framed enc room size buf pos rs) (a : α) (hq : pos + span room rs ≤ q) (hturn : q < pos + size) :
    Framed enc room size (Cyclic.put size buf q a) pos rs := by
  induction rs generalizing pos with
  | nil => trivial
  | cons r rs ih =>
      rw [span_cons] at hq
      have hroom := henc r
      exact ⟨h.1.put a (by omega) hturn, ih h.2 (by omega) (by omega)⟩

theorem Framed.append {buf : Nat → α} {pos : Nat} {rs : List ρ} {r : ρ} (h : Framed enc room size buf pos rs)
    (hr : Holds size buf (pos + span room rs) (enc r)) : Framed enc room size buf pos (rs ++ [r]) := by
  induction rs generalizing pos with
  | nil => exact ⟨by simpa using hr, trivial⟩
  | cons r' rs ih =>
      refine ⟨h.1, ih h.2 ?_⟩
      rwa [span_cons, ← Nat.add_assoc] at hr

end Frames

end BitcoinMachineCode.Foundation.Cyclic
