import BitcoinMachineCode.Foundation.FileBytes

/-!
# Occurrences of a pattern

Where a pattern stands in a list, and the first such place at or after another.
-/

namespace BitcoinMachineCode.Foundation

variable {β : Type*} {pat bs : List β}

def OccursAt (pat bs : List β) (i : Nat) : Prop := pread bs i pat.length = pat

theorem OccursAt.bound {i : Nat} (h : OccursAt pat bs i) (hpat : pat ≠ []) :
    i + pat.length ≤ bs.length := by
  have hlen : (pread bs i pat.length).length = pat.length := congrArg List.length h
  have hpos := List.length_pos_of_ne_nil hpat
  rw [length_pread] at hlen
  omega

theorem OccursAt.getElem? {i k : Nat} (h : OccursAt pat bs i) (hk : k < pat.length) :
    bs[i + k]? = pat[k]? := by
  have hk' : (pread bs i pat.length)[k]? = pat[k]? := congrArg (·[k]?) h
  rw [pread, List.getElem?_take_of_lt hk, List.getElem?_drop] at hk'
  exact hk'

theorem occursAt_pread {off len i : Nat} (h : i + pat.length ≤ len) :
    OccursAt pat (pread bs off len) i ↔ OccursAt pat bs (off + i) := by
  unfold OccursAt
  rw [pread_pread h]

theorem occursAt_append_left (back : List β) {i : Nat} (h : i + pat.length ≤ bs.length) :
    OccursAt pat (bs ++ back) i ↔ OccursAt pat bs i := by
  unfold OccursAt
  rw [pread_append_left back h]

theorem occursAt_append_right (front : List β) (i : Nat) :
    OccursAt pat (front ++ bs) (front.length + i) ↔ OccursAt pat bs i := by
  unfold OccursAt
  rw [pread_append_right]

variable [DecidableEq β]

instance (pat bs : List β) (i : Nat) : Decidable (OccursAt pat bs i) :=
  inferInstanceAs (Decidable (_ = _))

/-- The first place of the pattern in `bs`, counted from `i`. -/
def memmem (pat : List β) : List β → Nat → Option Nat
  | [], _ => none
  | b :: bs, i => if (b :: bs).take pat.length = pat then some i else memmem pat bs (i + 1)

theorem memmem_eq_some {i j : Nat} (h : memmem pat bs i = some j) :
    ∃ k, j = i + k ∧ OccursAt pat bs k ∧ ∀ l < k, ¬ OccursAt pat bs l := by
  induction bs generalizing i with
  | nil => cases h
  | cons b bs ih =>
      rw [memmem] at h
      split at h
      · next hfirst =>
          obtain rfl := Option.some.inj h
          exact ⟨0, rfl, hfirst, nofun⟩
      · next hfirst =>
          obtain ⟨k, rfl, hk, hbefore⟩ := ih h
          refine ⟨k + 1, by omega, hk, fun l hl => ?_⟩
          cases l with
          | zero => exact hfirst
          | succ l => exact hbefore l (by omega)

theorem memmem_eq_none (hpat : pat ≠ []) {i : Nat} (h : memmem pat bs i = none) (k : Nat) :
    ¬ OccursAt pat bs k := by
  induction bs generalizing i k with
  | nil =>
      intro hk
      have hbound : k + pat.length ≤ 0 := hk.bound hpat
      have := List.length_pos_of_ne_nil hpat
      omega
  | cons b bs ih =>
      rw [memmem] at h
      split at h
      · cases h
      · next hfirst =>
          cases k with
          | zero => exact hfirst
          | succ k => exact ih h k

end BitcoinMachineCode.Foundation
