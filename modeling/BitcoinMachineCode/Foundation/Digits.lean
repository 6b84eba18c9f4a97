import Mathlib.Data.Nat.Digits.Defs
import Mathlib.Algebra.Order.Ring.Nat
import Mathlib.Tactic.Ring
import Mathlib.Tactic.Linarith

/-!
# Base-256 digit strings

Byte strings read as numbers, most significant byte first (`beVal`) or least
significant byte first (`leVal`), with the schoolbook loops that work on them
one byte at a time: multiplication and division by a small number, and
lexicographic comparison.  The loops carry their accumulators in a 64-bit
register, so every lemma about them has the bound that keeps it exact.
-/

namespace BitcoinMachineCode.Foundation

/-! ## Values -/

def beVal : List UInt8 → Nat
  | [] => 0
  | b :: bs => b.toNat * 256 ^ bs.length + beVal bs

def leVal : List UInt8 → Nat
  | [] => 0
  | b :: bs => b.toNat + 256 * leVal bs

@[simp] theorem beVal_nil : beVal [] = 0 := rfl

@[simp] theorem beVal_cons (b : UInt8) (bs : List UInt8) :
    beVal (b :: bs) = b.toNat * 256 ^ bs.length + beVal bs := rfl

@[simp] theorem leVal_nil : leVal [] = 0 := rfl

@[simp] theorem leVal_cons (b : UInt8) (bs : List UInt8) :
    leVal (b :: bs) = b.toNat + 256 * leVal bs := rfl

theorem beVal_append (xs ys : List UInt8) :
    beVal (xs ++ ys) = beVal xs * 256 ^ ys.length + beVal ys := by
  induction xs with
  | nil => simp
  | cons x xs ih =>
      simp only [List.cons_append, beVal_cons, ih, List.length_append,
        pow_add]
      ring

theorem leVal_append (xs ys : List UInt8) :
    leVal (xs ++ ys) = leVal xs + 256 ^ xs.length * leVal ys := by
  induction xs with
  | nil => simp
  | cons x xs ih =>
      simp only [List.cons_append, leVal_cons, ih, List.length_cons,
        pow_succ]
      ring

theorem beVal_reverse (xs : List UInt8) : beVal xs.reverse = leVal xs := by
  induction xs with
  | nil => rfl
  | cons x xs ih =>
      rw [List.reverse_cons, beVal_append, ih]
      simp
      ring

theorem leVal_reverse (xs : List UInt8) : leVal xs.reverse = beVal xs := by
  rw [← beVal_reverse, List.reverse_reverse]

theorem beVal_lt (xs : List UInt8) : beVal xs < 256 ^ xs.length := by
  induction xs with
  | nil => simp
  | cons x xs ih =>
      have hx : x.toNat ≤ 255 := by
        have := x.toNat_lt
        omega
      have hmul : x.toNat * 256 ^ xs.length ≤ 255 * 256 ^ xs.length :=
        Nat.mul_le_mul_right _ hx
      simp only [beVal_cons, List.length_cons, pow_succ]
      omega

theorem leVal_lt (xs : List UInt8) : leVal xs < 256 ^ xs.length := by
  rw [← beVal_reverse, ← List.length_reverse]
  exact beVal_lt xs.reverse

@[simp] theorem beVal_replicate_zero (n : Nat) :
    beVal (List.replicate n 0) = 0 := by
  induction n with
  | zero => rfl
  | succ n ih => simp [List.replicate_succ, ih]

@[simp] theorem leVal_replicate_zero (n : Nat) :
    leVal (List.replicate n 0) = 0 := by
  rw [← beVal_reverse, List.reverse_replicate, beVal_replicate_zero]

theorem leVal_inj {xs ys : List UInt8} (hlen : xs.length = ys.length)
    (h : leVal xs = leVal ys) : xs = ys := by
  induction xs generalizing ys with
  | nil => exact (List.length_eq_zero_iff.mp hlen.symm).symm
  | cons x xs ih =>
      cases ys with
      | nil => cases hlen
      | cons y ys =>
          have hx := x.toNat_lt
          have hy := y.toNat_lt
          simp only [leVal_cons] at h
          obtain rfl : x = y := UInt8.toNat_inj.mp (by omega)
          rw [ih (by simpa using hlen) (by omega)]

theorem beVal_inj {xs ys : List UInt8} (hlen : xs.length = ys.length)
    (h : beVal xs = beVal ys) : xs = ys := by
  rw [← leVal_reverse, ← leVal_reverse] at h
  exact List.reverse_inj.mp (leVal_inj (by simpa using hlen) h)

theorem beVal_eq_zero_iff (xs : List UInt8) :
    beVal xs = 0 ↔ ∀ b ∈ xs, b = 0 := by
  induction xs with
  | nil => simp
  | cons x xs ih =>
      simp only [beVal_cons, List.mem_cons, forall_eq_or_imp, ← ih]
      constructor
      · intro h
        have hx : x.toNat * 256 ^ xs.length = 0 := by omega
        rcases Nat.mul_eq_zero.mp hx with hx | hx
        · exact ⟨UInt8.toNat_inj.mp hx, by omega⟩
        · exact absurd hx (by positivity)
      · rintro ⟨rfl, h⟩
        simp [h]

/-- Writing a byte over a zero adds the byte at its weight. -/
theorem beVal_set (xs : List UInt8) (i : Nat) (b : UInt8)
    (hi : i < xs.length) (hzero : xs.getD i 0 = 0) :
    beVal (xs.set i b) =
      beVal xs + b.toNat * 256 ^ (xs.length - 1 - i) := by
  induction xs generalizing i with
  | nil => simp at hi
  | cons x xs ih =>
      cases i with
      | zero =>
          have hx : x = 0 := by simpa using hzero
          subst hx
          simp
          ring
      | succ i =>
          simp only [List.length_cons, Nat.add_lt_add_iff_right] at hi
          simp only [List.getD_cons_succ] at hzero
          simp only [List.set_cons_succ, beVal_cons, List.length_set,
            List.length_cons, ih i hi hzero]
          rw [show xs.length + 1 - 1 - (i + 1) = xs.length - 1 - i by omega]
          ring

/-- The `w` low bytes of a number, least significant first. -/
def leBytes : Nat → Nat → List UInt8
  | 0, _ => []
  | w + 1, n => UInt8.ofNat n :: leBytes w (n / 256)

@[simp] theorem length_leBytes (w n : Nat) : (leBytes w n).length = w := by
  induction w generalizing n with
  | zero => rfl
  | succ w ih => simp [leBytes, ih]

theorem leVal_leBytes (w n : Nat) : leVal (leBytes w n) = n % 256 ^ w := by
  induction w generalizing n with
  | zero => simp [leBytes, Nat.mod_one]
  | succ w ih =>
      simp only [leBytes, leVal_cons, ih, UInt8.toNat_ofNat']
      rw [pow_succ 256 w, Nat.mul_comm (256 ^ w) 256, Nat.mod_mul]

/-! ## Loops over the digits -/

/-- `n[i] = (u8)v; carry = v >> 8` with `v = n[i] * m + carry` in 64 bits. -/
def mulLoop (m : Nat) : Nat → List UInt8 → List UInt8
  | _, [] => []
  | carry, b :: bs =>
      let v := (b.toNat * m + carry) % 2 ^ 64
      UInt8.ofNat v :: mulLoop m (v >>> 8) bs

@[simp] theorem length_mulLoop (m carry : Nat) (bs : List UInt8) :
    (mulLoop m carry bs).length = bs.length := by
  induction bs generalizing carry with
  | nil => rfl
  | cons b bs ih => simp [mulLoop, ih]

theorem leVal_mulLoop (m carry : Nat) (bs : List UInt8)
    (hm : m < 2 ^ 56) (hcarry : carry ≤ m) :
    leVal (mulLoop m carry bs) =
      (leVal bs * m + carry) % 256 ^ bs.length := by
  induction bs generalizing carry with
  | nil => simp [mulLoop, Nat.mod_one]
  | cons b bs ih =>
      have hb : b.toNat ≤ 255 := by
        have := b.toNat_lt
        omega
      have hprod : b.toNat * m ≤ 255 * m := Nat.mul_le_mul_right _ hb
      -- the register never wraps: the carry stays at most `m`
      have hv : (b.toNat * m + carry) % 2 ^ 64 = b.toNat * m + carry :=
        Nat.mod_eq_of_lt (by omega)
      have hnext : (b.toNat * m + carry) / 256 ≤ m := by omega
      simp only [mulLoop, hv, leVal_cons, UInt8.toNat_ofNat',
        Nat.shiftRight_eq_div_pow, List.length_cons]
      rw [ih _ hnext, pow_succ 256 bs.length,
        Nat.mul_comm (256 ^ bs.length) 256, Nat.mod_mul,
        show (b.toNat + 256 * leVal bs) * m + carry =
          (b.toNat * m + carry) + 256 * (leVal bs * m) by ring,
        Nat.add_mul_mod_self_left, Nat.add_mul_div_left _ _ (by decide)]
      rw [Nat.add_comm (leVal bs * m)]

/-- `v = (rem << 8) | n[i]; n[i] = (u8)(v / d); rem = v % d`, from the most
significant digit down. -/
def divLoop (d : Nat) : Nat → List UInt8 → List UInt8
  | _, [] => []
  | rem, b :: bs =>
      let v := ((rem <<< 8) ||| b.toNat) % 2 ^ 64
      UInt8.ofNat (v / d) :: divLoop d (v % d) bs

@[simp] theorem length_divLoop (d rem : Nat) (bs : List UInt8) :
    (divLoop d rem bs).length = bs.length := by
  induction bs generalizing rem with
  | nil => rfl
  | cons b bs ih => simp [divLoop, ih]

theorem beVal_divLoop (d rem : Nat) (bs : List UInt8)
    (hd : d ≤ 2 ^ 56) (hrem : rem < d) :
    beVal (divLoop d rem bs) =
      (rem * 256 ^ bs.length + beVal bs) / d := by
  induction bs generalizing rem with
  | nil => simp [divLoop, Nat.div_eq_of_lt hrem]
  | cons b bs ih =>
      have hb := b.toNat_lt
      have hor : (rem <<< 8) ||| b.toNat = rem * 256 + b.toNat := by
        rw [← Nat.shiftLeft_add_eq_or_of_lt (by simpa using hb),
          Nat.shiftLeft_eq]
      have hv : (rem * 256 + b.toNat) % 2 ^ 64 = rem * 256 + b.toNat :=
        Nat.mod_eq_of_lt (by omega)
      have hd0 : 0 < d := by omega
      have hq : (rem * 256 + b.toNat) / d < 256 :=
        (Nat.div_lt_iff_lt_mul hd0).mpr (by omega)
      have hsplit := Nat.div_add_mod (rem * 256 + b.toNat) d
      simp only [divLoop, hor, hv, beVal_cons, length_divLoop,
        UInt8.toNat_ofNat', Nat.mod_eq_of_lt hq, List.length_cons]
      rw [ih _ (Nat.mod_lt _ hd0)]
      have hval : rem * 256 ^ (bs.length + 1) +
          (b.toNat * 256 ^ bs.length + beVal bs) =
          d * ((rem * 256 + b.toNat) / d * 256 ^ bs.length) +
            ((rem * 256 + b.toNat) % d * 256 ^ bs.length + beVal bs) := by
        calc rem * 256 ^ (bs.length + 1) +
              (b.toNat * 256 ^ bs.length + beVal bs)
            = (rem * 256 + b.toNat) * 256 ^ bs.length + beVal bs := by ring
          _ = _ := by
              conv_lhs => rw [← hsplit]
              ring
      rw [hval, Nat.mul_add_div hd0]

/-- The first differing byte decides: `true` when `xs` is the larger. -/
def beGreater : List UInt8 → List UInt8 → Bool
  | x :: xs, y :: ys =>
      if x > y then true else if x < y then false else beGreater xs ys
  | _, _ => false

theorem beGreater_iff (xs ys : List UInt8) (hlen : xs.length = ys.length) :
    beGreater xs ys = true ↔ beVal ys < beVal xs := by
  induction xs generalizing ys with
  | nil => simp [beGreater, List.length_eq_zero_iff.mp hlen.symm]
  | cons x xs ih =>
      cases ys with
      | nil => simp at hlen
      | cons y ys =>
          simp only [List.length_cons, Nat.add_right_cancel_iff] at hlen
          have hxs := beVal_lt xs
          have hys := beVal_lt ys
          rw [hlen] at hxs
          simp only [beGreater, beVal_cons, hlen]
          by_cases hgt : y < x
          · have hnat : y.toNat + 1 ≤ x.toNat := UInt8.lt_iff_toNat_lt.mp hgt
            have hmul := Nat.mul_le_mul_right (256 ^ ys.length) hnat
            rw [Nat.add_mul] at hmul
            simp only [GT.gt, hgt, if_true, true_iff]
            omega
          · by_cases hlt : x < y
            · have hnat : x.toNat + 1 ≤ y.toNat :=
                UInt8.lt_iff_toNat_lt.mp hlt
              have hmul := Nat.mul_le_mul_right (256 ^ ys.length) hnat
              rw [Nat.add_mul] at hmul
              simp only [GT.gt, hgt, hlt, if_true, if_false,
                Bool.false_eq_true, false_iff]
              omega
            · have hxy : x = y := by
                apply UInt8.toNat_inj.mp
                rw [UInt8.lt_iff_toNat_lt] at hgt hlt
                omega
              subst hxy
              simp only [GT.gt, hgt, if_false]
              rw [ih ys hlen]
              omega

/-! ## Fixed-width strings -/

/-- `n` bytes. -/
abbrev Bytes (n : Nat) : Type := {bytes : List UInt8 // bytes.length = n}

/-- The first `n` of the bytes given, zeros where there are fewer. -/
def Bytes.ofList (n : Nat) (bytes : List UInt8) : Bytes n :=
  ⟨(bytes ++ List.replicate n 0).take n, by simp⟩

/-- The bytes `[off, off + len)` of a string that has them. -/
def Bytes.slice {n : Nat} (bytes : Bytes n) (off len : Nat)
    (h : off + len ≤ n) : Bytes len :=
  ⟨(bytes.1.drop off).take len, by
    rw [List.length_take, List.length_drop, bytes.2]
    omega⟩

theorem Bytes.ofList_val {n : Nat} (bytes : Bytes n) :
    Bytes.ofList n bytes.1 = bytes := by
  apply Subtype.ext
  change (bytes.1 ++ List.replicate n 0).take n = bytes.1
  rw [List.take_append_of_le_length bytes.2.ge,
    List.take_of_length_le bytes.2.le]

end BitcoinMachineCode.Foundation
