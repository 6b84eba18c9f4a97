import Mathlib.Algebra.BigOperators.Group.Finset.Basic
import Mathlib.Algebra.Order.Ring.Abs
import Mathlib.Algebra.Ring.Int.Parity
import Mathlib.Data.Nat.Bitwise
import Mathlib.Tactic.IntervalCases
import Mathlib.Tactic.Linarith
import Mathlib.Tactic.Ring

/-!
# The windowed digits of a scalar half

`glv_wnaf` of `secp256k1_glv_c.c`: the signed representative of a scalar in digits that are
zero or odd, five positions wide, for the two halves of the scalar split.
-/

namespace BitcoinMachineCode.Consensus.GlvWnaf

def wnafLen : Nat := 129

def windowA : Nat := 5

/-- Four limbs of 64 bits, the lowest first. -/
structure Scalar where
  l0 : UInt64
  l1 : UInt64
  l2 : UInt64
  l3 : UInt64

namespace Scalar

/-- A limb; there is none after the fourth. -/
def limb (s : Scalar) : Nat → Nat
  | 0 => s.l0.toNat
  | 1 => s.l1.toNat
  | 2 => s.l2.toNat
  | 3 => s.l3.toNat
  | _ => 0

def val (s : Scalar) : Nat := s.limb 0 + 2 ^ 64 * (s.limb 1 + 2 ^ 64 * (s.limb 2 + 2 ^ 64 * s.limb 3))

end Scalar

/-- `N_LIMBS`: the order of the group. -/
def nLimbs : Scalar := ⟨0xBFD25E8CD0364141, 0xBAAEDCE6AF48A03B, 0xFFFFFFFFFFFFFFFE, 0xFFFFFFFFFFFFFFFF⟩

/-- `get_bits`; the masked word has 128 bits. -/
def getBits (s : Scalar) (off cnt : Nat) : Nat :=
  let li := off >>> 6
  let lo := off &&& 63
  let w := if li + 1 < 4 then s.limb li ||| s.limb (li + 1) <<< 64 else s.limb li
  (w >>> lo) &&& (1 <<< cnt - 1)

/-- One limb of the difference, with the borrow. -/
def subLimb (a b : UInt64) (br : Nat) : UInt64 × Nat :=
  let t := (a.toNat + (2 ^ 128 - b.toNat) + (2 ^ 128 - br)) % 2 ^ 128
  (UInt64.ofNat t, (t >>> 64) &&& 1)

/-- `s = n - s` -/
def negate (s : Scalar) : Scalar :=
  let (d0, b0) := subLimb nLimbs.l0 s.l0 0
  let (d1, b1) := subLimb nLimbs.l1 s.l1 b0
  let (d2, b2) := subLimb nLimbs.l2 s.l2 b1
  let (d3, _) := subLimb nLimbs.l3 s.l3 b2
  ⟨d0, d1, d2, d3⟩

/-- The digits so far and the position after them. -/
structure Wnaf where
  out : Nat → Int
  lastSetBit : Int
  bit : Nat
  carry : Nat

/-- One pass of the loop. -/
def wnafStep (s : Scalar) (sign : Int) (w : Wnaf) : Wnaf :=
  if getBits s w.bit 1 = w.carry then { w with bit := w.bit + 1 }
  else
    let now := if wnafLen - w.bit < windowA then wnafLen - w.bit else windowA
    let word := getBits s w.bit now + w.carry
    let carry := (word >>> (windowA - 1)) &&& 1
    let digit : Int := word - carry <<< windowA
    -- a signed char
    { out := Function.update w.out w.bit (Int.bmod (sign * digit) 256)
      lastSetBit := w.bit
      bit := w.bit + now
      carry := carry }

/-- `while (bit < GLV_WNAF_LEN)`; every pass moves the position. -/
def wnafLoop (s : Scalar) (sign : Int) : Nat → Wnaf → Wnaf
  | 0, w => w
  | fuel + 1, w => if w.bit < wnafLen then wnafLoop s sign fuel (wnafStep s sign w) else w

/-- The digits of a magnitude and their number, `none` for a failure. -/
def wnafDigits (s : Scalar) (sign : Int) : Option ((Nat → Int) × Nat) :=
  if s.l3 ≠ 0 ∨ s.l2 >>> 1 ≠ 0 then none
  else
    let w := wnafLoop s sign wnafLen ⟨fun _ => 0, -1, 0, 0⟩
    if w.carry ≠ 0 then none else some (w.out, (w.lastSetBit + 1).toNat)

/-- `glv_wnaf` -/
def glvWnaf (s : Scalar) : Option ((Nat → Int) × Nat) :=
  if s.l3 >>> 63 ≠ 0 then wnafDigits (negate s) (-1) else wnafDigits s 1

/-! ## The limbs -/

namespace Scalar

theorem limb_lt (s : Scalar) (i : Nat) : s.limb i < 2 ^ 64 := by
  match i with
  | 0 => exact s.l0.toNat_lt
  | 1 => exact s.l1.toNat_lt
  | 2 => exact s.l2.toNat_lt
  | 3 => exact s.l3.toNat_lt
  | _ + 4 => exact Nat.two_pow_pos 64

end Scalar

/-- What lies above does not reach the bits. -/
theorem low_bits (w r : Nat) {a b c : Nat} (h : a + b ≤ c) :
    (w + 2 ^ c * r) / 2 ^ a % 2 ^ b = w / 2 ^ a % 2 ^ b := by
  obtain ⟨d, rfl⟩ := Nat.exists_eq_add_of_le h
  have hsplit : w + 2 ^ (a + b + d) * r = w + 2 ^ a * (2 ^ b * (2 ^ d * r)) := by ring
  rw [hsplit, Nat.add_mul_div_left _ _ (Nat.two_pow_pos a), Nat.add_mul_mod_self_left]

theorem getBits_word (s : Scalar) {off : Nat} (cnt : Nat) (hoff : off < 192) :
    getBits s off cnt = (s.limb (off / 64) + 2 ^ 64 * s.limb (off / 64 + 1)) / 2 ^ (off % 64) % 2 ^ cnt := by
  have hli : off / 64 + 1 < 4 := by omega
  have hlo : off &&& 63 = off % 64 := Nat.and_two_pow_sub_one_eq_mod off 6
  have hor : s.limb (off / 64) ||| s.limb (off / 64 + 1) <<< 64 =
      s.limb (off / 64) + 2 ^ 64 * s.limb (off / 64 + 1) := by
    rw [Nat.lor_comm, ← Nat.shiftLeft_add_eq_or_of_lt (s.limb_lt _), Nat.shiftLeft_eq]
    ring
  simp only [getBits, Nat.shiftRight_eq_div_pow, Nat.one_shiftLeft, Nat.and_two_pow_sub_one_eq_mod]
  rw [hlo, show off / 2 ^ 6 = off / 64 from rfl, if_pos hli, hor]

/-- `get_bits` reads the bits of the value. -/
theorem getBits_eq (s : Scalar) {off cnt : Nat} (hoff : off < 192) (hcnt : cnt ≤ 8) :
    getBits s off cnt = s.val / 2 ^ off % 2 ^ cnt := by
  have hlow : off % 64 + cnt ≤ 128 := by omega
  rw [getBits_word s cnt hoff]
  have hpow : 2 ^ off = 2 ^ (64 * (off / 64)) * 2 ^ (off % 64) := by
    rw [← pow_add, Nat.div_add_mod]
  have hval : ∃ r, s.val / 2 ^ (64 * (off / 64)) =
      s.limb (off / 64) + 2 ^ 64 * s.limb (off / 64 + 1) + 2 ^ 128 * r := by
    have h0 := s.limb_lt 0
    have h1 := s.limb_lt 1
    have hcase : off / 64 = 0 ∨ off / 64 = 1 ∨ off / 64 = 2 := by omega
    rcases hcase with h | h | h <;> rw [h]
    · refine ⟨s.limb 2 + 2 ^ 64 * s.limb 3, ?_⟩
      simp only [Scalar.val, Nat.reduceAdd, Nat.reduceMul]
      omega
    · refine ⟨s.limb 3, ?_⟩
      simp only [Scalar.val, Nat.reduceAdd, Nat.reduceMul]
      omega
    · refine ⟨0, ?_⟩
      simp only [Scalar.val, Nat.reduceAdd, Nat.reduceMul]
      omega
  obtain ⟨r, hr⟩ := hval
  rw [hpow, ← Nat.div_div_eq_div_mul, hr, low_bits _ _ hlow]

theorem subLimb_eq (a b : UInt64) {br : Nat} (hbr : br ≤ 1) :
    ((subLimb a b br).1.toNat : Int) = a.toNat - b.toNat - br + 2 ^ 64 * (subLimb a b br).2 ∧
      (subLimb a b br).2 ≤ 1 := by
  have ha := a.toNat_lt
  have hb := b.toNat_lt
  simp only [subLimb, UInt64.toNat_ofNat', Nat.shiftRight_eq_div_pow, Nat.and_one_is_mod]
  omega

/-- The difference to the order. -/
theorem negate_val {s : Scalar} (hs : s.val ≤ nLimbs.val) : (negate s).val = nLimbs.val - s.val := by
  obtain ⟨h0, hb0⟩ := subLimb_eq nLimbs.l0 s.l0 (Nat.zero_le 1)
  obtain ⟨h1, hb1⟩ := subLimb_eq nLimbs.l1 s.l1 hb0
  obtain ⟨h2, hb2⟩ := subLimb_eq nLimbs.l2 s.l2 hb1
  obtain ⟨h3, hb3⟩ := subLimb_eq nLimbs.l3 s.l3 hb2
  have hlt := (negate s).limb_lt
  have hlt0 := hlt 0
  have hlt1 := hlt 1
  have hlt2 := hlt 2
  have hlt3 := hlt 3
  simp only [Scalar.val, Scalar.limb, negate] at hs hlt0 hlt1 hlt2 hlt3 ⊢
  omega

/-! ## The digits -/

/-- The state of the loop for the magnitude `m`: what was read is the sum of the digits and the
carry, and a carry comes from a set bit. -/
structure Reads (m : Nat) (sign : Int) (w : Wnaf) : Prop where
  carry_le : w.carry ≤ 1
  bit_le : w.bit ≤ wnafLen
  sum : ∑ i ∈ Finset.range wnafLen, w.out i * 2 ^ i = sign * ((m % 2 ^ w.bit : Nat) - w.carry * 2 ^ w.bit)
  digit : ∀ i, w.out i = 0 ∨ Odd (w.out i) ∧ |w.out i| ≤ 15
  ahead : ∀ i, w.out i ≠ 0 → i < w.bit ∧ (i + windowA ≤ w.bit ∨ w.bit = wnafLen)
  spaced : ∀ i j, i < j → j < i + windowA → w.out i ≠ 0 → w.out j = 0
  last : (w.lastSetBit = -1 ∧ ∀ i, w.out i = 0) ∨
    ∃ i : Nat, w.lastSetBit = i ∧ w.out i ≠ 0 ∧ ∀ j, i < j → w.out j = 0
  carried : w.carry = 1 → ∃ i, w.bit = i + 1 ∧ m / 2 ^ i % 2 = 1

theorem Reads.start (m : Nat) (sign : Int) : Reads m sign ⟨fun _ => 0, -1, 0, 0⟩ where
  carry_le := Nat.zero_le 1
  bit_le := Nat.zero_le _
  sum := by simp [Nat.mod_one]
  digit _ := .inl rfl
  ahead i h := absurd rfl h
  spaced i j _ _ h := absurd rfl h
  last := .inl ⟨rfl, fun _ => rfl⟩
  carried h := absurd h (by decide)

/-- The digit of a window that starts with a bit unlike the carry. -/
theorem window_digit {x carry now : Nat} (hcarry : carry ≤ 1) (hne : x % 2 ≠ carry) (hpos : 0 < now)
    (hnow : now ≤ windowA) :
    let word := x % 2 ^ now + carry
    let next := (word >>> (windowA - 1)) &&& 1
    let digit : Int := word - next <<< windowA
    (Odd digit ∧ |digit| ≤ 15) ∧ next ≤ 1 ∧ (next = 1 → now = windowA ∧ x / 16 % 2 = 1) ∧
      digit = (x % 2 ^ now : Nat) + carry - 32 * next := by
  intro word next digit
  have hnext : next = word / 16 % 2 := by
    simp only [next, windowA, Nat.shiftRight_eq_div_pow, Nat.and_one_is_mod, Nat.reduceSub, Nat.reducePow]
  have hdigit : digit = word - 32 * next := by
    simp only [digit, windowA, Nat.shiftLeft_eq]
    push_cast
    ring
  simp only [windowA] at hnow
  have hpow : 2 ^ now = 2 ∨ 2 ^ now = 4 ∨ 2 ^ now = 8 ∨ 2 ^ now = 16 ∨ now = 5 ∧ 2 ^ now = 32 := by
    interval_cases now <;> simp
  have hword : word = x % 2 ^ now + carry := rfl
  have habs : |digit| ≤ 15 ∧ digit % 2 = 1 ∧ (next = 1 → now = 5 ∧ x / 16 % 2 = 1) := by
    rw [abs_le, hdigit, hnext, hword]
    rcases hpow with h | h | h | h | ⟨h5, h⟩ <;> rw [h] <;> omega
  refine ⟨⟨Int.odd_iff.mpr habs.2.1, habs.1⟩, by omega, habs.2.2, ?_⟩
  rw [hdigit, hword]
  push_cast
  ring

variable {m : Nat} {sign : Int} {w : Wnaf}

theorem Reads.next_free (h : Reads m sign w) : w.out w.bit = 0 := by
  by_contra hne
  exact absurd (h.ahead w.bit hne).1 (Nat.lt_irrefl _)

/-- A bit like the carry has the digit zero. -/
theorem Reads.skip (h : Reads m sign w) (hbit : w.bit < wnafLen) (heq : m / 2 ^ w.bit % 2 = w.carry) :
    Reads m sign { w with bit := w.bit + 1 } where
  carry_le := h.carry_le
  bit_le := hbit
  sum := by
    rw [h.sum, Nat.mod_pow_succ, heq]
    push_cast
    ring
  digit := h.digit
  ahead i hi := by
    have := h.ahead i hi
    simp only
    omega
  spaced := h.spaced
  last := h.last
  carried hc := ⟨w.bit, rfl, heq.trans hc⟩

/-- A window of `now` bits. -/
theorem Reads.window {now next : Nat} {digit : Int} (h : Reads m sign w) (hsign : sign = 1 ∨ sign = -1)
    (hpos : 0 < now) (hend : w.bit + now = wnafLen ∨ now = windowA ∧ w.bit + now ≤ wnafLen)
    (hodd : Odd digit) (habs : |digit| ≤ 15) (hnext : next ≤ 1)
    (hone : next = 1 → now = windowA ∧ m / 2 ^ w.bit / 16 % 2 = 1)
    (hdigit : digit = (m / 2 ^ w.bit % 2 ^ now : Nat) + w.carry - 32 * next) :
    Reads m sign ⟨Function.update w.out w.bit (sign * digit), w.bit, w.bit + now, next⟩ := by
  have hbit : w.bit < wnafLen := by
    rcases hend with hend | hend <;> omega
  have hnew : Odd (sign * digit) ∧ |sign * digit| ≤ 15 := by
    rcases hsign with rfl | rfl
    · simpa using ⟨hodd, habs⟩
    · simpa using ⟨hodd, habs⟩
  have hne : sign * digit ≠ 0 := by
    intro hzero
    rw [hzero] at hnew
    exact absurd hnew.1 (by decide)
  have hother : ∀ i, i ≠ w.bit → Function.update w.out w.bit (sign * digit) i = w.out i :=
    fun i hi => Function.update_of_ne hi _ _
  have hsame : Function.update w.out w.bit (sign * digit) w.bit = sign * digit := Function.update_self _ _ _
  have hafter : ∀ j, w.bit < j → w.out j = 0 := by
    intro j hj
    by_contra hout
    have := (h.ahead j hout).1
    omega
  constructor
  · exact hnext
  · simp only
    rcases hend with hend | hend <;> omega
  · -- the new digit stands at its own place
    have hsum : ∑ i ∈ Finset.range wnafLen, Function.update w.out w.bit (sign * digit) i * 2 ^ i =
        ∑ i ∈ Finset.range wnafLen, w.out i * 2 ^ i + sign * digit * 2 ^ w.bit := by
      have hmem : w.bit ∈ Finset.range wnafLen := Finset.mem_range.mpr hbit
      rw [← Finset.add_sum_erase _ _ hmem, ← Finset.add_sum_erase _ (fun i => w.out i * 2 ^ i) hmem, hsame,
        h.next_free]
      have hrest : ∑ i ∈ (Finset.range wnafLen).erase w.bit, Function.update w.out w.bit (sign * digit) i * 2 ^ i =
          ∑ i ∈ (Finset.range wnafLen).erase w.bit, w.out i * 2 ^ i := by
        apply Finset.sum_congr rfl
        intro i hi
        rw [hother i (Finset.ne_of_mem_erase hi)]
      rw [hrest]
      ring
    have hcarry : (next : Int) * 2 ^ (w.bit + now) = 32 * next * 2 ^ w.bit := by
      have hcases : next = 0 ∨ next = 1 := by omega
      rcases hcases with h0 | h1
      · simp [h0]
      · rw [(hone h1).1, h1, windowA]
        ring
    rw [hsum, h.sum, hdigit, hcarry, pow_add, Nat.mod_mul]
    push_cast
    ring
  · intro i
    by_cases hi : i = w.bit
    · simp only [hi, hsame]
      exact .inr hnew
    · simp only [hother i hi]
      exact h.digit i
  · intro i hi
    by_cases hib : i = w.bit
    · simp only [hib]
      rcases hend with hend | hend <;> omega
    · simp only [hother i hib] at hi
      have := h.ahead i hi
      simp only
      omega
  · intro i j hij hj hi
    by_cases hjb : j = w.bit
    · have hi' : w.out i ≠ 0 := by
        simp only [hother i (by omega)] at hi
        exact hi
      have := h.ahead i hi'
      omega
    · simp only [hother j hjb]
      by_cases hib : i = w.bit
      · exact hafter j (by omega)
      · simp only [hother i hib] at hi
        exact h.spaced i j hij hj hi
  · right
    refine ⟨w.bit, rfl, ?_, fun j hj => ?_⟩
    · simp only [hsame]
      exact hne
    · simp only [hother j (by omega)]
      exact hafter j hj
  · intro hc
    obtain ⟨hnow, htop⟩ := hone hc
    refine ⟨w.bit + 4, by simp only [hnow, windowA], ?_⟩
    rw [pow_add, ← Nat.div_div_eq_div_mul]
    exact htop

theorem Reads.step {s : Scalar} (h : Reads s.val sign w) (hsign : sign = 1 ∨ sign = -1) (hbit : w.bit < wnafLen) :
    Reads s.val sign (wnafStep s sign w) ∧ w.bit < (wnafStep s sign w).bit := by
  have hlt : w.bit < 192 := by
    simp only [wnafLen] at hbit
    omega
  have hone : getBits s w.bit 1 = s.val / 2 ^ w.bit % 2 := by
    simpa using getBits_eq s hlt (by decide : 1 ≤ 8)
  unfold wnafStep
  split
  · next heq =>
      rw [hone] at heq
      exact ⟨h.skip hbit heq, Nat.lt_succ_self _⟩
  · next hne =>
      rw [hone] at hne
      dsimp only
      generalize hnow : (if wnafLen - w.bit < windowA then wnafLen - w.bit else windowA) = now
      have hwide : 0 < now ∧ now ≤ windowA ∧
          (w.bit + now = wnafLen ∨ now = windowA ∧ w.bit + now ≤ wnafLen) := by
        have hwin : 0 < windowA := by decide
        by_cases hshort : wnafLen - w.bit < windowA
        · rw [if_pos hshort] at hnow
          omega
        · rw [if_neg hshort] at hnow
          omega
      obtain ⟨hpos, hle, hend⟩ := hwide
      have hbits : getBits s w.bit now = s.val / 2 ^ w.bit % 2 ^ now := by
        apply getBits_eq s hlt
        simp only [windowA] at hle
        omega
      rw [hbits]
      obtain ⟨⟨hodd, habs⟩, hnext, htop, hdigit⟩ := window_digit h.carry_le hne hpos hle
      refine ⟨?_, by omega⟩
      have hchar : ∀ d : Int, |d| ≤ 15 → Int.bmod (sign * d) 256 = sign * d := by
        intro d hd
        obtain ⟨hlow, hhigh⟩ := abs_le.mp hd
        rcases hsign with rfl | rfl <;> apply Int.bmod_eq_of_le <;> omega
      rw [hchar _ habs]
      exact h.window hsign hpos hend hodd habs hnext htop hdigit

/-- The loop reaches the end. -/
theorem Reads.loop {s : Scalar} {fuel : Nat} (h : Reads s.val sign w) (hsign : sign = 1 ∨ sign = -1)
    (hfuel : wnafLen ≤ w.bit + fuel) :
    Reads s.val sign (wnafLoop s sign fuel w) ∧ (wnafLoop s sign fuel w).bit = wnafLen := by
  induction fuel generalizing w with
  | zero => exact ⟨h, le_antisymm h.bit_le hfuel⟩
  | succ fuel ih =>
      unfold wnafLoop
      split
      · next hbit =>
          obtain ⟨hstep, hmoved⟩ := h.step hsign hbit
          exact ih hstep (by omega)
      · next hbit => exact ⟨h, le_antisymm h.bit_le (Nat.le_of_not_lt hbit)⟩

/-- What is promised of the digits of the number `x`. -/
structure Digits (x : Int) (out : Nat → Int) (len : Nat) : Prop where
  digit : ∀ i, i < wnafLen → out i = 0 ∨ Odd (out i) ∧ |out i| ≤ 15
  spaced : ∀ i j, i < j → j ≤ i + 4 → j < wnafLen → out i ≠ 0 → out j = 0
  len_le : len ≤ wnafLen
  last : ∀ i, len = i + 1 → out i ≠ 0
  after : ∀ i, len ≤ i → i < wnafLen → out i = 0
  sum : ∑ i ∈ Finset.range wnafLen, out i * 2 ^ i = x

theorem Reads.digits (h : Reads m sign w) (hend : w.bit = wnafLen) (hcarry : w.carry = 0) (hm : m < 2 ^ 129) :
    Digits (sign * m) w.out (w.lastSetBit + 1).toNat where
  digit i _ := h.digit i
  spaced i j hij hj _ hi := h.spaced i j hij (by simp only [windowA]; omega) hi
  len_le := by
    rcases h.last with ⟨hlast, _⟩ | ⟨i, hlast, hi, _⟩
    · simp [hlast]
    · have := (h.ahead i hi).1
      omega
  last i hlen := by
    rcases h.last with ⟨hlast, _⟩ | ⟨k, hlast, hk, _⟩
    · omega
    · have : i = k := by omega
      rwa [this]
  after i hlen _ := by
    rcases h.last with ⟨_, hzero⟩ | ⟨k, hlast, _, hzero⟩
    · exact hzero i
    · exact hzero i (by omega)
  sum := by
    have hmod : m % 2 ^ wnafLen = m := Nat.mod_eq_of_lt hm
    rw [h.sum, hend, hcarry, hmod]
    simp

/-- The limbs that are looked at before the loop bound the magnitude. -/
theorem small_iff (s : Scalar) : (s.l3 ≠ 0 ∨ s.l2 >>> 1 ≠ 0) ↔ 2 ^ 129 ≤ s.val := by
  have h0 := s.limb_lt 0
  have h1 := s.limb_lt 1
  have h3 : s.l3 ≠ 0 ↔ s.limb 3 ≠ 0 := by
    simp [Scalar.limb, ← UInt64.toNat_inj]
  have h2 : s.l2 >>> 1 ≠ 0 ↔ s.limb 2 / 2 ≠ 0 := by
    simp [Scalar.limb, ← UInt64.toNat_inj, Nat.shiftRight_eq_div_pow]
  rw [h3, h2]
  simp only [Scalar.val]
  omega

theorem wnafDigits_spec (s : Scalar) (hsign : sign = 1 ∨ sign = -1) :
    (∀ x, wnafDigits s sign = some x → Digits (sign * s.val) x.1 x.2) ∧
      (s.val < 2 ^ 128 → wnafDigits s sign ≠ none) := by
  obtain ⟨hreads, hend⟩ := (Reads.start s.val sign).loop hsign (by simp : wnafLen ≤ 0 + wnafLen)
  have hcarried : s.val < 2 ^ 128 → (wnafLoop s sign wnafLen ⟨fun _ => 0, -1, 0, 0⟩).carry = 0 := by
    -- a carry at the end comes from the bit before, which is not set
    intro hsmall
    by_contra hne
    obtain ⟨i, hi, hset⟩ := hreads.carried (by have := hreads.carry_le; omega)
    have h128 : i = 128 := by
      have hlen : wnafLen = i + 1 := hend.symm.trans hi
      simp only [wnafLen] at hlen
      omega
    rw [h128, Nat.div_eq_of_lt hsmall] at hset
    simp at hset
  unfold wnafDigits
  by_cases hbig : s.l3 ≠ 0 ∨ s.l2 >>> 1 ≠ 0
  · have hle := (small_iff s).mp hbig
    rw [if_pos hbig]
    exact ⟨fun x hx => by simp at hx, fun hlt => by omega⟩
  · have hlt : s.val < 2 ^ 129 := Nat.lt_of_not_le fun hle => hbig ((small_iff s).mpr hle)
    rw [if_neg hbig]
    dsimp only
    constructor
    · intro x hx
      split at hx
      · simp at hx
      · next hcarry =>
          simp only [Option.some.injEq] at hx
          subst hx
          exact hreads.digits hend (by simpa using hcarry) hlt
    · intro hsmall
      simp [hcarried hsmall]

/-- The representative of a scalar with the least magnitude. -/
def signedRep (s : Scalar) : Int := if s.val < 2 ^ 255 then s.val else (s.val : Int) - nLimbs.val

theorem negative_iff (s : Scalar) : s.l3 >>> 63 ≠ 0 ↔ 2 ^ 255 ≤ s.val := by
  have h0 := s.limb_lt 0
  have h1 := s.limb_lt 1
  have h2 := s.limb_lt 2
  have h3 := s.limb_lt 3
  have htop : s.l3 >>> 63 ≠ 0 ↔ s.limb 3 / 2 ^ 63 ≠ 0 := by
    simp [Scalar.limb, ← UInt64.toNat_inj, Nat.shiftRight_eq_div_pow]
  rw [htop]
  simp only [Scalar.val]
  omega

/-- Every scalar below the order has its signed representative for the value of its digits,
unless `glv_wnaf` fails, which it does not below `2 ^ 128`. -/
theorem glvWnaf_digits (s : Scalar) (hs : s.val < nLimbs.val) :
    (∀ x, glvWnaf s = some x → Digits (signedRep s) x.1 x.2) ∧
      (|signedRep s| < 2 ^ 128 → glvWnaf s ≠ none) := by
  unfold glvWnaf signedRep
  by_cases hneg : s.l3 >>> 63 ≠ 0
  · have hle := (negative_iff s).mp hneg
    have hval := negate_val hs.le
    obtain ⟨hdigits, hfails⟩ := @wnafDigits_spec (-1) (negate s) (.inr rfl)
    have hrep : (s.val : Int) - nLimbs.val = -1 * (negate s).val := by omega
    rw [if_pos hneg, if_neg (Nat.not_lt.mpr hle), hrep]
    refine ⟨hdigits, fun hsmall => hfails ?_⟩
    rw [neg_one_mul, abs_neg, Nat.abs_cast] at hsmall
    exact_mod_cast hsmall
  · have hlt : s.val < 2 ^ 255 := Nat.lt_of_not_le fun hle => hneg ((negative_iff s).mpr hle)
    obtain ⟨hdigits, hfails⟩ := @wnafDigits_spec 1 s (.inl rfl)
    rw [if_neg hneg, if_pos hlt]
    refine ⟨by simpa using hdigits, fun hsmall => hfails ?_⟩
    rw [Nat.abs_cast] at hsmall
    exact_mod_cast hsmall

/-- The scalar `n - 31`, whose representative is `-31`. -/
theorem glvWnaf_digits_negative :
    let s : Scalar := ⟨0xBFD25E8CD0364122, 0xBAAEDCE6AF48A03B, 0xFFFFFFFFFFFFFFFE, 0xFFFFFFFFFFFFFFFF⟩
    (s.val < nLimbs.val ∧ signedRep s = -31) ∧
      (glvWnaf s).map (fun x => ((List.range 7).map x.1, x.2)) = some ([1, 0, 0, 0, 0, -1, 0], 6) ∧
      ∀ x, glvWnaf s = some x → Digits (-31) x.1 x.2 := by
  intro s
  have hs : s.val < nLimbs.val := by decide
  have hrep : signedRep s = -31 := by decide
  refine ⟨⟨hs, hrep⟩, by decide, fun x hx => ?_⟩
  rw [← hrep]
  exact (glvWnaf_digits s hs).1 x hx

end BitcoinMachineCode.Consensus.GlvWnaf
