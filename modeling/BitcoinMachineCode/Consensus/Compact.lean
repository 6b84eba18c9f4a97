import Mathlib.Data.Nat.Bitwise
import Mathlib.Data.Nat.Size
import BitcoinMachineCode.Foundation.Digits

/-!
# Compact targets

The 32-bit floating form of a 256-bit proof-of-work target, as Core's
`arith_uint256` reads it (`SetCompact`) and writes it (`GetCompact`), following
the port in `formal/arith/pow/core_port.h`.  A number has exactly one written
form: the least size in bytes that leaves the sign bit clear, and the top
three bytes at that size.  `sizeOf` and `mantissaOf` are these two, and both
directions are characterised by them.
-/

namespace BitcoinMachineCode.Consensus

open BitcoinMachineCode.Foundation

/-! ## Core's functions -/

def nSize (nCompact : UInt32) : Nat := (nCompact >>> 24).toNat

def nWord (nCompact : UInt32) : Nat :=
  let nWord := (nCompact &&& 0x007fffff).toNat
  if nSize nCompact ≤ 3 then nWord >>> (8 * (3 - nSize nCompact)) else nWord

/-- `arith_uint256::SetCompact`; the shift drops what leaves 256 bits. -/
def setCompact (nCompact : UInt32) : Nat :=
  if nSize nCompact ≤ 3 then nWord nCompact
  else (nWord nCompact <<< (8 * (nSize nCompact - 3))) % 2 ^ 256

def fNegative (nCompact : UInt32) : Bool :=
  nWord nCompact != 0 && (nCompact &&& 0x00800000) != 0

def fOverflow (nCompact : UInt32) : Bool :=
  nWord nCompact != 0 &&
    (nSize nCompact > 34 || (nWord nCompact > 0xff && nSize nCompact > 33) ||
      (nWord nCompact > 0xffff && nSize nCompact > 32))

/-- `(bits() + 7) / 8` -/
def byteLen (x : Nat) : Nat := (Nat.size x + 7) / 8

def compactWord (x : Nat) : UInt32 :=
  if byteLen x ≤ 3 then UInt32.ofNat (x <<< (8 * (3 - byteLen x)))
  else UInt32.ofNat (x >>> (8 * (byteLen x - 3)))

/-- `arith_uint256::GetCompact` with `fNegative` false. -/
def getCompact (x : Nat) : UInt32 :=
  if compactWord x &&& 0x00800000 ≠ 0 then
    (compactWord x >>> 8) ||| (UInt32.ofNat (byteLen x + 1) <<< 24)
  else compactWord x ||| (UInt32.ofNat (byteLen x) <<< 24)

/-! ## The written form of a number -/

/-- The top three bytes, zero padded on the right. -/
def topWord (x : Nat) : Nat := x * 2 ^ 24 / 256 ^ byteLen x

def sizeOf (x : Nat) : Nat :=
  if 2 ^ 23 ≤ topWord x then byteLen x + 1 else byteLen x

def mantissaOf (x : Nat) : Nat :=
  if 2 ^ 23 ≤ topWord x then topWord x / 256 else topWord x

theorem byteLen_le_iff (x k : Nat) : byteLen x ≤ k ↔ x < 256 ^ k := by
  rw [show (256 : Nat) = 2 ^ 8 by norm_num, ← pow_mul, ← Nat.size_le,
    byteLen]
  omega

theorem lt_pow_byteLen (x : Nat) : x < 256 ^ byteLen x :=
  (byteLen_le_iff x _).mp le_rfl

theorem topWord_lt (x : Nat) : topWord x < 2 ^ 24 := by
  rw [topWord, Nat.div_lt_iff_lt_mul (by positivity), Nat.mul_comm]
  exact Nat.mul_lt_mul_of_pos_left (lt_pow_byteLen x) (by positivity)

theorem mantissaOf_lt (x : Nat) : mantissaOf x < 2 ^ 23 := by
  have hword := topWord_lt x
  rw [mantissaOf]
  split <;> omega

/-- The size is the least one that leaves the sign bit clear. -/
theorem sizeOf_le_iff (x k : Nat) : sizeOf x ≤ k ↔ 2 * x < 256 ^ k := by
  have hword : 2 ^ 23 ≤ topWord x ↔ 256 ^ byteLen x ≤ 2 * x := by
    rw [topWord, Nat.le_div_iff_mul_le (by positivity)]
    constructor <;> intro h <;> omega
  have hlen := lt_pow_byteLen x
  by_cases hbig : 2 ^ 23 ≤ topWord x
  · have hle := hword.mp hbig
    simp only [sizeOf, hbig, if_true]
    constructor
    · intro hk
      calc 2 * x < 256 * 256 ^ byteLen x := by omega
        _ = 256 ^ (byteLen x + 1) := by rw [pow_succ]; ring
        _ ≤ 256 ^ k := Nat.pow_le_pow_right (by norm_num) hk
    · intro hk
      have hpow : 256 ^ byteLen x < 256 ^ k := lt_of_le_of_lt hle hk
      exact (Nat.pow_lt_pow_iff_right (by norm_num)).mp hpow
  · have hlt := mt hword.mpr hbig
    simp only [sizeOf, hbig, if_false]
    constructor
    · intro hk
      have hpow : 256 ^ byteLen x ≤ 256 ^ k :=
        Nat.pow_le_pow_right (by norm_num) hk
      omega
    · intro hk
      rw [byteLen_le_iff]
      omega

theorem mantissaOf_eq (x : Nat) :
    mantissaOf x = x * 2 ^ 24 / 256 ^ sizeOf x := by
  rw [mantissaOf, sizeOf]
  split
  · rw [topWord, Nat.div_div_eq_div_mul, pow_succ 256]
  · rfl

theorem sizeOf_mono {x y : Nat} (h : x ≤ y) : sizeOf x ≤ sizeOf y := by
  rw [sizeOf_le_iff]
  have := (sizeOf_le_iff y _).mp le_rfl
  omega

theorem sizeOf_eq_zero_iff (x : Nat) : sizeOf x = 0 ↔ x = 0 := by
  rw [← Nat.le_zero, sizeOf_le_iff]
  omega

/-! ## Scaling between a size and the top three bytes -/

theorem scale_of_le (x : Nat) {k : Nat} (hk : k ≤ 3) :
    x * 2 ^ 24 / 256 ^ k = x * 256 ^ (3 - k) := by
  have hpow : (2 : Nat) ^ 24 = 256 ^ (3 - k) * 256 ^ k := by
    rw [← pow_add, Nat.sub_add_cancel hk]
    norm_num
  rw [hpow, ← Nat.mul_assoc, Nat.mul_div_cancel _ (by positivity)]

theorem scale_of_ge (x : Nat) {k : Nat} (hk : 3 ≤ k) :
    x * 2 ^ 24 / 256 ^ k = x / 256 ^ (k - 3) := by
  have hpow : 256 ^ k = 256 ^ (k - 3) * 2 ^ 24 := by
    rw [show (2 : Nat) ^ 24 = 256 ^ 3 by norm_num, ← pow_add,
      Nat.sub_add_cancel hk]
  rw [hpow, Nat.mul_div_mul_right _ _ (by positivity)]

theorem unscale_of_le (m : Nat) {k : Nat} (hk : k ≤ 3) :
    m * 256 ^ k / 2 ^ 24 = m / 256 ^ (3 - k) := by
  have hpow : (2 : Nat) ^ 24 = 256 ^ (3 - k) * 256 ^ k := by
    rw [← pow_add, Nat.sub_add_cancel hk]
    norm_num
  rw [hpow, Nat.mul_div_mul_right _ _ (by positivity)]

theorem unscale_of_ge (m : Nat) {k : Nat} (hk : 3 ≤ k) :
    m * 256 ^ k / 2 ^ 24 = m * 256 ^ (k - 3) := by
  have hpow : 256 ^ k = 256 ^ (k - 3) * 2 ^ 24 := by
    rw [show (2 : Nat) ^ 24 = 256 ^ 3 by norm_num, ← pow_add,
      Nat.sub_add_cancel hk]
  rw [hpow, ← Nat.mul_assoc, Nat.mul_div_cancel _ (by positivity)]

/-- What is left of a number after it was written and read back. -/
def truncate (x : Nat) : Nat := mantissaOf x * 256 ^ sizeOf x / 2 ^ 24

theorem truncate_le (x : Nat) : truncate x ≤ x := by
  rw [truncate, mantissaOf_eq]
  apply Nat.div_le_of_le_mul
  calc x * 2 ^ 24 / 256 ^ sizeOf x * 256 ^ sizeOf x
      ≤ x * 2 ^ 24 := Nat.div_mul_le_self _ _
    _ = 2 ^ 24 * x := Nat.mul_comm _ _

/-- Numbers between the truncation and the number have the same form. -/
theorem written_form_of_truncate_le {x y : Nat} (hlow : truncate x ≤ y)
    (hhigh : y ≤ x) : sizeOf y = sizeOf x ∧ mantissaOf y = mantissaOf x := by
  by_cases hsmall : sizeOf x ≤ 3
  · -- nothing is lost, so `y` is `x`
    have hexact : truncate x = x := by
      rw [truncate, mantissaOf_eq, scale_of_le x hsmall, unscale_of_le _ hsmall,
        Nat.mul_div_cancel _ (by positivity)]
    have hyx : y = x := by omega
    subst hyx
    exact ⟨rfl, rfl⟩
  · have hbig : 3 ≤ sizeOf x := by omega
    have hunit : 0 < 256 ^ (sizeOf x - 3) := by positivity
    have hm : mantissaOf x = x / 256 ^ (sizeOf x - 3) := by
      rw [mantissaOf_eq, scale_of_ge x hbig]
    rw [truncate, unscale_of_ge _ hbig] at hlow
    have hdiv : y / 256 ^ (sizeOf x - 3) = mantissaOf x := by
      apply le_antisymm
      · rw [hm]
        exact Nat.div_le_div_right hhigh
      · exact (Nat.le_div_iff_mul_le hunit).mpr hlow
    -- the leading byte survives, so the size does
    have htop : 2 ^ 15 ≤ mantissaOf x := by
      have hnot : ¬ 2 * x < 256 ^ (sizeOf x - 1) := by
        rw [← sizeOf_le_iff]
        omega
      have hpow : 256 ^ (sizeOf x - 1) = 2 * (2 ^ 15 * 256 ^ (sizeOf x - 3)) := by
        rw [show sizeOf x - 1 = 2 + (sizeOf x - 3) by omega, pow_add]
        ring
      rw [hm, Nat.le_div_iff_mul_le hunit]
      omega
    have hsize : sizeOf y = sizeOf x := by
      apply le_antisymm (sizeOf_mono hhigh)
      by_contra hlt
      have hle : sizeOf y ≤ sizeOf x - 1 := by omega
      rw [sizeOf_le_iff, show sizeOf x - 1 = 2 + (sizeOf x - 3) by omega,
        pow_add] at hle
      have hmul := Nat.mul_le_mul_right (256 ^ (sizeOf x - 3)) htop
      omega
    refine ⟨hsize, ?_⟩
    rw [mantissaOf_eq, hsize, scale_of_ge y hbig, hdiv]

/-! ## Words -/

theorem toNat_pack (s : Nat) (w : UInt32) (hs : s < 256)
    (hw : w.toNat < 2 ^ 24) :
    ((UInt32.ofNat s <<< 24) ||| w).toNat = s * 2 ^ 24 + w.toNat := by
  have hs32 : s % 2 ^ 32 = s := Nat.mod_eq_of_lt (by omega)
  have hshift : (s <<< 24) % 2 ^ 32 = s <<< 24 :=
    Nat.mod_eq_of_lt (by rw [Nat.shiftLeft_eq]; omega)
  rw [UInt32.toNat_or, UInt32.toNat_shiftLeft, UInt32.toNat_ofNat', hs32,
    show (24 : UInt32).toNat % 32 = 24 by decide, hshift,
    ← Nat.shiftLeft_add_eq_or_of_lt hw, Nat.shiftLeft_eq]

theorem sign_bit_ne_zero_iff (w : UInt32) (hw : w.toNat < 2 ^ 24) :
    w &&& 0x00800000 ≠ 0 ↔ 2 ^ 23 ≤ w.toNat := by
  have hbit : w &&& 0x00800000 ≠ 0 ↔ w.toNat.testBit 23 = true := by
    rw [ne_eq, ← UInt32.toNat_inj, UInt32.toNat_and,
      show (0x00800000 : UInt32).toNat = 2 ^ 23 by decide,
      Nat.and_two_pow]
    cases w.toNat.testBit 23 <;> simp
  rw [hbit]
  constructor
  · exact Nat.ge_two_pow_of_testBit
  · intro hge
    exact Nat.testBit_of_two_pow_le_and_two_pow_add_one_gt hge hw

theorem toNat_shiftRight_eight (w : UInt32) :
    (w >>> 8).toNat = w.toNat / 256 := by
  rw [UInt32.toNat_shiftRight, Nat.shiftRight_eq_div_pow]
  rfl

theorem toNat_and_mask (w : UInt32) :
    (w &&& 0x007fffff).toNat = w.toNat % 2 ^ 23 := by
  rw [UInt32.toNat_and, ← Nat.and_two_pow_sub_one_eq_mod]
  rfl

theorem nSize_eq (c : UInt32) : nSize c = c.toNat / 2 ^ 24 := by
  rw [nSize, UInt32.toNat_shiftRight, Nat.shiftRight_eq_div_pow]
  rfl

theorem toNat_compactWord (x : Nat) : (compactWord x).toNat = topWord x := by
  have hword := topWord_lt x
  rw [compactWord]
  split
  · rename_i hle
    rw [UInt32.toNat_ofNat', Nat.shiftLeft_eq, pow_mul,
      show (2 : Nat) ^ 8 = 256 by norm_num, ← scale_of_le x hle]
    exact Nat.mod_eq_of_lt (by rw [topWord] at hword; omega)
  · rename_i hgt
    rw [UInt32.toNat_ofNat', Nat.shiftRight_eq_div_pow, pow_mul,
      show (2 : Nat) ^ 8 = 256 by norm_num, ← scale_of_ge x (by omega)]
    exact Nat.mod_eq_of_lt (by rw [topWord] at hword; omega)

theorem toNat_getCompact (x : Nat) (hx : x < 2 ^ 256) :
    (getCompact x).toNat = sizeOf x * 2 ^ 24 + mantissaOf x := by
  have hlen : byteLen x ≤ 32 := by
    rw [byteLen_le_iff]
    norm_num at hx ⊢
    exact hx
  have hword := topWord_lt x
  have htop := toNat_compactWord x
  have hsign := sign_bit_ne_zero_iff (compactWord x) (htop ▸ hword)
  rw [htop] at hsign
  rw [getCompact, sizeOf, mantissaOf]
  by_cases hbig : 2 ^ 23 ≤ topWord x
  · rw [if_pos (hsign.mpr hbig), if_pos hbig, if_pos hbig, UInt32.or_comm,
      toNat_pack _ _ (by omega), toNat_shiftRight_eight, htop]
    rw [toNat_shiftRight_eight, htop]
    omega
  · rw [if_neg (mt hsign.mp hbig), if_neg hbig, if_neg hbig, UInt32.or_comm,
      toNat_pack _ _ (by omega) (htop ▸ hword), htop]

theorem getCompact_eq_iff {x y : Nat} (hx : x < 2 ^ 256) (hy : y < 2 ^ 256) :
    getCompact x = getCompact y ↔
      sizeOf x = sizeOf y ∧ mantissaOf x = mantissaOf y := by
  have hmx := mantissaOf_lt x
  have hmy := mantissaOf_lt y
  rw [← UInt32.toNat_inj, toNat_getCompact x hx, toNat_getCompact y hy]
  omega

theorem getCompact_eq_zero_iff {x : Nat} (hx : x < 2 ^ 256) :
    getCompact x = 0 ↔ x = 0 := by
  constructor
  · intro h
    have hval := toNat_getCompact x hx
    rw [h] at hval
    have hzero : (0 : UInt32).toNat = 0 := rfl
    apply (sizeOf_eq_zero_iff x).mp
    omega
  · rintro rfl
    decide

theorem nSize_getCompact {x : Nat} (hx : x < 2 ^ 256) :
    nSize (getCompact x) = sizeOf x := by
  have hm := mantissaOf_lt x
  rw [nSize_eq, toNat_getCompact x hx]
  omega

theorem mod_getCompact {x : Nat} (hx : x < 2 ^ 256) :
    (getCompact x).toNat % 2 ^ 23 = mantissaOf x := by
  have hm := mantissaOf_lt x
  rw [toNat_getCompact x hx]
  omega

/-! ## Reading -/

theorem setCompact_eq (c : UInt32) (hsize : nSize c ≤ 32) :
    setCompact c = c.toNat % 2 ^ 23 * 256 ^ nSize c / 2 ^ 24 := by
  rw [setCompact, nWord]
  by_cases hle : nSize c ≤ 3
  · rw [if_pos hle, if_pos hle, toNat_and_mask, Nat.shiftRight_eq_div_pow,
      pow_mul, show (2 : Nat) ^ 8 = 256 by norm_num, unscale_of_le _ hle]
  · have hpow : 256 ^ (nSize c - 3) ≤ 256 ^ 29 :=
      Nat.pow_le_pow_right (by norm_num) (by omega)
    have hmask : c.toNat % 2 ^ 23 < 2 ^ 23 := Nat.mod_lt _ (by norm_num)
    have hlt : c.toNat % 2 ^ 23 * 256 ^ (nSize c - 3) < 2 ^ 256 :=
      calc c.toNat % 2 ^ 23 * 256 ^ (nSize c - 3)
          ≤ 2 ^ 23 * 256 ^ 29 := Nat.mul_le_mul hmask.le hpow
        _ < 2 ^ 256 := by norm_num
    rw [if_neg hle, if_neg hle, toNat_and_mask, Nat.shiftLeft_eq, pow_mul,
      show (2 : Nat) ^ 8 = 256 by norm_num, Nat.mod_eq_of_lt hlt,
      unscale_of_ge _ (by omega)]

theorem setCompact_lt (c : UInt32) : setCompact c < 2 ^ 256 := by
  rw [setCompact]
  split
  · rename_i hle
    have hmask : (c &&& 0x007fffff).toNat < 2 ^ 23 := by
      rw [toNat_and_mask]
      exact Nat.mod_lt _ (by norm_num)
    rw [nWord, if_pos hle]
    calc (c &&& 0x007fffff).toNat >>> (8 * (3 - nSize c))
        ≤ (c &&& 0x007fffff).toNat := Nat.shiftRight_le _ _
      _ < 2 ^ 23 := hmask
      _ < 2 ^ 256 := by norm_num
  · exact Nat.mod_lt _ (by positivity)

/-- Above 32 bytes only small words are accepted, and they are huge. -/
theorem le_setCompact_of_size_gt (c : UInt32) (hsize : 32 < nSize c)
    (hoverflow : fOverflow c = false) (hpos : 0 < setCompact c) :
    256 ^ 30 ≤ setCompact c := by
  have hle : ¬ nSize c ≤ 3 := by omega
  rw [setCompact, if_neg hle] at hpos ⊢
  have hword : nWord c ≠ 0 := by
    intro h
    simp [h] at hpos
  simp only [fOverflow, Bool.and_eq_false_iff, Bool.or_eq_false_iff,
    decide_eq_false_iff_not, bne_eq_false_iff_eq, hword, false_or] at hoverflow
  obtain ⟨⟨hsize34, hff⟩, hffff⟩ := hoverflow
  have hword16 : nWord c ≤ 0xffff := by
    rcases hffff with h | h <;> omega
  rw [Nat.shiftLeft_eq]
  obtain h33 | h34 : nSize c = 33 ∨ nSize c = 34 := by omega
  · rw [h33]
    rw [Nat.mod_eq_of_lt]
    · omega
    · norm_num
      omega
  · have hword8 : nWord c ≤ 0xff := by
      rcases hff with h | h <;> omega
    rw [h34]
    rw [Nat.mod_eq_of_lt]
    · omega
    · norm_num
      omega

end BitcoinMachineCode.Consensus
