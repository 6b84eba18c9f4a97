import BitcoinMachineCode.Foundation.Digits
import BitcoinMachineCode.Foundation.LucasTest
import Mathlib.Data.Nat.Prime.Int
import Mathlib.Tactic.NormNum.Prime

/-!
# The field of the curve

`P_LIMBS` and the 65-byte arm of `pubkey_parse` in `bitcoin_pubkey.asm`, over exact field
arithmetic.  The field is prime, so that a point is known by its first coordinate and the
parity of the second.
-/

namespace BitcoinMachineCode.Consensus

open BitcoinMachineCode.Foundation

/-- `P_LIMBS` -/
def fieldP : Nat := 2 ^ 256 - 2 ^ 32 - 977

/-! The factors of the predecessor of the field's size, and of the larger of those. -/

def factors58 : List Nat := [2, 2, 2, 5, 5, 2621, 24809, 13331831]

def factors75 : List Nat := [2, 2, 2, 3, 5323, 173378833005251801]

def factors77 : List Nat := [2, 3, 22149492674086928081353]

def factors128 : List Nat := [2, 2, 2, 7, 7, 11, 1627, 2657, 4423, 41201, 96557, 7240687, 107590001]

def factors237 : List Nat :=
  [2, 3, 5, 29, 29, 31, 7723, 132896956044521568488119, 255515944373312847190720520512484175977]

def factors256 : List Nat :=
  [2, 3, 7, 13441, 205115282021455665897114700593932402728804164701536103180137503955397371]

theorem factors_pass :
    lucasTest 173378833005251801 58 6 factors58 = true ∧
    lucasTest 22149492674086928081353 75 5 factors75 = true ∧
    lucasTest 132896956044521568488119 77 6 factors77 = true ∧
    lucasTest 255515944373312847190720520512484175977 128 3 factors128 = true ∧
    lucasTest 205115282021455665897114700593932402728804164701536103180137503955397371 237 10 factors237 = true ∧
    lucasTest fieldP 256 3 factors256 = true := by
  decide +kernel

theorem prime_75 : Nat.Prime 22149492674086928081353 := by
  apply prime_of_lucasTest factors_pass.2.1
  have hlarge : Nat.Prime 173378833005251801 := by
    apply prime_of_lucasTest factors_pass.1
    simp only [factors58, List.mem_cons, List.not_mem_nil, or_false, forall_eq_or_imp, forall_eq]
    norm_num
  simp only [factors75, List.mem_cons, List.not_mem_nil, or_false, forall_eq_or_imp, forall_eq]
  exact ⟨by norm_num, by norm_num, by norm_num, by norm_num, by norm_num, hlarge⟩

theorem prime_237 : Nat.Prime 205115282021455665897114700593932402728804164701536103180137503955397371 := by
  apply prime_of_lucasTest factors_pass.2.2.2.2.1
  have hseventh : Nat.Prime 132896956044521568488119 := by
    apply prime_of_lucasTest factors_pass.2.2.1
    simp only [factors77, List.mem_cons, List.not_mem_nil, or_false, forall_eq_or_imp, forall_eq]
    exact ⟨by norm_num, by norm_num, prime_75⟩
  have hlast : Nat.Prime 255515944373312847190720520512484175977 := by
    apply prime_of_lucasTest factors_pass.2.2.2.1
    simp only [factors128, List.mem_cons, List.not_mem_nil, or_false, forall_eq_or_imp, forall_eq]
    norm_num
  simp only [factors237, List.mem_cons, List.not_mem_nil, or_false, forall_eq_or_imp, forall_eq]
  exact ⟨by norm_num, by norm_num, by norm_num, by norm_num, by norm_num, by norm_num, by norm_num, hseventh, hlast⟩

theorem fieldP_prime : fieldP.Prime := by
  apply prime_of_lucasTest factors_pass.2.2.2.2.2
  simp only [factors256, List.mem_cons, List.not_mem_nil, or_false, forall_eq_or_imp, forall_eq]
  exact ⟨by norm_num, by norm_num, by norm_num, by norm_num, prime_237⟩

def onCurve (x y : Nat) : Bool := decide (y * y % fieldP = (x * x * x + 7) % fieldP)

/-- `pubkey_parse` of 65 bytes: both coordinates canonical and on the curve; the hybrid forms
repeat the parity. -/
def pubkeyParse65 (pub : List UInt8) : Bool :=
  let head := pub.headD 0
  let x := beVal ((pub.drop 1).take 32)
  let y := beVal ((pub.drop 33).take 32)
  (decide (head = 4) || ((decide (head = 6) || decide (head = 7)) && decide (head &&& 1 = pub.getD 64 0 &&& 1))) &&
    decide (x < fieldP) && decide (y < fieldP) && onCurve x y

/-- The first coordinate and the parity of the second make the point. -/
theorem onCurve_unique {x y y' : Nat} (hy : y < fieldP) (hy' : y' < fieldP) (h : onCurve x y = true)
    (h' : onCurve x y' = true) (hparity : y % 2 = y' % 2) : y = y' := by
  simp only [onCurve, decide_eq_true_eq] at h h'
  have hdvd : (fieldP : Int) ∣ ((y : Int) - y') * (y + y') := by
    have hmod : (y * y : Nat) ≡ (y' * y' : Nat) [MOD fieldP] := h.trans h'.symm
    have hsub := (Nat.modEq_iff_dvd.mp hmod.symm)
    push_cast at hsub
    have hring : ((y : Int) - y') * (y + y') = y * y - y' * y' := by ring
    rwa [hring]
  have hodd : fieldP % 2 = 1 := by decide
  rcases (Nat.prime_iff_prime_int.mp fieldP_prime).dvd_or_dvd hdvd with hdiff | hsum
  · have hzero : (y : Int) - y' = 0 := by
      apply Int.eq_zero_of_abs_lt_dvd hdiff
      rw [abs_lt]
      omega
    omega
  · -- the opposite point has the other parity
    obtain ⟨k, hk⟩ := hsum
    have hcases : k = 0 ∨ k = 1 := by
      have hpos : 0 < (fieldP : Int) := by decide
      have hlow : 0 ≤ k := by
        by_contra hneg
        have : (fieldP : Int) * k < 0 := mul_neg_of_pos_of_neg hpos (by omega)
        omega
      have hhigh : k < 2 := by
        by_contra hbig
        have : (fieldP : Int) * 2 ≤ fieldP * k := mul_le_mul_of_nonneg_left (by omega) hpos.le
        omega
      omega
    rcases hcases with rfl | rfl <;> omega

end BitcoinMachineCode.Consensus
