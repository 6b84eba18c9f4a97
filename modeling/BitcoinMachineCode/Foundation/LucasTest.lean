import Mathlib.NumberTheory.LucasPrimality
import Mathlib.Tactic.Ring

/-!
# Primes from the factors of their predecessor

Lucas' test with the powers computed by repeated squaring, so that the kernel can evaluate it
for numbers of a few hundred bits.
-/

namespace BitcoinMachineCode.Foundation

/-- `a ^ e` modulo `n` for an exponent of at most `k` bits, not reduced at the end. -/
def powMod (n : ℕ) : ℕ → ℕ → ℕ → ℕ
  | 0, _, _ => 1
  | k + 1, a, e => (if e % 2 = 1 then a else 1) * powMod n k (a * a % n) (e / 2) % n

theorem powMod_modEq {n k a e : ℕ} (he : e < 2 ^ k) : powMod n k a e ≡ a ^ e [MOD n] := by
  induction k generalizing a e with
  | zero =>
      have hzero : e = 0 := by simpa using he
      simp [powMod, hzero, Nat.ModEq.refl]
  | succ k ih =>
      have hhalf : e / 2 < 2 ^ k := by
        rw [pow_succ] at he
        omega
      have hsquare : powMod n k (a * a % n) (e / 2) ≡ (a * a) ^ (e / 2) [MOD n] :=
        (ih hhalf).trans ((Nat.mod_modEq (a * a) n).pow (e / 2))
      have hparts : a ^ e = (if e % 2 = 1 then a else 1) * (a * a) ^ (e / 2) := by
        have hsplit : e = e % 2 + 2 * (e / 2) := by omega
        rcases Nat.mod_two_eq_zero_or_one e with h | h
        · rw [h] at hsplit
          conv_lhs => rw [hsplit]
          simp [h, pow_mul, sq]
        · rw [h] at hsplit
          conv_lhs => rw [hsplit]
          simp [h, pow_add, pow_mul, sq]
      rw [powMod, hparts]
      exact (Nat.mod_modEq _ n).trans (hsquare.mul_left _)

theorem pow_eq_one_iff_powMod {n k a e : ℕ} (hn : 1 < n) (he : e < 2 ^ k) :
    (a : ZMod n) ^ e = 1 ↔ powMod n k a e % n = 1 := by
  have hmod : powMod n k a e % n = a ^ e % n := powMod_modEq he
  rw [hmod, ← Nat.cast_pow, ← Nat.cast_one, ZMod.natCast_eq_natCast_iff', Nat.mod_eq_of_lt hn]

/-- Whether `a` has the order of the predecessor of `n`, the product of the factors listed. -/
def lucasTest (n k a : ℕ) (factors : List ℕ) : Bool :=
  decide (factors.prod + 1 = n ∧ 1 < n ∧ n ≤ 2 ^ k ∧ powMod n k a (n - 1) % n = 1) &&
    factors.all fun q => decide (powMod n k a ((n - 1) / q) % n ≠ 1)

/-- A number that passes is prime if the factors are. -/
theorem prime_of_lucasTest {n k a : ℕ} {factors : List ℕ} (h : lucasTest n k a factors = true)
    (hprime : ∀ q ∈ factors, q.Prime) : n.Prime := by
  simp only [lucasTest, Bool.and_eq_true, decide_eq_true_eq, List.all_eq_true] at h
  obtain ⟨⟨hprod, hn, hk, hone⟩, hne⟩ := h
  apply lucas_primality n (a : ZMod n)
  · rw [pow_eq_one_iff_powMod hn (show n - 1 < 2 ^ k by omega)]
    exact hone
  · intro q hq hdvd
    have hpred : factors.prod = n - 1 := by omega
    rw [← hpred] at hdvd
    obtain ⟨x, hx, hqx⟩ := (Prime.dvd_prod_iff hq.prime).mp hdvd
    have hsame : q = x := (Nat.prime_dvd_prime_iff_eq hq (hprime x hx)).mp hqx
    have hlt : (n - 1) / q < 2 ^ k := (Nat.div_le_self (n - 1) q).trans_lt (by omega)
    rw [Ne, pow_eq_one_iff_powMod hn hlt, hsame]
    exact hne x hx

end BitcoinMachineCode.Foundation
