import Mathlib.Data.List.Induction
import Mathlib.Data.Nat.Bitwise
import Mathlib.Tactic.Positivity
import Mathlib.Tactic.Ring
import BitcoinMachineCode.Foundation.Readers

/-!
# Bit strings

Strings of bits with the most significant bit first, their packing into bytes with zeros
after the last bit, and Golomb-Rice codes over them.
-/

namespace BitcoinMachineCode.Foundation

/-! ## Values -/

def bitsVal (bs : List Bool) : Nat := bs.foldl (fun n b => 2 * n + b.toNat) 0

/-- The lowest `n` bits. -/
def toBits : Nat → Nat → List Bool
  | 0, _ => []
  | n + 1, v => toBits n (v / 2) ++ [decide (v % 2 = 1)]

@[simp] theorem bitsVal_nil : bitsVal [] = 0 := rfl

@[simp] theorem length_toBits (n v : Nat) : (toBits n v).length = n := by
  induction n generalizing v with
  | zero => rfl
  | succ n ih => simp [toBits, ih]

theorem bitsVal_snoc (bs : List Bool) (b : Bool) : bitsVal (bs ++ [b]) = 2 * bitsVal bs + b.toNat := by
  simp [bitsVal]

theorem bitsVal_append (xs ys : List Bool) : bitsVal (xs ++ ys) = bitsVal xs * 2 ^ ys.length + bitsVal ys := by
  induction ys using List.reverseRecOn with
  | nil => simp
  | append_singleton ys y ih =>
      rw [← List.append_assoc, bitsVal_snoc, ih, bitsVal_snoc, List.length_append, List.length_singleton, pow_succ]
      ring

theorem bitsVal_lt (bs : List Bool) : bitsVal bs < 2 ^ bs.length := by
  induction bs using List.reverseRecOn with
  | nil => simp
  | append_singleton bs b ih =>
      have hb := b.toNat_lt
      rw [bitsVal_snoc, List.length_append, List.length_singleton, pow_succ]
      omega

theorem bitsVal_toBits (n v : Nat) : bitsVal (toBits n v) = v % 2 ^ n := by
  induction n generalizing v with
  | zero => simp [toBits, Nat.mod_one]
  | succ n ih =>
      have hbit : (decide (v % 2 = 1)).toNat = v % 2 := by
        rcases Nat.mod_two_eq_zero_or_one v with h | h <;> simp [h]
      rw [toBits, bitsVal_snoc, ih, hbit, pow_succ, Nat.mul_comm (2 ^ n) 2, Nat.mod_mul]
      omega

theorem toBits_bitsVal (bs : List Bool) : toBits bs.length (bitsVal bs) = bs := by
  induction bs using List.reverseRecOn with
  | nil => rfl
  | append_singleton bs b ih =>
      have hhalf : (2 * bitsVal bs + b.toNat) / 2 = bitsVal bs := by
        have hb := b.toNat_lt
        omega
      have hlast : (2 * bitsVal bs + b.toNat) % 2 = b.toNat := by
        have hb := b.toNat_lt
        omega
      rw [List.length_append, List.length_singleton, toBits, bitsVal_snoc, hhalf, ih, hlast]
      cases b <;> rfl

theorem bitsVal_replicate_true (n : Nat) : bitsVal (List.replicate n true) = 2 ^ n - 1 := by
  induction n with
  | zero => rfl
  | succ n ih =>
      have hpos : 0 < 2 ^ n := Nat.two_pow_pos n
      rw [List.replicate_succ', bitsVal_snoc, ih, pow_succ]
      simp
      omega

theorem bitsVal_replicate_false (n : Nat) : bitsVal (List.replicate n false) = 0 := by
  induction n with
  | zero => rfl
  | succ n ih => simp [List.replicate_succ', bitsVal_snoc, ih]

theorem toBits_mod (n x : Nat) : toBits n (x % 2 ^ n) = toBits n x := by
  have h := toBits_bitsVal (toBits n x)
  rwa [length_toBits, bitsVal_toBits] at h

theorem toBits_mod_of_le {n m : Nat} (h : n ≤ m) (x : Nat) :
    toBits n (x % 2 ^ m) = toBits n x := by
  rw [← toBits_mod, Nat.mod_mod_of_dvd _ (Nat.pow_dvd_pow 2 h), toBits_mod]

theorem toBits_inj {n x y : Nat} (hx : x < 2 ^ n) (hy : y < 2 ^ n)
    (h : toBits n x = toBits n y) : x = y := by
  have hval := congrArg bitsVal h
  rwa [bitsVal_toBits, bitsVal_toBits, Nat.mod_eq_of_lt hx, Nat.mod_eq_of_lt hy] at hval

theorem toBits_zero (n : Nat) : toBits n 0 = List.replicate n false := by
  have h := toBits_bitsVal (List.replicate n false)
  rwa [List.length_replicate, bitsVal_replicate_false] at h

theorem toBits_shift (n : Nat) {m : Nat} (x : Nat) {y : Nat} (hy : y < 2 ^ m) :
    toBits (n + m) (x * 2 ^ m + y) = toBits n x ++ toBits m y := by
  have hval : bitsVal (toBits n x ++ toBits m y) = x % 2 ^ n * 2 ^ m + y := by
    rw [bitsVal_append, bitsVal_toBits, bitsVal_toBits, length_toBits, Nat.mod_eq_of_lt hy]
  have h := toBits_bitsVal (toBits n x ++ toBits m y)
  rw [hval, List.length_append, length_toBits, length_toBits] at h
  have hx : x * 2 ^ m + y = x % 2 ^ n * 2 ^ m + y + 2 ^ (n + m) * (x / 2 ^ n) := by
    conv_lhs => rw [← Nat.mod_add_div x (2 ^ n)]
    rw [Nat.pow_add]
    ring
  rw [← h, hx, ← toBits_mod, Nat.add_mul_mod_self_left, toBits_mod]

theorem toBits_split (n m x : Nat) :
    toBits (n + m) x = toBits n (x / 2 ^ m) ++ toBits m x := by
  have h := toBits_shift n (x / 2 ^ m) (Nat.mod_lt x (Nat.two_pow_pos m))
  rwa [Nat.div_add_mod', toBits_mod] at h

/-! ## Packing -/

/-- Eight bits a byte, the last byte with what is left. -/
def packWith (enc : List Bool → UInt8) (bs : List Bool) : List UInt8 :=
  (List.range ((bs.length + 7) / 8)).map fun i => enc ((bs.drop (8 * i)).take 8)

theorem packWith_append (enc : List Bool → UInt8) {xs : List Bool} (hxs : xs.length = 8) (ys : List Bool) :
    packWith enc (xs ++ ys) = enc xs :: packWith enc ys := by
  have hlen : ((xs ++ ys).length + 7) / 8 = (ys.length + 7) / 8 + 1 := by
    rw [List.length_append]
    omega
  rw [packWith, hlen, List.range_succ_eq_map, List.map_cons, List.map_map, packWith]
  congr 1
  · simp [← hxs]
  · apply List.map_congr_left
    intro i _
    have hdrop : 8 * (i + 1) = xs.length + 8 * i := by omega
    simp [hdrop, List.drop_append, List.drop_of_length_le (Nat.le_add_right xs.length (8 * i))]

/-- If a byte gives back its bits with zeros behind them, so does the string. -/
theorem flatMap_packWith {enc : List Bool → UInt8} {dec : UInt8 → List Bool}
    (h : ∀ bs, bs.length ≤ 8 → dec (enc bs) = bs ++ List.replicate (8 - bs.length) false) (bs : List Bool) :
    ∃ k, (packWith enc bs).flatMap dec = bs ++ List.replicate k false := by
  induction hn : bs.length using Nat.strong_induction_on generalizing bs with
  | _ n ih =>
      by_cases hlong : 8 ≤ bs.length
      · have hxs : (bs.take 8).length = 8 := by simp [hlong]
        obtain ⟨k, hk⟩ := ih (bs.drop 8).length (by simp; omega) (bs.drop 8) rfl
        refine ⟨k, ?_⟩
        conv_lhs => rw [← List.take_append_drop 8 bs, packWith_append enc hxs]
        rw [List.flatMap_cons, h _ hxs.le, hk, hxs, Nat.sub_self, List.replicate_zero, List.append_nil,
          ← List.append_assoc, List.take_append_drop]
      · by_cases hnil : bs = []
        · exact ⟨0, by simp [hnil, packWith]⟩
        · have hpos : 0 < bs.length := List.length_pos_iff.mpr hnil
          have hone : (bs.length + 7) / 8 = 1 := by omega
          have hshort : bs.take 8 = bs := List.take_of_length_le (by omega)
          refine ⟨8 - bs.length, ?_⟩
          simp [packWith, hone, hshort, h bs (by omega)]

/-- At most eight bits as a byte, with zeros behind them. -/
def packByte (bs : List Bool) : UInt8 := UInt8.ofNat (bitsVal bs * 2 ^ (8 - bs.length))

def packBits (bs : List Bool) : List UInt8 :=
  (List.range ((bs.length + 7) / 8)).map fun i => packByte ((bs.drop (8 * i)).take 8)

def unpackBits (bytes : List UInt8) : List Bool := bytes.flatMap fun b => toBits 8 b.toNat

theorem unpackBits_cons (b : UInt8) (bytes : List UInt8) :
    unpackBits (b :: bytes) = toBits 8 b.toNat ++ unpackBits bytes := rfl

theorem length_unpackBits (bytes : List UInt8) : (unpackBits bytes).length = 8 * bytes.length := by
  simp [unpackBits, List.length_flatMap, Nat.mul_comm]

@[simp] theorem length_packBits (bs : List Bool) : (packBits bs).length = (bs.length + 7) / 8 := by
  simp [packBits]

theorem toBits_packByte {bs : List Bool} (h : bs.length ≤ 8) :
    toBits 8 (packByte bs).toNat = bs ++ List.replicate (8 - bs.length) false := by
  have hval : (packByte bs).toNat = bitsVal (bs ++ List.replicate (8 - bs.length) false) := by
    have hlt : bitsVal bs * 2 ^ (8 - bs.length) < 2 ^ 8 := by
      calc bitsVal bs * 2 ^ (8 - bs.length)
          < 2 ^ bs.length * 2 ^ (8 - bs.length) := Nat.mul_lt_mul_of_pos_right (bitsVal_lt bs) (by positivity)
        _ = 2 ^ 8 := by rw [← pow_add, Nat.add_sub_cancel' h]
    rw [bitsVal_append, bitsVal_replicate_false, List.length_replicate, packByte, UInt8.toNat_ofNat',
      Nat.mod_eq_of_lt hlt, Nat.add_zero]
  have hlen : (bs ++ List.replicate (8 - bs.length) false).length = 8 := by
    simp
    omega
  have hbits := toBits_bitsVal (bs ++ List.replicate (8 - bs.length) false)
  rwa [hlen, ← hval] at hbits

theorem packBits_append {xs : List Bool} (hxs : xs.length = 8) (ys : List Bool) :
    packBits (xs ++ ys) = packByte xs :: packBits ys :=
  packWith_append packByte hxs ys

theorem unpackBits_packBits (bs : List Bool) : ∃ k, unpackBits (packBits bs) = bs ++ List.replicate k false :=
  flatMap_packWith (fun _ h => toBits_packByte h) bs

/-- At most eight bits as a byte, the first the lowest. -/
def lowByte (bs : List Bool) : UInt8 := UInt8.ofNat (bitsVal bs.reverse)

def packLow (bs : List Bool) : List UInt8 := packWith lowByte bs

/-- The bits of the bytes, the lowest of each first. -/
def unpackLow (bytes : List UInt8) : List Bool := bytes.flatMap fun b => (toBits 8 b.toNat).reverse

theorem bits_lowByte {bs : List Bool} (h : bs.length ≤ 8) :
    (toBits 8 (lowByte bs).toNat).reverse = bs ++ List.replicate (8 - bs.length) false := by
  have hlt : bitsVal bs.reverse < 2 ^ 8 := by
    apply (bitsVal_lt bs.reverse).trans_le
    exact Nat.pow_le_pow_right (by decide) (by simpa using h)
  have hval : (lowByte bs).toNat = bitsVal (List.replicate (8 - bs.length) false ++ bs.reverse) := by
    rw [bitsVal_append, bitsVal_replicate_false, lowByte, UInt8.toNat_ofNat', Nat.mod_eq_of_lt hlt]
    simp
  have hlen : (List.replicate (8 - bs.length) false ++ bs.reverse).length = 8 := by
    simp
    omega
  have hbits := toBits_bitsVal (List.replicate (8 - bs.length) false ++ bs.reverse)
  rw [hlen, ← hval] at hbits
  simp [hbits]

theorem unpackLow_packLow (bs : List Bool) : ∃ k, unpackLow (packLow bs) = bs ++ List.replicate k false :=
  flatMap_packWith (fun _ h => bits_lowByte h) bs

/-! ## Golomb-Rice codes -/

/-- The quotient in unary, a zero, the remainder in `p` bits. -/
def riceBits (p v : Nat) : List Bool := List.replicate (v / 2 ^ p) true ++ (false :: toBits p v)

def readUnary : Reader Bool Nat
  | [] => none
  | false :: bs => some (0, bs)
  | true :: bs => (readUnary bs).map fun x => (x.1 + 1, x.2)

def readRice (p : Nat) : Reader Bool Nat :=
  readUnary.bind fun q => (Reader.take p).bind fun r => .pure (q * 2 ^ p + bitsVal r)

theorem takes_readUnary (q : Nat) : readUnary.Takes (List.replicate q true ++ [false]) q := by
  intro rest
  induction q with
  | zero => rfl
  | succ q ih =>
      rw [List.replicate_succ, List.cons_append, List.cons_append, readUnary, ih]
      rfl

theorem takes_readRice (p v : Nat) : (readRice p).Takes (riceBits p v) v := by
  have htail : ((Reader.take p).bind fun r => (Reader.pure (v / 2 ^ p * 2 ^ p + bitsVal r) : Reader Bool Nat)).Takes
      (toBits p v ++ []) v := by
    have hv : v / 2 ^ p * 2 ^ p + bitsVal (toBits p v) = v := by
      rw [bitsVal_toBits, Nat.div_add_mod']
    apply Reader.Takes.bind (Reader.takes_take (length_toBits p v))
    rw [hv]
    exact Reader.takes_pure v
  have hall : (readRice p).Takes (List.replicate (v / 2 ^ p) true ++ [false] ++ (toBits p v ++ [])) v :=
    Reader.Takes.bind (takes_readUnary (v / 2 ^ p)) htail
  simpa [riceBits] using hall

theorem takes_readRices (p : Nat) (vs : List Nat) :
    ((readRice p).times vs.length).Takes (vs.flatMap (riceBits p)) vs := by
  induction vs with
  | nil => exact Reader.takes_pure []
  | cons v vs ih => exact Reader.Takes.times_cons (takes_readRice p v) ih

/-! ## Differences -/

def deltas (prev : Nat) : List Nat → List Nat
  | [] => []
  | x :: xs => (x - prev) :: deltas x xs

def runningSums (prev : Nat) : List Nat → List Nat
  | [] => []
  | d :: ds => (prev + d) :: runningSums (prev + d) ds

@[simp] theorem length_deltas (prev : Nat) (xs : List Nat) : (deltas prev xs).length = xs.length := by
  induction xs generalizing prev with
  | nil => rfl
  | cons x xs ih => simp [deltas, ih]

theorem runningSums_deltas {prev : Nat} {xs : List Nat} (h : (prev :: xs).Pairwise (· ≤ ·)) :
    runningSums prev (deltas prev xs) = xs := by
  induction xs generalizing prev with
  | nil => rfl
  | cons x xs ih =>
      obtain ⟨hle, htail⟩ := List.pairwise_cons.mp h
      have hx : prev + (x - prev) = x := Nat.add_sub_cancel' (hle x List.mem_cons_self)
      rw [deltas, runningSums, hx, ih htail]

end BitcoinMachineCode.Foundation
