import Mathlib
import BitcoinMachineCode.Foundation.BitString

/-!
# Base32 addresses

`base32_encode` and `base32_decode` from `base32.c`, which the onion and I2P
addresses are written with: lower case, no padding.  The accumulator is an
unsigned of 32 bits that is never cleared; only its lowest bits, those not yet
written out, count.  A text is taken exactly when it is, up to case, the text
of the bytes it is read as.
-/

namespace BitcoinMachineCode.Network

open BitcoinMachineCode.Foundation

/-- The alphabet: the letters, then `2` to `7`. -/
def base32Char (v : Nat) : UInt8 :=
  if v < 26 then UInt8.ofNat (97 + v) else UInt8.ofNat (24 + v)

def base32Value (c : UInt8) : Option Nat :=
  if 97 ≤ c.toNat ∧ c.toNat ≤ 122 then some (c.toNat - 97)
  else if 65 ≤ c.toNat ∧ c.toNat ≤ 90 then some (c.toNat - 65)
  else if 50 ≤ c.toNat ∧ c.toNat ≤ 55 then some (c.toNat - 50 + 26)
  else none

/-- The inner loop of `base32_encode`: the groups of five among the lowest
`bits` bits, and how many bits are left. -/
def drainFives (acc : Nat) : Nat → List Nat × Nat
  | bits + 5 => ((acc / 2 ^ bits) % 32 :: (drainFives acc bits).1, (drainFives acc bits).2)
  | bits => ([], bits)

def encodeLoop : List UInt8 → Nat → Nat → List Nat
  | [], acc, bits => if 0 < bits then [acc * 2 ^ (5 - bits) % 2 ^ 32 % 32] else []
  | b :: rest, acc, bits =>
      let acc := (acc * 2 ^ 8 + b.toNat) % 2 ^ 32
      (drainFives acc (bits + 8)).1 ++ encodeLoop rest acc (drainFives acc (bits + 8)).2

def base32Encode (input : List UInt8) : List UInt8 := (encodeLoop input 0 0).map base32Char

/-- The loop of `base32_decode`; what is left over at the end is padding of
fewer than five bits, all zero. -/
def decodeLoop : List UInt8 → Nat → Nat → Option (List UInt8)
  | [], acc, bits => if 5 ≤ bits ∨ acc % 2 ^ bits ≠ 0 then none else some []
  | c :: rest, acc, bits =>
      match base32Value c with
      | none => none
      | some v =>
          let acc := (acc * 2 ^ 5 + v) % 2 ^ 32
          if 8 ≤ bits + 5 then
            (decodeLoop rest acc (bits + 5 - 8)).map
              (UInt8.ofNat (acc / 2 ^ (bits + 5 - 8) % 256) :: ·)
          else decodeLoop rest acc (bits + 5)

def base32Decode (s : List UInt8) : Option (List UInt8) := decodeLoop s 0 0

/-! ## Writing -/

theorem drainFives_spec (acc bits : Nat) :
    (drainFives acc bits).1.flatMap (toBits 5) ++ toBits (drainFives acc bits).2 acc =
        toBits bits acc ∧
      (drainFives acc bits).2 < 5 ∧ ∀ v ∈ (drainFives acc bits).1, v < 32 := by
  fun_induction drainFives acc bits with
  | case1 bits ih =>
      obtain ⟨hbits, hlt, hall⟩ := ih
      refine ⟨?_, hlt, List.forall_mem_cons.mpr ⟨Nat.mod_lt _ (by decide), hall⟩⟩
      have hsplit : toBits (bits + 5) acc = toBits 5 (acc / 2 ^ bits) ++ toBits bits acc := by
        rw [Nat.add_comm, toBits_split]
      rw [List.flatMap_cons, List.append_assoc, hbits]
      exact (congrArg (· ++ _) (toBits_mod 5 _)).trans hsplit.symm
  | case2 bits h =>
      refine ⟨rfl, ?_, List.forall_mem_nil _⟩
      by_contra hle
      exact h (bits - 5) (by omega)

theorem encodeLoop_spec (input : List UInt8) {acc bits : Nat} (hbits : bits < 5) :
    ∃ pad < 5, (encodeLoop input acc bits).flatMap (toBits 5) =
        toBits bits acc ++ unpackBits input ++ List.replicate pad false ∧
      ∀ v ∈ encodeLoop input acc bits, v < 32 := by
  induction input generalizing acc bits with
  | nil =>
      unfold encodeLoop
      split_ifs with hpos
      · refine ⟨5 - bits, by omega, ?_, by simp [Nat.mod_lt]⟩
        have hshift := toBits_shift bits acc (Nat.two_pow_pos (5 - bits))
        rw [Nat.add_zero, Nat.add_sub_cancel' hbits.le, toBits_zero] at hshift
        have hmod : toBits 5 (acc * 2 ^ (5 - bits) % 2 ^ 32 % 32) =
            toBits 5 (acc * 2 ^ (5 - bits)) :=
          (toBits_mod 5 _).trans (toBits_mod_of_le (by decide) _)
        rw [List.flatMap_singleton, hmod, hshift]
        simp [unpackBits]
      · obtain rfl : bits = 0 := by omega
        exact ⟨0, by decide, rfl, List.forall_mem_nil _⟩
  | cons b rest ih =>
      obtain ⟨hdrain, hlt, hall⟩ :=
        drainFives_spec ((acc * 2 ^ 8 + b.toNat) % 2 ^ 32) (bits + 8)
      obtain ⟨pad, hpad, hrest, hvals⟩ := @ih ((acc * 2 ^ 8 + b.toNat) % 2 ^ 32) _ hlt
      refine ⟨pad, hpad, ?_, fun v hv => ?_⟩
      · have hread : toBits (bits + 8) ((acc * 2 ^ 8 + b.toNat) % 2 ^ 32) =
            toBits bits acc ++ toBits 8 b.toNat := by
          rw [toBits_mod_of_le (by omega), toBits_shift bits acc b.toNat_lt]
        rw [hread] at hdrain
        unfold encodeLoop
        dsimp only
        rw [List.flatMap_append, hrest, ← List.append_assoc, ← List.append_assoc, hdrain]
        simp [unpackBits]
      · rcases List.mem_append.mp hv with hv | hv
        · exact hall v hv
        · exact hvals v hv

/-! ## Reading -/

theorem toBits_byte (x : Nat) : toBits 8 (UInt8.ofNat (x % 256)).toNat = toBits 8 x := by
  rw [UInt8.toNat_ofNat', Nat.mod_mod]
  exact toBits_mod 8 x

theorem byte_of_bits {x : Nat} {b : UInt8} (h : toBits 8 x = toBits 8 b.toNat) :
    UInt8.ofNat (x % 256) = b := by
  apply UInt8.toNat_inj.mp
  exact toBits_inj (UInt8.toNat_lt _) b.toNat_lt ((toBits_byte x).trans h)

theorem base32Value_lt {c : UInt8} {v : Nat} (h : base32Value c = some v) : v < 32 := by
  unfold base32Value at h
  split_ifs at h <;> · obtain rfl := Option.some.inj h; omega

/-- The bits of the accumulator after one more character. -/
theorem toBits_next {acc bits v : Nat} (hbits : bits < 8) (hv : v < 32) :
    toBits (bits + 5) ((acc * 2 ^ 5 + v) % 2 ^ 32) = toBits bits acc ++ toBits 5 v := by
  rw [toBits_mod_of_le (by omega), toBits_shift bits acc hv]

theorem decodeLoop_eq_some_iff {s out : List UInt8} {acc bits : Nat} (hbits : bits < 8) :
    decodeLoop s acc bits = some out ↔
      ∃ vals pad, List.Forall₂ (fun c v => base32Value c = some v) s vals ∧ pad < 5 ∧
        toBits bits acc ++ vals.flatMap (toBits 5) =
          unpackBits out ++ List.replicate pad false := by
  induction s generalizing acc bits out with
  | nil =>
      unfold decodeLoop
      constructor
      · intro h
        split_ifs at h with hbad
        obtain ⟨hlt, hzero⟩ := not_or.mp hbad
        obtain rfl := Option.some.inj h
        refine ⟨[], bits, .nil, by omega, ?_⟩
        rw [← toBits_zero, ← toBits_mod, not_not.mp hzero]
        simp [unpackBits]
      · rintro ⟨vals, pad, hvals, hpad, heq⟩
        obtain rfl := List.forall₂_nil_left_iff.mp hvals
        have hlen := congrArg List.length heq
        simp only [List.flatMap_nil, List.append_nil, length_toBits, List.length_append,
          length_unpackBits, List.length_replicate] at hlen
        obtain rfl : out = [] := List.eq_nil_of_length_eq_zero (by omega)
        obtain rfl : bits = pad := by simpa using hlen
        have hval := congrArg bitsVal heq
        simp only [List.flatMap_nil, List.append_nil, bitsVal_toBits, unpackBits, List.nil_append,
          bitsVal_replicate_false] at hval
        rw [if_neg]
        simp only [hval, ne_eq, not_true_eq_false, or_false, not_le]
        exact hpad
  | cons c rest ih =>
      unfold decodeLoop
      cases hc : base32Value c with
      | none =>
          refine iff_of_false (by simp) ?_
          rintro ⟨vals, pad, hvals, -, -⟩
          obtain ⟨v, vs, hv, -, -⟩ := List.forall₂_cons_left_iff.mp hvals
          rw [hc] at hv
          cases hv
      | some v =>
          have hv := base32Value_lt hc
          have hnext := @toBits_next acc bits v hbits hv
          have hpeel : (∃ vals pad, List.Forall₂ (fun c v => base32Value c = some v) (c :: rest) vals ∧
                pad < 5 ∧ toBits bits acc ++ vals.flatMap (toBits 5) =
                  unpackBits out ++ List.replicate pad false) ↔
              ∃ vs pad, List.Forall₂ (fun c v => base32Value c = some v) rest vs ∧ pad < 5 ∧
                toBits bits acc ++ toBits 5 v ++ vs.flatMap (toBits 5) =
                  unpackBits out ++ List.replicate pad false := by
            constructor
            · rintro ⟨vals, pad, hvals, hpad, heq⟩
              obtain ⟨v', vs, hv', hvs, rfl⟩ := List.forall₂_cons_left_iff.mp hvals
              obtain rfl : v = v' := Option.some.inj (hc.symm.trans hv')
              refine ⟨vs, pad, hvs, hpad, ?_⟩
              rw [← heq, List.flatMap_cons, List.append_assoc]
            · rintro ⟨vs, pad, hvs, hpad, heq⟩
              refine ⟨v :: vs, pad, .cons hc hvs, hpad, ?_⟩
              rw [← heq, List.flatMap_cons, List.append_assoc]
          dsimp only
          rw [hpeel, ← hnext]
          generalize (acc * 2 ^ 5 + v) % 2 ^ 32 = acc'
          split_ifs with hbyte
          · have hsplit : toBits (bits + 5) acc' =
                toBits 8 (acc' / 2 ^ (bits + 5 - 8)) ++ toBits (bits + 5 - 8) acc' := by
              rw [← toBits_split, Nat.add_sub_cancel' hbyte]
            rw [Option.map_eq_some_iff, hsplit]
            constructor
            · rintro ⟨out', hout', rfl⟩
              obtain ⟨vs, pad, hvs, hpad, heq⟩ := (ih (by omega)).mp hout'
              refine ⟨vs, pad, hvs, hpad, ?_⟩
              rw [List.append_assoc, heq, unpackBits_cons, toBits_byte, List.append_assoc]
            · rintro ⟨vs, pad, hvs, hpad, heq⟩
              cases out with
              | nil =>
                  have hlen := congrArg List.length heq
                  simp only [unpackBits, List.flatMap_nil, List.nil_append, List.length_append,
                    length_toBits, List.length_replicate] at hlen
                  omega
              | cons b out' =>
                  rw [unpackBits_cons, List.append_assoc, List.append_assoc] at heq
                  obtain ⟨hb, hrest⟩ := List.append_inj heq (by simp)
                  exact ⟨out', (ih (by omega)).mpr ⟨vs, pad, hvs, hpad, hrest⟩,
                    by rw [byte_of_bits hb]⟩
          · exact ih (by omega)

/-! ## The texts that are taken -/

/-- The case of a letter does not count. -/
def base32Lower (c : UInt8) : UInt8 :=
  if 65 ≤ c.toNat ∧ c.toNat ≤ 90 then UInt8.ofNat (c.toNat + 32) else c

theorem base32Char_of_value {c : UInt8} {v : Nat} (h : base32Value c = some v) :
    base32Lower c = base32Char v := by
  unfold base32Value at h
  unfold base32Lower base32Char
  split_ifs at h with hlow hup hdigit
  · obtain rfl := Option.some.inj h
    rw [if_neg (by omega), if_pos (by omega), Nat.add_sub_cancel' hlow.1, UInt8.ofNat_toNat]
  · obtain rfl := Option.some.inj h
    rw [if_pos hup, if_pos (by omega)]
    congr 1
    omega
  · obtain rfl := Option.some.inj h
    rw [if_neg (by omega), if_neg (by omega)]
    have hback : 24 + (c.toNat - 50 + 26) = c.toNat := by omega
    rw [hback, UInt8.ofNat_toNat]

theorem base32Value_lower (c : UInt8) : base32Value (base32Lower c) = base32Value c := by
  unfold base32Lower
  split_ifs with hup
  · have hnat : (UInt8.ofNat (c.toNat + 32)).toNat = c.toNat + 32 := by
      rw [UInt8.toNat_ofNat', Nat.mod_eq_of_lt (by omega)]
    unfold base32Value
    rw [hnat, if_pos (by omega), if_neg (by omega), if_pos hup]
    congr 1
  · rfl

theorem base32Value_char : ∀ v < 32, base32Value (base32Char v) = some v := by decide

theorem values_lt {s : List UInt8} {vals : List Nat}
    (h : List.Forall₂ (fun c v => base32Value c = some v) s vals) : ∀ v ∈ vals, v < 32 := by
  induction h with
  | nil => exact List.forall_mem_nil _
  | cons hc _ ih => exact List.forall_mem_cons.mpr ⟨base32Value_lt hc, ih⟩

theorem values_iff {s : List UInt8} {vals : List Nat} (hlt : ∀ v ∈ vals, v < 32) :
    List.Forall₂ (fun c v => base32Value c = some v) s vals ↔
      s.map base32Lower = vals.map base32Char := by
  induction s generalizing vals with
  | nil => cases vals <;> simp
  | cons c s ih =>
      cases vals with
      | nil => simp
      | cons v vals =>
          obtain ⟨hv, hvals⟩ := List.forall_mem_cons.mp hlt
          have hone : base32Value c = some v ↔ base32Lower c = base32Char v := by
            refine ⟨base32Char_of_value, fun h => ?_⟩
            rw [← base32Value_lower, h, base32Value_char v hv]
          rw [List.forall₂_cons, List.map_cons, List.map_cons, List.cons.injEq, ih hvals, hone]

theorem flatMap_toBits_inj {xs ys : List Nat} (hxs : ∀ v ∈ xs, v < 32) (hys : ∀ v ∈ ys, v < 32)
    (h : xs.flatMap (toBits 5) = ys.flatMap (toBits 5)) : xs = ys := by
  induction xs generalizing ys with
  | nil =>
      cases ys with
      | nil => rfl
      | cons y ys =>
          have hlen := congrArg List.length h
          simp at hlen
          omega
  | cons x xs ih =>
      cases ys with
      | nil =>
          have hlen := congrArg List.length h
          simp at hlen
      | cons y ys =>
          obtain ⟨hx, hxs⟩ := List.forall_mem_cons.mp hxs
          obtain ⟨hy, hys⟩ := List.forall_mem_cons.mp hys
          obtain ⟨hhead, htail⟩ := List.append_inj h (by simp)
          rw [toBits_inj hx hy hhead, ih hxs hys htail]

/-- A text is taken exactly when it is, up to case, the text of the bytes it is
read as: the texts of all bytes are, and no bytes have two. -/
theorem base32_canonical (s out : List UInt8) :
    base32Decode s = some out ↔ s.map base32Lower = base32Encode out := by
  obtain ⟨pad, hpad, henc, hlt⟩ := @encodeLoop_spec out 0 0 (by decide)
  unfold base32Decode base32Encode
  rw [decodeLoop_eq_some_iff (by decide), ← values_iff hlt]
  constructor
  · rintro ⟨vals, pad', hvals, hpad', heq⟩
    have hvlt := values_lt hvals
    have hsame : vals.flatMap (toBits 5) = (encodeLoop out 0 0).flatMap (toBits 5) := by
      have hlen := congrArg List.length heq
      have hlen' := congrArg List.length henc
      simp only [List.length_append, List.length_flatMap, length_toBits, length_unpackBits,
        List.length_replicate, List.map_const', List.sum_replicate, smul_eq_mul] at hlen hlen'
      obtain rfl : pad' = pad := by omega
      exact heq.trans henc.symm
    rw [← flatMap_toBits_inj hvlt hlt hsame]
    exact hvals
  · intro h
    exact ⟨encodeLoop out 0 0, pad, h, hpad, henc⟩

end BitcoinMachineCode.Network
