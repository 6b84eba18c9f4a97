import BitcoinMachineCode.Consensus.Compact

/-!
# The difficulty retarget

`pow_retarget_bits` from `asm/bitcoin_pow_rules.c`: the target is unpacked
into bytes, multiplied and divided a byte at a time, capped by a byte
comparison and packed again.  Its byte helpers are shown to compute Core's
compact form of the number they hold, so that the whole function is one
formula over the numbers, and the formula is compared with Core's
`CalculateNextWorkRequired`.
-/

namespace BitcoinMachineCode.Consensus

open BitcoinMachineCode.Foundation

def powTimespan : Nat := 1209600
def powInterval : Nat := 2016
def powSpacing : Nat := 600

/-! ## The byte-level functions -/

/-- `powr_target_bytes`: 32 bytes, most significant first.  The guards on
`pos + 1` and `pos + 2` are those of `List.set`. -/
def powrTargetBytes (bits : UInt32) : List UInt8 :=
  let t := List.replicate 32 (0 : UInt8)
  let size := (bits >>> 24).toNat
  let word := bits &&& 0x007fffff
  if size ≤ 3 then
    let word := word >>> UInt32.ofNat (8 * (3 - size))
    ((t.set 31 word.toUInt8).set 30 (word >>> 8).toUInt8).set 29
      (word >>> 16).toUInt8
  else
    let shift := size - 3
    -- `pos = 32 - 3 - shift` is negative
    if 32 - 3 < shift then t
    else
      let pos := 32 - 3 - shift
      ((t.set pos (word >>> 16).toUInt8).set (pos + 1)
        (word >>> 8).toUInt8).set (pos + 2) word.toUInt8

/-- `while (size > 0 && t[32-size] == 0) size--` -/
def powrSize : List UInt8 → Nat
  | [] => 0
  | b :: bs => if b = 0 then powrSize bs else bs.length + 1

def powrWord (t : List UInt8) (size : Nat) : UInt32 :=
  (List.range 3).foldl (fun word i =>
    let pos := 32 - size + i
    (word <<< 8) |||
      (if pos < 32 ∧ i < size then t.getD pos 0 else 0).toUInt32) 0

def powrCompact (t : List UInt8) : UInt32 :=
  let size := powrSize t
  let word := powrWord t size
  if word &&& 0x00800000 ≠ 0 then
    (UInt32.ofNat (size + 1) <<< 24) ||| ((word >>> 8) &&& 0x007fffff)
  else (UInt32.ofNat size <<< 24) ||| (word &&& 0x007fffff)

def clampTimespan (actualTimespan : Int) : Int :=
  let ts := if actualTimespan < powTimespan / 4 then (powTimespan / 4 : Int)
    else actualTimespan
  if ts > powTimespan * 4 then powTimespan * 4 else ts

def powRetargetBits (baseBits : UInt32) (actualTimespan : Int)
    (powLimitBits : UInt32) : UInt32 :=
  let ts := clampTimespan actualTimespan
  let n := (powrTargetBytes baseBits).reverse ++ List.replicate 8 0
  let n := mulLoop ts.toNat 0 n
  let n := (divLoop powTimespan 0 n.reverse).reverse
  let isOver := (n.drop 32).any (· != 0)
  let out := (n.take 32).reverse
  let lim := powrTargetBytes powLimitBits
  powrCompact (if isOver || beGreater out lim then lim else out)

/-! ## Unpacking -/

@[simp] theorem length_powrTargetBytes (bits : UInt32) :
    (powrTargetBytes bits).length = 32 := by
  simp only [powrTargetBytes]
  split
  · simp
  · split <;> simp

private theorem beVal_set_three (n pos : Nat) (a b c : UInt8)
    (hpos : pos + 2 < n) :
    beVal ((((List.replicate n 0).set pos a).set (pos + 1) b).set (pos + 2) c) =
      (a.toNat * 65536 + b.toNat * 256 + c.toNat) * 256 ^ (n - 3 - pos) := by
  rw [beVal_set _ _ _ (by simp; omega), beVal_set _ _ _ (by simp; omega),
    beVal_set _ _ _ (by simp; omega)]
  · simp only [beVal_replicate_zero, List.length_set, List.length_replicate]
    rw [show n - 1 - pos = n - 3 - pos + 2 by omega,
      show n - 1 - (pos + 1) = n - 3 - pos + 1 by omega,
      show n - 1 - (pos + 2) = n - 3 - pos by omega, pow_add, pow_add]
    ring
  all_goals
    have h0 : pos < n := by omega
    have h1 : pos + 1 < n := by omega
    simp [List.getD_eq_getElem?_getD, h0, h1, hpos]

private theorem toNat_three_bytes (w : UInt32) (hw : w.toNat < 2 ^ 24) :
    (w >>> 16).toUInt8.toNat * 65536 + (w >>> 8).toUInt8.toNat * 256 +
      w.toUInt8.toNat = w.toNat := by
  have h16 : (w >>> 16).toNat = w.toNat / 65536 := by
    rw [UInt32.toNat_shiftRight, Nat.shiftRight_eq_div_pow]
    rfl
  rw [UInt32.toNat_toUInt8, UInt32.toNat_toUInt8, UInt32.toNat_toUInt8, h16,
    toNat_shiftRight_eight]
  omega

/-- The bytes hold Core's target, up to the size the code can place. -/
theorem beVal_powrTargetBytes (bits : UInt32) :
    beVal (powrTargetBytes bits) =
      if nSize bits ≤ 32 then setCompact bits else 0 := by
  have hmask : (bits &&& 0x007fffff).toNat < 2 ^ 23 := by
    rw [toNat_and_mask]
    exact Nat.mod_lt _ (by norm_num)
  simp only [powrTargetBytes]
  rw [← nSize]
  by_cases hle : nSize bits ≤ 3
  · have hamount : (UInt32.ofNat (8 * (3 - nSize bits))).toNat % 32 =
        8 * (3 - nSize bits) := by
      rw [UInt32.toNat_ofNat', Nat.mod_eq_of_lt (by omega : _ < 2 ^ 32)]
      omega
    have hword : ((bits &&& 0x007fffff) >>>
        UInt32.ofNat (8 * (3 - nSize bits))).toNat = setCompact bits := by
      rw [UInt32.toNat_shiftRight, hamount, setCompact, nWord, if_pos hle,
        if_pos hle]
    have hsmall : setCompact bits ≤ (bits &&& 0x007fffff).toNat := by
      rw [← hword, UInt32.toNat_shiftRight]
      exact Nat.shiftRight_le _ _
    rw [if_pos hle, if_pos (by omega),
      List.set_comm _ _ (show 31 ≠ 30 by decide),
      List.set_comm _ _ (show 31 ≠ 29 by decide),
      List.set_comm _ _ (show 30 ≠ 29 by decide),
      beVal_set_three 32 29 _ _ _ (by norm_num),
      toNat_three_bytes _ (by omega), hword]
    simp
  · rw [if_neg hle]
    by_cases hfit : nSize bits ≤ 32
    · rw [if_neg (by omega), if_pos hfit,
        beVal_set_three 32 _ _ _ _ (by omega),
        toNat_three_bytes _ (by omega), setCompact_eq bits hfit,
        unscale_of_ge _ (by omega), toNat_and_mask]
      congr 2
      omega
    · rw [if_pos (by omega), if_neg hfit, beVal_replicate_zero]

/-! ## Packing -/

private theorem toNat_word_step (w : UInt32) (b : UInt8)
    (hw : w.toNat < 2 ^ 24) :
    ((w <<< 8) ||| b.toUInt32).toNat = w.toNat * 256 + b.toNat := by
  have hb := b.toNat_lt
  have hshift : (w.toNat <<< 8) % 2 ^ 32 = w.toNat <<< 8 :=
    Nat.mod_eq_of_lt (by rw [Nat.shiftLeft_eq]; omega)
  rw [UInt32.toNat_or, UInt32.toNat_shiftLeft, UInt8.toNat_toUInt32,
    show (8 : UInt32).toNat % 32 = 8 by decide, hshift,
    ← Nat.shiftLeft_add_eq_or_of_lt (by simpa using hb), Nat.shiftLeft_eq]

theorem toNat_powrWord (t : List UInt8) (size : Nat) :
    (powrWord t size).toNat =
      (if 32 - size < 32 ∧ 0 < size then t.getD (32 - size) 0
        else 0).toNat * 65536 +
      (if 32 - size + 1 < 32 ∧ 1 < size then t.getD (32 - size + 1) 0
        else 0).toNat * 256 +
      (if 32 - size + 2 < 32 ∧ 2 < size then t.getD (32 - size + 2) 0
        else 0).toNat := by
  simp only [powrWord, List.range_succ, List.range_zero, List.nil_append,
    List.foldl_append, List.foldl_cons, List.foldl_nil, Nat.add_zero]
  generalize (if 32 - size < 32 ∧ 0 < size then t.getD (32 - size) 0
    else 0) = a
  generalize (if 32 - size + 1 < 32 ∧ 1 < size then t.getD (32 - size + 1) 0
    else 0) = b
  generalize (if 32 - size + 2 < 32 ∧ 2 < size then t.getD (32 - size + 2) 0
    else 0) = c
  have ha := a.toNat_lt
  have hb := b.toNat_lt
  have h1 := toNat_word_step 0 a (by decide)
  have h2 := toNat_word_step ((0 : UInt32) <<< 8 ||| a.toUInt32) b (by
    rw [h1]
    simp
    omega)
  have h3 := toNat_word_step
    (((0 : UInt32) <<< 8 ||| a.toUInt32) <<< 8 ||| b.toUInt32) c (by
      rw [h2, h1]
      simp
      omega)
  rw [h3, h2, h1]
  simp
  ring

/-- Dropping the leading zeros leaves the significant bytes. -/
theorem exists_significant (t : List UInt8) :
    ∃ zeros digits, t = zeros ++ digits ∧ (∀ b ∈ zeros, b = 0) ∧
      digits.length = powrSize t ∧ digits.head? ≠ some 0 := by
  induction t with
  | nil => exact ⟨[], [], by simp [powrSize]⟩
  | cons b bs ih =>
      by_cases hb : b = 0
      · obtain ⟨zeros, digits, hsplit, hzeros, hlen, hhead⟩ := ih
        refine ⟨0 :: zeros, digits, by simp [hb, hsplit], ?_, ?_, hhead⟩
        · simpa using hzeros
        · simp [powrSize, hb, hlen]
      · exact ⟨[], b :: bs, by simp [powrSize, hb]⟩

theorem byteLen_append_zeros (zeros digits : List UInt8)
    (hzeros : ∀ b ∈ zeros, b = 0) (hhead : digits.head? ≠ some 0) :
    byteLen (beVal (zeros ++ digits)) = digits.length := by
  have hval : beVal (zeros ++ digits) = beVal digits := by
    rw [beVal_append, (beVal_eq_zero_iff zeros).mpr hzeros]
    simp
  rw [hval]
  apply le_antisymm
  · exact (byteLen_le_iff _ _).mpr (beVal_lt digits)
  · cases digits with
    | nil => simp
    | cons d ds =>
        by_contra hlt
        have hle : byteLen (beVal (d :: ds)) ≤ ds.length := by
          simp only [List.length_cons] at hlt
          omega
        rw [byteLen_le_iff, beVal_cons] at hle
        have hd : 1 ≤ d.toNat := by
          rcases Nat.eq_zero_or_pos d.toNat with h | h
          · have hd0 : d = 0 := UInt8.toNat_inj.mp h
            simp [hd0] at hhead
          · exact h
        have hmul := Nat.mul_le_mul_right (256 ^ ds.length) hd
        omega

theorem topWord_digits (d0 d1 d2 : UInt8) (ds : List UInt8) :
    beVal (d0 :: d1 :: d2 :: ds) * 2 ^ 24 / 256 ^ (ds.length + 3) =
      d0.toNat * 65536 + d1.toNat * 256 + d2.toNat := by
  have hlow := beVal_lt ds
  rw [scale_of_ge _ (by omega), Nat.add_sub_cancel]
  simp only [beVal_cons, List.length_cons]
  rw [show d0.toNat * 256 ^ (ds.length + 1 + 1) +
      (d1.toNat * 256 ^ (ds.length + 1) + (d2.toNat * 256 ^ ds.length + beVal ds)) =
      beVal ds + (d0.toNat * 65536 + d1.toNat * 256 + d2.toNat) * 256 ^ ds.length
      by ring, Nat.add_mul_div_right _ _ (by positivity),
    Nat.div_eq_of_lt hlow, Nat.zero_add]

theorem toNat_powrWord_eq (t : List UInt8) (hlen : t.length = 32) :
    powrSize t = byteLen (beVal t) ∧
      (powrWord t (powrSize t)).toNat = topWord (beVal t) := by
  obtain ⟨zeros, digits, hsplit, hzeros, hsize, hhead⟩ := exists_significant t
  have hval : beVal t = beVal digits := by
    rw [hsplit, beVal_append, (beVal_eq_zero_iff zeros).mpr hzeros]
    simp
  have hbytes : byteLen (beVal t) = digits.length := by
    rw [hsplit]
    exact byteLen_append_zeros zeros digits hzeros hhead
  have hzlen : zeros.length = 32 - digits.length := by
    rw [hsplit, List.length_append] at hlen
    omega
  have hget : ∀ i, t.getD (32 - digits.length + i) 0 = digits.getD i 0 := by
    intro i
    rw [hsplit, ← hzlen, List.getD_append_right _ _ _ _ (by omega)]
    congr 1
    omega
  have hdlen : digits.length ≤ 32 := by
    rw [hsplit, List.length_append] at hlen
    omega
  refine ⟨hsize ▸ hbytes.symm, ?_⟩
  have hget0 : t.getD (32 - digits.length) 0 = digits.getD 0 0 := hget 0
  rw [toNat_powrWord, ← hsize, hget0, hget 1, hget 2, topWord, hbytes, hval]
  rcases digits with _ | ⟨d0, _ | ⟨d1, _ | ⟨d2, ds⟩⟩⟩
  · simp
  · simp
    omega
  · simp
    omega
  · have hc0 : 32 - (d0 :: d1 :: d2 :: ds).length < 32 ∧
        0 < (d0 :: d1 :: d2 :: ds).length := by
      simp only [List.length_cons] at hdlen ⊢
      omega
    have hc1 : 32 - (d0 :: d1 :: d2 :: ds).length + 1 < 32 ∧
        1 < (d0 :: d1 :: d2 :: ds).length := by
      simp only [List.length_cons] at hdlen ⊢
      omega
    have hc2 : 32 - (d0 :: d1 :: d2 :: ds).length + 2 < 32 ∧
        2 < (d0 :: d1 :: d2 :: ds).length := by
      simp only [List.length_cons] at hdlen ⊢
      omega
    rw [if_pos hc0, if_pos hc1, if_pos hc2]
    exact (topWord_digits d0 d1 d2 ds).symm

/-- Packing the bytes is Core's `GetCompact` of the number they hold. -/
theorem powrCompact_eq (t : List UInt8) (hlen : t.length = 32) :
    powrCompact t = getCompact (beVal t) := by
  obtain ⟨hsize, hword⟩ := toNat_powrWord_eq t hlen
  have hval : beVal t < 2 ^ 256 := by
    have := beVal_lt t
    rw [hlen] at this
    norm_num at this ⊢
    exact this
  have hlt := topWord_lt (beVal t)
  have hbytes : byteLen (beVal t) ≤ 32 := by
    rw [byteLen_le_iff]
    norm_num at hval ⊢
    exact hval
  have hsign := sign_bit_ne_zero_iff (powrWord t (powrSize t)) (hword ▸ hlt)
  rw [hword] at hsign
  apply UInt32.toNat_inj.mp
  rw [toNat_getCompact _ hval, powrCompact, sizeOf, mantissaOf]
  by_cases hbig : 2 ^ 23 ≤ topWord (beVal t)
  · have hmask : ((powrWord t (powrSize t) >>> 8) &&& 0x007fffff).toNat =
        topWord (beVal t) / 256 := by
      rw [toNat_and_mask, toNat_shiftRight_eight, hword]
      omega
    rw [if_pos (hsign.mpr hbig), if_pos hbig, if_pos hbig,
      toNat_pack _ _ (by omega) (by omega), hmask, hsize]
  · have hmask : (powrWord t (powrSize t) &&& 0x007fffff).toNat =
        topWord (beVal t) := by
      rw [toNat_and_mask, hword]
      omega
    rw [if_neg (mt hsign.mp hbig), if_neg hbig, if_neg hbig,
      toNat_pack _ _ (by omega) (by omega), hmask, hsize]

/-! ## The retarget as a formula -/

theorem clampTimespan_bounds (ts : Int) :
    302400 ≤ (clampTimespan ts).toNat ∧ (clampTimespan ts).toNat ≤ 4838400 := by
  simp only [clampTimespan, powTimespan]
  split_ifs <;> omega

private theorem any_ne_zero_iff (n : List UInt8) (hlen : n.length = 40) :
    (n.drop 32).any (· != 0) = true ↔ 2 ^ 256 ≤ leVal n := by
  have hsplit : leVal n = leVal (n.take 32) + 256 ^ 32 * leVal (n.drop 32) := by
    conv_lhs => rw [← List.take_append_drop 32 n]
    rw [leVal_append, List.length_take, hlen]
    rfl
  have hlow : leVal (n.take 32) < 256 ^ 32 := by
    have := leVal_lt (n.take 32)
    rwa [List.length_take, hlen] at this
  have hzero : leVal (n.drop 32) = 0 ↔ ∀ b ∈ n.drop 32, b = 0 := by
    rw [← beVal_reverse, beVal_eq_zero_iff]
    simp
  have hany : (n.drop 32).any (· != 0) = true ↔ leVal (n.drop 32) ≠ 0 := by
    rw [ne_eq, hzero]
    simp
  rw [hany, hsplit]
  norm_num at hlow ⊢
  omega

/-- The byte loops compute the quotient exactly, and the cap is a minimum. -/
theorem powRetargetBits_eq (baseBits : UInt32) (ts : Int)
    (powLimitBits : UInt32) :
    powRetargetBits baseBits ts powLimitBits =
      getCompact (min (beVal (powrTargetBytes powLimitBits))
        (beVal (powrTargetBytes baseBits) * (clampTimespan ts).toNat /
          powTimespan)) := by
  obtain ⟨hlow, hhigh⟩ := clampTimespan_bounds ts
  have hbase := beVal_lt (powrTargetBytes baseBits)
  have hlim := beVal_lt (powrTargetBytes powLimitBits)
  rw [length_powrTargetBytes] at hbase hlim
  simp only [powRetargetBits]
  generalize hn0 : (powrTargetBytes baseBits).reverse ++
    List.replicate 8 0 = n0
  generalize hn1 : mulLoop (clampTimespan ts).toNat 0 n0 = n1
  generalize hn2 : (divLoop powTimespan 0 n1.reverse).reverse = n2
  have hlen0 : n0.length = 40 := by simp [← hn0]
  have hlen1 : n1.length = 40 := by rw [← hn1, length_mulLoop, hlen0]
  have hlen2 : n2.length = 40 := by simp [← hn2, hlen1]
  have hval0 : leVal n0 = beVal (powrTargetBytes baseBits) := by
    rw [← hn0, leVal_append, leVal_reverse]
    simp
  have hval1 : leVal n1 =
      beVal (powrTargetBytes baseBits) * (clampTimespan ts).toNat := by
    have hmul : beVal (powrTargetBytes baseBits) * (clampTimespan ts).toNat ≤
        256 ^ 32 * 4838400 := Nat.mul_le_mul hbase.le hhigh
    rw [← hn1, leVal_mulLoop _ _ _ (by omega) (Nat.zero_le _), hval0, hlen0,
      Nat.add_zero]
    exact Nat.mod_eq_of_lt (lt_of_le_of_lt hmul (by norm_num))
  have hval2 : leVal n2 = beVal (powrTargetBytes baseBits) *
      (clampTimespan ts).toNat / powTimespan := by
    rw [← hn2, leVal_reverse, beVal_divLoop _ _ _ (by decide) (by decide),
      beVal_reverse, hval1, Nat.zero_mul, Nat.zero_add]
  rw [← hval2]
  have hout : (n2.take 32).reverse.length = 32 := by simp [hlen2]
  have hany := any_ne_zero_iff n2 hlen2
  have hgt := beGreater_iff (n2.take 32).reverse (powrTargetBytes powLimitBits)
    (by rw [hout, length_powrTargetBytes])
  rw [beVal_reverse] at hgt
  have hsplit : leVal n2 =
      leVal (n2.take 32) + 256 ^ 32 * leVal (n2.drop 32) := by
    conv_lhs => rw [← List.take_append_drop 32 n2]
    rw [leVal_append, List.length_take, hlen2]
    rfl
  by_cases hover : 2 ^ 256 ≤ leVal n2
  · have hmin : beVal (powrTargetBytes powLimitBits) ≤ leVal n2 := by
      norm_num at hlim hover
      omega
    rw [hany.mpr hover, Bool.true_or, if_pos rfl,
      powrCompact_eq _ (length_powrTargetBytes _), Nat.min_eq_left hmin]
  · have hfits : leVal (n2.take 32) = leVal n2 := by
      norm_num at hover hsplit
      omega
    have hnone : (n2.drop 32).any (· != 0) = false := by
      rw [Bool.eq_false_iff]
      exact mt hany.mp hover
    rw [hfits] at hgt
    rw [hnone, Bool.false_or]
    by_cases hcap : beVal (powrTargetBytes powLimitBits) < leVal n2
    · rw [if_pos (hgt.mpr hcap), powrCompact_eq _ (length_powrTargetBytes _),
        Nat.min_eq_left hcap.le]
    · rw [if_neg (mt hgt.mp hcap), powrCompact_eq _ hout, beVal_reverse, hfits,
        Nat.min_eq_right (by omega)]

/-! ## Core's retarget -/

/-- `CalculateNextWorkRequired` over the integers. -/
def calculateNextWorkRequired (baseBits : UInt32) (actualTimespan : Int)
    (powLimit : Nat) : UInt32 :=
  getCompact (min powLimit
    (setCompact baseBits * (clampTimespan actualTimespan).toNat / powTimespan))

/-- The same in `arith_uint256`, whose product wraps at 256 bits. -/
def coreCalcNextWork (baseBits : UInt32) (actualTimespan : Int)
    (powLimit : Nat) : UInt32 :=
  let bnNew := setCompact baseBits *
    ((clampTimespan actualTimespan).toNat % 2 ^ 32) % 2 ^ 256 / powTimespan
  getCompact (if bnNew > powLimit then powLimit else bnNew)

/-- The base targets of a chain: positive, in range, within its limit. -/
structure AcceptedTarget (bits : UInt32) (powLimit : Nat) : Prop where
  nonneg : fNegative bits = false
  inRange : fOverflow bits = false
  pos : 0 < setCompact bits
  le_limit : setCompact bits ≤ powLimit

/-- Under a limit with room for the factor four, the product never wraps. -/
theorem coreCalcNextWork_eq {bits : UInt32} {powLimit : Nat}
    (hbase : setCompact bits ≤ powLimit)
    (hroom : powLimit * (4 * powTimespan) < 2 ^ 256) (ts : Int) :
    coreCalcNextWork bits ts powLimit =
      calculateNextWorkRequired bits ts powLimit := by
  obtain ⟨-, hhigh⟩ := clampTimespan_bounds ts
  have hmul : setCompact bits * (clampTimespan ts).toNat ≤
      powLimit * (4 * powTimespan) := Nat.mul_le_mul hbase hhigh
  simp only [coreCalcNextWork, calculateNextWorkRequired]
  rw [Nat.mod_eq_of_lt (by omega : (clampTimespan ts).toNat < 2 ^ 32),
    Nat.mod_eq_of_lt (by omega)]
  congr 1
  split <;> omega

/-- The limit is passed in compact form; what that form loses never shows. -/
theorem getCompact_min_truncate (limit q : Nat) (hlimit : limit < 2 ^ 256) :
    getCompact (min (truncate limit) q) = getCompact (min limit q) := by
  have htrunc := truncate_le limit
  by_cases hq : q ≤ truncate limit
  · rw [Nat.min_eq_right hq, Nat.min_eq_right (by omega)]
  · rw [Nat.min_eq_left (by omega)]
    have hsame := written_form_of_truncate_le
      (show truncate limit ≤ min limit q by omega) (Nat.min_le_left _ _)
    have hself := written_form_of_truncate_le le_rfl htrunc
    rw [getCompact_eq_iff (by omega) (by omega)]
    omega

theorem beVal_powrTargetBytes_getCompact {limit : Nat}
    (hlimit : limit < 2 ^ 255) :
    beVal (powrTargetBytes (getCompact limit)) = truncate limit := by
  have hsize : sizeOf limit ≤ 32 := by
    rw [sizeOf_le_iff]
    norm_num at hlimit ⊢
    omega
  have hlt : limit < 2 ^ 256 := by
    norm_num at hlimit ⊢
    omega
  rw [beVal_powrTargetBytes, nSize_getCompact hlt, if_pos hsize,
    setCompact_eq _ (by rw [nSize_getCompact hlt]; exact hsize),
    nSize_getCompact hlt, mod_getCompact hlt, truncate]

theorem beVal_powrTargetBytes_getCompact_large {limit : Nat}
    (hlow : 2 ^ 255 ≤ limit) (hlimit : limit < 2 ^ 256) :
    beVal (powrTargetBytes (getCompact limit)) = 0 := by
  have hsize : ¬ sizeOf limit ≤ 32 := by
    rw [sizeOf_le_iff]
    norm_num at hlow ⊢
    omega
  rw [beVal_powrTargetBytes, nSize_getCompact hlimit, if_neg hsize]

theorem powRetargetBits_of_fits {baseBits : UInt32} {powLimit : Nat}
    (hsize : nSize baseBits ≤ 32) (hlimit : powLimit < 2 ^ 255) (ts : Int) :
    powRetargetBits baseBits ts (getCompact powLimit) =
      calculateNextWorkRequired baseBits ts powLimit := by
  have hlt : powLimit < 2 ^ 256 := lt_trans hlimit (by norm_num)
  rw [powRetargetBits_eq, calculateNextWorkRequired,
    beVal_powrTargetBytes baseBits, if_pos hsize,
    beVal_powrTargetBytes_getCompact hlimit, getCompact_min_truncate _ _ hlt]

end BitcoinMachineCode.Consensus
