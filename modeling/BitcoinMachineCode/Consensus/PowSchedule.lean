import BitcoinMachineCode.Consensus.PowRules

/-!
# The difficulty schedule

`pow_expected_bits` from `asm/bitcoin_pow_rules.c`, which decides what the next
header's bits must be, against Core's `GetNextWorkRequired` (the port in
`formal/arith/pow/cbmc/p4s_schedule.c`).  The code answers 0 where a header
cannot be read; Core's side is partial instead, so that the two meanings of
zero stay apart.
-/

namespace BitcoinMachineCode.Consensus

/-! ## The code -/

def rd32le (p : List UInt8) : UInt32 :=
  (p.getD 0 0).toUInt32 ||| ((p.getD 1 0).toUInt32 <<< 8) |||
    ((p.getD 2 0).toUInt32 <<< 16) ||| ((p.getD 3 0).toUInt32 <<< 24)

def hdrTime (hdr : List UInt8) : UInt32 := rd32le (hdr.drop 68)
def hdrBits (hdr : List UInt8) : UInt32 := rd32le (hdr.drop 72)

/-- The chain's switches, as `pow_expected_bits` takes them. -/
structure PowSwitches where
  noRetarget : Bool
  allowMinDiff : Bool
  enforceBip94 : Bool
  deriving DecidableEq, Repr

/-- `while (h > 0 && (h % POW_INTERVAL) != 0 && bits == pow_limit_bits)` -/
def powWalkBack (get : Nat → Option (List UInt8)) (powLimitBits : UInt32) :
    Nat → UInt32 → UInt32
  | 0, bits => bits
  | h + 1, bits =>
      if (h + 1) % powInterval ≠ 0 ∧ bits = powLimitBits then
        match get h with
        | none => 0
        | some hdr => powWalkBack get powLimitBits h (hdrBits hdr)
      else bits

def powExpectedBits (height blocktime : Int)
    (get : Nat → Option (List UInt8)) (sw : PowSwitches)
    (powLimitBits : UInt32) : UInt32 :=
  if height ≤ 0 then 0
  else
    let tip := (height - 1).toNat
    match get tip with
    | none => 0
    | some hdr =>
        let lastBits := hdrBits hdr
        if sw.noRetarget then lastBits
        else if height % powInterval ≠ 0 then
          if sw.allowMinDiff then
            if blocktime > (hdrTime hdr).toNat + 2 * powSpacing then
              powLimitBits
            else powWalkBack get powLimitBits tip lastBits
          else lastBits
        else
          match get (tip - (powInterval - 1)) with
          | none => 0
          | some first =>
              let baseBits :=
                if sw.enforceBip94 then hdrBits first else lastBits
              powRetargetBits baseBits
                ((hdrTime hdr).toNat - (hdrTime first).toNat) powLimitBits

/-! ## Core -/

structure BlockIndex where
  nTime : UInt32
  nBits : UInt32
  deriving DecidableEq, Repr

def blockIndex (hdr : List UInt8) : BlockIndex := ⟨hdrTime hdr, hdrBits hdr⟩

@[simp] theorem blockIndex_nTime (hdr : List UInt8) :
    (blockIndex hdr).nTime = hdrTime hdr := rfl

@[simp] theorem blockIndex_nBits (hdr : List UInt8) :
    (blockIndex hdr).nBits = hdrBits hdr := rfl

/-- `while (pindex->pprev && pindex->nHeight % interval != 0 &&
pindex->nBits == nProofOfWorkLimit) pindex = pindex->pprev;` -/
def lastNonMinDifficulty (chain : Nat → Option BlockIndex)
    (powLimitBits : UInt32) : Nat → BlockIndex → Option BlockIndex
  | 0, pindex => some pindex
  | h + 1, pindex =>
      if (h + 1) % powInterval ≠ 0 ∧ pindex.nBits = powLimitBits then do
        let pprev ← chain h
        lastNonMinDifficulty chain powLimitBits h pprev
      else some pindex

theorem lastNonMinDifficulty_succ (chain : Nat → Option BlockIndex) (powLimitBits : UInt32)
    (h : Nat) (pindex : BlockIndex) :
    lastNonMinDifficulty chain powLimitBits (h + 1) pindex =
      if (h + 1) % powInterval ≠ 0 ∧ pindex.nBits = powLimitBits then
        chain h >>= lastNonMinDifficulty chain powLimitBits h
      else some pindex := rfl

/-- `GetNextWorkRequired` for the block after `tip`; it is undefined where it
would read a block index that the chain does not have. -/
def getNextWorkRequired (chain : Nat → Option BlockIndex) (tip : Nat)
    (blocktime : Int) (sw : PowSwitches) (powLimit : Nat) : Option UInt32 := do
  let last ← chain tip
  if (tip + 1) % powInterval ≠ 0 then
    if sw.allowMinDiff then
      if blocktime > last.nTime.toNat + 2 * powSpacing then
        some (getCompact powLimit)
      else
        let pindex ← lastNonMinDifficulty chain (getCompact powLimit) tip last
        some pindex.nBits
    else some last.nBits
  else if sw.noRetarget then some last.nBits
  else
    let first ← chain (tip - (powInterval - 1))
    some (coreCalcNextWork (if sw.enforceBip94 then first.nBits else last.nBits)
      (last.nTime.toNat - first.nTime.toNat) powLimit)

/-! ## Agreement -/

/-- The code gives Core's value, and 0 exactly where Core has none. -/
def Agrees (bits : UInt32) (core : Option UInt32) : Prop :=
  (∀ b, core = some b → bits = b) ∧ (bits = 0 ↔ core = none)

theorem agrees_none_iff (bits : UInt32) : Agrees bits none ↔ bits = 0 := by
  simp [Agrees]

theorem agrees_some_iff (bits b : UInt32) :
    Agrees bits (some b) ↔ bits = b ∧ b ≠ 0 := by
  constructor
  · rintro ⟨hval, hzero⟩
    have hbits := hval b rfl
    exact ⟨hbits, fun h => by simp [hbits, h] at hzero⟩
  · rintro ⟨rfl, hne⟩
    simp [Agrees, hne]

/-- What every caller promises: the limit fits the compact form, a chain that
retargets has a limit with room for the factor four, and every header the
reader returns passed its proof-of-work check. -/
structure HeaderChain (get : Nat → Option (List UInt8)) (sw : PowSwitches)
    (powLimit : Nat) : Prop where
  limit_lt : powLimit < 2 ^ 256
  room : sw.noRetarget = false → powLimit * (4 * powTimespan) < 2 ^ 256
  accepted : ∀ h hdr, get h = some hdr → AcceptedTarget (hdrBits hdr) powLimit

variable {get : Nat → Option (List UInt8)} {sw : PowSwitches} {powLimit : Nat}

theorem HeaderChain.bits_ne_zero (hchain : HeaderChain get sw powLimit)
    {h : Nat} {hdr : List UInt8} (hget : get h = some hdr) :
    hdrBits hdr ≠ 0 := by
  intro hzero
  have hpos := (hchain.accepted h hdr hget).pos
  rw [hzero] at hpos
  exact absurd hpos (by decide)

theorem HeaderChain.limit_bits_ne_zero (hchain : HeaderChain get sw powLimit)
    {h : Nat} {hdr : List UInt8} (hget : get h = some hdr) :
    getCompact powLimit ≠ 0 := by
  have hacc := hchain.accepted h hdr hget
  rw [ne_eq, getCompact_eq_zero_iff hchain.limit_lt]
  have hpos := hacc.pos
  have hle := hacc.le_limit
  omega

/-- Where the chain retargets, the code's bytes and Core's 256-bit words give
the same bits. -/
theorem HeaderChain.retarget_eq (hchain : HeaderChain get sw powLimit)
    (hret : sw.noRetarget = false) {h : Nat} {hdr : List UInt8}
    (hget : get h = some hdr) (ts : Int) :
    powRetargetBits (hdrBits hdr) ts (getCompact powLimit) =
      coreCalcNextWork (hdrBits hdr) ts powLimit := by
  have hacc := hchain.accepted h hdr hget
  have hroom := hchain.room hret
  have hle := hacc.le_limit
  have hlimit : powLimit < 2 ^ 255 := by
    simp only [powTimespan] at hroom
    omega
  have hsize : nSize (hdrBits hdr) ≤ 32 := by
    by_contra hgt
    have hhuge := le_setCompact_of_size_gt _ (by omega) hacc.inRange hacc.pos
    simp only [powTimespan] at hroom
    norm_num at hhuge hroom
    omega
  rw [powRetargetBits_of_fits hsize hlimit, coreCalcNextWork_eq hle hroom]

theorem coreCalcNextWork_ne_zero_iff {bits : UInt32}
    (hbase : AcceptedTarget bits powLimit) (hlimit : powLimit < 2 ^ 256)
    (hroom : powLimit * (4 * powTimespan) < 2 ^ 256) (ts : Int) :
    coreCalcNextWork bits ts powLimit ≠ 0 ↔
      powTimespan ≤ setCompact bits * (clampTimespan ts).toNat := by
  have hpos := hbase.pos
  have hle := hbase.le_limit
  have hquot : setCompact bits * (clampTimespan ts).toNat / powTimespan = 0 ↔
      setCompact bits * (clampTimespan ts).toNat < powTimespan :=
    Nat.div_eq_zero_iff_lt (by decide)
  rw [coreCalcNextWork_eq hle hroom, calculateNextWorkRequired, ne_eq,
    getCompact_eq_zero_iff (by omega)]
  omega

/-! ## The walk back -/

theorem powWalkBack_eq (get : Nat → Option (List UInt8)) (limit : UInt32)
    (h : Nat) (hdr : List UInt8) :
    powWalkBack get limit h (hdrBits hdr) =
      match lastNonMinDifficulty (fun k => (get k).map blockIndex) limit h
        (blockIndex hdr) with
      | none => 0
      | some pindex => pindex.nBits := by
  induction h generalizing hdr with
  | zero => rfl
  | succ h ih =>
      simp only [powWalkBack, lastNonMinDifficulty_succ]
      by_cases hgo : (h + 1) % powInterval ≠ 0 ∧ hdrBits hdr = limit
      · have hgo' : (h + 1) % powInterval ≠ 0 ∧
            (blockIndex hdr).nBits = limit := hgo
        rw [if_pos hgo, if_pos hgo']
        cases hget : get h with
        | none => simp
        | some prev => simpa using ih prev
      · have hgo' : ¬ ((h + 1) % powInterval ≠ 0 ∧
            (blockIndex hdr).nBits = limit) := hgo
        rw [if_neg hgo, if_neg hgo']
        rfl

theorem lastNonMinDifficulty_mem {limit : UInt32} {h : Nat}
    {hdr : List UInt8} {pindex : BlockIndex} (hget : get h = some hdr)
    (hwalk : lastNonMinDifficulty (fun k => (get k).map blockIndex) limit h
      (blockIndex hdr) = some pindex) :
    ∃ k hdr', get k = some hdr' ∧ pindex = blockIndex hdr' := by
  induction h generalizing hdr with
  | zero =>
      simp only [lastNonMinDifficulty, Option.some.injEq] at hwalk
      exact ⟨0, hdr, hget, hwalk.symm⟩
  | succ h ih =>
      rw [lastNonMinDifficulty_succ] at hwalk
      split at hwalk
      · cases hprev : get h with
        | none => simp [hprev] at hwalk
        | some prev =>
            simp only [hprev, Option.map_some, Option.bind_eq_bind,
              Option.bind_some] at hwalk
            exact ih hprev hwalk
      · exact ⟨h + 1, hdr, hget, by simpa using hwalk.symm⟩

/-- Every header from the start of `tip`'s period up to `tip` is readable and
has minimum difficulty. -/
def MinDifficultySince (get : Nat → Option (List UInt8)) (limit : UInt32)
    (tip : Nat) : Prop :=
  ∀ k, tip / powInterval * powInterval ≤ k → k ≤ tip →
    ∃ hdr, get k = some hdr ∧ hdrBits hdr = limit

theorem minDifficultySince_succ_iff (limit : UInt32) (h : Nat)
    (hoff : (h + 1) % powInterval ≠ 0) :
    MinDifficultySince get limit (h + 1) ↔
      (∃ hdr, get (h + 1) = some hdr ∧ hdrBits hdr = limit) ∧
        MinDifficultySince get limit h := by
  have hstart : (h + 1) / powInterval = h / powInterval := by
    simp only [powInterval] at hoff ⊢
    omega
  have hle : h / powInterval * powInterval ≤ h := Nat.div_mul_le_self _ _
  constructor
  · intro hall
    refine ⟨hall (h + 1) (by rw [hstart]; omega) le_rfl, ?_⟩
    intro k hlow hhigh
    exact hall k (by rw [hstart]; exact hlow) (by omega)
  · rintro ⟨htop, hall⟩ k hlow hhigh
    rw [hstart] at hlow
    rcases Nat.lt_or_ge k (h + 1) with hlt | hge
    · exact hall k hlow (by omega)
    · have hk : k = h + 1 := by omega
      rw [hk]
      exact htop

/-- The walk ends at minimum difficulty when the whole period has it. -/
theorem lastNonMinDifficulty_limit_iff (limit : UInt32) {h : Nat}
    {hdr : List UInt8} (hget : get h = some hdr) :
    (∃ pindex, lastNonMinDifficulty (fun k => (get k).map blockIndex) limit h
      (blockIndex hdr) = some pindex ∧ pindex.nBits = limit) ↔
      MinDifficultySince get limit h := by
  induction h generalizing hdr with
  | zero =>
      simp only [lastNonMinDifficulty, MinDifficultySince, Nat.zero_div,
        Nat.zero_mul, Option.some.injEq, exists_eq_left']
      constructor
      · intro hbits k _ hk
        have hk0 : k = 0 := by omega
        exact ⟨hdr, by rw [hk0, hget], hbits⟩
      · intro hall
        obtain ⟨hdr', hget', hbits⟩ := hall 0 le_rfl le_rfl
        rw [hget] at hget'
        cases hget'
        exact hbits
  | succ h ih =>
      by_cases hoff : (h + 1) % powInterval ≠ 0
      · rw [minDifficultySince_succ_iff limit h hoff]
        simp only [lastNonMinDifficulty_succ]
        by_cases hbits : hdrBits hdr = limit
        · have hgo : (h + 1) % powInterval ≠ 0 ∧
              (blockIndex hdr).nBits = limit := ⟨hoff, hbits⟩
          rw [if_pos hgo]
          cases hprev : get h with
          | none =>
              simp only [Option.map_none, Option.bind_eq_bind,
                Option.bind_none, false_and, reduceCtorEq, exists_false,
                false_iff]
              rintro ⟨-, hall⟩
              obtain ⟨hdr', hget', -⟩ :=
                hall h (Nat.div_mul_le_self _ _) le_rfl
              rw [hprev] at hget'
              cases hget'
          | some prev =>
              simp only [Option.map_some, Option.bind_eq_bind,
                Option.bind_some, ih hprev, hget, Option.some.injEq,
                exists_eq_left', hbits, true_and]
        · have hgo : ¬ ((h + 1) % powInterval ≠ 0 ∧
              (blockIndex hdr).nBits = limit) := fun hc => hbits hc.2
          rw [if_neg hgo]
          simp only [Option.some.injEq, exists_eq_left', hget]
          constructor
          · intro hc
            exact absurd hc hbits
          · rintro ⟨hc, -⟩
            exact absurd hc hbits
      · have hstart : (h + 1) / powInterval * powInterval = h + 1 := by
          simp only [powInterval] at hoff ⊢
          omega
        have hgo : ¬ ((h + 1) % powInterval ≠ 0 ∧
            (blockIndex hdr).nBits = limit) := fun hc => hoff hc.1
        simp only [lastNonMinDifficulty_succ]
        rw [if_neg hgo]
        simp only [Option.some.injEq, exists_eq_left', MinDifficultySince,
          hstart]
        constructor
        · intro hbits k hlow hhigh
          have hk : k = h + 1 := by omega
          exact ⟨hdr, by rw [hk, hget], hbits⟩
        · intro hall
          obtain ⟨hdr', hget', hbits⟩ := hall (h + 1) le_rfl le_rfl
          rw [hget] at hget'
          cases hget'
          exact hbits

theorem lastNonMinDifficulty_of_ne {limit : UInt32} {hdr : List UInt8}
    (hbits : hdrBits hdr ≠ limit) (chain : Nat → Option BlockIndex) (h : Nat) :
    lastNonMinDifficulty chain limit h (blockIndex hdr) =
      some (blockIndex hdr) := by
  cases h with
  | zero => rfl
  | succ h =>
      rw [lastNonMinDifficulty_succ, if_neg]
      exact fun hc => hbits hc.2

/-- The walk back agrees with Core's at every height. -/
theorem agrees_walk (hchain : HeaderChain get sw powLimit) {tip : Nat}
    {hdr : List UInt8} (hget : get tip = some hdr) :
    Agrees (powWalkBack get (getCompact powLimit) tip (hdrBits hdr))
      ((lastNonMinDifficulty (fun k => (get k).map blockIndex)
        (getCompact powLimit) tip (blockIndex hdr)).map BlockIndex.nBits) := by
  rw [powWalkBack_eq]
  cases hwalk : lastNonMinDifficulty (fun k => (get k).map blockIndex)
      (getCompact powLimit) tip (blockIndex hdr) with
  | none => simp [agrees_none_iff]
  | some pindex =>
      obtain ⟨k, hdr', hget', rfl⟩ := lastNonMinDifficulty_mem hget hwalk
      simp only [Option.map_some, agrees_some_iff, true_and]
      exact hchain.bits_ne_zero hget'

/-- Without a retarget the code keeps the parent's bits; Core still walks. -/
theorem agrees_parent_walk_iff (hchain : HeaderChain get sw powLimit)
    {tip : Nat} {hdr : List UInt8} (hget : get tip = some hdr) :
    Agrees (hdrBits hdr)
        ((lastNonMinDifficulty (fun k => (get k).map blockIndex)
          (getCompact powLimit) tip (blockIndex hdr)).map BlockIndex.nBits) ↔
      (hdrBits hdr = getCompact powLimit →
        MinDifficultySince get (getCompact powLimit) tip) := by
  have hne := hchain.bits_ne_zero hget
  by_cases hbits : hdrBits hdr = getCompact powLimit
  · rw [← lastNonMinDifficulty_limit_iff _ hget]
    cases lastNonMinDifficulty (fun k => (get k).map blockIndex)
        (getCompact powLimit) tip (blockIndex hdr) with
    | none => simpa [agrees_none_iff, hne] using hbits
    | some pindex =>
        simp only [Option.map_some, agrees_some_iff, Option.some.injEq,
          exists_eq_left', hbits, forall_const]
        constructor
        · rintro ⟨heq, -⟩
          exact heq.symm
        · intro heq
          exact ⟨heq.symm, by rw [heq, ← hbits]; exact hne⟩
  · rw [lastNonMinDifficulty_of_ne hbits]
    simp only [Option.map_some, agrees_some_iff, hbits, false_imp_iff,
      iff_true]
    exact ⟨rfl, hne⟩

/-! ## The schedule -/

/-- When the code's schedule is Core's.  Without retargeting, a chain that
allows minimum difficulty needs it to change nothing: a late block's parent has
it already, and a parent that has it has it back to the period's start.  With
retargeting, the new target must not be zero, which reads as unreadable. -/
def ScheduleHolds (get : Nat → Option (List UInt8)) (sw : PowSwitches)
    (powLimit tip : Nat) (blocktime : Int) : Prop :=
  ∀ hdr, get tip = some hdr →
    (sw.noRetarget = true → sw.allowMinDiff = true →
      (tip + 1) % powInterval ≠ 0 →
      if blocktime > (hdrTime hdr).toNat + 2 * powSpacing then
        hdrBits hdr = getCompact powLimit
      else hdrBits hdr = getCompact powLimit →
        MinDifficultySince get (getCompact powLimit) tip) ∧
    (sw.noRetarget = false → (tip + 1) % powInterval = 0 →
      ∀ first, get (tip - (powInterval - 1)) = some first →
      powTimespan ≤
        setCompact (if sw.enforceBip94 then hdrBits first else hdrBits hdr) *
          (clampTimespan
            ((hdrTime hdr).toNat - (hdrTime first).toNat)).toNat)

theorem agrees_retarget_iff (hchain : HeaderChain get sw powLimit)
    (hret : sw.noRetarget = false) {k : Nat} {hdr : List UInt8}
    (hget : get k = some hdr) (ts : Int) :
    Agrees (powRetargetBits (hdrBits hdr) ts (getCompact powLimit))
        (some (coreCalcNextWork (hdrBits hdr) ts powLimit)) ↔
      powTimespan ≤ setCompact (hdrBits hdr) * (clampTimespan ts).toNat := by
  rw [agrees_some_iff, hchain.retarget_eq hret hget,
    coreCalcNextWork_ne_zero_iff (hchain.accepted k hdr hget) hchain.limit_lt
      (hchain.room hret)]
  simp

/-- A header with the given time and bits, both under 256 but for the bits'
four bytes. -/
def headerOf (time : UInt8) (b0 b1 b2 b3 : UInt8) : List UInt8 :=
  List.replicate 68 0 ++ [time, 0, 0, 0, b0, b1, b2, b3, 0, 0, 0, 0]

end BitcoinMachineCode.Consensus
