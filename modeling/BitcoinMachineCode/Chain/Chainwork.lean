import BitcoinMachineCode.Chain.HdrTree
import BitcoinMachineCode.Consensus.PowSchedule

/-!
# Chainwork

The work of a header and its running total, from `bitcoin_chainwork.asm`, and
the file of totals that `reorg_chainwork_sync` keeps beside the archive.  The
work of one header is computed exactly in 256 bits and its low 128 bits kept;
the total saturates.
-/

namespace BitcoinMachineCode.Chain

open BitcoinMachineCode.Foundation

/-! ## Work -/

/-- `compact_to_target_le` -/
def compactToTarget (bits : UInt32) : Nat :=
  let exponent := (bits >>> 24).toNat
  let mantissa := (bits &&& 0x00ffffff).toNat
  if exponent < 3 then 0
  else if 29 < exponent - 3 then 0
  else mantissa * 256 ^ (exponent - 3)

/-- Core's `GetBlockProof` for that target, as a number. -/
def blockProof (bits : UInt32) : Nat :=
  let target := compactToTarget bits
  if target = 0 then 0 else 2 ^ 256 / (target + 1)

/-- `block_work`: `floor(~target / (target + 1)) + 1`, its low 128 bits. -/
def blockWork (bits : UInt32) : BitVec 128 :=
  let target := compactToTarget bits
  if target = 0 then 0
  else if target + 1 = 2 ^ 256 then 1
  else BitVec.ofNat 128 ((2 ^ 256 - 1 - target) / (target + 1) + 1)

/-- `chainwork_add`: a carry out of the high limb pins the sum. -/
def chainworkAdd (a b : BitVec 128) : BitVec 128 :=
  if a.toNat + b.toNat < 2 ^ 128 then a + b else BitVec.allOnes 128

theorem compactToTarget_lt (bits : UInt32) : compactToTarget bits < 2 ^ 256 := by
  have hmant : (bits &&& 0x00ffffff).toNat < 256 ^ 3 := by
    rw [UInt32.toNat_and]
    exact Nat.lt_of_le_of_lt Nat.and_le_right (by decide)
  simp only [compactToTarget]
  split
  · decide
  · split
    · decide
    · calc (bits &&& 0x00ffffff).toNat * 256 ^ ((bits >>> 24).toNat - 3)
          < 256 ^ 3 * 256 ^ ((bits >>> 24).toNat - 3) :=
            Nat.mul_lt_mul_of_pos_right hmant (by positivity)
        _ ≤ 256 ^ 3 * 256 ^ 29 :=
            Nat.mul_le_mul_left _ (Nat.pow_le_pow_right (by decide) (by omega))
        _ = 2 ^ 256 := by decide

/-- The identity Core uses to stay within 256 bits. -/
theorem blockWork_toNat (bits : UInt32) :
    (blockWork bits).toNat = blockProof bits % 2 ^ 128 := by
  have hlt := compactToTarget_lt bits
  simp only [blockWork, blockProof]
  by_cases hzero : compactToTarget bits = 0
  · simp [hzero]
  · rw [if_neg hzero, if_neg hzero]
    have hdiv : (2 ^ 256 - 1 - compactToTarget bits) /
        (compactToTarget bits + 1) + 1 = 2 ^ 256 / (compactToTarget bits + 1) := by
      rw [← Nat.add_div_right _ (Nat.succ_pos _)]
      congr 1
      omega
    split
    · rename_i hall
      rw [hall, Nat.div_self (by positivity)]
      decide
    · rw [hdiv, BitVec.toNat_ofNat]

theorem blockWork_le (bits : UInt32) : (blockWork bits).toNat ≤ blockProof bits := by
  rw [blockWork_toNat]
  exact Nat.mod_le _ _

theorem chainworkAdd_toNat (a b : BitVec 128) :
    (chainworkAdd a b).toNat = min (a.toNat + b.toNat) (2 ^ 128 - 1) := by
  rw [chainworkAdd]
  split
  · rw [BitVec.toNat_add, Nat.mod_eq_of_lt ‹_›]
    omega
  · rw [BitVec.toNat_allOnes]
    omega

/-- A branch's total on top of a base: exact, or pinned. -/
theorem foldl_chainworkAdd_toNat (works : List (BitVec 128)) (base : BitVec 128) :
    (works.foldl chainworkAdd base).toNat =
      min (base.toNat + (works.map BitVec.toNat).sum) (2 ^ 128 - 1) := by
  induction works generalizing base with
  | nil =>
      have := base.isLt
      simp only [List.foldl_nil, List.map_nil, List.sum_nil]
      omega
  | cons w works ih =>
      rw [List.foldl_cons, ih, chainworkAdd_toNat, List.map_cons, List.sum_cons]
      omega

/-! ## The archive and its totals -/

/-- What `store_get_at` and the read behind it give for a height: its block is
in a `blk` file, was pruned, or cannot be read. -/
inductive BlockData where
  | stored
  | pruned
  | unreadable
  deriving DecidableEq

/-- The hash of `index.dat`'s record, and the block's header. -/
structure StoredBlock where
  hash : Bytes 32
  hdr : Bytes 80
  data : BlockData
  deriving DecidableEq

/-- The blocks by height, the records of `chainwork.dat`, and whether this
process has opened it. -/
structure Archive where
  blocks : List StoredBlock
  chainwork : List (BitVec 128)
  cwOpen : Bool

namespace Archive

def ourHashAt (a : Archive) (h : Nat) : Option (Bytes 32) :=
  a.blocks[h]?.map StoredBlock.hash

/-- Nothing can be said of the work of a pruned block, and zero is recorded for
it; a block that cannot be read has no work at all. -/
def recordedWork (b : StoredBlock) : Option (BitVec 128) :=
  match b.data with
  | .stored => some (blockWork (hdrBits b.hdr))
  | .pruned => some 0
  | .unreadable => none

/-- The sync's loop, which stops at a block that cannot be read; `false` when a
record cannot be written. -/
def chainworkFill (appendOk : Nat → Bool) :
    List StoredBlock → List (BitVec 128) → List (BitVec 128) × Bool
  | [], recs => (recs, true)
  | b :: bs, recs =>
      match recordedWork b with
      | none => (recs, true)
      | some w =>
          if appendOk recs.length then
            chainworkFill appendOk bs
              (recs ++ [chainworkAdd (recs.getLast?.getD 0) w])
          else (recs, false)

/-- `reorg_chainwork_sync` with no limit, once `chainwork.dat` is open. -/
def reorgChainworkSync (appendOk : Nat → Bool) (a : Archive) : Archive × Bool :=
  let filled := chainworkFill appendOk (a.blocks.drop a.chainwork.length)
    a.chainwork
  ({ a with chainwork := filled.1 }, filled.2)

/-- `store_chainwork_get_tip`: the last record. -/
def chainworkTip (a : Archive) : BitVec 128 := a.chainwork.getLast?.getD 0

/-! ## What the sync leaves -/

/-- The sync appends one record for each block up to the first it cannot read,
each the one before it plus the work recorded for the block. -/
theorem chainworkFill_spec {appendOk : Nat → Bool} {bs : List StoredBlock}
    {recs recs' : List (BitVec 128)}
    (h : chainworkFill appendOk bs recs = (recs', true)) :
    ∃ k ≤ bs.length, recs'.length = recs.length + k ∧
      (∀ j < recs.length, recs'[j]? = recs[j]?) ∧
      (∀ j < k, ∃ b w, bs[j]? = some b ∧ recordedWork b = some w ∧
        recs'[recs.length + j]? =
          some (chainworkAdd ((recs'.take (recs.length + j)).getLast?.getD 0)
            w)) ∧
      ∀ b, bs[k]? = some b → b.data = .unreadable := by
  induction bs generalizing recs with
  | nil =>
      simp only [chainworkFill, Prod.mk.injEq, and_true] at h
      subst h
      exact ⟨0, le_rfl, rfl, fun _ _ => rfl, fun j hj => absurd hj (by omega),
        fun b hb => by simp at hb⟩
  | cons b bs ih =>
      rw [chainworkFill] at h
      cases hw : recordedWork b with
      | none =>
          simp only [hw, Prod.mk.injEq, and_true] at h
          subst h
          refine ⟨0, Nat.zero_le _, rfl, fun _ _ => rfl,
            fun j hj => absurd hj (by omega), fun b' hb' => ?_⟩
          rw [List.getElem?_cons_zero, Option.some.injEq] at hb'
          subst hb'
          rw [recordedWork] at hw
          split at hw
          · cases hw
          · cases hw
          · assumption
      | some w =>
          simp only [hw] at h
          split at h
          · obtain ⟨k, hk, hlen, hold, hnew, hstop⟩ := ih h
            rw [List.length_append, List.length_singleton] at hlen hold hnew
            have htake : recs'.take recs.length = recs := by
              apply List.ext_getElem?
              intro j
              by_cases hj : j < recs.length
              · rw [List.getElem?_take_of_lt hj, hold j (by omega),
                  List.getElem?_append_left hj]
              · rw [List.getElem?_eq_none (by rw [List.length_take]; omega),
                  List.getElem?_eq_none (by omega)]
            refine ⟨k + 1, by simpa using hk, by omega, ?_, ?_, ?_⟩
            · intro j hj
              rw [hold j (by omega), List.getElem?_append_left hj]
            · intro j hj
              cases j with
              | zero =>
                  refine ⟨b, w, rfl, hw, ?_⟩
                  rw [Nat.add_zero, htake, hold _ (by omega),
                    List.getElem?_append_right le_rfl]
                  simp
              | succ j =>
                  obtain ⟨b', w', hb', hw', hrec⟩ := hnew j (by omega)
                  refine ⟨b', w', hb', hw', ?_⟩
                  rw [show recs.length + (j + 1) = recs.length + 1 + j by omega]
                  exact hrec
            · intro b' hb'
              exact hstop b' hb'
          · simp at h

/-- Records that each add their block's work to the one before: the last one is
the total from any of them up. -/
theorem getLast_records {recs : List (BitVec 128)} {works : List (BitVec 128)}
    {k : Nat} {start : BitVec 128} (hstart : recs[k]? = some start)
    (hlen : recs.length = k + 1 + works.length)
    (hstep : ∀ j w, works[j]? = some w →
      recs[k + 1 + j]? =
        some (chainworkAdd ((recs.take (k + 1 + j)).getLast?.getD 0) w)) :
    recs.getLast?.getD 0 = works.foldl chainworkAdd start := by
  induction works generalizing k start with
  | nil =>
      rw [List.length_nil, Nat.add_zero] at hlen
      rw [List.getLast?_eq_getElem?, hlen, Nat.add_sub_cancel, hstart]
      rfl
  | cons w works ih =>
      have hfirst := hstep 0 w rfl
      have hprev : (recs.take (k + 1)).getLast? = some start := by
        rw [List.getLast?_take, if_neg (by omega), Nat.add_sub_cancel, hstart]
        rfl
      rw [Nat.add_zero, hprev, Option.getD_some] at hfirst
      rw [List.foldl_cons]
      refine ih hfirst (by rw [hlen, List.length_cons]; omega) ?_
      intro j w' hw'
      have hnext := hstep (j + 1) w' hw'
      rw [show k + 1 + (j + 1) = k + 1 + 1 + j by omega] at hnext
      exact hnext

end Archive

end BitcoinMachineCode.Chain
