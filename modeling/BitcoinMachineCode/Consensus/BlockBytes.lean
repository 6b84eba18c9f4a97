import BitcoinMachineCode.Consensus.TxBytes
import BitcoinMachineCode.Foundation.MerkleTree

/-!
# Blocks as bytes

`cons_verify` of `bitcoin_cons.asm`, the witness commitment of
`daemon/block_witness.c`, and `apply_block_at` of `daemon/utxo_live.c` with the
class it files a failure under.  The block is what a peer sent: nothing but the
header's merkle root ties its transactions to the hash.
-/

namespace BitcoinMachineCode.Consensus

open BitcoinMachineCode.Foundation

section Hashing

variable (sha256d : List UInt8 → Bytes 32)

def merkleNode (a b : Bytes 32) : Bytes 32 := sha256d (a.1 ++ b.1)

def zero32 : Bytes 32 := ⟨List.replicate 32 0, by simp⟩

/-- `merkle_root`: the root, and whether some level has equal siblings. -/
def merkleRoot (hashes : List (Bytes 32)) : Bytes 32 × Bool :=
  ((treeTop (merkleNode sha256d) hashes.length hashes).headD zero32,
    treeMutated (merkleNode sha256d) hashes.length hashes)

/-- `tx_txid`, which rebuilds the serialization in a buffer. -/
def txTxid (buflen : Nat) (tx : WireTx) : Option (Bytes 32) :=
  if buflen < tx.stripped.length then none else some (sha256d tx.stripped)

/-! ## Storing: `cons_verify` -/

/-- The walk of `cons_verify` from transaction `n` on, to the last byte. -/
def consWalk (cap : Nat) : Nat → Nat → List UInt8 → Option (List (Bytes 32))
  | 0, _, bs => if bs = [] then some [] else none
  | fuel + 1, n, bs =>
      if bs = [] then some []
      else
        match txParse bs with
        | none => none
        | some (tx, rest) =>
            if n = 0 ∧ tx.ins.length ≠ 1 then none
            else if cap ≤ n then none
            else
              match txTxid sha256d 0x100000 tx with
              | none => none
              | some txid => (consWalk cap fuel (n + 1) rest).map (txid :: ·)

def consVerify (powCheck : List UInt8 → Bool) (cap : Nat) (block : List UInt8) : Bool :=
  if block.length < 82 then false
  else if !powCheck (block.take 80) then false
  else
    match readVarint true false (block.drop 80) with
    | none => false
    | some (count, rest) =>
        if count = 0 then false
        else
          match consWalk sha256d cap rest.length 0 rest with
          | none => false
          | some txids =>
              decide (txids.length = count) &&
                decide ((merkleRoot sha256d txids).1.1 = (block.drop 36).take 32) &&
                !(merkleRoot sha256d txids).2

/-! ## The witness commitment -/

inductive WitnessCheck where
  | ok
  | mutated (reason : String)
  | undecoded
  | scratchTooSmall

/-- No transaction may carry a witness. -/
def noWitness : List (List UInt8) → WitnessCheck
  | [] => .ok
  | tx :: rest =>
      match bwWalkTx tx with
      | none => .undecoded
      | some w => if w.hasWitness then .mutated "unexpected-witness" else noWitness rest

def witnessRoot (rest : List (List UInt8)) : Bytes 32 :=
  (merkleRoot sha256d (zero32 :: rest.map sha256d)).1

def blockCheckWitnessCommitment (segwitActive : Bool) (scratchCap : Nat)
    (txs : List (List UInt8)) : WitnessCheck :=
  match txs with
  | [] => .ok
  | cb :: rest =>
      match bwWalkTx cb with
      | none => .undecoded
      | some w =>
          match if segwitActive then w.commit else none with
          | none => noWitness (cb :: rest)
          | some commit =>
              match w.in0Stack with
              | [nonce] =>
                  if nonce.length ≠ 32 then .mutated "bad-witness-nonce-size"
                  else if scratchCap < txs.length * 32 then .scratchTooSmall
                  else if rest.any fun tx => (bwWalkTx tx).isNone then .undecoded
                  else if (sha256d ((witnessRoot sha256d rest).1 ++ nonce)).1 ≠ commit then
                    .mutated "bad-witness-merkle-match"
                  else .ok
              | _ => .mutated "bad-witness-nonce-size"

end Hashing

/-! ## Applying: `apply_block_at` -/

/-- What the chain state contributes: the header's own rules, the flags of a
height, and every phase after the weight rule, whose empty reason is a failure of
the store.  `guardRefuses` is a ghost guard that cannot roll back what an earlier
process left at the height. -/
structure ChainView where
  height : Nat
  isGenesis : List UInt8 → Bool
  bitsOk : List UInt8 → Bool
  bip34Height : Nat
  segwitActive : List UInt8 → Bool
  late : List UInt8 → List (List UInt8) → Except String Unit
  guardRefuses : List UInt8 → Bool
  /-- `g_last_reject` and `g_last_mutated` as the last call left them -/
  lastReject : String
  lastMutated : Bool

def valDecodeFailed : String := "block-decode-failed"

def maxBlockWeight : Nat := 4000000

def scratchBytes : Nat := 4194304

/-- The little-endian bytes of a height, none of them a leading zero. -/
def heightBytes : Nat → Nat → List UInt8
  | 0, _ => []
  | fuel + 1, n => if n = 0 then [] else UInt8.ofNat (n % 256) :: heightBytes fuel (n / 256)

/-- `val_build_height_push` -/
def valBuildHeightPush (h : Nat) : List UInt8 :=
  if 1 ≤ h ∧ h ≤ 16 then [UInt8.ofNat (0x50 + h)]
  else
    let bytes := heightBytes 8 h
    let padded := if 0x80 ≤ bytes.getLastD 0 then bytes ++ [0] else bytes
    UInt8.ofNat padded.length :: padded

/-- Phase 0.15 over the transactions' shapes. -/
def checkTransactions (v : ChainView) : List ValTxinfo → Option String
  | [] => none
  | cb :: rest =>
      if !cb.coinbaseShape then some "bad-cb-missing"
      else if cb.outCount = 0 then some "bad-txns-vout-empty"
      else
        match rest.findSome? fun i =>
            if i.outCount = 0 then some "bad-txns-vout-empty"
            else if i.nullPrevout then some "bad-txns-prevout-null"
            else none with
        | some reason => some reason
        | none =>
            if cb.in0Script.length < 2 ∨ 100 < cb.in0Script.length then some "bad-cb-length"
            else if v.bip34Height ≤ v.height ∧
                ¬ (valBuildHeightPush v.height).isPrefixOf cb.in0Script then
              some "bad-cb-height"
            else none

/-- The phases from the witness commitment on. -/
def applyCommitted (sha256d : List UInt8 → Bytes 32) (v : ChainView) (header : List UInt8)
    (blocklen stripped : Nat) (txs : List (List UInt8)) : Except (String × Bool) Unit :=
  match blockCheckWitnessCommitment sha256d (v.segwitActive header) scratchBytes txs with
  | .scratchTooSmall => .error ("", false)
  | .undecoded => .error (valDecodeFailed, true)
  | .mutated reason => .error (reason, true)
  | .ok =>
      if maxBlockWeight < 3 * stripped + blocklen then .error ("bad-blk-weight", false)
      else
        match v.late header txs with
        | .error reason => .error (reason, false)
        | .ok () => .ok ()

/-- The phases from the size rules on, over the bytes of the transactions;
`consumed` is the width of their count. -/
def applyParsed (sha256d : List UInt8 → Bytes 32) (v : ChainView) (header : List UInt8)
    (blocklen consumed : Nat) (txs : List (List UInt8)) : Except (String × Bool) Unit :=
  if maxBlockWeight < txs.length * 4 then .error ("bad-blk-length", false)
  else
    match txs.mapM valReadTx with
    | none => .error (valDecodeFailed, true)
    | some infos =>
        let stripped := 80 + consumed + (infos.map ValTxinfo.strippedLen).sum
        if maxBlockWeight < stripped * 4 then .error ("bad-blk-length", false)
        else
          match checkTransactions v infos with
          | some reason => .error (reason, false)
          | none => applyCommitted sha256d v header blocklen stripped txs

/-- `apply_block_inner`: a failure is the reason it leaves and the mutation flag. -/
def applyBlockInner (sha256d : List UInt8 → Bytes 32) (v : ChainView) (block : List UInt8) :
    Except (String × Bool) Unit :=
  if block.length < 81 then .error (valDecodeFailed, true)
  else
    match readVarint true true (block.drop 80) with
    | none => .error (valDecodeFailed, true)
    | some (ntx, rest) =>
        if ntx = 0 then .ok ()
        else if v.isGenesis (block.take 80) then .ok ()
        else if !v.bitsOk (block.take 80) then .error ("bad-diffbits", false)
        else
          match txParse.verbatim.times ntx rest with
          | none => .error (valDecodeFailed, true)
          | some (parsed, _) =>
              applyParsed sha256d v (block.take 80) block.length
                (block.length - 80 - rest.length) (parsed.map Prod.snd)

inductive FailKind where
  | mutated
  | reject
  | store
  deriving DecidableEq

/-- `apply_block_at`: the class of the failure, `none` where the block applies. -/
def applyBlockAt (sha256d : List UInt8 → Bytes 32) (v : ChainView) (block : List UInt8) :
    Option FailKind :=
  let result :=
    -- the guard returns before the reason and the flag are cleared
    if v.guardRefuses block then .error (v.lastReject, v.lastMutated)
    else applyBlockInner sha256d v block
  match result with
  | .ok () => none
  | .error (reason, mutated) =>
      some (if mutated then .mutated else if reason = "" then .store else .reject)

end BitcoinMachineCode.Consensus
