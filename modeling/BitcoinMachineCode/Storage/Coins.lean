import BitcoinMachineCode.Foundation.Digits
import BitcoinMachineCode.Foundation.PartialMap

/-!
# Coins and blocks

The coin set as a map from outpoints to coins, and the blocks that change it,
as `daemon/utxo_walk.h` walks them: every transaction's inputs in order, then
its outputs.  What is stored is decided by `utxo_script_unspendable` alone, and
a coin carries the bound on its script that the filter gives it.
-/

namespace BitcoinMachineCode.Storage

open BitcoinMachineCode.Foundation

/-! ## Coins -/

def maxScriptSize : Nat := 10000

/-- Core's `IsUnspendable`, as `bitcoin_utxo_stats.asm` transcribes it. -/
def utxoScriptUnspendable (script : List UInt8) : Bool :=
  decide (maxScriptSize < script.length) || script.head? == some 0x6a

/-- Thirty-two bytes. -/
structure Txid where
  bytes : List UInt8
  length_eq : bytes.length = 32
  deriving DecidableEq

/-- The first 32 of the bytes given, zeros where there are fewer. -/
def Txid.ofBytes (bytes : List UInt8) : Txid :=
  ⟨(bytes ++ List.replicate 32 0).take 32, by simp⟩

@[simp] theorem Txid.ofBytes_bytes (txid : Txid) :
    Txid.ofBytes txid.bytes = txid := by
  have hlen := txid.length_eq
  have hbytes : (txid.bytes ++ List.replicate 32 0).take 32 = txid.bytes := by
    rw [List.take_append_of_le_length (by omega),
      List.take_of_length_le (by omega)]
  cases txid
  simpa [Txid.ofBytes] using hbytes

structure Outpoint where
  txid : Txid
  index : UInt32
  deriving DecidableEq

/-- The coinbase's input: no outpoint at all. -/
def nullOutpoint : Outpoint := ⟨Txid.ofBytes [], 0xFFFFFFFF⟩

/-- A stored output: its script passed the filter, so its length fits the
undo record. -/
structure Coin where
  value : UInt64
  height : UInt32
  isCoinbase : Bool
  script : List UInt8
  script_le : script.length ≤ maxScriptSize
  deriving DecidableEq

abbrev CoinSet := PMap Outpoint Coin

/-! ## Blocks -/

structure TxOut where
  value : UInt64
  script : List UInt8
  deriving DecidableEq

structure Tx where
  txid : Txid
  inputs : List Outpoint
  outputs : List TxOut

/-- A block's transactions, and whether its hash is the chain's genesis. -/
structure Block where
  isGenesis : Bool
  txs : List Tx

/-- What the walk hands to its two callbacks. -/
inductive WalkEvent where
  | input (o : Outpoint)
  | output (o : Outpoint) (out : TxOut) (isCoinbase : Bool)

/-- `utxo_walk_tx_io`: the inputs in order, then the outputs. -/
def walkTxIo (isCoinbase : Bool) (tx : Tx) : List WalkEvent :=
  tx.inputs.map WalkEvent.input ++
    tx.outputs.zipIdx.map fun p =>
      WalkEvent.output ⟨tx.txid, UInt32.ofNat p.2⟩ p.1 isCoinbase

/-- The transactions from number `t` on; number 0 is the coinbase. -/
def walkFrom : Nat → List Tx → List WalkEvent
  | _, [] => []
  | t, tx :: rest => walkTxIo (t == 0) tx ++ walkFrom (t + 1) rest

/-- `walk_block_txs` over a block's leading transactions. -/
def walkBlockTxs (txs : List Tx) : List WalkEvent := walkFrom 0 txs

/-- The coin an output becomes at a height, unless the filter drops it. -/
def outputCoin (height : Nat) (isCoinbase : Bool) (out : TxOut) : Option Coin :=
  if h : utxoScriptUnspendable out.script = true then none
  else some ⟨out.value, UInt32.ofNat height, isCoinbase, out.script, by
    simp only [utxoScriptUnspendable, Bool.or_eq_true, decide_eq_true_eq,
      not_or] at h
    omega⟩

/-- The outpoints an event makes the apply put. -/
def WalkEvent.created : WalkEvent → Option Outpoint
  | .input _ => none
  | .output o out _ =>
      if utxoScriptUnspendable out.script then none else some o

def created (evs : List WalkEvent) : List Outpoint :=
  evs.filterMap WalkEvent.created

theorem created_append (xs ys : List WalkEvent) :
    created (xs ++ ys) = created xs ++ created ys := List.filterMap_append

theorem walkFrom_append (t : Nat) (xs ys : List Tx) :
    walkFrom t (xs ++ ys) = walkFrom t xs ++ walkFrom (t + xs.length) ys := by
  induction xs generalizing t with
  | nil => rfl
  | cons x xs ih =>
      simp only [List.cons_append, walkFrom, ih, List.append_assoc,
        List.length_cons]
      rw [show t + 1 + xs.length = t + (xs.length + 1) by omega]

end BitcoinMachineCode.Storage
