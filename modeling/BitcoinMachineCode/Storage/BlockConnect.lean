import BitcoinMachineCode.Storage.LsmCount

/-!
# Connecting a block to the layered store

`apply_block_inner` of `daemon/utxo_live.c` with the passes that decide what a
block may be worth: the in-block output index and the duplicate-outpoint check,
the resolution of every input in `tx_verify_block_connect_all`, the value ledger
over both, and the puts and deletes of phase 5 on the store.  Everything else
that can refuse the block is a parameter.
-/

namespace BitcoinMachineCode.Storage

open BitcoinMachineCode.Foundation

def valMaxMoney : UInt64 := 2100000000000000

/-- `val_subsidy`, for a chain's halving interval. -/
def valSubsidy (halvingInterval h : Nat) : UInt64 :=
  if halvingInterval = 0 then 5000000000
  else if 64 ≤ h / halvingInterval then 0
  else UInt64.ofNat (5000000000 >>> (h / halvingInterval))

/-! ## The in-block index -/

structure BidxOut where
  o : Outpoint
  value : UInt64
  script : List UInt8
  creatingTx : Nat
  isCoinbase : Bool

/-- `bidx_get`: the first output put in under the key, unless the caller does
not come after its transaction. -/
def bidxGet (bx : List BidxOut) (callerTx : Nat) (o : Outpoint) : Option BidxOut :=
  match bx.find? fun e => e.o = o with
  | none => none
  | some e => if callerTx ≤ e.creatingTx then none else some e

structure IdxbuildCtx where
  bx : List BidxOut
  bs : List Outpoint
  dupFound : Bool
  txOutSum : UInt64
  moneyBad : Bool
  /-- this transaction's entry of `ptx_out` -/
  ptxOut : UInt64

def idxbuildOnInput (c : IdxbuildCtx) (o : Outpoint) : IdxbuildCtx :=
  if o = nullOutpoint then c
  else if o ∈ c.bs then { c with dupFound := true }
  else { c with bs := c.bs ++ [o] }

def idxbuildOnOutput (t : Nat) (c : IdxbuildCtx) (o : Outpoint) (out : TxOut) :
    IdxbuildCtx :=
  let c : IdxbuildCtx := { c with
    bx := c.bx ++ [⟨o, out.value, out.script, t, t == 0⟩]
    ptxOut := c.ptxOut + out.value }
  if valMaxMoney < out.value then { c with moneyBad := true }
  else
    { c with
      txOutSum := c.txOutSum + out.value
      moneyBad := c.moneyBad || decide (valMaxMoney < c.txOutSum + out.value) }

def idxbuildOnEvent (t : Nat) (c : IdxbuildCtx) : WalkEvent → IdxbuildCtx
  | .input o => idxbuildOnInput c o
  | .output o out _ => idxbuildOnOutput t c o out

structure BlockIndex where
  bx : List BidxOut
  bs : List Outpoint
  ptxOut : List UInt64
  dup : Bool
  moneyBad : Bool

/-- The loop of phase 0.5 from transaction `t` on: it ends at a duplicate. -/
def buildIndex : Nat → List Tx → BlockIndex → BlockIndex
  | _, [], b => b
  | t, tx :: rest, b =>
      if b.dup then b
      else
        let c := (walkTxIo (t == 0) tx).foldl (idxbuildOnEvent t)
          ⟨b.bx, b.bs, false, 0, false, 0⟩
        buildIndex (t + 1) rest
          ⟨c.bx, c.bs, b.ptxOut ++ [c.ptxOut], c.dupFound, b.moneyBad || c.moneyBad⟩

def indexBlock (txs : List Tx) : BlockIndex := buildIndex 0 txs ⟨[], [], [], false, false⟩

/-! ## Resolving the inputs -/

structure Prevout where
  value : UInt64
  height : Nat
  isCoinbase : Bool
  script : List UInt8

/-- The in-block index first, the confirmed set after it. -/
def resolvePrevout (s : Lsm) (h : Nat) (bx : List BidxOut) (t : Nat) (o : Outpoint) :
    Option Prevout :=
  match bidxGet bx t o with
  | some e => some ⟨e.value, h, e.isCoinbase, e.script⟩
  | none =>
      match utxoLsmGet s o with
      | .found c => some ⟨c.value, c.height.toNat, c.isCoinbase, c.script⟩
      | _ => none

/-- What decides of a block beside the passes modelled here: the reasons it is
refused for before the index is built, for an input's shape, by the scripts, and
by the time locks and the sigop budget after the ledger. -/
structure ConnectEnv where
  halvingInterval : Nat
  bip30Enforced : Bool
  early : Block → Option String
  classify : Nat → Outpoint → Prevout → Option String
  scripts : Block → Option String
  late : Block → Option String

def coinbaseMaturity : Int := 100

/-- `txvb_classify`: the maturity rule, then the shape. -/
def txvbClassify (env : ConnectEnv) (h t : Nat) (o : Outpoint) (p : Prevout) :
    Option String :=
  if p.isCoinbase ∧ (h : Int) - p.height < coinbaseMaturity then
    some "immature coinbase spend (100-block rule)"
  else env.classify t o p

/-- One transaction's inputs: their sum in a 64-bit counter. -/
def connectInputs (env : ConnectEnv) (s : Lsm) (h : Nat) (bx : List BidxOut) (t : Nat) :
    List Outpoint → UInt64 → Except String UInt64
  | [], sum => .ok sum
  | o :: os, sum =>
      match resolvePrevout s h bx t o with
      | none => .error "input references a missing/already-spent UTXO"
      | some p =>
          match txvbClassify env h t o p with
          | some reason => .error reason
          | none => connectInputs env s h bx t os (sum + p.value)

/-- The input sums of the transactions from number `t` on. -/
def connectTxs (env : ConnectEnv) (s : Lsm) (h : Nat) (bx : List BidxOut) :
    Nat → List Tx → Except String (List UInt64)
  | _, [] => .ok []
  | t, tx :: rest =>
      match connectInputs env s h bx t tx.inputs 0 with
      | .error reason => .error reason
      | .ok sum =>
          match connectTxs env s h bx (t + 1) rest with
          | .error reason => .error reason
          | .ok sums => .ok (sum :: sums)

/-! ## The value ledger -/

/-- Phase 4.5 over the transactions after the coinbase: the fees. -/
def valueLedger : List UInt64 → List UInt64 → UInt64 → Except String UInt64
  | inT :: ins, outT :: outs, fees =>
      if valMaxMoney < inT then .error "bad-txns-inputvalues-outofrange"
      else if inT < outT then .error "bad-txns-in-belowout"
      else if valMaxMoney < fees + (inT - outT) then .error "bad-txns-fee-outofrange"
      else valueLedger ins outs (fees + (inT - outT))
  | _, _, fees => .ok fees

/-! ## Verification -/

/-- Phase 0.15's rules on the inputs and outputs of every transaction. -/
def checkShapes : List Tx → Option String
  | [] => none
  | cb :: rest =>
      if cb.inputs ≠ [nullOutpoint] then some "bad-cb-missing"
      else if cb.outputs = [] then some "bad-txns-vout-empty"
      else
        rest.findSome? fun tx =>
          if tx.inputs = [] then some "block-decode-failed"
          else if tx.outputs = [] then some "bad-txns-vout-empty"
          else if nullOutpoint ∈ tx.inputs then some "bad-txns-prevout-null"
          else none

def bip30Found (s : Lsm) (txs : List Tx) : Bool :=
  txs.any fun tx => tx.outputs.zipIdx.any fun p =>
    match utxoLsmGet s ⟨tx.txid, UInt32.ofNat p.2⟩ with
    | .found _ => true
    | _ => false

/-- `apply_block_inner` up to its first put or delete: the reason of a refusal. -/
def verifyBlock (env : ConnectEnv) (s : Lsm) (h : Nat) (blk : Block) : Except String Unit :=
  match env.early blk with
  | some reason => .error reason
  | none =>
  match checkShapes blk.txs with
  | some reason => .error reason
  | none =>
  if env.bip30Enforced && bip30Found s blk.txs then .error "bad-txns-BIP30"
  else
  let b := indexBlock blk.txs
  if b.dup then .error "bad-txns-inputs-duplicate"
  else if b.moneyBad then .error "bad-txns-vout-toolarge"
  else
  match connectTxs env s h b.bx 1 blk.txs.tail with
  | .error reason => .error reason
  | .ok ins =>
  match env.scripts blk with
  | some reason => .error reason
  | none =>
  match valueLedger ins b.ptxOut.tail 0 with
  | .error reason => .error reason
  | .ok fees =>
  if valSubsidy env.halvingInterval h + fees < b.ptxOut.headD 0 then .error "bad-cb-amount"
  else
  match env.late blk with
  | some reason => .error reason
  | none => .ok ()

/-! ## Phase 5 on the store -/

/-- The flushes, merges and adoptions that a put or a delete sets off or that end
between two of them. -/
def StoreOp.isUpkeep : StoreOp → Bool
  | .put _ _ => false
  | .del _ => false
  | .reload _ => false
  | _ => true

def Upkeep : Lsm → Lsm → Prop :=
  Relation.ReflTransGen fun s s' => ∃ op : StoreOp, op.isUpkeep = true ∧ op.run s = some s'

/-- `live_on_input` and `live_on_output` where nothing fails.  A coin the memtable
does not hold is put, whatever the runs hold; a duplicate of the memtable's is
overwritten by a coinbase and declined from any other transaction. -/
inductive OnEvent (h : Nat) : Lsm → WalkEvent → Lsm → Prop where
  | coinbaseInput {s : Lsm} : OnEvent h s (.input nullOutpoint) s
  | spend {s s' : Lsm} {o : Outpoint} (hnull : o ≠ nullOutpoint)
      (hdel : utxoLsmDel s o = some s') : OnEvent h s (.input o) s'
  | unspendable {s : Lsm} {o : Outpoint} {out : TxOut} {isCoinbase : Bool}
      (hcoin : outputCoin h isCoinbase out = none) :
      OnEvent h s (.output o out isCoinbase) s
  | create {s s' : Lsm} {o : Outpoint} {out : TxOut} {isCoinbase : Bool} {c : Coin}
      (hcoin : outputCoin h isCoinbase out = some c) (hput : utxoLsmPut s o c = .new s') :
      OnEvent h s (.output o out isCoinbase) s'
  | declined {s : Lsm} {o : Outpoint} {out : TxOut} {c : Coin}
      (hcoin : outputCoin h false out = some c) (hput : utxoLsmPut s o c = .dup) :
      OnEvent h s (.output o out false) s
  | overwrite {s s₁ s₂ s' : Lsm} {o : Outpoint} {out : TxOut} {c : Coin}
      (hcoin : outputCoin h true out = some c) (hdup : utxoLsmPut s o c = .dup)
      (hdel : utxoLsmDel s o = some s₁) (hup : Upkeep s₁ s₂)
      (hput : utxoLsmPut s₂ o c = .new s') : OnEvent h s (.output o out true) s'

/-- A walk whose every call succeeds. -/
inductive StoreApplied (h : Nat) : List WalkEvent → Lsm → Lsm → Prop where
  | done {s : Lsm} : StoreApplied h [] s s
  | upkeep {s s₁ s' : Lsm} {evs : List WalkEvent} (hup : Upkeep s s₁)
      (hrest : StoreApplied h evs s₁ s') : StoreApplied h evs s s'
  | event {s s₁ s' : Lsm} {e : WalkEvent} {evs : List WalkEvent} (he : OnEvent h s e s₁)
      (hrest : StoreApplied h evs s₁ s') : StoreApplied h (e :: evs) s s'

/-- `apply_block_at` accepts a block, on the set its ghost guard leaves it. -/
inductive BlockApplied (env : ConnectEnv) (h : Nat) (blk : Block) : Lsm → Lsm → Prop where
  | empty {s : Lsm} (hempty : blk.txs = []) : BlockApplied env h blk s s
  /-- the genesis block is its coinbase, and none of it enters the set -/
  | genesis {s : Lsm} (hgenesis : blk.isGenesis = true) (honly : blk.txs.tail = []) :
      BlockApplied env h blk s s
  | applied {s s' : Lsm} (hne : blk.txs ≠ []) (hgenesis : blk.isGenesis = false)
      (hverify : verifyBlock env s h blk = .ok ())
      (hwalk : StoreApplied h (walkBlockTxs blk.txs) s s') : BlockApplied env h blk s s'

end BitcoinMachineCode.Storage
