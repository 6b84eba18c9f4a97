import BitcoinMachineCode.Storage.Ledger
import BitcoinMachineCode.Storage.UndoLog

/-!
# Applying and unapplying blocks

`daemon/utxo_live.c`: the sequential apply that follows a block's verification
(`apply_block_inner`, phase 5), the rollbacks that reverse one that failed or
was never checkpointed, and the disconnect.  Every undo append, coin delete and
coin put of the walk can fail; a failed operation may have taken effect, and a
failed append may have left part of its record.
-/

namespace BitcoinMachineCode.Storage

open BitcoinMachineCode.Foundation

/-- The worker's state: the coin set, the log of its puts and deletes, the undo
store, and the flag that a lookup contradicted the verification. -/
structure Live where
  coins : CoinSet
  log : List (Outpoint × Option Coin)
  undo : UndoStore
  inconsistent : Bool

/-- `utxo_lsm_put` of an outpoint that is not there. -/
def Live.put (st : Live) (o : Outpoint) (c : Coin) : Live :=
  { st with coins := st.coins.put o c, log := st.log ++ [(o, some c)] }

/-- `utxo_lsm_del` -/
def Live.del (st : Live) (o : Outpoint) : Live :=
  { st with coins := st.coins.del o, log := st.log ++ [(o, none)] }

/-- One failing operation of the walk. -/
inductive OpFault where
  /-- the undo record's write landed `n` bytes only -/
  | append (n : Nat)
  /-- `utxo_lsm_del` answered -1, after taking effect or before -/
  | del (took : Bool)
  /-- `utxo_lsm_put` failed, after taking effect or before -/
  | put (took : Bool)
  deriving DecidableEq

/-- The fault at each position of the block's walk. -/
abbrev Faults := Nat → Option OpFault

inductive BeginOutcome where
  | ok
  | noSlot
  /-- the slot was registered and the `rev` file could not be opened -/
  | slotOnly
  deriving DecidableEq

/-- What the disk does during one call of `apply_block_at`. -/
structure ApplyEnv where
  ops : Faults
  begin_ : BeginOutcome
  commit : Written
  /-- the durable prefix before a ghost rollback -/
  prefixOk : Bool
  /-- the drain before the ghost's slot is cleared -/
  ghostHookOk : Bool
  /-- the drain before a failed apply's slot is cleared -/
  rollbackHookOk : Bool

/-- A disk that does everything it is asked. -/
def ApplyEnv.healthy : ApplyEnv := ⟨fun _ => none, .ok, .whole, true, true, true⟩

/-! ## The walk's callbacks -/

/-- `live_on_input`: capture, then delete.  The flag is `ctx->fatal`. -/
def liveOnInput (h : Nat) (fault : Option OpFault) (st : Live) (o : Outpoint) :
    Live × Bool :=
  if o = nullOutpoint then (st, false)
  else
    match st.coins o with
    | none => ({ st with inconsistent := true }, true)
    | some c =>
        match fault with
        | some (.append n) =>
            ({ st with undo := (st.undo.undoAppendRecord h ⟨o, c⟩ (.short n)).1 },
              true)
        | some (.del took) =>
            let st' :=
              { st with undo := (st.undo.undoAppendRecord h ⟨o, c⟩ .whole).1 }
            (if took then st'.del o else st', true)
        | _ =>
            let st' :=
              { st with undo := (st.undo.undoAppendRecord h ⟨o, c⟩ .whole).1 }
            (st'.del o, false)

/-- `live_on_output`: a coinbase overwrites, any other duplicate is declined. -/
def liveOnOutput (h : Nat) (fault : Option OpFault) (st : Live) (o : Outpoint)
    (out : TxOut) (isCoinbase : Bool) : Live × Bool :=
  match outputCoin h isCoinbase out with
  | none => (st, false)
  | some c =>
      match fault with
      | some (.put took) => (if took then st.put o c else st, true)
      | _ =>
          if (st.coins o).isSome then
            if isCoinbase then ((st.del o).put o c, false) else (st, false)
          else (st.put o c, false)

def liveOnEvent (h : Nat) (fault : Option OpFault) (st : Live) :
    WalkEvent → Live × Bool
  | .input o => liveOnInput h fault st o
  | .output o out isCoinbase => liveOnOutput h fault st o out isCoinbase

/-- A transaction's walk goes on after a failure: the flag is only read
between transactions. -/
def runEvents (h : Nat) (faults : Faults) :
    Nat → List WalkEvent → Live → Live × Bool
  | _, [], st => (st, false)
  | pos, e :: es, st =>
      let r := liveOnEvent h (faults pos) st e
      let q := runEvents h faults (pos + 1) es r.1
      (q.1, r.2 || q.2)

/-! ## Reversal -/

/-- `undo_restore_cb`: only what is gone, unless lookups are not trusted. -/
def undoRestoreCb (st : Live) (r : UndoRec) : Live :=
  if !st.inconsistent && (st.coins r.o).isSome then st else st.put r.o r.coin

def restoreRun (st : Live) (recs : List UndoRec) : Live :=
  recs.foldl undoRestoreCb st

/-- `del_created_on_output`: only what is there, unless lookups are not
trusted. -/
def delCreatedOutpoint (st : Live) (o : Outpoint) : Live :=
  if st.inconsistent || (st.coins o).isSome then st.del o else st

/-- `del_created_on_output` over a walk. -/
def delCreated (st : Live) (evs : List WalkEvent) : Live :=
  (created evs).foldl delCreatedOutpoint st

def Live.undoDiscard (st : Live) (h : Nat) (hookOk : Bool) : Live :=
  { st with undo := st.undo.undoDiscard h hookOk }

def Live.undoCloseCurrent (st : Live) : Live :=
  { st with undo := st.undo.undoCloseCurrent }

/-- `rollback_partial_apply`: the strict replay, the created outputs of the
transactions up to the failing one, the discard. -/
def rollbackPartialApply (h : Nat) (txs : List Tx) (hookOk : Bool)
    (st : Live) : Live :=
  let st :=
    match st.undo.undoReplay h with
    | none => st
    | some recs => restoreRun st recs
  (delCreated st (walkBlockTxs txs)).undoDiscard h hookOk

/-- `rollback_unapplied_block`: the same with the tolerant replay. -/
def rollbackUnappliedBlock (h : Nat) (blk : Block) (prefixOk hookOk : Bool)
    (st : Live) : Live × Bool :=
  if !prefixOk then (st, false)
  else
    let st := restoreRun st (st.undo.undoReplayTolerant h)
    ((delCreated st (walkBlockTxs blk.txs)).undoDiscard h hookOk, true)

/-- `utxo_live_unapply_block` -/
def utxoLiveUnapplyBlock (h : Nat) (blk : Block) (hookOk : Bool) (st : Live) :
    Live × Bool :=
  match st.undo.undoReplay h with
  | none => (st, false)
  | some recs =>
      let st := restoreRun st recs
      ((delCreated st (walkBlockTxs blk.txs)).undoDiscard h hookOk, true)

/-! ## Applying -/

/-- The transactions from number `t` on, the first event at position `pos`. -/
def applyTxs (h : Nat) (env : ApplyEnv) (txs : List Tx) :
    Nat → Nat → List Tx → Live → Live × Bool
  | _, _, [], st => (st, true)
  | t, pos, tx :: rest, st =>
      let evs := walkTxIo (t == 0) tx
      let r := runEvents h env.ops pos evs st
      if r.2 then
        (rollbackPartialApply h (txs.take (t + 1)) env.rollbackHookOk r.1, false)
      else applyTxs h env txs (t + 1) (pos + evs.length) rest r.1

/-- `apply_block_inner` from phase 5 on; a genesis block is not applied. -/
def applyBlockInner (h : Nat) (env : ApplyEnv) (blk : Block) (st : Live) :
    Live × Bool :=
  if blk.isGenesis then (st, true)
  else
    match env.begin_ with
    | .noSlot => (st, false)
    | .slotOnly =>
        ({ st with undo := (st.undo.undoBegin h).undoCloseCurrent }, false)
    | .ok =>
        applyTxs h env blk.txs 0 0 blk.txs
          { st with undo := st.undo.undoBegin h }

/-- `apply_block_at_inner`: a slot that is there is a ghost. -/
def applyBlockAtInner (h : Nat) (env : ApplyEnv) (blk : Block) (st : Live) :
    Live × Bool :=
  if st.undo.undoExists h then
    let r := rollbackUnappliedBlock h blk env.prefixOk env.ghostHookOk st
    if r.2 then applyBlockInner h env blk r.1 else (r.1, false)
  else applyBlockInner h env blk st

def applyBlockAt (h : Nat) (env : ApplyEnv) (blk : Block) (st : Live) :
    Live × Bool :=
  let r := applyBlockAtInner h env blk st
  if r.2 then
    let c := r.1.undo.undoCommit h env.commit
    (Live.undoCloseCurrent { r.1 with undo := c.1 }, c.2)
  else (r.1.undoCloseCurrent, false)

/-- The state `apply_block_inner` gets from the ghost guard. -/
def guarded (h : Nat) (env : ApplyEnv) (blk : Block) (st : Live) : Live :=
  if st.undo.undoExists h then
    (rollbackUnappliedBlock h blk env.prefixOk env.ghostHookOk st).1
  else st

/-! ## Fields -/

@[simp] theorem Live.put_coins (st : Live) (o : Outpoint) (c : Coin) :
    (st.put o c).coins = st.coins.put o c := rfl

@[simp] theorem Live.put_undo (st : Live) (o : Outpoint) (c : Coin) :
    (st.put o c).undo = st.undo := rfl

@[simp] theorem Live.put_inconsistent (st : Live) (o : Outpoint) (c : Coin) :
    (st.put o c).inconsistent = st.inconsistent := rfl

@[simp] theorem Live.del_coins (st : Live) (o : Outpoint) :
    (st.del o).coins = st.coins.del o := rfl

@[simp] theorem Live.del_undo (st : Live) (o : Outpoint) :
    (st.del o).undo = st.undo := rfl

@[simp] theorem Live.del_inconsistent (st : Live) (o : Outpoint) :
    (st.del o).inconsistent = st.inconsistent := rfl

@[simp] theorem Live.undoDiscard_coins (st : Live) (h : Nat) (hookOk : Bool) :
    (st.undoDiscard h hookOk).coins = st.coins := rfl

@[simp] theorem Live.undoDiscard_undo (st : Live) (h : Nat) (hookOk : Bool) :
    (st.undoDiscard h hookOk).undo = st.undo.undoDiscard h hookOk := rfl

@[simp] theorem Live.undoCloseCurrent_coins (st : Live) :
    st.undoCloseCurrent.coins = st.coins := rfl

@[simp] theorem Live.undoCloseCurrent_undo (st : Live) :
    st.undoCloseCurrent.undo = st.undo.undoCloseCurrent := rfl

@[simp] theorem Live.undoCloseCurrent_inconsistent (st : Live) :
    st.undoCloseCurrent.inconsistent = st.inconsistent := rfl

/-! ## Reversal on the coin set -/

theorem undoRestoreCb_frame (st : Live) (r : UndoRec) :
    (undoRestoreCb st r).undo = st.undo ∧
      (undoRestoreCb st r).inconsistent = st.inconsistent := by
  rw [undoRestoreCb]
  split <;> simp

theorem restoreRun_frame (st : Live) (recs : List UndoRec) :
    (restoreRun st recs).undo = st.undo ∧
      (restoreRun st recs).inconsistent = st.inconsistent := by
  induction recs generalizing st with
  | nil => exact ⟨rfl, rfl⟩
  | cons r recs ih =>
      obtain ⟨hu, hi⟩ := ih (undoRestoreCb st r)
      obtain ⟨hu', hi'⟩ := undoRestoreCb_frame st r
      exact ⟨hu.trans hu', hi.trans hi'⟩

theorem delCreatedOutpoint_frame (st : Live) (o : Outpoint) :
    (delCreatedOutpoint st o).undo = st.undo ∧
      (delCreatedOutpoint st o).inconsistent = st.inconsistent := by
  rw [delCreatedOutpoint]
  split <;> simp

theorem delCreated_frame (st : Live) (evs : List WalkEvent) :
    (delCreated st evs).undo = st.undo ∧
      (delCreated st evs).inconsistent = st.inconsistent := by
  simp only [delCreated]
  induction created evs generalizing st with
  | nil => exact ⟨rfl, rfl⟩
  | cons o os ih =>
      obtain ⟨hu, hi⟩ := ih (delCreatedOutpoint st o)
      obtain ⟨hu', hi'⟩ := delCreatedOutpoint_frame st o
      exact ⟨hu.trans hu', hi.trans hi'⟩

theorem restoreRun_coins {st : Live} (hcons : st.inconsistent = false)
    (recs : List UndoRec) :
    (restoreRun st recs).coins =
      st.coins.restoreAll (recs.map UndoRec.entry) := by
  induction recs generalizing st with
  | nil => rfl
  | cons r recs ih =>
      have hstep : (undoRestoreCb st r).coins = st.coins.restore r.entry := by
        simp only [undoRestoreCb, hcons, Bool.not_false, Bool.true_and,
          PMap.restore, UndoRec.entry]
        by_cases hpresent : (st.coins r.o).isSome = true <;> simp [hpresent]
      have hcons' : (undoRestoreCb st r).inconsistent = false :=
        (undoRestoreCb_frame st r).2.trans hcons
      change (restoreRun (undoRestoreCb st r) recs).coins = _
      rw [ih hcons', hstep]
      rfl

theorem delCreated_coins (st : Live) (evs : List WalkEvent) :
    (delCreated st evs).coins = st.coins.delAll (created evs) := by
  simp only [delCreated]
  induction created evs generalizing st with
  | nil => rfl
  | cons o os ih =>
      have hstep : (delCreatedOutpoint st o).coins = st.coins.del o := by
        rw [delCreatedOutpoint]
        split
        · rfl
        · rename_i habs
          have hnone : st.coins o = none := by
            simp only [Bool.or_eq_true, not_or, Bool.not_eq_true,
              Option.isSome_eq_false_iff, Option.isNone_iff_eq_none] at habs
            exact habs.2
          exact (PMap.del_of_none hnone).symm
      rw [List.foldl_cons, ih, hstep]
      rfl

end BitcoinMachineCode.Storage
