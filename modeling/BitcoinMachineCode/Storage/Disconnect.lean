import BitcoinMachineCode.Storage.LiveApply

/-!
# Apply and disconnect

An apply that reports success has done to the coin set what the ledger says,
and its undo run holds the coins it spent, in order.  A disconnect that reads
that run is then the ledger's reversal.
-/

namespace BitcoinMachineCode.Storage

open BitcoinMachineCode.Foundation

variable {h : Nat} {st : Live} {bytes : List UInt8}

/-! ## A walk without a failure -/

/-- Where the walk is: its coin set and the bytes of its undo run. -/
structure At (h : Nat) (st : Live) (s : CoinSet) (bytes : List UInt8) :
    Prop where
  coins : st.coins = s
  run : st.undo.Writing h bytes

theorem liveOnEvent_clean {fault : Option OpFault} {e : WalkEvent}
    (hrun : st.undo.Writing h bytes)
    (hok : (liveOnEvent h fault st e).2 = false) :
    At h (liveOnEvent h fault st e).1 (applyEvent h st.coins e)
        (bytes ++ encodeAll UndoRec.encode (eventRecs st.coins e)) ∧
      (liveOnEvent h fault st e).1.inconsistent = st.inconsistent := by
  cases e with
  | input o =>
      simp only [liveOnEvent, liveOnInput] at hok ⊢
      by_cases hnull : o = nullOutpoint
      · simp only [hnull, if_true, applyEvent, eventRecs, encodeAll_nil,
          List.append_nil, and_true]
        exact ⟨rfl, hrun⟩
      · cases hc : st.coins o with
        | none => simp [hnull, hc] at hok
        | some c =>
            have happend := hrun.undoAppendRecord_whole ⟨o, c⟩
            rcases fault with _ | _ | _ | _ <;>
              simp [hnull, hc, applyEvent, eventRecs] at hok ⊢
            · exact ⟨rfl, happend⟩
            · exact ⟨rfl, happend⟩
  | output o out isCoinbase =>
      simp only [liveOnEvent, liveOnOutput] at hok ⊢
      cases hcoin : outputCoin h isCoinbase out with
      | none =>
          simp only [applyEvent, hcoin, eventRecs, encodeAll_nil,
            List.append_nil, and_true]
          exact ⟨rfl, hrun⟩
      | some c =>
          cases hpresent : (st.coins o).isSome <;> cases isCoinbase <;>
            rcases fault with _ | _ | _ | _ <;>
            simp [hcoin, hpresent, applyEvent, eventRecs] at hok ⊢ <;>
            exact ⟨by simp [PMap.del_put], hrun⟩

theorem runEvents_clean {faults : Faults} {pos : Nat} {es : List WalkEvent}
    (hrun : st.undo.Writing h bytes)
    (hok : (runEvents h faults pos es st).2 = false) :
    At h (runEvents h faults pos es st).1 (applyEvents h st.coins es)
        (bytes ++ encodeAll UndoRec.encode (spentRecs h st.coins es)) ∧
      (runEvents h faults pos es st).1.inconsistent = st.inconsistent := by
  induction es generalizing st pos bytes with
  | nil =>
      simp only [runEvents, applyEvents, spentRecs, encodeAll_nil,
        List.append_nil, and_true]
      exact ⟨rfl, hrun⟩
  | cons e es ih =>
      simp only [runEvents, Bool.or_eq_false_iff] at hok ⊢
      obtain ⟨⟨hcoins, hstep⟩, hcons⟩ := liveOnEvent_clean hrun hok.1
      have hrest := ih hstep hok.2
      rw [hcoins, hcons] at hrest
      simpa only [applyEvents, spentRecs, encodeAll_append,
        List.append_assoc] using hrest

theorem applyTxs_clean {env : ApplyEnv} {txs rest : List Tx} {t pos : Nat}
    (hrun : st.undo.Writing h bytes)
    (hok : (applyTxs h env txs t pos rest st).2 = true) :
    At h (applyTxs h env txs t pos rest st).1
        (applyEvents h st.coins (walkFrom t rest))
        (bytes ++ encodeAll UndoRec.encode
          (spentRecs h st.coins (walkFrom t rest))) ∧
      (applyTxs h env txs t pos rest st).1.inconsistent = st.inconsistent := by
  induction rest generalizing st t pos bytes with
  | nil =>
      simp only [applyTxs, walkFrom, applyEvents, spentRecs, encodeAll_nil,
        List.append_nil, and_true]
      exact ⟨rfl, hrun⟩
  | cons tx rest ih =>
      simp only [applyTxs] at hok ⊢
      cases hfatal : (runEvents h env.ops pos (walkTxIo (t == 0) tx) st).2 with
      | true => simp [hfatal] at hok
      | false =>
          simp only [hfatal, Bool.false_eq_true, if_false] at hok ⊢
          obtain ⟨⟨hcoins, hstep⟩, hcons⟩ := runEvents_clean hrun hfatal
          have hrest := ih hstep hok
          rw [hcoins, hcons] at hrest
          simpa only [walkFrom, applyEvents_append, spentRecs_append,
            encodeAll_append, List.append_assoc] using hrest

/-! ## A healthy disk -/

theorem liveOnEvent_healthy {e : WalkEvent} (hv : EventValid h st.coins e) :
    (liveOnEvent h none st e).2 = false := by
  cases e with
  | input o =>
      simp only [liveOnEvent, liveOnInput]
      rcases hv with hnull | ⟨c, hc⟩
      · simp [hnull]
      · by_cases hnull : o = nullOutpoint <;> simp [hnull, hc]
  | output o out isCoinbase =>
      simp only [liveOnEvent, liveOnOutput]
      cases outputCoin h isCoinbase out with
      | none => rfl
      | some c =>
          cases (st.coins o).isSome <;> cases isCoinbase <;> rfl

theorem runEvents_healthy {faults : Faults} {pos : Nat} {es : List WalkEvent}
    (hnone : ∀ p, pos ≤ p → p < pos + es.length → faults p = none)
    (hrun : st.undo.Writing h bytes) (hv : ValidOn h st.coins es) :
    (runEvents h faults pos es st).2 = false := by
  induction es generalizing st pos bytes with
  | nil => rfl
  | cons e es ih =>
      have hhere : faults pos = none := hnone pos le_rfl (by simp)
      have he := liveOnEvent_healthy hv.1
      obtain ⟨⟨hcoins, hstep⟩, -⟩ := liveOnEvent_clean hrun he
      simp only [runEvents, hhere, he, Bool.false_or]
      refine ih ?_ hstep (by rw [hcoins]; exact hv.2)
      intro p hlow hhigh
      apply hnone p (by omega)
      simp only [List.length_cons]
      omega

theorem applyTxs_healthy {txs rest : List Tx} {t pos : Nat}
    (hrun : st.undo.Writing h bytes)
    (hv : ValidOn h st.coins (walkFrom t rest)) :
    (applyTxs h .healthy txs t pos rest st).2 = true := by
  induction rest generalizing st t pos bytes with
  | nil => rfl
  | cons tx rest ih =>
      rw [walkFrom, validOn_append] at hv
      have hfatal : (runEvents h (fun _ => none) pos (walkTxIo (t == 0) tx)
          st).2 = false := runEvents_healthy (fun _ _ _ => rfl) hrun hv.1
      obtain ⟨⟨hcoins, hstep⟩, -⟩ := runEvents_clean hrun hfatal
      simp only [applyTxs, ApplyEnv.healthy, hfatal, Bool.false_eq_true,
        if_false]
      exact ih hstep (by rw [hcoins]; exact hv.2)

/-! ## A whole apply -/

/-- A worker between blocks, with nothing filed under the next height. -/
structure Ready (h : Nat) (st : Live) : Prop where
  wellFormed : st.undo.WellFormed
  closed : st.undo.fd = none
  noSlot : st.undo.idx h = none
  consistent : st.inconsistent = false

/-- The events the apply acts on. -/
def blockEvents (blk : Block) : List WalkEvent :=
  if blk.isGenesis then [] else walkBlockTxs blk.txs

theorem undoCommit_undoBegin {d : UndoStore} (hfd : d.fd = none) (h : Nat)
    (w : Written) : (d.undoBegin h).undoCommit h w = d.undoCommit h w := by
  have hopen : ∃ file, (d.openRun h).fd = some (h, file) := by
    simp only [UndoStore.openRun]
    split
    · exact ⟨_, rfl⟩
    · split <;> exact ⟨_, rfl⟩
  obtain ⟨file, hfile⟩ := hopen
  have hbegin : d.undoBegin h = d.openRun h := by
    simp [UndoStore.undoBegin, UndoStore.undoFdFor, hfd]
  have hagain : (d.undoBegin h).undoFdFor h = d.undoBegin h := by
    simp [UndoStore.undoFdFor, hbegin, hfile]
  simp only [UndoStore.undoCommit, hagain]
  rfl

/-- Committing succeeds only when the END marker is written whole. -/
theorem undoCommit_hasRun {d : UndoStore} {w : Written}
    (hw : d.Writing h bytes) (hok : (d.undoCommit h w).2 = true) :
    (d.undoCommit h w).1.HasRun h (bytes ++ usMakeEnd h) := by
  cases w with
  | whole => exact hw.undoCommit_whole.2
  | short n =>
      obtain ⟨s, -, hfd⟩ := hw.undoFdFor
      simp [UndoStore.undoCommit, hfd] at hok

/-- A successful apply has done what the ledger says, and its run continues
what stood in the slot with what it spent. -/
theorem applyBlockInner_clean {env : ApplyEnv} {blk : Block}
    (hfd : st.undo.fd = none) (hbegin : (st.undo.undoBegin h).Writing h bytes)
    (hinner : (applyBlockInner h env blk st).2 = true)
    (hok : ((applyBlockInner h env blk st).1.undo.undoCommit h env.commit).2 =
      true) :
    (applyBlockInner h env blk st).1.coins =
        applyEvents h st.coins (blockEvents blk) ∧
      ((applyBlockInner h env blk st).1.undo.undoCommit h env.commit).1.HasRun h
        (bytes ++ (encodeAll UndoRec.encode
          (spentRecs h st.coins (blockEvents blk)) ++ usMakeEnd h)) ∧
      (applyBlockInner h env blk st).1.inconsistent = st.inconsistent := by
  cases hgen : blk.isGenesis with
  | true =>
      have hskip : applyBlockInner h env blk st = (st, true) := by
        simp [applyBlockInner, hgen]
      have hevents : blockEvents blk = [] := by simp [blockEvents, hgen]
      rw [hskip] at hok ⊢
      rw [hevents, spentRecs, encodeAll_nil, List.nil_append]
      rw [← undoCommit_undoBegin hfd] at hok ⊢
      exact ⟨rfl, undoCommit_hasRun hbegin hok, rfl⟩
  | false =>
      cases hb : env.begin_ with
      | noSlot => simp [applyBlockInner, hgen, hb] at hinner
      | slotOnly => simp [applyBlockInner, hgen, hb] at hinner
      | ok =>
          have hwalk : applyBlockInner h env blk st =
              applyTxs h env blk.txs 0 0 blk.txs
                { st with undo := st.undo.undoBegin h } := by
            simp [applyBlockInner, hgen, hb]
          have hevents : blockEvents blk = walkBlockTxs blk.txs := by
            simp [blockEvents, hgen]
          rw [hwalk] at hinner hok ⊢
          rw [hevents]
          obtain ⟨⟨hcoins, hrun⟩, hcons⟩ := applyTxs_clean hbegin hinner
          refine ⟨hcoins, ?_, hcons⟩
          rw [← List.append_assoc]
          exact undoCommit_hasRun hrun hok

/-- A successful apply at a height without a slot files what it spent. -/
theorem applyBlockAt_clean {env : ApplyEnv} {blk : Block} (hr : Ready h st)
    (hok : (applyBlockAt h env blk st).2 = true) :
    (applyBlockAt h env blk st).1.coins =
        applyEvents h st.coins (blockEvents blk) ∧
      (applyBlockAt h env blk st).1.undo.usReadRun h =
        (spentRecs h st.coins (blockEvents blk), false) ∧
      (applyBlockAt h env blk st).1.inconsistent = false := by
  have hslot : st.undo.undoExists h = false := by
    simp [UndoStore.undoExists, hr.noSlot]
  have hbegin := UndoStore.writing_undoBegin hr.wellFormed hr.noSlot hr.closed
  simp only [applyBlockAt, applyBlockAtInner, hslot, Bool.false_eq_true,
    if_false] at hok ⊢
  cases hinner : (applyBlockInner h env blk st).2 with
  | false => simp [hinner] at hok
  | true =>
      simp only [hinner, if_true] at hok ⊢
      obtain ⟨hcoins, hrun, hcons⟩ :=
        applyBlockInner_clean hr.closed hbegin hinner hok
      rw [List.nil_append] at hrun
      have hread := hrun.usReadRun_committed
      simp only [Live.undoCloseCurrent_coins, Live.undoCloseCurrent_undo,
        Live.undoCloseCurrent_inconsistent,
        UndoStore.usReadRun_undoCloseCurrent]
      exact ⟨hcoins, hread, hcons.trans hr.consistent⟩

theorem BlockValid.events {blk : Block} {s : CoinSet}
    (hv : BlockValid h s blk.txs) : ValidOn h s (blockEvents blk) := by
  rw [blockEvents]
  split
  · trivial
  · exact hv.valid

theorem applyBlockAt_healthy {blk : Block} (hr : Ready h st)
    (hv : ValidOn h st.coins (blockEvents blk)) :
    (applyBlockAt h .healthy blk st).2 = true := by
  have hslot : st.undo.undoExists h = false := by
    simp [UndoStore.undoExists, hr.noSlot]
  have hbegin := UndoStore.writing_undoBegin hr.wellFormed hr.noSlot hr.closed
  simp only [applyBlockAt, applyBlockAtInner, hslot, Bool.false_eq_true,
    if_false]
  cases hgen : blk.isGenesis with
  | true =>
      simp only [applyBlockInner, hgen, if_true, ApplyEnv.healthy]
      rw [← undoCommit_undoBegin hr.closed]
      exact hbegin.undoCommit_whole.1
  | false =>
      rw [blockEvents, hgen] at hv
      have htxs : (applyTxs h .healthy blk.txs 0 0 blk.txs
          { st with undo := st.undo.undoBegin h }).2 = true :=
        applyTxs_healthy hbegin hv
      obtain ⟨⟨-, hrun⟩, -⟩ := applyTxs_clean hbegin htxs
      have hinner : applyBlockInner h .healthy blk st =
          applyTxs h .healthy blk.txs 0 0 blk.txs
            { st with undo := st.undo.undoBegin h } := by
        simp [applyBlockInner, hgen, ApplyEnv.healthy]
      rw [hinner]
      simp only [htxs, if_true]
      exact hrun.undoCommit_whole.1

/-! ## Disconnecting -/

theorem blockEvents_reversible {blk : Block} {s : CoinSet}
    (hv : BlockValid h s blk.txs) :
    Reversible s (applyEvents h s (blockEvents blk))
      (spentRecs h s (blockEvents blk)) (created (walkBlockTxs blk.txs)) := by
  cases hgen : blk.isGenesis with
  | true =>
      simp only [blockEvents, hgen, if_true, applyEvents, spentRecs]
      exact Reversible.refl s _
  | false =>
      simp only [blockEvents, hgen, Bool.false_eq_true, if_false]
      simpa using (Reversible.refl s _).applyEvents hv.valid (fun _ ho => ho)

/-- Applying a valid block and disconnecting it leaves every outpoint as it
was, whether or not the drain before the discard succeeds. -/
theorem utxoLiveUnapplyBlock_applyBlockAt (h : Nat) (blk : Block) (st : Live)
    (hookOk : Bool) (hr : Ready h st) (hv : BlockValid h st.coins blk.txs) :
    (applyBlockAt h .healthy blk st).2 = true ∧
      (utxoLiveUnapplyBlock h blk hookOk
        (applyBlockAt h .healthy blk st).1).2 = true ∧
      ∀ o, (utxoLiveUnapplyBlock h blk hookOk
        (applyBlockAt h .healthy blk st).1).1.coins o = st.coins o := by
  have hok := applyBlockAt_healthy hr hv.events
  obtain ⟨hcoins, hrun, hcons⟩ := applyBlockAt_clean hr hok
  have hreplay : (applyBlockAt h .healthy blk st).1.undo.undoReplay h =
      some (spentRecs h st.coins (blockEvents blk)) := by
    simp [UndoStore.undoReplay, hrun]
  refine ⟨hok, ?_, ?_⟩
  · simp [utxoLiveUnapplyBlock, hreplay]
  · intro o
    simp only [utxoLiveUnapplyBlock, hreplay, Live.undoDiscard_coins,
      delCreated_coins, restoreRun_coins hcons, hcoins]
    rw [(blockEvents_reversible hv).reverse hv.fresh]

/-- A coinbase with a commitment output, a spend of an old coin, and a spend of
the output that made, on a set of one coin. -/
def sampleBlock : Block :=
  ⟨false,
    [⟨Txid.ofBytes [1], [nullOutpoint], [⟨50, [0x51]⟩, ⟨0, [0x6a, 0x24]⟩]⟩,
      ⟨Txid.ofBytes [2], [⟨Txid.ofBytes [9], 0⟩], [⟨7, [0x52]⟩]⟩,
      ⟨Txid.ofBytes [3], [⟨Txid.ofBytes [2], 0⟩], [⟨6, []⟩]⟩]⟩

def sampleCoin : Coin := ⟨8, 4, true, [0x53], by decide⟩

def sampleLive : Live :=
  ⟨fun o => if o = ⟨Txid.ofBytes [9], 0⟩ then some sampleCoin else none,
    [], .empty, false⟩

theorem sampleLive_ready (h : Nat) : Ready h sampleLive :=
  ⟨UndoStore.wellFormed_empty, rfl, rfl, rfl⟩

theorem sampleBlock_valid : BlockValid 5 sampleLive.coins sampleBlock.txs := by
  decide

theorem utxoLiveUnapplyBlock_applyBlockAt_sample :
    (applyBlockAt 5 .healthy sampleBlock sampleLive).1.coins
        ⟨Txid.ofBytes [9], 0⟩ = none ∧
      (utxoLiveUnapplyBlock 5 sampleBlock true
        (applyBlockAt 5 .healthy sampleBlock sampleLive).1).1.coins
        ⟨Txid.ofBytes [9], 0⟩ = some sampleCoin := by
  obtain ⟨-, -, hcoins⟩ := utxoLiveUnapplyBlock_applyBlockAt 5 sampleBlock
    sampleLive true (sampleLive_ready 5) sampleBlock_valid
  have hok := applyBlockAt_healthy (sampleLive_ready 5) sampleBlock_valid.events
  refine ⟨?_, ?_⟩
  · rw [(applyBlockAt_clean (sampleLive_ready 5) hok).1]
    decide
  · rw [hcoins]
    decide

end BitcoinMachineCode.Storage
