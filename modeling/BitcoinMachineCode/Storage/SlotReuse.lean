import BitcoinMachineCode.Storage.FailedApply
import Mathlib.Logic.Relation

/-!
# A slot that is used again

`undo_fd_for` continues the run of a height whose slot is still there, and the
reader of a run stops at its first END marker.  So an apply files what it spent
only if the ghost guard really cleared the slot: when the drain before the
discard fails the slot stays, and `rollback_unapplied_block` reports success
all the same.
-/

namespace BitcoinMachineCode.Storage

open BitcoinMachineCode.Foundation

variable {h : Nat} {st : Live} {bytes : List UInt8}

/-! ## The worker's runs -/

/-- No run is open. -/
structure UndoStore.Parked (d : UndoStore) : Prop where
  wellFormed : d.WellFormed
  closed : d.fd = none

/-- What the worker does between two states, and a restart on whatever a crash
left on disk. -/
inductive WorkerStep : Live → Live → Prop where
  | apply (h : Nat) (env : ApplyEnv) (blk : Block) (st : Live) :
      WorkerStep st (applyBlockAt h env blk st).1
  | unapply (h : Nat) (blk : Block) (hookOk : Bool) (st : Live) :
      WorkerStep st (utxoLiveUnapplyBlock h blk hookOk st).1
  | recover (h : Nat) (blk : Block) (prefixOk hookOk : Bool) (st : Live) :
      WorkerStep st (rollbackUnappliedBlock h blk prefixOk hookOk st).1
  | restart (st st' : Live) (hp : st'.undo.Parked) : WorkerStep st st'

theorem liveOnEvent_wellFormed {fault : Option OpFault} {e : WalkEvent}
    (hd : st.undo.WellFormed) :
    (liveOnEvent h fault st e).1.undo.WellFormed := by
  cases e with
  | input o =>
      simp only [liveOnEvent, liveOnInput]
      split
      · exact hd
      · split
        · exact hd
        · have happend := hd.undoAppendRecord h
          split
          · exact happend _ _
          · split
            · exact happend _ _
            · exact happend _ _
          · exact happend _ _
  | output o out isCoinbase =>
      simp only [liveOnEvent, liveOnOutput]
      split
      · exact hd
      · split <;> split_ifs <;> exact hd

theorem runEvents_wellFormed {faults : Faults} {pos : Nat}
    {es : List WalkEvent} (hd : st.undo.WellFormed) :
    (runEvents h faults pos es st).1.undo.WellFormed := by
  induction es generalizing st pos with
  | nil => exact hd
  | cons e es ih => exact ih (liveOnEvent_wellFormed hd)

theorem reversal_undo (st : Live) (recs : List UndoRec) (evs : List WalkEvent) :
    (delCreated (restoreRun st recs) evs).undo = st.undo := by
  rw [(delCreated_frame _ _).1, (restoreRun_frame _ _).1]

theorem rollbackPartialApply_wellFormed {txs : List Tx} {hookOk : Bool}
    (hd : st.undo.WellFormed) :
    (rollbackPartialApply h txs hookOk st).undo.WellFormed := by
  simp only [rollbackPartialApply]
  split
  · rw [Live.undoDiscard_undo, (delCreated_frame _ _).1]
    exact hd.undoDiscard h hookOk
  · rw [Live.undoDiscard_undo, reversal_undo]
    exact hd.undoDiscard h hookOk

theorem rollbackUnappliedBlock_parked (h : Nat) (blk : Block)
    (prefixOk hookOk : Bool) (hp : st.undo.Parked) :
    (rollbackUnappliedBlock h blk prefixOk hookOk st).1.undo.Parked := by
  rw [rollbackUnappliedBlock]
  split
  · exact hp
  · simp only [Live.undoDiscard_undo, reversal_undo]
    exact ⟨hp.wellFormed.undoDiscard h hookOk,
      UndoStore.undoDiscard_fd hp.closed h hookOk⟩

theorem utxoLiveUnapplyBlock_parked {blk : Block} {hookOk : Bool}
    (hp : st.undo.Parked) :
    (utxoLiveUnapplyBlock h blk hookOk st).1.undo.Parked := by
  rw [utxoLiveUnapplyBlock]
  split
  · exact hp
  · simp only [Live.undoDiscard_undo, reversal_undo]
    exact ⟨hp.wellFormed.undoDiscard h hookOk,
      UndoStore.undoDiscard_fd hp.closed h hookOk⟩

theorem applyTxs_wellFormed {env : ApplyEnv} {txs rest : List Tx} {t pos : Nat}
    (hd : st.undo.WellFormed) :
    (applyTxs h env txs t pos rest st).1.undo.WellFormed := by
  induction rest generalizing st t pos with
  | nil => exact hd
  | cons tx rest ih =>
      simp only [applyTxs]
      split
      · exact rollbackPartialApply_wellFormed (runEvents_wellFormed hd)
      · exact ih (runEvents_wellFormed hd)

theorem applyBlockInner_wellFormed {env : ApplyEnv} {blk : Block}
    (hd : st.undo.WellFormed) :
    (applyBlockInner h env blk st).1.undo.WellFormed := by
  rw [applyBlockInner]
  split
  · exact hd
  · split
    · exact hd
    · exact (hd.undoFdFor h).undoCloseCurrent
    · exact applyTxs_wellFormed (hd.undoFdFor h)

theorem applyBlockAt_parked {env : ApplyEnv} {blk : Block}
    (hp : st.undo.Parked) : (applyBlockAt h env blk st).1.undo.Parked := by
  have hinner : (applyBlockAtInner h env blk st).1.undo.WellFormed := by
    have hghost :=
      rollbackUnappliedBlock_parked h blk env.prefixOk env.ghostHookOk hp
    rw [applyBlockAtInner]
    split
    · simp only
      split
      · exact applyBlockInner_wellFormed hghost.wellFormed
      · exact hghost.wellFormed
    · exact applyBlockInner_wellFormed hp.wellFormed
  rw [applyBlockAt]
  split
  · exact ⟨(hinner.undoCommit h env.commit).undoCloseCurrent, rfl⟩
  · exact ⟨hinner.undoCloseCurrent, rfl⟩

/-- No run is open between two steps of the worker. -/
theorem WorkerStep.parked {st st' : Live} (hstep : WorkerStep st st')
    (hp : st.undo.Parked) : st'.undo.Parked := by
  cases hstep with
  | apply h env blk => exact applyBlockAt_parked hp
  | unapply h blk hookOk => exact utxoLiveUnapplyBlock_parked hp
  | recover h blk prefixOk hookOk =>
      exact rollbackUnappliedBlock_parked h blk prefixOk hookOk hp
  | restart _ _ hp' => exact hp'

theorem parked_of_run {st₀ st : Live} (hp : st₀.undo.Parked)
    (hrun : Relation.ReflTransGen WorkerStep st₀ st) : st.undo.Parked := by
  induction hrun with
  | refl => exact hp
  | tail _ hstep ih => exact hstep.parked ih

/-! ## Other heights -/

theorem UndoStore.undoFdFor_idx {d : UndoStore} {k : Nat} (hne : k ≠ h) :
    (d.undoFdFor h).idx k = d.idx k := by
  have hopen : ∀ d : UndoStore, (d.openRun h).idx k = d.idx k := by
    intro d
    simp only [UndoStore.openRun]
    split
    · rfl
    · split <;> exact Function.update_of_ne hne ..
  rw [UndoStore.undoFdFor]
  split
  · exact hopen d
  · split
    · rfl
    · exact hopen _

theorem UndoStore.undoAppendRecord_idx {d : UndoStore} {k : Nat} (hne : k ≠ h)
    (r : UndoRec) (w : Written) :
    (d.undoAppendRecord h r w).1.idx k = d.idx k := by
  simp only [UndoStore.undoAppendRecord]
  split
  · exact undoFdFor_idx hne
  · cases w <;> exact undoFdFor_idx hne

theorem UndoStore.undoCommit_idx {d : UndoStore} {k : Nat} (hne : k ≠ h)
    (w : Written) : (d.undoCommit h w).1.idx k = d.idx k := by
  simp only [UndoStore.undoCommit]
  split
  · exact undoFdFor_idx hne
  · cases w <;> exact undoFdFor_idx hne

theorem UndoStore.undoDiscard_idx_of_ne {d : UndoStore} {k : Nat} (hne : k ≠ h)
    (hookOk : Bool) : (d.undoDiscard h hookOk).idx k = d.idx k := by
  simp only [UndoStore.undoDiscard]
  split_ifs <;> first | rfl | exact Function.update_of_ne hne ..

theorem liveOnEvent_idx {fault : Option OpFault} {e : WalkEvent} {k : Nat}
    (hne : k ≠ h) :
    (liveOnEvent h fault st e).1.undo.idx k = st.undo.idx k := by
  have happend : ∀ r w, (st.undo.undoAppendRecord h r w).1.idx k =
      st.undo.idx k := fun r w => UndoStore.undoAppendRecord_idx hne r w
  cases e with
  | input o =>
      simp only [liveOnEvent, liveOnInput]
      split
      · rfl
      · split
        · rfl
        · split
          · exact happend _ _
          · split
            · exact happend _ _
            · exact happend _ _
          · exact happend _ _
  | output o out isCoinbase =>
      simp only [liveOnEvent, liveOnOutput]
      split
      · rfl
      · split <;> split_ifs <;> rfl

theorem runEvents_idx {faults : Faults} {pos : Nat} {es : List WalkEvent}
    {k : Nat} (hne : k ≠ h) :
    (runEvents h faults pos es st).1.undo.idx k = st.undo.idx k := by
  induction es generalizing st pos with
  | nil => rfl
  | cons e es ih => exact ih.trans (liveOnEvent_idx hne)

theorem rollbackPartialApply_idx {txs : List Tx} {hookOk : Bool} {k : Nat}
    (hne : k ≠ h) :
    (rollbackPartialApply h txs hookOk st).undo.idx k = st.undo.idx k := by
  simp only [rollbackPartialApply]
  split
  · rw [Live.undoDiscard_undo, (delCreated_frame _ _).1,
      UndoStore.undoDiscard_idx_of_ne hne]
  · rw [Live.undoDiscard_undo, reversal_undo,
      UndoStore.undoDiscard_idx_of_ne hne]

theorem applyTxs_idx {env : ApplyEnv} {txs rest : List Tx} {t pos k : Nat}
    (hne : k ≠ h) :
    (applyTxs h env txs t pos rest st).1.undo.idx k = st.undo.idx k := by
  induction rest generalizing st t pos with
  | nil => rfl
  | cons tx rest ih =>
      simp only [applyTxs]
      split
      · exact (rollbackPartialApply_idx hne).trans (runEvents_idx hne)
      · exact ih.trans (runEvents_idx hne)

/-- An apply leaves the slots of the other heights alone. -/
theorem applyBlockAt_idx {env : ApplyEnv} {blk : Block} {k : Nat}
    (hne : k ≠ h) :
    (applyBlockAt h env blk st).1.undo.idx k = st.undo.idx k := by
  have hblock : ∀ st : Live, (applyBlockInner h env blk st).1.undo.idx k =
      st.undo.idx k := by
    intro st
    rw [applyBlockInner]
    split
    · rfl
    · split
      · rfl
      · exact UndoStore.undoFdFor_idx hne
      · exact (applyTxs_idx hne).trans (UndoStore.undoFdFor_idx hne)
  have hghost : (rollbackUnappliedBlock h blk env.prefixOk env.ghostHookOk
      st).1.undo.idx k = st.undo.idx k := by
    rw [rollbackUnappliedBlock]
    split
    · rfl
    · simp only [Live.undoDiscard_undo, reversal_undo]
      exact UndoStore.undoDiscard_idx_of_ne hne _
  have hinner : (applyBlockAtInner h env blk st).1.undo.idx k =
      st.undo.idx k := by
    rw [applyBlockAtInner]
    split
    · simp only
      split
      · exact (hblock _).trans hghost
      · exact hghost
    · exact hblock st
  rw [applyBlockAt]
  split
  · exact (UndoStore.undoCommit_idx hne env.commit).trans hinner
  · exact hinner

/-! ## What a successful apply files -/

/-- The coins a block spends where the guard leaves the set. -/
def blockSpends (h : Nat) (env : ApplyEnv) (blk : Block) (st : Live) :
    List UndoRec :=
  spentRecs h (guarded h env blk st).coins (blockEvents blk)

/-- Nothing an earlier attempt left hides the new run: there is no slot, or the
guard can clear it, or nothing was written at it, or a complete run of the very
same records was. -/
def SlotUsable (h : Nat) (env : ApplyEnv) (blk : Block) (st : Live) : Prop :=
  st.undo.undoExists h = false ∨ env.ghostHookOk = true ∨
    st.undo.HasRun h [] ∨
    ∃ tail, st.undo.HasRun h (encodeAll UndoRec.encode
      (blockSpends h env blk st) ++ (usMakeEnd h ++ tail))

theorem guarded_parked (h : Nat) (env : ApplyEnv) (blk : Block)
    (hp : st.undo.Parked) :
    (guarded h env blk st).undo.Parked := by
  rw [guarded]
  split
  · exact rollbackUnappliedBlock_parked h blk _ _ hp
  · exact hp

/-- A run that the guard does not clear is still there after it. -/
theorem guarded_hasRun {env : ApplyEnv} {blk : Block} (hp : st.undo.Parked)
    (hhook : env.ghostHookOk = false) (hr : st.undo.HasRun h bytes) :
    (guarded h env blk st).undo.HasRun h bytes := by
  rw [guarded]
  split
  · rw [rollbackUnappliedBlock]
    split
    · exact hr
    · simp only [Live.undoDiscard_undo, reversal_undo, UndoStore.undoDiscard,
        hp.closed, hhook, Option.map_none, reduceCtorEq, if_false,
        hr.undoExists, Bool.not_false, Bool.and_self, if_true]
      exact hr
  · exact hr

theorem guarded_noSlot {env : ApplyEnv} {blk : Block}
    (hpfx : env.prefixOk = true)
    (husable : st.undo.undoExists h = false ∨ env.ghostHookOk = true) :
    (guarded h env blk st).undo.idx h = none := by
  rw [guarded]
  split
  · rename_i hslot
    rcases husable with habs | hhook
    · rw [hslot] at habs
      cases habs
    · rw [rollbackUnappliedBlock, hpfx, hhook]
      exact UndoStore.undoDiscard_idx _ h
  · rename_i hslot
    simpa [UndoStore.undoExists] using hslot

/-- Reopening a run that is there continues it. -/
theorem writing_undoBegin_hasRun {d : UndoStore} (hfd : d.fd = none)
    (hr : d.HasRun h bytes) : (d.undoBegin h).Writing h bytes := by
  obtain ⟨s, hs, hoff, hbytes⟩ := hr
  simp only [UndoStore.undoBegin, UndoStore.undoFdFor, hfd, UndoStore.openRun,
    hs]
  exact ⟨s, hs, Or.inr rfl, hoff, hbytes⟩

/-- A successful apply has passed the guard. -/
theorem applyBlockAt_guarded {env : ApplyEnv} {blk : Block}
    (hok : (applyBlockAt h env blk st).2 = true) :
    (st.undo.undoExists h = false ∨ env.prefixOk = true) ∧
      (applyBlockInner h env blk (guarded h env blk st)).2 = true ∧
      ((applyBlockInner h env blk (guarded h env blk st)).1.undo.undoCommit h
        env.commit).2 = true ∧
      (applyBlockAt h env blk st).1.undo.usReadRun h =
        ((applyBlockInner h env blk (guarded h env blk st)).1.undo.undoCommit h
          env.commit).1.usReadRun h := by
  have hinner : (applyBlockAtInner h env blk st).2 = true := by
    by_contra hbad
    simp [applyBlockAt, hbad] at hok
  have hguard : (st.undo.undoExists h = false ∨ env.prefixOk = true) ∧
      applyBlockAtInner h env blk st =
        applyBlockInner h env blk (guarded h env blk st) := by
    rw [applyBlockAtInner] at hinner ⊢
    rw [guarded]
    cases hslot : st.undo.undoExists h with
    | false => exact ⟨Or.inl rfl, rfl⟩
    | true =>
        cases hpfx : env.prefixOk with
        | false => simp [hslot, rollbackUnappliedBlock, hpfx] at hinner
        | true => exact ⟨Or.inr rfl, rfl⟩
  rw [applyBlockAt, if_pos hinner] at hok ⊢
  rw [hguard.2] at hinner hok ⊢
  exact ⟨hguard.1, hinner, hok, rfl⟩

theorem applyBlockAt_hasRun {env : ApplyEnv} {blk : Block}
    (hp : st.undo.Parked) (hok : (applyBlockAt h env blk st).2 = true)
    (hbegin : ((guarded h env blk st).undo.undoBegin h).Writing h bytes) :
    (applyBlockAt h env blk st).1.undo.usReadRun h =
      scan undoNext (bytes ++ (encodeAll UndoRec.encode
        (blockSpends h env blk st) ++ usMakeEnd h)) := by
  obtain ⟨-, hinner, hcommit, hread⟩ := applyBlockAt_guarded hok
  obtain ⟨-, hrun, -⟩ := applyBlockInner_clean (guarded_parked h env blk hp).closed hbegin
    hinner hcommit
  rw [hread, hrun.usReadRun]
  rfl

/-- After every successful apply, in every run of the worker, the height's run
is what the block spent, as long as the guard could clear what an earlier
attempt left there. -/
theorem applyBlockAt_usReadRun {st₀ st : Live} (hp₀ : st₀.undo.Parked)
    (hrun : Relation.ReflTransGen WorkerStep st₀ st) (h : Nat) (env : ApplyEnv)
    (blk : Block) (husable : SlotUsable h env blk st)
    (hok : (applyBlockAt h env blk st).2 = true) :
    (applyBlockAt h env blk st).1.undo.usReadRun h =
      (blockSpends h env blk st, false) := by
  have hp := parked_of_run hp₀ hrun
  have hgp := guarded_parked h env blk hp
  have hcommitted : ∀ tail, scan undoNext (encodeAll UndoRec.encode
      (blockSpends h env blk st) ++ (usMakeEnd h ++ tail)) =
        (blockSpends h env blk st, false) :=
    fun tail => undo_framed.scan_stopped _ (undoNext_end h tail)
  have hfresh : scan undoNext ([] ++ (encodeAll UndoRec.encode
      (blockSpends h env blk st) ++ usMakeEnd h)) =
        (blockSpends h env blk st, false) := by
    rw [List.nil_append, ← hcommitted [], List.append_nil]
  -- a run the guard cleared, or one it left
  by_cases hcleared : st.undo.undoExists h = false ∨ env.ghostHookOk = true
  · have hpfx := (applyBlockAt_guarded hok).1
    have hnone : (guarded h env blk st).undo.idx h = none := by
      rcases hpfx with habs | hpfx
      · rw [guarded, habs]
        simpa [UndoStore.undoExists] using habs
      · exact guarded_noSlot hpfx hcleared
    rw [applyBlockAt_hasRun hp hok
      (UndoStore.writing_undoBegin hgp.wellFormed hnone hgp.closed), hfresh]
  · rw [not_or] at hcleared
    have hhook : env.ghostHookOk = false := by simpa using hcleared.2
    have hkeep : ∀ old, st.undo.HasRun h old →
        (applyBlockAt h env blk st).1.undo.usReadRun h =
          scan undoNext (old ++ (encodeAll UndoRec.encode
            (blockSpends h env blk st) ++ usMakeEnd h)) := by
      intro old hold
      exact applyBlockAt_hasRun hp hok (writing_undoBegin_hasRun hgp.closed
        (guarded_hasRun hp hhook hold))
    rcases husable with habs | hyes | hempty | ⟨tail, hsame⟩
    · exact absurd habs hcleared.1
    · exact absurd hyes hcleared.2
    · rw [hkeep [] hempty, hfresh]
    · rw [hkeep _ hsame, List.append_assoc, List.append_assoc, hcommitted]

/-- A block with nothing but its coinbase. -/
def coinbaseOnly : Block :=
  ⟨false, [⟨Txid.ofBytes [4], [nullOutpoint], [⟨50, [0x51]⟩]⟩]⟩

/-- The coin log cannot be drained when the ghost's slot should be cleared. -/
def undrained : ApplyEnv := { ApplyEnv.healthy with ghostHookOk := false }

/-- A block is applied and disconnected, and its slot could not be cleared. -/
def staleSlot : Live :=
  (utxoLiveUnapplyBlock 5 sampleBlock false
    (applyBlockAt 5 .healthy sampleBlock sampleLive).1).1

theorem sampleLive_parked : sampleLive.undo.Parked :=
  ⟨UndoStore.wellFormed_empty, rfl⟩

theorem staleSlot_run : Relation.ReflTransGen WorkerStep sampleLive staleSlot :=
  .tail (.tail .refl (.apply 5 .healthy sampleBlock sampleLive))
    (.unapply 5 sampleBlock false _)

/-- With the drain working again the next block at the height files its own
run. -/
theorem applyBlockAt_usReadRun_staleSlot :
    (applyBlockAt 5 .healthy coinbaseOnly staleSlot).2 = true ∧
      (applyBlockAt 5 .healthy coinbaseOnly staleSlot).1.undo.usReadRun 5 =
        ([], false) := by
  have hok : (applyBlockAt 5 .healthy coinbaseOnly staleSlot).2 = true := by
    set_option maxRecDepth 4000 in
    decide
  refine ⟨hok, ?_⟩
  rw [applyBlockAt_usReadRun sampleLive_parked staleSlot_run 5 .healthy
    coinbaseOnly (Or.inr (Or.inl rfl)) hok]
  rfl

/-- With the drain still failing it succeeds on the old run: a block that spent
nothing reads back as the two spends of the disconnected one. -/
theorem applyBlockAt_stale_run :
    (applyBlockAt 5 undrained coinbaseOnly staleSlot).2 = true ∧
      blockSpends 5 undrained coinbaseOnly staleSlot = [] ∧
      ((applyBlockAt 5 undrained coinbaseOnly staleSlot).1.undo.usReadRun
        5).1.length = 2 := by
  decide +kernel

end BitcoinMachineCode.Storage
