import BitcoinMachineCode.Storage.Recovery

/-!
# A crash during recovery

The recovery clears the slots it decides from.  Its writes become durable in
one order: the restores and deletes of a block, then (the discard hook has
drained and synced the log) its slot's clear, then (the index is synced before
the next block's first restore) the next block's.  A crash leaves a prefix of
that; a recovery started on it ends where the first one would have.
-/

namespace BitcoinMachineCode.Storage

open BitcoinMachineCode.Foundation

/-! ## The disk -/

/-- What a boot finds: the coin set its log replays to, the undo store, the
persisted applied height. -/
structure Disk where
  coins : CoinSet
  undo : UndoStore
  closed : undo.fd = none
  applied : Nat

/-- One durable write of a recovery. -/
inductive DiskEvent where
  | coin (o : Outpoint) (v : Option Coin)
  | clear (h : Nat)

def Disk.write (d : Disk) : DiskEvent → Disk
  | .coin o v => { d with coins := d.coins.set o v }
  | .clear h => { d with undo := d.undo.usSlotClear h, closed := d.closed }

def Disk.writeAll (d : Disk) (evs : List DiskEvent) : Disk :=
  evs.foldl Disk.write d

/-- The process that boots from it. -/
def Disk.boot (d : Disk) : Live := ⟨d.coins, [], d.undo, false⟩

def RecoverEnv.healthy : RecoverEnv := ⟨true, fun _ => true, fun _ => true⟩

/-- The durable writes of one block's rollback. -/
def rollbackTrace (h : Nat) (blk : Block) (st : Live) : List DiskEvent :=
  ((rollbackUnappliedBlock h blk true true st).1.log.drop st.log.length).map
      (fun e => DiskEvent.coin e.1 e.2) ++ [.clear h]

/-- The durable writes of the ghosts' rollback, in order. -/
def ghostsTrace (readAt : Nat → Option Block) (lo : Nat) :
    Nat → Live → List DiskEvent
  | 0, _ => []
  | n + 1, st =>
      match readAt (lo + n) with
      | none => []
      | some blk =>
          rollbackTrace (lo + n) blk st ++
            ghostsTrace readAt lo n
              (rollbackUnappliedBlock (lo + n) blk true true st).1

def recoverTrace (readAt : Nat → Option Block) (d : Disk) : List DiskEvent :=
  ghostsTrace readAt (d.applied + 1) (ghosts d.undo (d.applied + 1)) d.boot

/-- The recovery is cut after some of its writes. -/
inductive CrashedRecovery (readAt : Nat → Option Block) : Disk → Disk → Prop where
  | cut (d : Disk) (n : Nat) :
      CrashedRecovery readAt d (d.writeAll ((recoverTrace readAt d).take n))

def Disk.recover (readAt : Nat → Option Block) (d : Disk) :
    Live × RecoverResult :=
  utxoLiveRecoverPartialBlock readAt .healthy d.applied d.boot

variable {readAt : Nat → Option Block} {lo h : Nat} {st : Live}

@[simp] theorem Disk.write_applied (d : Disk) (e : DiskEvent) :
    (d.write e).applied = d.applied := by cases e <;> rfl

@[simp] theorem Disk.writeAll_applied (d : Disk) (evs : List DiskEvent) :
    (d.writeAll evs).applied = d.applied := by
  induction evs generalizing d with
  | nil => rfl
  | cons e evs ih => exact (ih (d.write e)).trans (d.write_applied e)

theorem Disk.writeAll_append (d : Disk) (xs ys : List DiskEvent) :
    d.writeAll (xs ++ ys) = (d.writeAll xs).writeAll ys := List.foldl_append

theorem Disk.writeAll_coins (d : Disk) (log : List (Outpoint × Option Coin)) :
    (d.writeAll (log.map fun e => DiskEvent.coin e.1 e.2)).coins =
        replayLog d.coins log ∧
      (d.writeAll (log.map fun e => DiskEvent.coin e.1 e.2)).undo = d.undo := by
  induction log generalizing d with
  | nil => exact ⟨rfl, rfl⟩
  | cons e log ih => exact ih (d.write (.coin e.1 e.2))

/-! ## One block, cut -/

/-- Somewhere between a set and its reversal: off the created outputs nothing
has happened to a coin, or it is back. -/
def Reversing (C : CoinSet) (recs : List UndoRec) (ks : List Outpoint)
    (C' : CoinSet) : Prop :=
  ∀ k, k ∉ ks → C' k = C k ∨ C' k = C.restoreAll (recs.map UndoRec.entry) k

/-- Reversing from there ends in the same set. -/
theorem Reversing.reverse {C C' : CoinSet} {recs : List UndoRec}
    {ks : List Outpoint} (hr : Reversing C recs ks C') :
    (C'.restoreAll (recs.map UndoRec.entry)).delAll ks =
      (C.restoreAll (recs.map UndoRec.entry)).delAll ks := by
  funext k
  rw [PMap.delAll_apply, PMap.delAll_apply]
  by_cases hks : k ∈ ks
  · rw [if_pos hks, if_pos hks]
  · rw [if_neg hks, if_neg hks]
    rcases hr k hks with hsame | hback
    · rw [PMap.restoreAll_apply, PMap.restoreAll_apply, hsame]
    · cases hval : C.restoreAll (recs.map UndoRec.entry) k with
      | some c =>
          rw [hval] at hback
          exact PMap.restoreAll_of_some hback
      | none =>
          have hC : C k = none := by
            cases hC : C k with
            | none => rfl
            | some c =>
                rw [PMap.restoreAll_of_some hC] at hval
                cases hval
          rw [hval] at hback
          rw [PMap.restoreAll_apply, hback]
          rwa [PMap.restoreAll_apply, hC] at hval

theorem restoreAll_of_append (C : CoinSet) (xs ys : List UndoRec)
    (k : Outpoint) :
    C.restoreAll (xs.map UndoRec.entry) k = C k ∨
      C.restoreAll (xs.map UndoRec.entry) k =
        C.restoreAll ((xs ++ ys).map UndoRec.entry) k := by
  rw [List.map_append, PMap.restoreAll_append]
  cases hval : C.restoreAll (xs.map UndoRec.entry) k with
  | some c => exact Or.inr (PMap.restoreAll_of_some hval).symm
  | none =>
      left
      cases hC : C k with
      | none => rfl
      | some c =>
          rw [PMap.restoreAll_of_some hC] at hval
          cases hval

theorem Logged.restoreRun {C : CoinSet} {recs : List UndoRec}
    {ks : List Outpoint} {st₀ st : Live} {done rest : List UndoRec}
    (hl : Logged (Reversing C recs ks) st₀ st) (hrecs : recs = done ++ rest)
    (hcons : st.inconsistent = false)
    (hcoins : st.coins = C.restoreAll (done.map UndoRec.entry)) :
    Logged (Reversing C recs ks) st₀ (restoreRun st rest) := by
  induction rest generalizing st done with
  | nil => exact hl
  | cons r rest ih =>
      have hstep := restoreRun_coins hcons [r]
      change (undoRestoreCb st r).coins = st.coins.restore r.entry at hstep
      have hdone : (undoRestoreCb st r).coins =
          C.restoreAll ((done ++ [r]).map UndoRec.entry) := by
        rw [hstep, hcoins, List.map_append, PMap.restoreAll_append]
        rfl
      refine ih ?_ (by rw [hrecs]; simp)
        ((undoRestoreCb_frame st r).2.trans hcons) hdone
      have hP : Reversing C recs ks (undoRestoreCb st r).coins := by
        intro k _
        have hpfx := restoreAll_of_append C (done ++ [r]) rest k
        rw [← List.append_cons] at hpfx
        rw [hdone, hrecs]
        exact hpfx
      rw [undoRestoreCb] at hP ⊢
      split
      · exact hl
      · rename_i habs
        rw [if_neg habs] at hP
        exact hl.snoc rfl rfl hP

theorem Logged.delCreated {C : CoinSet} {recs : List UndoRec}
    {ks : List Outpoint} {st₀ st : Live} {evs : List WalkEvent}
    (hl : Logged (Reversing C recs ks) st₀ st)
    (hks : ∀ o ∈ created evs, o ∈ ks) :
    Logged (Reversing C recs ks) st₀ (delCreated st evs) := by
  rw [Storage.delCreated]
  revert hks
  generalize created evs = os
  intro hks
  induction os generalizing st with
  | nil => exact hl
  | cons o os ih =>
      refine ih ?_ fun o' ho' => hks o' (List.mem_cons_of_mem _ ho')
      rw [delCreatedOutpoint]
      split
      · refine hl.snoc rfl rfl fun k hk => ?_
        have hne : k ≠ o := fun hko => hk (hko ▸ hks o List.mem_cons_self)
        rw [Live.del_coins, PMap.del_of_ne _ hne]
        exact hl.last k hk
      · exact hl

/-- Every prefix of a rollback's log is between the set and its reversal. -/
theorem rollbackUnappliedBlock_logged (h : Nat) (blk : Block)
    (hcons : st.inconsistent = false) :
    Logged (Reversing st.coins (st.undo.usReadRun h).1
        (created (walkBlockTxs blk.txs))) st
      (rollbackUnappliedBlock h blk true true st).1 := by
  have hrefl : Logged (Reversing st.coins (st.undo.usReadRun h).1
      (created (walkBlockTxs blk.txs))) st st :=
    Logged.refl fun _ _ => Or.inl rfl
  have hrestored := hrefl.restoreRun (List.nil_append _).symm hcons rfl
  exact hrestored.delCreated fun o ho => ho

/-! ## The whole recovery, cut -/

/-- What rolling back `n` ghosts makes of a coin set. -/
def unwind (readAt : Nat → Option Block) (undo : UndoStore) (lo : Nat) :
    Nat → CoinSet → CoinSet
  | 0, C => C
  | n + 1, C =>
      match readAt (lo + n) with
      | none => C
      | some blk =>
          unwind readAt undo lo n
            ((C.restoreAll (((undo.usReadRun (lo + n)).1).map
              UndoRec.entry)).delAll (created (walkBlockTxs blk.txs)))

theorem unwind_congr {undo undo' : UndoStore} {n : Nat} (C : CoinSet)
    (hruns : ∀ k, k < n → undo'.usReadRun (lo + k) = undo.usReadRun (lo + k)) :
    unwind readAt undo' lo n C = unwind readAt undo lo n C := by
  induction n generalizing C with
  | zero => rfl
  | succ n ih =>
      simp only [unwind]
      cases readAt (lo + n) with
      | none => rfl
      | some blk =>
          simp only [hruns n (by omega)]
          exact ih _ fun k hk => hruns k (by omega)

theorem rollbackGhosts_eq_unwind {n : Nat} (hcons : st.inconsistent = false) :
    (rollbackGhosts readAt .healthy lo n st).1.coins =
      unwind readAt st.undo lo n st.coins := by
  induction n generalizing st with
  | zero => rfl
  | succ n ih =>
      rw [rollbackGhosts, unwind]
      cases readAt (lo + n) with
      | none => rfl
      | some blk =>
          obtain ⟨hcoins, hcons', hundo, hok⟩ :=
            rollbackUnappliedBlock_coins (lo + n) blk true hcons
          simp only [RecoverEnv.healthy] at ih ⊢
          simp only [hok, if_true]
          rw [ih hcons', hcoins, hundo]
          refine unwind_congr _ fun k hk => ?_
          exact UndoStore.usReadRun_undoDiscard _ (by omega) true

theorem Disk.recover_coins (d : Disk) :
    (d.recover readAt).1.coins =
      unwind readAt d.undo (d.applied + 1) (ghosts d.undo (d.applied + 1))
        d.coins := by
  rw [Disk.recover, utxoLiveRecoverPartialBlock]
  by_cases hn : ghosts d.boot.undo (d.applied + 1) = 0
  · simp only [if_pos hn]
    change ghosts d.undo (d.applied + 1) = 0 at hn
    rw [hn]
    rfl
  · simp only [if_neg hn]
    exact rollbackGhosts_eq_unwind rfl

theorem ghosts_usSlotClear {d : UndoStore} {n : Nat}
    (hn : ghosts d lo = n + 1) : ghosts (d.usSlotClear (lo + n)) lo = n := by
  apply le_antisymm
  · by_contra hlt
    have hslot := ghosts_exists (Nat.lt_of_not_le hlt)
    simp [UndoStore.undoExists, UndoStore.usSlotClear] at hslot
  · refine le_ghosts fun k hk => ?_
    have hslot : d.undoExists (lo + k) = true := ghosts_exists (by omega)
    have hne : lo + k ≠ lo + n := by omega
    simpa only [UndoStore.undoExists, UndoStore.usSlotClear,
      Function.update_of_ne hne] using hslot

theorem usReadRun_usSlotClear {d : UndoStore} {k : Nat} (hne : k ≠ h) :
    (d.usSlotClear h).usReadRun k = d.usReadRun k := by
  simp only [UndoStore.usReadRun, UndoStore.usSlotClear,
    Function.update_of_ne hne]

theorem undoDiscard_eq_usSlotClear {d : UndoStore} (hfd : d.fd = none) :
    d.undoDiscard h true = d.usSlotClear h := by
  simp [UndoStore.undoDiscard, hfd]

/-- After any prefix of the writes, what is left to unwind leads to the same
set. -/
theorem ghostsTrace_cut {n : Nat} (d : Disk) (hcoins : d.coins = st.coins)
    (hundo : d.undo = st.undo) (hcons : st.inconsistent = false)
    (hn : ghosts d.undo lo = n) (t : Nat) :
    let d' := d.writeAll ((ghostsTrace readAt lo n st).take t)
    unwind readAt d'.undo lo (ghosts d'.undo lo) d'.coins =
      unwind readAt d.undo lo n d.coins := by
  induction n generalizing st d t with
  | zero =>
      simp only [ghostsTrace, List.take_nil]
      change unwind readAt d.undo lo (ghosts d.undo lo) d.coins = _
      rw [hn]
  | succ n ih =>
      simp only [ghostsTrace]
      cases hread : readAt (lo + n) with
      | none =>
          simp only [List.take_nil]
          change unwind readAt d.undo lo (ghosts d.undo lo) d.coins = _
          rw [hn]
      | some blk =>
          obtain ⟨hcoins', hcons', hundo', -⟩ :=
            rollbackUnappliedBlock_coins (lo + n) blk true hcons
          obtain ⟨new, hlog, hreplay, hcut⟩ :=
            rollbackUnappliedBlock_logged (lo + n) blk hcons
          simp only [rollbackTrace, hlog, List.drop_left]
          have hnext : unwind readAt d.undo lo (n + 1) d.coins =
              unwind readAt d.undo lo n
                (rollbackUnappliedBlock (lo + n) blk true true st).1.coins := by
            rw [unwind, hread, hcoins', hcoins, hundo]
          rw [List.append_assoc, List.take_append, Disk.writeAll_append]
          rcases Nat.lt_or_ge new.length t with hlt | hle
          · -- the block is done, and perhaps more
            obtain ⟨t', ht'⟩ : ∃ t', t - new.length = t' + 1 :=
              ⟨t - new.length - 1, by omega⟩
            rw [List.length_map, List.take_of_length_le (by simp; omega),
              List.singleton_append, ht', List.take_succ_cons]
            obtain ⟨hd₁, hd₂⟩ := d.writeAll_coins new
            generalize d.writeAll
              (new.map fun e => DiskEvent.coin e.1 e.2) = d₁ at hd₁ hd₂
            have hcoins₁ : (d₁.write (.clear (lo + n))).coins =
                (rollbackUnappliedBlock (lo + n) blk true true st).1.coins := by
              rw [hreplay, ← hcoins, ← hd₁]
              rfl
            have hundo₁ : (d₁.write (.clear (lo + n))).undo =
                (rollbackUnappliedBlock (lo + n) blk true true st).1.undo := by
              change d₁.undo.usSlotClear (lo + n) = _
              rw [hd₂, hundo', ← hundo, undoDiscard_eq_usSlotClear d.closed]
            have hn₁ : ghosts (d₁.write (.clear (lo + n))).undo lo = n := by
              change ghosts (d₁.undo.usSlotClear (lo + n)) lo = n
              rw [hd₂, ghosts_usSlotClear hn]
            refine (ih _ hcoins₁ hundo₁ hcons' hn₁ t').trans ?_
            rw [hnext, hcoins₁]
            refine unwind_congr _ fun k hk => ?_
            change (d₁.undo.usSlotClear (lo + n)).usReadRun (lo + k) = _
            rw [hd₂, usReadRun_usSlotClear (by omega)]
          · -- the cut is inside the block
            rw [List.length_map, Nat.sub_eq_zero_of_le hle, List.take_zero,
              ← List.map_take]
            obtain ⟨hd₁, hd₂⟩ := d.writeAll_coins (new.take t)
            change unwind readAt (d.writeAll _).undo lo
              (ghosts (d.writeAll _).undo lo) (d.writeAll _).coins = _
            rw [hd₁, hd₂, hn, hnext, unwind, hread]
            simp only
            rw [hcoins, hundo, (hcut t).reverse, hcoins']

/-- The whole of the writes is what the recovery does. -/
theorem ghostsTrace_whole {n : Nat} (d : Disk) (hcoins : d.coins = st.coins)
    (hundo : d.undo = st.undo) (hcons : st.inconsistent = false) :
    (d.writeAll (ghostsTrace readAt lo n st)).coins =
        (rollbackGhosts readAt .healthy lo n st).1.coins ∧
      (d.writeAll (ghostsTrace readAt lo n st)).undo =
        (rollbackGhosts readAt .healthy lo n st).1.undo := by
  induction n generalizing st d with
  | zero => exact ⟨hcoins, hundo⟩
  | succ n ih =>
      rw [ghostsTrace, rollbackGhosts]
      cases readAt (lo + n) with
      | none => exact ⟨hcoins, hundo⟩
      | some blk =>
          obtain ⟨-, hcons', hundo', hok⟩ :=
            rollbackUnappliedBlock_coins (lo + n) blk true hcons
          obtain ⟨new, hlog, hreplay, -⟩ :=
            rollbackUnappliedBlock_logged (lo + n) blk hcons
          obtain ⟨hd₁, hd₂⟩ := d.writeAll_coins new
          simp only [rollbackTrace, hlog, List.drop_left, RecoverEnv.healthy]
            at ih ⊢
          simp only [hok, if_true]
          rw [Disk.writeAll_append, Disk.writeAll_append]
          apply ih _ _ _ hcons'
          · rw [hreplay, ← hcoins, ← hd₁]
            rfl
          · rw [hundo', ← hundo, undoDiscard_eq_usSlotClear d.closed, ← hd₂]
            rfl

theorem writeAll_recoverTrace (d : Disk) :
    (d.writeAll (recoverTrace readAt d)).coins = (d.recover readAt).1.coins ∧
      (d.writeAll (recoverTrace readAt d)).undo =
        (d.recover readAt).1.undo := by
  rw [Disk.recover, utxoLiveRecoverPartialBlock, recoverTrace]
  by_cases hn : ghosts d.boot.undo (d.applied + 1) = 0
  · simp only [if_pos hn]
    change ghosts d.undo (d.applied + 1) = 0 at hn
    rw [hn]
    exact ⟨rfl, rfl⟩
  · simp only [if_neg hn]
    exact ghostsTrace_whole d rfl rfl rfl

/-- However often recovery crashes, the recovery that gets through ends with
the coin set that an uninterrupted one ends with, at the same height. -/
theorem recover_after_crashes {d d' : Disk}
    (hcrashes : Relation.ReflTransGen (CrashedRecovery readAt) d d') :
    (∀ o, (d'.recover readAt).1.coins o = (d.recover readAt).1.coins o) ∧
      d'.applied = d.applied := by
  induction hcrashes with
  | refl => exact ⟨fun _ => rfl, rfl⟩
  | tail _ hcrash ih =>
      cases hcrash with
      | cut n =>
          obtain ⟨hcoins, happlied⟩ := ih
          rw [Disk.writeAll_applied]
          refine ⟨fun o => ?_, happlied⟩
          rw [← hcoins o, Disk.recover_coins, Disk.recover_coins,
            Disk.writeAll_applied]
          exact congrFun (ghostsTrace_cut _ rfl rfl rfl rfl n) o

def tornDisk : Disk := ⟨tornLive.coins, tornStore, rfl, 4⟩

/-- The recovery of the torn run, cut behind its restore and, the second time,
before its first write. -/
theorem recover_after_crashes_torn :
    ((tornDisk.writeAll ((recoverTrace sampleArchive tornDisk).take 1)).recover
      sampleArchive).1.coins ⟨Txid.ofBytes [9], 0⟩ = some sampleCoin := by
  have hcrashes : Relation.ReflTransGen (CrashedRecovery sampleArchive) tornDisk
      ((tornDisk.writeAll
        ((recoverTrace sampleArchive tornDisk).take 1)).writeAll []) :=
    .tail (.single (.cut tornDisk 1)) (.cut _ 0)
  have hcoins := (recover_after_crashes hcrashes).1 ⟨Txid.ofBytes [9], 0⟩
  refine hcoins.trans ?_
  decide

end BitcoinMachineCode.Storage
