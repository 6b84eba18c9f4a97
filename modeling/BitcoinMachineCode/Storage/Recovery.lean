import BitcoinMachineCode.Storage.SlotReuse

/-!
# Boot recovery

`utxo_live_recover_partial_block`: the blocks above the checkpointed height
that have an undo slot are rolled back, newest first.  After a crash the coin
set is what some prefix of the log of coin operations makes of the checkpointed
set, and undo records may be there for spends that are not.
-/

namespace BitcoinMachineCode.Storage

open BitcoinMachineCode.Foundation

/-! ## The recovery -/

/-- What the disk does during a recovery: the durable prefix before the first
block and before each one, and the drain before each discard. -/
structure RecoverEnv where
  start : Bool
  prefixOk : Nat → Bool
  hookOk : Nat → Bool

inductive RecoverResult where
  | nothing
  | rolledBack
  | failed
  deriving DecidableEq

/-- The length of the run of slots from a height on. -/
def ghostCount (d : UndoStore) : Nat → Nat → Nat
  | 0, _ => 0
  | fuel + 1, h => if d.undoExists h then ghostCount d fuel (h + 1) + 1 else 0

/-- The slots end with the index file. -/
def ghosts (d : UndoStore) (lo : Nat) : Nat := ghostCount d d.idxEnd lo

/-- The ghosts `lo`, …, `lo + n - 1`, newest first; `readAt` is
`store_read_at`. -/
def rollbackGhosts (readAt : Nat → Option Block) (env : RecoverEnv) (lo : Nat) :
    Nat → Live → Live × Bool
  | 0, st => (st, true)
  | n + 1, st =>
      match readAt (lo + n) with
      | none => (st, false)
      | some blk =>
          let r := rollbackUnappliedBlock (lo + n) blk (env.prefixOk (lo + n))
            (env.hookOk (lo + n)) st
          if r.2 then rollbackGhosts readAt env lo n r.1 else (r.1, false)

def utxoLiveRecoverPartialBlock (readAt : Nat → Option Block)
    (env : RecoverEnv) (applied : Nat) (st : Live) : Live × RecoverResult :=
  let lo := applied + 1
  let n := ghosts st.undo lo
  if n = 0 then (st, .nothing)
  else if !env.start then (st, .failed)
  else
    let r := rollbackGhosts readAt env lo n st
    (r.1, if r.2 then .rolledBack else .failed)

/-! ## The run of slots -/

theorem ghostCount_exists {d : UndoStore} {fuel h k : Nat}
    (hk : k < ghostCount d fuel h) : d.undoExists (h + k) = true := by
  induction fuel generalizing h k with
  | zero => simp [ghostCount] at hk
  | succ fuel ih =>
      rw [ghostCount] at hk
      split at hk
      · rename_i hslot
        cases k with
        | zero => exact hslot
        | succ k =>
            have hnext := ih (h := h + 1) (k := k) (by omega)
            rwa [Nat.add_right_comm] at hnext
      · omega

theorem le_ghostCount {d : UndoStore} {fuel h n : Nat} (hfuel : n ≤ fuel)
    (hslots : ∀ k, k < n → d.undoExists (h + k) = true) :
    n ≤ ghostCount d fuel h := by
  induction fuel generalizing h n with
  | zero => omega
  | succ fuel ih =>
      cases n with
      | zero => exact Nat.zero_le _
      | succ n =>
          have hslot : d.undoExists h = true := hslots 0 (by omega)
          rw [ghostCount, if_pos hslot]
          have hrest : n ≤ ghostCount d fuel (h + 1) := by
            refine ih (by omega) fun k hk => ?_
            have hnext := hslots (k + 1) (by omega)
            rwa [← Nat.add_assoc, Nat.add_right_comm] at hnext
          omega

theorem undoExists_lt {d : UndoStore} {h : Nat} (hslot : d.undoExists h = true) :
    h < d.idxEnd := by
  by_contra hge
  simp [UndoStore.undoExists, d.idx_end h (by omega)] at hslot

theorem ghosts_exists {d : UndoStore} {lo k : Nat} (hk : k < ghosts d lo) :
    d.undoExists (lo + k) = true := ghostCount_exists hk

/-- Slots without a gap are all in the run. -/
theorem le_ghosts {d : UndoStore} {lo n : Nat}
    (hslots : ∀ k, k < n → d.undoExists (lo + k) = true) : n ≤ ghosts d lo := by
  refine le_ghostCount ?_ hslots
  cases n with
  | zero => exact Nat.zero_le _
  | succ n =>
      have hlast := undoExists_lt (hslots n (by omega))
      omega

/-! ## The log of a chain of blocks -/

/-- A coin operation of an applied block, with the coin its undo record
holds. -/
inductive ChainOp where
  | spend (h : Nat) (o : Outpoint) (c : Coin)
  | create (h : Nat) (o : Outpoint) (c : Coin)

namespace ChainOp

def height : ChainOp → Nat
  | spend h _ _ => h
  | create h _ _ => h

/-- The entry in the log of the coin store. -/
def entry : ChainOp → Outpoint × Option Coin
  | spend _ o _ => (o, none)
  | create _ o c => (o, some c)

/-- The undo record of a spend at a height. -/
def undoRec (h : Nat) : ChainOp → Option UndoRec
  | spend h' o c => if h' = h then some ⟨o, c⟩ else none
  | create _ _ _ => none

end ChainOp

def eventOps (h : Nat) (s : CoinSet) : WalkEvent → List ChainOp
  | .input o =>
      if o = nullOutpoint then []
      else
        match s o with
        | none => []
        | some c => [.spend h o c]
  | .output o out isCoinbase =>
      match outputCoin h isCoinbase out with
      | none => []
      | some c => [.create h o c]

def walkOps (h : Nat) : CoinSet → List WalkEvent → List ChainOp
  | _, [] => []
  | s, e :: es => eventOps h s e ++ walkOps h (applyEvent h s e) es

/-- The coin operations of blocks applied one after another. -/
def chainOps : Nat → CoinSet → List Block → List ChainOp
  | _, _, [] => []
  | h, s, blk :: rest =>
      walkOps h s (blockEvents blk) ++
        chainOps (h + 1) (applyEvents h s (blockEvents blk)) rest

@[simp] theorem walkOps_nil (h : Nat) (s : CoinSet) : walkOps h s [] = [] := rfl

theorem walkOps_cons (h : Nat) (s : CoinSet) (e : WalkEvent) (es : List WalkEvent) :
    walkOps h s (e :: es) = eventOps h s e ++ walkOps h (applyEvent h s e) es := rfl

@[simp] theorem chainOps_nil (h : Nat) (s : CoinSet) : chainOps h s [] = [] := rfl

theorem chainOps_cons (h : Nat) (s : CoinSet) (blk : Block) (rest : List Block) :
    chainOps h s (blk :: rest) =
      walkOps h s (blockEvents blk) ++
        chainOps (h + 1) (applyEvents h s (blockEvents blk)) rest := rfl

/-- Every block is valid on what the ones before it made. -/
def ChainValid : Nat → CoinSet → List Block → Prop
  | _, _, [] => True
  | h, s, blk :: rest =>
      ValidOn h s (blockEvents blk) ∧
        ChainValid (h + 1) (applyEvents h s (blockEvents blk)) rest

/-- What the block with number `i` spends. -/
def chainSpends : Nat → CoinSet → List Block → Nat → List UndoRec
  | _, _, [], _ => []
  | h, s, blk :: _, 0 => spentRecs h s (blockEvents blk)
  | h, s, blk :: rest, i + 1 =>
      chainSpends (h + 1) (applyEvents h s (blockEvents blk)) rest i

/-- What the first `i` blocks create. -/
def chainCreated (blocks : List Block) (i : Nat) : List Outpoint :=
  (blocks.take i).flatMap fun blk => created (walkBlockTxs blk.txs)

variable {h : Nat} {S s : CoinSet} {blocks : List Block}

theorem created_blockEvents {blk : Block} {o : Outpoint}
    (ho : o ∈ created (blockEvents blk)) :
    o ∈ created (walkBlockTxs blk.txs) := by
  rw [blockEvents] at ho
  split at ho
  · cases ho
  · exact ho

theorem walkOps_height {evs : List WalkEvent} {op : ChainOp}
    (hop : op ∈ walkOps h s evs) : op.height = h := by
  induction evs generalizing s with
  | nil => cases hop
  | cons e es ih =>
      rw [walkOps_cons, List.mem_append] at hop
      rcases hop with hop | hop
      · cases e with
        | input o =>
            simp only [eventOps] at hop
            split at hop
            · cases hop
            · split at hop
              · cases hop
              · rw [List.mem_singleton.mp hop]
                rfl
        | output o out isCoinbase =>
            simp only [eventOps] at hop
            split at hop
            · cases hop
            · rw [List.mem_singleton.mp hop]
              rfl
      · exact ih hop

theorem walkOps_spends (h : Nat) (s : CoinSet) (evs : List WalkEvent) :
    (walkOps h s evs).filterMap (ChainOp.undoRec h) = spentRecs h s evs := by
  induction evs generalizing s with
  | nil => rfl
  | cons e es ih =>
      have hevent : (eventOps h s e).filterMap (ChainOp.undoRec h) =
          eventRecs s e := by
        cases e with
        | input o =>
            simp only [eventOps, eventRecs]
            split
            · rfl
            · cases s o <;> simp [ChainOp.undoRec]
        | output o out isCoinbase =>
            simp only [eventOps, eventRecs]
            cases outputCoin h isCoinbase out <;> simp [ChainOp.undoRec]
      rw [walkOps_cons, List.filterMap_append, ih, hevent]
      rfl

theorem walkOps_created {evs : List WalkEvent} {h' : Nat} {o : Outpoint}
    {c : Coin} (hop : ChainOp.create h' o c ∈ walkOps h s evs) :
    o ∈ created evs := by
  induction evs generalizing s with
  | nil => cases hop
  | cons e es ih =>
      rw [← List.singleton_append, created_append, List.mem_append]
      rw [walkOps_cons, List.mem_append] at hop
      rcases hop with hop | hop
      · left
        cases e with
        | input o' =>
            simp only [eventOps] at hop
            split at hop
            · cases hop
            · split at hop
              · cases hop
              · cases List.mem_singleton.mp hop
        | output o' out isCoinbase =>
            simp only [eventOps] at hop
            split at hop
            · cases hop
            · rename_i c' hcoin
              cases List.mem_singleton.mp hop
              rw [created, List.mem_filterMap]
              exact ⟨_, List.mem_cons_self, by
                rw [created_output h, hcoin]
                rfl⟩
      · exact Or.inr (ih hop)

theorem chainOps_height {op : ChainOp} (hop : op ∈ chainOps h s blocks) :
    h ≤ op.height ∧ op.height < h + blocks.length := by
  induction blocks generalizing h s with
  | nil => cases hop
  | cons blk rest ih =>
      rw [List.length_cons]
      rw [chainOps_cons, List.mem_append] at hop
      rcases hop with hop | hop
      · have := walkOps_height hop
        omega
      · have := ih hop
        omega

theorem filterMap_undoRec_of_ne {ops : List ChainOp}
    (hne : ∀ op ∈ ops, op.height ≠ h) :
    ops.filterMap (ChainOp.undoRec h) = [] := by
  rw [List.filterMap_eq_nil_iff]
  intro op hop
  cases op with
  | spend h' o c => exact if_neg (hne _ hop)
  | create h' o c => rfl

/-- The spends at a height are the records of its block. -/
theorem chainOps_spends (h : Nat) (s : CoinSet) (blocks : List Block) (i : Nat) :
    (chainOps h s blocks).filterMap (ChainOp.undoRec (h + i)) =
      chainSpends h s blocks i := by
  induction blocks generalizing h s i with
  | nil => simp [chainSpends]
  | cons blk rest ih =>
      rw [chainOps_cons, List.filterMap_append]
      cases i with
      | zero =>
          rw [Nat.add_zero, walkOps_spends, filterMap_undoRec_of_ne,
            List.append_nil]
          · rfl
          · intro op hop
            have := chainOps_height hop
            omega
      | succ i =>
          rw [filterMap_undoRec_of_ne, List.nil_append, ← Nat.add_assoc,
            Nat.add_right_comm, ih]
          · rfl
          · intro op hop
            have := walkOps_height hop
            omega

theorem mem_chainCreated {i : Nat} {o : Outpoint} :
    o ∈ chainCreated blocks i ↔ ∃ k blk, k < i ∧ blocks[k]? = some blk ∧
      o ∈ created (walkBlockTxs blk.txs) := by
  simp only [chainCreated, List.mem_flatMap, List.mem_take_iff_getElem]
  constructor
  · rintro ⟨blk, ⟨k, hk, rfl⟩, ho⟩
    exact ⟨k, _, by omega, List.getElem?_eq_getElem (by omega), ho⟩
  · rintro ⟨k, blk, hk, hblk, ho⟩
    obtain ⟨hlt, rfl⟩ := List.getElem?_eq_some_iff.mp hblk
    exact ⟨_, ⟨k, by omega, rfl⟩, ho⟩

theorem chainOps_created {h' : Nat} {o : Outpoint} {c : Coin}
    (hop : ChainOp.create h' o c ∈ chainOps h s blocks) :
    o ∈ chainCreated blocks (h' - h + 1) := by
  induction blocks generalizing h s with
  | nil => cases hop
  | cons blk rest ih =>
      rw [mem_chainCreated]
      rw [chainOps_cons, List.mem_append] at hop
      rcases hop with hop | hop
      · have hheight := walkOps_height hop
        exact ⟨0, blk, by omega, rfl, created_blockEvents (walkOps_created hop)⟩
      · have hheight := chainOps_height hop
        obtain ⟨k, blk', hk, hblk', ho⟩ := mem_chainCreated.mp (ih hop)
        simp only [ChainOp.height] at hheight
        exact ⟨k + 1, blk', by omega, hblk', ho⟩

/-- What a block of the chain spends was there before the chain, or the chain
has created it. -/
theorem chainSpends_recorded (hv : ChainValid h s blocks) {i : Nat}
    {r : UndoRec} (hr : r ∈ chainSpends h s blocks i) :
    r.o ∈ chainCreated blocks (i + 1) ∨ s r.o = some r.coin := by
  induction blocks generalizing h s i with
  | nil => simp [chainSpends] at hr
  | cons blk rest ih =>
      have hrev := (Reversible.refl s (created (walkBlockTxs blk.txs))).applyEvents
        hv.1 fun o ho => created_blockEvents ho
      rw [List.nil_append] at hrev
      by_cases hmem : r.o ∈ created (walkBlockTxs blk.txs)
      · exact Or.inl (mem_chainCreated.mpr ⟨0, blk, by omega, rfl, hmem⟩)
      cases i with
      | zero => exact Or.inr (hrev.recorded r hr hmem)
      | succ i =>
          rcases ih hv.2 hr with hcreated | hcoin
          · obtain ⟨k, blk', hk, hblk', ho⟩ := mem_chainCreated.mp hcreated
            exact Or.inl (mem_chainCreated.mpr
              ⟨k + 1, blk', by omega, hblk', ho⟩)
          · rcases hrev.kept r.o hmem with hkept | hnone
            · exact Or.inr (hkept.symm.trans hcoin)
            · rw [hnone] at hcoin
              cases hcoin

theorem replayLog_apply (s : CoinSet) (log : List (Outpoint × Option Coin))
    (o : Outpoint) :
    replayLog s log o = s o ∨
      ∃ e ∈ log, e.1 = o ∧ replayLog s log o = e.2 := by
  induction log using List.reverseRecOn with
  | nil => exact Or.inl rfl
  | append_singleton log e ih =>
      rw [replayLog_snoc]
      by_cases ho : o = e.1
      · subst ho
        exact Or.inr ⟨e, by simp, rfl, PMap.set_self ..⟩
      · rw [PMap.set_of_ne _ _ ho]
        rcases ih with ih | ⟨e', he', ho', hval⟩
        · exact Or.inl ih
        · exact Or.inr ⟨e', List.mem_append_left _ he', ho', hval⟩

/-! ## The worker's log -/

theorem liveOnEvent_log {st : Live} {e : WalkEvent}
    (hv : EventValid h st.coins e) :
    (liveOnEvent h none st e).1.log =
      st.log ++ (eventOps h st.coins e).map ChainOp.entry := by
  cases e with
  | input o =>
      simp only [liveOnEvent, liveOnInput, eventOps]
      by_cases hnull : o = nullOutpoint
      · simp [hnull]
      · cases hc : st.coins o <;> simp [hnull, Live.del, ChainOp.entry]
  | output o out isCoinbase =>
      simp only [liveOnEvent, liveOnOutput, eventOps]
      cases hcoin : outputCoin h isCoinbase out with
      | none => simp
      | some c => simp [hv c hcoin, Live.put, ChainOp.entry]

theorem runEvents_log {st : Live} {bytes : List UInt8} {pos : Nat}
    {es : List WalkEvent} (hrun : st.undo.Writing h bytes)
    (hv : ValidOn h st.coins es) :
    (runEvents h (fun _ => none) pos es st).1.log =
      st.log ++ (walkOps h st.coins es).map ChainOp.entry := by
  induction es generalizing st bytes pos with
  | nil => simp [runEvents]
  | cons e es ih =>
      obtain ⟨⟨hcoins, hstep⟩, -⟩ :=
        liveOnEvent_clean hrun (liveOnEvent_healthy hv.1)
      simp only [runEvents, walkOps_cons, List.map_append]
      rw [ih hstep (by rw [hcoins]; exact hv.2), liveOnEvent_log hv.1, hcoins,
        List.append_assoc]

theorem walkOps_append (h : Nat) (s : CoinSet) (xs ys : List WalkEvent) :
    walkOps h s (xs ++ ys) =
      walkOps h s xs ++ walkOps h (applyEvents h s xs) ys := by
  induction xs generalizing s with
  | nil => rfl
  | cons x xs ih =>
      simp only [List.cons_append, walkOps_cons, applyEvents, ih, List.append_assoc]

theorem applyTxs_log {st : Live} {bytes : List UInt8} {txs rest : List Tx}
    {t pos : Nat} (hrun : st.undo.Writing h bytes)
    (hv : ValidOn h st.coins (walkFrom t rest)) :
    (applyTxs h .healthy txs t pos rest st).1.log =
      st.log ++ (walkOps h st.coins (walkFrom t rest)).map ChainOp.entry := by
  induction rest generalizing st bytes t pos with
  | nil => simp [applyTxs, walkFrom]
  | cons tx rest ih =>
      rw [walkFrom, validOn_append] at hv
      have hclean : (runEvents h ApplyEnv.healthy.ops pos
          (walkTxIo (t == 0) tx) st).2 = false :=
        runEvents_healthy (fun _ _ _ => rfl) hrun hv.1
      obtain ⟨⟨hcoins, hstep⟩, -⟩ := runEvents_clean hrun hclean
      simp only [applyTxs, hclean, Bool.false_eq_true, if_false]
      rw [ih hstep (by rw [hcoins]; exact hv.2), hcoins, walkFrom,
        walkOps_append, List.map_append, ← List.append_assoc]
      congr 1
      exact runEvents_log hrun hv.1

/-- Applying a block logs its operations. -/
theorem applyBlockAt_log {st : Live} {blk : Block} (hr : Ready h st)
    (hv : ValidOn h st.coins (blockEvents blk)) :
    (applyBlockAt h .healthy blk st).1.log =
      st.log ++ (walkOps h st.coins (blockEvents blk)).map ChainOp.entry := by
  have hslot : st.undo.undoExists h = false := by
    simp [UndoStore.undoExists, hr.noSlot]
  have hbegin := UndoStore.writing_undoBegin hr.wellFormed hr.noSlot hr.closed
  have hlog : (applyBlockAt h .healthy blk st).1.log =
      (applyBlockInner h .healthy blk st).1.log := by
    rw [applyBlockAt, applyBlockAtInner, hslot]
    simp only [Bool.false_eq_true, if_false]
    split <;> rfl
  rw [hlog, applyBlockInner]
  rw [blockEvents] at hv ⊢
  cases hgen : blk.isGenesis with
  | true => simp
  | false =>
      simp only [hgen, Bool.false_eq_true, if_false] at hv ⊢
      exact applyTxs_log hbegin hv

def applyChain : Nat → List Block → Live → Live
  | _, [], st => st
  | h, blk :: rest, st => applyChain (h + 1) rest (applyBlockAt h .healthy blk st).1

/-- The worker's log is the log of the chain it applied. -/
theorem applyChain_log {st : Live} (hp : st.undo.Parked)
    (hcons : st.inconsistent = false) (hslots : ∀ k, h ≤ k → st.undo.idx k = none)
    (hv : ChainValid h st.coins blocks) :
    (applyChain h blocks st).log =
      st.log ++ (chainOps h st.coins blocks).map ChainOp.entry := by
  induction blocks generalizing h st with
  | nil => simp [applyChain]
  | cons blk rest ih =>
      have hr : Ready h st := ⟨hp.wellFormed, hp.closed, hslots h le_rfl, hcons⟩
      obtain ⟨hcoins, -, hcons'⟩ :=
        applyBlockAt_clean hr (applyBlockAt_healthy hr hv.1)
      have hslots' : ∀ k, h + 1 ≤ k →
          (applyBlockAt h .healthy blk st).1.undo.idx k = none := by
        intro k hk
        rw [applyBlockAt_idx (by omega)]
        exact hslots k (by omega)
      rw [applyChain, ih (applyBlockAt_parked hp) hcons' hslots'
        (by rw [hcoins]; exact hv.2), applyBlockAt_log hr hv.1, hcoins, chainOps_cons,
        List.map_append, List.append_assoc]

/-! ## Rolling back newest first -/

/-- What stands between a coin set and the old one is in the runs and created
outputs of the first `i` blocks. -/
structure Rollable (S : CoinSet) (blocks : List Block)
    (run : Nat → List UndoRec) (i : Nat) (C : CoinSet) : Prop where
  extra : ∀ o, S o = none → C o ≠ none → o ∈ chainCreated blocks i
  lost : ∀ o c, S o = some c →
    C o = some c ∨ C o = none ∧ ∃ k, k < i ∧ ⟨o, c⟩ ∈ run k

theorem Rollable.eq {run : Nat → List UndoRec} {C : CoinSet}
    (hr : Rollable S blocks run 0 C) (o : Outpoint) : C o = S o := by
  cases hS : S o with
  | none =>
      by_contra hne
      have hmem := hr.extra o hS hne
      simp [chainCreated] at hmem
  | some c =>
      rcases hr.lost o c hS with h | ⟨-, k, hk, -⟩
      · exact h
      · omega

/-- Rolling back the newest block. -/
theorem Rollable.step {run : Nat → List UndoRec} {i : Nat} {C : CoinSet}
    {blk : Block} (hr : Rollable S blocks run (i + 1) C)
    (hblk : blocks[i]? = some blk)
    (hnew : ∀ o ∈ chainCreated blocks (i + 1), S o = none)
    (hrun : ∀ r ∈ run i, r.o ∈ chainCreated blocks (i + 1) ∨
      S r.o = some r.coin) :
    Rollable S blocks run i
      ((C.restoreAll ((run i).map UndoRec.entry)).delAll
        (created (walkBlockTxs blk.txs))) := by
  have hlower : ∀ o, o ∈ chainCreated blocks (i + 1) →
      o ∉ created (walkBlockTxs blk.txs) → o ∈ chainCreated blocks i := by
    intro o ho hne
    obtain ⟨k, blk', hk, hblk', ho'⟩ := mem_chainCreated.mp ho
    refine mem_chainCreated.mpr ⟨k, blk', ?_, hblk', ho'⟩
    rcases Nat.lt_succ_iff_lt_or_eq.mp hk with hlt | rfl
    · exact hlt
    · rw [hblk] at hblk'
      cases hblk'
      exact absurd ho' hne
  constructor
  · intro o hS hne
    rw [PMap.delAll_apply] at hne
    split at hne
    · exact absurd rfl hne
    · rename_i hks
      refine hlower o ?_ hks
      by_cases hC : C o = none
      · -- a restored coin the old set did not have was made by the chain
        rw [PMap.restoreAll_apply, hC] at hne
        cases hfind : ((run i).map UndoRec.entry).find? fun e => e.1 = o with
        | none => simp [hfind] at hne
        | some e =>
            obtain ⟨r, hmem, rfl⟩ :=
              List.mem_map.mp (List.mem_of_find?_eq_some hfind)
            have hkey : r.o = o := by
              have hdec := List.find?_some hfind
              exact of_decide_eq_true hdec
            rcases hrun r hmem with h | h
            · rwa [hkey] at h
            · rw [hkey, hS] at h
              cases h
      · exact hr.extra o hS hC
  · intro o c hS
    have hks : o ∉ created (walkBlockTxs blk.txs) := by
      intro hmem
      have hnone := hnew o (mem_chainCreated.mpr
        ⟨i, blk, by omega, hblk, hmem⟩)
      rw [hnone] at hS
      cases hS
    rw [PMap.delAll_apply, if_neg hks]
    have hval : ∀ e ∈ (run i).map UndoRec.entry, e.1 = o → e.2 = c := by
      intro e he hkey
      obtain ⟨r, hmem, rfl⟩ := List.mem_map.mp he
      change r.o = o at hkey
      change r.coin = c
      rcases hrun r hmem with h | h
      · rw [hkey] at h
        rw [hnew o h] at hS
        cases hS
      · rw [hkey, hS] at h
        exact (Option.some.inj h).symm
    rcases hr.lost o c hS with h | ⟨hnone, k, hk, hmem⟩
    · exact Or.inl (PMap.restoreAll_of_some h)
    · by_cases hfind : (o, c) ∈ (run i).map UndoRec.entry
      · exact Or.inl (PMap.restoreAll_of_mem hfind hval (Or.inl hnone))
      · right
        constructor
        · rw [PMap.restoreAll_of_forall_ne, hnone]
          intro e he hkey
          apply hfind
          rw [← hval e he hkey, ← hkey]
          exact he
        · rcases Nat.lt_succ_iff_lt_or_eq.mp hk with hlt | rfl
          · exact ⟨k, hlt, hmem⟩
          · exact absurd (List.mem_map.mpr ⟨_, hmem, rfl⟩) hfind

/-- The bytes a reader finds at a height's slot. -/
def UndoStore.runBytes (d : UndoStore) (h : Nat) : List UInt8 :=
  match d.idx h with
  | none => []
  | some s => (d.rev s.file).drop s.off

theorem UndoStore.usReadRun_eq (d : UndoStore) (h : Nat) :
    d.usReadRun h = scan undoNext (d.runBytes h) := by
  rw [UndoStore.usReadRun, UndoStore.runBytes]
  cases d.idx h with
  | none => exact undo_framed.scan_nil.symm
  | some s => rfl

theorem rollbackUnappliedBlock_coins {st : Live} (h : Nat) (blk : Block)
    (hookOk : Bool) (hcons : st.inconsistent = false) :
    (rollbackUnappliedBlock h blk true hookOk st).1.coins =
        (st.coins.restoreAll (((st.undo.usReadRun h).1).map
          UndoRec.entry)).delAll (created (walkBlockTxs blk.txs)) ∧
      (rollbackUnappliedBlock h blk true hookOk st).1.inconsistent = false ∧
      (rollbackUnappliedBlock h blk true hookOk st).1.undo =
        st.undo.undoDiscard h hookOk ∧
      (rollbackUnappliedBlock h blk true hookOk st).2 = true := by
  refine ⟨?_, ?_, ?_, rfl⟩
  · change (delCreated (restoreRun st _) _).coins = _
    rw [delCreated_coins, restoreRun_coins hcons]
    rfl
  · change (delCreated (restoreRun st _) _).inconsistent = _
    rw [(delCreated_frame _ _).2, (restoreRun_frame _ _).2, hcons]
  · change (delCreated (restoreRun st _) _).undo.undoDiscard h hookOk = _
    rw [(delCreated_frame _ _).1, (restoreRun_frame _ _).1]

/-- A discard leaves the other heights' runs alone. -/
theorem UndoStore.usReadRun_undoDiscard (d : UndoStore) {k : Nat}
    (hne : k ≠ h) (hookOk : Bool) :
    (d.undoDiscard h hookOk).usReadRun k = d.usReadRun k := by
  simp only [UndoStore.undoDiscard]
  split_ifs
  · rfl
  · simp only [UndoStore.usReadRun, UndoStore.usSlotClear,
      Function.update_of_ne hne]
    rfl
  · rfl
  · simp only [UndoStore.usReadRun, UndoStore.usSlotClear,
      Function.update_of_ne hne]

/-- Rolling back a run of ghosts that accounts for all differences gives the
old set back. -/
theorem rollbackGhosts_coins {readAt : Nat → Option Block} {env : RecoverEnv}
    {lo n : Nat} {st : Live} {run : Nat → List UndoRec}
    (hpfx : ∀ k, env.prefixOk k = true) (hcons : st.inconsistent = false)
    (hread : ∀ k, k < n → ∃ blk, blocks[k]? = some blk ∧
      readAt (lo + k) = some blk)
    (hruns : ∀ k, k < n → (st.undo.usReadRun (lo + k)).1 = run k)
    (hnew : ∀ o ∈ chainCreated blocks n, S o = none)
    (hrec : ∀ k, k < n → ∀ r ∈ run k, r.o ∈ chainCreated blocks (k + 1) ∨
      S r.o = some r.coin)
    (hr : Rollable S blocks run n st.coins) :
    (rollbackGhosts readAt env lo n st).2 = true ∧
      ∀ o, (rollbackGhosts readAt env lo n st).1.coins o = S o := by
  induction n generalizing st with
  | zero => exact ⟨rfl, hr.eq⟩
  | succ n ih =>
      obtain ⟨blk, hblk, hat⟩ := hread n (by omega)
      obtain ⟨hcoins, hcons', hundo, hok⟩ :=
        rollbackUnappliedBlock_coins (lo + n) blk (env.hookOk (lo + n)) hcons
      rw [hruns n (by omega)] at hcoins
      rw [rollbackGhosts, hat]
      simp only [hpfx, hok, if_true]
      apply ih hcons'
      · exact fun k hk => hread k (by omega)
      · intro k hk
        rw [hundo, UndoStore.usReadRun_undoDiscard _ (by omega)]
        exact hruns k (by omega)
      · intro o ho
        obtain ⟨k, blk', hk, hblk', ho'⟩ := mem_chainCreated.mp ho
        exact hnew o (mem_chainCreated.mpr ⟨k, blk', by omega, hblk', ho'⟩)
      · exact fun k hk => hrec k (by omega)
      · rw [hcoins]
        exact hr.step hblk hnew (hrec n (by omega))

/-! ## After a crash -/

/-- The first `p` operations of the blocks above the checkpoint are durable.
The slots up to the last of them are too (`undo.idx` is synced as a whole
before a drain), and every run there is has been cut no earlier than behind
the records of the durable spends. -/
structure CrashedAt (applied : Nat) (S : CoinSet) (blocks : List Block)
    (readAt : Nat → Option Block) (p : Nat) (st : Live) : Prop where
  coins : st.coins = replayLog S
    (((chainOps (applied + 1) S blocks).take p).map ChainOp.entry)
  consistent : st.inconsistent = false
  slots : ∀ op ∈ (chainOps (applied + 1) S blocks).take p, ∀ h,
    applied < h → h ≤ op.height → st.undo.undoExists h = true
  noMore : ∀ h, applied + blocks.length < h → st.undo.undoExists h = false
  archived : ∀ i blk, blocks[i]? = some blk →
    st.undo.undoExists (applied + 1 + i) = true →
    readAt (applied + 1 + i) = some blk
  runs : ∀ i, st.undo.undoExists (applied + 1 + i) = true → ∃ tail n,
    st.undo.runBytes (applied + 1 + i) =
      (encodeAll UndoRec.encode (chainSpends (applied + 1) S blocks i) ++
        (usMakeEnd (applied + 1 + i) ++ tail)).take n ∧
    (encodeAll UndoRec.encode
      (((chainOps (applied + 1) S blocks).take p).filterMap
        (ChainOp.undoRec (applied + 1 + i)))).length ≤ n

variable {applied p : Nat} {readAt : Nat → Option Block} {st : Live}

/-- The records of a run are the block's own, and those of the durable spends
are among them. -/
theorem CrashedAt.records (hc : CrashedAt applied S blocks readAt p st) {i : Nat}
    (hslot : st.undo.undoExists (applied + 1 + i) = true) :
    (∀ r ∈ (st.undo.usReadRun (applied + 1 + i)).1,
      r ∈ chainSpends (applied + 1) S blocks i) ∧
    ∀ o c, ChainOp.spend (applied + 1 + i) o c ∈
        (chainOps (applied + 1) S blocks).take p →
      ⟨o, c⟩ ∈ (st.undo.usReadRun (applied + 1 + i)).1 := by
  obtain ⟨tail, n, hbytes, hn⟩ := hc.runs i hslot
  rw [UndoStore.usReadRun_eq, hbytes]
  constructor
  · intro r hr
    exact undo_framed.scan_take_subset _
      (scan_end_take (applied + 1 + i) tail) n hr
  · intro o c hop
    -- the durable spends of the block are the first of its records
    have hpre : ((chainOps (applied + 1) S blocks).take p).filterMap
        (ChainOp.undoRec (applied + 1 + i)) <+:
          chainSpends (applied + 1) S blocks i := by
      rw [← chainOps_spends]
      exact (List.take_prefix p _).filterMap _
    obtain ⟨rest, hrest⟩ := hpre
    rw [← hrest, encodeAll_append, List.append_assoc]
    refine undo_framed.mem_scan_take _ _ hn ?_
    exact List.mem_filterMap.mpr ⟨_, hop, if_pos rfl⟩

theorem CrashedAt.ghosts_lt (hc : CrashedAt applied S blocks readAt p st)
    {k : Nat} (hk : k < ghosts st.undo (applied + 1)) :
    st.undo.undoExists (applied + 1 + k) = true ∧ k < blocks.length := by
  have hslot := ghosts_exists hk
  refine ⟨hslot, ?_⟩
  by_contra hge
  have hnone := hc.noMore (applied + 1 + k) (by omega)
  rw [hslot] at hnone
  cases hnone

/-- The block of a durable operation is one of the ghosts. -/
theorem CrashedAt.lt_ghosts (hc : CrashedAt applied S blocks readAt p st)
    {op : ChainOp} (hop : op ∈ (chainOps (applied + 1) S blocks).take p) :
    ∃ k, op.height = applied + 1 + k ∧ k < ghosts st.undo (applied + 1) := by
  have hheight := chainOps_height (List.mem_of_mem_take hop)
  refine ⟨op.height - (applied + 1), by omega, ?_⟩
  have hle : op.height - applied ≤ ghosts st.undo (applied + 1) :=
    le_ghosts fun k hk => hc.slots op hop _ (by omega) (by omega)
  omega

/-- What a crash leaves can be rolled back: the durable spends have their
records, and the durable outputs belong to the ghosts. -/
theorem CrashedAt.rollable (hc : CrashedAt applied S blocks readAt p st)
    (hv : ChainValid (applied + 1) S blocks)
    (hnew : ∀ i, ∀ o ∈ chainCreated blocks i, S o = none) :
    Rollable S blocks (fun k => (st.undo.usReadRun (applied + 1 + k)).1)
      (ghosts st.undo (applied + 1)) st.coins := by
  have hcase : ∀ o, st.coins o = S o ∨
      ∃ op ∈ (chainOps (applied + 1) S blocks).take p,
        op.entry.1 = o ∧ st.coins o = op.entry.2 := by
    intro o
    rw [hc.coins]
    rcases replayLog_apply S
      (((chainOps (applied + 1) S blocks).take p).map ChainOp.entry) o with
      h | ⟨e, he, hkey, hval⟩
    · exact Or.inl h
    · obtain ⟨op, hop, rfl⟩ := List.mem_map.mp he
      exact Or.inr ⟨op, hop, hkey, hval⟩
  constructor
  · intro o hS hne
    rcases hcase o with h | ⟨op, hop, hkey, hval⟩
    · exact absurd (h.trans hS) hne
    · obtain ⟨k, hk, hlt⟩ := hc.lt_ghosts hop
      cases op with
      | spend h' o' c' => exact absurd hval hne
      | create h' o' c' =>
          change o' = o at hkey
          subst hkey
          have hmem := chainOps_created (List.mem_of_mem_take hop)
          obtain ⟨i, blk, hi, hblk, ho⟩ := mem_chainCreated.mp hmem
          simp only [ChainOp.height] at hk
          exact mem_chainCreated.mpr ⟨i, blk, by omega, hblk, ho⟩
  · intro o c hS
    rcases hcase o with h | ⟨op, hop, hkey, hval⟩
    · exact Or.inl (h.trans hS)
    · obtain ⟨k, hk, hlt⟩ := hc.lt_ghosts hop
      cases op with
      | spend h' o' c' =>
          change o' = o at hkey
          subst hkey
          simp only [ChainOp.height] at hk
          subst hk
          have hslot := (hc.ghosts_lt hlt).1
          have hmem := (hc.records hslot).2 o' c' hop
          have hspent := (hc.records hslot).1 _ hmem
          rcases chainSpends_recorded hv hspent with hcre | hcoin
          · rw [hnew _ o' hcre] at hS
            cases hS
          · rw [hS] at hcoin
            cases hcoin
            exact Or.inr ⟨hval, k, hlt, hmem⟩
      | create h' o' c' =>
          change o' = o at hkey
          subst hkey
          have hmem := chainOps_created (List.mem_of_mem_take hop)
          rw [hnew _ o' hmem] at hS
          cases hS

/-- The sample block's run, torn inside its second record. -/
def tornStore : UndoStore where
  rev := fun file =>
    if file = 0 then
      (encodeAll UndoRec.encode
        (chainSpends 5 sampleLive.coins [sampleBlock] 0) ++ usMakeEnd 5).take 60
    else []
  idx := fun h => if h = 5 then some ⟨0, 0⟩ else none
  idxEnd := 6
  idx_end := fun h hh => if_neg (by omega)
  curFile := 0
  fd := none

/-- The coinbase's output and the first spend are durable. -/
def tornLive : Live :=
  ⟨replayLog sampleLive.coins
      (((chainOps 5 sampleLive.coins [sampleBlock]).take 2).map ChainOp.entry),
    [], tornStore, false⟩

def sampleArchive (h : Nat) : Option Block :=
  if h = 5 then some sampleBlock else none

theorem tornStore_exists {h : Nat} (hslot : tornStore.undoExists h = true) :
    h = 5 := by
  by_contra hne
  simp [UndoStore.undoExists, tornStore, hne] at hslot

theorem tornLive_crashedAt :
    CrashedAt 4 sampleLive.coins [sampleBlock] sampleArchive 2 tornLive where
  coins := rfl
  consistent := rfl
  slots := by
    intro op hop h hlow hhigh
    have hheight := chainOps_height (List.mem_of_mem_take hop)
    rw [List.length_singleton] at hheight
    have hh : h = 5 := by omega
    subst hh
    rfl
  noMore := by
    intro h hh
    have hne : h ≠ 5 := by
      rw [List.length_singleton] at hh
      omega
    simp [UndoStore.undoExists, tornLive, tornStore, hne]
  archived := by
    intro i blk hblk hslot
    have hi : i = 0 := by
      have := tornStore_exists hslot
      omega
    subst hi
    cases hblk
    rfl
  runs := by
    intro i hslot
    have hi : i = 0 := by
      have := tornStore_exists hslot
      omega
    subst hi
    exact ⟨[], 60, by rfl, by decide⟩

end BitcoinMachineCode.Storage
