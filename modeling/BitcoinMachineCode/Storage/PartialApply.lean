import BitcoinMachineCode.Storage.Disconnect

/-!
# A block whose apply fails

What `rollback_partial_apply` leaves behind when one operation of a block's
walk fails.  The log of coin operations is followed prefix by prefix, since any
prefix of it may be what reached the disk: as long as the undo slot stands,
every old coin that is missing from the replay of a prefix must have a record
in the run.
-/

namespace BitcoinMachineCode.Storage

open BitcoinMachineCode.Foundation

variable {h : Nat} {S : CoinSet} {recs : List UndoRec} {ks : List Outpoint}

/-! ## The log -/

def replayLog (s : CoinSet) (log : List (Outpoint × Option Coin)) : CoinSet :=
  log.foldl (fun s e => s.set e.1 e.2) s

theorem replayLog_snoc (s : CoinSet) (log : List (Outpoint × Option Coin))
    (e : Outpoint × Option Coin) :
    replayLog s (log ++ [e]) = (replayLog s log).set e.1 e.2 :=
  List.foldl_append

/-- From `st₀` to `st` the log grew, and every prefix of what was added leaves
the coins in `P`: any of them may be what is durable. -/
def Logged (P : CoinSet → Prop) (st₀ st : Live) : Prop :=
  ∃ new, st.log = st₀.log ++ new ∧ st.coins = replayLog st₀.coins new ∧
    ∀ n, P (replayLog st₀.coins (new.take n))

namespace Logged

variable {P : CoinSet → Prop} {st₀ st st' : Live}

theorem refl (hP : P st.coins) : Logged P st st := by
  refine ⟨[], (List.append_nil _).symm, rfl, ?_⟩
  intro n
  rw [List.take_nil]
  exact hP

theorem last (hl : Logged P st₀ st) : P st.coins := by
  obtain ⟨new, -, hcoins, hall⟩ := hl
  have hfull := hall new.length
  rwa [List.take_length, ← hcoins] at hfull

theorem snoc (hl : Logged P st₀ st) {e : Outpoint × Option Coin}
    (hlog : st'.log = st.log ++ [e]) (hcoins : st'.coins = st.coins.set e.1 e.2)
    (hP : P st'.coins) : Logged P st₀ st' := by
  obtain ⟨new, hnew, hold, hall⟩ := hl
  have hreplay : st'.coins = replayLog st₀.coins (new ++ [e]) := by
    rw [hcoins, replayLog_snoc, hold]
  refine ⟨new ++ [e], by rw [hlog, hnew, List.append_assoc], hreplay, ?_⟩
  intro n
  rcases Nat.lt_or_ge new.length n with hn | hn
  · rw [List.take_of_length_le (by simp; omega), ← hreplay]
    exact hP
  · rw [List.take_append_of_le_length hn]
    exact hall n

theorem mono {Q : CoinSet → Prop} (hl : Logged P st₀ st) (hPQ : ∀ s, P s → Q s) :
    Logged Q st₀ st := by
  obtain ⟨new, hnew, hcoins, hall⟩ := hl
  exact ⟨new, hnew, hcoins, fun n => hPQ _ (hall n)⟩

end Logged

theorem Reversible.mono {s : CoinSet} (hr : Reversible S s recs ks)
    {r : UndoRec} (hrec : r.o ∉ ks → S r.o = some r.coin) :
    Reversible S s (recs ++ [r]) ks where
  kept := hr.kept
  recorded := by
    intro r' hmem hks
    rcases List.mem_append.mp hmem with hold | hnew
    · exact hr.recorded r' hold hks
    · cases List.mem_singleton.mp hnew
      exact hrec hks
  lost := fun k hks hnone c hc =>
    List.mem_append_left _ (hr.lost k hks hnone c hc)

/-- Putting an old coin back. -/
theorem Reversible.restore {s : CoinSet} (hr : Reversible S s recs ks)
    {r : UndoRec} (hold : r.o ∉ ks → S r.o = some r.coin) :
    Reversible S (s.put r.o r.coin) recs ks where
  kept := by
    intro k hks
    by_cases hk : k = r.o
    · subst hk
      exact Or.inl (by rw [PMap.put_self, hold hks])
    · rw [PMap.put_of_ne s r.coin hk]
      exact hr.kept k hks
  recorded := hr.recorded
  lost := by
    intro k hks hnone
    by_cases hk : k = r.o
    · rw [hk, PMap.put_self] at hnone
      cases hnone
    · rw [PMap.put_of_ne s r.coin hk] at hnone
      exact hr.lost k hks hnone

/-! ## The walk under failures -/

/-- Where a failing apply is: its log since the call, and what its undo run
holds. -/
structure Walked (h : Nat) (st₀ st : Live) (recs : List UndoRec)
    (ks : List Outpoint) (bytes : List UInt8) : Prop where
  run : st.undo.Writing h bytes
  consistent : st.inconsistent = false
  log : Logged (fun s => Reversible st₀.coins s recs ks) st₀ st

variable {st₀ st : Live} {bytes : List UInt8}

theorem Walked.reversible (hw : Walked h st₀ st recs ks bytes) :
    Reversible st₀.coins st.coins recs ks := hw.log.last

/-- A log entry that keeps the set reversible. -/
theorem Walked.logged (hw : Walked h st₀ st recs ks bytes) {st' : Live}
    {e : Outpoint × Option Coin} (hundo : st'.undo = st.undo)
    (hcons : st'.inconsistent = st.inconsistent)
    (hlog : st'.log = st.log ++ [e])
    (hcoins : st'.coins = st.coins.set e.1 e.2)
    (hrev : Reversible st₀.coins st'.coins recs ks) :
    Walked h st₀ st' recs ks bytes :=
  ⟨hundo ▸ hw.run, hcons.trans hw.consistent, hw.log.snoc hlog hcoins hrev⟩

theorem Walked.put (hw : Walked h st₀ st recs ks bytes) {o : Outpoint}
    {c : Coin} (hrev : Reversible st₀.coins (st.coins.put o c) recs ks) :
    Walked h st₀ (st.put o c) recs ks bytes :=
  hw.logged rfl rfl rfl rfl hrev

theorem Walked.del (hw : Walked h st₀ st recs ks bytes) {o : Outpoint}
    (hrev : Reversible st₀.coins (st.coins.del o) recs ks) :
    Walked h st₀ (st.del o) recs ks bytes :=
  hw.logged rfl rfl rfl rfl hrev

/-- Operations on outputs of the block itself. -/
theorem Walked.put_created (hw : Walked h st₀ st recs ks bytes) {o : Outpoint}
    (ho : o ∈ ks) (c : Coin) : Walked h st₀ (st.put o c) recs ks bytes :=
  hw.put (hw.reversible.of_eq_off fun _ hk =>
    PMap.put_of_ne st.coins c fun hko => hk (hko ▸ ho))

theorem Walked.del_created (hw : Walked h st₀ st recs ks bytes) {o : Outpoint}
    (ho : o ∈ ks) : Walked h st₀ (st.del o) recs ks bytes :=
  hw.del (hw.reversible.of_eq_off fun _ hk =>
    PMap.del_of_ne st.coins fun hko => hk (hko ▸ ho))

/-- A whole undo record for a coin that is there. -/
theorem Walked.record (hw : Walked h st₀ st recs ks bytes) {o : Outpoint}
    {c : Coin} (ho : st.coins o = some c) :
    Walked h st₀
      { st with undo := (st.undo.undoAppendRecord h ⟨o, c⟩ .whole).1 }
      (recs ++ [⟨o, c⟩]) ks (bytes ++ UndoRec.encode ⟨o, c⟩) := by
  have hrec : o ∉ ks → st₀.coins o = some c := by
    intro hks
    rcases hw.reversible.kept o hks with h | h
    · rw [← h, ho]
    · rw [ho] at h
      cases h
  exact ⟨hw.run.undoAppendRecord_whole ⟨o, c⟩, hw.consistent,
    hw.log.mono fun _ hr => hr.mono hrec⟩

/-- A failed undo write. -/
theorem Walked.short (hw : Walked h st₀ st recs ks bytes) (r : UndoRec)
    (n : Nat) :
    Walked h st₀
      { st with undo := (st.undo.undoAppendRecord h r (.short n)).1 }
      recs ks (bytes ++ r.encode.take n) :=
  ⟨hw.run.undoAppendRecord_short r n, hw.consistent, hw.log⟩

/-- The spend that follows its record. -/
theorem Walked.spend (hw : Walked h st₀ st recs ks bytes) {o : Outpoint}
    {c : Coin} (ho : st.coins o = some c) :
    Walked h st₀
      (Live.del
        { st with undo := (st.undo.undoAppendRecord h ⟨o, c⟩ .whole).1 } o)
      (recs ++ [⟨o, c⟩]) ks (bytes ++ UndoRec.encode ⟨o, c⟩) :=
  (hw.record ho).del (hw.reversible.spend ho)

/-- One input, whatever fails, as long as no part of a record is left. -/
theorem Walked.input {fault : Option OpFault}
    (hw : Walked h st₀ st recs ks (encodeAll UndoRec.encode recs))
    (hpart : ∀ n, fault = some (.append n) → n = 0) {o : Outpoint}
    (hpres : o = nullOutpoint ∨ ∃ c, st.coins o = some c) :
    (∃ recs', Walked h st₀ (liveOnInput h fault st o).1 recs' ks
        (encodeAll UndoRec.encode recs')) ∧
      ∀ x, x ≠ o → (liveOnInput h fault st o).1.coins x = st.coins x := by
  by_cases hnull : o = nullOutpoint
  · simp only [liveOnInput, hnull, if_true, implies_true, and_true]
    exact ⟨recs, hw⟩
  · obtain hbad | ⟨c, hc⟩ := hpres
    · exact absurd hbad hnull
    · have henc : encodeAll UndoRec.encode (recs ++ [⟨o, c⟩]) =
          encodeAll UndoRec.encode recs ++ UndoRec.encode ⟨o, c⟩ := by
        simp [encodeAll_append]
      have hspend := hw.spend hc
      have hrecord := hw.record hc
      rw [← henc] at hspend hrecord
      have hdel : ∀ x, x ≠ o → st.coins.del o x = st.coins x :=
        fun x hx => PMap.del_of_ne st.coins hx
      simp only [liveOnInput, hnull, if_false, hc]
      rcases fault with _ | n | took | took
      · exact ⟨⟨_, hspend⟩, hdel⟩
      · have hn : n = 0 := hpart n rfl
        subst hn
        have hshort := hw.short ⟨o, c⟩ 0
        rw [List.take_zero, List.append_nil] at hshort
        exact ⟨⟨_, hshort⟩, fun _ _ => rfl⟩
      · cases took
        · exact ⟨⟨_, hrecord⟩, fun _ _ => rfl⟩
        · exact ⟨⟨_, hspend⟩, hdel⟩
      · exact ⟨⟨_, hspend⟩, hdel⟩

/-- One output, whatever fails. -/
theorem Walked.output {fault : Option OpFault}
    (hw : Walked h st₀ st recs ks bytes) {o : Outpoint} {out : TxOut}
    {isCoinbase : Bool}
    (hks : ∀ x ∈ created [.output o out isCoinbase], x ∈ ks) :
    Walked h st₀ (liveOnOutput h fault st o out isCoinbase).1 recs ks bytes := by
  simp only [liveOnOutput]
  cases hcoin : outputCoin h isCoinbase out with
  | none => exact hw
  | some c =>
      have ho : o ∈ ks := by
        apply hks
        rw [created, List.mem_filterMap]
        exact ⟨_, List.mem_cons_self, by
          rw [created_output h, hcoin]
          rfl⟩
      have hput := hw.put_created ho c
      have hover := (hw.del_created ho).put_created ho c
      rcases fault with _ | n | took | took
      · simp only
        split_ifs <;> assumption
      · simp only
        split_ifs <;> assumption
      · simp only
        split_ifs <;> assumption
      · cases took
        · exact hw
        · exact hput

theorem runEvents_append (h : Nat) (faults : Faults) (pos : Nat)
    (xs ys : List WalkEvent) (st : Live) :
    runEvents h faults pos (xs ++ ys) st =
      ((runEvents h faults (pos + xs.length) ys
          (runEvents h faults pos xs st).1).1,
        (runEvents h faults pos xs st).2 ||
          (runEvents h faults (pos + xs.length) ys
            (runEvents h faults pos xs st).1).2) := by
  induction xs generalizing pos st with
  | nil => simp [runEvents]
  | cons x xs ih =>
      simp only [List.cons_append, runEvents, ih, List.length_cons,
        Bool.or_assoc]
      rw [show pos + 1 + xs.length = pos + (xs.length + 1) by omega]

theorem Walked.inputs {faults : Faults} {pos : Nat} {ins : List Outpoint}
    {t : CoinSet}
    (hw : Walked h st₀ st recs ks (encodeAll UndoRec.encode recs))
    (hpart : ∀ p n, faults p = some (.append n) → n = 0)
    (hv : ValidOn h t (ins.map WalkEvent.input))
    (hsup : ∀ x c, t x = some c → st.coins x = some c) :
    ∃ recs', Walked h st₀
      (runEvents h faults pos (ins.map WalkEvent.input) st).1 recs' ks
      (encodeAll UndoRec.encode recs') := by
  induction ins generalizing st recs pos t with
  | nil => exact ⟨recs, hw⟩
  | cons o ins ih =>
      obtain ⟨ho, hrest⟩ := hv
      have hpres : o = nullOutpoint ∨ ∃ c, st.coins o = some c := by
        rcases ho with hnull | ⟨c, hc⟩
        · exact Or.inl hnull
        · exact Or.inr ⟨c, hsup o c hc⟩
      obtain ⟨⟨recs', hw'⟩, hframe⟩ := hw.input (hpart pos) hpres
      have hsup' : ∀ x c, applyEvent h t (.input o) x = some c →
          (liveOnInput h (faults pos) st o).1.coins x = some c := by
        intro x c hx
        simp only [applyEvent] at hx
        by_cases hnull : o = nullOutpoint
        · rw [if_pos hnull] at hx
          simpa [liveOnInput, hnull] using hsup x c hx
        · rw [if_neg hnull] at hx
          by_cases hxo : x = o
          · rw [hxo, PMap.del_self] at hx
            cases hx
          · rw [PMap.del_of_ne t hxo] at hx
            rw [hframe x hxo]
            exact hsup x c hx
      exact ih hw' hrest hsup'

theorem Walked.outputs {faults : Faults} {pos : Nat}
    {outs : List WalkEvent} (hw : Walked h st₀ st recs ks bytes)
    (houts : ∀ e ∈ outs, ∃ o out isCoinbase, e = .output o out isCoinbase)
    (hks : ∀ o ∈ created outs, o ∈ ks) :
    Walked h st₀ (runEvents h faults pos outs st).1 recs ks bytes := by
  induction outs generalizing st pos with
  | nil => exact hw
  | cons e outs ih =>
      have hks' : ∀ o ∈ created [e] ++ created outs, o ∈ ks := by
        rw [← created_append]
        exact hks
      obtain ⟨o, out, isCoinbase, rfl⟩ := houts e List.mem_cons_self
      apply ih
      · exact hw.output fun x hx => hks' x (List.mem_append_left _ hx)
      · exact fun e' he' => houts e' (List.mem_cons_of_mem _ he')
      · exact fun x hx => hks' x (List.mem_append_right _ hx)

/-- The outputs' part of a transaction's walk. -/
def outputEvents (isCoinbase : Bool) (tx : Tx) : List WalkEvent :=
  tx.outputs.zipIdx.map fun p =>
    WalkEvent.output ⟨tx.txid, UInt32.ofNat p.2⟩ p.1 isCoinbase

theorem walkTxIo_eq (isCoinbase : Bool) (tx : Tx) :
    walkTxIo isCoinbase tx =
      tx.inputs.map WalkEvent.input ++ outputEvents isCoinbase tx := rfl

theorem mem_outputEvents {isCoinbase : Bool} {tx : Tx} {e : WalkEvent}
    (he : e ∈ outputEvents isCoinbase tx) :
    ∃ o out isCoinbase', e = .output o out isCoinbase' := by
  obtain ⟨p, -, rfl⟩ := List.mem_map.mp he
  exact ⟨_, _, _, rfl⟩

theorem created_inputs (ins : List Outpoint) :
    created (ins.map WalkEvent.input) = [] := by
  rw [created, List.filterMap_map]
  exact List.filterMap_none ins

/-- A transaction, whatever fails in it. -/
theorem Walked.tx {faults : Faults} {pos : Nat} {isCoinbase : Bool} {tx : Tx}
    (hw : Walked h st₀ st recs ks (encodeAll UndoRec.encode recs))
    (hpart : ∀ p n, faults p = some (.append n) → n = 0)
    (hv : ValidOn h st.coins (walkTxIo isCoinbase tx))
    (hks : ∀ o ∈ created (walkTxIo isCoinbase tx), o ∈ ks) :
    ∃ recs', Walked h st₀
      (runEvents h faults pos (walkTxIo isCoinbase tx) st).1 recs' ks
      (encodeAll UndoRec.encode recs') := by
  rw [walkTxIo_eq] at hv hks ⊢
  rw [validOn_append] at hv
  rw [created_append, created_inputs, List.nil_append] at hks
  obtain ⟨recs', hins⟩ := hw.inputs hpart hv.1 (fun _ _ hx => hx)
  rw [runEvents_append]
  exact ⟨recs', hins.outputs (fun _ he => mem_outputEvents he) hks⟩

/-- A walk that reports no failure, with the records it has written. -/
theorem Walked.clean {faults : Faults} {pos : Nat} {es : List WalkEvent}
    (hw : Walked h st₀ st recs ks bytes)
    (hok : (runEvents h faults pos es st).2 = false)
    (hks : ∀ o ∈ created es, o ∈ ks) :
    Walked h st₀ (runEvents h faults pos es st).1
      (recs ++ spentRecs h st.coins es) ks
      (bytes ++ encodeAll UndoRec.encode (spentRecs h st.coins es)) := by
  induction es generalizing st recs pos bytes with
  | nil => simpa [runEvents, spentRecs] using hw
  | cons e es ih =>
      have hks' : ∀ o ∈ created [e] ++ created es, o ∈ ks := by
        rw [← created_append]
        exact hks
      simp only [runEvents, Bool.or_eq_false_iff] at hok ⊢
      obtain ⟨⟨hcoins, -⟩, -⟩ := liveOnEvent_clean hw.run hok.1
      have hstep : Walked h st₀ (liveOnEvent h (faults pos) st e).1
          (recs ++ eventRecs st.coins e) ks
          (bytes ++ encodeAll UndoRec.encode (eventRecs st.coins e)) := by
        cases e with
        | input o =>
            have hok' := hok.1
            simp only [liveOnEvent, liveOnInput] at hok' ⊢
            by_cases hnull : o = nullOutpoint
            · simpa [hnull, eventRecs] using hw
            · cases hc : st.coins o with
              | none => simp [hnull, hc] at hok'
              | some c =>
                  have hspend := hw.spend hc
                  rcases hf : faults pos with _ | _ | _ | _ <;>
                    simp [hf, hnull, hc] at hok'
                  · simpa [hf, hnull, hc, eventRecs] using hspend
                  · simpa [hf, hnull, hc, eventRecs] using hspend
        | output o out isCoinbase =>
            simpa [eventRecs, liveOnEvent] using
              hw.output fun x hx => hks' x (List.mem_append_left _ hx)
      have hrest := ih hstep hok.2 fun x hx =>
        hks' x (List.mem_append_right _ hx)
      rw [hcoins] at hrest
      simpa only [spentRecs, encodeAll_append, List.append_assoc] using hrest

/-! ## The rollback -/

/-- Restoring what the reader gave, when it gives the old set back. -/
theorem Walked.restoreRun (hw : Walked h st₀ st recs ks bytes)
    {rs : List UndoRec}
    (hrs : ∀ k, k ∉ ks →
      st.coins.restoreAll (rs.map UndoRec.entry) k = st₀.coins k) :
    Walked h st₀ (restoreRun st rs) recs ks bytes := by
  induction rs generalizing st with
  | nil => exact hw
  | cons r rs ih =>
      rw [Storage.restoreRun, List.foldl_cons, ← Storage.restoreRun]
      simp only [List.map_cons, PMap.restoreAll_cons] at hrs
      have hstep := restoreRun_coins hw.consistent [r]
      change (undoRestoreCb st r).coins = st.coins.restore r.entry at hstep
      rw [← hstep] at hrs
      refine ih ?_ hrs
      rw [undoRestoreCb] at hrs ⊢
      split
      · exact hw
      · rename_i habs
        rw [if_neg habs] at hrs
        refine hw.put (hw.reversible.restore fun hks => ?_)
        rw [← hrs r.o hks]
        exact PMap.restoreAll_of_some (PMap.put_self st.coins r.o r.coin)

theorem Walked.delCreated (hw : Walked h st₀ st recs ks bytes)
    {evs : List WalkEvent} (hks : ∀ o ∈ created evs, o ∈ ks) :
    Walked h st₀ (delCreated st evs) recs ks bytes := by
  rw [Storage.delCreated]
  revert hks
  generalize created evs = os
  intro hks
  induction os generalizing st with
  | nil => exact hw
  | cons o os ih =>
      refine ih ?_ fun o' ho' => hks o' (List.mem_cons_of_mem _ ho')
      rw [delCreatedOutpoint]
      split
      · exact hw.del_created (hks o List.mem_cons_self)
      · exact hw

/-- A failed apply that left nothing behind: the coin set is the old one, and
whatever prefix of the log is durable (all of it, once the slot is cleared),
every old coin is in its replay or has a record in the height's run. -/
structure Undone (h : Nat) (st st' : Live) : Prop where
  coins : ∀ o, st'.coins o = st.coins o
  durable : ∀ n,
    (st'.undo.idx h = none → st'.log.length ≤ st.log.length + n) →
    ∀ o c, st.coins o = some c →
      replayLog st.coins ((st'.log.drop st.log.length).take n) o = some c ∨
        ⟨o, c⟩ ∈ (st'.undo.usReadRun h).1

theorem Undone.refl (h : Nat) {st st' : Live} (hcoins : st'.coins = st.coins)
    (hlog : st'.log = st.log) : Undone h st st' where
  coins := fun o => by rw [hcoins]
  durable := by
    intro n _ o c hc
    have hnew : (st'.log.drop st.log.length).take n = [] := by simp [hlog]
    rw [hnew]
    exact Or.inl hc

/-- As long as the slot stands, the run has what any prefix has lost. -/
theorem Walked.durable (hw : Walked h st₀ st recs ks bytes)
    (hfresh : ∀ k ∈ ks, st₀.coins k = none)
    (hread : ∀ r ∈ recs, r.o ∉ ks → r ∈ (scan undoNext bytes).1) (n : Nat)
    {o : Outpoint} {c : Coin} (hc : st₀.coins o = some c) :
    replayLog st₀.coins ((st.log.drop st₀.log.length).take n) o = some c ∨
      ⟨o, c⟩ ∈ (st.undo.usReadRun h).1 := by
  obtain ⟨new, hnew, -, hsafe⟩ := hw.log
  have hks : o ∉ ks := by
    intro hmem
    rw [hfresh o hmem] at hc
    cases hc
  rw [hnew, List.drop_left, hw.run.hasRun.usReadRun]
  rcases (hsafe n).kept o hks with hkept | hnone
  · exact Or.inl (hkept.trans hc)
  · exact Or.inr (hread _ ((hsafe n).lost o hks hnone c hc) hks)

/-- The discard after a reversal that gave the coin set back. -/
theorem Walked.undone (hw : Walked h st₀ st recs ks bytes)
    (hfresh : ∀ k ∈ ks, st₀.coins k = none)
    (hread : ∀ r ∈ recs, r.o ∉ ks → r ∈ (scan undoNext bytes).1)
    (hcoins : st.coins = st₀.coins) (hookOk : Bool) :
    Undone h st₀ (st.undoDiscard h hookOk).undoCloseCurrent where
  coins := fun o => by
    change st.coins o = _
    rw [hcoins]
  durable := by
    intro n hn o c hc
    have hslot := hw.run.hasRun.undoExists
    have hexists : ∀ d : UndoStore, d.undoExists h = true →
        (if (d.fd.map Prod.fst) = some h then d.undoCloseCurrent
          else d).undoExists h = true := by
      intro d hd
      split
      · exact hd
      · exact hd
    cases hookOk with
    | true =>
        -- the slot is gone, and the whole log was drained before
        left
        have hcleared : (st.undo.undoDiscard h true).idx h = none := by
          simp [UndoStore.undoDiscard, UndoStore.usSlotClear]
        have hfull : st.log.length ≤ st₀.log.length + n := hn hcleared
        obtain ⟨new, hnew, hreplay, -⟩ := hw.log
        change replayLog st₀.coins ((st.log.drop st₀.log.length).take n) o = _
        rw [hnew, List.length_append] at hfull
        rw [hnew, List.drop_left, List.take_of_length_le (by omega), ← hreplay,
          hcoins, hc]
    | false =>
        have hkept : (st.undo.undoDiscard h false).usReadRun h =
            st.undo.usReadRun h := by
          simp only [UndoStore.undoDiscard, hexists st.undo hslot,
            Bool.not_false, Bool.and_self, if_true]
          split <;> rfl
        have hdur := hw.durable hfresh hread n hc
        rw [← hkept] at hdur
        exact hdur

/-- What the strict replay restores from a run of these bytes. -/
def strictRead (bytes : List UInt8) : List UndoRec :=
  if (scan undoNext bytes).2 then [] else (scan undoNext bytes).1

theorem strictRead_encodeAll (rs : List UndoRec) :
    strictRead (encodeAll UndoRec.encode rs) = rs := by
  simp [strictRead, undo_framed.scan_whole]

theorem rollbackPartialApply_eq (hrun : st.undo.HasRun h bytes)
    (txs : List Tx) (hookOk : Bool) :
    rollbackPartialApply h txs hookOk st =
      (delCreated (restoreRun st (strictRead bytes))
        (walkBlockTxs txs)).undoDiscard h hookOk := by
  rw [rollbackPartialApply, UndoStore.undoReplay, hrun.usReadRun, strictRead]
  cases (scan undoNext bytes).2 <;> rfl

/-- Every outpoint the walk emptied, and every one that was never there, comes
out of the records as the old set has it. -/
def ReadsBack (S : CoinSet) (spent : List UndoRec) (ks : List Outpoint)
    (rs : List UndoRec) : Prop :=
  ∀ k, k ∉ ks → k ∈ spent.map UndoRec.o ∨ S k = none →
    (rs.find? fun r => r.o = k).map UndoRec.coin = S k

theorem readsBack_iff {s : CoinSet} (hr : Reversible S s recs ks)
    (hgone : ∀ r ∈ recs, r.o ∉ ks → s r.o = none) (rs : List UndoRec) :
    ReadsBack S recs ks rs ↔
      ∀ k, k ∉ ks → s.restoreAll (rs.map UndoRec.entry) k = S k := by
  have hfind : ∀ k, ((rs.map UndoRec.entry).find? fun e => e.1 = k).map
      Prod.snd = (rs.find? fun r => r.o = k).map UndoRec.coin := by
    intro k
    rw [List.find?_map, Option.map_map]
    rfl
  have habs : ∀ k, k ∉ ks → k ∈ recs.map UndoRec.o ∨ S k = none →
      s k = none := by
    rintro k hks (hmem | hnone)
    · obtain ⟨r, hr', rfl⟩ := List.mem_map.mp hmem
      exact hgone r hr' hks
    · rcases hr.kept k hks with h | h
      · rw [h, hnone]
      · exact h
  constructor
  · intro hback k hks
    rw [PMap.restoreAll_apply, hfind]
    rcases hr.kept k hks with hkept | hnone
    · cases hS : S k with
      | some c => rw [hkept, hS]
      | none =>
          rw [hkept, hS]
          exact (hback k hks (Or.inr hS)).trans hS
    · rw [hnone]
      refine hback k hks ?_
      cases hS : S k with
      | none => exact Or.inr rfl
      | some c =>
          exact Or.inl (List.mem_map.mpr ⟨_, hr.lost k hks hnone c hS, rfl⟩)
  · intro hall k hks hcase
    have hk := hall k hks
    rw [PMap.restoreAll_apply, hfind, habs k hks hcase] at hk
    exact hk

/-- A rollback whose replay gives the old coins. -/
theorem Walked.rollback_of_read {txs : List Tx}
    (hw : Walked h st₀ st recs (created (walkBlockTxs txs)) bytes)
    (hfresh : ∀ k ∈ created (walkBlockTxs txs), st₀.coins k = none)
    (hread : ∀ r ∈ recs, r.o ∉ created (walkBlockTxs txs) →
      r ∈ (scan undoNext bytes).1)
    (hback : ∀ k, k ∉ created (walkBlockTxs txs) →
      st.coins.restoreAll ((strictRead bytes).map UndoRec.entry) k =
        st₀.coins k)
    (hookOk : Bool) :
    Undone h st₀ (rollbackPartialApply h txs hookOk st).undoCloseCurrent := by
  rw [rollbackPartialApply_eq hw.run.hasRun]
  have hdeleted := (hw.restoreRun hback).delCreated fun o ho => ho
  refine hdeleted.undone hfresh hread ?_ hookOk
  funext k
  rw [delCreated_coins, restoreRun_coins hw.consistent, PMap.delAll_apply]
  by_cases hks : k ∈ created (walkBlockTxs txs)
  · rw [if_pos hks, hfresh k hks]
  · rw [if_neg hks, hback k hks]

/-- Reversing a run that holds only whole records. -/
theorem Walked.rollback {txs : List Tx}
    (hw : Walked h st₀ st recs (created (walkBlockTxs txs))
      (encodeAll UndoRec.encode recs))
    (hfresh : ∀ k ∈ created (walkBlockTxs txs), st₀.coins k = none)
    (hookOk : Bool) :
    Undone h st₀ (rollbackPartialApply h txs hookOk st).undoCloseCurrent := by
  refine hw.rollback_of_read hfresh ?_ ?_ hookOk
  · intro r hr _
    rw [undo_framed.scan_whole]
    exact hr
  · intro k hks
    have hall := congrFun (hw.reversible.reverse hfresh) k
    rwa [PMap.delAll_apply, if_neg hks, ← strictRead_encodeAll recs] at hall

/-- A rollback over any run, once every recorded coin is gone: it reverses the
walk exactly when the strict replay reads the old coins back. -/
theorem Walked.rollback_iff {txs : List Tx}
    (hw : Walked h st₀ st recs (created (walkBlockTxs txs)) bytes)
    (hfresh : ∀ k ∈ created (walkBlockTxs txs), st₀.coins k = none)
    (hgone : ∀ r ∈ recs, r.o ∉ created (walkBlockTxs txs) →
      st.coins r.o = none)
    (hookOk : Bool) :
    Undone h st₀ (rollbackPartialApply h txs hookOk st).undoCloseCurrent ↔
      ReadsBack st₀.coins recs (created (walkBlockTxs txs))
        (strictRead bytes) := by
  have hiff := readsBack_iff hw.reversible hgone (strictRead bytes)
  constructor
  · intro hundone
    refine hiff.mpr fun k hks => ?_
    have hcoins := hundone.coins k
    rw [rollbackPartialApply_eq hw.run.hasRun] at hcoins
    simpa only [Live.undoCloseCurrent_coins, Live.undoDiscard_coins,
      delCreated_coins, PMap.delAll_apply, hks, if_false,
      restoreRun_coins hw.consistent] using hcoins
  · intro hback
    refine hw.rollback_of_read hfresh ?_ (hiff.mp hback) hookOk
    -- the reader has a record for a lost coin, and the first is the coin's own
    intro r hr hks
    have hfirst := hback r.o hks (Or.inl (List.mem_map_of_mem hr))
    rw [hw.reversible.recorded r hr hks, Option.map_eq_some_iff] at hfirst
    obtain ⟨q, hfind, hcoin⟩ := hfirst
    have hq : q = r := by
      have hkey : q.o = r.o := by simpa using List.find?_some hfind
      cases q
      cases r
      simp_all
    have hmem := List.mem_of_find?_eq_some hfind
    rw [hq, strictRead] at hmem
    split at hmem
    · simp at hmem
    · exact hmem

/-- An apply whose failing writes left no part of a record is undone. -/
theorem applyTxs_undone {env : ApplyEnv} {txs done rest : List Tx} {pos : Nat}
    (htxs : txs = done ++ rest)
    (hw : ∀ ks, (∀ o ∈ created (walkBlockTxs done), o ∈ ks) →
      Walked h st₀ st recs ks (encodeAll UndoRec.encode recs))
    (hv : ValidOn h st.coins (walkFrom done.length rest))
    (hfresh : ∀ k ∈ created (walkBlockTxs txs), st₀.coins k = none)
    (hpart : ∀ p n, env.ops p = some (.append n) → n = 0)
    (hfail : (applyTxs h env txs done.length pos rest st).2 = false) :
    Undone h st₀
      (applyTxs h env txs done.length pos rest st).1.undoCloseCurrent := by
  induction rest generalizing st recs done pos with
  | nil => simp [applyTxs] at hfail
  | cons tx rest ih =>
      have hwalk : walkBlockTxs (done ++ [tx]) =
          walkBlockTxs done ++ walkTxIo (done.length == 0) tx := by
        simp [walkBlockTxs, walkFrom_append, walkFrom]
      have htake : txs.take (done.length + 1) = done ++ [tx] := by
        rw [htxs, List.take_length_add_append]
        rfl
      have hdone : ∀ ks : List Outpoint,
          (∀ o ∈ created (walkBlockTxs (done ++ [tx])), o ∈ ks) →
          (∀ o ∈ created (walkBlockTxs done), o ∈ ks) ∧
            ∀ o ∈ created (walkTxIo (done.length == 0) tx), o ∈ ks := by
        intro ks hks
        rw [hwalk, created_append] at hks
        exact ⟨fun o ho => hks o (List.mem_append_left _ ho),
          fun o ho => hks o (List.mem_append_right _ ho)⟩
      rw [walkFrom, validOn_append] at hv
      simp only [applyTxs] at hfail ⊢
      cases hfatal : (runEvents h env.ops pos
          (walkTxIo (done.length == 0) tx) st).2 with
      | true =>
          simp only [if_true, htake]
          obtain ⟨hold, hnew⟩ := hdone _ fun o ho => ho
          obtain ⟨recs', hw'⟩ := (hw _ hold).tx hpart hv.1 hnew
          refine hw'.rollback ?_ env.rollbackHookOk
          intro k hk
          apply hfresh
          rw [htxs, List.append_cons, walkBlockTxs, walkFrom_append,
            created_append]
          exact List.mem_append_left _ hk
      | false =>
          simp only [hfatal, Bool.false_eq_true, if_false] at hfail ⊢
          obtain ⟨⟨hcoins, -⟩, -⟩ :=
            runEvents_clean (hw _ fun o ho => ho).run hfatal
          have hlen : (done ++ [tx]).length = done.length + 1 := by simp
          have hw' : ∀ ks, (∀ o ∈ created (walkBlockTxs (done ++ [tx])), o ∈ ks) →
              Walked h st₀ _ _ ks _ := fun ks hks =>
            (hw ks (hdone ks hks).1).clean hfatal (hdone ks hks).2
          simp only [← encodeAll_append] at hw'
          rw [← hlen] at hfail ⊢
          refine ih (by rw [htxs]; simp) hw' ?_ hfail
          rw [hcoins, hlen]
          exact hv.2

end BitcoinMachineCode.Storage
