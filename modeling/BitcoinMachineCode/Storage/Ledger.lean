import BitcoinMachineCode.Storage.UndoStore

/-!
# What a block does to the coin set

The meaning of a walk, without logs and failures: a spend takes its coin out,
a stored output puts one in, and the undo data is the list of the coins taken
out.  `Reversible` is what every reversal in `daemon/utxo_live.c` rests on: the
set may be anywhere between the old one and the new one, as long as each
lost coin has a record.
-/

namespace BitcoinMachineCode.Storage

open BitcoinMachineCode.Foundation

/-! ## Events -/

/-- A coinbase output overwrites, any other duplicate is declined. -/
def applyEvent (h : Nat) (s : CoinSet) : WalkEvent → CoinSet
  | .input o => if o = nullOutpoint then s else s.del o
  | .output o out isCoinbase =>
      match outputCoin h isCoinbase out with
      | none => s
      | some c => if (s o).isSome && !isCoinbase then s else s.put o c

/-- The undo record of a spend. -/
def eventRecs (s : CoinSet) : WalkEvent → List UndoRec
  | .input o =>
      if o = nullOutpoint then []
      else
        match s o with
        | none => []
        | some c => [⟨o, c⟩]
  | .output _ _ _ => []

def applyEvents (h : Nat) : CoinSet → List WalkEvent → CoinSet
  | s, [] => s
  | s, e :: es => applyEvents h (applyEvent h s e) es

/-- The coins a walk spends, in the order it spends them. -/
def spentRecs (h : Nat) : CoinSet → List WalkEvent → List UndoRec
  | _, [] => []
  | s, e :: es => eventRecs s e ++ spentRecs h (applyEvent h s e) es

/-- A spend finds its coin; a stored output finds its place free. -/
def EventValid (h : Nat) (s : CoinSet) : WalkEvent → Prop
  | .input o => o = nullOutpoint ∨ ∃ c, s o = some c
  | .output o out isCoinbase =>
      ∀ c, outputCoin h isCoinbase out = some c → s o = none

def ValidOn (h : Nat) : CoinSet → List WalkEvent → Prop
  | _, [] => True
  | s, e :: es => EventValid h s e ∧ ValidOn h (applyEvent h s e) es

instance (h : Nat) (s : CoinSet) : (e : WalkEvent) → Decidable (EventValid h s e)
  | .input o =>
      decidable_of_iff (o = nullOutpoint ∨ (s o).isSome = true) (by
        simp [EventValid, Option.isSome_iff_exists])
  | .output o out isCoinbase =>
      decidable_of_iff ((outputCoin h isCoinbase out).isSome = true → s o = none)
        (by simp [EventValid, Option.isSome_iff_exists])

instance decidableValidOn (h : Nat) :
    (s : CoinSet) → (evs : List WalkEvent) → Decidable (ValidOn h s evs)
  | _, [] => isTrue trivial
  | s, e :: es =>
      have := decidableValidOn h (applyEvent h s e) es
      inferInstanceAs (Decidable (EventValid h s e ∧ ValidOn h _ es))

/-- A block valid on a coin set.  Its outputs are new (BIP30), so it does not
overwrite a coin. -/
structure BlockValid (h : Nat) (s : CoinSet) (txs : List Tx) : Prop where
  valid : ValidOn h s (walkBlockTxs txs)
  fresh : ∀ o ∈ created (walkBlockTxs txs), s o = none

instance (h : Nat) (s : CoinSet) (txs : List Tx) :
    Decidable (BlockValid h s txs) :=
  decidable_of_iff
    (ValidOn h s (walkBlockTxs txs) ∧
      ∀ o ∈ created (walkBlockTxs txs), (s o).isNone = true)
    ⟨fun hv => ⟨hv.1, fun o ho => Option.isNone_iff_eq_none.mp (hv.2 o ho)⟩,
      fun hv => ⟨hv.valid, fun o ho =>
        Option.isNone_iff_eq_none.mpr (hv.fresh o ho)⟩⟩

theorem applyEvents_append (h : Nat) (s : CoinSet) (xs ys : List WalkEvent) :
    applyEvents h s (xs ++ ys) = applyEvents h (applyEvents h s xs) ys := by
  induction xs generalizing s with
  | nil => rfl
  | cons x xs ih => exact ih (applyEvent h s x)

theorem spentRecs_append (h : Nat) (s : CoinSet) (xs ys : List WalkEvent) :
    spentRecs h s (xs ++ ys) =
      spentRecs h s xs ++ spentRecs h (applyEvents h s xs) ys := by
  induction xs generalizing s with
  | nil => rfl
  | cons x xs ih =>
      simp only [List.cons_append, spentRecs, applyEvents, ih,
        List.append_assoc]

theorem validOn_append (h : Nat) (s : CoinSet) (xs ys : List WalkEvent) :
    ValidOn h s (xs ++ ys) ↔
      ValidOn h s xs ∧ ValidOn h (applyEvents h s xs) ys := by
  induction xs generalizing s with
  | nil => simp [ValidOn, applyEvents]
  | cons x xs ih =>
      simp only [List.cons_append, ValidOn, applyEvents, ih, and_assoc]

theorem outputCoin_eq_none_iff (h : Nat) (isCoinbase : Bool) (out : TxOut) :
    outputCoin h isCoinbase out = none ↔
      utxoScriptUnspendable out.script = true := by
  rw [outputCoin]
  split <;> simp_all

theorem created_output (h : Nat) (o : Outpoint) (out : TxOut)
    (isCoinbase : Bool) :
    (WalkEvent.output o out isCoinbase).created =
      (outputCoin h isCoinbase out).map fun _ => o := by
  have hnone := outputCoin_eq_none_iff h isCoinbase out
  rw [WalkEvent.created]
  cases hcoin : outputCoin h isCoinbase out with
  | none => simp [hnone.mp hcoin]
  | some c =>
      have hspend : ¬ utxoScriptUnspendable out.script = true := by
        rw [← hnone, hcoin]
        simp
      simp [hspend]

theorem applyEvent_of_absent {h : Nat} {s : CoinSet} {e : WalkEvent}
    {k : Outpoint} (hnone : s k = none) (hk : k ∉ created [e]) :
    applyEvent h s e k = none := by
  cases e with
  | input o =>
      simp only [applyEvent]
      split
      · exact hnone
      · by_cases hko : k = o
        · rw [hko, PMap.del_self]
        · rw [PMap.del_of_ne s hko, hnone]
  | output o out isCoinbase =>
      simp only [applyEvent]
      cases hcoin : outputCoin h isCoinbase out with
      | none => exact hnone
      | some c =>
          have hko : k ≠ o := by
            rintro rfl
            apply hk
            rw [created, List.mem_filterMap]
            exact ⟨_, List.mem_cons_self, by
              rw [created_output h, hcoin]
              rfl⟩
          simp only
          split
          · exact hnone
          · rw [PMap.put_of_ne s c hko, hnone]

/-- What is gone stays gone, unless the walk creates it. -/
theorem applyEvents_of_absent {h : Nat} {s : CoinSet} {evs : List WalkEvent}
    {k : Outpoint} (hnone : s k = none) (hk : k ∉ created evs) :
    applyEvents h s evs k = none := by
  induction evs generalizing s with
  | nil => exact hnone
  | cons e es ih =>
      rw [← List.singleton_append, created_append, List.mem_append, not_or]
        at hk
      exact ih (applyEvent_of_absent hnone hk.1) hk.2

/-- A spent coin is gone, unless the walk creates it. -/
theorem applyEvents_spent {h : Nat} {s : CoinSet} {evs : List WalkEvent}
    {r : UndoRec} (hr : r ∈ spentRecs h s evs) (hk : r.o ∉ created evs) :
    applyEvents h s evs r.o = none := by
  induction evs generalizing s with
  | nil => simp [spentRecs] at hr
  | cons e es ih =>
      rw [← List.singleton_append, created_append, List.mem_append, not_or]
        at hk
      rw [spentRecs, List.mem_append] at hr
      rw [applyEvents]
      rcases hr with hr | hr
      · refine applyEvents_of_absent ?_ hk.2
        cases e with
        | output o out isCoinbase => simp [eventRecs] at hr
        | input o =>
            simp only [eventRecs] at hr
            split at hr
            · simp at hr
            · rename_i hnull
              cases hc : s o with
              | none => simp [hc] at hr
              | some c =>
                  simp only [hc, List.mem_singleton] at hr
                  subst hr
                  simp [applyEvent, hnull]
      · exact ih hr hk.2

/-! ## Reversal -/

def UndoRec.entry (r : UndoRec) : Outpoint × Coin := (r.o, r.coin)

/-- From `s₀` to `s` every coin outside `ks` was kept, or lost to a record of
the value it had. -/
structure Reversible (s₀ s : CoinSet) (recs : List UndoRec)
    (ks : List Outpoint) : Prop where
  kept : ∀ k, k ∉ ks → s k = s₀ k ∨ s k = none
  recorded : ∀ r ∈ recs, r.o ∉ ks → s₀ r.o = some r.coin
  lost : ∀ k, k ∉ ks → s k = none → ∀ c, s₀ k = some c → ⟨k, c⟩ ∈ recs

namespace Reversible

variable {s₀ s : CoinSet} {recs : List UndoRec} {ks : List Outpoint}

theorem refl (s : CoinSet) (ks : List Outpoint) : Reversible s s [] ks where
  kept := fun _ _ => Or.inl rfl
  recorded := by simp
  lost := by
    intro k _ hnone c hsome
    rw [hnone] at hsome
    cases hsome

/-- A record for a coin that is still there. -/
theorem record (hr : Reversible s₀ s recs ks) {o : Outpoint} {c : Coin}
    (ho : s o = some c) : Reversible s₀ s (recs ++ [⟨o, c⟩]) ks where
  kept := hr.kept
  recorded := by
    intro r hmem hks
    rcases List.mem_append.mp hmem with hold | hnew
    · exact hr.recorded r hold hks
    · cases List.mem_singleton.mp hnew
      rcases hr.kept o hks with h | h
      · rw [← h, ho]
      · rw [ho] at h
        cases h
  lost := by
    intro k hks hnone c' hc'
    exact List.mem_append_left _ (hr.lost k hks hnone c' hc')

/-- A spend after its record. -/
theorem spend (hr : Reversible s₀ s recs ks) {o : Outpoint} {c : Coin}
    (ho : s o = some c) : Reversible s₀ (s.del o) (recs ++ [⟨o, c⟩]) ks where
  kept := by
    intro k hks
    by_cases hk : k = o
    · exact Or.inr (by rw [hk, PMap.del_self])
    · rw [PMap.del_of_ne s hk]
      exact hr.kept k hks
  recorded := (hr.record ho).recorded
  lost := by
    intro k hks hnone c' hc'
    by_cases hk : k = o
    · subst hk
      rcases hr.kept k hks with h | h
      · rw [← h, ho] at hc'
        cases hc'
        exact List.mem_append_right _ (List.mem_singleton.mpr rfl)
      · rw [ho] at h
        cases h
    · rw [PMap.del_of_ne s hk] at hnone
      exact List.mem_append_left _ (hr.lost k hks hnone c' hc')

/-- Whatever happens to the keys that will be deleted. -/
theorem of_eq_off (hr : Reversible s₀ s recs ks) {s' : CoinSet}
    (hoff : ∀ k, k ∉ ks → s' k = s k) : Reversible s₀ s' recs ks where
  kept := by
    intro k hks
    rw [hoff k hks]
    exact hr.kept k hks
  recorded := hr.recorded
  lost := by
    intro k hks hnone
    rw [hoff k hks] at hnone
    exact hr.lost k hks hnone

/-- Restoring the records and deleting the keys gives the old set back. -/
theorem reverse (hr : Reversible s₀ s recs ks)
    (hfresh : ∀ k ∈ ks, s₀ k = none) :
    (s.restoreAll (recs.map UndoRec.entry)).delAll ks = s₀ := by
  apply PMap.restore_del_eq hfresh hr.kept
  · intro e he hks
    obtain ⟨r, hmem, rfl⟩ := List.mem_map.mp he
    exact hr.recorded r hmem hks
  · intro k hks hnone c hc
    exact List.mem_map.mpr ⟨⟨k, c⟩, hr.lost k hks hnone c hc, rfl⟩

/-- A valid walk is reversible by what it spent. -/
theorem applyEvents {h : Nat} (hr : Reversible s₀ s recs ks)
    {evs : List WalkEvent} (hv : ValidOn h s evs)
    (hks : ∀ o ∈ created evs, o ∈ ks) :
    Reversible s₀ (applyEvents h s evs) (recs ++ spentRecs h s evs) ks := by
  induction evs generalizing s recs with
  | nil => simpa [Storage.applyEvents, spentRecs] using hr
  | cons e es ih =>
      obtain ⟨he, hes⟩ := hv
      have hks' : ∀ o ∈ created es, o ∈ ks := by
        intro o ho
        apply hks
        rw [← List.singleton_append, created_append]
        exact List.mem_append_right _ ho
      rw [Storage.applyEvents, spentRecs, ← List.append_assoc]
      refine ih ?_ hes hks'
      cases e with
      | input o =>
          by_cases hnull : o = nullOutpoint
          · simpa [applyEvent, eventRecs, hnull] using hr
          · obtain hbad | ⟨c, hc⟩ := he
            · exact absurd hbad hnull
            · simpa [applyEvent, eventRecs, hnull, hc] using hr.spend hc
      | output o out isCoinbase =>
          cases hcoin : outputCoin h isCoinbase out with
          | none => simpa [applyEvent, eventRecs, hcoin] using hr
          | some c =>
              have ho : o ∈ ks := by
                apply hks
                rw [created, List.mem_filterMap]
                exact ⟨_, List.mem_cons_self, by
                  rw [created_output h, hcoin]
                  rfl⟩
              have hoff : ∀ k, k ∉ ks →
                  applyEvent h s (.output o out isCoinbase) k = s k := by
                intro k hk
                simp only [applyEvent, hcoin]
                split
                · rfl
                · exact PMap.put_of_ne s c (fun hko => hk (hko ▸ ho))
              simpa [eventRecs] using hr.of_eq_off hoff

end Reversible

/-- Unapplying what a valid block did gives the coin set back. -/
theorem BlockValid.reverse {h : Nat} {s : CoinSet} {txs : List Tx}
    (hv : BlockValid h s txs) :
    ((applyEvents h s (walkBlockTxs txs)).restoreAll
      ((spentRecs h s (walkBlockTxs txs)).map UndoRec.entry)).delAll
        (created (walkBlockTxs txs)) = s := by
  have hr := (Reversible.refl s (created (walkBlockTxs txs))).applyEvents
    hv.valid (fun _ ho => ho)
  exact hr.reverse hv.fresh

end BitcoinMachineCode.Storage
