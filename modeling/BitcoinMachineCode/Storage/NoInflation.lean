import BitcoinMachineCode.Foundation.Totals
import BitcoinMachineCode.Storage.BlockConnect

/-!
# No block creates money

The passes that decide what a block is worth keep 64-bit counters and look at
different ledgers.  Read over the naturals they agree: every transaction after
the coinbase pays for its outputs with coins that the set or an earlier
transaction gave, each outpoint once, and the set grows by the subsidy at most.
-/

namespace BitcoinMachineCode.Storage

open BitcoinMachineCode.Foundation

/-! ## What a transaction creates -/

def Coin.worth (c : Coin) : Nat := c.value.toNat

def Tx.newOutputs (tx : Tx) : List (Outpoint × TxOut) :=
  tx.outputs.zipIdx.map fun p => (⟨tx.txid, UInt32.ofNat p.2⟩, p.1)

def creditOf (p : Outpoint × TxOut) : Outpoint × Nat := (p.1, p.2.value.toNat)

def Tx.credits (tx : Tx) : List (Outpoint × Nat) := tx.newOutputs.map creditOf

def Tx.outTotal (tx : Tx) : Nat := (tx.outputs.map fun out => out.value.toNat).sum

theorem walkTxIo_newOutputs (isCoinbase : Bool) (tx : Tx) :
    walkTxIo isCoinbase tx =
      tx.inputs.map WalkEvent.input ++
        tx.newOutputs.map fun p => WalkEvent.output p.1 p.2 isCoinbase := by
  simp [walkTxIo, Tx.newOutputs]

theorem sum_newOutputs (tx : Tx) :
    (tx.newOutputs.map fun p => p.2.value.toNat).sum = tx.outTotal := by
  rw [Tx.outTotal, Tx.newOutputs, List.map_map]
  conv_rhs => rw [← List.zipIdx_map_fst 0 tx.outputs, List.map_map]
  rfl

theorem sum_credits (tx : Tx) : (tx.credits.map Prod.snd).sum = tx.outTotal := by
  rw [Tx.credits, List.map_map, ← sum_newOutputs]
  rfl

/-! ## The in-block index -/

theorem idxbuildOnInput_clean {c : IdxbuildCtx} {o : Outpoint}
    (h : (idxbuildOnInput c o).dupFound = false) :
    c.dupFound = false ∧
      idxbuildOnInput c o = { c with bs := c.bs ++ [o].filter (· ≠ nullOutpoint) } ∧
      (c.bs.Nodup → (c.bs ++ [o].filter (· ≠ nullOutpoint)).Nodup) := by
  unfold idxbuildOnInput at h ⊢
  split
  · next hnull => simpa [hnull] using h
  · next hnull =>
      rw [if_neg hnull] at h
      split
      · next hmem => simp [hmem] at h
      · next hmem =>
          rw [if_neg hmem] at h
          refine ⟨h, by simp [hnull], fun hnodup => ?_⟩
          simp only [ne_eq, hnull, not_false_eq_true, decide_true, List.filter_cons_of_pos,
            List.filter_nil]
          exact List.nodup_append.mpr ⟨hnodup, List.nodup_singleton o, by
            rintro a ha b hb rfl
            exact hmem (List.mem_singleton.mp hb ▸ ha)⟩

theorem foldl_idxbuildOnInput {os : List Outpoint} {c : IdxbuildCtx}
    (h : (os.foldl idxbuildOnInput c).dupFound = false) :
    c.dupFound = false ∧
      os.foldl idxbuildOnInput c = { c with bs := c.bs ++ os.filter (· ≠ nullOutpoint) } ∧
      (c.bs.Nodup → (c.bs ++ os.filter (· ≠ nullOutpoint)).Nodup) := by
  induction os generalizing c with
  | nil => simpa using h
  | cons o os ih =>
      rw [List.foldl_cons] at h ⊢
      obtain ⟨hdup, heq, hnodup⟩ := ih h
      obtain ⟨hdup₀, heq₀, hnodup₀⟩ := idxbuildOnInput_clean hdup
      have hsplit : (o :: os).filter (· ≠ nullOutpoint) =
          [o].filter (· ≠ nullOutpoint) ++ os.filter (· ≠ nullOutpoint) := by
        rw [← List.filter_append]
        rfl
      rw [hsplit, ← List.append_assoc]
      rw [heq₀] at heq hnodup ⊢
      exact ⟨hdup₀, heq, fun hbs => hnodup (hnodup₀ hbs)⟩

def indexedOutput (t : Nat) (p : Outpoint × TxOut) : BidxOut :=
  ⟨p.1, p.2.value, p.2.script, t, t == 0⟩

/-- What the walk over a transaction's outputs leaves where no amount was out of
range. -/
structure OutputsIndexed (t : Nat) (ps : List (Outpoint × TxOut)) (c c' : IdxbuildCtx) :
    Prop where
  bx : c'.bx = c.bx ++ ps.map (indexedOutput t)
  bs : c'.bs = c.bs
  dupFound : c'.dupFound = c.dupFound
  moneyBad : c.moneyBad = false
  sum : c'.txOutSum = c'.ptxOut
  ptxOut : c'.ptxOut.toNat =
    c.ptxOut.toNat + (ps.map fun p => p.2.value.toNat).sum
  range : c'.ptxOut.toNat ≤ valMaxMoney.toNat

theorem idxbuildOnOutput_clean {t : Nat} {c : IdxbuildCtx} {p : Outpoint × TxOut}
    (hsum : c.txOutSum = c.ptxOut) (hrange : c.ptxOut.toNat ≤ valMaxMoney.toNat)
    (h : (idxbuildOnOutput t c p.1 p.2).moneyBad = false) :
    OutputsIndexed t [p] c (idxbuildOnOutput t c p.1 p.2) := by
  unfold idxbuildOnOutput at h ⊢
  simp only at h ⊢
  split
  · next hbig => simp [hbig] at h
  · next hbig =>
      rw [if_neg hbig] at h
      simp only [Bool.or_eq_false_iff, decide_eq_false_iff_not, UInt64.not_lt] at h
      have hval : p.2.value.toNat ≤ valMaxMoney.toNat := UInt64.le_iff_toNat_le.mp
        (UInt64.not_lt.mp hbig)
      have hnew : (c.ptxOut + p.2.value).toNat = c.ptxOut.toNat + p.2.value.toNat := by
        rw [UInt64.toNat_add]
        refine Nat.mod_eq_of_lt ?_
        have : valMaxMoney.toNat = 2100000000000000 := rfl
        omega
      refine ⟨rfl, rfl, rfl, h.1, by rw [hsum], by simp [hnew], ?_⟩
      rw [hsum] at h
      exact UInt64.le_iff_toNat_le.mp h.2

theorem moneyBad_of_idxbuildOnOutput {t : Nat} {c : IdxbuildCtx} {p : Outpoint × TxOut}
    (h : (idxbuildOnOutput t c p.1 p.2).moneyBad = false) : c.moneyBad = false := by
  unfold idxbuildOnOutput at h
  simp only at h
  split at h
  · cases h
  · exact (Bool.or_eq_false_iff.mp h).1

theorem moneyBad_of_foldl {t : Nat} {ps : List (Outpoint × TxOut)} {c : IdxbuildCtx}
    (h : (ps.foldl (fun c p => idxbuildOnOutput t c p.1 p.2) c).moneyBad = false) :
    c.moneyBad = false := by
  induction ps generalizing c with
  | nil => exact h
  | cons p ps ih => exact moneyBad_of_idxbuildOnOutput (ih h)

theorem foldl_idxbuildOnOutput {t : Nat} {ps : List (Outpoint × TxOut)} {c : IdxbuildCtx}
    (hsum : c.txOutSum = c.ptxOut) (hrange : c.ptxOut.toNat ≤ valMaxMoney.toNat)
    (h : (ps.foldl (fun c p => idxbuildOnOutput t c p.1 p.2) c).moneyBad = false) :
    OutputsIndexed t ps c (ps.foldl (fun c p => idxbuildOnOutput t c p.1 p.2) c) := by
  induction ps generalizing c with
  | nil => exact ⟨by simp, rfl, rfl, h, hsum, by simp, hrange⟩
  | cons p ps ih =>
      rw [List.foldl_cons] at h ⊢
      have hfirst := idxbuildOnOutput_clean hsum hrange (moneyBad_of_foldl h)
      have hrest := ih hfirst.sum hfirst.range h
      refine ⟨?_, hrest.bs.trans hfirst.bs, hrest.dupFound.trans hfirst.dupFound,
        hfirst.moneyBad, hrest.sum, ?_, hrest.range⟩
      · rw [hrest.bx, hfirst.bx, List.append_assoc]
        rfl
      · rw [hrest.ptxOut, hfirst.ptxOut, List.map_cons, List.sum_cons]
        simp only [List.map_cons, List.map_nil, List.sum_cons, List.sum_nil]
        omega

theorem foldl_idxbuildOnEvent (t : Nat) (isCoinbase : Bool) (tx : Tx) (c : IdxbuildCtx) :
    (walkTxIo isCoinbase tx).foldl (idxbuildOnEvent t) c =
      tx.newOutputs.foldl (fun c p => idxbuildOnOutput t c p.1 p.2)
        (tx.inputs.foldl idxbuildOnInput c) := by
  rw [walkTxIo_newOutputs, List.foldl_append, List.foldl_map, List.foldl_map]
  rfl

theorem foldl_idxbuildOnInput_sums (os : List Outpoint) (c : IdxbuildCtx) :
    (os.foldl idxbuildOnInput c).txOutSum = c.txOutSum ∧
      (os.foldl idxbuildOnInput c).ptxOut = c.ptxOut := by
  induction os generalizing c with
  | nil => exact ⟨rfl, rfl⟩
  | cons o os ih =>
      rw [List.foldl_cons, (ih _).1, (ih _).2, idxbuildOnInput]
      split
      · exact ⟨rfl, rfl⟩
      split <;> exact ⟨rfl, rfl⟩

/-- One transaction's turn of the pass, from a fresh context. -/
theorem indexTx_clean {t : Nat} {isCoinbase : Bool} {tx : Tx} {bx : List BidxOut}
    {bs : List Outpoint} {c : IdxbuildCtx}
    (hc : (walkTxIo isCoinbase tx).foldl (idxbuildOnEvent t) ⟨bx, bs, false, 0, false, 0⟩ = c)
    (hdup : c.dupFound = false) (hmoney : c.moneyBad = false) :
    c.bx = bx ++ tx.newOutputs.map (indexedOutput t) ∧
      c.bs = bs ++ tx.inputs.filter (· ≠ nullOutpoint) ∧ (bs.Nodup → c.bs.Nodup) ∧
      c.ptxOut.toNat = tx.outTotal ∧ tx.outTotal ≤ valMaxMoney.toNat := by
  rw [foldl_idxbuildOnEvent] at hc
  subst hc
  obtain ⟨hsum, hptx⟩ := foldl_idxbuildOnInput_sums tx.inputs ⟨bx, bs, false, 0, false, 0⟩
  have houts := foldl_idxbuildOnOutput (hsum.trans hptx.symm) (by rw [hptx]; exact Nat.zero_le _) hmoney
  obtain ⟨-, hins, hnodup⟩ := foldl_idxbuildOnInput (houts.dupFound ▸ hdup)
  have htotal := houts.ptxOut
  rw [hptx, sum_newOutputs] at htotal
  simp only [UInt64.toNat_zero, Nat.zero_add] at htotal
  refine ⟨?_, ?_, ?_, htotal, htotal ▸ houts.range⟩
  · rw [houts.bx, hins]
  · rw [houts.bs, hins]
  · rw [houts.bs, hins]
    exact hnodup

/-- The entries of the transactions from number `t` on. -/
def indexedFrom : Nat → List Tx → List BidxOut
  | _, [] => []
  | t, tx :: rest => tx.newOutputs.map (indexedOutput t) ++ indexedFrom (t + 1) rest

/-- What the pass leaves where it found neither a duplicate nor an amount out of
range. -/
structure BlockIndexed (t : Nat) (txs : List Tx) (b b' : BlockIndex) : Prop where
  bx : b'.bx = b.bx ++ indexedFrom t txs
  bs : b'.bs = b.bs ++ (txs.flatMap Tx.inputs).filter (· ≠ nullOutpoint)
  nodup : b.bs.Nodup → b'.bs.Nodup
  dup : b.dup = false
  moneyBad : b.moneyBad = false
  ptxOut : b'.ptxOut.map UInt64.toNat = b.ptxOut.map UInt64.toNat ++ txs.map Tx.outTotal
  range : ∀ tx ∈ txs, tx.outTotal ≤ valMaxMoney.toNat

theorem buildIndex_clean {t : Nat} {txs : List Tx} {b : BlockIndex}
    (hdup : (buildIndex t txs b).dup = false)
    (hmoney : (buildIndex t txs b).moneyBad = false) :
    BlockIndexed t txs b (buildIndex t txs b) := by
  induction txs generalizing t b with
  | nil => exact ⟨by simp [buildIndex, indexedFrom], by simp [buildIndex], id, hdup, hmoney,
      by simp [buildIndex], nofun⟩
  | cons tx rest ih =>
      have hfirst : b.dup = false := by
        by_contra hbad
        rw [buildIndex, if_pos (by simpa using hbad)] at hdup
        exact hbad hdup
      rw [buildIndex, if_neg (by simp [hfirst])] at hdup hmoney ⊢
      have hrest := ih hdup hmoney
      obtain ⟨hbm, hcm⟩ := Bool.or_eq_false_iff.mp hrest.moneyBad
      obtain ⟨hbx, hbs, hnodup, hptx, hrange⟩ := indexTx_clean rfl hrest.dup hcm
      refine ⟨?_, ?_, fun h => hrest.nodup (hnodup h), hfirst, hbm, ?_, ?_⟩
      · rw [hrest.bx, hbx, List.append_assoc]
        rfl
      · rw [hrest.bs, hbs, List.append_assoc, List.flatMap_cons, List.filter_append]
      · rw [hrest.ptxOut, List.map_append, List.append_assoc]
        simp [hptx]
      · rintro x (_ | ⟨_, hx⟩)
        · exact hrange
        · exact hrest.range x hx

/-! ## Resolved inputs -/

theorem mem_indexedFrom {t : Nat} {txs : List Tx} {e : BidxOut} (h : e ∈ indexedFrom t txs) :
    ∃ j tx, txs[j]? = some tx ∧ e.creatingTx = t + j ∧ (e.o, e.value.toNat) ∈ tx.credits := by
  induction txs generalizing t with
  | nil => cases h
  | cons tx rest ih =>
      rcases List.mem_append.mp h with h | h
      · obtain ⟨p, hp, rfl⟩ := List.mem_map.mp h
        exact ⟨0, tx, rfl, rfl, List.mem_map_of_mem hp⟩
      · obtain ⟨j, tx', hj, hcreating, hcredit⟩ := ih h
        exact ⟨j + 1, tx', hj, by omega, hcredit⟩

/-- A coin worth `v` that the transaction of number `t` may consume: the set holds
it, or an earlier transaction of the block created it. -/
def Available (s : Lsm) (txs : List Tx) (t : Nat) (o : Outpoint) (v : Nat) : Prop :=
  (∃ c, s.coins o = some c ∧ c.worth = v) ∨
    ∃ j < t, ∃ tx, txs[j]? = some tx ∧ (o, v) ∈ tx.credits

theorem resolvePrevout_available {s : Lsm} (hs : s.Sound) {h t : Nat} {txs : List Tx}
    {o : Outpoint} {p : Prevout}
    (hp : resolvePrevout s h (indexedFrom 0 txs) t o = some p) :
    Available s txs t o p.value.toNat := by
  unfold resolvePrevout at hp
  split at hp
  · next e he =>
      obtain rfl := Option.some.inj hp
      unfold bidxGet at he
      split at he
      · cases he
      · next e' hfind =>
          split at he
          · cases he
          · next hlater =>
              obtain rfl := Option.some.inj he
              obtain ⟨j, tx, hj, hcreating, hcredit⟩ :=
                mem_indexedFrom (List.mem_of_find?_eq_some hfind)
              have ho : e'.o = o := by simpa using List.find?_some hfind
              exact .inr ⟨j, by omega, tx, hj, ho ▸ hcredit⟩
  · split at hp
    · next c hc =>
        obtain rfl := Option.some.inj hp
        rw [utxoLsmGet_eq hs] at hc
        refine .inl ⟨c, ?_, rfl⟩
        cases hcoin : s.coins o with
        | none => simp [hcoin, LsmAnswer.ofOption] at hc
        | some c' => simpa [hcoin, LsmAnswer.ofOption] using hc
    · cases hp

/-- What the connect pass found an input of transaction `t` to be worth. -/
def inputWorth (s : Lsm) (h : Nat) (txs : List Tx) (t : Nat) (o : Outpoint) : Nat :=
  (resolvePrevout s h (indexedFrom 0 txs) t o).elim 0 fun p => p.value.toNat

theorem connectInputs_ok {env : ConnectEnv} {s : Lsm} {h t : Nat} {txs : List Tx}
    {os : List Outpoint} {sum sum' : UInt64}
    (hok : connectInputs env s h (indexedFrom 0 txs) t os sum = .ok sum') :
    (∀ o ∈ os, (resolvePrevout s h (indexedFrom 0 txs) t o).isSome) ∧
      sum'.toNat = (sum.toNat + (os.map (inputWorth s h txs t)).sum) % 2 ^ 64 := by
  induction os generalizing sum with
  | nil =>
      obtain rfl : sum = sum' := by simpa [connectInputs] using hok
      exact ⟨nofun, (Nat.mod_eq_of_lt sum.toNat_lt).symm⟩
  | cons o os ih =>
      unfold connectInputs at hok
      split at hok
      · cases hok
      · next p hp =>
          split at hok
          · cases hok
          · obtain ⟨hresolved, hsum⟩ := ih hok
            have hworth : inputWorth s h txs t o = p.value.toNat := by
              rw [inputWorth, hp]
              rfl
            refine ⟨?_, ?_⟩
            · rintro x (_ | ⟨_, hx⟩)
              · rw [hp]
                rfl
              · exact hresolved x hx
            · rw [hsum, UInt64.toNat_add, List.map_cons, List.sum_cons, hworth]
              omega

/-- Worth in and out of every transaction from number `t` on. -/
def amountsFrom (s : Lsm) (h : Nat) (txs : List Tx) : Nat → List Tx → List (Nat × Nat)
  | _, [] => []
  | t, tx :: rest =>
      ((tx.inputs.map (inputWorth s h txs t)).sum, tx.outTotal) ::
        amountsFrom s h txs (t + 1) rest

theorem map_snd_amountsFrom (s : Lsm) (h : Nat) (txs : List Tx) (t : Nat) (rest : List Tx) :
    (amountsFrom s h txs t rest).map Prod.snd = rest.map Tx.outTotal := by
  induction rest generalizing t with
  | nil => rfl
  | cons tx rest ih => rw [amountsFrom, List.map_cons, ih, List.map_cons]

theorem mem_amountsFrom {s : Lsm} {h : Nat} {txs : List Tx} {t i : Nat} {rest : List Tx}
    {tx : Tx} (hi : rest[i]? = some tx) :
    ((tx.inputs.map (inputWorth s h txs (t + i))).sum, tx.outTotal) ∈
      amountsFrom s h txs t rest := by
  induction rest generalizing t i with
  | nil => cases hi
  | cons x rest ih =>
      rw [amountsFrom]
      cases i with
      | zero =>
          obtain rfl := Option.some.inj hi
          exact List.mem_cons_self
      | succ i =>
          have := ih (t := t + 1) hi
          rw [show t + 1 + i = t + (i + 1) by omega] at this
          exact List.mem_cons_of_mem _ this

theorem connectTxs_ok {env : ConnectEnv} {s : Lsm} {h t : Nat} {txs rest : List Tx}
    {ins : List UInt64}
    (hok : connectTxs env s h (indexedFrom 0 txs) t rest = .ok ins) :
    (∀ i tx, rest[i]? = some tx → ∀ o ∈ tx.inputs,
        (resolvePrevout s h (indexedFrom 0 txs) (t + i) o).isSome) ∧
      ins.map UInt64.toNat = (amountsFrom s h txs t rest).map fun p => p.1 % 2 ^ 64 := by
  induction rest generalizing t ins with
  | nil =>
      obtain rfl : ins = [] := by simpa [connectTxs] using hok.symm
      exact ⟨fun i tx hi => by simp at hi, rfl⟩
  | cons x rest ih =>
      unfold connectTxs at hok
      split at hok
      · cases hok
      · next sum hsum =>
          split at hok
          · cases hok
          · next sums hsums =>
              obtain rfl := Except.ok.inj hok
              obtain ⟨hx, hxsum⟩ := connectInputs_ok hsum
              obtain ⟨hrest, hrestSum⟩ := ih hsums
              refine ⟨?_, ?_⟩
              · intro i tx hi
                cases i with
                | zero =>
                    obtain rfl := Option.some.inj hi
                    exact hx
                | succ i =>
                    have := hrest i tx hi
                    rwa [show t + 1 + i = t + (i + 1) by omega] at this
              · rw [List.map_cons, hrestSum, amountsFrom, List.map_cons, hxsum]
                simp

/-! ## The ledger over the naturals -/

theorem valMaxMoney_toNat : valMaxMoney.toNat = 2100000000000000 := rfl

/-- Where every transaction's inputs are in the purse, no counter wraps. -/
theorem valueLedger_ok {amounts : List (Nat × Nat)} {purse : Nat} {ins outs : List UInt64}
    {fees fees' : UInt64} (hcovered : Covered purse amounts) (hpurse : purse < 2 ^ 64)
    (hins : ins.map UInt64.toNat = amounts.map fun p => p.1 % 2 ^ 64)
    (houts : outs.map UInt64.toNat = amounts.map Prod.snd)
    (hfees : fees.toNat ≤ valMaxMoney.toNat) (hok : valueLedger ins outs fees = .ok fees') :
    (∀ p ∈ amounts, p.2 ≤ p.1) ∧ fees'.toNat ≤ valMaxMoney.toNat ∧
      fees'.toNat + (amounts.map Prod.snd).sum =
        fees.toNat + (amounts.map Prod.fst).sum := by
  induction amounts generalizing purse ins outs fees with
  | nil =>
      obtain rfl : ins = [] := by simpa using hins
      obtain rfl : fees = fees' := by simpa [valueLedger] using hok
      exact ⟨nofun, hfees, rfl⟩
  | cons p amounts ih =>
      obtain ⟨inT, ins, rfl, hin, hins⟩ := List.map_eq_cons_iff.mp hins
      obtain ⟨outT, outs, rfl, hout, houts⟩ := List.map_eq_cons_iff.mp houts
      obtain ⟨hle, hcovered⟩ := hcovered
      replace hin : inT.toNat = p.1 := hin.trans (Nat.mod_eq_of_lt (by omega))
      rw [valueLedger] at hok
      split at hok
      · cases hok
      split at hok
      · cases hok
      split at hok
      · cases hok
      next hmax hbelow hfee =>
        have hin_le : inT.toNat ≤ valMaxMoney.toNat :=
          UInt64.le_iff_toNat_le.mp (UInt64.not_lt.mp hmax)
        have hout_le : outT.toNat ≤ inT.toNat :=
          UInt64.le_iff_toNat_le.mp (UInt64.not_lt.mp hbelow)
        have hnew : (fees + (inT - outT)).toNat = fees.toNat + (inT.toNat - outT.toNat) := by
          rw [UInt64.toNat_add, UInt64.toNat_sub_of_le _ _ (UInt64.le_iff_toNat_le.mpr hout_le)]
          refine Nat.mod_eq_of_lt ?_
          rw [valMaxMoney_toNat] at *
          omega
        obtain ⟨hpay, hrange, hsum⟩ := ih hcovered (by omega) hins houts
          (UInt64.le_iff_toNat_le.mp (UInt64.not_lt.mp hfee)) hok
        refine ⟨?_, hrange, ?_⟩
        · rintro q (_ | ⟨_, hq⟩)
          · omega
          · exact hpay q hq
        · simp only [List.map_cons, List.sum_cons]
          omega

theorem valSubsidy_le (halvingInterval h : Nat) :
    (valSubsidy halvingInterval h).toNat ≤ 5000000000 := by
  unfold valSubsidy
  split
  · decide
  split
  · decide
  · have hshift : 5000000000 >>> (h / halvingInterval) ≤ 5000000000 := by
      rw [Nat.shiftRight_eq_div_pow]
      exact Nat.div_le_self ..
    exact (Nat.mod_le _ _).trans hshift

/-! ## The walk on the store -/

theorem StoreOp.keeps_of_isUpkeep {s s' : Lsm} {op : StoreOp} (hop : op.isUpkeep = true)
    (h : op.run s = some s') (hs : s.Sound) : Keeps s s' := by
  cases op with
  | put o c => cases hop
  | del o => cases hop
  | reload tail => cases hop
  | flush pub gate =>
      obtain rfl := Option.some.inj h
      exact hs.flushGeneration pub gate
  | adoptFlush pub =>
      obtain rfl := Option.some.inj h
      exact hs.fzPoll pub
  | compact lo k =>
      obtain rfl := Option.some.inj h
      exact (hs.utxoLsmCompactRange lo k).keeps
  | startCompact lo k =>
      obtain rfl := Option.some.inj h
      exact (hs.compactStartAsync lo k).keeps
  | childMerges =>
      obtain rfl := Option.some.inj h
      exact (hs.compactChildRun).keeps
  | adoptCompact pub =>
      obtain rfl := Option.some.inj h
      exact (hs.compactPoll pub).keeps

theorem Upkeep.keeps {s s' : Lsm} (h : Upkeep s s') (hs : s.Sound) : Keeps s s' := by
  induction h with
  | refl => exact ⟨hs, rfl⟩
  | tail _ hstep ih =>
      obtain ⟨op, hop, hrun⟩ := hstep
      exact ih.trans (op.keeps_of_isUpkeep hop hrun ih.sound)

theorem StoreApplied.append {h : Nat} {xs ys : List WalkEvent} {s s' : Lsm}
    (hwalk : StoreApplied h (xs ++ ys) s s') :
    ∃ s₁, StoreApplied h xs s s₁ ∧ StoreApplied h ys s₁ s' := by
  generalize hevs : xs ++ ys = evs at hwalk
  induction hwalk generalizing xs with
  | done =>
      obtain ⟨rfl, rfl⟩ := List.append_eq_nil_iff.mp hevs
      exact ⟨_, .done, .done⟩
  | upkeep hup _ ih =>
      obtain ⟨s₁, hxs, hys⟩ := ih hevs
      exact ⟨s₁, .upkeep hup hxs, hys⟩
  | event he hrest ih =>
      cases xs with
      | nil =>
          obtain rfl : ys = _ := hevs
          exact ⟨_, .done, .event he hrest⟩
      | cons x xs =>
          obtain ⟨rfl, htail⟩ := List.cons.inj hevs
          obtain ⟨s₁, hxs, hys⟩ := ih htail
          exact ⟨s₁, .event he hxs, hys⟩

/-- Inputs empty their outpoints and touch no other. -/
theorem StoreApplied.inputs {h : Nat} {os : List Outpoint} {s s' : Lsm} (hs : s.Sound)
    (hwalk : StoreApplied h (os.map .input) s s') (hnull : nullOutpoint ∉ os) :
    s'.Sound ∧ (∀ o ∈ os, s'.coins o = none) ∧ ∀ o, o ∉ os → s'.coins o = s.coins o := by
  generalize hevs : os.map WalkEvent.input = evs at hwalk
  induction hwalk generalizing os with
  | done =>
      obtain rfl := List.map_eq_nil_iff.mp hevs
      exact ⟨hs, nofun, fun _ _ => rfl⟩
  | upkeep hup _ ih =>
      have hkeep := hup.keeps hs
      obtain ⟨hsound, hspent, hkept⟩ := ih hkeep.sound hnull hevs
      exact ⟨hsound, hspent, fun o ho => by rw [hkept o ho, hkeep.coins_eq]⟩
  | event he _ ih =>
      obtain ⟨o, os, rfl, rfl, htail⟩ := List.map_eq_cons_iff.mp hevs
      rw [List.mem_cons, not_or] at hnull
      cases he with
      | coinbaseInput => exact absurd rfl hnull.1
      | spend _ hdel =>
          obtain ⟨hsound₁, hcoins⟩ := hs.utxoLsmDel hdel
          obtain ⟨hsound, hspent, hkept⟩ := ih hsound₁ hnull.2 htail
          rw [hcoins] at hkept
          refine ⟨hsound, fun x hx => ?_, fun x hx => ?_⟩
          · by_cases hmem : x ∈ os
            · exact hspent x hmem
            · obtain rfl : x = o := by simpa [hmem] using hx
              rw [hkept x hmem, PMap.del_self]
          · rw [List.mem_cons, not_or] at hx
            rw [hkept x hx.2, PMap.del_of_ne _ hx.1]

theorem StoreApplied.nil {h : Nat} {s s' : Lsm} (hs : s.Sound)
    (hwalk : StoreApplied h [] s s') : Keeps s s' := by
  generalize hevs : ([] : List WalkEvent) = evs at hwalk
  induction hwalk with
  | done => exact .refl hs
  | upkeep hup _ ih => exact (hup.keeps hs).trans (ih (hup.keeps hs).sound hevs)
  | event => cases hevs

theorem StoreApplied.coinbaseInput {h : Nat} {s s' : Lsm} (hs : s.Sound)
    (hwalk : StoreApplied h [.input nullOutpoint] s s') : Keeps s s' := by
  generalize hevs : [WalkEvent.input nullOutpoint] = evs at hwalk
  induction hwalk with
  | done => cases hevs
  | upkeep hup _ ih => exact (hup.keeps hs).trans (ih (hup.keeps hs).sound hevs)
  | event he hrest _ =>
      obtain ⟨rfl, rfl⟩ := List.cons.inj hevs
      cases he with
      | coinbaseInput => exact hrest.nil hs
      | spend hnull => exact absurd rfl hnull

theorem valueAt_put (m : CoinSet) (o : Outpoint) (c : Coin) (k : Outpoint) :
    (m.put o c).valueAt Coin.worth k ≤
      m.valueAt Coin.worth k + if o = k then c.worth else 0 := by
  rw [PMap.valueAt, PMap.put_apply]
  by_cases hk : k = o
  · subst hk
    simp
  · simp [hk, Ne.symm hk, PMap.valueAt]

theorem outputCoin_worth {h : Nat} {isCoinbase : Bool} {out : TxOut} {c : Coin}
    (hcoin : outputCoin h isCoinbase out = some c) : c.worth = out.value.toNat := by
  unfold outputCoin at hcoin
  split at hcoin
  · cases hcoin
  · obtain rfl := Option.some.inj hcoin
    rfl

/-- An output adds its amount to its own outpoint at most: over a coin that was
there it replaces or declines. -/
theorem OnEvent.output {h : Nat} {s s' : Lsm} {o : Outpoint} {out : TxOut}
    {isCoinbase : Bool} (hs : s.Sound) (he : OnEvent h s (.output o out isCoinbase) s') :
    s'.Sound ∧ ∀ k, s'.coins.valueAt Coin.worth k ≤
      s.coins.valueAt Coin.worth k + if o = k then out.value.toNat else 0 := by
  cases he with
  | unspendable hcoin => exact ⟨hs, fun k => Nat.le_add_right ..⟩
  | declined hcoin hput => exact ⟨hs, fun k => Nat.le_add_right ..⟩
  | create hcoin hput =>
      obtain ⟨hsound, hcoins⟩ := hs.utxoLsmPut hput
      refine ⟨hsound, fun k => ?_⟩
      rw [hcoins, ← outputCoin_worth hcoin]
      exact valueAt_put ..
  | overwrite hcoin hdup hdel hup hput =>
      obtain ⟨hs₁, hcoins₁⟩ := hs.utxoLsmDel hdel
      have hkeep := hup.keeps hs₁
      obtain ⟨hsound, hcoins⟩ := hkeep.sound.utxoLsmPut hput
      refine ⟨hsound, fun k => ?_⟩
      rw [hcoins, hkeep.coins_eq, hcoins₁, PMap.del_put, ← outputCoin_worth hcoin]
      exact valueAt_put ..

theorem StoreApplied.outputs {h : Nat} {ps : List (Outpoint × TxOut)} {isCoinbase : Bool}
    {s s' : Lsm} (hs : s.Sound)
    (hwalk : StoreApplied h (ps.map fun p => .output p.1 p.2 isCoinbase) s s') :
    s'.Sound ∧ ∀ k, s'.coins.valueAt Coin.worth k ≤
      s.coins.valueAt Coin.worth k + posted (ps.map creditOf) k := by
  generalize hevs : (ps.map fun p => WalkEvent.output p.1 p.2 isCoinbase) = evs at hwalk
  induction hwalk generalizing ps with
  | done =>
      obtain rfl := List.map_eq_nil_iff.mp hevs
      exact ⟨hs, fun k => Nat.le_refl _⟩
  | upkeep hup _ ih =>
      have hkeep := hup.keeps hs
      obtain ⟨hsound, hle⟩ := ih hkeep.sound hevs
      exact ⟨hsound, fun k => by rw [← hkeep.coins_eq]; exact hle k⟩
  | event he _ ih =>
      obtain ⟨p, ps, rfl, rfl, htail⟩ := List.map_eq_cons_iff.mp hevs
      obtain ⟨hs₁, hfirst⟩ := he.output hs
      obtain ⟨hsound, hle⟩ := ih hs₁ htail
      refine ⟨hsound, fun k => ?_⟩
      have hposted : posted ((p :: ps).map creditOf) k =
          (if p.1 = k then p.2.value.toNat else 0) + posted (ps.map creditOf) k := posted_cons ..
      have h₁ := hfirst k
      have h₂ := hle k
      omega

/-! ## The block -/

theorem Available.worth_le {s : Lsm} {txs : List Tx} {t : Nat} {o : Outpoint} {v : Nat}
    (h : Available s txs t o v) :
    v ≤ s.coins.valueAt Coin.worth o + posted ((txs.take t).flatMap Tx.credits) o := by
  rcases h with ⟨c, hc, rfl⟩ | ⟨j, hj, tx, htx, hcredit⟩
  · rw [PMap.valueAt, hc]
    exact Nat.le_add_right ..
  · have hmem : tx ∈ txs.take t :=
      List.mem_of_getElem? (i := j) (by rw [List.getElem?_take_of_lt hj, htx])
    have := le_posted_of_mem (List.mem_flatMap.mpr ⟨tx, hmem, hcredit⟩)
    omega

/-- The transactions after the coinbase, one by one: what the set and the credits
so far hold pays for the inputs, and the totals move with the amounts. -/
theorem StoreApplied.balance (s₀ : Lsm) (txs : List Tx) (purse : Nat) {s s' : Lsm}
    {h t : Nat} {rest : List Tx}
    {debits credits : List (Outpoint × Nat)} (hs : s.Sound)
    (hwalk : StoreApplied h (walkFrom t rest) s s')
    (hbal : PMap.Balanced Coin.worth s₀.coins s.coins debits credits)
    (hnodup : (debits.map Prod.fst ++ rest.flatMap Tx.inputs).Nodup)
    (hnull : ∀ tx ∈ rest, nullOutpoint ∉ tx.inputs)
    (hpaid : ∀ i tx, rest[i]? = some tx → ∀ o ∈ tx.inputs, inputWorth s₀ h txs (t + i) o ≤
      s₀.coins.valueAt Coin.worth o +
        posted (credits ++ (rest.take i).flatMap Tx.credits) o)
    (hpurse : purse + (debits.map Prod.snd).sum =
      s₀.coins.total Coin.worth + (credits.map Prod.snd).sum) :
    Covered purse (amountsFrom s₀ h txs t rest) ∧
      s'.coins.total Coin.worth + (debits.map Prod.snd).sum +
          ((amountsFrom s₀ h txs t rest).map Prod.fst).sum ≤
        s₀.coins.total Coin.worth + (credits.map Prod.snd).sum +
          ((amountsFrom s₀ h txs t rest).map Prod.snd).sum := by
  induction rest generalizing s t purse debits credits with
  | nil =>
      have hle := hbal.total_le s₀.finite_coins s.finite_coins
      rw [← (hwalk.nil hs).coins_eq] at hle
      exact ⟨trivial, by simpa [amountsFrom] using hle⟩
  | cons tx rest ih =>
      rw [walkFrom, walkTxIo_newOutputs, List.append_assoc] at hwalk
      obtain ⟨s₁, hins, hwalk⟩ := hwalk.append
      obtain ⟨s₂, houts, hwalk⟩ := hwalk.append
      obtain ⟨hs₁, hspent, hkept⟩ := hins.inputs hs (hnull tx List.mem_cons_self)
      obtain ⟨hs₂, hcreated⟩ := houts.outputs hs₁
      change ∀ k, _ ≤ _ + posted tx.credits k at hcreated
      rw [List.flatMap_cons, ← List.append_assoc] at hnodup
      have hbal₁ := hbal.spend (inputWorth s₀ h txs t) hnodup.of_append_left
        (by simpa using hpaid 0 tx rfl) hspent hkept
      have hin := hbal₁.total_le s₀.finite_coins s₁.finite_coins
      have hdebits : ((debits ++ tx.inputs.map fun o => (o, inputWorth s₀ h txs t o)).map
          Prod.snd).sum = (debits.map Prod.snd).sum +
            (tx.inputs.map (inputWorth s₀ h txs t)).sum := by
        simp [Function.comp_def]
      have hcredits : ((credits ++ tx.credits).map Prod.snd).sum =
          (credits.map Prod.snd).sum + tx.outTotal := by
        rw [List.map_append, List.sum_append, sum_credits]
      rw [hdebits] at hin
      obtain ⟨hcovered, htotal⟩ := ih
        (purse - (tx.inputs.map (inputWorth s₀ h txs t)).sum + tx.outTotal) hs₂ hwalk
        (hbal₁.create hcreated) (by simpa [Function.comp_def] using hnodup)
        (fun x hx => hnull x (List.mem_cons_of_mem _ hx))
        (fun i x hi o ho => by
          have := hpaid (i + 1) x hi o ho
          rw [show t + 1 + i = t + (i + 1) by omega]
          simpa [List.append_assoc] using this)
        (by
          rw [hdebits, hcredits]
          omega)
      rw [hdebits, hcredits] at htotal
      refine ⟨⟨by simp only; omega, hcovered⟩, ?_⟩
      simp only [amountsFrom, List.map_cons, List.sum_cons]
      omega

theorem checkShapes_none {txs : List Tx} (h : checkShapes txs = none) (hne : txs ≠ []) :
    ∃ cb rest, txs = cb :: rest ∧ cb.inputs = [nullOutpoint] ∧
      ∀ tx ∈ rest, nullOutpoint ∉ tx.inputs := by
  obtain ⟨cb, rest, rfl⟩ := List.exists_cons_of_ne_nil hne
  rw [checkShapes] at h
  split at h
  · cases h
  · next hcb =>
      split at h
      · cases h
      · refine ⟨cb, rest, rfl, not_not.mp hcb, fun tx htx => ?_⟩
        have hshape := List.findSome?_eq_none_iff.mp h tx htx
        intro hnull
        split at hshape
        · cases hshape
        split at hshape
        · cases hshape
        · cases hshape

/-- What a block's passing says. -/
structure Verified (env : ConnectEnv) (s : Lsm) (h : Nat) (txs : List Tx) : Prop where
  shapes : checkShapes txs = none
  index : BlockIndexed 0 txs ⟨[], [], [], false, false⟩ (indexBlock txs)
  ledger : ∃ ins fees, connectTxs env s h (indexBlock txs).bx 1 txs.tail = .ok ins ∧
    valueLedger ins (indexBlock txs).ptxOut.tail 0 = .ok fees ∧
    (indexBlock txs).ptxOut.headD 0 ≤ valSubsidy env.halvingInterval h + fees

theorem verifyBlock_ok {env : ConnectEnv} {s : Lsm} {h : Nat} {blk : Block}
    (hok : verifyBlock env s h blk = .ok ()) : Verified env s h blk.txs := by
  unfold verifyBlock at hok
  split at hok
  · cases hok
  split at hok
  · cases hok
  next hshapes =>
  split at hok
  · cases hok
  simp only at hok
  split at hok
  · cases hok
  next hdup =>
  split at hok
  · cases hok
  next hmoney =>
  split at hok
  · cases hok
  next ins hins =>
  split at hok
  · cases hok
  split at hok
  · cases hok
  next fees hfees =>
  split at hok
  · cases hok
  next hcap =>
  exact ⟨hshapes, buildIndex_clean (Bool.eq_false_iff.mpr hdup) (Bool.eq_false_iff.mpr hmoney),
    ins, fees, hins, hfees, UInt64.not_lt.mp hcap⟩

/-- No money out of nothing: each transaction after the coinbase is paid for with
coins there were, no coin pays twice, and the set gains the subsidy at most. -/
structure MoneyConserved (s s' : Lsm) (txs : List Tx) (subsidy : Nat) : Prop where
  funded : ∀ t tx, 0 < t → txs[t]? = some tx → ∃ worth : Outpoint → Nat,
    (∀ o ∈ tx.inputs, Available s txs t o (worth o)) ∧
      tx.outTotal ≤ (tx.inputs.map worth).sum
  once : (txs.tail.flatMap Tx.inputs).Nodup
  total_le : s'.coins.total Coin.worth ≤ s.coins.total Coin.worth + subsidy

theorem Verified.conserved {env : ConnectEnv} {s s' : Lsm} {h : Nat} {txs : List Tx}
    (hs : s.Sound) (hv : Verified env s h txs) (hne : txs ≠ [])
    (hwalk : StoreApplied h (walkBlockTxs txs) s s')
    (hmoney : s.coins.total Coin.worth ≤ valMaxMoney.toNat) :
    MoneyConserved s s' txs (valSubsidy env.halvingInterval h).toNat := by
  obtain ⟨cb, rest, rfl, hcb, hnull⟩ := checkShapes_none hv.shapes hne
  obtain ⟨ins, fees, hins, hfees, hcap⟩ := hv.ledger
  have hbx : (indexBlock (cb :: rest)).bx = indexedFrom 0 (cb :: rest) := by
    simpa using hv.index.bx
  have honce : (rest.flatMap Tx.inputs).Nodup := by
    have hbs := hv.index.nodup List.nodup_nil
    rw [hv.index.bs, List.nil_append, List.flatMap_cons, List.filter_append] at hbs
    have hall : (rest.flatMap Tx.inputs).filter (· ≠ nullOutpoint) = rest.flatMap Tx.inputs := by
      refine List.filter_eq_self.mpr fun o ho => ?_
      obtain ⟨tx, htx, hmem⟩ := List.mem_flatMap.mp ho
      exact decide_eq_true fun heq => hnull tx htx (heq ▸ hmem)
    exact hall ▸ hbs.of_append_right
  rw [hbx, List.tail_cons] at hins
  obtain ⟨hresolved, hsums⟩ := connectTxs_ok hins
  have hworth : ∀ i tx, rest[i]? = some tx → ∀ o ∈ tx.inputs,
      Available s (cb :: rest) (1 + i) o (inputWorth s h (cb :: rest) (1 + i) o) := by
    intro i tx hi o ho
    obtain ⟨p, hp⟩ := Option.isSome_iff_exists.mp (hresolved i tx hi o ho)
    rw [inputWorth, hp]
    exact resolvePrevout_available hs hp
  -- the coinbase creates its outputs and spends nothing
  rw [walkBlockTxs, walkFrom, walkTxIo_newOutputs, hcb, List.append_assoc] at hwalk
  obtain ⟨s₁, hin, hwalk⟩ := hwalk.append
  obtain ⟨s₂, hout, hwalk⟩ := hwalk.append
  have hkeep : Keeps s s₁ := hin.coinbaseInput hs
  obtain ⟨hs₂, hcreated⟩ := hout.outputs hkeep.sound
  change ∀ k, _ ≤ _ + posted cb.credits k at hcreated
  rw [hkeep.coins_eq] at hcreated
  have hcredits : (cb.credits.map Prod.snd).sum = cb.outTotal := sum_credits cb
  obtain ⟨hcovered, htotal⟩ := hwalk.balance s (cb :: rest)
    (s.coins.total Coin.worth + cb.outTotal) hs₂
    ((PMap.Balanced.refl s.coins).create hcreated) (by simpa using honce) hnull
    (fun i tx hi o ho => by
      have hle := (hworth i tx hi o ho).worth_le
      rwa [Nat.add_comm 1 i, List.take_succ_cons, List.flatMap_cons, Nat.add_comm i 1] at hle)
    (by simp [hcredits])
  -- the coinbase's own total is in range, so the purse is
  have hcbRange : cb.outTotal ≤ valMaxMoney.toNat := hv.index.range cb List.mem_cons_self
  have hptx : (indexBlock (cb :: rest)).ptxOut.map UInt64.toNat =
      cb.outTotal :: rest.map Tx.outTotal := by
    simpa using hv.index.ptxOut
  obtain ⟨out₀, outs, hlist, hout₀, houts⟩ := List.map_eq_cons_iff.mp hptx
  rw [hlist] at hfees hcap
  rw [← map_snd_amountsFrom s h (cb :: rest) 1 rest] at houts
  rw [valMaxMoney_toNat] at hmoney hcbRange
  obtain ⟨hpay, hfeeRange, hfeeSum⟩ :=
    valueLedger_ok hcovered (by omega) hsums houts (Nat.zero_le _) hfees
  have hsubsidy := valSubsidy_le env.halvingInterval h
  have hcap' : cb.outTotal ≤ (valSubsidy env.halvingInterval h).toNat + fees.toNat := by
    rw [← hout₀]
    refine (UInt64.le_iff_toNat_le.mp hcap).trans ?_
    rw [UInt64.toNat_add]
    exact Nat.mod_le ..
  refine ⟨fun t tx ht htx => ?_, honce, ?_⟩
  · obtain ⟨i, rfl⟩ : ∃ i, t = 1 + i := ⟨t - 1, by omega⟩
    have hi : rest[i]? = some tx := by
      rwa [Nat.add_comm 1 i, List.getElem?_cons_succ] at htx
    exact ⟨inputWorth s h (cb :: rest) (1 + i), hworth i tx hi, hpay _ (mem_amountsFrom hi)⟩
  · simp only [List.nil_append, List.map_nil, List.sum_nil, hcredits,
      UInt64.toNat_zero] at htotal hfeeSum
    omega

/-- Every block the store takes on, in every state a run leads to. -/
theorem blockApplied_conserves {slotMax blobCap tombCap manifestCap : Nat}
    {asyncFlush : Bool} {s s' : Lsm} {env : ConnectEnv} {h : Nat} {blk : Block}
    (hrun : Relation.ReflTransGen StoreStep
      (Lsm.init slotMax blobCap tombCap manifestCap asyncFlush) s)
    (hmoney : s.coins.total Coin.worth ≤ valMaxMoney.toNat)
    (happlied : BlockApplied env h blk s s') :
    MoneyConserved s s' blk.txs (valSubsidy env.halvingInterval h).toNat := by
  have hs := sound_of_storeHistory hrun (Represents.init ..).sound
  have hidle : blk.txs.tail = [] →
      MoneyConserved s s blk.txs (valSubsidy env.halvingInterval h).toNat := by
    intro htail
    refine ⟨fun t tx ht htx => ?_, by simp [htail], Nat.le_add_right ..⟩
    have hnone : blk.txs.tail[t - 1]? = some tx := by
      rw [List.getElem?_tail, Nat.sub_add_cancel ht, htx]
    simp [htail] at hnone
  cases happlied with
  | empty hempty => exact hidle (by simp [hempty])
  | genesis _ honly => exact hidle honly
  | applied hne _ hverify hwalk =>
      exact (verifyBlock_ok hverify).conserved hs hne hwalk hmoney

/-- A coinbase that claims the subsidy and the fee, and a transaction that spends
one coin of the set. -/
def sampleSpendBlock : Block where
  isGenesis := false
  txs :=
    [⟨Txid.ofBytes [2], [nullOutpoint], [⟨5000000010, []⟩]⟩,
      ⟨Txid.ofBytes [3], [sampleOutpoint 0], [⟨15, []⟩, ⟨25, []⟩]⟩]

def sampleConnectEnv : ConnectEnv :=
  ⟨210000, true, fun _ => none, fun _ _ _ => none, fun _ => none, fun _ => none⟩

def sampleStore : Lsm :=
  ((StoreOp.put (sampleOutpoint 0) sampleOutput).run (Lsm.init 8 1000 8 8 false)).getD
    (Lsm.init 8 1000 8 8 false)

theorem total_sampleStore : sampleStore.coins.total Coin.worth ≤ 50 := by
  have hinit := Represents.init 8 1000 8 8 false
  have hcoins : sampleStore.coins = (Lsm.init 8 1000 8 8 false).coins.put (sampleOutpoint 0)
      sampleOutput := (hinit.sound.utxoLsmPut rfl).2
  have hbal : PMap.Balanced Coin.worth (Lsm.init 8 1000 8 8 false).coins sampleStore.coins
      [] [(sampleOutpoint 0, 50)] := by
    refine (PMap.Balanced.refl _).create fun k => ?_
    rw [hcoins, posted_cons, posted_nil]
    exact valueAt_put ..
  have hle := hbal.total_le (Lsm.finite_coins _) (Lsm.finite_coins _)
  have hzero : (Lsm.init 8 1000 8 8 false).coins.total Coin.worth = 0 := by
    rw [hinit.coins_eq]
    exact finsum_zero
  simpa [hzero] using hle

theorem blockApplied_conserves_sample :
    Relation.ReflTransGen StoreStep (Lsm.init 8 1000 8 8 false) sampleStore ∧
      sampleStore.coins.total Coin.worth ≤ valMaxMoney.toNat ∧
      ∃ s', BlockApplied sampleConnectEnv 200 sampleSpendBlock sampleStore s' ∧
        MoneyConserved sampleStore s' sampleSpendBlock.txs 5000000000 := by
  have run : Relation.ReflTransGen StoreStep (Lsm.init 8 1000 8 8 false) sampleStore :=
    .single ⟨.put (sampleOutpoint 0) sampleOutput, rfl⟩
  have hmoney : sampleStore.coins.total Coin.worth ≤ valMaxMoney.toNat :=
    total_sampleStore.trans (by decide)
  have happlied : BlockApplied sampleConnectEnv 200 sampleSpendBlock sampleStore _ :=
    .applied (by simp [sampleSpendBlock]) rfl rfl
      (.event .coinbaseInput (.event (.create rfl rfl) (.event (.spend (by decide) rfl)
        (.event (.create rfl rfl) (.event (.create rfl rfl) .done)))))
  exact ⟨run, hmoney, _, happlied, blockApplied_conserves run hmoney happlied⟩

end BitcoinMachineCode.Storage
