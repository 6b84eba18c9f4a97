import Mathlib.Data.UInt
import Mathlib.Tactic.LinearCombination
import BitcoinMachineCode.Foundation.Totals
import BitcoinMachineCode.Storage.Ledger

/-!
# The coin statistics index

`daemon/coinstats_index.c` with the coin events `daemon/utxo_live.c` feeds it: running
counters, and a row of them for every connected block.  A block's figures are the
difference of its row and the row below.
-/

namespace BitcoinMachineCode.Storage

open BitcoinMachineCode.Foundation

/-! ## The counters -/

/-- What a coin's arrival (with its height) or departure tells the index; `invalid` is the
duplicate outpoint it cannot describe. -/
inductive CoinEvent where
  | add (height : Nat) (c : Coin)
  | remove (c : Coin)
  | invalid

/-- `csi_set_chain` -/
structure CsiChain where
  halving : Nat
  mainnet : Bool
  halving_pos : 0 < halving

def CsiChain.subsidyAt (p : CsiChain) (h : Nat) : UInt64 :=
  if 64 ≤ h / p.halving then 0 else UInt64.ofNat (5000000000 >>> (h / p.halving))

/-- `csh_bip30_unspendable` -/
def CsiChain.bip30Height (p : CsiChain) (h : Nat) : Bool :=
  p.mainnet && (h == 91722 || h == 91812)

/-- `utxo_stats_t`, as far as it counts. -/
structure UtxoStats where
  txouts : UInt64
  amount : UInt64
  deriving DecidableEq

def UtxoStats.add (st : UtxoStats) (c : Coin) : UtxoStats :=
  ⟨st.txouts + 1, st.amount + c.value⟩

structure Acct where
  prevoutSpent : UInt64
  coinbase : UInt64
  newExCb : UInt64
  unspScripts : UInt64
  unspGenesis : UInt64
  unspBip30 : UInt64
  subsidySum : UInt64
  gen : UInt32
  deriving DecidableEq

def acctEvent (p : CsiChain) (add : Bool) (height : Nat) (c : Coin) (a : Acct) : Acct :=
  if !add then { a with prevoutSpent := a.prevoutSpent + c.value }
  else if utxoScriptUnspendable c.script then { a with unspScripts := a.unspScripts + c.value }
  else if c.isCoinbase then
    if p.bip30Height height then a else { a with coinbase := a.coinbase + c.value }
  else { a with newExCb := a.newExCb + c.value }

/-- The subsidy of the block that is closed, with the genesis block's and the two repeated
coinbases' set apart. -/
def Acct.close (p : CsiChain) (h : Nat) (a : Acct) : Acct :=
  { a with
    subsidySum := a.subsidySum + p.subsidyAt h
    unspGenesis := if h = 0 then a.unspGenesis + p.subsidyAt h else a.unspGenesis
    unspBip30 := if p.bip30Height h then a.unspBip30 + p.subsidyAt h else a.unspBip30 }

/-- `csh_row_t` -/
structure CsiRow where
  stats : UtxoStats
  acct : Acct
  deriving DecidableEq

/-- `coinstats_hist.dat`: the generation of its header, and the rows that pass their
checks. -/
structure HistFile where
  gen : UInt32
  rows : Nat → Option CsiRow

structure Csi where
  num : UtxoStats
  den : UtxoStats
  acct : Acct
  baseline : Bool
  valid : Bool
  hist : HistFile

namespace Csi

/-- What is in the set: in, less out. -/
def stats (s : Csi) : UtxoStats :=
  ⟨s.num.txouts - s.den.txouts, s.num.amount - s.den.amount⟩

def onEvent (p : CsiChain) (s : Csi) (e : CoinEvent) : Csi :=
  if !s.valid then s
  else
    match e with
    | .add height c => { s with num := s.num.add c, acct := acctEvent p true height c s.acct }
    | .remove c =>
        { s with den := s.den.add c, acct := acctEvent p false c.height.toNat c s.acct }
    | .invalid => { s with valid := false }

def histWriteRow (s : Csi) (h : Nat) : Csi :=
  { s with hist := ⟨s.acct.gen, Function.update s.hist.rows h (some ⟨s.stats, s.acct⟩)⟩ }

def csiHistCommit (p : CsiChain) (s : Csi) (h : Nat) : Csi :=
  if s.baseline then
    { histWriteRow { s with acct := ⟨0, 0, 0, 0, 0, 0, 0, s.hist.gen + 1⟩ } h with
      baseline := false }
  else histWriteRow { s with acct := s.acct.close p h } h

def csiOnBlock (p : CsiChain) (s : Csi) (h : Nat) : Csi :=
  if s.valid then csiHistCommit p s h else s

theorem csiOnBlock_eq {p : CsiChain} {s : Csi} (hvalid : s.valid = true)
    (hbase : s.baseline = false) (h : Nat) :
    s.csiOnBlock p h = histWriteRow { s with acct := s.acct.close p h } h := by
  simp [csiOnBlock, csiHistCommit, hvalid, hbase]

/-- The walk over the live set, and the baseline row. -/
def csiSeedFromWalk (p : CsiChain) (hist : HistFile) (coins : List Coin) (h : Nat) : Csi :=
  csiHistCommit p
    { num := coins.foldl UtxoStats.add ⟨0, 0⟩
      den := ⟨0, 0⟩
      acct := ⟨0, 0, 0, 0, 0, 0, 0, 0⟩
      baseline := true
      valid := true
      hist := hist } h

end Csi

/-! ## The answer for a height -/

structure Figures where
  prevout : UInt64
  coinbase : UInt64
  newExCb : UInt64
  scripts : UInt64
  genesis : UInt64
  bip30 : UInt64
  unclaimed : UInt64
  deriving DecidableEq

/-- No row, a row without a predecessor in its generation, or the row and the block's
figures. -/
inductive HistAnswer where
  | absent
  | baseline (stats : UtxoStats)
  | found (stats : UtxoStats) (figures : Figures)
  deriving DecidableEq

/-- What one row has more than the other. -/
def rowFigures (p : CsiChain) (h : Nat) (cur prev : Acct) : Figures :=
  let dPrevout := cur.prevoutSpent - prev.prevoutSpent
  let dCoinbase := cur.coinbase - prev.coinbase
  let dNewExCb := cur.newExCb - prev.newExCb
  let dScripts := cur.unspScripts - prev.unspScripts
  let dGenesis := cur.unspGenesis - prev.unspGenesis
  let dBip30 := cur.unspBip30 - prev.unspBip30
  ⟨dPrevout, dCoinbase, dNewExCb, dScripts, dGenesis, dBip30,
    p.subsidyAt h + dPrevout - dNewExCb - dCoinbase - dGenesis - dBip30 - dScripts⟩

def csiHistQuery (p : CsiChain) (file : HistFile) (h : Nat) : HistAnswer :=
  match file.rows h with
  | none => .absent
  | some cur =>
      if h = 0 then .found cur.stats ⟨0, 0, 0, 0, p.subsidyAt 0, 0, 0⟩
      else
        match file.rows (h - 1) with
        | none => .baseline cur.stats
        | some prev =>
            if prev.acct.gen ≠ cur.acct.gen then .baseline cur.stats
            else .found cur.stats (rowFigures p h cur.acct prev.acct)

theorem csiHistQuery_succ {p : CsiChain} {file : HistFile} {h : Nat} {cur prev : CsiRow}
    (hcur : file.rows (h + 1) = some cur) (hprev : file.rows h = some prev)
    (hgen : prev.acct.gen = cur.acct.gen) :
    csiHistQuery p file (h + 1) =
      .found cur.stats (rowFigures p (h + 1) cur.acct prev.acct) := by
  simp [csiHistQuery, hcur, hprev, hgen]

/-! ## What the live set feeds it -/

/-- `live_on_input` and `live_on_output`: only a coin that comes or goes is an event. -/
def eventFeed (h : Nat) (s : CoinSet) : WalkEvent → List CoinEvent
  | .input o =>
      if o = nullOutpoint then []
      else
        match s o with
        | none => []
        | some c => [.remove c]
  | .output o out isCoinbase =>
      match outputCoin h isCoinbase out with
      | none => []
      | some c =>
          match s o with
          | none => [.add h c]
          | some old => if isCoinbase then [.remove old, .add h c] else [.invalid]

def connectFeed (h : Nat) : CoinSet → List WalkEvent → List CoinEvent
  | _, [] => []
  | s, e :: es => eventFeed h s e ++ connectFeed h (applyEvent h s e) es

/-- `undo_restore_cb` -/
def restoreFeed : CoinSet → List UndoRec → List CoinEvent
  | _, [] => []
  | s, r :: rs =>
      (if (s r.o).isSome then [] else [.add r.coin.height.toNat r.coin]) ++
        restoreFeed (s.restore r.entry) rs

/-- `del_created_on_output` -/
def deleteFeed : CoinSet → List Outpoint → List CoinEvent
  | _, [] => []
  | s, o :: os =>
      (match s o with
        | none => []
        | some c => [CoinEvent.remove c]) ++ deleteFeed (s.del o) os

/-- A block of the active chain with the records of its undo file. -/
structure Link where
  block : Block
  recs : List UndoRec

/-- The live set, the active chain from height 1 on (the tip first), and the index. -/
structure Fed where
  coins : CoinSet
  chain : List Link
  csi : Csi

inductive ChainMove where
  | connect (blk : Block)
  | disconnect

namespace Fed

def connect (p : CsiChain) (st : Fed) (blk : Block) : Fed :=
  let h := st.chain.length + 1
  let evs := walkBlockTxs blk.txs
  { coins := applyEvents h st.coins evs
    chain := ⟨blk, spentRecs h st.coins evs⟩ :: st.chain
    csi := ((connectFeed h st.coins evs).foldl (Csi.onEvent p) st.csi).csiOnBlock p h }

def disconnect (p : CsiChain) (st : Fed) : Fed :=
  match st.chain with
  | [] => st
  | link :: rest =>
      let evs := walkBlockTxs link.block.txs
      let restored := st.coins.restoreAll (link.recs.map UndoRec.entry)
      { coins := restored.delAll (created evs)
        chain := rest
        csi := (restoreFeed st.coins link.recs ++ deleteFeed restored (created evs)).foldl
          (Csi.onEvent p) st.csi }

def move (p : CsiChain) (st : Fed) : ChainMove → Fed
  | .connect blk => st.connect p blk
  | .disconnect => st.disconnect p

def run (p : CsiChain) (st : Fed) (moves : List ChainMove) : Fed := moves.foldl (move p) st

end Fed

/-! ## What a block should show -/

def WalkEvent.outputValue (coinbase unspendable : Bool) : WalkEvent → UInt64
  | .input _ => 0
  | .output _ out isCoinbase =>
      if isCoinbase = coinbase ∧ utxoScriptUnspendable out.script = unspendable then out.value
      else 0

/-- The outputs of the coinbase or of the others, with spendable scripts or without. -/
def outputSum (coinbase unspendable : Bool) (evs : List WalkEvent) : UInt64 :=
  (evs.map (WalkEvent.outputValue coinbase unspendable)).sum

def spentSum (recs : List UndoRec) : UInt64 := (recs.map fun r => r.coin.value).sum

/-- The figures of a block at a height, on the coin set it spends from.  The two coinbases
that were repeated count as their subsidy alone. -/
def blockFigures (p : CsiChain) (h : Nat) (s : CoinSet) (txs : List Tx) : Figures :=
  let evs := walkBlockTxs txs
  let prevout := spentSum (spentRecs h s evs)
  let coinbase := if p.bip30Height h then 0 else outputSum true false evs
  let newExCb := outputSum false false evs
  let scripts := outputSum false true evs + if p.bip30Height h then 0 else outputSum true true evs
  let genesis := if h = 0 then p.subsidyAt h else 0
  let bip30 := if p.bip30Height h then p.subsidyAt h else 0
  ⟨prevout, coinbase, newExCb, scripts, genesis, bip30,
    p.subsidyAt h + prevout - newExCb - coinbase - genesis - bip30 - scripts⟩

/-- The coin set that a chain's blocks leave, the last block first. -/
def ledger : List Block → CoinSet
  | [] => fun _ => none
  | blk :: below => applyEvents (below.length + 1) (ledger below) (walkBlockTxs blk.txs)

noncomputable def setStats (s : CoinSet) : UtxoStats :=
  ⟨UInt64.ofNat s.size, UInt64.ofNat (s.total fun c => c.value.toNat)⟩

/-- The index answers for the last of the blocks as it should. -/
def Reports (p : CsiChain) (hist : HistFile) : List Block → Prop
  | [] => True
  | blk :: below =>
      csiHistQuery p hist (below.length + 1) =
        .found (setStats (ledger (blk :: below)))
          (blockFigures p (below.length + 1) (ledger below) blk.txs)

namespace Fed

def blocks (st : Fed) : List Block := st.chain.map Link.block

/-- Every height of the active chain above the baseline. -/
def ReportsAbove (p : CsiChain) (b : Nat) (st : Fed) : Prop :=
  ∀ sub, sub <:+ st.blocks → b < sub.length → Reports p st.csi.hist sub

/-- Every block is valid on the coins it is connected to. -/
def ValidMoves (p : CsiChain) : Fed → List ChainMove → Prop
  | _, [] => True
  | st, .connect blk :: ms =>
      BlockValid (st.chain.length + 1) st.coins blk.txs ∧ ValidMoves p (st.connect p blk) ms
  | st, .disconnect :: ms => ValidMoves p (st.disconnect p) ms

/-- The counters are still those of the tip's row, and no output without a spendable script
has a value. -/
structure CleanConnect (p : CsiChain) (st : Fed) (blk : Block) : Prop where
  carried : (st.csi.hist.rows st.chain.length).map CsiRow.acct = some st.csi.acct
  spendable : (blockFigures p (st.chain.length + 1) st.coins blk.txs).scripts = 0

def CleanMoves (p : CsiChain) (b : Nat) : Fed → List ChainMove → Prop
  | _, [] => True
  | st, .connect blk :: ms =>
      (b ≤ st.chain.length → CleanConnect p st blk) ∧ CleanMoves p b (st.connect p blk) ms
  | st, .disconnect :: ms => CleanMoves p b (st.disconnect p) ms

end Fed

/-- The blocks with what their undo files hold. -/
def linksOf : List Block → List Link
  | [] => []
  | blk :: below =>
      ⟨blk, spentRecs (below.length + 1) (ledger below) (walkBlockTxs blk.txs)⟩ :: linksOf below

def ValidChain : List Block → Prop
  | [] => True
  | blk :: below =>
      BlockValid (below.length + 1) (ledger below) blk.txs ∧ ValidChain below

@[simp] theorem length_linksOf (bs : List Block) : (linksOf bs).length = bs.length := by
  induction bs with
  | nil => rfl
  | cons blk bs ih => simp [linksOf, ih]

@[simp] theorem map_block_linksOf (bs : List Block) : (linksOf bs).map Link.block = bs := by
  induction bs with
  | nil => rfl
  | cons blk bs ih => simp [linksOf, ih]

/-- A seed over a chain's coins, in any order of the walk. -/
def Fed.start (p : CsiChain) (hist : HistFile) (below : List Block) (walk : List (Outpoint × Coin)) :
    Fed where
  coins := ledger below
  chain := linksOf below
  csi := .csiSeedFromWalk p hist (walk.map Prod.snd) below.length

/-! ## Counting coins -/

section Counting

open scoped UInt64.CommRing

/-- The index counts a finite set. -/
structure Counts (csi : Csi) (s : CoinSet) : Prop where
  valid : csi.valid = true
  finite : s.dom.Finite
  stats : csi.stats = setStats s

variable {p : CsiChain} {csi : Csi} {s : CoinSet} {o : Outpoint} {c : Coin}

theorem Counts.add (h : Counts csi s) (ho : s o = none) (height : Nat) :
    Counts (csi.onEvent p (.add height c)) (s.put o c) := by
  have hsize := PMap.size_put h.finite ho c
  have htotal := PMap.total_put (fun c : Coin => c.value.toNat) h.finite ho c
  have hstats := h.stats
  simp only [Csi.stats, setStats, UtxoStats.mk.injEq] at hstats
  refine ⟨by simp [Csi.onEvent, h.valid], ?_, ?_⟩
  · rw [PMap.dom_put]
    exact h.finite.insert o
  · simp only [Csi.onEvent, h.valid, Bool.not_true, Bool.false_eq_true, if_false, Csi.stats,
      UtxoStats.add, setStats, UtxoStats.mk.injEq]
    rw [hsize, htotal, UInt64.ofNat_add, UInt64.ofNat_add, UInt64.ofNat_toNat, ← hstats.1,
      ← hstats.2]
    constructor
    · change _ = _ + 1
      ring
    · ring

theorem Counts.remove (h : Counts csi s) (ho : s o = some c) :
    Counts (csi.onEvent p (.remove c)) (s.del o) := by
  have hdel : (s.del o).dom.Finite := by
    rw [PMap.dom_del]
    exact h.finite.sdiff
  have hback : (s.del o).put o c = s := by
    funext x
    rw [PMap.put_apply, PMap.del_apply]
    by_cases hx : x = o
    · rw [if_pos hx, hx, ho]
    · rw [if_neg hx, if_neg hx]
  have hsize := PMap.size_put hdel (PMap.del_self s o) c
  have htotal := PMap.total_put (fun c : Coin => c.value.toNat) hdel (PMap.del_self s o) c
  rw [hback] at hsize htotal
  have hstats := h.stats
  simp only [Csi.stats, setStats, UtxoStats.mk.injEq] at hstats
  rw [hsize, htotal, UInt64.ofNat_add, UInt64.ofNat_add, UInt64.ofNat_toNat] at hstats
  refine ⟨by simp [Csi.onEvent, h.valid], hdel, ?_⟩
  simp only [Csi.onEvent, h.valid, Bool.not_true, Bool.false_eq_true, if_false, Csi.stats,
    UtxoStats.add, setStats, UtxoStats.mk.injEq]
  constructor
  · have h1 : UInt64.ofNat 1 = 1 := rfl
    rw [h1] at hstats
    linear_combination hstats.1
  · linear_combination hstats.2

end Counting

/-! ## A block's feed -/

section Feeds

open scoped UInt64.CommRing

variable {p : CsiChain} {h : Nat} {csi : Csi} {s : CoinSet}

/-- What events leave alone. -/
structure SameFile (csi csi' : Csi) : Prop where
  baseline : csi'.baseline = csi.baseline
  hist : csi'.hist = csi.hist

theorem sameFile_onEvent (csi : Csi) (e : CoinEvent) : SameFile csi (csi.onEvent p e) := by
  unfold Csi.onEvent
  split_ifs
  · exact ⟨rfl, rfl⟩
  · cases e <;> exact ⟨rfl, rfl⟩

theorem sameFile_feed (csi : Csi) (es : List CoinEvent) :
    SameFile csi (es.foldl (Csi.onEvent p) csi) := by
  induction es generalizing csi with
  | nil => exact ⟨rfl, rfl⟩
  | cons e es ih =>
      have hfirst := sameFile_onEvent (p := p) csi e
      have hrest := ih (csi.onEvent p e)
      exact ⟨hrest.baseline.trans hfirst.baseline, hrest.hist.trans hfirst.hist⟩

/-- What a walk's events add to the counters. -/
def Acct.plus (p : CsiChain) (h : Nat) (a : Acct) (spent : UInt64) (evs : List WalkEvent) : Acct :=
  { a with
    prevoutSpent := a.prevoutSpent + spent
    coinbase := a.coinbase + if p.bip30Height h then 0 else outputSum true false evs
    newExCb := a.newExCb + outputSum false false evs }

theorem feed_event (hcounts : Counts csi s) {e : WalkEvent} (hv : EventValid h s e) :
    Counts ((eventFeed h s e).foldl (Csi.onEvent p) csi) (applyEvent h s e) ∧
      ((eventFeed h s e).foldl (Csi.onEvent p) csi).acct =
        csi.acct.plus p h (spentSum (eventRecs s e)) [e] := by
  cases e with
  | input o =>
      by_cases hnull : o = nullOutpoint
      · simpa [eventFeed, applyEvent, eventRecs, hnull, Acct.plus, spentSum, outputSum,
          WalkEvent.outputValue] using hcounts
      · obtain hbad | ⟨c, hc⟩ := hv
        · exact absurd hbad hnull
        · simp only [eventFeed, hnull, if_false, hc, applyEvent, eventRecs, List.foldl_cons,
            List.foldl_nil]
          refine ⟨hcounts.remove hc, ?_⟩
          simp [Csi.onEvent, hcounts.valid, acctEvent, Acct.plus, spentSum, outputSum,
            WalkEvent.outputValue]
  | output o out isCoinbase =>
      cases hcoin : outputCoin h isCoinbase out with
      | none =>
          have hscript := (outputCoin_eq_none_iff h isCoinbase out).mp hcoin
          simpa [eventFeed, applyEvent, eventRecs, hcoin, Acct.plus, spentSum, outputSum,
            WalkEvent.outputValue, hscript] using hcounts
      | some c =>
          have ho : s o = none := hv c hcoin
          simp only [eventFeed, hcoin, ho, applyEvent, eventRecs, List.foldl_cons, List.foldl_nil,
            Option.isSome_none, Bool.false_and, Bool.false_eq_true, if_false]
          refine ⟨hcounts.add ho h, ?_⟩
          unfold outputCoin at hcoin
          split_ifs at hcoin with hscript
          cases hcoin
          cases isCoinbase <;> cases hbip : p.bip30Height h <;>
            simp [Csi.onEvent, hcounts.valid, acctEvent, hscript, hbip, Acct.plus, spentSum,
              outputSum, WalkEvent.outputValue]

theorem feed_connect (hcounts : Counts csi s) {evs : List WalkEvent} (hv : ValidOn h s evs) :
    Counts ((connectFeed h s evs).foldl (Csi.onEvent p) csi) (applyEvents h s evs) ∧
      ((connectFeed h s evs).foldl (Csi.onEvent p) csi).acct =
        csi.acct.plus p h (spentSum (spentRecs h s evs)) evs := by
  induction evs generalizing csi s with
  | nil => simpa [connectFeed, applyEvents, spentRecs, Acct.plus, spentSum, outputSum] using hcounts
  | cons e es ih =>
      obtain ⟨hcounts', hacct⟩ := feed_event (p := p) hcounts hv.1
      obtain ⟨hcounts'', hacct'⟩ := ih hcounts' hv.2
      simp only [connectFeed, List.foldl_append, applyEvents, spentRecs]
      refine ⟨hcounts'', ?_⟩
      rw [hacct', hacct]
      simp only [Acct.plus, spentSum, outputSum, List.map_append, List.sum_append, List.map_cons,
        List.map_nil, List.sum_cons, List.sum_nil]
      congr 1
      · ring
      · split_ifs <;> ring
      · ring

theorem feed_restore (hcounts : Counts csi s) (recs : List UndoRec) :
    Counts ((restoreFeed s recs).foldl (Csi.onEvent p) csi)
      (s.restoreAll (recs.map UndoRec.entry)) := by
  induction recs generalizing csi s with
  | nil => exact hcounts
  | cons r rs ih =>
      simp only [restoreFeed, List.foldl_append, List.map_cons, PMap.restoreAll_cons]
      apply ih
      cases hr : s r.o with
      | none =>
          have hput : s.restore r.entry = s.put r.o r.coin := by
            simp [PMap.restore, UndoRec.entry, hr]
          rw [hput]
          exact hcounts.add hr _
      | some c =>
          have hsame : s.restore r.entry = s := by
            simp [PMap.restore, UndoRec.entry, hr]
          rw [hsame]
          exact hcounts

theorem feed_delete (hcounts : Counts csi s) (os : List Outpoint) :
    Counts ((deleteFeed s os).foldl (Csi.onEvent p) csi) (s.delAll os) := by
  induction os generalizing csi s with
  | nil => exact hcounts
  | cons o os ih =>
      simp only [deleteFeed, List.foldl_append, PMap.delAll_cons]
      apply ih
      cases ho : s o with
      | none =>
          rw [PMap.del_of_none ho]
          exact hcounts
      | some c => exact hcounts.remove ho

end Feeds

/-! ## A run -/

namespace Fed

open scoped UInt64.CommRing

variable {p : CsiChain} {st : Fed}

/-- The live set, the undo files and the index's counts belong to the active chain. -/
structure Current (st : Fed) : Prop where
  coins : st.coins = ledger st.blocks
  chain : st.chain = linksOf st.blocks
  valid : ValidChain st.blocks
  counts : Counts st.csi st.coins
  started : st.csi.baseline = false

theorem Current.length (h : st.Current) : st.chain.length = st.blocks.length := by
  rw [h.chain, length_linksOf]

theorem blocks_connect (p : CsiChain) (st : Fed) (blk : Block) :
    (st.connect p blk).blocks = blk :: st.blocks := rfl

/-- The index after a connect: the events, and the new row. -/
theorem Current.csi_connect (h : st.Current) {blk : Block}
    (hblk : BlockValid (st.chain.length + 1) st.coins blk.txs) :
    ∃ fed : Csi, Counts fed (st.connect p blk).coins ∧ SameFile st.csi fed ∧
      fed.acct = st.csi.acct.plus p (st.chain.length + 1)
        (spentSum (spentRecs (st.chain.length + 1) st.coins (walkBlockTxs blk.txs)))
        (walkBlockTxs blk.txs) ∧
      (st.connect p blk).csi = Csi.histWriteRow
        { fed with acct := fed.acct.close p (st.chain.length + 1) } (st.chain.length + 1) := by
  obtain ⟨hcounts, hacct⟩ := feed_connect (p := p) h.counts hblk.valid
  have hfile := sameFile_feed (p := p) st.csi
    (connectFeed (st.chain.length + 1) st.coins (walkBlockTxs blk.txs))
  exact ⟨_, hcounts, hfile, hacct,
    Csi.csiOnBlock_eq hcounts.valid (hfile.baseline.trans h.started) _⟩

theorem Current.connect (h : st.Current) {blk : Block}
    (hblk : BlockValid (st.chain.length + 1) st.coins blk.txs) :
    (st.connect p blk).Current := by
  have hlen := h.length
  obtain ⟨fed, hcounts, hfile, -, hcsi⟩ := h.csi_connect (p := p) hblk
  rw [hlen, h.coins] at hblk
  refine ⟨?_, ?_, ⟨hblk, h.valid⟩, ?_, ?_⟩
  · rw [blocks_connect, ledger, ← h.coins, ← hlen]
    rfl
  · rw [blocks_connect, linksOf, ← h.coins, ← hlen, ← h.chain]
    rfl
  · rw [hcsi]
    exact ⟨hcounts.valid, hcounts.finite, hcounts.stats⟩
  · rw [hcsi]
    exact hfile.baseline.trans h.started

theorem disconnect_cases (p : CsiChain) (st : Fed) :
    st.chain = [] ∧ st.disconnect p = st ∨
      ∃ link rest, st.chain = link :: rest ∧ (st.disconnect p).chain = rest ∧
        (st.disconnect p).coins = (st.coins.restoreAll (link.recs.map UndoRec.entry)).delAll
          (created (walkBlockTxs link.block.txs)) ∧
        (st.disconnect p).csi = (restoreFeed st.coins link.recs ++
          deleteFeed (st.coins.restoreAll (link.recs.map UndoRec.entry))
            (created (walkBlockTxs link.block.txs))).foldl (Csi.onEvent p) st.csi := by
  unfold disconnect
  split
  next hnil => exact .inl ⟨hnil, rfl⟩
  next link rest hcons => exact .inr ⟨link, rest, hcons, rfl, rfl, rfl⟩

theorem Current.disconnect (h : st.Current) : (st.disconnect p).Current := by
  obtain ⟨-, heq⟩ | ⟨link, rest, hcons, hchain, hcoins, hcsi⟩ := disconnect_cases p st
  · rw [heq]
    exact h
  · have hblocks : st.blocks = link.block :: (st.disconnect p).blocks := by
      unfold blocks
      rw [hcons, hchain, List.map_cons]
    have hlinks := h.chain
    have hvalid := h.valid
    have hset := h.coins
    rw [hblocks] at hlinks hvalid hset
    rw [hcons, linksOf] at hlinks
    obtain ⟨hlink, hrest⟩ := List.cons.inj hlinks
    have hcounts : Counts (st.disconnect p).csi (st.disconnect p).coins := by
      rw [hcsi, hcoins, List.foldl_append]
      exact feed_delete (feed_restore h.counts _) _
    refine ⟨?_, ?_, hvalid.2, hcounts, ?_⟩
    · have hreverse := hvalid.1.reverse
      rw [hcoins, hset, hlink]
      exact hreverse
    · rw [hchain]
      exact hrest
    · rw [hcsi]
      exact (sameFile_feed (p := p) st.csi _).baseline.trans h.started

theorem Current.move (h : st.Current) {mv : ChainMove}
    (hmv : ∀ blk, mv = .connect blk → BlockValid (st.chain.length + 1) st.coins blk.txs) :
    (st.move p mv).Current := by
  cases mv with
  | connect blk => exact h.connect (hmv blk rfl)
  | disconnect => exact h.disconnect

/-- The new row against the row below shows the block that was connected. -/
theorem Current.reports_connect (h : st.Current) {blk : Block}
    (hblk : BlockValid (st.chain.length + 1) st.coins blk.txs) (hclean : st.CleanConnect p blk) :
    Reports p (st.connect p blk).csi.hist (blk :: st.blocks) := by
  have hnext := h.connect (p := p) hblk
  obtain ⟨fed, hcounts, hfile, hacct, hcsi⟩ := h.csi_connect (p := p) hblk
  obtain ⟨row, hrow, hcarried⟩ := Option.map_eq_some_iff.mp hclean.carried
  have hcur : (st.connect p blk).csi.hist.rows (st.chain.length + 1) =
      some ⟨fed.stats, fed.acct.close p (st.chain.length + 1)⟩ := by
    rw [hcsi]
    simp [Csi.histWriteRow, Csi.stats]
  have hprev : (st.connect p blk).csi.hist.rows st.chain.length = some row := by
    rw [hcsi]
    simp only [Csi.histWriteRow]
    rw [Function.update_of_ne (by omega), hfile.hist]
    exact hrow
  have hbelow : row.acct = st.csi.acct := hcarried
  have hafter : fed.stats = setStats (ledger (blk :: st.blocks)) :=
    hcounts.stats.trans (congrArg setStats hnext.coins)
  have hgen : row.acct.gen = (fed.acct.close p (st.chain.length + 1)).gen := by
    rw [hbelow, hacct]
    rfl
  have hscripts := hclean.spendable
  simp only [Reports]
  rw [← h.length, ← h.coins, csiHistQuery_succ hcur hprev hgen, hafter, hbelow, hacct]
  congr 1
  simp only [rowFigures, Acct.close, Acct.plus, blockFigures, Nat.add_eq_zero_iff, one_ne_zero,
    and_false, if_false, add_sub_cancel_left, sub_self] at hscripts ⊢
  rw [hscripts]
  cases p.bip30Height (st.chain.length + 1) <;> simp

end Fed

theorem Reports.of_rows {p : CsiChain} {hist hist' : HistFile} {sub : List Block}
    (h : Reports p hist sub) (hrows : ∀ n ≤ sub.length, hist'.rows n = hist.rows n) :
    Reports p hist' sub := by
  cases sub with
  | nil => trivial
  | cons blk below =>
      have hcur := hrows (below.length + 1) le_rfl
      have hprev := hrows (below.length + 1 - 1) (by simp)
      simp only [Reports, csiHistQuery] at h ⊢
      rw [hcur, hprev]
      exact h

namespace Fed

open scoped UInt64.CommRing

variable {p : CsiChain} {st : Fed} {b : Nat}

theorem Current.reportsAbove_connect (h : st.Current) (hreports : st.ReportsAbove p b)
    {blk : Block} (hblk : BlockValid (st.chain.length + 1) st.coins blk.txs)
    (hclean : b ≤ st.chain.length → st.CleanConnect p blk) :
    (st.connect p blk).ReportsAbove p b := by
  intro sub hsub hb
  rw [blocks_connect, List.suffix_cons_iff] at hsub
  rcases hsub with rfl | hsub
  · have hlen := h.length
    rw [List.length_cons] at hb
    exact h.reports_connect hblk (hclean (by omega))
  · -- rows at and below the old tip stay
    refine (hreports sub hsub hb).of_rows fun n hn => ?_
    obtain ⟨fed, -, hfile, -, hcsi⟩ := h.csi_connect (p := p) hblk
    have hle := hsub.length_le
    rw [← h.length] at hle
    rw [hcsi]
    simp only [Csi.histWriteRow]
    rw [Function.update_of_ne (by omega), hfile.hist]

theorem reportsAbove_disconnect (hreports : st.ReportsAbove p b) :
    (st.disconnect p).ReportsAbove p b := by
  obtain ⟨-, heq⟩ | ⟨link, rest, hcons, hchain, -, hcsi⟩ := disconnect_cases p st
  · rw [heq]
    exact hreports
  · intro sub hsub hb
    have hblocks : (st.disconnect p).blocks <:+ st.blocks := by
      unfold blocks
      rw [hcons, hchain]
      exact List.suffix_cons _ _
    rw [hcsi, (sameFile_feed (p := p) st.csi _).hist]
    exact hreports sub (hsub.trans hblocks) hb

theorem Current.reportsAbove_run (h : st.Current) (hreports : st.ReportsAbove p b)
    {moves : List ChainMove} (hvalid : st.ValidMoves p moves) (hclean : st.CleanMoves p b moves) :
    (st.run p moves).ReportsAbove p b := by
  induction moves generalizing st with
  | nil => exact hreports
  | cons mv moves ih =>
      cases mv with
      | connect blk =>
          exact ih (h.connect hvalid.1) (h.reportsAbove_connect hreports hvalid.1 hclean.1)
            hvalid.2 hclean.2
      | disconnect => exact ih h.disconnect (reportsAbove_disconnect hreports) hvalid hclean

theorem foldl_add (cs : List Coin) (st : UtxoStats) :
    cs.foldl UtxoStats.add st =
      ⟨st.txouts + UInt64.ofNat cs.length,
        st.amount + UInt64.ofNat (cs.map fun c => c.value.toNat).sum⟩ := by
  induction cs generalizing st with
  | nil => simp
  | cons c cs ih =>
      rw [List.foldl_cons, ih]
      simp only [UtxoStats.add, List.length_cons, List.map_cons, List.sum_cons,
        UInt64.ofNat_add, UInt64.ofNat_toNat, UtxoStats.mk.injEq]
      constructor
      · change st.txouts + 1 + _ = st.txouts + (_ + 1)
        ring
      · ring

theorem current_start (p : CsiChain) (hist : HistFile) {below : List Block}
    {walk : List (Outpoint × Coin)} (hbelow : ValidChain below)
    (hwalk : PMap.Enumerates walk (ledger below)) : (start p hist below walk).Current := by
  have hblocks : (start p hist below walk).blocks = below := map_block_linksOf below
  refine ⟨?_, ?_, ?_, ⟨rfl, ?_, ?_⟩, rfl⟩
  · rw [hblocks]
    rfl
  · rw [hblocks]
    rfl
  · rw [hblocks]
    exact hbelow
  · have hdom : (ledger below).dom = {k | k ∈ walk.map Prod.fst} := by
      ext k
      exact hwalk.mem_keys.symm
    exact hdom ▸ List.finite_toSet _
  · have hstats : (start p hist below walk).csi.stats =
        ⟨((walk.map Prod.snd).foldl UtxoStats.add ⟨0, 0⟩).txouts - 0,
          ((walk.map Prod.snd).foldl UtxoStats.add ⟨0, 0⟩).amount - 0⟩ := rfl
    rw [hstats, foldl_add]
    change _ = setStats (ledger below)
    rw [setStats, hwalk.size_eq, hwalk.total_eq, List.length_map, List.map_map]
    simp only [zero_add, sub_zero]
    rfl

end Fed

def mainChain : CsiChain := ⟨210000, true, by decide⟩

def emptyHist : HistFile := ⟨0, fun _ => none⟩

/-- A coinbase with one output. -/
def rewardBlock (tag : UInt8) (value : UInt64) : Block :=
  ⟨false, [⟨Txid.ofBytes [tag], [nullOutpoint], [⟨value, [0x51]⟩]⟩]⟩

theorem enumerates_nil : PMap.Enumerates [] (ledger []) where
  nodup := List.nodup_nil
  mem_iff k v := by simp [ledger]

/-- One block is connected, left and replaced. -/
def replacedMoves : List ChainMove :=
  [.connect (rewardBlock 1 5000000000), .disconnect, .connect (rewardBlock 2 5000000000)]

def HistAnswer.figures : HistAnswer → Option Figures
  | .found _ figures => some figures
  | _ => none

end BitcoinMachineCode.Storage
