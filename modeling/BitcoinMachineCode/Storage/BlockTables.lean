import BitcoinMachineCode.Foundation.FirstStored
import BitcoinMachineCode.Storage.NoInflation

/-!
# The tables of the in-block index

`utxo_live.c` indexes a block's outputs and claims its inputs in two open-addressed tables
whose memory is kept from block to block.  A reset empties the part of a table that the
counts of the new block make use of.
-/

namespace BitcoinMachineCode.Storage.BlockTables

open BitcoinMachineCode.Foundation

/-! ## The tables -/

/-- `p` doubled until it is not below `n`. -/
def doubleUpTo (n : Nat) : Nat → Nat → Nat
  | 0, p => p
  | fuel + 1, p => if p < n then doubleUpTo n fuel (p * 2) else p

def nextPow2U64 (n : Nat) : Nat := if n < 2 then 2 else doubleUpTo n n 1

def outpointHash (o : Outpoint) : UInt64 :=
  ((UInt64.ofNat (leVal (o.txid.bytes.take 8)) ^^^ o.index.toUInt64) * 0x9E3779B97F4A7C15) >>> 32

structure BidxSlot where
  key : Outpoint
  /-- all ones in the source where the slot is empty -/
  outIdx : Option Nat

structure OutEntry where
  value : UInt64
  script : List UInt8
  creatingTx : Nat
  isCoinbase : Bool

structure Bidx where
  table : Nat → BidxSlot
  mask : Nat
  outs : Nat → OutEntry
  outsN : Nat

def bidxHashing (mask : Nat) : Hashing BidxSlot Outpoint where
  size := mask + 1
  live s := s.outIdx.isSome
  keyOf := BidxSlot.key
  clear s := { s with outIdx := none }
  home o := (outpointHash o).toNat &&& mask
  not_live_clear _ := rfl
  home_lt _ := Nat.lt_succ_of_le Nat.and_le_right

/-- Room for twice the entries. -/
def tableCap (hint : Nat) : Nat := nextPow2U64 ((if hint = 0 then 1 else hint) * 2)

def bidxReset (bx : Bidx) (noutHint : Nat) : Bidx :=
  let tcap := tableCap noutHint
  { bx with
    table := fun i => if i < tcap then { bx.table i with outIdx := none } else bx.table i
    mask := tcap - 1
    outsN := 0 }

/-- Nothing where the loop for a free slot does not end. -/
def bidxInsert (bx : Bidx) (key : Outpoint) (out : OutEntry) : Option Bidx :=
  match (bidxHashing bx.mask).freeFrom bx.table (bx.mask + 1) ((bidxHashing bx.mask).home key) with
  | none => none
  | some h => some { bx with
      table := Function.update bx.table h ⟨key, some bx.outsN⟩
      outs := Function.update bx.outs bx.outsN out
      outsN := bx.outsN + 1 }

/-- The entry under a key; nothing at all where the loop does not end. -/
def bidxFind (bx : Bidx) (key : Outpoint) : Option (Option OutEntry) :=
  match (bidxHashing bx.mask).probe bx.table key with
  | .hit h => some ((bx.table h).outIdx.map bx.outs)
  | .free _ => some none
  | .full => none

/-- `bidx_get`, at the height of the block. -/
def bidxGet (bx : Bidx) (applyHeight callerTx : Nat) (key : Outpoint) : Option (Option Prevout) :=
  match bidxFind bx key with
  | none => none
  | some none => some none
  | some (some e) =>
      if callerTx ≤ e.creatingTx then some none
      else some (some ⟨e.value, applyHeight, e.isCoinbase, e.script⟩)

structure SpentSlot where
  key : Outpoint
  used : Bool

structure Bspent where
  slots : Nat → SpentSlot
  mask : Nat

def bspentHashing (mask : Nat) : Hashing SpentSlot Outpoint where
  size := mask + 1
  live := SpentSlot.used
  keyOf := SpentSlot.key
  clear s := { s with used := false }
  home o := (outpointHash o).toNat &&& mask
  not_live_clear _ := rfl
  home_lt _ := Nat.lt_succ_of_le Nat.and_le_right

def bspentReset (bs : Bspent) (ninHint : Nat) : Bspent :=
  let tcap := tableCap ninHint
  { slots := fun i => if i < tcap then { bs.slots i with used := false } else bs.slots i
    mask := tcap - 1 }

/-- Whether the outpoint is claimed for the first time; nothing where the loop does not end. -/
def bspentClaim (bs : Bspent) (key : Outpoint) : Option (Bool × Bspent) :=
  match (bspentHashing bs.mask).probe bs.slots key with
  | .hit _ => some (false, bs)
  | .free h => some (true, { bs with slots := Function.update bs.slots h ⟨key, true⟩ })
  | .full => none

/-! ## Building them -/

structure TableCtx where
  bx : Bidx
  bs : Bspent
  dupFound : Bool
  txOutSum : UInt64
  moneyBad : Bool
  ptxOut : UInt64

def idxbuildOnInput (c : TableCtx) (o : Outpoint) : Option TableCtx :=
  if o = nullOutpoint then some c
  else
    match bspentClaim c.bs o with
    | none => none
    | some (first, bs) => some { c with bs := bs, dupFound := c.dupFound || !first }

def idxbuildOnOutput (t : Nat) (c : TableCtx) (o : Outpoint) (out : TxOut) : Option TableCtx :=
  match bidxInsert c.bx o ⟨out.value, out.script, t, t == 0⟩ with
  | none => none
  | some bx =>
      let c : TableCtx := { c with bx := bx, ptxOut := c.ptxOut + out.value }
      some (if valMaxMoney < out.value then { c with moneyBad := true }
        else
          { c with
            txOutSum := c.txOutSum + out.value
            moneyBad := c.moneyBad || decide (valMaxMoney < c.txOutSum + out.value) })

def idxbuildOnEvent (t : Nat) (c : TableCtx) : WalkEvent → Option TableCtx
  | .input o => idxbuildOnInput c o
  | .output o out _ => idxbuildOnOutput t c o out

structure TableIndex where
  bx : Bidx
  bs : Bspent
  ptxOut : List UInt64
  dup : Bool
  moneyBad : Bool

/-- The loop of phase 0.5 from transaction `t` on: it ends at a duplicate. -/
def buildTables : Nat → List Tx → TableIndex → Option TableIndex
  | _, [], b => some b
  | t, tx :: rest, b =>
      if b.dup then some b
      else
        match (walkTxIo (t == 0) tx).foldlM (idxbuildOnEvent t) ⟨b.bx, b.bs, false, 0, false, 0⟩ with
        | none => none
        | some c => buildTables (t + 1) rest
            ⟨c.bx, c.bs, b.ptxOut ++ [c.ptxOut], c.dupFound, b.moneyBad || c.moneyBad⟩

/-- Phase 0.5 on the tables an earlier block has left. -/
def indexTables (bx : Bidx) (bs : Bspent) (txs : List Tx) : Option TableIndex :=
  let totalNin := (txs.map fun tx => tx.inputs.length).sum
  let totalNout := (txs.map fun tx => tx.outputs.length).sum
  buildTables 0 txs ⟨bidxReset bx totalNout, bspentReset bs totalNin, [], false, false⟩

/-! ## Sizes -/

theorem le_doubleUpTo {n fuel p : Nat} (h : n ≤ p * 2 ^ fuel) : n ≤ doubleUpTo n fuel p := by
  induction fuel generalizing p with
  | zero => simpa [doubleUpTo] using h
  | succ fuel ih =>
      unfold doubleUpTo
      split
      · refine ih ?_
        rw [Nat.mul_assoc, ← Nat.pow_succ']
        exact h
      · omega

theorem doubleUpTo_pow (n fuel b : Nat) : ∃ b', doubleUpTo n fuel (2 ^ b) = 2 ^ b' := by
  induction fuel generalizing b with
  | zero => exact ⟨b, rfl⟩
  | succ fuel ih =>
      unfold doubleUpTo
      split
      · rw [← Nat.pow_succ]
        exact ih (b + 1)
      · exact ⟨b, rfl⟩

theorem le_nextPow2U64 (n : Nat) : n ≤ nextPow2U64 n := by
  unfold nextPow2U64
  split
  · omega
  · refine le_doubleUpTo ?_
    rw [Nat.one_mul]
    exact Nat.lt_two_pow_self.le

/-- A mask is a remainder, in the home of a key as in the step to the next slot. -/
theorem and_tableCap (hint x : Nat) : x &&& (tableCap hint - 1) = x % tableCap hint := by
  have hpow : ∀ n, ∃ b, nextPow2U64 n = 2 ^ b := by
    intro n
    unfold nextPow2U64
    split
    · exact ⟨1, rfl⟩
    · exact doubleUpTo_pow n n 0
  obtain ⟨b, hb⟩ := hpow ((if hint = 0 then 1 else hint) * 2)
  rw [show tableCap hint = 2 ^ b from hb]
  exact Nat.and_two_pow_sub_one_eq_mod x b

theorem lt_tableCap (hint : Nat) : hint < tableCap hint := by
  have hle : (if hint = 0 then 1 else hint) * 2 ≤ tableCap hint := le_nextPow2U64 _
  split at hle <;> omega

/-! ## What the tables hold -/

def slotsOf (es : List BidxOut) : List BidxSlot := es.zipIdx.map fun p => ⟨p.1.o, some p.2⟩

def entryOf (e : BidxOut) : OutEntry := ⟨e.value, e.script, e.creatingTx, e.isCoinbase⟩

/-- The table holds the entries, the first of a key in front. -/
structure IndexHolds (bx : Bidx) (es : List BidxOut) : Prop where
  lists : (bidxHashing bx.mask).Lists bx.table (slotsOf es)
  outs : ∀ i e, es[i]? = some e → bx.outs i = entryOf e
  outsN_eq : bx.outsN = es.length

def SpentHolds (bs : Bspent) (os : List Outpoint) : Prop :=
  (bspentHashing bs.mask).Lists bs.slots (os.map fun o => ⟨o, true⟩)

theorem indexHolds_reset (bx : Bidx) (hint : Nat) : IndexHolds (bidxReset bx hint) [] := by
  refine ⟨Hashing.lists_nil fun i hi => ?_, nofun, rfl⟩
  have hlt : i < tableCap hint := by
    have hcap := lt_tableCap hint
    have : i < tableCap hint - 1 + 1 := hi
    omega
  unfold bidxReset
  simp only
  rw [if_pos hlt]
  rfl

theorem spentHolds_reset (bs : Bspent) (hint : Nat) : SpentHolds (bspentReset bs hint) [] := by
  refine Hashing.lists_nil fun i hi => ?_
  have hlt : i < tableCap hint := by
    have hcap := lt_tableCap hint
    have : i < tableCap hint - 1 + 1 := hi
    omega
  unfold bspentReset
  simp only
  rw [if_pos hlt]
  rfl

theorem length_slotsOf (es : List BidxOut) : (slotsOf es).length = es.length := by
  unfold slotsOf
  rw [List.length_map, List.length_zipIdx]

theorem slotsOf_append (es : List BidxOut) (e : BidxOut) :
    slotsOf (es ++ [e]) = slotsOf es ++ [⟨e.o, some es.length⟩] := by
  unfold slotsOf
  rw [List.zipIdx_append, List.map_append]
  simp

theorem find_slots (es : List BidxOut) (n : Nat) (k : Outpoint) :
    ((∃ j e, es[j]? = some e ∧ es.find? (·.o = k) = some e ∧
      ((es.zipIdx n).map fun p => (⟨p.1.o, some p.2⟩ : BidxSlot)).find? (·.key = k) =
        some ⟨e.o, some (n + j)⟩) ∨
    (es.find? (·.o = k) = none ∧
      ((es.zipIdx n).map fun p => (⟨p.1.o, some p.2⟩ : BidxSlot)).find? (·.key = k) = none)) := by
  induction es generalizing n with
  | nil => exact .inr ⟨rfl, rfl⟩
  | cons e es ih =>
      rw [List.zipIdx_cons, List.map_cons]
      by_cases hkey : e.o = k
      · refine .inl ⟨0, e, rfl, ?_, ?_⟩
        · rw [List.find?_cons_of_pos (by simpa using hkey)]
        · rw [List.find?_cons_of_pos (by simpa using hkey), Nat.add_zero]
      · rw [List.find?_cons_of_neg (by simpa using hkey), List.find?_cons_of_neg (by simpa using hkey)]
        rcases ih (n + 1) with ⟨j, e', hj, hfind, hslot⟩ | hnone
        · refine .inl ⟨j + 1, e', hj, hfind, ?_⟩
          rw [hslot, Nat.add_assoc, Nat.add_comm 1 j]
        · exact .inr hnone

section Held

variable {bx : Bidx} {es : List BidxOut} {bs : Bspent} {os : List Outpoint}

theorem IndexHolds.probe_cases (h : IndexHolds bx es) (hroom : es.length ≤ bx.mask) (k : Outpoint) :
    (∃ s i, (slotsOf es).find? (·.key = k) = some s ∧
      (bidxHashing bx.mask).probe bx.table k = .hit i ∧ bx.table i = s) ∨
    ((slotsOf es).find? (·.key = k) = none ∧
      ∃ i, (bidxHashing bx.mask).probe bx.table k = .free i) := by
  have hlen : (slotsOf es).length < (bidxHashing bx.mask).size := by
    rw [length_slotsOf]
    exact Nat.lt_succ_of_le hroom
  rcases h.lists.probe_cases hlen k with ⟨s, i, hs, heq, -, hat⟩ | ⟨d, -, hs, heq, -⟩
  · exact .inl ⟨s, i, hs, heq, hat⟩
  · exact .inr ⟨hs, _, heq⟩

/-- A search of the index ends at the first entry of the key. -/
theorem IndexHolds.bidxFind_eq (h : IndexHolds bx es) (hroom : es.length ≤ bx.mask) (k : Outpoint) :
    bidxFind bx k = some ((es.find? (·.o = k)).map entryOf) := by
  unfold bidxFind
  rcases find_slots es 0 k with ⟨j, e, hj, hfind, hslot⟩ | ⟨hfind, hslot⟩
  · rcases h.probe_cases hroom k with ⟨s, i, hs, heq, hat⟩ | ⟨hs, -⟩
    · rw [slotsOf, hslot] at hs
      obtain rfl := Option.some.inj hs
      rw [heq, hfind]
      simp only
      rw [hat, Option.map_some, Option.map_some, Nat.zero_add, h.outs j e hj]
    · rw [slotsOf, hslot] at hs
      cases hs
  · rcases h.probe_cases hroom k with ⟨s, i, hs, -⟩ | ⟨-, i, heq⟩
    · rw [slotsOf, hslot] at hs
      cases hs
    · rw [heq, hfind]
      rfl

theorem IndexHolds.bidxInsert_spec (h : IndexHolds bx es) (hroom : es.length ≤ bx.mask) (e : BidxOut) :
    ∃ bx', bidxInsert bx e.o (entryOf e) = some bx' ∧ bx'.mask = bx.mask ∧
      IndexHolds bx' (es ++ [e]) := by
  have hlen : (slotsOf es).length < (bidxHashing bx.mask).size := by
    rw [length_slotsOf]
    exact Nat.lt_succ_of_le hroom
  obtain ⟨i, hfree, hlists⟩ := h.lists.put hlen
    (show (bidxHashing bx.mask).keyOf ⟨e.o, some bx.outsN⟩ = e.o from rfl)
    (show (bidxHashing bx.mask).live ⟨e.o, some bx.outsN⟩ = true from rfl)
  unfold bidxInsert
  rw [show bx.mask + 1 = (bidxHashing bx.mask).size from rfl, hfree]
  refine ⟨_, rfl, rfl, ?_, fun j e' hj => ?_, ?_⟩
  · rw [slotsOf_append, ← h.outsN_eq]
    exact hlists
  · simp only
    rcases Nat.lt_trichotomy j es.length with hlt | rfl | hgt
    · rw [List.getElem?_append_left hlt] at hj
      rw [Function.update_of_ne (by rw [h.outsN_eq]; omega)]
      exact h.outs j e' hj
    · rw [List.getElem?_append_right le_rfl, Nat.sub_self] at hj
      obtain rfl : e = e' := Option.some.inj hj
      rw [h.outsN_eq, Function.update_self]
    · rw [List.getElem?_eq_none (by simp; omega)] at hj
      cases hj
  · simp only
    rw [h.outsN_eq, List.length_append]
    rfl

theorem SpentHolds.bspentClaim_spec (h : SpentHolds bs os) (hroom : os.length ≤ bs.mask) (o : Outpoint) :
    ∃ bs', bspentClaim bs o = some (decide (o ∉ os), bs') ∧ bs'.mask = bs.mask ∧
      SpentHolds bs' (if o ∈ os then os else os ++ [o]) := by
  have hlen : (os.map fun o => (⟨o, true⟩ : SpentSlot)).length < (bspentHashing bs.mask).size := by
    rw [List.length_map]
    exact Nat.lt_succ_of_le hroom
  have hmem : (os.map fun o => (⟨o, true⟩ : SpentSlot)).find? (SpentSlot.key · = o) = none ↔ o ∉ os := by
    rw [List.find?_eq_none]
    constructor
    · intro hall hin
      simpa using hall _ (List.mem_map_of_mem hin)
    · rintro hnot s hs
      obtain ⟨o', ho', rfl⟩ := List.mem_map.mp hs
      simp only [decide_eq_true_eq]
      rintro rfl
      exact hnot ho'
  unfold bspentClaim
  rcases h.probe_cases hlen o with ⟨s, i, hs, heq, -⟩ | ⟨d, hd, hs, heq, hfree, hbefore⟩
  · have hin : o ∈ os := by
      by_contra hnot
      cases (hmem.mpr hnot).symm.trans hs
    rw [heq, if_pos hin]
    refine ⟨bs, ?_, rfl, h⟩
    simp [hin]
  · have hnot : o ∉ os := hmem.mp hs
    rw [heq, if_neg hnot]
    rw [decide_eq_true hnot]
    refine ⟨_, rfl, rfl, ?_⟩
    unfold SpentHolds
    rw [List.map_append]
    exact h.snoc (show (bspentHashing bs.mask).keyOf ⟨o, true⟩ = o from rfl) rfl hd hfree hbefore

end Held

/-! ## The tables beside the lists -/

structure Follows (c : TableCtx) (a : IdxbuildCtx) : Prop where
  bx : IndexHolds c.bx a.bx
  bs : SpentHolds c.bs a.bs
  dupFound : c.dupFound = a.dupFound
  txOutSum : c.txOutSum = a.txOutSum
  moneyBad : c.moneyBad = a.moneyBad
  ptxOut : c.ptxOut = a.ptxOut

def inputCount (evs : List WalkEvent) : Nat :=
  evs.countP fun ev => match ev with
    | .input _ => true
    | .output .. => false

def outputCount (evs : List WalkEvent) : Nat :=
  evs.countP fun ev => match ev with
    | .input _ => false
    | .output .. => true

theorem Follows.onInput {c : TableCtx} {a : IdxbuildCtx} (h : Follows c a)
    (hroom : a.bs.length ≤ c.bs.mask) (o : Outpoint) :
    ∃ c', idxbuildOnInput c o = some c' ∧ Follows c' (Storage.idxbuildOnInput a o) ∧
      c'.bx.mask = c.bx.mask ∧ c'.bs.mask = c.bs.mask ∧
      (Storage.idxbuildOnInput a o).bx = a.bx ∧
      (Storage.idxbuildOnInput a o).bs.length ≤ a.bs.length + 1 := by
  unfold idxbuildOnInput Storage.idxbuildOnInput
  split
  · exact ⟨c, rfl, h, rfl, rfl, rfl, Nat.le_succ _⟩
  · obtain ⟨bs', hclaim, hmask, hholds⟩ := h.bs.bspentClaim_spec hroom o
    rw [hclaim]
    by_cases hin : o ∈ a.bs
    · rw [if_pos hin] at hholds ⊢
      refine ⟨_, rfl, ⟨h.bx, hholds, ?_, h.txOutSum, h.moneyBad, h.ptxOut⟩, rfl, hmask, rfl,
        Nat.le_succ _⟩
      simp [hin]
    · rw [if_neg hin] at hholds ⊢
      refine ⟨_, rfl, ⟨h.bx, hholds, ?_, h.txOutSum, h.moneyBad, h.ptxOut⟩, rfl, hmask, rfl, ?_⟩
      · simp [hin, h.dupFound]
      · rw [List.length_append]
        rfl

theorem bx_idxbuildOnOutput (t : Nat) (a : IdxbuildCtx) (o : Outpoint) (out : TxOut) :
    (Storage.idxbuildOnOutput t a o out).bx = a.bx ++ [⟨o, out.value, out.script, t, t == 0⟩] ∧
      (Storage.idxbuildOnOutput t a o out).bs = a.bs ∧
      (Storage.idxbuildOnOutput t a o out).dupFound = a.dupFound := by
  unfold Storage.idxbuildOnOutput
  simp only
  split
  · exact ⟨rfl, rfl, rfl⟩
  · exact ⟨rfl, rfl, rfl⟩

theorem Follows.onOutput {c : TableCtx} {a : IdxbuildCtx} (h : Follows c a)
    (hroom : a.bx.length ≤ c.bx.mask) (t : Nat) (o : Outpoint) (out : TxOut) :
    ∃ c', idxbuildOnOutput t c o out = some c' ∧
      Follows c' (Storage.idxbuildOnOutput t a o out) ∧
      c'.bx.mask = c.bx.mask ∧ c'.bs.mask = c.bs.mask := by
  obtain ⟨bx', hins, hmask, hholds⟩ :=
    h.bx.bidxInsert_spec hroom ⟨o, out.value, out.script, t, t == 0⟩
  have hins : bidxInsert c.bx o ⟨out.value, out.script, t, t == 0⟩ = some bx' := hins
  unfold idxbuildOnOutput
  rw [hins]
  refine ⟨_, rfl, ?_⟩
  unfold Storage.idxbuildOnOutput
  simp only
  split
  · exact ⟨⟨hholds, h.bs, h.dupFound, h.txOutSum, rfl, by rw [h.ptxOut]⟩, hmask, rfl⟩
  · exact ⟨⟨hholds, h.bs, h.dupFound, by rw [h.txOutSum], by rw [h.moneyBad, h.txOutSum],
      by rw [h.ptxOut]⟩, hmask, rfl⟩

/-- The walk of a transaction ends on the tables as it does on the lists. -/
theorem Follows.events {evs : List WalkEvent} {c : TableCtx} {a : IdxbuildCtx} (h : Follows c a)
    {t : Nat} (hin : a.bs.length + inputCount evs ≤ c.bs.mask)
    (hout : a.bx.length + outputCount evs ≤ c.bx.mask) :
    ∃ c', evs.foldlM (idxbuildOnEvent t) c = some c' ∧
      Follows c' (evs.foldl (Storage.idxbuildOnEvent t) a) ∧
      c'.bx.mask = c.bx.mask ∧ c'.bs.mask = c.bs.mask ∧
      (evs.foldl (Storage.idxbuildOnEvent t) a).bs.length ≤ a.bs.length + inputCount evs ∧
      (evs.foldl (Storage.idxbuildOnEvent t) a).bx.length = a.bx.length + outputCount evs := by
  induction evs generalizing c a with
  | nil => exact ⟨c, rfl, h, rfl, rfl, le_rfl, rfl⟩
  | cons ev evs ih =>
      cases ev with
      | input o =>
          have hcount : inputCount (.input o :: evs) = inputCount evs + 1 := by
            simp [inputCount]
          have hcount' : outputCount (.input o :: evs) = outputCount evs := by
            simp [outputCount]
          rw [hcount] at hin ⊢
          rw [hcount'] at hout ⊢
          obtain ⟨c₁, heq, hfollows, hbx, hbs, hsame, hle⟩ := h.onInput (by omega) o
          obtain ⟨c₂, heq₂, hfollows₂, hbx₂, hbs₂, hle₂, hlen₂⟩ :=
            ih hfollows (by omega) (by rw [hsame]; omega)
          rw [List.foldlM_cons, List.foldl_cons,
            show Storage.idxbuildOnEvent t a (.input o) = Storage.idxbuildOnInput a o from rfl]
          refine ⟨c₂, ?_, hfollows₂, hbx₂.trans hbx, hbs₂.trans hbs, by omega, ?_⟩
          · rw [show idxbuildOnEvent t c (.input o) = some c₁ from heq]
            exact heq₂
          · rw [hlen₂, hsame]
      | output o out cb =>
          have hcount : inputCount (.output o out cb :: evs) = inputCount evs := by
            simp [inputCount]
          have hcount' : outputCount (.output o out cb :: evs) = outputCount evs + 1 := by
            simp [outputCount]
          rw [hcount] at hin ⊢
          rw [hcount'] at hout ⊢
          obtain ⟨hbxa, hbsa, -⟩ := bx_idxbuildOnOutput t a o out
          have hlen : (Storage.idxbuildOnOutput t a o out).bx.length = a.bx.length + 1 := by
            rw [hbxa, List.length_append]
            rfl
          obtain ⟨c₁, heq, hfollows, hbx, hbs⟩ := h.onOutput (by omega) t o out
          obtain ⟨c₂, heq₂, hfollows₂, hbx₂, hbs₂, hle₂, hlen₂⟩ :=
            ih hfollows (by rw [hbsa]; omega) (by omega)
          rw [List.foldlM_cons, List.foldl_cons,
            show Storage.idxbuildOnEvent t a (.output o out cb) = Storage.idxbuildOnOutput t a o out from rfl]
          refine ⟨c₂, ?_, hfollows₂, hbx₂.trans hbx, hbs₂.trans hbs, ?_, by omega⟩
          · rw [show idxbuildOnEvent t c (.output o out cb) = some c₁ from heq]
            exact heq₂
          · rw [hbsa] at hle₂
            exact hle₂

theorem inputCount_walkTxIo (isCoinbase : Bool) (tx : Tx) :
    inputCount (walkTxIo isCoinbase tx) = tx.inputs.length := by
  simp [inputCount, walkTxIo, List.countP_map, Function.comp_def]

theorem outputCount_walkTxIo (isCoinbase : Bool) (tx : Tx) :
    outputCount (walkTxIo isCoinbase tx) = tx.outputs.length := by
  simp [outputCount, walkTxIo, List.countP_map, Function.comp_def]

structure IndexFollows (b : TableIndex) (a : BlockIndex) : Prop where
  bx : IndexHolds b.bx a.bx
  bs : SpentHolds b.bs a.bs
  dup : b.dup = a.dup
  moneyBad : b.moneyBad = a.moneyBad
  ptxOut : b.ptxOut = a.ptxOut
  bx_le : a.bx.length ≤ b.bx.mask

/-- Every loop of the pass ends, and the tables hold what the lists hold. -/
theorem IndexFollows.buildTables {txs : List Tx} {t : Nat} {b : TableIndex} {a : BlockIndex}
    (h : IndexFollows b a)
    (hin : a.bs.length + (txs.map fun tx => tx.inputs.length).sum ≤ b.bs.mask)
    (hout : a.bx.length + (txs.map fun tx => tx.outputs.length).sum ≤ b.bx.mask) :
    ∃ b', buildTables t txs b = some b' ∧ IndexFollows b' (buildIndex t txs a) := by
  induction txs generalizing t b a with
  | nil => exact ⟨b, rfl, h⟩
  | cons tx txs ih =>
      rw [List.map_cons, List.sum_cons] at hin hout
      unfold BlockTables.buildTables buildIndex
      rw [h.dup]
      split
      · exact ⟨b, rfl, h⟩
      · have hstart : Follows ⟨b.bx, b.bs, false, 0, false, 0⟩ ⟨a.bx, a.bs, false, 0, false, 0⟩ :=
          ⟨h.bx, h.bs, rfl, rfl, rfl, rfl⟩
        obtain ⟨c, heq, hfollows, hbx, hbs, hle, hlen⟩ :=
          @Follows.events (walkTxIo (t == 0) tx) _ _ hstart t
            (by rw [inputCount_walkTxIo]; simp only; omega)
            (by rw [outputCount_walkTxIo]; simp only; omega)
        rw [inputCount_walkTxIo] at hle
        rw [outputCount_walkTxIo] at hlen
        simp only at hbx hbs hle hlen
        rw [heq]
        refine ih ⟨hfollows.bx, hfollows.bs, hfollows.dupFound, ?_, ?_, ?_⟩ ?_ ?_
        · rw [h.moneyBad, hfollows.moneyBad]
        · rw [h.ptxOut, hfollows.ptxOut]
        · simp only
          omega
        · simp only
          omega
        · simp only
          omega

/-! ## The lists -/

theorem dupFound_foldl {os : List Outpoint} {c : IdxbuildCtx} (hclean : c.dupFound = false)
    (hnodup : (c.bs ++ os.filter (· ≠ nullOutpoint)).Nodup) :
    (os.foldl Storage.idxbuildOnInput c).dupFound = false := by
  induction os generalizing c with
  | nil => exact hclean
  | cons o os ih =>
      rw [List.foldl_cons]
      by_cases hnull : o = nullOutpoint
      · rw [List.filter_cons_of_neg (by simpa using hnull)] at hnodup
        unfold Storage.idxbuildOnInput
        rw [if_pos hnull]
        exact ih hclean hnodup
      · rw [List.filter_cons_of_pos (by simpa using hnull)] at hnodup
        have hnew : o ∉ c.bs := fun hin =>
          (List.nodup_append.mp hnodup).2.2 o hin o List.mem_cons_self rfl
        unfold Storage.idxbuildOnInput
        rw [if_neg hnull, if_neg hnew]
        refine ih hclean ?_
        simpa using hnodup

theorem foldl_onOutput (t : Nat) (ps : List (Outpoint × TxOut)) (c : IdxbuildCtx) :
    (ps.foldl (fun c p => Storage.idxbuildOnOutput t c p.1 p.2) c).bx =
        c.bx ++ ps.map (indexedOutput t) ∧
      (ps.foldl (fun c p => Storage.idxbuildOnOutput t c p.1 p.2) c).bs = c.bs ∧
      (ps.foldl (fun c p => Storage.idxbuildOnOutput t c p.1 p.2) c).dupFound = c.dupFound := by
  induction ps generalizing c with
  | nil => exact ⟨(List.append_nil _).symm, rfl, rfl⟩
  | cons p ps ih =>
      obtain ⟨hbx, hbs, hdup⟩ := bx_idxbuildOnOutput t c p.1 p.2
      obtain ⟨hbx', hbs', hdup'⟩ := ih (Storage.idxbuildOnOutput t c p.1 p.2)
      rw [List.foldl_cons, List.map_cons]
      refine ⟨?_, hbs'.trans hbs, hdup'.trans hdup⟩
      rw [hbx', hbx, List.append_assoc]
      rfl

/-- A duplicate stops the pass exactly where the inputs so far are not all different. -/
theorem buildIndex_spec {txs : List Tx} {t : Nat} {b : BlockIndex} (hclean : b.dup = false)
    (hbs : b.bs.Nodup) :
    ((buildIndex t txs b).dup = false ↔
      (b.bs ++ (txs.flatMap Tx.inputs).filter (· ≠ nullOutpoint)).Nodup) ∧
    ((buildIndex t txs b).dup = false → (buildIndex t txs b).bx = b.bx ++ indexedFrom t txs) := by
  induction txs generalizing t b with
  | nil =>
      unfold buildIndex indexedFrom
      simp [hclean, hbs]
  | cons tx txs ih =>
      unfold buildIndex
      rw [if_neg (by simp [hclean]), foldl_idxbuildOnEvent, List.flatMap_cons, List.filter_append,
        ← List.append_assoc]
      simp only
      obtain ⟨hbx', hbs', hdup'⟩ := foldl_onOutput t tx.newOutputs
        (tx.inputs.foldl Storage.idxbuildOnInput ⟨b.bx, b.bs, false, 0, false, 0⟩)
      rw [hbx', hbs', hdup']
      cases hfound : (tx.inputs.foldl Storage.idxbuildOnInput ⟨b.bx, b.bs, false, 0, false, 0⟩).dupFound with
      | false =>
          obtain ⟨-, heq, hnodup⟩ := foldl_idxbuildOnInput hfound
          rw [heq]
          refine And.imp id (fun hrest hdup => ?_) (ih rfl (hnodup hbs))
          rw [hrest hdup, List.append_assoc]
          rfl
      | true =>
          have hnot : ¬ (b.bs ++ tx.inputs.filter (· ≠ nullOutpoint)).Nodup := by
            intro hnodup
            have := @dupFound_foldl tx.inputs ⟨b.bx, b.bs, false, 0, false, 0⟩ rfl hnodup
            rw [hfound] at this
            cases this
          have hstop : ∀ (s : Nat) (xs : List Tx) (b' : BlockIndex), b'.dup = true →
              buildIndex s xs b' = b' := by
            intro s xs b' hb'
            cases xs with
            | nil => rfl
            | cons x xs =>
                unfold buildIndex
                rw [if_pos hb']
          rw [hstop _ _ _ rfl]
          refine ⟨⟨Bool.noConfusion, fun hnodup => ?_⟩, Bool.noConfusion⟩
          exact absurd (List.nodup_append.mp hnodup).1 hnot

/-- The first entry of an outpoint is that of the first transaction that creates it. -/
theorem find_indexedFrom (n : Nat) (txs : List Tx) (o : Outpoint) :
    (∃ t tx out, (indexedFrom n txs).find? (·.o = o) = some (indexedOutput (n + t) (o, out)) ∧
      txs[t]? = some tx ∧ (o, out) ∈ tx.newOutputs ∧
      ∀ t' < t, ∀ tx', txs[t']? = some tx' → ∀ out', (o, out') ∉ tx'.newOutputs) ∨
    ((indexedFrom n txs).find? (·.o = o) = none ∧
      ∀ (t' : Nat) tx', txs[t']? = some tx' → ∀ out', (o, out') ∉ tx'.newOutputs) := by
  induction txs generalizing n with
  | nil => exact .inr ⟨rfl, fun t' tx' h => by simp at h⟩
  | cons tx txs ih =>
      unfold indexedFrom
      rw [List.find?_append]
      cases hfind : (tx.newOutputs.map (indexedOutput n)).find? (·.o = o) with
      | some e =>
          obtain ⟨p, hp, rfl⟩ := List.mem_map.mp (List.mem_of_find?_eq_some hfind)
          have hkey : (indexedOutput n p).o = o := by simpa using List.find?_some hfind
          change p.1 = o at hkey
          subst hkey
          exact .inl ⟨0, tx, p.2, rfl, rfl, hp, fun t' ht' => absurd ht' (Nat.not_lt_zero t')⟩
      | none =>
          have hnone : ∀ out', (o, out') ∉ tx.newOutputs := by
            intro out' hmem
            simpa [indexedOutput] using
              List.find?_eq_none.mp hfind _ (List.mem_map_of_mem hmem)
          have hbefore : ∀ (m : Nat),
              (∀ t' < m, ∀ tx', txs[t']? = some tx' → ∀ out', (o, out') ∉ tx'.newOutputs) →
              ∀ t' < m + 1, ∀ tx', (tx :: txs)[t']? = some tx' → ∀ out', (o, out') ∉ tx'.newOutputs := by
            intro m hrest t' ht' tx' hat
            cases t' with
            | zero =>
                obtain rfl : tx = tx' := Option.some.inj hat
                exact hnone
            | succ t' => exact hrest t' (by omega) tx' hat
          rw [Option.none_or]
          rcases ih (n + 1) with ⟨t, tx', out, hat, htx, hmem, hrest⟩ | ⟨hat, hrest⟩
          · refine .inl ⟨t + 1, tx', out, ?_, htx, hmem, hbefore t hrest⟩
            rw [hat, Nat.add_assoc, Nat.add_comm 1 t]
          · exact .inr ⟨hat, fun t' tx' => hbefore t' (fun t _ => hrest t) t' (Nat.lt_succ_self t') tx'⟩

/-! ## The index of a block -/

theorem indexTables_follows (bx : Bidx) (bs : Bspent) (txs : List Tx) :
    ∃ b, indexTables bx bs txs = some b ∧ IndexFollows b (indexBlock txs) := by
  have hin := lt_tableCap (txs.map fun tx => tx.inputs.length).sum
  have hout := lt_tableCap (txs.map fun tx => tx.outputs.length).sum
  refine IndexFollows.buildTables ⟨indexHolds_reset .., spentHolds_reset .., rfl, rfl, rfl, ?_⟩ ?_ ?_
  · exact Nat.zero_le _
  · change 0 + _ ≤ tableCap _ - 1
    omega
  · change 0 + _ ≤ tableCap _ - 1
    omega

/-- Transaction number `t` of the block creates the outpoint. -/
def CreatedBy (txs : List Tx) (t : Nat) (o : Outpoint) : Prop :=
  ∃ tx out, txs[t]? = some tx ∧ (o, out) ∈ tx.newOutputs

/-- For every block, and whatever an earlier one has left in the tables: every loop ends; a
duplicate is reported exactly where two inputs name one outpoint that is not null; else the
index holds an outpoint exactly if a transaction creates it, with the first that does, and
resolves an input to it exactly if one creates it before the input's transaction. -/
theorem blockTables_exact (bx : Bidx) (bs : Bspent) (txs : List Tx) :
    ∃ b, indexTables bx bs txs = some b ∧
      (b.dup = true ↔ ∃ o, o ≠ nullOutpoint ∧ 2 ≤ (txs.flatMap Tx.inputs).count o) ∧
      (b.dup = false → ∀ o, ∃ r, bidxFind b.bx o = some r ∧
        (r ≠ none ↔ ∃ t, CreatedBy txs t o) ∧
        (∀ e, r = some e → (∀ t < e.creatingTx, ¬ CreatedBy txs t o) ∧
          ∃ tx out, txs[e.creatingTx]? = some tx ∧ (o, out) ∈ tx.newOutputs ∧
            e = ⟨out.value, out.script, e.creatingTx, e.creatingTx == 0⟩) ∧
        ∀ applyHeight callerTx, ∃ answer, bidxGet b.bx applyHeight callerTx o = some answer ∧
          (answer ≠ none ↔ ∃ t < callerTx, CreatedBy txs t o) ∧
          ∀ p, answer = some p → ∃ e, r = some e ∧ e.creatingTx < callerTx ∧
            p = ⟨e.value, applyHeight, e.isCoinbase, e.script⟩) := by
  obtain ⟨b, heq, h⟩ := indexTables_follows bx bs txs
  obtain ⟨hdup, hbx⟩ := @buildIndex_spec txs 0 ⟨[], [], [], false, false⟩ rfl List.nodup_nil
  change (indexBlock txs).dup = false ↔ _ at hdup
  change (indexBlock txs).dup = false → (indexBlock txs).bx = _ at hbx
  rw [List.nil_append] at hdup hbx
  refine ⟨b, heq, ?_, fun hclean o => ?_⟩
  · rw [h.dup, ← Bool.not_eq_false, hdup, List.nodup_iff_count_le_one, not_forall]
    refine exists_congr fun o => ?_
    by_cases hnull : o = nullOutpoint
    · rw [List.count_eq_zero_of_not_mem (by simp [hnull])]
      simp [hnull]
    · rw [List.count_filter (by simpa using hnull)]
      simp only [ne_eq, hnull, not_false_eq_true, true_and]
      omega
  · have hfind := h.bx.bidxFind_eq h.bx_le o
    rw [h.dup] at hclean
    rw [hbx hclean] at hfind
    refine ⟨_, hfind, ?_⟩
    unfold bidxGet
    rw [hfind]
    rcases find_indexedFrom 0 txs o with ⟨t, tx, out, hat, htx, hmem, hfirst⟩ | ⟨hat, hnone⟩
    · rw [Nat.zero_add] at hat
      have hcreated : CreatedBy txs t o := ⟨tx, out, htx, hmem⟩
      have hbefore : ∀ t' < t, ¬ CreatedBy txs t' o := by
        rintro t' ht' ⟨tx', out', htx', hmem'⟩
        exact hfirst t' ht' tx' htx' out' hmem'
      rw [hat]
      refine ⟨⟨fun _ => ⟨t, hcreated⟩, fun _ => Option.some_ne_none _⟩, ?_, fun applyHeight callerTx => ?_⟩
      · intro e he
        obtain rfl := Option.some.inj he
        exact ⟨hbefore, tx, out, htx, hmem, rfl⟩
      · change ∃ answer, (if callerTx ≤ t then _ else _) = some answer ∧ _
        split
        · next hle =>
            refine ⟨none, rfl, ⟨fun hne => absurd rfl hne, ?_⟩, nofun⟩
            rintro ⟨t', ht', hcreated'⟩
            exact absurd hcreated' (hbefore t' (by omega))
        · next hlt =>
            rw [not_le] at hlt
            refine ⟨_, rfl, ⟨fun _ => ⟨t, hlt, hcreated⟩, fun _ => Option.some_ne_none _⟩, ?_⟩
            intro p hp
            exact ⟨_, rfl, hlt, (Option.some.inj hp).symm⟩
    · have hnever : ∀ t', ¬ CreatedBy txs t' o := by
        rintro t' ⟨tx', out', htx', hmem'⟩
        exact hnone t' tx' htx' out' hmem'
      rw [hat]
      refine ⟨⟨fun hne => absurd rfl hne, ?_⟩, nofun, fun applyHeight callerTx => ?_⟩
      · rintro ⟨t', hcreated⟩
        exact absurd hcreated (hnever t')
      · refine ⟨none, rfl, ⟨fun hne => absurd rfl hne, ?_⟩, nofun⟩
        rintro ⟨t', -, hcreated⟩
        exact absurd hcreated (hnever t')

end BitcoinMachineCode.Storage.BlockTables
