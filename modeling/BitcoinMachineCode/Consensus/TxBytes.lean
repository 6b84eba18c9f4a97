import BitcoinMachineCode.Foundation.Digits
import BitcoinMachineCode.Foundation.Readers

/-!
# Transactions as bytes

The walks over a serialized transaction: `tx_parse` and `tx_txid` of
`bitcoin_tx.asm`, `val_read_tx` of `daemon/utxo_live.c` and `bw_walk_tx` of
`daemon/block_witness.c`.  They share one wire format and differ in the counts
they take and in what they report.
-/

namespace BitcoinMachineCode.Consensus

open BitcoinMachineCode.Foundation

/-! ## Counts -/

/-- Core's `MAX_SIZE`. -/
def maxSize : Nat := 0x02000000

/-- The payload bytes a first byte announces, and the least value that needs them. -/
def varintWidth (b : UInt8) : Nat × Nat :=
  if b = 0xfd then (2, 0xfd) else if b = 0xfe then (4, 0x10000) else (8, 0x100000000)

/-- A CompactSize: with `canonical` the shortest form only, with `capped` up to
`maxSize`. -/
def readVarint (canonical capped : Bool) : Reader UInt8 Nat
  | [] => none
  | b :: rest =>
      if b < 0xfd then some (b.toNat, rest)
      else
        let v := leVal (rest.take (varintWidth b).1)
        if rest.length < (varintWidth b).1 then none
        else if canonical && decide (v < (varintWidth b).2) then none
        else if capped && decide (maxSize < v) then none
        else some (v, rest.drop (varintWidth b).1)

/-! ## The wire format -/

structure WireIn where
  prevout : List UInt8
  script : List UInt8
  sequence : List UInt8

structure WireOut where
  value : List UInt8
  script : List UInt8

/-- A length and as many bytes. -/
def readScript (canonical : Bool) : Reader UInt8 (List UInt8) :=
  (readVarint canonical true).bind Reader.take

def readIn (canonical : Bool) : Reader UInt8 WireIn :=
  (Reader.take 36).bind fun prevout =>
  (readScript canonical).bind fun script =>
  (Reader.take 4).bind fun sequence => .pure ⟨prevout, script, sequence⟩

def readOut (canonical : Bool) : Reader UInt8 WireOut :=
  (Reader.take 8).bind fun value =>
  (readScript canonical).bind fun script => .pure ⟨value, script⟩

def readList {α : Type} (canonical : Bool) (r : Reader UInt8 α) : Reader UInt8 (List α) :=
  (readVarint canonical true).bind r.times

def readBody (canonical : Bool) : Reader UInt8 (List WireIn × List WireOut) :=
  (readList canonical (readIn canonical)).bind fun ins =>
  (readList canonical (readOut canonical)).bind fun outs => .pure (ins, outs)

/-- One stack for each input. -/
def readWitness (canonical : Bool) (nin : Nat) : Reader UInt8 (List (List (List UInt8))) :=
  (readList canonical (readScript canonical)).times nin

structure WireTx where
  version : List UInt8
  /-- the marker and flag stand before the input count -/
  segwit : Bool
  /-- the input and output sections as they stand in the bytes -/
  body : List UInt8
  ins : List WireIn
  outs : List WireOut
  witness : List (List (List UInt8))
  witnessBytes : List UInt8
  locktime : List UInt8

/-- What follows the version and the marker. -/
def readRest (canonical segwit : Bool) (version : List UInt8) : Reader UInt8 WireTx :=
  (readBody canonical).verbatim.bind fun b =>
  (if segwit then readWitness canonical b.1.1.length else .pure []).verbatim.bind fun w =>
  (Reader.take 4).bind fun locktime =>
    .pure ⟨version, segwit, b.2, b.1.1, b.1.2, w.1, w.2, locktime⟩

/-- Marker and flag; a transaction without inputs has no other use. -/
def hasMarker : List UInt8 → Bool
  | 0 :: 1 :: _ => true
  | _ => false

def readMarked (canonical : Bool) (version : List UInt8) : Reader UInt8 WireTx := fun bs =>
  if hasMarker bs then readRest canonical true version (bs.drop 2)
  else readRest canonical false version bs

def readTx (canonical : Bool) : Reader UInt8 WireTx :=
  (Reader.take 4).bind (readMarked canonical)

namespace WireTx

/-- The serialization without marker, flag and witness: what `tx_txid` rebuilds. -/
def stripped (tx : WireTx) : List UInt8 := tx.version ++ tx.body ++ tx.locktime

def full (tx : WireTx) : List UInt8 :=
  tx.version ++ (if tx.segwit then [0, 1] else []) ++ tx.body ++ tx.witnessBytes ++ tx.locktime

end WireTx

/-- `tx_parse`: a transaction at the front of the bytes. -/
def txParse : Reader UInt8 WireTx := readTx false

/-! ## What the checks read -/

def nullPrevout : List UInt8 := List.replicate 32 0 ++ List.replicate 4 0xff

structure ValTxinfo where
  coinbaseShape : Bool
  nullPrevout : Bool
  outCount : Nat
  in0Script : List UInt8
  strippedLen : Nat
  deriving DecidableEq

/-- How many inputs the bytes after the input count can hold. -/
def inputRoom (txlen : Nat) (t : WireTx) : Nat :=
  (txlen - 4 - (if t.segwit then 2 else 0) -
    (if t.ins.length < 0xfd then 1 else if t.ins.length < 0x10000 then 3 else 5)) / 41 + 1

/-- `val_read_tx` over the bytes `tx_parse` sized; `none` is a bad shape. -/
def valReadTx (tx : List UInt8) : Option ValTxinfo :=
  if tx.length < 5 then none
  else
    match readTx true tx with
    | none => none
    | some (t, _) =>
        match t.ins with
        | [] => none
        | in0 :: more =>
            if inputRoom tx.length t < t.ins.length then none
            else
              some
                { coinbaseShape := decide (in0.prevout = Consensus.nullPrevout) && more.isEmpty
                  nullPrevout := t.ins.any fun i => i.prevout = Consensus.nullPrevout
                  outCount := t.outs.length
                  in0Script := in0.script
                  strippedLen :=
                    if t.segwit then tx.length - 2 - t.witnessBytes.length else tx.length }

/-- `GetWitnessCommitmentIndex`'s script: at least 38 bytes, six of them fixed. -/
def commitmentOf (script : List UInt8) : Option (List UInt8) :=
  if 38 ≤ script.length ∧ script.take 6 = [0x6a, 0x24, 0xaa, 0x21, 0xa9, 0xed] then
    some ((script.drop 6).take 32)
  else none

structure BwTx where
  hasWitness : Bool
  in0Stack : List (List UInt8)
  /-- the last output's that has one -/
  commit : Option (List UInt8)

/-- `bw_walk_tx`: `none` where the bytes do not decode, also for a marker whose
stacks are all empty. -/
def bwWalkTx (tx : List UInt8) : Option BwTx :=
  if tx.length < 10 then none
  else
    match readTx true tx with
    | none => none
    | some (t, rest) =>
        let hasWitness := t.witness.any fun stack => !stack.isEmpty
        if t.segwit && !hasWitness then none
        else if rest ≠ [] then none
        else
          some ⟨hasWitness, t.witness.headD [],
            (t.outs.filterMap fun out => commitmentOf out.script).getLast?⟩

/-! ## Reading is settled -/

theorem readVarint_eq_some {canonical capped : Bool} {bs rest : List UInt8} {v : Nat}
    (h : readVarint canonical capped bs = some (v, rest)) :
    (∃ b : UInt8, b < 0xfd ∧ v = b.toNat ∧ bs = b :: rest) ∨
      ∃ b payload, ¬ b < 0xfd ∧ payload.length = (varintWidth b).1 ∧ v = leVal payload ∧
        (canonical = true → (varintWidth b).2 ≤ v) ∧ (capped = true → v ≤ maxSize) ∧
        bs = b :: (payload ++ rest) := by
  cases bs with
  | nil => cases h
  | cons b bytes =>
      simp only [readVarint] at h
      split at h
      · next hb =>
          obtain ⟨rfl, rfl⟩ := by simpa using h
          exact .inl ⟨b, hb, rfl, rfl⟩
      · next hb =>
          split at h
          · cases h
          next hlen =>
          split at h
          · cases h
          next hcanonical =>
          split at h
          · cases h
          next hcapped =>
          obtain ⟨rfl, rfl⟩ := by simpa using h
          refine .inr ⟨b, bytes.take (varintWidth b).1, hb, by simpa using by omega, rfl, ?_, ?_, ?_⟩
          · rintro rfl
            simpa using hcanonical
          · rintro rfl
            simpa using hcapped
          · rw [List.take_append_drop]

theorem readVarint_small {capped : Bool} {bs rest : List UInt8} {v : Nat}
    (h : readVarint true capped bs = some (v, rest)) (hv : v < 0xfd) :
    bs = UInt8.ofNat v :: rest := by
  rcases readVarint_eq_some h with ⟨b, hb, rfl, rfl⟩ | ⟨b, payload, -, -, -, hleast, -, -⟩
  · simp
  · have hwide : 0xfd ≤ (varintWidth b).2 := by
      unfold varintWidth
      split
      · decide
      split <;> decide
    have := hleast rfl
    omega

theorem takes_varint_small {canonical capped : Bool} {b : UInt8} (hb : b < 0xfd) :
    (readVarint canonical capped).Takes [b] b.toNat := by
  intro tail
  simp [readVarint, hb]

theorem takes_varint_wide {canonical capped : Bool} {b : UInt8} {payload : List UInt8}
    (hb : ¬ b < 0xfd) (hlen : payload.length = (varintWidth b).1)
    (hcanonical : canonical = true → (varintWidth b).2 ≤ leVal payload)
    (hcapped : capped = true → leVal payload ≤ maxSize) :
    (readVarint canonical capped).Takes (b :: payload) (leVal payload) := by
  intro tail
  have htake : (payload ++ tail).take (varintWidth b).1 = payload := by simp [← hlen]
  have hdrop : (payload ++ tail).drop (varintWidth b).1 = tail := by simp [← hlen]
  simp only [readVarint, List.cons_append, if_neg hb, htake, hdrop]
  rw [if_neg (by simp [hlen]), if_neg (by simpa using hcanonical), if_neg (by simpa using hcapped)]

theorem settled_readVarint (canonical capped : Bool) : (readVarint canonical capped).Settled := by
  intro bs v rest h
  rcases readVarint_eq_some h with ⟨b, hb, rfl, rfl⟩ |
    ⟨b, payload, hb, hlen, rfl, hcanonical, hcapped, rfl⟩
  · exact ⟨[b], rfl, takes_varint_small hb⟩
  · exact ⟨b :: payload, rfl, takes_varint_wide hb hlen hcanonical hcapped⟩

theorem settled_readScript (canonical : Bool) : (readScript canonical).Settled :=
  (settled_readVarint ..).bind Reader.settled_take

theorem settled_readIn (canonical : Bool) : (readIn canonical).Settled :=
  (Reader.settled_take 36).bind fun _ => (settled_readScript canonical).bind fun _ =>
    (Reader.settled_take 4).bind fun _ => Reader.settled_pure _

theorem settled_readOut (canonical : Bool) : (readOut canonical).Settled :=
  (Reader.settled_take 8).bind fun _ => (settled_readScript canonical).bind fun _ =>
    Reader.settled_pure _

theorem settled_readList {α : Type} (canonical : Bool) {r : Reader UInt8 α} (hr : r.Settled) :
    (readList canonical r).Settled :=
  (settled_readVarint ..).bind hr.times

theorem settled_readBody (canonical : Bool) : (readBody canonical).Settled :=
  (settled_readList canonical (settled_readIn canonical)).bind fun _ =>
    (settled_readList canonical (settled_readOut canonical)).bind fun _ => Reader.settled_pure _

theorem settled_readWitness (canonical : Bool) (nin : Nat) :
    (readWitness canonical nin).Settled :=
  (settled_readList canonical (settled_readScript canonical)).times nin

theorem settled_readStacks (canonical segwit : Bool) (nin : Nat) :
    (if segwit then readWitness canonical nin else Reader.pure []).Settled := by
  cases segwit with
  | false => exact Reader.settled_pure []
  | true => exact settled_readWitness canonical nin

theorem readList_ne_nil {α : Type} {canonical : Bool} {r : Reader UInt8 α} (hr : r.Settled)
    {bs rest : List UInt8} {as : List α} (h : readList canonical r bs = some (as, rest)) :
    rest.length < bs.length := by
  obtain ⟨v, mid, hv, hmid⟩ := Reader.bind_eq_some h
  obtain ⟨used, rfl, -⟩ := hr.times v hmid
  rcases readVarint_eq_some hv with ⟨b, -, -, rfl⟩ | ⟨b, payload, -, -, -, -, -, rfl⟩
  · simp only [List.length_cons, List.length_append]
    omega
  · simp only [List.length_cons, List.length_append]
    omega

theorem two_le_length_body {canonical : Bool} {used : List UInt8}
    {x : List WireIn × List WireOut} (h : (readBody canonical).Takes used x) :
    2 ≤ used.length := by
  have hread := h []
  rw [List.append_nil] at hread
  obtain ⟨ins, mid, hins, hread⟩ := Reader.bind_eq_some hread
  obtain ⟨outs, mid', houts, hread⟩ := Reader.bind_eq_some hread
  have h₁ := readList_ne_nil (settled_readIn canonical) hins
  have h₂ := readList_ne_nil (settled_readOut canonical) houts
  omega

/-- What a read leaves in its record. -/
structure WireTx.WellRead (canonical : Bool) (tx : WireTx) : Prop where
  version : tx.version.length = 4
  locktime : tx.locktime.length = 4
  body : (readBody canonical).Takes tx.body (tx.ins, tx.outs)
  witness : (if tx.segwit then readWitness canonical tx.ins.length else .pure []).Takes
    tx.witnessBytes tx.witness
  unmarked : tx.segwit = false → hasMarker tx.body = false

theorem hasMarker_eq_true {bs : List UInt8} (h : hasMarker bs = true) :
    bs = 0 :: 1 :: bs.drop 2 := by
  unfold hasMarker at h
  split at h
  · rfl
  · cases h

theorem hasMarker_append {bs : List UInt8} (h : 2 ≤ bs.length) (tail : List UInt8) :
    hasMarker (bs ++ tail) = hasMarker bs := by
  match bs, h with
  | a :: b :: rest, _ =>
      rw [List.cons_append, List.cons_append]
      unfold hasMarker
      split
      · next heq =>
          obtain ⟨rfl, rfl, -⟩ := by simpa using heq
          rfl
      · next hne =>
          split
          · next heq =>
              obtain ⟨rfl, rfl, -⟩ := by simpa using heq
              exact absurd rfl (hne (rest ++ tail))
          · rfl

theorem readRest_eq_some {canonical segwit : Bool} {version bs rest : List UInt8} {tx : WireTx}
    (h : readRest canonical segwit version bs = some (tx, rest)) :
    bs = tx.body ++ tx.witnessBytes ++ tx.locktime ++ rest ∧ tx.version = version ∧
      tx.segwit = segwit ∧ tx.locktime.length = 4 ∧
      (readBody canonical).Takes tx.body (tx.ins, tx.outs) ∧
      (if tx.segwit then readWitness canonical tx.ins.length else .pure []).Takes
        tx.witnessBytes tx.witness := by
  obtain ⟨⟨⟨ins, outs⟩, body⟩, mid, hbody, h⟩ := Reader.bind_eq_some h
  obtain ⟨⟨items, witnessBytes⟩, mid', hwit, h⟩ := Reader.bind_eq_some h
  obtain ⟨locktime, rest', hlock, h⟩ := Reader.bind_eq_some h
  obtain ⟨rfl, rfl⟩ := by simpa [Reader.pure] using h
  obtain ⟨rfl, hbody'⟩ := Reader.verbatim_eq_some (settled_readBody canonical) hbody
  obtain ⟨rfl, hwit'⟩ := Reader.verbatim_eq_some (settled_readStacks canonical segwit _) hwit
  obtain ⟨hlen, rfl⟩ := Reader.take_eq_some hlock
  exact ⟨by simp, rfl, rfl, hlen, hbody', hwit'⟩

theorem readTx_eq_some {canonical : Bool} {bs rest : List UInt8} {tx : WireTx}
    (h : readTx canonical bs = some (tx, rest)) :
    bs = tx.full ++ rest ∧ tx.WellRead canonical := by
  obtain ⟨version, mid, hversion, hread⟩ := Reader.bind_eq_some h
  obtain ⟨hlen, rfl⟩ := Reader.take_eq_some hversion
  unfold readMarked at hread
  split at hread
  · next hmarker =>
      obtain ⟨hmid, rfl, hseg, hlock, hbody, hwit⟩ := readRest_eq_some hread
      refine ⟨?_, hlen, hlock, hbody, hwit, fun hno => by simp [hseg] at hno⟩
      rw [hasMarker_eq_true hmarker, hmid]
      simp [WireTx.full, hseg]
  · next hmarker =>
      obtain ⟨rfl, rfl, hseg, hlock, hbody, hwit⟩ := readRest_eq_some hread
      refine ⟨by simp [WireTx.full, hseg], hlen, hlock, hbody, hwit, fun _ => ?_⟩
      rw [List.append_assoc, List.append_assoc,
        hasMarker_append (two_le_length_body hbody)] at hmarker
      exact Bool.eq_false_iff.mpr hmarker

theorem WireTx.WellRead.takes {canonical : Bool} {tx : WireTx} (h : tx.WellRead canonical) :
    (readTx canonical).Takes tx.full tx := by
  have hrest : (readRest canonical tx.segwit tx.version).Takes
      (tx.body ++ (tx.witnessBytes ++ (tx.locktime ++ []))) tx :=
    h.body.verbatim.bind (h.witness.verbatim.bind
      ((Reader.takes_take h.locktime).bind (Reader.takes_pure _)))
  intro tail
  have hversion := Reader.takes_take (β := UInt8) h.version
  simp only [readTx, Reader.bind, WireTx.full, List.append_assoc]
  rw [hversion]
  simp only [Option.bind_some, readMarked]
  cases hseg : tx.segwit with
  | true =>
      have := hrest tail
      rw [hseg] at this
      simpa [hasMarker] using this
  | false =>
      have hmarker : hasMarker (tx.body ++ (tx.witnessBytes ++ (tx.locktime ++ tail))) = false := by
        rw [hasMarker_append (two_le_length_body h.body)]
        exact h.unmarked hseg
      have := hrest tail
      rw [hseg] at this
      simpa [hmarker] using this

/-! ## Two readings of the same bytes -/

theorem refines_readVarint (capped : Bool) :
    (readVarint true capped).Refines (readVarint false capped) := by
  rintro bs ⟨v, rest⟩ h
  rcases readVarint_eq_some h with ⟨b, hb, rfl, rfl⟩ |
    ⟨b, payload, hb, hlen, rfl, -, hcapped, rfl⟩
  · exact takes_varint_small hb rest
  · have htakes : (readVarint false capped).Takes (b :: payload) (leVal payload) :=
      takes_varint_wide hb hlen (fun h => by cases h) hcapped
    exact htakes rest

theorem refines_readScript : (readScript true).Refines (readScript false) :=
  (refines_readVarint true).bind fun _ => .refl _

theorem refines_readList {α : Type} {r r' : Reader UInt8 α} (h : r.Refines r') :
    (readList true r).Refines (readList false r') :=
  (refines_readVarint true).bind h.times

theorem refines_readBody : (readBody true).Refines (readBody false) := by
  have hin : (readIn true).Refines (readIn false) :=
    .bind (.refl _) fun _ => refines_readScript.bind fun _ => .refl _
  have hout : (readOut true).Refines (readOut false) :=
    .bind (.refl _) fun _ => refines_readScript.bind fun _ => .refl _
  exact (refines_readList hin).bind fun _ => (refines_readList hout).bind fun _ => .refl _

theorem refines_readRest (segwit : Bool) (version : List UInt8) :
    (readRest true segwit version).Refines (readRest false segwit version) := by
  refine refines_readBody.verbatim.bind fun b => Reader.Refines.bind (.verbatim ?_) fun _ => .refl _
  cases segwit with
  | false => exact .refl _
  | true => exact (refines_readList refines_readScript).times _

/-- A canonical reading is the reading of `tx_parse`. -/
theorem refines_readTx : (readTx true).Refines (readTx false) := by
  refine .bind (.refl _) fun version bs x h => ?_
  unfold readMarked at h ⊢
  split at h
  · next hmarker =>
      rw [if_pos hmarker]
      exact refines_readRest true version h
  · next hmarker =>
      rw [if_neg hmarker]
      exact refines_readRest false version h

namespace WireTx

variable {tx tx' : WireTx}

theorem WellRead.canonical_eq (h : tx.WellRead false) {rest : List UInt8}
    (hread : readTx true tx.full = some (tx', rest)) : tx' = tx ∧ rest = [] := by
  have hraw := h.takes []
  rw [List.append_nil, refines_readTx hread] at hraw
  simpa using hraw

/-- The serialization without the witness fixes everything but the witness. -/
theorem WellRead.eq_of_stripped (h : tx.WellRead false) (h' : tx'.WellRead false)
    (hstripped : tx.stripped = tx'.stripped) :
    tx.version = tx'.version ∧ tx.body = tx'.body ∧ tx.locktime = tx'.locktime ∧
      tx.ins = tx'.ins ∧ tx.outs = tx'.outs := by
  have hlens : tx.version.length = tx'.version.length := h.version.trans h'.version.symm
  rw [stripped, stripped, List.append_assoc, List.append_assoc] at hstripped
  obtain ⟨hversion, hrest⟩ := List.append_inj hstripped hlens
  obtain ⟨hbody, hlock⟩ := List.append_inj' hrest (h.locktime.trans h'.locktime.symm)
  have hparts := h.body.unique (hbody ▸ h'.body)
  exact ⟨hversion, hbody, hlock, congrArg Prod.fst hparts, congrArg Prod.snd hparts⟩

theorem WellRead.full_of_unmarked {canonical : Bool} (h : tx.WellRead canonical)
    (hseg : tx.segwit = false) : tx.full = tx.stripped := by
  have hnone : tx.witnessBytes = [] := by
    have := h.witness []
    rw [hseg] at this
    simpa [Reader.pure] using congrArg (Option.map Prod.snd) this
  simp [full, stripped, hseg, hnone]

theorem WellRead.segwit_of_witness {canonical : Bool} (h : tx.WellRead canonical)
    (hwit : tx.witness.headD [] ≠ []) : tx.segwit = true := by
  cases hseg : tx.segwit with
  | true => rfl
  | false =>
      have hread := h.witness []
      rw [hseg] at hread
      have hnil : [] = tx.witness := by
        simpa [Reader.pure] using congrArg (Option.map Prod.fst) hread
      rw [← hnil] at hwit
      exact absurd rfl hwit

/-- What `val_read_tx` finds, in terms of the parts. -/
def info (tx : WireTx) : ValTxinfo where
  coinbaseShape := decide (tx.ins.map WireIn.prevout = [Consensus.nullPrevout])
  nullPrevout := tx.ins.any fun i => i.prevout = Consensus.nullPrevout
  outCount := tx.outs.length
  in0Script := (tx.ins.head?.map WireIn.script).getD []
  strippedLen := tx.stripped.length

theorem WellRead.info_eq (h : tx.WellRead false) (h' : tx'.WellRead false)
    (hstripped : tx.stripped = tx'.stripped) : tx.info = tx'.info := by
  obtain ⟨-, -, -, hins, houts⟩ := h.eq_of_stripped h' hstripped
  rw [info, info, hins, houts, hstripped]

theorem WellRead.valReadTx_eq (h : tx.WellRead false) {i : ValTxinfo}
    (hread : valReadTx tx.full = some i) : i = tx.info := by
  unfold valReadTx at hread
  split at hread
  · cases hread
  split at hread
  · cases hread
  next t rest hcanon =>
  obtain ⟨rfl, rfl⟩ := h.canonical_eq hcanon
  split at hread
  · cases hread
  next in0 more hins =>
  split at hread
  · cases hread
  obtain rfl := Option.some.inj hread
  have hshape : (decide (in0.prevout = Consensus.nullPrevout) && more.isEmpty) =
      decide (t.ins.map WireIn.prevout = [Consensus.nullPrevout]) := by
    cases more <;> simp [hins]
  have hlen : (if t.segwit then t.full.length - 2 - t.witnessBytes.length else t.full.length) =
      t.stripped.length := by
    cases hseg : t.segwit with
    | false => simp [h.full_of_unmarked hseg]
    | true =>
        simp [full, stripped, hseg]
        omega
  simp [info, hins, hlen, hshape]

theorem WellRead.canonical_of_valReadTx (h : tx.WellRead false) {i : ValTxinfo}
    (hread : valReadTx tx.full = some i) : tx.WellRead true := by
  unfold valReadTx at hread
  split at hread
  · cases hread
  split at hread
  · cases hread
  next t rest hcanon =>
  obtain ⟨rfl, rfl⟩ := h.canonical_eq hcanon
  exact (readTx_eq_some hcanon).2

/-- A canonical body of one input begins with the count and its outpoint. -/
theorem WellRead.body_of_one_input (h : tx.WellRead true) {prevout : List UInt8}
    (hins : tx.ins.map WireIn.prevout = [prevout]) : ∃ more, tx.body = 1 :: (prevout ++ more) := by
  have hbody := h.body []
  rw [List.append_nil] at hbody
  obtain ⟨ins, afterIns, hread, hbody⟩ := Reader.bind_eq_some hbody
  obtain ⟨outs, rest, -, hbody⟩ := Reader.bind_eq_some hbody
  obtain ⟨⟨rfl, -⟩, -⟩ := by simpa [Reader.pure] using hbody
  obtain ⟨n, afterCount, hcount, hlist⟩ := Reader.bind_eq_some hread
  obtain rfl : 1 = n := by
    rw [← Reader.length_of_times hlist, ← List.length_map (f := WireIn.prevout), hins]
    rfl
  obtain ⟨in0, none, afterIn, hin, -, hcons⟩ := Reader.times_succ_eq_some hlist
  obtain ⟨prevout', afterPrevout, htake, hin⟩ := Reader.bind_eq_some hin
  obtain ⟨script, afterScript, -, hin⟩ := Reader.bind_eq_some hin
  obtain ⟨sequence, afterSequence, -, hin⟩ := Reader.bind_eq_some hin
  obtain ⟨hin0, -⟩ := by simpa [Reader.pure] using hin
  have hprevout : prevout' = prevout := by
    rw [hcons, ← hin0] at hins
    simpa using (List.cons.inj hins).1
  refine ⟨afterPrevout, ?_⟩
  rw [readVarint_small hcount (by decide), (Reader.take_eq_some htake).2, hprevout]
  rfl

/-- What `bw_walk_tx` finds, in terms of the parts. -/
theorem WellRead.bwWalkTx_eq (h : tx.WellRead false) {w : BwTx}
    (hwalk : bwWalkTx tx.full = some w) :
    tx.WellRead true ∧ w.in0Stack = tx.witness.headD [] ∧
      w.commit = (tx.outs.filterMap fun out => commitmentOf out.script).getLast? ∧
      (w.hasWitness = false → tx.segwit = false) := by
  unfold bwWalkTx at hwalk
  split at hwalk
  · cases hwalk
  split at hwalk
  · cases hwalk
  next t rest hcanon =>
  obtain ⟨rfl, rfl⟩ := h.canonical_eq hcanon
  simp only at hwalk
  split at hwalk
  · cases hwalk
  next hmarker =>
  split at hwalk
  · cases hwalk
  obtain rfl := Option.some.inj hwalk
  refine ⟨(readTx_eq_some hcanon).2, rfl, rfl, fun hnone => ?_⟩
  simp only at hnone
  simpa [hnone] using hmarker

/-- A canonical stack of one 32-byte item has one form. -/
theorem WellRead.witnessBytes_eq (h : tx.WellRead true) (hseg : tx.segwit = true)
    (hins : tx.ins.length = 1) {item : List UInt8} (hitem : item.length = 32)
    (hstack : tx.witness.headD [] = [item]) : tx.witnessBytes = 1 :: 32 :: item := by
  have hwit := h.witness []
  rw [hseg, hins, List.append_nil, if_pos rfl] at hwit
  obtain ⟨stack, more, mid, hfirst, hmore, hwitness⟩ := Reader.times_succ_eq_some hwit
  obtain ⟨rfl, rfl⟩ := Reader.times_zero_eq_some hmore
  rw [hwitness] at hstack
  obtain rfl : stack = [item] := hstack
  -- the count, then the one item's length
  obtain ⟨n, afterCount, hcount, hitems⟩ := Reader.bind_eq_some hfirst
  obtain rfl : 1 = n := Reader.length_of_times hitems
  obtain ⟨only, none, afterItem, hitem₁, hnone, hlist⟩ := Reader.times_succ_eq_some hitems
  obtain ⟨rfl, rfl⟩ := Reader.times_zero_eq_some hnone
  obtain rfl : item = only := List.head_eq_of_cons_eq hlist
  obtain ⟨len, afterLen, hlen, htake⟩ := Reader.bind_eq_some hitem₁
  obtain ⟨rfl, rfl⟩ := Reader.take_eq_some htake
  rw [readVarint_small hcount (by decide), readVarint_small hlen (by omega), hitem,
    List.append_nil]
  rfl

end WireTx

end BitcoinMachineCode.Consensus
