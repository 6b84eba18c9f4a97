import BitcoinMachineCode.Network.OrphanPool

/-!
# The parents of an orphan

`txr_tx_parents` of `daemon/tx_relay.c` lists the transactions that an orphan spends, with a
walk of its own over the bytes.  Its counts are those of inventory messages: of the four
forms a length can have it knows the two short ones, and it stops at the first long one.
-/

namespace BitcoinMachineCode.Network

open Foundation Consensus

/-- The value and the bytes it takes. -/
def txrVarint : List UInt8 → Option (Nat × Nat)
  | [] => none
  | b :: rest =>
      if b < 0xfd then some (b.toNat, 1)
      else if b = 0xfd then if rest.length < 2 then none else some (leVal (rest.take 2), 3)
      else none

/-- The loop of `txr_tx_parents`, with the inputs still to come. -/
def txrParentsLoop : Nat → List UInt8 → List (Bytes 32)
  | 0, _ => []
  | n + 1, p =>
      if p.length < 36 then []
      else
        Bytes.ofList 32 (p.take 32) ::
          match txrVarint (p.drop 36) with
          | none => []
          | some (sl, cc) =>
              if (p.drop 36).length < cc + sl + 4 then [] else txrParentsLoop n ((p.drop 36).drop (cc + sl + 4))

/-- One of each run of equals. -/
def squeeze : List (Bytes 32) → List (Bytes 32)
  | [] => []
  | [a] => [a]
  | a :: b :: rest => if a = b then squeeze (b :: rest) else a :: squeeze (b :: rest)

/-- Where the input count stands. -/
def countAt (tx : List UInt8) : List UInt8 := tx.drop (if hasMarker (tx.drop 4) then 6 else 4)

def txrTxParents (tx : List UInt8) : List (Bytes 32) :=
  if tx.length < 10 then []
  else
    match txrVarint (countAt tx) with
    | none => []
    | some (nin, cc) =>
        if nin = 0 then []
        else
          let nin := if tx.length / 41 < nin then tx.length / 41 else nin
          squeeze ((txrParentsLoop nin ((countAt tx).drop cc)).insertionSort fun a b => a.1 ≤ b.1)

/-! ## What the walk sees -/

/-- The inputs as they stand in the bytes that `tx_txid` reads. -/
def relayInputs (tx : List UInt8) : List (List UInt8) :=
  match ((readVarint false true).bind (readIn false).verbatim.times) (countAt tx) with
  | none => []
  | some (ins, _) => ins.map Prod.snd

def spentTxid (input : List UInt8) : Bytes 32 := Bytes.ofList 32 (input.take 32)

def Spends (tx : List UInt8) (txid : Bytes 32) : Prop := ∃ input ∈ relayInputs tx, spentTxid input = txid

/-- A length of five or nine bytes. -/
def longForm (b : UInt8) : Bool := decide (0xfe ≤ b)

/-- The inputs up to the first whose script has a length in a long form. -/
def inView : List (List UInt8) → List (List UInt8)
  | [] => []
  | input :: rest => input :: if longForm (input.getD 36 0) then [] else inView rest

/-- Every transaction spent is one that an input in view spends, after a short count. -/
def Listed (tx : List UInt8) : Prop :=
  ∀ txid, Spends tx txid →
    longForm ((countAt tx).headD 0) = false ∧ ∃ input ∈ inView (relayInputs tx), spentTxid input = txid

theorem mem_squeeze {a : Bytes 32} {as : List (Bytes 32)} : a ∈ squeeze as ↔ a ∈ as := by
  fun_induction squeeze as with
  | case1 => simp
  | case2 => simp
  | case3 b rest ih => simp [ih]
  | case4 b c rest hne ih => simp [ih]

/-- Of what `tx_txid` reads as a count, `txr_varint` reads the short forms. -/
theorem txrVarint_of_read {bs rest : List UInt8} {v : Nat} (h : readVarint false true bs = some (v, rest)) :
    ∃ front, bs = front ++ rest ∧ 0 < front.length ∧
      txrVarint bs = if longForm (bs.headD 0) then none else some (v, front.length) := by
  rcases readVarint_eq_some h with ⟨b, hb, rfl, rfl⟩ | ⟨b, payload, hb, hlen, rfl, -, -, rfl⟩
  · refine ⟨[b], rfl, by simp, ?_⟩
    have hlong : longForm b = false := by
      simp only [longForm, decide_eq_false_iff_not, UInt8.not_le]
      exact UInt8.lt_trans hb (by decide)
    simp [txrVarint, hb, hlong]
  · refine ⟨b :: payload, rfl, by simp, ?_⟩
    by_cases hfd : b = 0xfd
    · subst hfd
      have hlen' : payload.length = 2 := hlen
      have htake : (payload ++ rest).take 2 = payload := by simp [← hlen']
      have hlong : longForm 0xfd = false := by decide
      simp [txrVarint, hlong, htake, hlen']
      omega
    · have hlong : longForm b = true := by
        simp only [longForm, decide_eq_true_eq, UInt8.le_iff_toNat_le]
        rw [UInt8.lt_iff_toNat_lt] at hb
        have hne : b.toNat ≠ 0xfd := fun heq => hfd (UInt8.toNat_inj.mp heq)
        have hfd' : (0xfd : UInt8).toNat = 0xfd := rfl
        have hfe : (0xfe : UInt8).toNat = 0xfe := rfl
        omega
      simp [txrVarint, hlong, hb, hfd]

/-- An input in its bytes: a prevout, a length, a script and a sequence number. -/
theorem readIn_stretch {bs rest input : List UInt8} {i : WireIn}
    (h : (readIn false).verbatim bs = some ((i, input), rest)) :
    bs = input ++ rest ∧ ∃ prevout front script sequence, input = prevout ++ (front ++ (script ++ sequence)) ∧
      prevout.length = 36 ∧ sequence.length = 4 ∧ 0 < front.length ∧
      ∀ tail, txrVarint (front ++ tail) = if longForm (front.headD 0) then none else some (script.length, front.length) := by
  obtain ⟨rfl, htakes⟩ := Reader.verbatim_eq_some (settled_readIn false) h
  refine ⟨rfl, ?_⟩
  have hread := htakes []
  rw [List.append_nil] at hread
  obtain ⟨prevout, mid, hprevout, hrest⟩ := Reader.bind_eq_some hread
  obtain ⟨script, mid', hscript, hrest'⟩ := Reader.bind_eq_some hrest
  obtain ⟨sequence, last, hsequence, hdone⟩ := Reader.bind_eq_some hrest'
  obtain ⟨v, mid₃, hv, htake⟩ := Reader.bind_eq_some hscript
  obtain rfl : last = [] := congrArg Prod.snd (Option.some_inj.mp hdone)
  obtain ⟨hlen₁, rfl⟩ := Reader.take_eq_some hprevout
  obtain ⟨rfl, rfl⟩ := Reader.take_eq_some htake
  obtain ⟨hlen₂, rfl⟩ := Reader.take_eq_some hsequence
  obtain ⟨front, rfl, hpos, -⟩ := txrVarint_of_read hv
  refine ⟨prevout, front, script, sequence, by simp, hlen₁, hlen₂, hpos, ?_⟩
  intro tail
  obtain ⟨used, hused, htakes'⟩ := settled_readVarint false true hv
  obtain rfl : front = used := List.append_cancel_right hused
  obtain ⟨front', hfront', -, hcount⟩ := txrVarint_of_read (htakes' tail)
  obtain rfl : front = front' := List.append_cancel_right hfront'
  rw [hcount]
  cases front with
  | nil => simp at hpos
  | cons b front => rfl

theorem getD_append_headD {front : List UInt8} (prevout tail : List UInt8) (hlen : prevout.length = 36)
    (hpos : 0 < front.length) : (prevout ++ (front ++ tail)).getD 36 0 = front.headD 0 := by
  cases front with
  | nil => simp at hpos
  | cons b front => simp [← hlen]

/-- The loop lists what the inputs in view spend. -/
theorem txrParentsLoop_eq {n : Nat} {bs rest : List UInt8} {ins : List (WireIn × List UInt8)}
    (h : (readIn false).verbatim.times n bs = some (ins, rest)) :
    txrParentsLoop n bs = (inView (ins.map Prod.snd)).map spentTxid := by
  induction n generalizing bs ins with
  | zero =>
      obtain ⟨rfl, -⟩ := Reader.times_zero_eq_some h
      rfl
  | succ n ih =>
      obtain ⟨⟨i, input⟩, more, mid, hfirst, hmore, rfl⟩ := Reader.times_succ_eq_some h
      obtain ⟨rfl, prevout, front, script, sequence, rfl, hlen₁, hlen₂, hpos, hcount⟩ := readIn_stretch hfirst
      have hdrop : (prevout ++ (front ++ (script ++ sequence)) ++ mid).drop 36 =
          front ++ (script ++ (sequence ++ mid)) := by
        simp [← hlen₁]
      have htake : (prevout ++ (front ++ (script ++ sequence)) ++ mid).take 32 =
          (prevout ++ (front ++ (script ++ sequence))).take 32 := by
        rw [List.take_append_of_le_length]
        simp [hlen₁]
        omega
      have hskip : (front ++ (script ++ (sequence ++ mid))).drop (front.length + script.length + 4) = mid := by
        rw [← hlen₂]
        simp [← List.append_assoc, List.drop_left', Nat.add_assoc]
      rw [List.map_cons, inView, getD_append_headD _ _ hlen₁ hpos]
      unfold txrParentsLoop
      rw [if_neg (by simp [hlen₁]), hdrop, htake, hcount, List.map_cons]
      refine congrArg _ ?_
      split_ifs with hlong
      · rfl
      · have hroom : ¬ (front ++ (script ++ (sequence ++ mid))).length < front.length + script.length + 4 := by
          simp only [List.length_append]
          omega
        simp only [if_neg hroom, hskip]
        exact ih hmore

theorem length_of_inputs {n : Nat} {bs rest : List UInt8} {ins : List (WireIn × List UInt8)}
    (h : (readIn false).verbatim.times n bs = some (ins, rest)) : n * 41 ≤ bs.length := by
  induction n generalizing bs ins with
  | zero => omega
  | succ n ih =>
      obtain ⟨⟨i, input⟩, more, mid, hfirst, hmore, rfl⟩ := Reader.times_succ_eq_some h
      obtain ⟨rfl, prevout, front, script, sequence, rfl, hlen₁, hlen₂, hpos, -⟩ := readIn_stretch hfirst
      have hrest := ih hmore
      simp only [List.length_append]
      omega

/-- A transaction that has an id has inputs that can be read. -/
theorem inputs_of_relayTxid {sha256d : List UInt8 → Bytes 32} {tx : List UInt8} {txid : Bytes 32}
    (h : relayTxid sha256d tx = some txid) :
    10 ≤ tx.length ∧ ∃ n mid ins rest, readVarint false true (countAt tx) = some (n, mid) ∧
      (readIn false).verbatim.times n mid = some (ins, rest) := by
  unfold relayTxid at h
  split at h
  · cases h
  next parts body rest hbody =>
    obtain ⟨hbs, htakes⟩ := Reader.verbatim_eq_some (settled_readBody false) hbody
    constructor
    · have htwo := two_le_length_body htakes
      have hcount := congrArg List.length hbs
      simp only [List.length_drop, List.length_append] at hcount
      split_ifs at h hcount <;> omega
    · have hread : readBody false (countAt tx) = some (parts, rest) := by
        rw [countAt, hbs]
        exact htakes rest
      obtain ⟨ins, mid, hins, -⟩ := Reader.bind_eq_some hread
      obtain ⟨n, mid', hn, htimes⟩ := Reader.bind_eq_some hins
      obtain ⟨ins', hins'⟩ := Reader.times_verbatim htimes
      exact ⟨n, mid', ins', mid, hn, hins'⟩

/-- What is listed of a transaction that has an id: the spent transactions in view. -/
theorem mem_txrTxParents {sha256d : List UInt8 → Bytes 32} {tx : List UInt8} {txid : Bytes 32}
    (h : relayTxid sha256d tx = some txid) {t : Bytes 32} :
    t ∈ txrTxParents tx ↔
      longForm ((countAt tx).headD 0) = false ∧ ∃ input ∈ inView (relayInputs tx), spentTxid input = t := by
  obtain ⟨hlen, n, mid, ins, rest, hn, hins⟩ := inputs_of_relayTxid h
  obtain ⟨front, hfront, hpos, hcount⟩ := txrVarint_of_read hn
  have hinputs : relayInputs tx = ins.map Prod.snd := by
    simp [relayInputs, Reader.bind, hn, hins]
  have hmid : (countAt tx).drop front.length = mid := by simp [hfront]
  have hcap : n ≤ tx.length / 41 := by
    have hroom := length_of_inputs hins
    have hle : mid.length ≤ tx.length := by
      have hcountAt : (countAt tx).length ≤ tx.length := by simp [countAt]
      rw [hfront, List.length_append] at hcountAt
      omega
    omega
  unfold txrTxParents
  rw [if_neg (by omega), hcount, hinputs]
  cases longForm ((countAt tx).headD 0) with
  | true => simp
  | false =>
      simp only [Bool.false_eq_true, if_false, hmid, true_and]
      by_cases hzero : n = 0
      · subst hzero
        obtain ⟨rfl, -⟩ := Reader.times_zero_eq_some hins
        simp [inView]
      · rw [if_neg hzero, if_neg (by omega), mem_squeeze, List.mem_insertionSort, txrParentsLoop_eq hins,
          List.mem_map]

/-- All that is spent is listed just when it is in view. -/
theorem listed_iff {sha256d : List UInt8 → Bytes 32} {tx : List UInt8} {txid : Bytes 32}
    (h : relayTxid sha256d tx = some txid) : Listed tx ↔ ∀ t, Spends tx t → t ∈ txrTxParents tx := by
  simp only [Listed, mem_txrTxParents h]

end BitcoinMachineCode.Network
