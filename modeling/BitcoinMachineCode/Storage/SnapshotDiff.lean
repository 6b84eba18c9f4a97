import BitcoinMachineCode.Consensus.TxBytes
import BitcoinMachineCode.Foundation.TwoWay
import Mathlib.Data.Finset.Card

/-!
# Comparing two snapshots

`usnap_diff` of `daemon/utxo_snapshot_diff.c` reads two files coin by coin, gathers the coins
of one transaction with one coin of lookahead, and walks the two files in the order of the
transaction ids.  Every difference is one report.  The lines that are printed and the fields
that only they use are left out.
-/

namespace BitcoinMachineCode.Storage.Usnap

open Foundation Consensus

/-! ## Reading -/

/-- Big-endian base 128 in up to `k` more bytes, in 64 bits. -/
def rdVarintFrom : Nat → Nat → Reader UInt8 Nat
  | 0, _, _ => none
  | _ + 1, _, [] => none
  | k + 1, n, b :: rest =>
      let n := n * 128 % 2 ^ 64 + b.toNat % 128
      if 128 ≤ b.toNat then rdVarintFrom k ((n + 1) % 2 ^ 64) rest else some (n, rest)

def rdVarint : Reader UInt8 Nat := rdVarintFrom 10 0

def rdCompact : Reader UInt8 Nat := readVarint false false

structure UsdCoin where
  vout : Nat
  ser : List UInt8
  deriving DecidableEq

/-- The output index, the height with the coinbase flag, the amount and the script's kind. -/
def rdCoinHead : Reader UInt8 (Nat × Nat) :=
  rdCompact.bind fun vout =>
  rdVarint.bind fun _ =>
  rdVarint.bind fun _ =>
  rdVarint.bind fun kind => .pure (vout, kind)

def scriptBody (kind : Nat) : Nat :=
  if kind = 0 ∨ kind = 1 then 20 else if kind ≤ 5 then 32 else kind - 6

/-- A coin with the bytes it is made of, which have to fit the buffers. -/
def rdCoinBody : Reader UInt8 UsdCoin :=
  rdCoinHead.verbatim.bind fun head rest =>
    if 10000 - 8 < scriptBody head.1.2 ∨ 16 + 10000 < head.2.length + scriptBody head.1.2 then
      none
    else
      (Reader.take (scriptBody head.1.2)).bind
        (fun body => .pure ⟨head.1.1, head.2 ++ body⟩) rest

structure UsdReader where
  bytes : List UInt8
  base : List UInt8
  count : Nat
  readCoins : Nat
  txid : List UInt8
  ngroup : Nat
  igroup : Nat
  haveGroup : Bool
  prevTxid : Option (List UInt8)

/-- What a read gives: 1, 0 at the end, -1. -/
inductive Rd (α : Type) where
  | got (a : α)
  | ended
  | malformed

def memcmp (x y : List UInt8) : Int :=
  if beGreater y x then -1 else if beGreater x y then 1 else 0

def rdHeader (file : List UInt8) : Option UsdReader :=
  match Reader.take 5 file with
  | none => none
  | some (mark, rest) =>
      if mark ≠ [0x75, 0x74, 0x78, 0x6f, 0xff] then none
      else
        ((Reader.take 2).bind fun _ => (Reader.take 4).bind fun _ =>
          (Reader.take 32).bind fun base => (Reader.take 8).bind fun count =>
            .pure (base, leVal count)) rest |>.map fun (head, rest) =>
              { bytes := rest, base := head.1, count := head.2, readCoins := 0, txid := []
                ngroup := 0, igroup := 0, haveGroup := false, prevTxid := none }

def startGroup (r : UsdReader) : Option UsdReader :=
  match Reader.take 32 r.bytes with
  | none => none
  | some (txid, rest) =>
      if r.prevTxid.any fun prev => decide (memcmp txid prev ≤ 0) then none
      else
        match rdCompact rest with
        | none => none
        | some (n, rest) =>
            if n = 0 then none
            else
              some { r with
                bytes := rest, txid := txid, prevTxid := some txid
                ngroup := n, igroup := 0, haveGroup := true }

/-- The next coin of the group at hand. -/
def groupCoin (r : UsdReader) : Rd (UsdCoin × UsdReader) :=
  match rdCoinBody r.bytes with
  | none => .malformed
  | some (c, rest) =>
      .got (c, { r with bytes := rest, igroup := r.igroup + 1, readCoins := r.readCoins + 1 })

def rdCoin (r : UsdReader) : Rd (UsdCoin × UsdReader) :=
  if r.haveGroup ∧ r.igroup < r.ngroup then groupCoin r
  else if r.count ≤ r.readCoins then .ended
  else
    match startGroup r with
    | none => .malformed
    | some r => groupCoin r

structure UsdGroup where
  txid : List UInt8
  coins : List UsdCoin

/-- A reader with the coin read ahead, which opens the next group. -/
structure UsdSide where
  reader : UsdReader
  pending : Option UsdCoin

/-- The rest of a group; every coin takes a byte, so the bytes left bound the rounds. -/
def grpRest : Nat → UsdReader → List UsdCoin → Rd (UsdGroup × UsdSide)
  | 0, _, _ => .malformed
  | k + 1, r, coins =>
      match rdCoin r with
      | .malformed => .malformed
      | .ended => .got (⟨r.txid, coins⟩, ⟨r, none⟩)
      | .got (c, r') =>
          if r'.txid ≠ r.txid then .got (⟨r.txid, coins⟩, ⟨r', some c⟩)
          else grpRest k r' (coins ++ [c])

def rdGroup (s : UsdSide) : Rd (UsdGroup × UsdSide) :=
  match s.pending with
  | some c => grpRest (s.reader.bytes.length + 1) s.reader [c]
  | none =>
      match rdCoin s.reader with
      | .malformed => .malformed
      | .ended => .ended
      | .got (c, r) => grpRest (r.bytes.length + 1) r [c]

/-! ## Comparing -/

inductive Report where
  | onlyInA (txid : List UInt8) (vout : Nat)
  | onlyInB (txid : List UInt8) (vout : Nat)
  | differs (txid : List UInt8) (vout : Nat)
  deriving DecidableEq

def grpFind (g : UsdGroup) (vout : Nat) : Option UsdCoin :=
  g.coins.find? fun c => decide (c.vout = vout)

def reportA (g : UsdGroup) : List Report := g.coins.map fun c => .onlyInA g.txid c.vout

def reportB (g : UsdGroup) : List Report := g.coins.map fun c => .onlyInB g.txid c.vout

/-- The reports on two groups of one transaction. -/
def reportBoth (ga gb : UsdGroup) : List Report :=
  (ga.coins.flatMap fun c =>
    match grpFind gb c.vout with
    | none => [.onlyInA ga.txid c.vout]
    | some cb => if c.ser ≠ cb.ser then [.differs ga.txid c.vout] else []) ++
  gb.coins.flatMap fun c =>
    match grpFind ga c.vout with
    | none => [.onlyInB ga.txid c.vout]
    | some _ => []

/-- The loop while either side has a group.  The result within is none for -2; none when the
rounds are used up. -/
def diffLoop :
    Nat → Rd (UsdGroup × UsdSide) → Rd (UsdGroup × UsdSide) → List Report →
      Option (Option (List Report))
  | 0, _, _, _ => none
  | k + 1, ra, rb, reports =>
      match ra, rb with
      | .got _, .malformed => some none
      | .malformed, .got _ => some none
      | .got (ga, sa), .ended => diffLoop k (rdGroup sa) .ended (reports ++ reportA ga)
      | .ended, .got (gb, sb) => diffLoop k .ended (rdGroup sb) (reports ++ reportB gb)
      | .got (ga, sa), .got (gb, sb) =>
          let cmp := memcmp ga.txid gb.txid
          if cmp < 0 then diffLoop k (rdGroup sa) (.got (gb, sb)) (reports ++ reportA ga)
          else if 0 < cmp then diffLoop k (.got (ga, sa)) (rdGroup sb) (reports ++ reportB gb)
          else diffLoop k (rdGroup sa) (rdGroup sb) (reports ++ reportBoth ga gb)
      | _, _ => some (some reports)

/-- The differences of the headers: the base block and the count. -/
def headerDiffs (A B : UsdReader) : Nat :=
  (if A.base ≠ B.base then 1 else 0) + if A.count ≠ B.count then 1 else 0

def usnapDiff (a b : List UInt8) : Option Int :=
  match rdHeader a, rdHeader b with
  | some A, some B =>
      (diffLoop (a.length + b.length + 1) (rdGroup ⟨A, none⟩) (rdGroup ⟨B, none⟩) []).map
        fun
        | none => -2
        | some reports => (headerDiffs A B + reports.length : Nat)
  | _, _ => some (-2)

/-! ## Coin after coin -/

def coinsFrom : Nat → UsdReader → List (List UInt8 × UsdCoin) × Bool
  | 0, _ => ([], false)
  | k + 1, r =>
      match rdCoin r with
      | .malformed => ([], false)
      | .ended => ([], true)
      | .got (c, r') => ((r'.txid, c) :: (coinsFrom k r').1, (coinsFrom k r').2)

/-- The coins up to the stated count, and whether it is reached. -/
def coins (r : UsdReader) : List (List UInt8 × UsdCoin) × Bool := coinsFrom (r.bytes.length + 1) r

theorem settled_rdVarintFrom (k n : Nat) : (rdVarintFrom k n).Settled := by
  intro bs v rest h
  fun_induction rdVarintFrom k n bs with
  | case1 => cases h
  | case2 => cases h
  | case3 k m b tail n hmore ih =>
      obtain ⟨used, rfl, htakes⟩ := ih h
      refine ⟨b :: used, rfl, fun more => ?_⟩
      rw [List.cons_append, rdVarintFrom, if_pos hmore]
      exact htakes more
  | case4 k m b tail n hlast =>
      obtain ⟨rfl, rfl⟩ := by simpa using h
      refine ⟨[b], rfl, fun more => ?_⟩
      rw [List.singleton_append, rdVarintFrom, if_neg hlast]

theorem settled_rdCoinHead : rdCoinHead.Settled :=
  (settled_readVarint ..).bind fun _ => (settled_rdVarintFrom ..).bind fun _ =>
    (settled_rdVarintFrom ..).bind fun _ => (settled_rdVarintFrom ..).bind fun _ =>
      Reader.settled_pure _

theorem rdCoinBody_shorter {bs rest : List UInt8} {c : UsdCoin}
    (h : rdCoinBody bs = some (c, rest)) : rest.length < bs.length := by
  obtain ⟨⟨⟨vout, kind⟩, head⟩, mid, hhead, h⟩ := Reader.bind_eq_some h
  obtain ⟨hbs, -⟩ := Reader.verbatim_eq_some settled_rdCoinHead hhead
  have hrest : rest.length ≤ mid.length := by
    dsimp only at h
    split at h
    · cases h
    · obtain ⟨body, rest', htake, hpure⟩ := Reader.bind_eq_some h
      obtain ⟨-, rfl⟩ := Reader.take_eq_some htake
      obtain ⟨-, rfl⟩ := by simpa [Reader.pure] using hpure
      simp
  have hnil : head ≠ [] := by
    rintro rfl
    obtain ⟨-, htakes⟩ := Reader.verbatim_eq_some settled_rdCoinHead hhead
    have := htakes []
    simp [rdCoinHead, rdCompact, readVarint, Reader.bind] at this
  have := List.length_pos_of_ne_nil hnil
  rw [hbs, List.length_append]
  omega

theorem groupCoin_eq_got {r r' : UsdReader} {c : UsdCoin} (h : groupCoin r = .got (c, r')) :
    ∃ rest, rest.length < r.bytes.length ∧
      r' = { r with bytes := rest, igroup := r.igroup + 1, readCoins := r.readCoins + 1 } := by
  unfold groupCoin at h
  split at h
  · cases h
  · rename_i c' rest hbody
    obtain ⟨rfl, rfl⟩ := by simpa using h
    exact ⟨rest, rdCoinBody_shorter hbody, rfl⟩

theorem startGroup_eq_some {r r' : UsdReader} (h : startGroup r = some r') :
    r'.bytes.length ≤ r.bytes.length ∧ r'.txid.length = 32 ∧ r'.prevTxid = some r'.txid ∧
      r'.haveGroup = true ∧ ∀ prev ∈ r.prevTxid, 0 < memcmp r'.txid prev := by
  unfold startGroup at h
  split at h
  · cases h
  rename_i txid rest htake
  obtain ⟨hlen, hbytes⟩ := Reader.take_eq_some htake
  split at h
  · cases h
  rename_i hprev
  split at h
  · cases h
  rename_i n rest' hcompact
  split at h
  · cases h
  obtain rfl := Option.some.inj h
  obtain ⟨used, rfl, -⟩ := settled_readVarint false false hcompact
  have hshort : rest'.length ≤ r.bytes.length := by
    rw [hbytes, List.length_append, List.length_append]
    omega
  refine ⟨hshort, hlen, rfl, rfl, fun prev hmem => ?_⟩
  rw [Option.mem_def.mp hmem] at hprev
  simpa using hprev

/-- Before the first group, or in one. -/
def Steady (r : UsdReader) : Prop :=
  r.haveGroup = false ∧ r.prevTxid = none ∨
    r.haveGroup = true ∧ r.prevTxid = some r.txid ∧ r.txid.length = 32

theorem memcmp_neg_iff {x y : List UInt8} (h : x.length = y.length) :
    memcmp x y < 0 ↔ beVal x < beVal y := by
  unfold memcmp
  rw [← beGreater_iff y x h.symm]
  cases beGreater y x
  · cases beGreater x y <;> simp
  · simp

theorem memcmp_pos_iff {x y : List UInt8} (h : x.length = y.length) :
    0 < memcmp x y ↔ beVal y < beVal x := by
  unfold memcmp
  by_cases hyx : beGreater y x = true
  · rw [if_pos hyx]
    have := (beGreater_iff y x h.symm).mp hyx
    exact iff_of_false (by decide) (by omega)
  · rw [if_neg hyx, ← beGreater_iff x y h]
    cases beGreater x y <;> simp

/-- What a coin that was read says of the two states of the reader. -/
structure Moved (r r' : UsdReader) : Prop where
  shorter : r'.bytes.length < r.bytes.length
  inGroup : r'.haveGroup = true
  prevTxid : r'.prevTxid = some r'.txid
  txid_length : r'.txid.length = 32
  rises : ∀ prev ∈ r.prevTxid, prev = r'.txid ∨ beVal prev < beVal r'.txid

theorem Moved.steady {r r' : UsdReader} (h : Moved r r') : Steady r' :=
  .inr ⟨h.inGroup, h.prevTxid, h.txid_length⟩

theorem moved_of_rdCoin {r r' : UsdReader} {c : UsdCoin} (hr : Steady r)
    (h : rdCoin r = .got (c, r')) : Moved r r' := by
  unfold rdCoin at h
  split at h
  · rename_i hin
    obtain ⟨rest, hrest, rfl⟩ := groupCoin_eq_got h
    obtain ⟨hout, -⟩ | ⟨hgroup, hprev, hlen⟩ := hr
    · rw [hin.1] at hout
      cases hout
    · refine ⟨hrest, hgroup, hprev, hlen, fun prev hmem => .inl ?_⟩
      rw [Option.mem_def, hprev] at hmem
      exact (Option.some.inj hmem).symm
  split at h
  · cases h
  split at h
  · cases h
  · rename_i s hstart
    obtain ⟨rest, hrest, rfl⟩ := groupCoin_eq_got h
    obtain ⟨hshort, hlen, hprev, hgroup, hrises⟩ := startGroup_eq_some hstart
    refine ⟨hrest.trans_le hshort, hgroup, hprev, hlen, fun prev hmem => .inr ?_⟩
    refine (memcmp_pos_iff ?_).mp (hrises prev hmem)
    obtain ⟨-, hnone⟩ | ⟨-, hsome, hlen'⟩ := hr
    · rw [Option.mem_def, hnone] at hmem
      cases hmem
    · rw [Option.mem_def, hsome] at hmem
      rw [← Option.some.inj hmem, hlen, hlen']

theorem coinsFrom_eq {r : UsdReader} (hr : Steady r) {k m : Nat} (hk : r.bytes.length < k)
    (hm : r.bytes.length < m) : coinsFrom k r = coinsFrom m r := by
  induction k generalizing r m with
  | zero => omega
  | succ k ih =>
      obtain ⟨m, rfl⟩ : ∃ m', m = m' + 1 := ⟨m - 1, by omega⟩
      unfold coinsFrom
      cases hread : rdCoin r with
      | malformed => rfl
      | ended => rfl
      | got p =>
          obtain ⟨c, r'⟩ := p
          have hmoved := moved_of_rdCoin hr hread
          have hshort := hmoved.shorter
          have hrest : coinsFrom k r' = coinsFrom m r' :=
            ih hmoved.steady (by omega) (by omega)
          simp only [hrest]

theorem coins_of_got {r r' : UsdReader} {c : UsdCoin} (hr : Steady r)
    (h : rdCoin r = .got (c, r')) :
    coins r = ((r'.txid, c) :: (coins r').1, (coins r').2) := by
  have hmoved := moved_of_rdCoin hr h
  have hrest : coinsFrom r.bytes.length r' = coins r' :=
    coinsFrom_eq hmoved.steady hmoved.shorter (Nat.lt_succ_self _)
  rw [coins, coinsFrom, h]
  simp only [hrest]

theorem coins_of_ended {r : UsdReader} (h : rdCoin r = .ended) : coins r = ([], true) := by
  rw [coins, coinsFrom, h]

theorem coins_of_malformed {r : UsdReader} (h : rdCoin r = .malformed) :
    coins r = ([], false) := by
  rw [coins, coinsFrom, h]

/-! ## Group after group -/

/-- The groups of a row of coins, one being in progress; when the row breaks off the group in
progress is lost with it. -/
def gather (ok : Bool) : List UInt8 → List UsdCoin → List (List UInt8 × UsdCoin) → List UsdGroup
  | txid, acc, [] => if ok then [⟨txid, acc⟩] else []
  | txid, acc, (t, c) :: rest =>
      if t ≠ txid then ⟨txid, acc⟩ :: gather ok t [c] rest else gather ok txid (acc ++ [c]) rest

def wholeGroups : List (List UInt8 × UsdCoin) × Bool → List UsdGroup
  | ([], _) => []
  | ((t, c) :: rest, ok) => gather ok t [c] rest

/-- What is still to come of a side. -/
def UsdSide.coins (s : UsdSide) : List (List UInt8 × UsdCoin) × Bool :=
  ((s.pending.map fun c => (s.reader.txid, c)).toList ++ (Usnap.coins s.reader).1,
    (Usnap.coins s.reader).2)

/-- The first of the groups with a side that still holds the others. -/
def Starts (ok : Bool) : List UsdGroup → Rd (UsdGroup × UsdSide) → Prop
  | [], got => got = if ok then .ended else .malformed
  | g :: gs, got => ∃ s : UsdSide, got = .got (g, s) ∧ Steady s.reader ∧
      wholeGroups s.coins = gs ∧ s.coins.2 = ok

theorem grpRest_starts {k : Nat} {r : UsdReader} (hr : Steady r) (hk : r.bytes.length < k)
    (acc : List UsdCoin) :
    Starts (coins r).2 (gather (coins r).2 r.txid acc (coins r).1) (grpRest k r acc) := by
  induction k generalizing r acc with
  | zero => omega
  | succ k ih =>
      unfold grpRest
      cases hread : rdCoin r with
      | malformed => simp [coins_of_malformed hread, gather, Starts]
      | ended => simp [coins_of_ended hread, gather, Starts, UsdSide.coins, wholeGroups, hr]
      | got p =>
          obtain ⟨c, r'⟩ := p
          have hmoved := moved_of_rdCoin hr hread
          have hshort := hmoved.shorter
          rw [coins_of_got hr hread]
          by_cases hsame : r'.txid = r.txid
          · simp only [gather, hsame, ne_eq, not_true_eq_false, if_false]
            have hrest := ih hmoved.steady (by omega) (acc ++ [c])
            rw [hsame] at hrest
            exact hrest
          · simp only [gather, ne_eq, hsame, not_false_eq_true, if_true]
            exact ⟨_, rfl, hmoved.steady, rfl, rfl⟩

theorem rdGroup_starts {s : UsdSide} (hs : Steady s.reader) :
    Starts s.coins.2 (wholeGroups s.coins) (rdGroup s) := by
  obtain ⟨r, pending⟩ := s
  cases pending with
  | some c => exact grpRest_starts hs (Nat.lt_succ_self _) [c]
  | none =>
      unfold rdGroup
      cases hread : rdCoin r with
      | malformed => simp [UsdSide.coins, coins_of_malformed hread, wholeGroups, Starts]
      | ended => simp [UsdSide.coins, coins_of_ended hread, wholeGroups, Starts]
      | got p =>
          obtain ⟨c, r'⟩ := p
          have hmoved := moved_of_rdCoin hs hread
          have hrest := grpRest_starts hmoved.steady (Nat.lt_succ_self _) [c]
          simpa only [UsdSide.coins, coins_of_got hs hread, Option.map_none, Option.toList_none,
            List.nil_append, wholeGroups] using hrest

/-! ### The loop walks the whole groups -/

def txidKey (g : UsdGroup) : Nat := beVal g.txid

theorem Starts.cons {ok : Bool} {g : UsdGroup} {gs : List UsdGroup}
    {got : Rd (UsdGroup × UsdSide)} (h : Starts ok (g :: gs) got) :
    ∃ s, got = .got (g, s) ∧ Starts ok gs (rdGroup s) := by
  obtain ⟨s, hgot, hs, hgroups, hok⟩ := h
  have hnext := rdGroup_starts hs
  rw [hgroups, hok] at hnext
  exact ⟨s, hgot, hnext⟩

theorem map_map_append {α : Type} (o : Option (List α)) (p q : List α) :
    (o.map (q ++ ·)).map (p ++ ·) = o.map (p ++ q ++ ·) := by
  cases o <;> simp

theorem diffLoop_eq {k : Nat} {gs hs : List UsdGroup} {a b : Bool}
    {ra rb : Rd (UsdGroup × UsdSide)} (ha : Starts a gs ra) (hb : Starts b hs rb)
    (hgs : ∀ g ∈ gs, g.txid.length = 32) (hhs : ∀ h ∈ hs, h.txid.length = 32)
    (hk : gs.length + hs.length < k) (reports : List Report) :
    diffLoop k ra rb reports =
      some ((twoWay txidKey reportA reportB reportBoth gs a hs b).map (reports ++ ·)) := by
  induction k generalizing gs hs ra rb reports with
  | zero => omega
  | succ k ih =>
      cases gs with
      | nil =>
          cases hs with
          | nil => cases a <;> cases b <;> simp_all [Starts, diffLoop, twoWay]
          | cons h hs =>
              obtain ⟨sb, rfl, hnext⟩ := hb.cons
              have hlt : ([] : List UsdGroup).length + hs.length < k := by
                simp only [List.length_cons] at hk
                omega
              cases a with
              | false => simp_all [Starts, diffLoop, twoWay]
              | true =>
                  have hend : ra = .ended := ha
                  subst hend
                  rw [diffLoop, twoWay, if_pos rfl, map_map_append]
                  exact ih ha hnext hgs (fun x hx => hhs x (List.mem_cons_of_mem _ hx)) hlt _
      | cons g gs =>
          obtain ⟨sa, rfl, hnextA⟩ := ha.cons
          have hgs' : ∀ x ∈ gs, x.txid.length = 32 := fun x hx =>
            hgs x (List.mem_cons_of_mem _ hx)
          cases hs with
          | nil =>
              have hlt : gs.length + ([] : List UsdGroup).length < k := by
                simp only [List.length_cons] at hk
                omega
              cases b with
              | false => simp_all [Starts, diffLoop, twoWay]
              | true =>
                  have hend : rb = .ended := hb
                  subst hend
                  rw [diffLoop, twoWay, if_pos rfl, map_map_append]
                  exact ih hnextA hb hgs' hhs hlt _
          | cons h hs =>
              obtain ⟨sb, rfl, hnextB⟩ := hb.cons
              have hhs' : ∀ x ∈ hs, x.txid.length = 32 := fun x hx =>
                hhs x (List.mem_cons_of_mem _ hx)
              simp only [List.length_cons] at hk
              have hlen : g.txid.length = h.txid.length := by
                rw [hgs g List.mem_cons_self, hhs h List.mem_cons_self]
              have hneg : memcmp g.txid h.txid < 0 ↔ txidKey g < txidKey h := memcmp_neg_iff hlen
              have hpos : 0 < memcmp g.txid h.txid ↔ txidKey h < txidKey g := memcmp_pos_iff hlen
              rw [diffLoop, twoWay]
              by_cases hlt : txidKey g < txidKey h
              · rw [if_pos (hneg.mpr hlt), if_pos hlt, map_map_append]
                exact ih hnextA hb hgs' hhs (by simp only [List.length_cons]; omega) _
              rw [if_neg (mt hneg.mp hlt), if_neg hlt]
              by_cases hgt : txidKey h < txidKey g
              · rw [if_pos (hpos.mpr hgt), if_pos hgt, map_map_append]
                exact ih ha hnextB hgs hhs' (by simp only [List.length_cons]; omega) _
              · rw [if_neg (mt hpos.mp hgt), if_neg hgt, map_map_append]
                exact ih hnextA hnextB hgs' hhs' (by omega) _

/-! ### The groups against the coins -/

def Rising (cs : List (List UInt8 × UsdCoin)) : Prop :=
  (∀ p ∈ cs, p.1.length = 32) ∧ cs.Pairwise fun p q => p.1 = q.1 ∨ beVal p.1 < beVal q.1

theorem coinsFrom_rising {k : Nat} {r : UsdReader} (hr : Steady r) :
    Rising (coinsFrom k r).1 ∧
      ∀ p ∈ (coinsFrom k r).1, ∀ prev ∈ r.prevTxid, prev = p.1 ∨ beVal prev < beVal p.1 := by
  induction k generalizing r with
  | zero => exact ⟨⟨nofun, .nil⟩, nofun⟩
  | succ k ih =>
      unfold coinsFrom
      cases hread : rdCoin r with
      | malformed => exact ⟨⟨nofun, .nil⟩, nofun⟩
      | ended => exact ⟨⟨nofun, .nil⟩, nofun⟩
      | got p =>
          obtain ⟨c, r'⟩ := p
          have hmoved := moved_of_rdCoin hr hread
          obtain ⟨⟨hlen, hpair⟩, hfirst⟩ := ih hmoved.steady
          have habove : ∀ q ∈ (coinsFrom k r').1, r'.txid = q.1 ∨ beVal r'.txid < beVal q.1 :=
            fun q hq => hfirst q hq _ hmoved.prevTxid
          refine ⟨⟨?_, List.pairwise_cons.mpr ⟨habove, hpair⟩⟩, ?_⟩
          · exact List.forall_mem_cons.mpr ⟨hmoved.txid_length, hlen⟩
          · refine List.forall_mem_cons.mpr ⟨hmoved.rises, fun q hq prev hprev => ?_⟩
            rcases hmoved.rises prev hprev with rfl | hlt
            · exact habove q hq
            · rcases habove q hq with heq | hlt'
              · exact .inr (heq ▸ hlt)
              · exact .inr (hlt.trans hlt')

theorem gather_spec {ok : Bool} {txid : List UInt8} {acc : List UsdCoin}
    {cs : List (List UInt8 × UsdCoin)} (hlen : txid.length = 32) (hcs : Rising cs)
    (habove : ∀ p ∈ cs, txid = p.1 ∨ beVal txid < beVal p.1) :
    Ascending txidKey (gather ok txid acc cs) ∧
      ∀ g ∈ gather ok txid acc cs, g.txid.length = 32 ∧
        (txid = g.txid ∨ beVal txid < beVal g.txid) := by
  fun_induction gather ok txid acc cs with
  | case1 txid acc hok =>
      refine ⟨List.pairwise_singleton _ _, fun g hg => ?_⟩
      obtain rfl := List.mem_singleton.mp hg
      exact ⟨hlen, .inl rfl⟩
  | case2 txid acc hok => exact ⟨.nil, nofun⟩
  | case3 txid acc t c rest hne ih =>
      obtain ⟨hlens, hpair⟩ := hcs
      obtain ⟨hhead, hrest⟩ := List.pairwise_cons.mp hpair
      obtain ⟨hlen', hlens'⟩ := List.forall_mem_cons.mp hlens
      have hlt : beVal txid < beVal t :=
        (habove _ List.mem_cons_self).resolve_left fun h => hne h.symm
      obtain ⟨hasc, hall⟩ := ih hlen' ⟨hlens', hrest⟩ hhead
      have hlater : ∀ g ∈ gather ok t [c] rest, beVal txid < beVal g.txid := fun g hg => by
        rcases (hall g hg).2 with rfl | hlt'
        · exact hlt
        · exact hlt.trans hlt'
      refine ⟨List.pairwise_cons.mpr ⟨hlater, hasc⟩, ?_⟩
      exact List.forall_mem_cons.mpr
        ⟨⟨hlen, .inl rfl⟩, fun g hg => ⟨(hall g hg).1, .inr (hlater g hg)⟩⟩
  | case4 txid acc t c rest heq ih =>
      obtain ⟨hlens, hpair⟩ := hcs
      exact ih hlen ⟨fun p hp => hlens p (List.mem_cons_of_mem _ hp), (List.pairwise_cons.mp hpair).2⟩
        fun p hp => habove p (List.mem_cons_of_mem _ hp)

/-- Read to the end, the groups hold the coins in their order. -/
theorem flatMap_gather (txid : List UInt8) (acc : List UsdCoin)
    (cs : List (List UInt8 × UsdCoin)) :
    (gather true txid acc cs).flatMap (fun g => g.coins.map (g.txid, ·)) =
      acc.map (txid, ·) ++ cs := by
  fun_induction gather true txid acc cs with
  | case1 txid acc => simp
  | case2 txid acc hok => exact absurd rfl hok
  | case3 txid acc t c rest hne ih => simp [ih]
  | case4 txid acc t c rest heq ih =>
      obtain rfl : t = txid := not_ne_iff.mp heq
      simp [ih]

theorem length_gather_le (ok : Bool) (txid : List UInt8) (acc : List UsdCoin)
    (cs : List (List UInt8 × UsdCoin)) : (gather ok txid acc cs).length ≤ cs.length + 1 := by
  fun_induction gather ok txid acc cs with
  | case1 => simp
  | case2 => simp
  | case3 txid acc t c rest hne ih => simpa using ih
  | case4 txid acc t c rest heq ih => exact ih.trans (by simp)

theorem length_coinsFrom_le {k : Nat} {r : UsdReader} (hr : Steady r) :
    (coinsFrom k r).1.length ≤ r.bytes.length := by
  induction k generalizing r with
  | zero => exact Nat.zero_le _
  | succ k ih =>
      unfold coinsFrom
      cases hread : rdCoin r with
      | malformed => exact Nat.zero_le _
      | ended => exact Nat.zero_le _
      | got p =>
          obtain ⟨c, r'⟩ := p
          have hmoved := moved_of_rdCoin hr hread
          exact (Nat.succ_le_succ (ih hmoved.steady)).trans hmoved.shorter

theorem length_wholeGroups_le (p : List (List UInt8 × UsdCoin) × Bool) :
    (wholeGroups p).length ≤ p.1.length := by
  obtain ⟨cs, ok⟩ := p
  cases cs with
  | nil => exact Nat.le_refl 0
  | cons c cs => exact length_gather_le ok c.1 [c.2] cs

theorem wholeGroups_spec {p : List (List UInt8 × UsdCoin) × Bool} (h : Rising p.1) :
    Ascending txidKey (wholeGroups p) ∧ ∀ g ∈ wholeGroups p, g.txid.length = 32 := by
  obtain ⟨cs, ok⟩ := p
  cases cs with
  | nil => exact ⟨.nil, nofun⟩
  | cons c cs =>
      obtain ⟨hlens, hpair⟩ := h
      obtain ⟨hhead, hrest⟩ := List.pairwise_cons.mp hpair
      obtain ⟨hlen, hlens'⟩ := List.forall_mem_cons.mp hlens
      obtain ⟨hasc, hall⟩ := gather_spec hlen ⟨hlens', hrest⟩ hhead
      exact ⟨hasc, fun g hg => (hall g hg).1⟩

theorem flatMap_wholeGroups (cs : List (List UInt8 × UsdCoin)) :
    (wholeGroups (cs, true)).flatMap (fun g => g.coins.map (g.txid, ·)) = cs := by
  cases cs with
  | nil => rfl
  | cons p cs => exact flatMap_gather p.1 [p.2] cs

theorem mem_wholeGroups {cs : List (List UInt8 × UsdCoin)} {t : List UInt8} {c : UsdCoin} :
    (∃ g ∈ wholeGroups (cs, true), g.txid = t ∧ c ∈ g.coins) ↔ (t, c) ∈ cs := by
  conv_rhs => rw [← flatMap_wholeGroups cs]
  simp only [List.mem_flatMap, List.mem_map, Prod.mk.injEq]
  refine exists_congr fun g => and_congr_right fun _ => ⟨?_, ?_⟩
  · rintro ⟨rfl, hc⟩
    exact ⟨c, hc, rfl, rfl⟩
  · rintro ⟨c', hc, rfl, rfl⟩
    exact ⟨rfl, hc⟩

/-! ## What differs -/

def outpoints (cs : List (List UInt8 × UsdCoin)) : List (List UInt8 × Nat) :=
  cs.map fun p => (p.1, p.2.vout)

/-- The coin at an outpoint as it is serialized. -/
def serAt (cs : List (List UInt8 × UsdCoin)) (o : List UInt8 × Nat) : Option (List UInt8) :=
  (cs.find? fun p => decide ((p.1, p.2.vout) = o)).map fun p => p.2.ser

/-- The outpoints on one side only or with different serialized coins. -/
def differing (xs ys : List (List UInt8 × UsdCoin)) : Finset (List UInt8 × Nat) :=
  ((outpoints xs).toFinset ∪ (outpoints ys).toFinset).filter fun o => serAt xs o ≠ serAt ys o

variable {cs xs ys : List (List UInt8 × UsdCoin)}

theorem serAt_eq_none_iff {o : List UInt8 × Nat} : serAt cs o = none ↔ o ∉ outpoints cs := by
  simp [serAt, outpoints]

theorem serAt_of_mem (hnd : (outpoints cs).Nodup) {t : List UInt8} {c : UsdCoin}
    (h : (t, c) ∈ cs) : serAt cs (t, c.vout) = some c.ser := by
  unfold serAt
  cases hfind : cs.find? fun p => decide ((p.1, p.2.vout) = (t, c.vout)) with
  | none =>
      have := List.find?_eq_none.mp hfind _ h
      simp at this
  | some q =>
      have hq : (q.1, q.2.vout) = (t, c.vout) := by simpa using List.find?_some hfind
      have heq : q = (t, c) :=
        List.inj_on_of_nodup_map hnd (List.mem_of_find?_eq_some hfind) h hq
      rw [heq]
      rfl

theorem mem_differing {o : List UInt8 × Nat} :
    o ∈ differing xs ys ↔ serAt xs o ≠ serAt ys o := by
  unfold differing
  rw [Finset.mem_filter, Finset.mem_union, List.mem_toFinset, List.mem_toFinset]
  refine and_iff_right_of_imp fun hne => ?_
  by_contra hout
  rw [not_or, ← serAt_eq_none_iff, ← serAt_eq_none_iff] at hout
  exact hne (hout.1.trans hout.2.symm)

theorem group_unique (hcs : Rising cs) {g h : UsdGroup} (hg : g ∈ wholeGroups (cs, true))
    (hh : h ∈ wholeGroups (cs, true)) (htxid : g.txid = h.txid) : g = h :=
  (wholeGroups_spec (p := (cs, true)) hcs).1.key_inj hg hh (congrArg beVal htxid)

theorem nodup_vouts (hnd : (outpoints cs).Nodup) {g : UsdGroup}
    (hg : g ∈ wholeGroups (cs, true)) : (g.coins.map UsdCoin.vout).Nodup := by
  have hsub : (g.coins.map (g.txid, ·)).Sublist cs := by
    rw [← flatMap_wholeGroups cs, List.flatMap_def]
    exact List.sublist_flatten_of_mem (List.mem_map_of_mem hg)
  have hpairs := (hsub.map fun p : List UInt8 × UsdCoin => (p.1, p.2.vout)).nodup hnd
  rw [List.map_map] at hpairs
  refine List.Nodup.of_map (fun v => (g.txid, v)) ?_
  rw [List.map_map]
  exact hpairs

theorem grpFind_of_mem {g : UsdGroup} (hnd : (g.coins.map UsdCoin.vout).Nodup) {c : UsdCoin}
    (hc : c ∈ g.coins) : grpFind g c.vout = some c := by
  unfold grpFind
  cases hfind : g.coins.find? fun d => decide (d.vout = c.vout) with
  | none =>
      have := List.find?_eq_none.mp hfind _ hc
      simp at this
  | some d =>
      have hvout : d.vout = c.vout := by simpa using List.find?_some hfind
      rw [List.inj_on_of_nodup_map hnd (List.mem_of_find?_eq_some hfind) hc hvout]

theorem grpFind_eq_some {g : UsdGroup} {v : Nat} {c : UsdCoin} (h : grpFind g v = some c) :
    c ∈ g.coins ∧ c.vout = v :=
  ⟨List.mem_of_find?_eq_some h, by simpa using List.find?_some h⟩

theorem grpFind_eq_none {g : UsdGroup} {v : Nat} (h : grpFind g v = none) :
    ∀ c ∈ g.coins, c.vout ≠ v := by
  simpa [grpFind] using h

/-- A group's own search finds what the whole row has there. -/
theorem serAt_group (hcs : Rising cs) (hnd : (outpoints cs).Nodup) {g : UsdGroup}
    (hg : g ∈ wholeGroups (cs, true)) (v : Nat) :
    serAt cs (g.txid, v) = (grpFind g v).map UsdCoin.ser := by
  cases hfind : grpFind g v with
  | none =>
      refine serAt_eq_none_iff.mpr fun hmem => ?_
      obtain ⟨⟨t, c⟩, hc, hout⟩ := List.mem_map.mp hmem
      obtain ⟨rfl, rfl⟩ := by simpa using hout
      obtain ⟨k, hk, htxid, hck⟩ := mem_wholeGroups.mpr hc
      obtain rfl := group_unique hcs hk hg htxid
      exact grpFind_eq_none hfind c hck rfl
  | some c =>
      obtain ⟨hc, rfl⟩ := grpFind_eq_some hfind
      exact serAt_of_mem hnd (mem_wholeGroups.mp ⟨g, hg, rfl, hc⟩)

theorem serAt_no_group {t : List UInt8} (hno : ∀ g ∈ wholeGroups (cs, true), g.txid ≠ t)
    (v : Nat) : serAt cs (t, v) = none := by
  refine serAt_eq_none_iff.mpr fun hmem => ?_
  obtain ⟨⟨t', c⟩, hc, hout⟩ := List.mem_map.mp hmem
  obtain ⟨rfl, rfl⟩ := by simpa using hout
  obtain ⟨g, hg, htxid, -⟩ := mem_wholeGroups.mpr hc
  exact hno g hg htxid

/-! ### One report for each -/

def verdict (o : List UInt8 × Nat) : Option (List UInt8) → Option (List UInt8) → Option Report
  | none, none => none
  | some _, none => some (.onlyInA o.1 o.2)
  | none, some _ => some (.onlyInB o.1 o.2)
  | some a, some b => if a ≠ b then some (.differs o.1 o.2) else none

def Report.outpoint : Report → List UInt8 × Nat
  | .onlyInA t v => (t, v)
  | .onlyInB t v => (t, v)
  | .differs t v => (t, v)

theorem verdict_eq_none_iff {o : List UInt8 × Nat} {a b : Option (List UInt8)} :
    verdict o a b = none ↔ a = b := by
  cases a <;> cases b <;> simp [verdict]

theorem outpoint_of_verdict {o : List UInt8 × Nat} {a b : Option (List UInt8)} {x : Report}
    (h : verdict o a b = some x) : x.outpoint = o := by
  cases a with
  | none =>
      cases b with
      | none => cases h
      | some b =>
          obtain rfl := Option.some.inj h
          rfl
  | some a =>
      cases b with
      | none =>
          obtain rfl := Option.some.inj h
          rfl
      | some b =>
          rw [verdict] at h
          split at h
          · obtain rfl := Option.some.inj h
            rfl
          · cases h

/-- The coins of a group that is in one file only are reported by their outputs. -/
theorem mem_map_vouts {g : UsdGroup} (hnd : (g.coins.map UsdCoin.vout).Nodup)
    {report : Nat → Report} {ask : Nat → Option (List UInt8) → Option Report}
    (hnone : ∀ v, ask v none = none) (hsome : ∀ v ser, ask v (some ser) = some (report v))
    {x : Report} :
    x ∈ g.coins.map (fun c => report c.vout) ↔
      ∃ v, ask v ((grpFind g v).map UsdCoin.ser) = some x := by
  rw [List.mem_map]
  constructor
  · rintro ⟨c, hc, rfl⟩
    refine ⟨c.vout, ?_⟩
    rw [grpFind_of_mem hnd hc]
    exact hsome _ _
  · rintro ⟨v, hv⟩
    cases hfind : grpFind g v with
    | none =>
        rw [hfind, Option.map_none, hnone] at hv
        cases hv
    | some c =>
        obtain ⟨hc, rfl⟩ := grpFind_eq_some hfind
        rw [hfind, Option.map_some, hsome] at hv
        exact ⟨c, hc, Option.some.inj hv⟩

theorem mem_reportA {g : UsdGroup} (hnd : (g.coins.map UsdCoin.vout).Nodup) {x : Report} :
    x ∈ reportA g ↔ ∃ v, verdict (g.txid, v) ((grpFind g v).map UsdCoin.ser) none = some x :=
  @mem_map_vouts g hnd (.onlyInA g.txid) (fun v ser => verdict (g.txid, v) ser none)
    (fun _ => rfl) (fun _ _ => rfl) x

theorem mem_reportB {g : UsdGroup} (hnd : (g.coins.map UsdCoin.vout).Nodup) {x : Report} :
    x ∈ reportB g ↔ ∃ v, verdict (g.txid, v) none ((grpFind g v).map UsdCoin.ser) = some x :=
  @mem_map_vouts g hnd (.onlyInB g.txid) (fun v ser => verdict (g.txid, v) none ser)
    (fun _ => rfl) (fun _ _ => rfl) x

theorem mem_reportBoth {g h : UsdGroup} (hg : (g.coins.map UsdCoin.vout).Nodup)
    (hh : (h.coins.map UsdCoin.vout).Nodup) {x : Report} :
    x ∈ reportBoth g h ↔
      ∃ v, verdict (g.txid, v) ((grpFind g v).map UsdCoin.ser)
        ((grpFind h v).map UsdCoin.ser) = some x := by
  unfold reportBoth
  rw [List.mem_append, List.mem_flatMap, List.mem_flatMap]
  constructor
  · rintro (⟨c, hc, hx⟩ | ⟨c, hc, hx⟩)
    · refine ⟨c.vout, ?_⟩
      rw [grpFind_of_mem hg hc]
      cases hfind : grpFind h c.vout with
      | none => simpa [hfind, verdict, eq_comm] using hx
      | some d =>
          simp only [hfind] at hx
          split at hx
          · rename_i hne
            simpa [verdict, hne, eq_comm] using hx
          · cases hx
    · refine ⟨c.vout, ?_⟩
      rw [grpFind_of_mem hh hc]
      cases hfind : grpFind g c.vout with
      | none => simpa [hfind, verdict, eq_comm] using hx
      | some d => simp [hfind] at hx
  · rintro ⟨v, hv⟩
    cases hfindG : grpFind g v with
    | none =>
        cases hfindH : grpFind h v with
        | none =>
            rw [hfindG, hfindH] at hv
            cases hv
        | some d =>
            obtain ⟨hd, rfl⟩ := grpFind_eq_some hfindH
            refine .inr ⟨d, hd, ?_⟩
            rw [hfindG, hfindH] at hv
            simp [hfindG, ← Option.some.inj hv]
    | some c =>
        obtain ⟨hc, rfl⟩ := grpFind_eq_some hfindG
        refine .inl ⟨c, hc, ?_⟩
        rw [hfindG] at hv
        cases hfindH : grpFind h c.vout with
        | none =>
            rw [hfindH] at hv
            simp [← Option.some.inj hv]
        | some d =>
            rw [hfindH] at hv
            simp only [Option.map_some, verdict] at hv
            split at hv
            · rename_i hne
              simp [hne, ← Option.some.inj hv]
            · cases hv

/-- At most one report for each coin of a list, about that coin. -/
theorem flatMap_outpoint_sublist {t : List UInt8} {f : UsdCoin → List Report}
    (hf : ∀ c, f c = [] ∨ ∃ x, f c = [x] ∧ x.outpoint = (t, c.vout)) (l : List UsdCoin) :
    ((l.flatMap f).map Report.outpoint).Sublist ((l.map UsdCoin.vout).map (t, ·)) := by
  induction l with
  | nil => exact List.Sublist.refl _
  | cons c l ih =>
      rw [List.flatMap_cons, List.map_append, List.map_cons, List.map_cons]
      rcases hf c with hnone | ⟨x, hone, hout⟩
      · rw [hnone]
        exact ih.cons _
      · rw [hone, List.map_singleton, hout]
        exact ih.cons_cons _

theorem nodup_flatMap_reports {t : List UInt8} {f : UsdCoin → List Report}
    (hf : ∀ c, f c = [] ∨ ∃ x, f c = [x] ∧ x.outpoint = (t, c.vout)) {l : List UsdCoin}
    (hnd : (l.map UsdCoin.vout).Nodup) : (l.flatMap f).Nodup := by
  have hpairs : ((l.map UsdCoin.vout).map fun v => (t, v)).Nodup :=
    hnd.map fun v w h => (Prod.mk.inj h).2
  exact List.Nodup.of_map _ ((flatMap_outpoint_sublist hf l).nodup hpairs)

theorem nodup_reportBoth {g h : UsdGroup} (hg : (g.coins.map UsdCoin.vout).Nodup)
    (hh : (h.coins.map UsdCoin.vout).Nodup) : (reportBoth g h).Nodup := by
  unfold reportBoth
  refine List.nodup_append.mpr ⟨nodup_flatMap_reports (t := g.txid) (fun c => ?_) hg,
    nodup_flatMap_reports (t := g.txid) (fun c => ?_) hh, ?_⟩
  · cases grpFind h c.vout with
    | none => exact .inr ⟨_, rfl, rfl⟩
    | some d =>
        dsimp only
        split
        · exact .inr ⟨_, rfl, rfl⟩
        · exact .inl rfl
  · cases grpFind g c.vout with
    | none => exact .inr ⟨_, rfl, rfl⟩
    | some d => exact .inl rfl
  · -- the second half holds the coins only in B
    rintro x hx _ hy rfl
    obtain ⟨c, -, hx⟩ := List.mem_flatMap.mp hx
    obtain ⟨d, -, hy⟩ := List.mem_flatMap.mp hy
    split at hy
    · obtain rfl := List.mem_singleton.mp hy
      split at hx
      · cases List.mem_singleton.mp hx
      · split at hx
        · cases List.mem_singleton.mp hx
        · cases hx
    · cases hy

theorem tagged_reports (hndx : (outpoints xs).Nodup) (hndy : (outpoints ys).Nodup) :
    Tagged txidKey reportA reportB reportBoth (fun x => beVal x.outpoint.1)
      (wholeGroups (xs, true)) (wholeGroups (ys, true)) := by
  refine ⟨fun g hg => ?_, fun h hh => ?_, fun g hg h hh _ => ?_⟩
  · have hvouts := nodup_vouts hndx hg
    refine ⟨?_, fun x hx => ?_⟩
    · rw [reportA, ← Function.comp_def (Report.onlyInA g.txid) UsdCoin.vout, ← List.map_map]
      exact hvouts.map fun v w hvw => (Report.onlyInA.inj hvw).2
    · obtain ⟨v, hv⟩ := (mem_reportA hvouts).mp hx
      rw [outpoint_of_verdict hv]
      rfl
  · have hvouts := nodup_vouts hndy hh
    refine ⟨?_, fun x hx => ?_⟩
    · rw [reportB, ← Function.comp_def (Report.onlyInB h.txid) UsdCoin.vout, ← List.map_map]
      exact hvouts.map fun v w hvw => (Report.onlyInB.inj hvw).2
    · obtain ⟨v, hv⟩ := (mem_reportB hvouts).mp hx
      rw [outpoint_of_verdict hv]
      rfl
  · refine ⟨nodup_reportBoth (nodup_vouts hndx hg) (nodup_vouts hndy hh), fun x hx => ?_⟩
    obtain ⟨v, hv⟩ := (mem_reportBoth (nodup_vouts hndx hg) (nodup_vouts hndy hh)).mp hx
    rw [outpoint_of_verdict hv]
    rfl

section

variable (hxs : Rising xs) (hys : Rising ys) (hndx : (outpoints xs).Nodup)
  (hndy : (outpoints ys).Nodup)

include hxs hys

theorem txidKey_eq_iff {g h : UsdGroup} (hg : g ∈ wholeGroups (xs, true))
    (hh : h ∈ wholeGroups (ys, true)) : txidKey g = txidKey h ↔ g.txid = h.txid := by
  refine ⟨fun heq => beVal_inj ?_ heq, congrArg beVal⟩
  rw [(wholeGroups_spec (p := (xs, true)) hxs).2 g hg,
    (wholeGroups_spec (p := (ys, true)) hys).2 h hh]

include hndx hndy

theorem reported_iff {x : Report} :
    Reported txidKey reportA reportB reportBoth (wholeGroups (xs, true))
        (wholeGroups (ys, true)) x ↔
      ∃ o, verdict o (serAt xs o) (serAt ys o) = some x := by
  constructor
  · rintro (⟨g, hg, hno, hx⟩ | ⟨h, hh, hno, hx⟩ | ⟨g, hg, h, hh, heq, hx⟩)
    · obtain ⟨v, hv⟩ := (mem_reportA (nodup_vouts hndx hg)).mp hx
      refine ⟨(g.txid, v), ?_⟩
      rw [serAt_group hxs hndx hg, serAt_no_group fun h hh heq => hno h hh (congrArg beVal heq)]
      exact hv
    · obtain ⟨v, hv⟩ := (mem_reportB (nodup_vouts hndy hh)).mp hx
      refine ⟨(h.txid, v), ?_⟩
      rw [serAt_group hys hndy hh, serAt_no_group fun g hg heq => hno g hg (congrArg beVal heq)]
      exact hv
    · obtain ⟨v, hv⟩ := (mem_reportBoth (nodup_vouts hndx hg) (nodup_vouts hndy hh)).mp hx
      refine ⟨(g.txid, v), ?_⟩
      have htxid := (txidKey_eq_iff hxs hys hg hh).mp heq
      rw [serAt_group hxs hndx hg, htxid, serAt_group hys hndy hh, ← htxid]
      exact hv
  · rintro ⟨⟨t, v⟩, hv⟩
    by_cases hA : ∃ g ∈ wholeGroups (xs, true), g.txid = t
    · obtain ⟨g, hg, rfl⟩ := hA
      rw [serAt_group hxs hndx hg] at hv
      by_cases hB : ∃ h ∈ wholeGroups (ys, true), h.txid = g.txid
      · obtain ⟨h, hh, htxid⟩ := hB
        rw [← htxid, serAt_group hys hndy hh, htxid] at hv
        refine .inr (.inr ⟨g, hg, h, hh, congrArg beVal htxid.symm, ?_⟩)
        exact (mem_reportBoth (nodup_vouts hndx hg) (nodup_vouts hndy hh)).mpr ⟨v, hv⟩
      · have hno : ∀ h ∈ wholeGroups (ys, true), h.txid ≠ g.txid := fun h hh heq =>
          hB ⟨h, hh, heq⟩
        rw [serAt_no_group hno] at hv
        refine .inl ⟨g, hg, fun h hh heq => ?_, (mem_reportA (nodup_vouts hndx hg)).mpr ⟨v, hv⟩⟩
        exact hno h hh ((txidKey_eq_iff hxs hys hg hh).mp heq.symm).symm
    · have hno : ∀ g ∈ wholeGroups (xs, true), g.txid ≠ t := fun g hg heq => hA ⟨g, hg, heq⟩
      rw [serAt_no_group hno] at hv
      by_cases hB : ∃ h ∈ wholeGroups (ys, true), h.txid = t
      · obtain ⟨h, hh, rfl⟩ := hB
        rw [serAt_group hys hndy hh] at hv
        refine .inr (.inl ⟨h, hh, fun g hg heq => ?_, ?_⟩)
        · exact hno g hg ((txidKey_eq_iff hxs hys hg hh).mp heq)
        · exact (mem_reportB (nodup_vouts hndy hh)).mpr ⟨v, hv⟩
      · rw [serAt_no_group fun h hh heq => hB ⟨h, hh, heq⟩] at hv
        cases hv

/-- The reports on two whole rows count what differs. -/
theorem length_reports {l : List Report}
    (hl : twoWay txidKey reportA reportB reportBoth (wholeGroups (xs, true)) true
      (wholeGroups (ys, true)) true = some l) :
    l.length = (differing xs ys).card := by
  have hascX := (wholeGroups_spec (p := (xs, true)) hxs).1
  have hascY := (wholeGroups_spec (p := (ys, true)) hys).1
  have hmem : ∀ x, x ∈ l ↔ ∃ o, verdict o (serAt xs o) (serAt ys o) = some x := fun x => by
    rw [mem_twoWay hascX hascY hl, reported_iff hxs hys hndx hndy]
  have hnd : l.Nodup := nodup_twoWay hascX hascY (tagged_reports hndx hndy) hl
  have hinj : ∀ x ∈ l, ∀ y ∈ l, x.outpoint = y.outpoint → x = y := by
    intro x hx y hy heq
    obtain ⟨o, ho⟩ := (hmem x).mp hx
    obtain ⟨o', ho'⟩ := (hmem y).mp hy
    rw [outpoint_of_verdict ho, outpoint_of_verdict ho'] at heq
    subst heq
    exact Option.some.inj (ho.symm.trans ho')
  have hset : (l.map Report.outpoint).toFinset = differing xs ys := by
    ext o
    rw [List.mem_toFinset, List.mem_map, mem_differing]
    constructor
    · rintro ⟨x, hx, rfl⟩
      obtain ⟨o, ho⟩ := (hmem x).mp hx
      rw [outpoint_of_verdict ho]
      intro heq
      rw [verdict_eq_none_iff.mpr heq] at ho
      cases ho
    · intro hne
      obtain ⟨x, hx⟩ := Option.ne_none_iff_exists'.mp (mt verdict_eq_none_iff.mp hne)
      exact ⟨x, (hmem x).mpr ⟨o, hx⟩, outpoint_of_verdict hx⟩
  rw [← hset, List.toFinset_card_of_nodup (hnd.map_on hinj), List.length_map]

end

/-! ## The verdict on two files -/

def Intact (r : UsdReader) : Prop := (coins r).2 = true

/-- The first file breaks off, and the second still has a whole transaction after all those of
the first. -/
def Noticed (A B : UsdReader) : Prop :=
  ¬ Intact A ∧
    ∃ h ∈ wholeGroups (coins B), ∀ g ∈ wholeGroups (coins A), memcmp g.txid h.txid < 0

def DiffAsClaimed (a b : List UInt8) (A B : UsdReader) : Prop :=
  (¬ (Intact A ∧ Intact B) → usnapDiff a b = some (-2)) ∧
    (Intact A → Intact B → (outpoints (coins A).1).Nodup → (outpoints (coins B).1).Nodup →
      usnapDiff a b =
        some ((headerDiffs A B + (differing (coins A).1 (coins B).1).card : Nat) : Int)) ∧
    (usnapDiff a b = some 0 → Intact A ∧ Intact B ∧
      ((outpoints (coins A).1).Nodup → (outpoints (coins B).1).Nodup →
        ∀ o, serAt (coins A).1 o = serAt (coins B).1 o))

variable {a b : List UInt8} {A B : UsdReader}

theorem rdHeader_steady (h : rdHeader a = some A) :
    Steady A ∧ A.bytes.length ≤ a.length := by
  unfold rdHeader at h
  split at h
  · cases h
  rename_i mark rest hmark
  obtain ⟨-, rfl⟩ := Reader.take_eq_some hmark
  split at h
  · cases h
  obtain ⟨⟨head, tail⟩, hread, rfl⟩ := Option.map_eq_some_iff.mp h
  obtain ⟨version, rest₁, h₁, hread⟩ := Reader.bind_eq_some hread
  obtain ⟨magic, rest₂, h₂, hread⟩ := Reader.bind_eq_some hread
  obtain ⟨base, rest₃, h₃, hread⟩ := Reader.bind_eq_some hread
  obtain ⟨count, rest₄, h₄, hread⟩ := Reader.bind_eq_some hread
  obtain ⟨-, rfl⟩ := by simpa [Reader.pure] using hread
  obtain ⟨-, rfl⟩ := Reader.take_eq_some h₁
  obtain ⟨-, rfl⟩ := Reader.take_eq_some h₂
  obtain ⟨-, rfl⟩ := Reader.take_eq_some h₃
  obtain ⟨-, rfl⟩ := Reader.take_eq_some h₄
  refine ⟨.inl ⟨rfl, rfl⟩, ?_⟩
  simp only [List.length_append]
  omega

theorem coins_rising (hA : Steady A) : Rising (coins A).1 := (coinsFrom_rising hA).1

theorem length_wholeGroups_coins_le (hA : Steady A) :
    (wholeGroups (coins A)).length ≤ A.bytes.length :=
  (length_wholeGroups_le _).trans (length_coinsFrom_le hA)

/-- The walk over the whole groups of two files. -/
def walk (A B : UsdReader) : Option (List Report) :=
  twoWay txidKey reportA reportB reportBoth (wholeGroups (coins A)) (coins A).2
    (wholeGroups (coins B)) (coins B).2

theorem usnapDiff_eq (ha : rdHeader a = some A) (hb : rdHeader b = some B) :
    usnapDiff a b = some (match walk A B with
      | none => -2
      | some reports => (headerDiffs A B + reports.length : Nat)) := by
  obtain ⟨hA, hlenA⟩ := rdHeader_steady ha
  obtain ⟨hB, hlenB⟩ := rdHeader_steady hb
  have hrounds : (wholeGroups (coins A)).length + (wholeGroups (coins B)).length <
      a.length + b.length + 1 := by
    have hgroupsA := length_wholeGroups_coins_le hA
    have hgroupsB := length_wholeGroups_coins_le hB
    omega
  have hstartA : Starts (coins A).2 (wholeGroups (coins A)) (rdGroup ⟨A, none⟩) :=
    rdGroup_starts (s := ⟨A, none⟩) hA
  have hstartB : Starts (coins B).2 (wholeGroups (coins B)) (rdGroup ⟨B, none⟩) :=
    rdGroup_starts (s := ⟨B, none⟩) hB
  have hloop : diffLoop (a.length + b.length + 1) (rdGroup ⟨A, none⟩) (rdGroup ⟨B, none⟩) [] =
      some ((walk A B).map ([] ++ ·)) :=
    diffLoop_eq hstartA hstartB (wholeGroups_spec (coins_rising hA)).2
      (wholeGroups_spec (coins_rising hB)).2 hrounds []
  unfold usnapDiff
  rw [ha, hb]
  dsimp only
  rw [hloop]
  cases walk A B <;> rfl

theorem noticed_iff (hA : Steady A) (hB : Steady B) :
    Noticed A B ↔
      BrokenOff txidKey (wholeGroups (coins A)) (coins A).2 (wholeGroups (coins B)) := by
  unfold Noticed BrokenOff Intact
  rw [Bool.not_eq_true]
  refine and_congr_right fun _ => exists_congr fun h => and_congr_right fun hh => ?_
  refine forall₂_congr fun g hg => memcmp_neg_iff ?_
  rw [(wholeGroups_spec (coins_rising hA)).2 g hg, (wholeGroups_spec (coins_rising hB)).2 h hh]

theorem usnapDiff_eq_broken_iff (ha : rdHeader a = some A) (hb : rdHeader b = some B) :
    usnapDiff a b = some (-2) ↔ Noticed A B ∨ Noticed B A := by
  have hA := (rdHeader_steady ha).1
  have hB := (rdHeader_steady hb).1
  have hnone : walk A B = none ↔ Noticed A B ∨ Noticed B A := by
    rw [noticed_iff hA hB, noticed_iff hB hA]
    exact twoWay_eq_none_iff (wholeGroups_spec (coins_rising hA)).1
      (wholeGroups_spec (coins_rising hB)).1
  rw [usnapDiff_eq ha hb, ← hnone]
  cases walk A B with
  | none => exact iff_of_true rfl rfl
  | some l =>
      refine iff_of_false (fun h => ?_) nofun
      have hneg : ((headerDiffs A B + l.length : Nat) : Int) = -2 := Option.some.inj h
      omega

theorem usnapDiff_of_intact (ha : rdHeader a = some A) (hb : rdHeader b = some B)
    (hIA : Intact A) (hIB : Intact B) (hndA : (outpoints (coins A).1).Nodup)
    (hndB : (outpoints (coins B).1).Nodup) :
    usnapDiff a b =
      some ((headerDiffs A B + (differing (coins A).1 (coins B).1).card : Nat) : Int) := by
  have hA := (rdHeader_steady ha).1
  have hB := (rdHeader_steady hb).1
  have hpairA : coins A = ((coins A).1, true) := Prod.ext rfl hIA
  have hpairB : coins B = ((coins B).1, true) := Prod.ext rfl hIB
  rw [usnapDiff_eq ha hb]
  cases hwalk : walk A B with
  | none =>
      have hbroken : usnapDiff a b = some (-2) := by
        rw [usnapDiff_eq ha hb, hwalk]
      rcases (usnapDiff_eq_broken_iff ha hb).mp hbroken with h | h
      · exact absurd hIA h.1
      · exact absurd hIB h.1
  | some l =>
      unfold walk at hwalk
      rw [hpairA, hpairB] at hwalk
      rw [← length_reports (coins_rising hA) (coins_rising hB) hndA hndB hwalk]

/-- A header that states a count, and nothing after it. -/
def bareHeader (count : UInt8) : List UInt8 :=
  [0x75, 0x74, 0x78, 0x6f, 0xff, 2, 0, 0xf9, 0xbe, 0xb4, 0xd9] ++ List.replicate 32 0 ++
    count :: List.replicate 7 0

def bareReader (count : UInt8) : UsdReader :=
  { bytes := [], base := List.replicate 32 0, count := count.toNat, readCoins := 0, txid := []
    ngroup := 0, igroup := 0, haveGroup := false, prevTxid := none }

end BitcoinMachineCode.Storage.Usnap
