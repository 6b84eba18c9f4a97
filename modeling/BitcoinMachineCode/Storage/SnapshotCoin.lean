import BitcoinMachineCode.Consensus.CurveField
import BitcoinMachineCode.Storage.SnapshotDiff

/-!
# One coin of a snapshot

`usnap_coin` of `utxo_snapshot.c` writes a coin and `rd_coin` of `daemon/utxo_snapshot_diff.c`
reads it with all its fields.  A coin is four variable-length codes one after the other: a
compact size, two varints whose continuation bytes borrow one, and a script in one of seven
kinds, of which two drop a coordinate of a point of the curve.
-/

namespace BitcoinMachineCode.Storage.Usnap

open Foundation Consensus

/-! ## Writing -/

def usCompact (v : Nat) : List UInt8 :=
  if v < 0xfd then [UInt8.ofNat v]
  else if v ≤ 0xffff then 0xfd :: leBytes 2 v
  else if v ≤ 0xffffffff then 0xfe :: leBytes 4 v
  else 0xff :: leBytes 8 v

/-- The groups already taken stand in `tmp`, the latest first; all but the first of them are
flagged. -/
def usVarintFrom : Nat → Nat → List UInt8 → List UInt8
  | 0, _, tmp => tmp
  | k + 1, n, tmp =>
      let tmp := UInt8.ofNat (n % 128 + if tmp = [] then 0 else 128) :: tmp
      if n ≤ 0x7f then tmp else usVarintFrom k (n / 128 - 1) tmp

def usVarint (n : Nat) : List UInt8 := usVarintFrom 10 n []

/-- Up to `k` decimal zeros are taken off and counted. -/
def stripZeros : Nat → Nat → Nat → Nat × Nat
  | 0, n, e => (n, e)
  | k + 1, n, e => if n % 10 = 0 then stripZeros k (n / 10) (e + 1) else (n, e)

def usnapCompressAmount (n : Nat) : Nat :=
  if n = 0 then 0
  else
    let (m, e) := stripZeros 9 n 0
    if e < 9 then (1 + (m / 10 * 9 + m % 10 - 1) * 10 + e) % 2 ^ 64
    else (1 + (m - 1) * 10 + 9) % 2 ^ 64

/-- The kind of a script and what is written of it. -/
def usnapScript (spk : List UInt8) : Nat × List UInt8 :=
  if spk.length = 25 ∧ spk.take 3 = [0x76, 0xa9, 0x14] ∧ spk.drop 23 = [0x88, 0xac] then
    (0, (spk.drop 3).take 20)
  else if spk.length = 23 ∧ spk.take 2 = [0xa9, 0x14] ∧ spk.drop 22 = [0x87] then
    (1, (spk.drop 2).take 20)
  else if spk.length = 35 ∧ (spk.take 2 = [33, 2] ∨ spk.take 2 = [33, 3]) ∧
      spk.drop 34 = [0xac] then
    ((spk.getD 1 0).toNat, (spk.drop 2).take 32)
  else if spk.length = 67 ∧ spk.take 2 = [65, 4] ∧ spk.drop 66 = [0xac] ∧
      pubkeyParse65 ((spk.drop 1).take 65) then
    (4 + (spk.getD 65 0).toNat % 2, (spk.drop 2).take 32)
  else (spk.length + 6, spk)

structure SnapCoin where
  vout : Nat
  height : Nat
  coinbase : Bool
  value : Nat
  spk : List UInt8
  deriving DecidableEq

def SnapCoin.code (c : SnapCoin) : Nat := c.height * 2 % 2 ^ 64 + if c.coinbase then 1 else 0

/-- The compressed script: its kind and its bytes. -/
def compressedSpk (spk : List UInt8) : List UInt8 :=
  usVarint (usnapScript spk).1 ++ (usnapScript spk).2

/-- None for -1. -/
def usnapCoin (c : SnapCoin) (cap : Nat) : Option (List UInt8) :=
  let buf := usCompact c.vout ++ usVarint c.code ++ usVarint (usnapCompressAmount c.value) ++
    compressedSpk c.spk
  if 6 ≤ (usnapScript c.spk).1 ∧ 10000 < c.spk.length then none
  else if cap < buf.length then none
  else some buf

/-! ## Reading -/

/-- The ten's power back on, in 64 bits. -/
def timesTen : Nat → Nat → Nat
  | 0, n => n
  | e + 1, n => timesTen e (n * 10 % 2 ^ 64)

def usdDecompressAmount (x : Nat) : Nat :=
  if x = 0 then 0
  else
    let e := (x - 1) % 10
    let y := (x - 1) / 10
    timesTen e (if e < 9 then (y / 9 * 10 + (y % 9 + 1)) % 2 ^ 64 else y + 1)

/-- `usd_coin` with all its fields. -/
structure FullCoin where
  vout : Nat
  height : Nat
  amount : Nat
  coinbase : Bool
  ser : List UInt8
  spk : List UInt8
  deriving DecidableEq

def rdCoinCodes : Reader UInt8 (Nat × Nat × Nat) :=
  rdCompact.bind fun vout =>
  rdVarint.bind fun code =>
  rdVarint.bind fun camt => .pure (vout, code, camt)

def rdFullBody : Reader UInt8 FullCoin :=
  rdCoinCodes.verbatim.bind fun head =>
  rdVarint.verbatim.bind fun kind rest =>
    if 10000 - 8 < scriptBody kind.1 ∨
        16 + 10000 < (head.2 ++ kind.2).length + scriptBody kind.1 then none
    else
      (Reader.take (scriptBody kind.1)).bind
        (fun body => .pure
          { vout := head.1.1, height := head.1.2.1 / 2, coinbase := decide (head.1.2.1 % 2 = 1)
            amount := usdDecompressAmount head.1.2.2
            ser := head.2 ++ kind.2 ++ body, spk := kind.2 ++ body }) rest

def fullGroupCoin (r : UsdReader) : Rd (FullCoin × UsdReader) :=
  match rdFullBody r.bytes with
  | none => .malformed
  | some (c, rest) =>
      .got (c, { r with bytes := rest, igroup := r.igroup + 1, readCoins := r.readCoins + 1 })

/-- `rd_coin`; `rdCoin` keeps of the coin what the comparison uses. -/
def rdFullCoin (r : UsdReader) : Rd (FullCoin × UsdReader) :=
  if r.haveGroup ∧ r.igroup < r.ngroup then fullGroupCoin r
  else if r.count ≤ r.readCoins then .ended
  else
    match startGroup r with
    | none => .malformed
    | some r => fullGroupCoin r

def FullCoin.brief (c : FullCoin) : UsdCoin := ⟨c.vout, c.ser⟩

def Rd.map {α β : Type} (f : α → β) : Rd α → Rd β
  | .got a => .got (f a)
  | .ended => .ended
  | .malformed => .malformed

theorem bind_of_takes {α γ : Type} {r : Reader UInt8 α} {f : α → Reader UInt8 γ} {used : List UInt8}
    {a : α} (h : r.Takes used a) (rest : List UInt8) : r.bind f (used ++ rest) = f a rest := by
  rw [Reader.bind, h]
  rfl

theorem rdCoinHead_eq (bs : List UInt8) :
    rdCoinHead bs =
      (rdCoinCodes bs).bind fun p => (rdVarint p.2).map fun q => ((p.1.1, q.1), q.2) := by
  simp only [rdCoinHead, rdCoinCodes, Reader.bind, Reader.pure]
  cases rdCompact bs with
  | none => rfl
  | some v =>
      cases hcode : rdVarint v.2 with
      | none => simp [hcode]
      | some code =>
          cases hamt : rdVarint code.2 with
          | none => simp [hcode, hamt]
          | some amt => simp [hcode, hamt, Option.map_eq_bind]

theorem settled_rdCoinCodes : rdCoinCodes.Settled :=
  (settled_readVarint ..).bind fun _ => (settled_rdVarintFrom ..).bind fun _ =>
    (settled_rdVarintFrom ..).bind fun _ => Reader.settled_pure _

/-- The comparison reads the same coins, less the fields it does not use. -/
theorem rdCoinBody_eq (bs : List UInt8) :
    rdCoinBody bs = (rdFullBody bs).map fun p => (p.1.brief, p.2) := by
  have hhead := rdCoinHead_eq bs
  cases hcodes : rdCoinCodes bs with
  | none => simp [rdCoinBody, rdFullBody, Reader.bind, Reader.verbatim, hhead, hcodes]
  | some p =>
      obtain ⟨⟨vout, code, camt⟩, mid⟩ := p
      obtain ⟨used, rfl, htakes⟩ := settled_rdCoinCodes hcodes
      cases hkind : rdVarint mid with
      | none =>
          simp [rdCoinBody, rdFullBody, Reader.bind, Reader.verbatim, hhead, hcodes, hkind]
      | some q =>
          obtain ⟨kind, rest⟩ := q
          obtain ⟨used', rfl, htakes'⟩ := settled_rdVarintFrom 10 0 hkind
          have hboth : rdCoinHead.Takes (used ++ used') (vout, kind) := by
            intro tail
            rw [rdCoinHead_eq, List.append_assoc, htakes, Option.bind_some]
            exact congrArg _ (htakes' tail)
          have hfull : rdFullBody (used ++ (used' ++ rest)) = _ :=
            (bind_of_takes htakes.verbatim _).trans (bind_of_takes (Reader.Takes.verbatim htakes') _)
          have hbrief : rdCoinBody (used ++ used' ++ rest) = _ := bind_of_takes hboth.verbatim _
          rw [hfull, ← List.append_assoc, hbrief]
          dsimp only
          split
          · rfl
          · simp only [Reader.bind, Reader.pure, Reader.take]
            split <;> rfl

theorem rdCoin_eq (r : UsdReader) : rdCoin r = (rdFullCoin r).map fun p => (p.1.brief, p.2) := by
  have hgroup : ∀ r, groupCoin r = (fullGroupCoin r).map fun p => (p.1.brief, p.2) := by
    intro r
    rw [groupCoin, fullGroupCoin, rdCoinBody_eq]
    cases rdFullBody r.bytes <;> rfl
  unfold rdCoin rdFullCoin
  split
  · exact hgroup r
  split
  · rfl
  · cases startGroup r with
    | none => rfl
    | some r => exact hgroup r

/-! ## The codes read back -/

theorem varintWidth_fd : varintWidth 0xfd = (2, 0xfd) := by decide

theorem varintWidth_fe : varintWidth 0xfe = (4, 0x10000) := by decide

theorem takes_usCompact {v : Nat} (hv : v < 2 ^ 32) : rdCompact.Takes (usCompact v) v := by
  unfold usCompact
  split
  · next hsmall =>
      have hb : (UInt8.ofNat v).toNat = v := by simp; omega
      have h := @takes_varint_small false false (UInt8.ofNat v) (by rw [UInt8.lt_iff_toNat_lt, hb]; exact hsmall)
      rwa [hb] at h
  · split
    · next hmid =>
        have h := @takes_varint_wide false false 0xfd (leBytes 2 v) (by decide)
          (by rw [varintWidth_fd, length_leBytes]) (by simp) (by simp)
        rwa [leVal_leBytes, Nat.mod_eq_of_lt (by norm_num; omega)] at h
    · rw [if_pos (by omega)]
      have h := @takes_varint_wide false false 0xfe (leBytes 4 v) (by decide)
        (by rw [varintWidth_fe, length_leBytes]) (by simp) (by simp)
      rwa [leVal_leBytes, Nat.mod_eq_of_lt (by norm_num; omega)] at h

theorem length_usCompact_le {v : Nat} (hv : v < 2 ^ 32) : (usCompact v).length ≤ 5 := by
  unfold usCompact
  split
  · simp
  split
  · simp
  · rw [if_pos (by omega)]
    simp

/-- Each group takes seven bits off, so that a value of `k` groups has `k` bytes at most. -/
theorem length_usVarintFrom_le {j k n : Nat} (tmp : List UInt8) (hj : n < 128 ^ j) (hpos : 0 < j) :
    (usVarintFrom k n tmp).length ≤ tmp.length + j := by
  induction k generalizing n j tmp with
  | zero => simp [usVarintFrom]
  | succ k ih =>
      rw [usVarintFrom]
      split
      · simp
        omega
      · next hbig =>
          obtain ⟨i, rfl⟩ : ∃ i, j = i + 1 := ⟨j - 1, by omega⟩
          have hi : 0 < i := by
            by_contra hzero
            obtain rfl : i = 0 := by omega
            omega
          have hlt : n / 128 < 128 ^ i := by
            rw [Nat.div_lt_iff_lt_mul (by decide)]
            rwa [pow_succ] at hj
          have := @ih i (n / 128 - 1) (UInt8.ofNat (n % 128 + if tmp = [] then 0 else 128) :: tmp)
            (by omega) hi
          simp only [List.length_cons] at this
          omega

theorem toNat_group (n : Nat) : (UInt8.ofNat (n % 128 + 128)).toNat = n % 128 + 128 := by
  simp
  omega

/-- The flagged groups of `n` give `n + 1` to what follows them. -/
theorem rdVarintFrom_groups {k n : Nat} {tmp : List UInt8} (htmp : tmp ≠ [])
    (hk : n < 128 ^ (k + 1)) (hn : n + 1 < 2 ^ 64) :
    ∃ used, usVarintFrom (k + 1) n tmp = used ++ tmp ∧ ∀ more rest,
      rdVarintFrom (more + used.length) 0 (used ++ rest) = rdVarintFrom more (n + 1) rest := by
  induction k generalizing n tmp with
  | zero =>
      have hsmall : n ≤ 0x7f := by omega
      refine ⟨[UInt8.ofNat (n % 128 + 128)], ?_, ?_⟩
      · rw [usVarintFrom, if_neg htmp, if_pos hsmall]
        rfl
      · intro more rest
        have hval : n % 128 = n := Nat.mod_eq_of_lt (by omega)
        rw [List.singleton_append, List.length_singleton, rdVarintFrom, toNat_group, if_pos (by omega)]
        congr 1
        omega
  | succ k ih =>
      rw [usVarintFrom, if_neg htmp]
      split
      · next hsmall =>
          refine ⟨[UInt8.ofNat (n % 128 + 128)], rfl, ?_⟩
          intro more rest
          have hval : n % 128 = n := Nat.mod_eq_of_lt (by omega)
          rw [List.singleton_append, List.length_singleton, rdVarintFrom, toNat_group, if_pos (by omega)]
          congr 1
          omega
      · next hbig =>
          have hlt : n / 128 < 128 ^ (k + 1) := by
            rw [Nat.div_lt_iff_lt_mul (by decide)]
            rwa [pow_succ] at hk
          obtain ⟨used, hused, hread⟩ := @ih (n / 128 - 1) (UInt8.ofNat (n % 128 + 128) :: tmp)
            (by simp) (by omega) (by omega)
          refine ⟨used ++ [UInt8.ofNat (n % 128 + 128)], by simpa using hused, ?_⟩
          intro more rest
          have hlen : more + (used ++ [UInt8.ofNat (n % 128 + 128)]).length = more + 1 + used.length := by
            simp
            omega
          rw [hlen, List.append_assoc, hread, List.singleton_append, rdVarintFrom, toNat_group, if_pos (by omega)]
          congr 1
          omega

theorem takes_usVarint {n : Nat} (hn : n < 2 ^ 64) : rdVarint.Takes (usVarint n) n := by
  intro rest
  by_cases hsmall : n ≤ 0x7f
  · have hval : n % 128 = n := Nat.mod_eq_of_lt (by omega)
    have hb : (UInt8.ofNat (n % 128)).toNat = n := by
      simp
      omega
    have henc : usVarint n = [UInt8.ofNat (n % 128)] := by
      rw [usVarint, usVarintFrom, if_pos rfl, if_pos hsmall]
      rfl
    rw [henc, List.singleton_append, rdVarint, rdVarintFrom, hb, if_neg (by omega)]
    simp [hval]
  · have hb : (UInt8.ofNat (n % 128)).toNat = n % 128 := by
      simp
      omega
    have hlt : n / 128 - 1 < 128 ^ (8 + 1) := by norm_num; omega
    have hstep : usVarint n = usVarintFrom (8 + 1) (n / 128 - 1) [UInt8.ofNat (n % 128)] := by
      rw [usVarint, usVarintFrom, if_pos rfl, if_neg hsmall]
      rfl
    obtain ⟨used, hused, hread⟩ := @rdVarintFrom_groups 8 (n / 128 - 1) [UInt8.ofNat (n % 128)]
      (by simp) hlt (by omega)
    have hlen : used.length ≤ 9 := by
      have := @length_usVarintFrom_le 9 (8 + 1) (n / 128 - 1) [UInt8.ofNat (n % 128)] hlt (by decide)
      rw [hused] at this
      simp only [List.length_append] at this
      omega
    obtain ⟨more, hmore⟩ : ∃ more, 10 = more + 1 + used.length := ⟨9 - used.length, by omega⟩
    rw [hstep, hused, List.append_assoc, rdVarint, hmore, hread, List.singleton_append, rdVarintFrom, hb,
      if_neg (by omega)]
    congr 2
    omega

theorem length_usVarint_le {n j : Nat} (hn : n < 128 ^ j) (hj : 0 < j) : (usVarint n).length ≤ j := by
  simpa [usVarint] using @length_usVarintFrom_le j 10 n [] hn hj

/-! ## Amounts -/

theorem stripZeros_spec (k n e : Nat) :
    (stripZeros k n e).1 * 10 ^ ((stripZeros k n e).2 - e) = n ∧ e ≤ (stripZeros k n e).2 ∧
      (stripZeros k n e).2 ≤ e + k ∧
        ((stripZeros k n e).2 < e + k → (stripZeros k n e).1 % 10 ≠ 0) := by
  fun_induction stripZeros k n e with
  | case1 n e => simp
  | case2 k n e hzero ih =>
      obtain ⟨hval, hlow, hhigh, hdigit⟩ := ih
      refine ⟨?_, by omega, by omega, fun h => hdigit (by omega)⟩
      have hpow : (stripZeros k (n / 10) (e + 1)).2 - e =
          (stripZeros k (n / 10) (e + 1)).2 - (e + 1) + 1 := by omega
      rw [hpow, pow_succ, ← mul_assoc, hval]
      omega
  | case3 k n e hdigit => simp [hdigit]

theorem timesTen_eq {e n : Nat} (h : n * 10 ^ e < 2 ^ 64) : timesTen e n = n * 10 ^ e := by
  induction e generalizing n with
  | zero => simp [timesTen]
  | succ e ih =>
      have hmul : n * 10 * 10 ^ e = n * 10 ^ (e + 1) := by rw [pow_succ]; ring
      have hle : n * 10 ≤ n * 10 * 10 ^ e := Nat.le_mul_of_pos_right _ (by positivity)
      rw [timesTen, Nat.mod_eq_of_lt (by omega), ih (by omega), hmul]

/-- All the money there can be. -/
def maxMoney : Nat := 2100000000000000

theorem usnapCompressAmount_spec {n : Nat} (hn : n ≤ maxMoney) :
    usnapCompressAmount n < 2 ^ 56 ∧ usdDecompressAmount (usnapCompressAmount n) = n := by
  unfold maxMoney at hn
  by_cases hzero : n = 0
  · subst hzero
    decide
  obtain ⟨hval, -, hhigh, hdigit⟩ := stripZeros_spec 9 n 0
  rw [usnapCompressAmount, if_neg hzero]
  generalize stripZeros 9 n 0 = p at *
  obtain ⟨m, e⟩ := p
  simp only [Nat.sub_zero, Nat.zero_add] at hval hhigh hdigit
  have hm : m ≤ n := by
    rw [← hval]
    exact Nat.le_mul_of_pos_right _ (by positivity)
  have hmpos : 0 < m := by
    rcases Nat.eq_zero_or_pos m with rfl | h
    · omega
    · exact h
  dsimp only
  split
  · next he =>
      have hd := hdigit he
      rw [Nat.mod_eq_of_lt (by omega)]
      refine ⟨by omega, ?_⟩
      have he' : (1 + (m / 10 * 9 + m % 10 - 1) * 10 + e - 1) % 10 = e := by omega
      have hy : (1 + (m / 10 * 9 + m % 10 - 1) * 10 + e - 1) / 10 = m / 10 * 9 + m % 10 - 1 := by omega
      have hq : (m / 10 * 9 + m % 10 - 1) / 9 = m / 10 := by omega
      have hr : (m / 10 * 9 + m % 10 - 1) % 9 + 1 = m % 10 := by omega
      rw [usdDecompressAmount, if_neg (by omega)]
      dsimp only
      rw [he', hy, hq, hr, if_pos he, Nat.mod_eq_of_lt (by omega), show m / 10 * 10 + m % 10 = m by omega,
        timesTen_eq (by omega), hval]
  · next he =>
      obtain rfl : e = 9 := by omega
      rw [Nat.mod_eq_of_lt (by omega)]
      refine ⟨by omega, ?_⟩
      have he' : (1 + (m - 1) * 10 + 9 - 1) % 10 = 9 := by omega
      have hy : (1 + (m - 1) * 10 + 9 - 1) / 10 = m - 1 := by omega
      rw [usdDecompressAmount, if_neg (by omega)]
      dsimp only
      rw [he', hy, if_neg (by decide), show m - 1 + 1 = m by omega, timesTen_eq (by omega), hval]

/-! ## Scripts -/

/-- The script a kind and its bytes came from. -/
inductive Compressed : List UInt8 → Nat × List UInt8 → Prop where
  | p2pkh {h : List UInt8} (hlen : h.length = 20) :
      Compressed ([0x76, 0xa9, 0x14] ++ h ++ [0x88, 0xac]) (0, h)
  | p2sh {h : List UInt8} (hlen : h.length = 20) : Compressed ([0xa9, 0x14] ++ h ++ [0x87]) (1, h)
  | even {x : List UInt8} (hlen : x.length = 32) : Compressed ([33, 2] ++ x ++ [0xac]) (2, x)
  | odd {x : List UInt8} (hlen : x.length = 32) : Compressed ([33, 3] ++ x ++ [0xac]) (3, x)
  | point {x y : List UInt8} (hx : x.length = 32) (hy : y.length = 32) (hylt : beVal y < fieldP)
      (hcurve : onCurve (beVal x) (beVal y) = true) :
      Compressed ([65, 4] ++ x ++ y ++ [0xac]) (4 + beVal y % 2, x)
  | raw (spk : List UInt8) : Compressed spk (spk.length + 6, spk)

theorem exists_middle {spk : List UInt8} (front back : List UInt8) (k n : Nat)
    (hlen : spk.length = k + n + back.length) (hfront : spk.take k = front)
    (hback : spk.drop (k + n) = back) :
    ∃ mid, mid.length = n ∧ spk = front ++ mid ++ back ∧ (spk.drop k).take n = mid := by
  refine ⟨(spk.drop k).take n, by simp; omega, ?_, rfl⟩
  calc spk = spk.take k ++ spk.drop k := (List.take_append_drop _ _).symm
    _ = front ++ ((spk.drop k).take n ++ (spk.drop k).drop n) := by
        rw [hfront, List.take_append_drop]
    _ = _ := by rw [List.drop_drop, hback, List.append_assoc]

theorem getD_last (x : List UInt8) {n : Nat} (hn : x.length = n + 1) :
    (x.getD n 0).toNat % 2 = beVal x % 2 := by
  obtain ⟨init, last, rfl⟩ : ∃ init last, x = init ++ [last] :=
    ⟨x.dropLast, x.getLast (by rintro rfl; simp at hn), (List.dropLast_append_getLast _).symm⟩
  obtain rfl : init.length = n := by simpa using hn
  rw [beVal_append]
  simp
  omega

theorem compressed_usnapScript (spk : List UInt8) : Compressed spk (usnapScript spk) := by
  unfold usnapScript
  split
  · next h =>
      obtain ⟨hlen, hfront, hback⟩ := h
      obtain ⟨m, hm, hspk, hmid⟩ := exists_middle [0x76, 0xa9, 0x14] [0x88, 0xac] 3 20 hlen hfront hback
      rw [hmid, hspk]
      exact .p2pkh hm
  split
  · next h =>
      obtain ⟨hlen, hfront, hback⟩ := h
      obtain ⟨m, hm, hspk, hmid⟩ := exists_middle [0xa9, 0x14] [0x87] 2 20 hlen hfront hback
      rw [hmid, hspk]
      exact .p2sh hm
  split
  · next h =>
      obtain ⟨hlen, hfront | hfront, hback⟩ := h
      · obtain ⟨m, hm, hspk, hmid⟩ := exists_middle [33, 2] [0xac] 2 32 hlen hfront hback
        rw [hmid, hspk]
        exact .even hm
      · obtain ⟨m, hm, hspk, hmid⟩ := exists_middle [33, 3] [0xac] 2 32 hlen hfront hback
        rw [hmid, hspk]
        exact .odd hm
  split
  · next h =>
      obtain ⟨hlen, hfront, hback, hvalid⟩ := h
      obtain ⟨m, hm, hspk, -⟩ := exists_middle [65, 4] [0xac] 2 64 hlen hfront hback
      have hx : (m.take 32).length = 32 := by simp [hm]
      have hy : (m.drop 32).length = 32 := by simp [hm]
      have hxy : m = m.take 32 ++ m.drop 32 := (List.take_append_drop 32 m).symm
      generalize m.take 32 = x at *
      generalize m.drop 32 = y at *
      subst hxy hspk
      have hbody : (([65, 4] ++ (x ++ y) ++ [0xac] : List UInt8).drop 2).take 32 = x := by
        simp [hx]
      have hlast : ([65, 4] ++ (x ++ y) ++ [0xac] : List UInt8).getD 65 0 = y.getD 31 0 := by
        simp [List.getD_eq_getElem?_getD, hx, hy]
      have hpub : (([65, 4] ++ (x ++ y) ++ [0xac] : List UInt8).drop 1).take 65 = 4 :: (x ++ y) := by
        simp [List.take_append, hx, hy]
      rw [hbody, hlast, getD_last y hy]
      rw [hpub] at hvalid
      have htake : y.take 32 = y := List.take_of_length_le hy.le
      simp [pubkeyParse65, List.drop_append, hx, htake] at hvalid
      have := @Compressed.point x y hx hy hvalid.1.2 hvalid.2
      simpa using this
  · exact .raw spk

theorem Compressed.unique {spk spk' : List UInt8} {p p' : Nat × List UInt8} (h : Compressed spk p)
    (h' : Compressed spk' p') (hp : p = p') : spk = spk' := by
  cases h <;> cases h' <;> simp only [Prod.mk.injEq] at hp <;> obtain ⟨hkind, hbody⟩ := hp <;>
    first
      | omega
      | rw [hbody]
  next x y hx hy hylt hcurve x' y' hx' hy' hylt' hcurve' =>
    subst hbody
    have hval := onCurve_unique hylt hylt' hcurve hcurve' (by omega)
    rw [beVal_inj (hy.trans hy'.symm) hval]

theorem Compressed.scriptBody_eq {spk : List UInt8} {p : Nat × List UInt8} (h : Compressed spk p) :
    scriptBody p.1 = p.2.length := by
  cases h with
  | p2pkh hlen => simp [scriptBody, hlen]
  | p2sh hlen => simp [scriptBody, hlen]
  | even hlen => simp [scriptBody, hlen]
  | odd hlen => simp [scriptBody, hlen]
  | @point x y hx _ _ _ =>
      have h1 : ¬ (4 + beVal y % 2 = 0 ∨ 4 + beVal y % 2 = 1) := by omega
      have h2 : 4 + beVal y % 2 ≤ 5 := by omega
      simp only [scriptBody, if_neg h1, if_pos h2, hx]
  | raw spk => simp [scriptBody]

/-- A script that is not written as it stands is short. -/
theorem Compressed.raw_or_short {spk : List UInt8} {p : Nat × List UInt8} (h : Compressed spk p) :
    p = (spk.length + 6, spk) ∨ (spk.length ≤ 67 ∧ p.2.length ≤ 32 ∧ p.1 ≤ 5) := by
  cases h with
  | raw spk => exact .inl rfl
  | p2pkh hlen => exact .inr (by simp [hlen])
  | p2sh hlen => exact .inr (by simp [hlen])
  | even hlen => exact .inr (by simp [hlen])
  | odd hlen => exact .inr (by simp [hlen])
  | point hx hy => exact .inr ⟨by simp [hx, hy], by simp [hx], by simp; omega⟩

/-! ## Coins -/

/-- What the encoder is given: an output number, a height and an amount in range and a script
of at most 10000 bytes. -/
structure SnapCoin.Valid (c : SnapCoin) : Prop where
  vout_lt : c.vout < 2 ^ 32
  height_lt : c.height < 2 ^ 31
  value_le : c.value ≤ maxMoney
  spk_le : c.spk.length ≤ 10000

def SnapCoin.full (c : SnapCoin) (enc : List UInt8) : FullCoin :=
  { vout := c.vout, height := c.height, amount := c.value, coinbase := c.coinbase, ser := enc
    spk := compressedSpk c.spk }

/-- The reader `r'` stands at a coin of the group, which `rd_coin` may have to open first. -/
def AtCoin (r r' : UsdReader) : Prop :=
  (r.haveGroup = true ∧ r.igroup < r.ngroup ∧ r' = r) ∨
    (¬ (r.haveGroup = true ∧ r.igroup < r.ngroup) ∧ r.readCoins < r.count ∧ startGroup r = some r')

/-- The encoding is read back whole, whatever follows, and is no other coin's. -/
def CoinAsClaimed (c : SnapCoin) (enc : List UInt8) : Prop :=
  (∀ r r' rest, AtCoin r r' → r'.bytes = enc ++ rest →
    rdFullCoin r = .got (c.full enc,
      { r' with bytes := rest, igroup := r'.igroup + 1, readCoins := r'.readCoins + 1 })) ∧
    ∀ c' cap', SnapCoin.Valid c' → usnapCoin c' cap' = some enc → c' = c

theorem rdFullCoin_of_atCoin {r r' : UsdReader} (h : AtCoin r r') : rdFullCoin r = fullGroupCoin r' := by
  rcases h with ⟨hhave, hmore, rfl⟩ | ⟨hno, hcount, hstart⟩
  · rw [rdFullCoin, if_pos ⟨hhave, hmore⟩]
  · rw [rdFullCoin, if_neg hno, if_neg (by omega), hstart]

theorem usnapCoin_eq_some {c : SnapCoin} {cap : Nat} {enc : List UInt8} (h : usnapCoin c cap = some enc) :
    enc = (usCompact c.vout ++ (usVarint c.code ++ (usVarint (usnapCompressAmount c.value) ++ []))) ++
      (usVarint (usnapScript c.spk).1 ++ (usnapScript c.spk).2) := by
  simp only [usnapCoin] at h
  split at h
  · cases h
  split at h
  · cases h
  · simp only [Option.some.injEq] at h
    simp [← h, compressedSpk]

section Valid

variable {c : SnapCoin} (hc : c.Valid)
include hc

theorem SnapCoin.Valid.code_lt : c.code < 2 ^ 32 := by
  have := hc.height_lt
  unfold SnapCoin.code
  split <;> omega

theorem SnapCoin.Valid.code_half : c.code / 2 = c.height := by
  have := hc.height_lt
  unfold SnapCoin.code
  split <;> omega

theorem SnapCoin.Valid.code_odd : decide (c.code % 2 = 1) = c.coinbase := by
  have := hc.height_lt
  cases hcb : c.coinbase
  · have : c.code % 2 = 0 := by
      simp only [SnapCoin.code, hcb]
      simp
    simp [this]
  · have : c.code % 2 = 1 := by
      simp only [SnapCoin.code, hcb]
      simp
      omega
    simp [this]

theorem SnapCoin.Valid.kind_le : (usnapScript c.spk).1 ≤ 10006 := by
  have := hc.spk_le
  rcases (compressed_usnapScript c.spk).raw_or_short with hraw | hshort
  · simp only [hraw]
    omega
  · omega

/-- The three numbers of a valid coin are read back. -/
theorem SnapCoin.Valid.takes_codes :
    rdCoinCodes.Takes
      (usCompact c.vout ++ (usVarint c.code ++ (usVarint (usnapCompressAmount c.value) ++ [])))
      (c.vout, c.code, usnapCompressAmount c.value) := by
  have hcode := hc.code_lt
  have hamount := (usnapCompressAmount_spec hc.value_le).1
  apply (takes_usCompact hc.vout_lt).bind
  apply (takes_usVarint (by omega)).bind
  apply (takes_usVarint (by omega)).bind
  exact Reader.takes_pure _

theorem SnapCoin.Valid.takes_kind :
    rdVarint.Takes (usVarint (usnapScript c.spk).1) (usnapScript c.spk).1 := by
  have := hc.kind_le
  exact takes_usVarint (by omega)

theorem SnapCoin.Valid.length_heads :
    (usCompact c.vout ++ (usVarint c.code ++ (usVarint (usnapCompressAmount c.value) ++ [])) ++
      usVarint (usnapScript c.spk).1).length ≤ 20 := by
  have h1 := length_usCompact_le hc.vout_lt
  have h2 := @length_usVarint_le c.code 5 (by have := hc.code_lt; norm_num; omega) (by decide)
  have h3 := @length_usVarint_le (usnapCompressAmount c.value) 8
    (by have := (usnapCompressAmount_spec hc.value_le).1; norm_num at this ⊢; omega) (by decide)
  have h4 := @length_usVarint_le (usnapScript c.spk).1 2
    (by have := hc.kind_le; norm_num; omega) (by decide)
  simp only [List.length_append, List.length_nil]
  omega

/-- What the reader does with the encoding of a valid coin: only the script's size can stop
it. -/
theorem SnapCoin.Valid.rdFullBody_eq (rest : List UInt8) {cap : Nat} {enc : List UInt8}
    (henc : usnapCoin c cap = some enc) :
    rdFullBody (enc ++ rest) =
      if 9992 < (usnapScript c.spk).2.length then none else some (c.full enc, rest) := by
  have hbody := (compressed_usnapScript c.spk).scriptBody_eq
  have hheads := hc.length_heads
  have hsplit := usnapCoin_eq_some henc
  have hbytes : enc ++ rest =
      (usCompact c.vout ++ (usVarint c.code ++ (usVarint (usnapCompressAmount c.value) ++ []))) ++
        (usVarint (usnapScript c.spk).1 ++ ((usnapScript c.spk).2 ++ rest)) := by
    simp [hsplit]
  rw [hbytes, rdFullBody]
  apply (bind_of_takes hc.takes_codes.verbatim _).trans
  apply (bind_of_takes hc.takes_kind.verbatim _).trans
  rw [hbody]
  by_cases hlong : 9992 < (usnapScript c.spk).2.length
  · rw [if_pos (.inl hlong), if_pos hlong]
  · have hfits : ¬ (10000 - 8 < (usnapScript c.spk).2.length ∨ 16 + 10000 <
        (usCompact c.vout ++ (usVarint c.code ++ (usVarint (usnapCompressAmount c.value) ++ [])) ++
          usVarint (usnapScript c.spk).1).length + (usnapScript c.spk).2.length) := by omega
    rw [if_neg hfits, if_neg hlong]
    apply (bind_of_takes (Reader.takes_take rfl) _).trans
    simp only [Reader.pure, hc.code_half, hc.code_odd, (usnapCompressAmount_spec hc.value_le).2,
      SnapCoin.full, compressedSpk, hsplit, List.append_assoc]

theorem SnapCoin.Valid.unique {c' : SnapCoin} (hc' : c'.Valid) {cap cap' : Nat} {enc : List UInt8}
    (henc : usnapCoin c cap = some enc) (henc' : usnapCoin c' cap' = some enc) : c' = c := by
  have hsplit := usnapCoin_eq_some henc
  have hsplit' := usnapCoin_eq_some henc'
  -- both coins' numbers are read off the same bytes
  have hcodes := hc.takes_codes (usVarint (usnapScript c.spk).1 ++ (usnapScript c.spk).2)
  have hcodes' := hc'.takes_codes (usVarint (usnapScript c'.spk).1 ++ (usnapScript c'.spk).2)
  rw [← hsplit] at hcodes
  rw [← hsplit', hcodes] at hcodes'
  simp only [Option.some.injEq, Prod.mk.injEq] at hcodes'
  obtain ⟨⟨hvout, hcode, hamount⟩, htail⟩ := hcodes'
  have hkind := hc.takes_kind (usnapScript c.spk).2
  have hkind' := hc'.takes_kind (usnapScript c'.spk).2
  rw [← htail, hkind] at hkind'
  simp only [Option.some.injEq, Prod.mk.injEq] at hkind'
  have hspk : c'.spk = c.spk :=
    (compressed_usnapScript c'.spk).unique (compressed_usnapScript c.spk)
      (Prod.ext hkind'.1.symm hkind'.2.symm)
  have hheight : c'.height = c.height := by rw [← hc'.code_half, ← hcode, hc.code_half]
  have hcoinbase : c'.coinbase = c.coinbase := by rw [← hc'.code_odd, ← hcode, hc.code_odd]
  have hvalue : c'.value = c.value := by
    rw [← (usnapCompressAmount_spec hc'.value_le).2, ← hamount,
      (usnapCompressAmount_spec hc.value_le).2]
  cases c
  cases c'
  simp_all

end Valid

/-- A reader in the middle of a group. -/
def atGroup (bytes : List UInt8) : UsdReader :=
  { bytes := bytes, base := [], count := 1, readCoins := 0, txid := [], ngroup := 1, igroup := 0
    haveGroup := true, prevTxid := none }

theorem fullGroupCoin_too_long {c : SnapCoin} (hc : c.Valid) {cap : Nat} {enc : List UInt8}
    (henc : usnapCoin c cap = some enc) (hlong : 9992 < c.spk.length) {r : UsdReader}
    (rest : List UInt8) (hbytes : r.bytes = enc ++ rest) : fullGroupCoin r = .malformed := by
  have hbody : 9992 < (usnapScript c.spk).2.length := by
    rcases (compressed_usnapScript c.spk).raw_or_short with hraw | h
    · rwa [hraw]
    · omega
  rw [fullGroupCoin, hbytes, hc.rdFullBody_eq rest henc, if_pos hbody]

/-- The reader's buffer for the script is eight bytes short of the longest script: a coin is
read back exactly when its script has at most 9992 bytes. -/
theorem usnapCoin_as_claimed_iff {c : SnapCoin} (hc : c.Valid) {cap : Nat} {enc : List UInt8}
    (henc : usnapCoin c cap = some enc) : CoinAsClaimed c enc ↔ c.spk.length ≤ 9992 := by
  have hshape := (compressed_usnapScript c.spk).raw_or_short
  constructor
  · rintro ⟨hreads, -⟩
    by_contra hlong
    have hat : AtCoin (atGroup enc) (atGroup enc) := .inl ⟨rfl, Nat.zero_lt_one, rfl⟩
    have hgot := hreads _ _ [] hat (List.append_nil enc).symm
    rw [rdFullCoin_of_atCoin hat, fullGroupCoin_too_long hc henc (by omega) []] at hgot
    · cases hgot
    · simp [atGroup]
  · intro hshort
    refine ⟨?_, fun c' cap' hc' henc' => hc.unique hc' henc henc'⟩
    intro r r' rest hat hbytes
    have hbody : ¬ 9992 < (usnapScript c.spk).2.length := by
      rcases hshape with hraw | h
      · rw [hraw]
        exact hshort.not_gt
      · omega
    rw [rdFullCoin_of_atCoin hat, fullGroupCoin, hbytes, hc.rdFullBody_eq rest henc, if_neg hbody]

theorem usnapCoin_as_claimed_empty_script :
    CoinAsClaimed ⟨7, 300, true, 5000000000, []⟩ [7, 131, 89, 50, 6] ↔ ([] : List UInt8).length ≤ 9992 :=
  usnapCoin_as_claimed_iff ⟨by decide, by decide, by decide, by decide⟩
    (show usnapCoin ⟨7, 300, true, 5000000000, []⟩ 100 = some [7, 131, 89, 50, 6] by decide)

/-- A script of 9993 bytes, which the encoder takes and the reader refuses. -/
def longScriptCoin : SnapCoin := ⟨0, 0, false, 0, List.replicate 9993 0⟩

theorem usnapScript_long (n : Nat) (hn : 67 < n) :
    usnapScript (List.replicate n 0) = (n + 6, List.replicate n 0) := by
  rcases (compressed_usnapScript (List.replicate n 0)).raw_or_short with hraw | hshort
  · simpa using hraw
  · simp at hshort
    omega

theorem not_coinAsClaimed_long_script :
    ∃ enc, longScriptCoin.Valid ∧ usnapCoin longScriptCoin 20000 = some enc ∧
      rdFullCoin (atGroup enc) = .malformed ∧ ¬ CoinAsClaimed longScriptCoin enc := by
  have hscript : usnapScript longScriptCoin.spk = (9999, longScriptCoin.spk) :=
    usnapScript_long 9993 (by decide)
  have hlen : longScriptCoin.spk.length = 9993 := List.length_replicate
  have hvalid : longScriptCoin.Valid := ⟨by decide, by decide, by decide, by omega⟩
  have hheads := hvalid.length_heads
  have henc : ∃ enc, usnapCoin longScriptCoin 20000 = some enc := by
    simp only [usnapCoin, compressedSpk, hscript]
    rw [if_neg (by omega), if_neg (by
      simp only [hscript, List.length_append, List.length_nil] at hheads ⊢
      omega)]
    exact ⟨_, rfl⟩
  obtain ⟨enc, henc⟩ := henc
  have hat : AtCoin (atGroup enc) (atGroup enc) := .inl ⟨rfl, Nat.zero_lt_one, rfl⟩
  have hmalformed : rdFullCoin (atGroup enc) = .malformed := by
    rw [rdFullCoin_of_atCoin hat]
    exact fullGroupCoin_too_long hvalid henc (by omega) [] (List.append_nil enc).symm
  refine ⟨enc, hvalid, henc, hmalformed, ?_⟩
  rintro ⟨hreads, -⟩
  have hgot := hreads _ _ [] hat (List.append_nil enc).symm
  rw [hmalformed] at hgot
  cases hgot

end BitcoinMachineCode.Storage.Usnap
