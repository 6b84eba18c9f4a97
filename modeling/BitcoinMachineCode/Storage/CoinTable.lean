import BitcoinMachineCode.Foundation.BackShift
import BitcoinMachineCode.Foundation.FileBytes
import BitcoinMachineCode.Storage.Coins

/-!
# The open-addressed coin table

`bitcoin_utxo.asm` keeps outpoints in slots and their records in a script area that is only
ever filled up.  `utxo_put` writes the slot before it looks whether the record fits, and
`utxo_del` finds the number of the slot it opens with a 32-bit division.
-/

namespace BitcoinMachineCode.Storage.CoinTable

open BitcoinMachineCode.Foundation

/-! ## The table -/

structure CoinRecord where
  value : UInt64
  height : UInt32
  isCoinbase : UInt8
  script : List UInt8
  deriving DecidableEq, Repr

structure Slot where
  blobOff : Nat
  txid : Txid
  index : UInt32
  deriving DecidableEq

def Slot.key (s : Slot) : Outpoint := ⟨s.txid, s.index⟩

/-- Marks a slot without an entry. -/
def emptyIndex : UInt32 := 0xFFFFFFFF

def utxoHash (o : Outpoint) : UInt64 :=
  ((UInt64.ofNat (leVal (o.txid.bytes.take 8)) ^^^ o.index.toUInt64) * 0x9E3779B97F4A7C15) >>> 32

/-- A table of `2 ^ bits` slots; a slot that is cleared keeps its other bytes. -/
def coinHashing (bits : Nat) : Hashing Slot Outpoint where
  size := 2 ^ bits
  live s := s.index != emptyIndex
  keyOf := Slot.key
  clear s := { s with index := emptyIndex }
  home o := (utxoHash o).toNat % 2 ^ bits
  not_live_clear _ := bne_self_eq_false _
  home_lt _ := Nat.mod_lt _ (Nat.two_pow_pos bits)

structure UtxoTable where
  bits : Nat
  n : Nat
  slots : Nat → Slot
  blob : List UInt8
  fill : Nat

def utxoInit (bits : Nat) (blob : List UInt8) : UtxoTable :=
  ⟨bits, 0, fun _ => ⟨0, Txid.ofBytes [], emptyIndex⟩, blob, 0⟩

/-- The height and the coinbase byte share one word. -/
def CoinRecord.encode (c : CoinRecord) : List UInt8 :=
  leBytes 8 c.value.toNat ++ (leBytes 8 (c.height.toNat + c.isCoinbase.toNat * 2 ^ 32) ++
    (leBytes 8 c.script.length ++ c.script))

def readRecord (blob : List UInt8) (off : Nat) : CoinRecord where
  value := UInt64.ofNat (leVal (pread blob off 8))
  height := UInt32.ofNat (leVal (pread blob (off + 8) 8))
  isCoinbase := UInt8.ofNat (leVal (pread blob (off + 8) 8) / 2 ^ 32)
  script := pread blob (off + 24) (leVal (pread blob (off + 16) 8))

/-- 1, 0 and 2 in the source. -/
inductive PutAnswer where
  | new
  | dup
  | full
  deriving DecidableEq, Repr

/-- The slot's index and txid are written first; where the record does not fit, they stay. -/
def utxoPut (u : UtxoTable) (o : Outpoint) (c : CoinRecord) : PutAnswer × UtxoTable :=
  match (coinHashing u.bits).probe u.slots o with
  | .hit _ => (.dup, u)
  | .full => (.full, u)
  | .free i =>
      let slot : Slot := ⟨(u.slots i).blobOff, o.txid, o.index⟩
      if u.blob.length < u.fill + (c.script.length + 24) then
        (.full, { u with slots := Function.update u.slots i slot })
      else
        (.new, { u with
          n := u.n + 1
          slots := Function.update u.slots i { slot with blobOff := u.fill }
          blob := pwrite u.blob u.fill c.encode
          fill := u.fill + (c.script.length + 24) })

def utxoGet (u : UtxoTable) (o : Outpoint) : Option CoinRecord :=
  match (coinHashing u.bits).probe u.slots o with
  | .hit i => some (readRecord u.blob (u.slots i).blobOff)
  | _ => none

/-- The number of the slot at byte offset `48 * p`, as a division of 32 bits gives it. -/
def slotNumber (p : Nat) : Nat := 48 * p % 2 ^ 32 / 48

/-- Whether an entry was deleted, and the table; nothing where the scan does not end. -/
def utxoDel (u : UtxoTable) (o : Outpoint) : Option (Bool × UtxoTable) :=
  match (coinHashing u.bits).probe u.slots o with
  | .hit p =>
      let H := coinHashing u.bits
      let opened := Function.update u.slots p (H.clear (u.slots p))
      (H.shiftBack (H.size ^ 3) opened (slotNumber p) (slotNumber p)).map fun slots =>
        (true, { u with n := u.n - 1, slots := slots })
  | _ => some (false, u)

/-! ## Records -/

theorem length_encode (c : CoinRecord) : c.encode.length = c.script.length + 24 := by
  simp only [CoinRecord.encode, List.length_append, length_leBytes]
  omega

theorem readRecord_encode {blob : List UInt8} {off : Nat} {c : CoinRecord}
    (hslen : c.script.length < 2 ^ 64)
    (h : pread blob off c.encode.length = c.encode) : readRecord blob off = c := by
  have hlen := length_encode c
  have hpart : ∀ o n, o + n ≤ c.encode.length → pread blob (off + o) n = pread c.encode o n := by
    intro o n hle
    rw [← pread_pread hle, h]
  have hword : c.height.toNat + c.isCoinbase.toNat * 2 ^ 32 < 256 ^ 8 := by
    have := c.height.toNat_lt
    have := c.isCoinbase.toNat_lt
    omega
  have hvalue : pread blob off 8 = leBytes 8 c.value.toNat := by
    have := hpart 0 8 (by omega)
    rw [Nat.add_zero] at this
    rw [this]
    exact List.take_left' (length_leBytes ..)
  have hheight : pread blob (off + 8) 8 =
      leBytes 8 (c.height.toNat + c.isCoinbase.toNat * 2 ^ 32) := by
    rw [hpart 8 8 (by omega)]
    exact pread_append (length_leBytes ..) (length_leBytes ..)
  have hsize : pread blob (off + 16) 8 = leBytes 8 c.script.length := by
    rw [hpart 16 8 (by omega), CoinRecord.encode, ← List.append_assoc]
    exact pread_append (by simp) (length_leBytes ..)
  have hscript : pread blob (off + 24) c.script.length = c.script := by
    rw [hpart 24 _ (by omega), CoinRecord.encode, ← List.append_assoc, ← List.append_assoc]
    unfold pread
    rw [List.drop_left' (by simp), List.take_of_length_le le_rfl]
  unfold readRecord
  rw [hvalue, hheight, hsize, leVal_leBytes, leVal_leBytes, leVal_leBytes,
    Nat.mod_eq_of_lt (show c.script.length < 256 ^ 8 by omega), hscript, Nat.mod_eq_of_lt hword,
    Nat.mod_eq_of_lt (show c.value.toNat < 256 ^ 8 by have := c.value.toNat_lt; omega)]
  have hlow : UInt32.ofNat (c.height.toNat + c.isCoinbase.toNat * 2 ^ 32) = c.height := by
    refine UInt32.toNat_inj.mp ?_
    have := c.height.toNat_lt
    rw [UInt32.toNat_ofNat']
    omega
  have hhigh : UInt8.ofNat ((c.height.toNat + c.isCoinbase.toNat * 2 ^ 32) / 2 ^ 32) =
      c.isCoinbase := by
    refine UInt8.toNat_inj.mp ?_
    have := c.height.toNat_lt
    have := c.isCoinbase.toNat_lt
    rw [UInt8.toNat_ofNat']
    omega
  rw [hlow, hhigh, UInt64.ofNat_toNat]

/-! ## The table as a map -/

/-- The table holds the map: each entry's record stands whole below the fill mark. -/
structure Holds (u : UtxoTable) (m : PMap Outpoint CoinRecord) : Prop where
  good : (coinHashing u.bits).Good u.slots
  fill_le : u.fill ≤ u.blob.length
  cap_lt : u.blob.length < 2 ^ 64
  stored : ∀ s, (coinHashing u.bits).Stored u.slots s → ∃ c : CoinRecord,
    m s.key = some c ∧ s.blobOff + c.encode.length ≤ u.fill ∧
      pread u.blob s.blobOff c.encode.length = c.encode
  covers : ∀ o c, m o = some c → ∃ s, (coinHashing u.bits).Stored u.slots s ∧ s.key = o

theorem holds_utxoInit {bits : Nat} {blob : List UInt8} (hcap : blob.length < 2 ^ 64) :
    Holds (utxoInit bits blob) fun _ => none := by
  have hnone : ∀ p, (coinHashing bits).live ((utxoInit bits blob).slots p) = false := fun _ => rfl
  refine ⟨⟨fun p _ hlive => ?_, fun p _ q _ hlive => ?_⟩, Nat.zero_le _, hcap, ?_, nofun⟩
  · rw [show (coinHashing (utxoInit bits blob).bits).live _ = false from hnone p] at hlive
    cases hlive
  · rw [show (coinHashing (utxoInit bits blob).bits).live _ = false from hnone p] at hlive
    cases hlive
  · rintro s ⟨hlive, p, -, rfl⟩
    rw [show (coinHashing (utxoInit bits blob).bits).live _ = false from hnone p] at hlive
    cases hlive

section Held

variable {u : UtxoTable} {m : PMap Outpoint CoinRecord} {o : Outpoint} {c : CoinRecord}

theorem Holds.eq_none (h : Holds u m)
    (hnot : ∀ s, (coinHashing u.bits).Stored u.slots s → s.key ≠ o) : m o = none := by
  cases hm : m o with
  | none => rfl
  | some c =>
      obtain ⟨s, hs, hkey⟩ := h.covers o c hm
      exact absurd hkey (hnot s hs)

theorem Holds.script_lt (h : Holds u m) {off : Nat} (hle : off + c.encode.length ≤ u.fill) :
    c.script.length < 2 ^ 64 := by
  have := h.fill_le
  have := h.cap_lt
  rw [length_encode] at hle
  omega

/-- Every lookup answers what the map holds. -/
theorem Holds.utxoGet_eq (h : Holds u m) (o : Outpoint) : utxoGet u o = m o := by
  unfold utxoGet
  rcases h.good.probe_cases o with ⟨i, hi, heq, hlive, hkey⟩ | ⟨d, -, heq, -, -, hnot⟩ |
    ⟨heq, -, hnot⟩
  · obtain ⟨c, hm, hle, hread⟩ := h.stored _ ⟨hlive, i, hi, rfl⟩
    rw [heq]
    simp only
    rw [readRecord_encode (h.script_lt hle) hread, ← hkey]
    exact hm.symm
  · rw [heq, h.eq_none hnot]
  · rw [heq, h.eq_none hnot]

/-- A key that is there, or a table without a free slot: nothing changes. -/
theorem utxoPut_of_not_free (hfree : ∀ i, (coinHashing u.bits).probe u.slots o ≠ .free i) :
    (utxoPut u o c).1 ≠ .new ∧ (utxoPut u o c).2 = u := by
  unfold utxoPut
  split
  · exact ⟨nofun, rfl⟩
  · exact ⟨nofun, rfl⟩
  · next i heq => exact absurd heq (hfree i)

theorem Holds.utxoPut_free (h : Holds u m) (hindex : o.index ≠ emptyIndex)
    (hroom : u.fill + (c.script.length + 24) ≤ u.blob.length) {i : Nat}
    (hfree : (coinHashing u.bits).probe u.slots o = .free i) :
    (utxoPut u o c).1 = .new ∧ Holds (utxoPut u o c).2 (m.put o c) := by
  rcases h.good.probe_cases o with ⟨j, -, heq, -⟩ | ⟨d, hd, heq, hempty, hbefore, hnot⟩ | ⟨heq, -⟩
  · rw [hfree] at heq
    cases heq
  · rw [hfree] at heq
    obtain rfl := Probe.free.inj heq
    unfold utxoPut
    rw [hfree]
    simp only
    rw [if_neg (not_lt.mpr hroom)]
    refine ⟨rfl, ?_⟩
    have hlive : (coinHashing u.bits).live ⟨u.fill, o.txid, o.index⟩ = true := bne_iff_ne.mpr hindex
    have hslot : ((coinHashing u.bits).home o + d) % (coinHashing u.bits).size <
        (coinHashing u.bits).size := Nat.mod_lt _ (Nat.two_pow_pos u.bits)
    have hstored := Hashing.Stored.update_iff hslot hlive hempty
    have hgood := h.good.insert (show (coinHashing u.bits).keyOf ⟨u.fill, o.txid, o.index⟩ = o from rfl)
      hd hlive hempty hbefore hnot
    have hlen := @length_pwrite _ _ c.encode _ h.fill_le
    rw [length_encode] at hlen
    refine ⟨hgood, ?_, ?_, fun s hs => ?_, fun o' c' hm => ?_⟩
    · simp only
      omega
    · simp only
      have := h.cap_lt
      omega
    · rcases (hstored s).mp hs with rfl | hs
      · refine ⟨c, PMap.put_self .., ?_, pread_pwrite_same h.fill_le⟩
        rw [length_encode]
      · obtain ⟨c', hm, hle, hread⟩ := h.stored s hs
        refine ⟨c', ?_, hle.trans (Nat.le_add_right _ _), ?_⟩
        · have hne : s.key ≠ o := hnot s hs
          rw [PMap.put_of_ne _ _ hne]
          exact hm
        · rw [pread_pwrite_before h.fill_le hle]
          exact hread
    · rw [PMap.put_apply] at hm
      split at hm
      · next ho => exact ⟨_, (hstored _).mpr (.inl rfl), ho.symm⟩
      · obtain ⟨s, hs, hkey⟩ := h.covers o' c' hm
        exact ⟨s, (hstored s).mpr (.inr hs), hkey⟩
  · rw [hfree] at heq
    cases heq

theorem slotNumber_eq {p : Nat} (h : 48 * p < 2 ^ 32) : slotNumber p = p := by
  unfold slotNumber
  rw [Nat.mod_eq_of_lt h]
  omega

/-- The scan of a deletion ends, and takes the key out. -/
theorem Holds.utxoDel_spec (h : Holds u m)
    (hfit : ∀ p, (coinHashing u.bits).probe u.slots o = .hit p → 48 * p < 2 ^ 32) :
    ∃ b u', utxoDel u o = some (b, u') ∧ Holds u' (m.del o) ∧ (b = false → m o = none) := by
  unfold utxoDel
  rcases h.good.probe_cases o with ⟨p, hp, heq, hlive, hkey⟩ | ⟨d, -, heq, -, -, hnot⟩ |
    ⟨heq, -, hnot⟩
  · obtain ⟨slots', hdel, hgood, hstored⟩ := h.good.delete_spec hp hlive
    unfold Hashing.delete at hdel
    rw [heq]
    simp only
    rw [slotNumber_eq (hfit p heq), hdel]
    refine ⟨true, _, rfl, ⟨hgood, h.fill_le, h.cap_lt, fun s hs => ?_, fun o' c' hm => ?_⟩, nofun⟩
    · obtain ⟨hs, hne⟩ := (hstored s).mp hs
      obtain ⟨c', hm, hrest⟩ := h.stored s hs
      have hne' : s.key ≠ o := fun heq => hne (heq.trans hkey.symm)
      refine ⟨c', ?_, hrest⟩
      rw [PMap.del_of_ne _ hne']
      exact hm
    · rw [PMap.del_apply] at hm
      split at hm
      · cases hm
      · next hne =>
          obtain ⟨s, hs, hkey'⟩ := h.covers o' c' hm
          refine ⟨s, (hstored s).mpr ⟨hs, ?_⟩, hkey'⟩
          rw [hkey]
          exact fun heq => hne (hkey'.symm.trans heq)
  · rw [heq]
    refine ⟨false, u, rfl, ?_, fun _ => h.eq_none hnot⟩
    rw [PMap.del_of_none (h.eq_none hnot)]
    exact h
  · rw [heq]
    refine ⟨false, u, rfl, ?_, fun _ => h.eq_none hnot⟩
    rw [PMap.del_of_none (h.eq_none hnot)]
    exact h

end Held

/-! ## Runs -/

inductive TableOp where
  | put (o : Outpoint) (c : CoinRecord)
  | get (o : Outpoint)
  | del (o : Outpoint)

/-- The table beside the map that follows the operations that succeed. -/
abbrev Followed := UtxoTable × PMap Outpoint CoinRecord

def follow : Followed → TableOp → Option Followed
  | (u, m), .put o c =>
      let r := utxoPut u o c
      some (r.2, if r.1 = .new then m.put o c else m)
  | (u, m), .get _ => some (u, m)
  | (u, m), .del o =>
      match utxoDel u o with
      | none => none
      | some (b, u') => some (u', if b then m.del o else m)

def followAll : List TableOp → Followed → Option Followed
  | [], s => some s
  | op :: ops, s =>
      match follow s op with
      | none => none
      | some s' => followAll ops s'

/-- A put names no index that marks a slot empty, and its record fits where a slot is free
for it; a delete opens a slot less than `2 ^ 32` bytes into the table. -/
def CleanOp (u : UtxoTable) : TableOp → Prop
  | .put o c => o.index ≠ emptyIndex ∧
      ((∃ i, (coinHashing u.bits).probe u.slots o = .free i) →
        u.fill + (c.script.length + 24) ≤ u.blob.length)
  | .get _ => True
  | .del o => ∀ p, (coinHashing u.bits).probe u.slots o = .hit p → 48 * p < 2 ^ 32

def CleanRun : List TableOp → Followed → Prop
  | [], _ => True
  | op :: ops, s => CleanOp s.1 op ∧ ∀ s', follow s op = some s' → CleanRun ops s'

theorem Holds.put_refused {u : UtxoTable} {m : PMap Outpoint CoinRecord} {o : Outpoint}
    {c : CoinRecord} (h : Holds u m) (hclean : CleanOp u (.put o c)) (hnot : (utxoPut u o c).1 ≠ .new) :
    (utxoPut u o c).2 = u := by
  refine (utxoPut_of_not_free fun i hfree => ?_).2
  exact hnot (h.utxoPut_free hclean.1 (hclean.2 ⟨i, hfree⟩) hfree).1

theorem Holds.follow {u : UtxoTable} {m : PMap Outpoint CoinRecord} {op : TableOp} (h : Holds u m)
    (hclean : CleanOp u op) : ∃ u' m', follow (u, m) op = some (u', m') ∧ Holds u' m' := by
  cases op with
  | put o c =>
      refine ⟨_, _, rfl, ?_⟩
      by_cases hnew : (utxoPut u o c).1 = .new
      · rw [if_pos hnew]
        have hfree : ∃ i, (coinHashing u.bits).probe u.slots o = .free i := by
          by_contra hnot
          rw [not_exists] at hnot
          exact (utxoPut_of_not_free hnot).1 hnew
        obtain ⟨i, hi⟩ := hfree
        exact (h.utxoPut_free hclean.1 (hclean.2 ⟨i, hi⟩) hi).2
      · rw [if_neg hnew, h.put_refused hclean hnew]
        exact h
  | get o => exact ⟨u, m, rfl, h⟩
  | del o =>
      obtain ⟨b, u', heq, hheld, hmiss⟩ := h.utxoDel_spec hclean
      refine ⟨u', if b then m.del o else m, ?_, ?_⟩
      · unfold CoinTable.follow
        simp only
        rw [heq]
      · cases b with
        | true => exact hheld
        | false =>
            rw [PMap.del_of_none (hmiss rfl)] at hheld
            exact hheld

theorem Holds.followAll {ops : List TableOp} {u : UtxoTable} {m : PMap Outpoint CoinRecord}
    (h : Holds u m) (hclean : CleanRun ops (u, m)) :
    ∃ u' m', followAll ops (u, m) = some (u', m') ∧ Holds u' m' := by
  induction ops generalizing u m with
  | nil => exact ⟨u, m, rfl, h⟩
  | cons op ops ih =>
      obtain ⟨u', m', heq, hheld⟩ := h.follow hclean.1
      obtain ⟨u'', m'', heq', hheld'⟩ := ih hheld (hclean.2 _ heq)
      refine ⟨u'', m'', ?_, hheld'⟩
      unfold CoinTable.followAll
      rw [heq]
      exact heq'

/-- In a run of clean operations on a fresh table of any size every loop ends, every lookup
answers what the map holds, and a put that is refused changes no answer and no count. -/
theorem utxoTable_follows_map {bits : Nat} {blob : List UInt8} (hcap : blob.length < 2 ^ 64)
    {ops : List TableOp} (hclean : CleanRun ops (utxoInit bits blob, fun _ => none)) :
    ∃ u m, followAll ops (utxoInit bits blob, fun _ => none) = some (u, m) ∧
      (∀ o, utxoGet u o = m o) ∧
      (∀ o c, CleanOp u (.put o c) → (utxoPut u o c).1 ≠ .new →
        (∀ o', utxoGet (utxoPut u o c).2 o' = utxoGet u o') ∧ (utxoPut u o c).2.n = u.n) ∧
      ∀ o, CleanOp u (.del o) → utxoDel u o ≠ none := by
  obtain ⟨u, m, heq, h⟩ := (@holds_utxoInit bits blob hcap).followAll hclean
  refine ⟨u, m, heq, h.utxoGet_eq, fun o c hop hnot => ?_, fun o hop => ?_⟩
  · rw [h.put_refused hop hnot]
    exact ⟨fun _ => rfl, rfl⟩
  · obtain ⟨b, u', hdel, -⟩ := h.utxoDel_spec hop
    rw [hdel]
    exact Option.some_ne_none _

/-- Up to `2 ^ 26` slots every deletion is clean. -/
theorem cleanOp_del {u : UtxoTable} (hbits : u.bits ≤ 26) (o : Outpoint) : CleanOp u (.del o) := by
  intro p hp
  have hlt : p < 2 ^ u.bits := Hashing.lt_of_probe_hit hp
  have hpow : 2 ^ u.bits ≤ 2 ^ 26 := Nat.pow_le_pow_right (by decide) hbits
  omega

def sampleOutpoint (i : UInt32) : Outpoint := ⟨Txid.ofBytes [7], i⟩

def sampleRecord : CoinRecord := ⟨5000, 170, 1, [0x51]⟩

def sampleOps : List TableOp :=
  [.put (sampleOutpoint 0) sampleRecord, .put (sampleOutpoint 1) sampleRecord,
    .put (sampleOutpoint 2) sampleRecord, .del (sampleOutpoint 0)]

/-- Two slots and room for two records: the third key finds the table full, and a deletion
in the full table ends. -/
theorem utxoTable_follows_map_full :
    ∃ u m, followAll sampleOps (utxoInit 1 (List.replicate 50 0), fun _ => none) = some (u, m) ∧
      ∀ o, utxoGet u o = m o := by
  have hclean : CleanRun sampleOps (utxoInit 1 (List.replicate 50 0), fun _ => none) := by
    refine ⟨⟨by decide, fun _ => by decide⟩, fun s₁ h₁ => ?_⟩
    obtain rfl := Option.some.inj h₁
    refine ⟨⟨by decide, fun _ => by decide⟩, fun s₂ h₂ => ?_⟩
    obtain rfl := Option.some.inj h₂
    refine ⟨⟨by decide, fun ⟨i, hfree⟩ => ?_⟩, fun s₃ h₃ => ?_⟩
    · have hfull : (coinHashing 1).probe (utxoPut (utxoPut (utxoInit 1 (List.replicate 50 0))
          (sampleOutpoint 0) sampleRecord).2 (sampleOutpoint 1) sampleRecord).2.slots
          (sampleOutpoint 2) = .full := by decide
      cases hfull.symm.trans hfree
    · obtain rfl := Option.some.inj h₃
      exact ⟨cleanOp_del (by decide) _, fun _ _ => trivial⟩
  obtain ⟨u, m, heq, hget, -⟩ := utxoTable_follows_map (by decide) hclean
  exact ⟨u, m, heq, hget⟩

/-- A put that the script area has no room for leaves its key behind. -/
theorem utxoPut_full_leaves_key :
    let u := utxoInit 1 (List.replicate 24 0)
    (utxoPut u (sampleOutpoint 0) sampleRecord).1 = .full ∧
      utxoGet u (sampleOutpoint 0) = none ∧
      utxoGet (utxoPut u (sampleOutpoint 0) sampleRecord).2 (sampleOutpoint 0) =
        some ⟨0, 0, 0, []⟩ := by
  decide

end BitcoinMachineCode.Storage.CoinTable
