import BitcoinMachineCode.Consensus.Sha256
import BitcoinMachineCode.Foundation.BackShift
import BitcoinMachineCode.Foundation.FileBytes
import BitcoinMachineCode.Storage.Coins
import Mathlib.Data.List.Sort

/-!
# The structural mempool store

`bitcoin_mempool.asm` keeps txids in an open-addressed table and the bytes of the
transactions in a blob that a deletion leaves as it is.  `mpool_compact` slides what is
still in use to the front, in the order of the offsets.
-/

namespace BitcoinMachineCode.Mempool.PoolStore

open BitcoinMachineCode.Foundation
open BitcoinMachineCode.Consensus (sha256d)
open BitcoinMachineCode.Storage (Txid)

/-! ## The store -/

structure PoolSlot where
  len : Nat
  txid : Txid
  blobOff : Nat
  wtxid : Bytes 32
  deriving DecidableEq

/-- The length of a slot without an entry. -/
def slotEmpty : Nat := 0xFFFFFFFFFFFFFFFF

def mpoolHash (txid : Txid) : UInt32 :=
  (txid.bytes.take 8).foldl (fun h b => h * 0x01000193 ^^^ b.toUInt32) 0x811c9dc5

def poolHashing (bits : Nat) : Hashing PoolSlot Txid where
  size := 2 ^ bits
  live s := s.len != slotEmpty
  keyOf := PoolSlot.txid
  clear s := { s with len := slotEmpty }
  home txid := (mpoolHash txid).toNat % 2 ^ bits
  not_live_clear _ := bne_self_eq_false _
  home_lt _ := Nat.mod_lt _ (Nat.two_pow_pos bits)

/-- `mempool_configure` makes at most `2 ^ 22` slots. -/
structure Pool where
  bits : Nat
  bits_le : bits ≤ 22
  n : Nat
  slots : Nat → PoolSlot
  blob : List UInt8
  fill : Nat

def mpoolInit (bits : Nat) (hbits : bits ≤ 22) (blob : List UInt8) : Pool :=
  ⟨bits, hbits, 0, fun _ => ⟨slotEmpty, Txid.ofBytes [], 0, Bytes.ofList 32 []⟩, blob, 0⟩

/-- 1, 0 and 2 in the source. -/
inductive PutAnswer where
  | new
  | dup
  | full
  deriving DecidableEq, Repr

def mpoolPut (p : Pool) (txid : Txid) (tx : List UInt8) : PutAnswer × Pool :=
  match (poolHashing p.bits).probe p.slots txid with
  | .hit _ => (.dup, p)
  | .full => (.full, p)
  | .free i =>
      if p.blob.length < p.fill + tx.length then (.full, p)
      else
        (.new, { p with
          n := p.n + 1
          slots := Function.update p.slots i ⟨tx.length, txid, p.fill, sha256d tx⟩
          blob := pwrite p.blob p.fill tx
          fill := p.fill + tx.length })

/-- A length and an offset that do not fit the blob together are taken for a miss. -/
def mpoolGet (p : Pool) (txid : Txid) : Option (List UInt8) :=
  match (poolHashing p.bits).probe p.slots txid with
  | .hit i =>
      let s := p.slots i
      if 2 ^ 64 ≤ s.blobOff + s.len ∨ p.blob.length < s.blobOff + s.len then none
      else some (pread p.blob s.blobOff s.len)
  | _ => none

def mpoolWtxidAtSlot (p : Pool) (i : Nat) : Option (Bytes 32) :=
  if 2 ^ p.bits - 1 < i then none
  else if (p.slots i).len = slotEmpty then none
  else some (p.slots i).wtxid

/-- The wtxid that is cached for a txid. -/
def cachedWtxid (p : Pool) (txid : Txid) : Option (Bytes 32) :=
  match (poolHashing p.bits).probe p.slots txid with
  | .hit i => mpoolWtxidAtSlot p i
  | _ => none

/-- The number of the slot at byte offset `80 * p`, as a division of 32 bits gives it. -/
def slotNumber (p : Nat) : Nat := 80 * p % 2 ^ 32 / 80

/-- Whether an entry was deleted, and the store; nothing where the scan does not end. -/
def mpoolDel (p : Pool) (txid : Txid) : Option (Bool × Pool) :=
  match (poolHashing p.bits).probe p.slots txid with
  | .hit i =>
      let H := poolHashing p.bits
      let opened := Function.update p.slots i (H.clear (p.slots i))
      (H.shiftBack (H.size ^ 3) opened (slotNumber i) (slotNumber i)).map fun slots =>
        (true, { p with n := p.n - 1, slots := slots })
  | _ => some (false, p)

/-! ## Compaction -/

/-- The offset and the slot of what is in use; an entry of length 0 has no bytes to move. -/
def liveRegions (p : Pool) : List (Nat × Nat) :=
  (List.range (2 ^ p.bits)).filterMap fun i =>
    if (p.slots i).len = 0 ∨ (p.slots i).len = slotEmpty then none
    else some ((p.slots i).blobOff, i)

structure Sliding where
  slots : Nat → PoolSlot
  blob : List UInt8
  newfill : Nat

def slide (st : Sliding) (region : Nat × Nat) : Sliding :=
  let off := region.1
  let s := st.slots region.2
  { slots := Function.update st.slots region.2 { s with blobOff := st.newfill }
    blob := if off ≠ st.newfill then pwrite st.blob st.newfill (pread st.blob off s.len) else st.blob
    newfill := st.newfill + s.len }

/-- `qsort` by offset: no two offsets are equal, so how it leaves ties does not matter. -/
def compacted (p : Pool) : Sliding :=
  ((liveRegions p).insertionSort fun a b => a.1 ≤ b.1).foldl slide ⟨p.slots, p.blob, 0⟩

/-- Without memory for the list nothing is reclaimed. -/
def mpoolCompact (allocated : Bool) (p : Pool) : Pool :=
  if ¬ allocated then p
  else if liveRegions p = [] then { p with fill := 0 }
  else
    let st := compacted p
    { p with slots := st.slots, blob := st.blob, fill := st.newfill }

/-! ## Sliding -/

/-- The regions to come, in order and apart from one another, none before the new end. -/
structure Ordered (st : Sliding) (regions : List (Nat × Nat)) : Prop where
  offs : ∀ r ∈ regions, (st.slots r.2).blobOff = r.1
  within : ∀ r ∈ regions, r.1 + (st.slots r.2).len ≤ st.blob.length
  apart : regions.Pairwise fun a b => a.1 + (st.slots a.2).len ≤ b.1
  behind : ∀ r ∈ regions, st.newfill ≤ r.1
  nodup : (regions.map Prod.snd).Nodup

/-- What sliding the regions leaves. -/
structure Slid (st st' : Sliding) (regions : List (Nat × Nat)) : Prop where
  others : ∀ i, i ∉ regions.map Prod.snd → st'.slots i = st.slots i
  kept : ∀ i, (st'.slots i).len = (st.slots i).len ∧ (st'.slots i).txid = (st.slots i).txid ∧
    (st'.slots i).wtxid = (st.slots i).wtxid
  moved : ∀ r ∈ regions, st.newfill ≤ (st'.slots r.2).blobOff ∧
    (st'.slots r.2).blobOff + (st.slots r.2).len ≤ st'.newfill ∧
    pread st'.blob (st'.slots r.2).blobOff (st.slots r.2).len =
      pread st.blob r.1 (st.slots r.2).len
  apart : regions.Pairwise fun a b =>
    (st'.slots a.2).blobOff + (st.slots a.2).len ≤ (st'.slots b.2).blobOff
  below : ∀ o n, o + n ≤ st.newfill → pread st'.blob o n = pread st.blob o n
  length_eq : st'.blob.length = st.blob.length
  newfill_le : st.newfill ≤ st.blob.length → st'.newfill ≤ st.blob.length
  newfill_eq : st'.newfill = st.newfill + (regions.map fun r => (st.slots r.2).len).sum

section Slide

variable {st : Sliding} {r : Nat × Nat} {regions : List (Nat × Nat)}

theorem slots_slide_self : (slide st r).slots r.2 = { st.slots r.2 with blobOff := st.newfill } :=
  Function.update_self ..

theorem slots_slide_of_ne {i : Nat} (h : i ≠ r.2) : (slide st r).slots i = st.slots i :=
  Function.update_of_ne h ..

theorem slide_kept (st : Sliding) (r : Nat × Nat) (i : Nat) :
    ((slide st r).slots i).len = (st.slots i).len ∧
      ((slide st r).slots i).txid = (st.slots i).txid ∧
      ((slide st r).slots i).wtxid = (st.slots i).wtxid := by
  by_cases h : i = r.2
  · rw [h, slots_slide_self]
    exact ⟨rfl, rfl, rfl⟩
  · rw [slots_slide_of_ne h]
    exact ⟨rfl, rfl, rfl⟩

/-- The bytes after one region has been moved down. -/
theorem blob_slide (hwithin : r.1 + (st.slots r.2).len ≤ st.blob.length) (hbehind : st.newfill ≤ r.1) :
    (slide st r).blob.length = st.blob.length ∧
      pread (slide st r).blob st.newfill (st.slots r.2).len =
        pread st.blob r.1 (st.slots r.2).len ∧
      (∀ o n, o + n ≤ st.newfill → pread (slide st r).blob o n = pread st.blob o n) ∧
      ∀ o n, r.1 + (st.slots r.2).len ≤ o → pread (slide st r).blob o n = pread st.blob o n := by
  have hlen : (pread st.blob r.1 (st.slots r.2).len).length = (st.slots r.2).len := by
    rw [length_pread]
    omega
  have hstart : st.newfill ≤ st.blob.length := by omega
  unfold slide
  simp only
  split
  · refine ⟨?_, ?_, fun o n h => pread_pwrite_before hstart h, fun o n h => pread_pwrite_after hstart ?_⟩
    · rw [length_pwrite hstart, hlen]
      omega
    · have hsame := @pread_pwrite_same _ st.blob (pread st.blob r.1 (st.slots r.2).len) st.newfill hstart
      rwa [hlen] at hsame
    · rw [hlen]
      omega
  · next heq =>
      rw [not_not] at heq
      exact ⟨rfl, by rw [heq], fun _ _ _ => rfl, fun _ _ _ => rfl⟩

theorem Ordered.tail (h : Ordered st (r :: regions)) : Ordered (slide st r) regions := by
  have hne : ∀ q ∈ regions, q.2 ≠ r.2 := by
    intro q hq heq
    have hnodup := h.nodup
    rw [List.map_cons, List.nodup_cons] at hnodup
    exact hnodup.1 (heq ▸ List.mem_map_of_mem hq)
  obtain ⟨hlen, -⟩ := blob_slide (h.within r List.mem_cons_self) (h.behind r List.mem_cons_self)
  have hapart := List.pairwise_cons.mp h.apart
  refine ⟨fun q hq => ?_, fun q hq => ?_, ?_, fun q hq => ?_, (List.nodup_cons.mp h.nodup).2⟩
  · rw [slots_slide_of_ne (hne q hq)]
    exact h.offs q (List.mem_cons_of_mem _ hq)
  · rw [(slide_kept st r q.2).1, hlen]
    exact h.within q (List.mem_cons_of_mem _ hq)
  · refine hapart.2.imp fun {a b} hab => ?_
    rw [(slide_kept st r a.2).1]
    exact hab
  · have hbehind := h.behind r List.mem_cons_self
    have hnext := hapart.1 q hq
    change st.newfill + (st.slots r.2).len ≤ q.1
    omega

theorem Ordered.slid (h : Ordered st regions) : Slid st (regions.foldl slide st) regions := by
  induction regions generalizing st with
  | nil =>
      exact ⟨fun _ _ => rfl, fun _ => ⟨rfl, rfl, rfl⟩, nofun, List.Pairwise.nil, fun _ _ _ => rfl, rfl,
        id, by simp⟩
  | cons r regions ih =>
      have hrest := ih h.tail
      have hkept := slide_kept st r
      obtain ⟨hlen, hmoved, hbelow, hafter⟩ :=
        blob_slide (h.within r List.mem_cons_self) (h.behind r List.mem_cons_self)
      have hnodup := h.nodup
      rw [List.map_cons, List.nodup_cons] at hnodup
      have hnew : (slide st r).newfill = st.newfill + (st.slots r.2).len := rfl
      have hself : ((regions.foldl slide (slide st r)).slots r.2).blobOff = st.newfill := by
        rw [hrest.others r.2 hnodup.1, slots_slide_self]
      rw [List.foldl_cons]
      refine ⟨fun i hi => ?_, fun i => ?_, fun q hq => ?_, ?_, fun o n ho => ?_, ?_, fun _ => ?_, ?_⟩
      · rw [List.map_cons, List.mem_cons, not_or] at hi
        rw [hrest.others i hi.2, slots_slide_of_ne hi.1]
      · obtain ⟨h₁, h₂, h₃⟩ := hrest.kept i
        obtain ⟨h₁', h₂', h₃'⟩ := hkept i
        exact ⟨h₁.trans h₁', h₂.trans h₂', h₃.trans h₃'⟩
      · rcases List.mem_cons.mp hq with rfl | hq
        · refine ⟨hself.ge, ?_, ?_⟩
          · rw [hself, hrest.newfill_eq, hnew]
            exact Nat.le_add_right _ _
          · rw [hself, hrest.below _ _ (by rw [hnew]), hmoved]
        · obtain ⟨hlow, hhigh, hread⟩ := hrest.moved q hq
          rw [(hkept q.2).1] at hhigh hread
          refine ⟨by omega, hhigh, hread.trans (hafter _ _ ?_)⟩
          exact (List.pairwise_cons.mp h.apart).1 q hq
      · refine List.pairwise_cons.mpr ⟨fun q hq => ?_, ?_⟩
        · rw [hself, ← hnew]
          exact (hrest.moved q hq).1
        · refine hrest.apart.imp fun {a b} hab => ?_
          rw [(hkept a.2).1] at hab
          exact hab
      · rw [hrest.below o n (by omega), hbelow o n ho]
      · rw [hrest.length_eq, hlen]
      · have hwithin := h.within r List.mem_cons_self
        have hbehind := h.behind r List.mem_cons_self
        rw [← hlen]
        exact hrest.newfill_le (by omega)
      · rw [hrest.newfill_eq, hnew, List.map_cons, List.sum_cons, Nat.add_assoc]
        simp only [(hkept _).1]

end Slide

/-! ## The store as a map -/

/-- The bytes of `tx` stand where the slot says, below the fill mark if there are any. -/
structure Kept (p : Pool) (s : PoolSlot) (tx : List UInt8) : Prop where
  len_eq : s.len = tx.length
  wtxid_eq : s.wtxid = sha256d tx
  within : s.blobOff + s.len ≤ p.blob.length
  below : s.len ≠ 0 → s.blobOff + s.len ≤ p.fill
  read : pread p.blob s.blobOff s.len = tx

def Apart (s t : PoolSlot) : Prop :=
  s.blobOff + s.len ≤ t.blobOff ∨ t.blobOff + t.len ≤ s.blobOff

/-- The store holds the map, with the bytes of different entries apart. -/
structure Keeps (p : Pool) (m : PMap Txid (List UInt8)) : Prop where
  good : (poolHashing p.bits).Good p.slots
  fill_le : p.fill ≤ p.blob.length
  cap_lt : p.blob.length < 2 ^ 63
  stored : ∀ s, (poolHashing p.bits).Stored p.slots s → ∃ tx, m s.txid = some tx ∧ Kept p s tx
  apart : ∀ s t, (poolHashing p.bits).Stored p.slots s → (poolHashing p.bits).Stored p.slots t →
    s.txid ≠ t.txid → s.len ≠ 0 → t.len ≠ 0 → Apart s t
  covers : ∀ txid tx, m txid = some tx → ∃ s, (poolHashing p.bits).Stored p.slots s ∧ s.txid = txid

theorem keeps_mpoolInit {bits : Nat} {hbits : bits ≤ 22} {blob : List UInt8}
    (hcap : blob.length < 2 ^ 63) : Keeps (mpoolInit bits hbits blob) fun _ => none := by
  have hnone : ∀ i, (poolHashing (mpoolInit bits hbits blob).bits).live
      ((mpoolInit bits hbits blob).slots i) = false := fun _ => rfl
  have hnot : ∀ s, ¬ (poolHashing (mpoolInit bits hbits blob).bits).Stored
      (mpoolInit bits hbits blob).slots s := by
    rintro s ⟨hlive, i, -, rfl⟩
    rw [hnone i] at hlive
    cases hlive
  refine ⟨⟨fun i _ hlive => ?_, fun i _ j _ hlive => ?_⟩, Nat.zero_le _, hcap,
    fun s hs => absurd hs (hnot s), fun s t hs => absurd hs (hnot s), nofun⟩
  · rw [hnone i] at hlive
    cases hlive
  · rw [hnone i] at hlive
    cases hlive

section Held

variable {p : Pool} {m : PMap Txid (List UInt8)} {txid : Txid} {tx : List UInt8}

theorem Keeps.eq_none (h : Keeps p m)
    (hnot : ∀ s, (poolHashing p.bits).Stored p.slots s → s.txid ≠ txid) : m txid = none := by
  cases hm : m txid with
  | none => rfl
  | some tx =>
      obtain ⟨s, hs, hkey⟩ := h.covers txid tx hm
      exact absurd hkey (hnot s hs)

/-- Every lookup answers what the map holds. -/
theorem Keeps.mpoolGet_eq (h : Keeps p m) (txid : Txid) : mpoolGet p txid = m txid := by
  unfold mpoolGet
  rcases h.good.probe_cases txid with ⟨i, hi, heq, hlive, hkey⟩ | ⟨d, -, heq, -, -, hnot⟩ |
    ⟨heq, -, hnot⟩
  · obtain ⟨tx, hm, hkept⟩ := h.stored _ ⟨hlive, i, hi, rfl⟩
    have hwithin := hkept.within
    have hcap := h.cap_lt
    rw [heq]
    simp only
    rw [if_neg (by omega), hkept.read, ← hm]
    exact congrArg m hkey
  · rw [heq, h.eq_none hnot]
  · rw [heq, h.eq_none hnot]

theorem Keeps.cachedWtxid_eq (h : Keeps p m) (txid : Txid) :
    cachedWtxid p txid = (m txid).map sha256d := by
  unfold cachedWtxid
  rcases h.good.probe_cases txid with ⟨i, hi, heq, hlive, hkey⟩ | ⟨d, -, heq, -, -, hnot⟩ |
    ⟨heq, -, hnot⟩
  · obtain ⟨tx, hm, hkept⟩ := h.stored _ ⟨hlive, i, hi, rfl⟩
    have hbound : ¬ 2 ^ p.bits - 1 < i := by
      have : i < 2 ^ p.bits := hi
      omega
    rw [heq]
    simp only
    unfold mpoolWtxidAtSlot
    rw [if_neg hbound, if_neg (bne_iff_ne.mp hlive), hkept.wtxid_eq,
      ← show (p.slots i).txid = txid from hkey, hm]
    rfl
  · rw [heq, h.eq_none hnot]
    rfl
  · rw [heq, h.eq_none hnot]
    rfl

/-- What a put answers, and that only a new entry changes anything. -/
theorem Keeps.mpoolPut_spec (h : Keeps p m) (txid : Txid) (tx : List UInt8) :
    ((mpoolPut p txid tx).1 = .dup ∧ m txid ≠ none ∧ (mpoolPut p txid tx).2 = p) ∨
    ((mpoolPut p txid tx).1 = .full ∧ m txid = none ∧ (mpoolPut p txid tx).2 = p) ∨
    ((mpoolPut p txid tx).1 = .new ∧ m txid = none ∧
      Keeps (mpoolPut p txid tx).2 (m.put txid tx)) := by
  unfold mpoolPut
  rcases h.good.probe_cases txid with ⟨i, hi, heq, hlive, hkey⟩ |
    ⟨d, hd, heq, hempty, hbefore, hnot⟩ | ⟨heq, -, hnot⟩
  · obtain ⟨tx', hm, -⟩ := h.stored _ ⟨hlive, i, hi, rfl⟩
    rw [heq]
    refine .inl ⟨rfl, ?_, rfl⟩
    rw [← show (p.slots i).txid = txid from hkey, hm]
    exact Option.some_ne_none _
  · rw [heq]
    simp only
    split
    · exact .inr (.inl ⟨rfl, h.eq_none hnot, rfl⟩)
    · next hroom =>
        rw [not_lt] at hroom
        refine .inr (.inr ⟨rfl, h.eq_none hnot, ?_⟩)
        have hfill := h.fill_le
        have hcap := h.cap_lt
        have hne : tx.length ≠ slotEmpty := by
          unfold slotEmpty
          omega
        have hlive : (poolHashing p.bits).live ⟨tx.length, txid, p.fill, sha256d tx⟩ = true :=
          bne_iff_ne.mpr hne
        have hslot : ((poolHashing p.bits).home txid + d) % (poolHashing p.bits).size <
            (poolHashing p.bits).size := Nat.mod_lt _ (Nat.two_pow_pos p.bits)
        have hstored := Hashing.Stored.update_iff hslot hlive hempty
        have hgood := h.good.insert
          (show (poolHashing p.bits).keyOf ⟨tx.length, txid, p.fill, sha256d tx⟩ = txid from rfl)
          hd hlive hempty hbefore hnot
        have hlen : (pwrite p.blob p.fill tx).length = p.blob.length := by
          rw [length_pwrite hfill]
          omega
        have hbelow : ∀ s, (poolHashing p.bits).Stored p.slots s → s.len ≠ 0 →
            s.blobOff + s.len ≤ p.fill := by
          intro s hs hne
          obtain ⟨tx', -, hkept⟩ := h.stored s hs
          exact hkept.below hne
        refine ⟨hgood, ?_, ?_, fun s hs => ?_, fun s t hs ht hkey hslen htlen => ?_,
          fun txid' tx' hm => ?_⟩
        · rw [hlen]
          exact hroom
        · rw [hlen]
          exact hcap
        · rcases (hstored s).mp hs with rfl | hs
          · refine ⟨tx, PMap.put_self .., rfl, rfl, ?_, fun _ => le_rfl, pread_pwrite_same hfill⟩
            rw [hlen]
            exact hroom
          · obtain ⟨tx', hm, hkept⟩ := h.stored s hs
            refine ⟨tx', ?_, hkept.len_eq, hkept.wtxid_eq, ?_, fun hne => ?_, ?_⟩
            · rw [PMap.put_of_ne _ _ (show s.txid ≠ txid from hnot s hs)]
              exact hm
            · rw [hlen]
              exact hkept.within
            · exact (hkept.below hne).trans (Nat.le_add_right _ _)
            · by_cases hzero : s.len = 0
              · rw [← hkept.read, hzero]
                rfl
              · rw [pread_pwrite_before hfill (hkept.below hzero)]
                exact hkept.read
        · rcases (hstored s).mp hs with rfl | hs <;> rcases (hstored t).mp ht with rfl | ht
          · exact absurd rfl hkey
          · exact .inr (hbelow t ht htlen)
          · exact .inl (hbelow s hs hslen)
          · exact h.apart s t hs ht hkey hslen htlen
        · rw [PMap.put_apply] at hm
          split at hm
          · next htxid => exact ⟨_, (hstored _).mpr (.inl rfl), htxid.symm⟩
          · obtain ⟨s, hs, hkey⟩ := h.covers txid' tx' hm
            exact ⟨s, (hstored s).mpr (.inr hs), hkey⟩
  · rw [heq]
    exact .inr (.inl ⟨rfl, h.eq_none hnot, rfl⟩)

/-- No slot lies `2 ^ 32` bytes into a table of at most `2 ^ 22` slots. -/
theorem slotNumber_eq {i : Nat} (hi : i < 2 ^ p.bits) : slotNumber i = i := by
  have hpow : 2 ^ p.bits ≤ 2 ^ 22 := Nat.pow_le_pow_right (by decide) p.bits_le
  unfold slotNumber
  rw [Nat.mod_eq_of_lt (by omega)]
  omega

/-- The scan of a deletion ends, and takes the txid out. -/
theorem Keeps.mpoolDel_spec (h : Keeps p m) (txid : Txid) :
    ∃ p', mpoolDel p txid = some ((m txid).isSome, p') ∧ Keeps p' (m.del txid) := by
  unfold mpoolDel
  rcases h.good.probe_cases txid with ⟨i, hi, heq, hlive, hkey⟩ | ⟨d, -, heq, -, -, hnot⟩ |
    ⟨heq, -, hnot⟩
  · obtain ⟨slots', hdel, hgood, hstored⟩ := h.good.delete_spec hi hlive
    obtain ⟨tx, hm, -⟩ := h.stored _ ⟨hlive, i, hi, rfl⟩
    rw [show (p.slots i).txid = txid from hkey] at hm
    unfold Hashing.delete at hdel
    rw [heq]
    simp only
    rw [slotNumber_eq hi, hdel, hm]
    refine ⟨_, rfl, ⟨hgood, h.fill_le, h.cap_lt, fun s hs => ?_, fun s t hs ht => ?_,
      fun txid' tx' hm' => ?_⟩⟩
    · obtain ⟨hs, hne⟩ := (hstored s).mp hs
      obtain ⟨tx', hm', hkept⟩ := h.stored s hs
      have hne' : s.txid ≠ txid := fun heq => hne (heq.trans hkey.symm)
      refine ⟨tx', ?_, hkept.len_eq, hkept.wtxid_eq, hkept.within, hkept.below, hkept.read⟩
      rw [PMap.del_of_ne _ hne']
      exact hm'
    · exact h.apart s t ((hstored s).mp hs).1 ((hstored t).mp ht).1
    · rw [PMap.del_apply] at hm'
      split at hm'
      · cases hm'
      · next hne =>
          obtain ⟨s, hs, hkey'⟩ := h.covers txid' tx' hm'
          refine ⟨s, (hstored s).mpr ⟨hs, ?_⟩, hkey'⟩
          rw [hkey]
          exact fun heq => hne (hkey'.symm.trans heq)
  · rw [heq, PMap.del_of_none (h.eq_none hnot), h.eq_none hnot]
    exact ⟨p, rfl, h⟩
  · rw [heq, PMap.del_of_none (h.eq_none hnot), h.eq_none hnot]
    exact ⟨p, rfl, h⟩

/-! ## Compaction keeps the map -/

theorem mem_liveRegions {r : Nat × Nat} : r ∈ liveRegions p ↔
    r.2 < 2 ^ p.bits ∧ (p.slots r.2).len ≠ 0 ∧ (p.slots r.2).len ≠ slotEmpty ∧
      (p.slots r.2).blobOff = r.1 := by
  unfold liveRegions
  rw [List.mem_filterMap]
  constructor
  · rintro ⟨i, hi, heq⟩
    split at heq
    · cases heq
    · next hnot =>
        rw [not_or] at hnot
        obtain rfl := Option.some.inj heq
        exact ⟨List.mem_range.mp hi, hnot.1, hnot.2, rfl⟩
  · rintro ⟨hi, hzero, hempty, hoff⟩
    refine ⟨r.2, List.mem_range.mpr hi, ?_⟩
    rw [if_neg (not_or.mpr ⟨hzero, hempty⟩), hoff]

theorem map_snd_liveRegions (p : Pool) : (liveRegions p).map Prod.snd =
    (List.range (2 ^ p.bits)).filter fun i =>
      decide ¬ ((p.slots i).len = 0 ∨ (p.slots i).len = slotEmpty) := by
  unfold liveRegions
  rw [List.map_filterMap, ← List.filterMap_eq_filter]
  refine List.filterMap_congr fun i _ => ?_
  unfold Option.guard
  split
  · next hnot => simp [hnot]
  · next hnot => simp [hnot]

theorem sum_filter_congr {xs : List Nat} {f : Nat → Nat} {a b : Nat → Bool}
    (h : ∀ i, f i ≠ 0 → a i = b i) : ((xs.filter a).map f).sum = ((xs.filter b).map f).sum := by
  induction xs with
  | nil => rfl
  | cons x xs ih =>
      by_cases hx : f x = 0
      · cases ha : a x <;> cases hb : b x <;> simp [ha, hb, hx, ih]
      · rw [List.filter_cons, List.filter_cons, h x hx]
        split
        · simp [ih]
        · exact ih

theorem stored_of_mem_liveRegions {r : Nat × Nat} (hr : r ∈ liveRegions p) :
    (poolHashing p.bits).Stored p.slots (p.slots r.2) := by
  obtain ⟨hlt, -, hempty, -⟩ := mem_liveRegions.mp hr
  exact ⟨bne_iff_ne.mpr hempty, r.2, hlt, rfl⟩

/-- The sorted regions can be slid down one after another. -/
theorem Keeps.ordered (h : Keeps p m) : Ordered ⟨p.slots, p.blob, 0⟩
    ((liveRegions p).insertionSort fun a b => a.1 ≤ b.1) := by
  have hperm := List.perm_insertionSort (fun a b : Nat × Nat => a.1 ≤ b.1) (liveRegions p)
  have hnodup : (((liveRegions p).insertionSort fun a b => a.1 ≤ b.1).map Prod.snd).Nodup := by
    rw [(hperm.map Prod.snd).nodup_iff, map_snd_liveRegions]
    exact List.nodup_range.filter _
  refine ⟨fun r hr => ?_, fun r hr => ?_, ?_, fun _ _ => Nat.zero_le _, hnodup⟩
  · exact (mem_liveRegions.mp (hperm.mem_iff.mp hr)).2.2.2
  · have hr := hperm.mem_iff.mp hr
    obtain ⟨tx, -, hkept⟩ := h.stored _ (stored_of_mem_liveRegions hr)
    rw [← (mem_liveRegions.mp hr).2.2.2]
    exact hkept.within
  · have hsorted := List.pairwise_insertionSort (fun a b : Nat × Nat => a.1 ≤ b.1) (liveRegions p)
    refine (hsorted.and (List.pairwise_map.mp hnodup)).imp_of_mem ?_
    rintro a b ha hb ⟨hle, hne⟩
    have ha := hperm.mem_iff.mp ha
    have hb := hperm.mem_iff.mp hb
    obtain ⟨halt, hazero, haempty, haoff⟩ := mem_liveRegions.mp ha
    obtain ⟨hblt, hbzero, hbempty, hboff⟩ := mem_liveRegions.mp hb
    have hkey : (p.slots a.2).txid ≠ (p.slots b.2).txid := by
      intro hkey
      exact hne (h.good.unique _ halt _ hblt (bne_iff_ne.mpr haempty) (bne_iff_ne.mpr hbempty) hkey)
    rcases h.apart _ _ (stored_of_mem_liveRegions ha) (stored_of_mem_liveRegions hb) hkey hazero hbzero with hab | hba
    · rw [hboff, haoff] at hab
      exact hab
    · rw [hboff, haoff] at hba
      simp only
      omega

theorem mpoolCompact_eq (p : Pool) : mpoolCompact true p =
    { p with slots := (compacted p).slots, blob := (compacted p).blob, fill := (compacted p).newfill } := by
  unfold mpoolCompact
  rw [if_neg (by simp)]
  split
  · next hnil =>
      unfold compacted
      rw [hnil]
      rfl
  · rfl

theorem Keeps.slid (h : Keeps p m) : Slid ⟨p.slots, p.blob, 0⟩ (compacted p)
    ((liveRegions p).insertionSort fun a b => a.1 ≤ b.1) := h.ordered.slid

/-- An entry after a compaction stands in the slot it stood in before. -/
theorem Keeps.of_stored_compacted (h : Keeps p m) {s : PoolSlot}
    (hs : (poolHashing p.bits).Stored (compacted p).slots s) :
    ∃ i < 2 ^ p.bits, (compacted p).slots i = s ∧ (p.slots i).len = s.len ∧
      (p.slots i).txid = s.txid ∧ (p.slots i).wtxid = s.wtxid ∧
      (poolHashing p.bits).Stored p.slots (p.slots i) := by
  obtain ⟨hlive, i, hi, rfl⟩ := hs
  obtain ⟨hlen, htxid, hwtxid⟩ := h.slid.kept i
  refine ⟨i, hi, rfl, hlen.symm, htxid.symm, hwtxid.symm, ?_, i, hi, rfl⟩
  refine bne_iff_ne.mpr ?_
  rw [← hlen]
  exact bne_iff_ne.mp hlive

theorem mem_sorted {i : Nat} (hi : i < 2 ^ p.bits) (hzero : (p.slots i).len ≠ 0)
    (hempty : (p.slots i).len ≠ slotEmpty) :
    ((p.slots i).blobOff, i) ∈ (liveRegions p).insertionSort fun a b => a.1 ≤ b.1 := by
  refine (List.perm_insertionSort (fun a b : Nat × Nat => a.1 ≤ b.1) _).mem_iff.mpr ?_
  exact mem_liveRegions.mpr ⟨hi, hzero, hempty, rfl⟩

theorem Keeps.mpoolCompact (h : Keeps p m) (allocated : Bool) :
    Keeps (mpoolCompact allocated p) m := by
  cases allocated with
  | false => exact h
  | true =>
      have hslid := h.slid
      rw [mpoolCompact_eq]
      refine ⟨?_, ?_, ?_, fun s hs => ?_, fun s t hs ht hkey hszero htzero => ?_, fun txid tx hm => ?_⟩
      · refine h.good.congr (fun i => ?_) fun i => (hslid.kept i).2.1
        exact congrArg (· != slotEmpty) (hslid.kept i).1
      · rw [hslid.length_eq]
        exact hslid.newfill_le (Nat.zero_le _)
      · rw [hslid.length_eq]
        exact h.cap_lt
      · obtain ⟨i, hi, rfl, hlen, htxid, hwtxid, hstored⟩ := h.of_stored_compacted hs
        obtain ⟨tx, hm, hkept⟩ := h.stored _ hstored
        rw [htxid] at hm
        refine ⟨tx, hm, ?_⟩
        by_cases hzero : (p.slots i).len = 0
        · -- nothing was moved: the slot is as it was
          have hnot : i ∉ ((liveRegions p).insertionSort fun a b => a.1 ≤ b.1).map Prod.snd := by
            rw [((List.perm_insertionSort _ _).map Prod.snd).mem_iff, map_snd_liveRegions]
            simp [hzero]
          rw [hslid.others i hnot]
          refine ⟨hkept.len_eq, hkept.wtxid_eq, ?_, fun hne => absurd hzero hne, ?_⟩
          · rw [hslid.length_eq]
            exact hkept.within
          · rw [← hkept.read, hzero]
            rfl
        · obtain ⟨-, hhigh, hread⟩ :=
            hslid.moved _ (mem_sorted hi hzero (bne_iff_ne.mp hstored.1))
          simp only at hhigh hread
          rw [hlen] at hhigh hread
          refine ⟨hlen ▸ hkept.len_eq, hwtxid ▸ hkept.wtxid_eq, ?_, fun _ => hhigh, ?_⟩
          · rw [hslid.length_eq]
            exact hhigh.trans (hslid.newfill_le (Nat.zero_le _))
          · rw [hread, ← hkept.read, hlen]
      · obtain ⟨i, hi, rfl, hilen, hitxid, -, histored⟩ := h.of_stored_compacted hs
        obtain ⟨j, hj, rfl, hjlen, hjtxid, -, hjstored⟩ := h.of_stored_compacted ht
        have hne : i ≠ j := fun heq => hkey (by rw [heq])
        have hmemi := mem_sorted hi (hilen ▸ hszero) (bne_iff_ne.mp histored.1)
        have hmemj := mem_sorted hj (hjlen ▸ htzero) (bne_iff_ne.mp hjstored.1)
        have hsymm : (((liveRegions p).insertionSort fun a b => a.1 ≤ b.1)).Pairwise fun a b =>
            Apart ((compacted p).slots a.2) ((compacted p).slots b.2) := by
          refine hslid.apart.imp fun {a b} hab => ?_
          rw [← (hslid.kept a.2).1] at hab
          exact .inl hab
        have : Std.Symm fun a b : Nat × Nat =>
            Apart ((compacted p).slots a.2) ((compacted p).slots b.2) := ⟨fun _ _ hab => hab.symm⟩
        exact hsymm.forall hmemi hmemj fun heq => hne (congrArg Prod.snd heq)
      · obtain ⟨s, ⟨hlive, i, hi, rfl⟩, hkey⟩ := h.covers txid tx hm
        refine ⟨(compacted p).slots i, ⟨bne_iff_ne.mpr ?_, i, hi, rfl⟩, ?_⟩
        · rw [(hslid.kept i).1]
          exact bne_iff_ne.mp hlive
        · rw [(hslid.kept i).2.1]
          exact hkey

/-- The mark after a compaction is the length of everything that is stored. -/
theorem Keeps.fill_mpoolCompact (h : Keeps p m) : ∃ txids : List Txid, txids.Nodup ∧
    (∀ txid, txid ∈ txids ↔ m txid ≠ none) ∧
    (PoolStore.mpoolCompact true p).fill =
      (txids.map fun txid => ((m txid).getD []).length).sum := by
  let live := (List.range (2 ^ p.bits)).filter fun i => (poolHashing p.bits).live (p.slots i)
  have hmem : ∀ {i}, i ∈ live ↔ i < 2 ^ p.bits ∧ (poolHashing p.bits).live (p.slots i) = true := by
    intro i
    rw [List.mem_filter, List.mem_range]
  refine ⟨live.map fun i => (p.slots i).txid, ?_, fun txid => ?_, ?_⟩
  · refine List.Nodup.map_on (fun i hi j hj heq => ?_) (List.nodup_range.filter _)
    exact h.good.unique i (hmem.mp hi).1 j (hmem.mp hj).1 (hmem.mp hi).2 (hmem.mp hj).2 heq
  · rw [List.mem_map]
    constructor
    · rintro ⟨i, hi, rfl⟩
      obtain ⟨tx, hm, -⟩ := h.stored _ ⟨(hmem.mp hi).2, i, (hmem.mp hi).1, rfl⟩
      rw [hm]
      exact Option.some_ne_none _
    · intro hne
      obtain ⟨tx, hm⟩ := Option.ne_none_iff_exists'.mp hne
      obtain ⟨s, ⟨hlive, i, hi, rfl⟩, hkey⟩ := h.covers txid tx hm
      exact ⟨i, hmem.mpr ⟨hi, hlive⟩, hkey⟩
  · rw [mpoolCompact_eq]
    calc (compacted p).newfill
        = 0 + (((liveRegions p).insertionSort fun a b => a.1 ≤ b.1).map
            fun r => (p.slots r.2).len).sum := h.slid.newfill_eq
      _ = ((liveRegions p).map fun r => (p.slots r.2).len).sum := by
          rw [Nat.zero_add]
          exact ((List.perm_insertionSort _ _).map _).sum_eq
      _ = (((liveRegions p).map Prod.snd).map fun i => (p.slots i).len).sum := by
          rw [List.map_map]
          rfl
      _ = (live.map fun i => (p.slots i).len).sum := by
          rw [map_snd_liveRegions]
          refine sum_filter_congr fun i hne => ?_
          have hdec : decide ((p.slots i).len = slotEmpty) = ((p.slots i).len == slotEmpty) := by
            rw [beq_eq_decide]
          simp [poolHashing, hne, bne, hdec]
      _ = ((live.map fun i => (p.slots i).txid).map fun txid => ((m txid).getD []).length).sum := by
          rw [List.map_map]
          refine congrArg List.sum (List.map_congr_left fun i hi => ?_)
          obtain ⟨tx, hm, hkept⟩ := h.stored _ ⟨(hmem.mp hi).2, i, (hmem.mp hi).1, rfl⟩
          rw [Function.comp_apply, hm]
          exact hkept.len_eq

end Held

/-! ## Runs -/

inductive PoolOp where
  | put (txid : Txid) (tx : List UInt8)
  | del (txid : Txid)
  | compact (allocated : Bool)

/-- The store beside the map from txids to what was put under them. -/
abbrev Followed := Pool × PMap Txid (List UInt8)

def follow : Followed → PoolOp → Option Followed
  | (p, m), .put txid tx =>
      let r := mpoolPut p txid tx
      some (r.2, if r.1 = .new then m.put txid tx else m)
  | (p, m), .del txid =>
      match mpoolDel p txid with
      | none => none
      | some (_, p') => some (p', m.del txid)
  | (p, m), .compact allocated => some (mpoolCompact allocated p, m)

def followAll : List PoolOp → Followed → Option Followed
  | [], s => some s
  | op :: ops, s =>
      match follow s op with
      | none => none
      | some s' => followAll ops s'

theorem Keeps.follow {p : Pool} {m : PMap Txid (List UInt8)} (h : Keeps p m) (op : PoolOp) :
    ∃ p' m', follow (p, m) op = some (p', m') ∧ Keeps p' m' := by
  cases op with
  | put txid tx =>
      refine ⟨_, _, rfl, ?_⟩
      rcases h.mpoolPut_spec txid tx with ⟨hans, -, hsame⟩ | ⟨hans, -, hsame⟩ | ⟨hans, -, hkeeps⟩
      · rw [hans, hsame, if_neg (by decide)]
        exact h
      · rw [hans, hsame, if_neg (by decide)]
        exact h
      · rw [if_pos hans]
        exact hkeeps
  | del txid =>
      obtain ⟨p', hdel, hkeeps⟩ := h.mpoolDel_spec txid
      refine ⟨p', m.del txid, ?_, hkeeps⟩
      unfold PoolStore.follow
      simp only
      rw [hdel]
  | compact allocated => exact ⟨_, _, rfl, h.mpoolCompact allocated⟩

theorem Keeps.followAll {ops : List PoolOp} {p : Pool} {m : PMap Txid (List UInt8)}
    (h : Keeps p m) : ∃ p' m', followAll ops (p, m) = some (p', m') ∧ Keeps p' m' := by
  induction ops generalizing p m with
  | nil => exact ⟨p, m, rfl, h⟩
  | cons op ops ih =>
      obtain ⟨p', m', heq, hkeeps⟩ := h.follow op
      obtain ⟨p'', m'', heq', hkeeps'⟩ := ih hkeeps
      refine ⟨p'', m'', ?_, hkeeps'⟩
      unfold PoolStore.followAll
      rw [heq]
      exact heq'

/-- Whatever is put, deleted and compacted, every loop ends; a txid answers the bytes that
were put under it and their hash, before and after a further compaction, which leaves the
fill mark at the length of all that is stored; what a put or a deletion answers is right. -/
theorem poolStore_follows_map {bits : Nat} {hbits : bits ≤ 22} {blob : List UInt8}
    (hcap : blob.length < 2 ^ 63) (ops : List PoolOp) :
    ∃ p m, followAll ops (mpoolInit bits hbits blob, fun _ => none) = some (p, m) ∧
      (∀ txid, mpoolGet p txid = m txid ∧ cachedWtxid p txid = (m txid).map sha256d) ∧
      (∀ allocated txid, mpoolGet (mpoolCompact allocated p) txid = mpoolGet p txid ∧
        cachedWtxid (mpoolCompact allocated p) txid = cachedWtxid p txid) ∧
      (∃ txids : List Txid, txids.Nodup ∧ (∀ txid, txid ∈ txids ↔ m txid ≠ none) ∧
        (mpoolCompact true p).fill = (txids.map fun txid => ((m txid).getD []).length).sum) ∧
      (∀ txid tx, ((mpoolPut p txid tx).1 = .dup ↔ m txid ≠ none) ∧
        ((mpoolPut p txid tx).1 ≠ .new → (mpoolPut p txid tx).2 = p)) ∧
      ∀ txid, (mpoolDel p txid).map Prod.fst = some (m txid).isSome := by
  obtain ⟨p, m, heq, h⟩ := @(@keeps_mpoolInit bits hbits blob hcap).followAll ops
  refine ⟨p, m, heq, fun txid => ⟨h.mpoolGet_eq txid, h.cachedWtxid_eq txid⟩, fun allocated txid => ?_,
    h.fill_mpoolCompact, fun txid tx => ?_, fun txid => ?_⟩
  · have h' := h.mpoolCompact allocated
    rw [h'.mpoolGet_eq, h.mpoolGet_eq, h'.cachedWtxid_eq, h.cachedWtxid_eq]
    exact ⟨rfl, rfl⟩
  · rcases h.mpoolPut_spec txid tx with ⟨hans, hm, hsame⟩ | ⟨hans, hm, hsame⟩ | ⟨hans, hm, -⟩
    · exact ⟨⟨fun _ => hm, fun _ => hans⟩, fun _ => hsame⟩
    · rw [hans]
      exact ⟨⟨nofun, fun hne => absurd hm hne⟩, fun _ => hsame⟩
    · rw [hans]
      exact ⟨⟨nofun, fun hne => absurd hm hne⟩, fun hne => absurd rfl hne⟩
  · obtain ⟨p', hdel, -⟩ := h.mpoolDel_spec txid
    rw [hdel]
    rfl

def sampleTxid (b : UInt8) : Txid := Txid.ofBytes [b]

def sampleOps : List PoolOp :=
  [.put (sampleTxid 1) [10, 11], .put (sampleTxid 2) [20], .put (sampleTxid 3) [30],
    .del (sampleTxid 1), .compact true, .put (sampleTxid 3) [30, 31, 32]]

/-- Two slots and three bytes: the third key finds no slot, then no room for its bytes. -/
theorem poolStore_follows_map_full :
    (List.replicate 3 (0 : UInt8)).length < 2 ^ 63 ∧
      ∃ p m, followAll sampleOps (mpoolInit 1 (by decide) (List.replicate 3 0), fun _ => none) =
        some (p, m) ∧ ∀ txid, mpoolGet p txid = m txid := by
  have hcap : (List.replicate 3 (0 : UInt8)).length < 2 ^ 63 := by decide
  obtain ⟨p, m, heq, hget, -⟩ :=
    @poolStore_follows_map 1 (by decide) (List.replicate 3 0) hcap sampleOps
  exact ⟨hcap, p, m, heq, fun txid => (hget txid).1⟩

end BitcoinMachineCode.Mempool.PoolStore
