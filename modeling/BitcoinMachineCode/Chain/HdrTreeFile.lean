import BitcoinMachineCode.Chain.HdrTree
import Mathlib.Data.List.Basic

/-!
# The fork tree's file

The reader counts whole records from the start of the file; an added header is
appended at its physical end.  On a file of whole records the two agree, and a
table opened, added to and opened again is the table that was in memory.  A
partial record left by a crash is neither read nor cut, so the next record
appended lands behind it and is read shifted.
-/

namespace BitcoinMachineCode.Chain

open BitcoinMachineCode.Foundation

/-! ## One record -/

theorem length_pack (e : Entry) : (pack e).length = hdrtreeRec := by
  simp [pack, e.hash.2, e.prev.2, e.hdr.2, hdrtreeRec]

/-- The reader's slices of a record, field by field. -/
theorem unpack_append (hash prev : Bytes 32) (height bits work ntx flags : Nat)
    (hdr : Bytes 80) (pad : List UInt8) :
    unpack true (hash.1 ++ (prev.1 ++ (leBytes 8 height ++ (leBytes 4 bits ++
      (leBytes 16 work ++ (leBytes 4 ntx ++ (leBytes 4 flags ++
        (hdr.1 ++ pad)))))))) =
      ⟨hash, prev, (UInt64.ofNat (height % 256 ^ 8)).toInt64,
        UInt32.ofNat (bits % 256 ^ 4), BitVec.ofNat 128 (work % 256 ^ 16),
        UInt32.ofNat (ntx % 256 ^ 4), UInt32.ofNat (flags % 256 ^ 4), hdr⟩ := by
  have hcut : ∀ {n : Nat} (xs ys : List UInt8) (m : Nat), xs.length = n →
      (xs ++ ys).drop (n + m) = ys.drop m := by
    intro n xs ys m hn
    rw [← List.drop_drop, List.drop_left' hn]
  have hlen : ∀ w n, (leBytes w n).length = w := length_leBytes
  simp only [unpack, if_true, Entry.mk.injEq]
  refine ⟨?_, ?_, ?_, ?_, ?_, ?_, ?_, ?_⟩
  · rw [List.take_left' hash.2, Bytes.ofList_val]
  · rw [List.drop_left' hash.2, List.take_left' prev.2, Bytes.ofList_val]
  · rw [hcut (n := 32) _ _ 32 hash.2, List.drop_left' prev.2,
      List.take_left' (hlen 8 _), leVal_leBytes]
  · rw [hcut (n := 32) _ _ 40 hash.2, hcut (n := 32) _ _ 8 prev.2,
      List.drop_left' (hlen 8 _), List.take_left' (hlen 4 _), leVal_leBytes]
  · rw [hcut (n := 32) _ _ 44 hash.2, hcut (n := 32) _ _ 12 prev.2,
      hcut (n := 8) _ _ 4 (hlen 8 _), List.drop_left' (hlen 4 _),
      List.take_left' (hlen 16 _), leVal_leBytes]
  · rw [hcut (n := 32) _ _ 60 hash.2, hcut (n := 32) _ _ 28 prev.2,
      hcut (n := 8) _ _ 20 (hlen 8 _), hcut (n := 4) _ _ 16 (hlen 4 _),
      List.drop_left' (hlen 16 _), List.take_left' (hlen 4 _), leVal_leBytes]
  · rw [hcut (n := 32) _ _ 64 hash.2, hcut (n := 32) _ _ 32 prev.2,
      hcut (n := 8) _ _ 24 (hlen 8 _), hcut (n := 4) _ _ 20 (hlen 4 _),
      hcut (n := 16) _ _ 4 (hlen 16 _), List.drop_left' (hlen 4 _),
      List.take_left' (hlen 4 _), leVal_leBytes]
  · rw [hcut (n := 32) _ _ 68 hash.2, hcut (n := 32) _ _ 36 prev.2,
      hcut (n := 8) _ _ 28 (hlen 8 _), hcut (n := 4) _ _ 24 (hlen 4 _),
      hcut (n := 16) _ _ 8 (hlen 16 _), hcut (n := 4) _ _ 4 (hlen 4 _),
      List.drop_left' (hlen 4 _), List.take_left' hdr.2, Bytes.ofList_val]

theorem unpack_pack (e : Entry) : unpack true (pack e) = e := by
  have h32 : ∀ x : UInt32, x.toNat % 256 ^ 4 = x.toNat := fun x =>
    Nat.mod_eq_of_lt x.toNat_lt
  have h64 : ∀ x : UInt64, x.toNat % 256 ^ 8 = x.toNat := fun x =>
    Nat.mod_eq_of_lt x.toNat_lt
  have h128 : e.work.toNat % 256 ^ 16 = e.work.toNat :=
    Nat.mod_eq_of_lt e.work.isLt
  rw [pack, unpack_append]
  simp only [h32, h64, h128, UInt32.ofNat_toNat, UInt64.ofNat_toNat,
    BitVec.ofNat_toNat, BitVec.setWidth_eq]
  rfl

/-- The low byte of the height a record gives is the record's byte 64. -/
theorem height_of_unpack {rec : List UInt8} {e : Entry} (b : UInt8)
    (hb : rec[64]? = some b) (h : unpack true rec = e) :
    e.height.toUInt64.toNat % 256 = b.toNat := by
  obtain ⟨hlt, hget⟩ := List.getElem?_eq_some_iff.mp hb
  have hdrop : rec.drop 64 = b :: rec.drop 65 := by
    rw [List.drop_eq_getElem_cons hlt, hget]
  have hbyte := b.toNat_lt
  subst h
  simp only [unpack, hdrop, List.take_succ_cons, leVal_cons,
    UInt64.toUInt64_toInt64, UInt64.toNat_ofNat']
  omega

/-! ## The whole file -/

namespace HdrTree

theorem loadRecords_short (room : Nat) {bytes : List UInt8}
    (h : bytes.length < hdrtreeRec) : loadRecords true room bytes = [] := by
  cases room with
  | zero => rfl
  | succ room => simp [loadRecords, h]

@[simp] theorem loadRecords_nil (room : Nat) : loadRecords true room [] = [] :=
  loadRecords_short room (by decide)

theorem loadRecords_cons (room : Nat) {record rest : List UInt8}
    (h : record.length = hdrtreeRec) :
    loadRecords true (room + 1) (record ++ rest) =
      unpack true record :: loadRecords true room rest := by
  have hlen : ¬ (record ++ rest).length < hdrtreeRec := by
    rw [List.length_append]
    omega
  simp only [loadRecords, if_true, if_neg hlen, List.take_left' h,
    List.drop_left' h]

/-- Whole records are read first, then what follows them. -/
theorem loadRecords_append (k room : Nat) {whole : List UInt8}
    (rest : List UInt8) (hlen : whole.length = hdrtreeRec * k) (hk : k ≤ room) :
    (loadRecords true k whole).length = k ∧
    loadRecords true room (whole ++ rest) =
      loadRecords true k whole ++ loadRecords true (room - k) rest := by
  induction k generalizing whole room with
  | zero =>
      obtain rfl : whole = [] := List.length_eq_zero_iff.mp hlen
      simp [loadRecords]
  | succ k ih =>
      obtain ⟨room, rfl⟩ : ∃ r, room = r + 1 := ⟨room - 1, by omega⟩
      have hrec : (whole.take hdrtreeRec).length = hdrtreeRec := by
        rw [List.length_take, hlen, Nat.mul_succ]
        omega
      have hrest : (whole.drop hdrtreeRec).length = hdrtreeRec * k := by
        rw [List.length_drop, hlen, Nat.mul_succ]
        omega
      obtain ⟨hcount, hread⟩ := ih room hrest (by omega)
      have hsplit := List.take_append_drop hdrtreeRec whole
      rw [← hsplit, List.append_assoc, loadRecords_cons room hrec,
        loadRecords_cons k hrec, hread, Nat.add_sub_add_right]
      exact ⟨by rw [List.length_cons, hcount], rfl⟩

theorem length_flatMap_pack (es : List Entry) :
    (es.flatMap pack).length = hdrtreeRec * es.length := by
  induction es with
  | nil => rfl
  | cons e es ih =>
      rw [List.flatMap_cons, List.length_append, length_pack, ih,
        List.length_cons, Nat.mul_succ, Nat.add_comm]

theorem loadRecords_flatMap_pack (es : List Entry) {room : Nat}
    (hroom : es.length ≤ room) :
    loadRecords true room (es.flatMap pack) = es := by
  induction es generalizing room with
  | nil => exact loadRecords_nil room
  | cons e es ih =>
      obtain ⟨room, rfl⟩ : ∃ r, room = r + 1 := by
        cases room with
        | zero => simp at hroom
        | succ room => exact ⟨room, rfl⟩
      rw [List.flatMap_cons, loadRecords_cons room (length_pack e), unpack_pack,
        ih (by simpa using hroom)]

theorem length_loadRecords_le (v2 : Bool) (room : Nat) (bytes : List UInt8) :
    (loadRecords v2 room bytes).length ≤ room := by
  induction room generalizing bytes with
  | zero => simp [loadRecords]
  | succ room ih =>
      simp only [loadRecords]
      by_cases hshort : bytes.length <
          (if v2 = true then hdrtreeRec else hdrtreeRecV1)
      · simp [hshort]
      · rw [if_neg hshort, List.length_cons]
        exact Nat.succ_le_succ (ih _)

/-! ## Table and file in step -/

/-- What the reader would load is what the table holds, and while the table has
room the file ends with its last record. -/
structure Synced (t : HdrTree) : Prop where
  loaded : t.loaded = true
  bounded : t.entries.length ≤ hdrtreeMax
  absent : t.file = none → t.entries = [] ∧ t.fileV1 = none
  reads : ∀ bytes, t.file = some bytes →
    loadRecords true hdrtreeMax bytes = t.entries
  whole : ∀ bytes, t.file = some bytes → t.entries.length < hdrtreeMax →
    bytes.length = hdrtreeRec * t.entries.length

variable {t : HdrTree}

theorem Synced.reopen (ht : t.Synced) : t.hdrtreeOpen.entries = t.entries := by
  cases hfile : t.file with
  | some bytes => simp [hdrtreeOpen, hfile, ht.reads bytes hfile]
  | none =>
      obtain ⟨hentries, hv1⟩ := ht.absent hfile
      simp [hdrtreeOpen, hfile, hv1, hentries]

theorem synced_rewrite (hloaded : t.loaded = true)
    (hlen : t.entries.length ≤ hdrtreeMax) : t.rewrite.Synced where
  loaded := hloaded
  bounded := hlen
  absent h := by cases h
  reads bytes h := by
    cases h
    exact loadRecords_flatMap_pack t.entries hlen
  whole bytes h _ := by
    cases h
    exact length_flatMap_pack t.entries

theorem Synced.append (ht : t.Synced) (hroom : t.entries.length < hdrtreeMax)
    (e : Entry) :
    ({ t with
        entries := t.entries ++ [e]
        file := some (t.file.getD [] ++ pack e) } : HdrTree).Synced := by
  have hlen : (t.file.getD []).length = hdrtreeRec * t.entries.length := by
    cases hfile : t.file with
    | none => simp [(ht.absent hfile).1]
    | some bytes => exact ht.whole bytes hfile hroom
  have hread : loadRecords true t.entries.length (t.file.getD []) =
      t.entries := by
    cases hfile : t.file with
    | none => simp [(ht.absent hfile).1]
    | some bytes =>
        rw [hfile] at hlen
        have hcut := (loadRecords_append t.entries.length hdrtreeMax [] hlen
          ht.bounded).2
        rw [List.append_nil, loadRecords_nil, List.append_nil] at hcut
        exact hcut.symm.trans (ht.reads bytes hfile)
  refine ⟨ht.loaded, ?_, (fun h => by cases h), ?_, ?_⟩
  · rw [List.length_append, List.length_singleton]
    exact hroom
  · intro bytes h
    cases h
    obtain ⟨room, hmax⟩ : ∃ r, hdrtreeMax - t.entries.length = r + 1 :=
      ⟨hdrtreeMax - t.entries.length - 1, by omega⟩
    have hlast : loadRecords true (room + 1) (pack e) = [e] := by
      simpa using loadRecords_flatMap_pack [e] (Nat.le_add_left 1 room)
    rw [(loadRecords_append t.entries.length hdrtreeMax (pack e) hlen
      ht.bounded).2, hread, hmax, hlast]
  · intro bytes h _
    cases h
    rw [List.length_append, hlen, length_pack, List.length_append,
      List.length_singleton, Nat.mul_succ]

variable {blockHash : Bytes 80 → Bytes 32}

theorem Synced.addLoaded (ht : t.Synced) (hdr : Bytes 80) (height : Int64)
    (work : BitVec 128) (ntx : UInt32) :
    (t.addLoaded blockHash hdr height work ntx).1.Synced := by
  rcases addLoaded_cases blockHash t hdr height work ntx with
    ⟨hout, -⟩ | ⟨known, i, -, hout, -⟩ | ⟨v, i, -, hout, -⟩ |
      ⟨-, hroom, hout, -⟩
  · rw [hout]
    exact ht
  · rw [hout]
    exact synced_rewrite ht.loaded (by simpa using ht.bounded)
  · rw [hout]
    exact synced_rewrite ht.loaded (by simpa using ht.bounded)
  · rw [hout]
    exact ht.append hroom _

end HdrTree

/-! ## Two generations of the process -/

structure Offer where
  hdr : Bytes 80
  height : Int64
  work : BitVec 128
  ntx : UInt32

/-- A process that has loaded nothing yet, over the files it finds. -/
def HdrTree.onDisk (file fileV1 : Option (List UInt8)) : HdrTree :=
  ⟨[], false, file, fileV1⟩

variable (blockHash : Bytes 80 → Bytes 32)

def HdrTree.offer (t : HdrTree) (o : Offer) : HdrTree :=
  (t.hdrtreeAddNtx blockHash o.hdr o.height o.work o.ntx).1

/-- Opened, added to and opened again, the table is the one that was in
memory. -/
def ReopensExactly (file fileV1 : Option (List UInt8)) : Prop :=
  ∀ offers : List Offer,
    let t := offers.foldl (HdrTree.offer blockHash)
      (HdrTree.onDisk file fileV1).hdrtreeOpen
    t.hdrtreeOpen.entries = t.entries

/-- The file is missing, ends with a whole record, or already fills the table
(nothing is appended to a full one); or no header is left to append. -/
def EndsWhole (file : Option (List UInt8)) : Prop :=
  ∀ bytes, file = some bytes →
    hdrtreeRec ∣ bytes.length ∨ hdrtreeRec * hdrtreeMax ≤ bytes.length ∨
      ∀ hdr, ∃ e ∈ HdrTree.loadRecords true hdrtreeMax bytes,
        e.hash = blockHash hdr

namespace HdrTree

variable {blockHash} {t : HdrTree}

theorem offer_of_loaded (ht : t.loaded = true) (o : Offer) :
    t.offer blockHash o =
      (t.addLoaded blockHash o.hdr o.height o.work o.ntx).1 := by
  rw [offer, hdrtreeAddNtx, if_pos ht]

theorem Synced.offers (ht : t.Synced) (offers : List Offer) :
    (offers.foldl (HdrTree.offer blockHash) t).Synced := by
  induction offers generalizing t with
  | nil => exact ht
  | cons o offers ih =>
      rw [List.foldl_cons, offer_of_loaded ht.loaded]
      exact ih (ht.addLoaded o.hdr o.height o.work o.ntx)

/-- A file cut after `n` records and `tail` more bytes, too few for one. -/
theorem split_records (bytes : List UInt8) :
    ∃ whole tail, bytes = whole ++ tail ∧
      whole.length = hdrtreeRec * (bytes.length / hdrtreeRec) ∧
      tail.length = bytes.length % hdrtreeRec := by
  have hle : hdrtreeRec * (bytes.length / hdrtreeRec) ≤ bytes.length :=
    Nat.mul_div_le _ _
  refine ⟨bytes.take (hdrtreeRec * (bytes.length / hdrtreeRec)),
    bytes.drop (hdrtreeRec * (bytes.length / hdrtreeRec)),
    (List.take_append_drop _ _).symm, ?_, ?_⟩
  · rw [List.length_take, Nat.min_eq_left hle]
  · rw [List.length_drop]
    have := Nat.div_add_mod bytes.length hdrtreeRec
    omega

theorem synced_open_whole {bytes : List UInt8} {fileV1 : Option (List UInt8)}
    (hwhole : hdrtreeRec ∣ bytes.length ∨
      hdrtreeRec * hdrtreeMax ≤ bytes.length) :
    (onDisk (some bytes) fileV1).hdrtreeOpen.Synced := by
  refine ⟨rfl, length_loadRecords_le _ _ _, (fun h => by cases h), ?_, ?_⟩
  · intro b h
    cases h
    rfl
  · intro b h hroom
    cases h
    change (loadRecords true hdrtreeMax bytes).length < hdrtreeMax at hroom
    change bytes.length =
      hdrtreeRec * (loadRecords true hdrtreeMax bytes).length
    obtain ⟨whole, tail, hsplit, hlen, htail⟩ := split_records bytes
    have hpos : 0 < hdrtreeRec := by decide
    by_cases hfull : hdrtreeMax ≤ bytes.length / hdrtreeRec
    · -- a full load is excluded by `hroom`
      have hcut : (bytes.take (hdrtreeRec * hdrtreeMax)).length =
          hdrtreeRec * hdrtreeMax := by
        rw [List.length_take, Nat.min_eq_left]
        rw [Nat.mul_comm]
        exact (Nat.le_div_iff_mul_le hpos).mp hfull
      obtain ⟨hcount, hread⟩ := loadRecords_append hdrtreeMax hdrtreeMax
        (bytes.drop (hdrtreeRec * hdrtreeMax)) hcut le_rfl
      rw [List.take_append_drop] at hread
      rw [hread, List.length_append, hcount] at hroom
      omega
    · rcases hwhole with hdvd | hmax
      · obtain ⟨hcount, hread⟩ := loadRecords_append
          (bytes.length / hdrtreeRec) hdrtreeMax tail hlen (by omega)
        have hnil : tail = [] := by
          rw [← List.length_eq_zero_iff, htail]
          exact Nat.mod_eq_zero_of_dvd hdvd
        subst hnil
        rw [← hsplit, loadRecords_nil, List.append_nil] at hread
        rw [hread, hcount, Nat.mul_div_cancel' hdvd]
      · rw [Nat.mul_comm] at hmax
        exact absurd ((Nat.le_div_iff_mul_le hpos).mpr hmax) hfull

theorem synced_open_absent (fileV1 : Option (List UInt8)) :
    (onDisk none fileV1).hdrtreeOpen.Synced := by
  cases fileV1 with
  | some bytes =>
      have hsynced := synced_rewrite
        (t := ⟨loadRecords false hdrtreeMax bytes, true, none, none⟩) rfl
        (length_loadRecords_le _ _ _)
      exact hsynced
  | none =>
      exact ⟨rfl, Nat.zero_le _, fun _ => ⟨rfl, rfl⟩, (fun _ h => by cases h),
        (fun _ h => by cases h)⟩

/-- Where every header is known nothing is appended: the file stays as it was
or is written anew. -/
theorem offers_known {bytes : List UInt8} (ht : t.loaded = true)
    (hfile : t.file = some bytes)
    (hreads : loadRecords true hdrtreeMax bytes = t.entries)
    (hknown : ∀ hdr, ∃ e ∈ t.entries, e.hash = blockHash hdr)
    (offers : List Offer) :
    (offers.foldl (HdrTree.offer blockHash) t).hdrtreeOpen.entries =
      (offers.foldl (HdrTree.offer blockHash) t).entries := by
  have hfound : ∀ hdr, t.find (blockHash hdr) ≠ none := by
    intro hdr hnone
    obtain ⟨e, he, hhash⟩ := hknown hdr
    exact find_none.mp hnone e he hhash
  have hbounded : t.entries.length ≤ hdrtreeMax :=
    hreads ▸ length_loadRecords_le _ _ _
  induction offers with
  | nil => simp [hdrtreeOpen, hfile, hreads]
  | cons o offers ih =>
      rw [List.foldl_cons, offer_of_loaded ht]
      rcases addLoaded_cases blockHash t o.hdr o.height o.work o.ntx with
        ⟨hout, -⟩ | ⟨known, i, -, hout, -⟩ | ⟨v, i, hev, -, -⟩ | ⟨hnone, -⟩
      · rw [hout]
        exact ih
      · rw [hout]
        have hsynced := synced_rewrite (t := { t with
          entries := t.entries.set i (complete o.hdr o.ntx known) }) ht
          (by simpa using hbounded)
        exact (hsynced.offers offers).reopen
      · exact absurd hev.fresh (hfound o.hdr)
      · exact absurd hnone (hfound o.hdr)

/-! ## A torn tail -/

section Torn

variable {whole tail : List UInt8} {n : Nat}

/-- The record read across a torn tail and what was appended behind it. -/
theorem torn_reads (hwhole : whole.length = hdrtreeRec * n) (hn : n < hdrtreeMax)
    (htail : tail.length < hdrtreeRec) (e : Entry) :
    loadRecords true hdrtreeMax ((whole ++ tail) ++ pack e) =
      loadRecords true n whole ++
        [unpack true ((tail ++ pack e).take hdrtreeRec)] := by
  have hlen : (tail ++ pack e).length = tail.length + hdrtreeRec := by
    rw [List.length_append, length_pack]
  have hrec : ((tail ++ pack e).take hdrtreeRec).length = hdrtreeRec := by
    rw [List.length_take, hlen]
    omega
  have hrest : ((tail ++ pack e).drop hdrtreeRec).length < hdrtreeRec := by
    rw [List.length_drop, hlen]
    omega
  obtain ⟨room, hroom⟩ : ∃ r, hdrtreeMax - n = r + 1 :=
    ⟨hdrtreeMax - n - 1, by omega⟩
  have hlast : loadRecords true (room + 1) (tail ++ pack e) =
      [unpack true ((tail ++ pack e).take hdrtreeRec)] := by
    rw [← loadRecords_short room hrest, ← loadRecords_cons room hrec,
      List.take_append_drop]
  rw [List.append_assoc, (loadRecords_append n hdrtreeMax (tail ++ pack e)
    hwhole (by omega)).2, hroom, hlast]

/-- Byte 64 of that record comes from the tail or from the hashes, so it does
not depend on the height of the header added. -/
theorem torn_byte (htail : 0 < tail.length) (hash : Bytes 32) (hdr : Bytes 80)
    (height height' : Int64) (work : BitVec 128) (ntx : UInt32) :
    ((tail ++ pack (fill hash hdr height work ntx)).take hdrtreeRec)[64]? =
      ((tail ++ pack (fill hash hdr height' work ntx)).take hdrtreeRec)[64]? := by
  obtain ⟨hashes, hlen, hpack⟩ : ∃ hashes : List UInt8, hashes.length = 64 ∧
      ∀ h, ∃ rest, pack (fill hash hdr h work ntx) = hashes ++ rest := by
    refine ⟨hash.1 ++ (hdrPrev hdr).1, ?_, fun h => ?_⟩
    · rw [List.length_append, hash.2, (hdrPrev hdr).2]
    · exact ⟨_, (List.append_assoc _ _ _).symm⟩
  obtain ⟨rest, hrest⟩ := hpack height
  obtain ⟨rest', hrest'⟩ := hpack height'
  have hcut : 64 < hdrtreeRec := by decide
  have hin : 64 < (tail ++ hashes).length := by
    rw [List.length_append, hlen]
    omega
  rw [List.getElem?_take_of_lt hcut, List.getElem?_take_of_lt hcut, hrest,
    hrest', ← List.append_assoc, ← List.append_assoc,
    List.getElem?_append_left hin, List.getElem?_append_left hin]

/-- One fresh header, offered at height 0 or at height 1, is not read back. -/
theorem torn_not_exact (hwhole : whole.length = hdrtreeRec * n)
    (hn : n < hdrtreeMax) (hpos : 0 < tail.length)
    (htail : tail.length < hdrtreeRec) (fileV1 : Option (List UInt8))
    {hdr : Bytes 80}
    (hfresh : ∀ e ∈ loadRecords true hdrtreeMax (whole ++ tail),
      e.hash ≠ blockHash hdr) :
    ¬ ReopensExactly blockHash (some (whole ++ tail)) fileV1 := by
  intro hexact
  have hloaded : loadRecords true hdrtreeMax (whole ++ tail) =
      loadRecords true n whole := by
    rw [(loadRecords_append n hdrtreeMax tail hwhole (by omega)).2,
      loadRecords_short _ htail, List.append_nil]
  have hcount : (loadRecords true hdrtreeMax (whole ++ tail)).length = n := by
    rw [hloaded, (loadRecords_append n hdrtreeMax tail hwhole (by omega)).1]
  have hread : ∀ height : Int64,
      unpack true ((tail ++
        pack (fill (blockHash hdr) hdr height 1 0)).take hdrtreeRec) =
        fill (blockHash hdr) hdr height 1 0 := by
    intro height
    have hopen := hexact [⟨hdr, height, 1, 0⟩]
    have hout := addLoaded_append blockHash
      (t := (onDisk (some (whole ++ tail)) fileV1).hdrtreeOpen)
      height 1 0 (find_none.mpr hfresh) (hcount.trans_lt hn)
    rw [List.foldl_cons, List.foldl_nil, offer_of_loaded rfl] at hopen
    dsimp only at hopen
    rw [hout] at hopen
    change loadRecords true hdrtreeMax ((whole ++ tail) ++ pack _) =
      loadRecords true hdrtreeMax (whole ++ tail) ++ [_] at hopen
    rw [torn_reads hwhole hn htail, hloaded] at hopen
    exact List.singleton_injective (List.append_cancel_left hopen)
  have hbyte : ∃ b, ((tail ++
      pack (fill (blockHash hdr) hdr 0 1 0)).take hdrtreeRec)[64]? =
        some b := by
    refine ⟨_, List.getElem?_eq_getElem ?_⟩
    rw [List.length_take, List.length_append, length_pack]
    have : 64 < hdrtreeRec := by decide
    omega
  obtain ⟨b, hb⟩ := hbyte
  have hb' := hb
  rw [torn_byte hpos (blockHash hdr) hdr 0 1 1 0] at hb'
  have h0 := height_of_unpack b hb (hread 0)
  have h1 := height_of_unpack b hb' (hread 1)
  rw [← h1] at h0
  change (0 : Int64).toUInt64.toNat % 256 = (1 : Int64).toUInt64.toNat % 256
    at h0
  exact absurd h0 (by decide)

end Torn

end HdrTree

theorem hdrtreeOpen_exact_iff (file fileV1 : Option (List UInt8)) :
    ReopensExactly blockHash file fileV1 ↔ EndsWhole blockHash file := by
  cases file with
  | none =>
      refine ⟨(fun _ bytes h => by cases h), fun _ offers => ?_⟩
      exact ((HdrTree.synced_open_absent fileV1).offers offers).reopen
  | some bytes =>
      constructor
      · intro hexact b hb
        cases hb
        by_contra hnot
        simp only [not_or, not_forall, not_exists, not_and] at hnot
        obtain ⟨htorn, hroom, hdr, hfresh⟩ := hnot
        obtain ⟨whole, tail, hsplit, hwhole, htail⟩ :=
          HdrTree.split_records bytes
        have hpos : 0 < tail.length := by
          rw [htail]
          exact Nat.pos_of_ne_zero fun h => htorn (Nat.dvd_of_mod_eq_zero h)
        have hshort : tail.length < hdrtreeRec := by
          rw [htail]
          exact Nat.mod_lt _ (by decide)
        have hn : bytes.length / hdrtreeRec < hdrtreeMax := by
          apply Nat.div_lt_of_lt_mul
          omega
        rw [hsplit] at hexact hfresh
        exact HdrTree.torn_not_exact hwhole hn hpos hshort fileV1 hfresh hexact
      · intro hends offers
        rcases hends bytes rfl with hdvd | hfull | hknown
        · exact ((HdrTree.synced_open_whole (Or.inl hdvd)).offers
            offers).reopen
        · exact ((HdrTree.synced_open_whole (Or.inr hfull)).offers
            offers).reopen
        · exact HdrTree.offers_known rfl rfl rfl hknown offers

/-- One stray byte: the first append after a crash is read shifted. -/
theorem torn_file_alters_entry :
    ¬ ∃ blockHash : Bytes 80 → Bytes 32,
      ReopensExactly blockHash (some [0]) none := by
  rintro ⟨blockHash, hexact⟩
  have hempty : HdrTree.loadRecords true hdrtreeMax ([] ++ [0]) = [] :=
    HdrTree.loadRecords_short _ (by decide)
  have hfresh : ∀ e ∈ HdrTree.loadRecords true hdrtreeMax ([] ++ [0]),
      e.hash ≠ blockHash (Bytes.ofList 80 []) := by
    rw [hempty]
    intro e he
    cases he
  exact HdrTree.torn_not_exact (n := 0) rfl (by decide) (by decide) (by decide)
    none hfresh hexact

end BitcoinMachineCode.Chain
