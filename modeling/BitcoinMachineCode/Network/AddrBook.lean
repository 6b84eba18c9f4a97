import BitcoinMachineCode.Foundation.Digits
import BitcoinMachineCode.Foundation.FileBytes
import BitcoinMachineCode.Foundation.KeepFirst

/-!
# The address book

The book of `daemon/addrbook.c`: records of fixed size behind a header with a count, all of
them in memory, and every change written to the file at the record's position in memory.
The hash table over the records is left out; a lookup gives the record it would find.
-/

namespace BitcoinMachineCode.Network

open Foundation

structure BmcAddr where
  net : UInt8
  len : UInt8
  addr : Bytes 32
  port : UInt16
  deriving DecidableEq

/-- What `bmc_addr_equal` compares. -/
def BmcAddr.key (a : BmcAddr) : UInt8 × UInt8 × UInt16 × List UInt8 :=
  (a.net, a.len, a.port, a.addr.1.take a.len.toNat)

def bmcNetIpv4 : UInt8 := 1

/-- IPv4, IPv6, Tor v3, I2P and CJDNS. -/
def bmcNetAddrlen (net : UInt8) : UInt8 :=
  if net = 1 then 4
  else if net = 2 then 16
  else if net = 4 then 32
  else if net = 5 then 32
  else if net = 6 then 16
  else 0

structure Ab2Rec where
  a : BmcAddr
  services : UInt64
  lastSeen : UInt32
  srcGroup : UInt32
  flags : UInt8
  deriving DecidableEq

def Ab2Rec.key (r : Ab2Rec) : UInt8 × UInt8 × UInt16 × List UInt8 := r.a.key

def ab2Max : Nat := 65536

def ab2SrcCap : Nat := ab2Max / 16

def ab2FTried : UInt8 := 1

def ab2Hdr : Nat := 16

def ab2RecSize : Nat := 56

def ab2RecV2 : Nat := 48

def ab2V2TriedHead : Nat := 4096

/-- `BMCADBK3` -/
def ab2Magic : List UInt8 := [0x42, 0x4d, 0x43, 0x41, 0x44, 0x42, 0x4b, 0x33]

/-- `BMCADBK2` -/
def ab2MagicV2 : List UInt8 := [0x42, 0x4d, 0x43, 0x41, 0x44, 0x42, 0x4b, 0x32]

def recPack (r : Ab2Rec) : List UInt8 :=
  [r.a.net, r.a.len] ++ r.a.addr.1 ++ (leBytes 2 r.a.port.toNat).reverse ++
    leBytes 8 r.services.toNat ++ leBytes 4 r.lastSeen.toNat ++ leBytes 4 r.srcGroup.toNat ++
    [r.flags, 0, 0, 0]

/-- None for a corrupt record. -/
def recUnpack (o : List UInt8) : Option Ab2Rec :=
  if bmcNetAddrlen (o.getD 0 0) ≠ o.getD 1 0 then none
  else some {
    a := {
      net := o.getD 0 0
      len := o.getD 1 0
      addr := Bytes.ofList 32 (pread o 2 32)
      port := UInt16.ofNat (beVal (pread o 34 2)) }
    services := UInt64.ofNat (leVal (pread o 36 8))
    lastSeen := UInt32.ofNat (leVal (pread o 44 4))
    srcGroup := UInt32.ofNat (leVal (pread o 48 4))
    flags := o.getD 52 0 }

structure Ab2 where
  file : List UInt8
  recs : List Ab2Rec

def Ab2.n (b : Ab2) : Nat := b.recs.length

def slotOffset (idx : Nat) : Nat := ab2Hdr + idx * ab2RecSize

def ab2Find (b : Ab2) (a : BmcAddr) : Option (Fin b.recs.length) :=
  b.recs.findFinIdx? fun r => decide (r.a.key = a.key)

def writeRec (b : Ab2) (idx : Nat) (r : Ab2Rec) : Ab2 :=
  { file := pwrite b.file (slotOffset idx) (recPack r), recs := b.recs.set idx r }

def writeCount (b : Ab2) : Ab2 := { b with file := pwrite b.file 8 (leBytes 4 b.n) }

def headerOf (count : Nat) : List UInt8 := ab2Magic ++ leBytes 4 count ++ [0, 0, 0, 0]

/-! ## Opening -/

def upgradedRec (i : Nat) (r : Ab2Rec) : Ab2Rec :=
  if r.a.net = bmcNetIpv4 ∧ i < ab2V2TriedHead then { r with flags := r.flags ||| ab2FTried }
  else r

/-- The records of a version-2 file that survive; the tail they lack reads as zero. -/
def recordsV2 (file : List UInt8) : List Ab2Rec :=
  (List.range (min ((file.length - ab2Hdr) / ab2RecV2) ab2Max)).filterMap fun i =>
    (recUnpack (pread file (ab2Hdr + i * ab2RecV2) ab2RecV2 ++
      List.replicate (ab2RecSize - ab2RecV2) 0)).map (upgradedRec i)

def upgradeV2 (file : List UInt8) : List UInt8 :=
  headerOf (recordsV2 file).length ++ (recordsV2 file).flatMap recPack

/-- The smaller of the count in the header and what the size has room for. -/
def slotCount (file : List UInt8) : Nat :=
  min (min (leVal (pread file 8 4)) ((file.length - ab2Hdr) / ab2RecSize)) ab2Max

def slots (file : List UInt8) : List (Option Ab2Rec) :=
  (List.range (slotCount file)).map fun i => recUnpack (pread file (slotOffset i) ab2RecSize)

/-- The file that `load` reads from, upgraded if need be; none when it is not a book. -/
def bookFile (file : List UInt8) : Option (List UInt8) :=
  if file.length < ab2Hdr then none
  else if pread file 0 8 = ab2MagicV2 then some (upgradeV2 file)
  else if pread file 0 8 = ab2Magic then some file
  else none

def load (file : List UInt8) : Option Ab2 :=
  (bookFile file).map fun f => ⟨f, keepFirst Ab2Rec.key [] (slots f)⟩

/-! ## Changing -/

def ab2AppendRec (b : Ab2) (r : Ab2Rec) : Ab2 :=
  { file := pwrite b.file (slotOffset b.n) (recPack r), recs := b.recs ++ [r] }

def ab2CountSrc (b : Ab2) (srcGroup : UInt32) : Nat :=
  b.recs.countP fun r => r.srcGroup = srcGroup

/-- Not seen for a fortnight. -/
def ab2Terrible (r : Ab2Rec) (now : UInt32) : Bool :=
  decide (r.lastSeen + 14 * 24 * 3600 < now)

def tried (r : Ab2Rec) : Bool := decide (r.flags &&& ab2FTried ≠ 0)

/-- The loop of `ab2_victim` from record `k` on. -/
def victimFrom (now : UInt32) : Nat → Option (Nat × Ab2Rec) → List Ab2Rec → Option Nat
  | _, best, [] => best.map Prod.fst
  | k, best, r :: recs =>
      if tried r then victimFrom now (k + 1) best recs
      else
        match best with
        | none => victimFrom now (k + 1) (some (k, r)) recs
        | some (i, held) =>
            if ab2Terrible r now ∧ ¬ ab2Terrible held now then
              victimFrom now (k + 1) (some (k, r)) recs
            else if ab2Terrible r now = ab2Terrible held now ∧ r.lastSeen < held.lastSeen then
              victimFrom now (k + 1) (some (k, r)) recs
            else victimFrom now (k + 1) (some (i, held)) recs

def ab2Victim (b : Ab2) (now : UInt32) : Option Nat := victimFrom now 0 none b.recs

/-- The record with what is newer of an address already in the book. -/
def refreshed (r : Ab2Rec) (services : UInt64) (lastSeen : UInt32) : Ab2Rec :=
  { r with
    lastSeen := if r.lastSeen < lastSeen then lastSeen else r.lastSeen
    services := if services ≠ 0 ∧ services ≠ r.services then services else r.services }

def ab2AddFrom (b : Ab2) (a : BmcAddr) (services : UInt64) (lastSeen srcGroup now : UInt32) :
    Int × Ab2 :=
  if bmcNetAddrlen a.net ≠ a.len then (-1, b)
  else
    match ab2Find b a with
    | some i =>
        if refreshed b.recs[i] services lastSeen = b.recs[i] then (0, b)
        else (0, writeRec b i (refreshed b.recs[i] services lastSeen))
    | none =>
        if srcGroup ≠ 0 ∧ ab2SrcCap ≤ ab2CountSrc b srcGroup then (0, b)
        else if ab2Max ≤ b.n then
          match ab2Victim b now with
          | none => (0, b)
          | some v => (1, writeRec b v ⟨a, services, lastSeen, srcGroup, 0⟩)
        else (1, writeCount (ab2AppendRec b ⟨a, services, lastSeen, srcGroup, 0⟩))

def ab2MarkTried (b : Ab2) (a : BmcAddr) : Int × Ab2 :=
  match ab2Find b a with
  | none => (0, b)
  | some i =>
      if tried b.recs[i] then (1, b)
      else (1, writeRec b i { b.recs[i] with flags := b.recs[i].flags ||| ab2FTried })

/-! ## The legacy book -/

def legacyAddr (r : List UInt8) : BmcAddr where
  net := bmcNetIpv4
  len := 4
  addr := Bytes.ofList 32 (pread r 0 4)
  port := UInt16.ofNat (beVal (pread r 4 2))

/-- One record of `peers.dat`: those once connected to are marked so. -/
def migrateOne (routable : BmcAddr → Bool) (now : UInt32) (b : Ab2) (r : List UInt8) : Ab2 :=
  if ¬ routable (legacyAddr r) then b
  else
    let added := ab2AddFrom b (legacyAddr r) (UInt64.ofNat (leVal (pread r 6 8)))
      (UInt32.ofNat (leVal (pread r 14 4))) 0 now
    if 0 < added.1 then (ab2MarkTried added.2 (legacyAddr r)).2 else added.2

def legacyRecords (legacy : List UInt8) : List (List UInt8) :=
  (List.range (legacy.length / 18)).map fun i => pread legacy (i * 18) 18

def ab2MigrateLegacy (routable : BmcAddr → Bool) (now : UInt32) (b : Ab2) (legacy : List UInt8) :
    Ab2 :=
  (legacyRecords legacy).foldl (migrateOne routable now) b

/-- For writing: a file that is not a book is moved aside and a new one started, as if
there had been none. -/
def ab2Open (routable : BmcAddr → Bool) (legacy : List UInt8) (now : UInt32)
    (file : List UInt8) : Ab2 :=
  match load file with
  | some b => b
  | none => ab2MigrateLegacy routable now ⟨headerOf 0, []⟩ legacy

inductive BookCall where
  | addFrom (a : BmcAddr) (services : UInt64) (lastSeen srcGroup now : UInt32)
  | markTried (a : BmcAddr)

def Ab2.call (b : Ab2) : BookCall → Ab2
  | .addFrom a services lastSeen srcGroup now =>
      (ab2AddFrom b a services lastSeen srcGroup now).2
  | .markTried a => (ab2MarkTried b a).2

def Ab2.calls (b : Ab2) (cs : List BookCall) : Ab2 := cs.foldl Ab2.call b

/-! ## Records in bytes -/

@[simp] theorem length_recPack (r : Ab2Rec) : (recPack r).length = 56 := by
  simp [recPack, r.a.addr.2]

theorem recUnpack_recPack (r : Ab2Rec) (h : bmcNetAddrlen r.a.net = r.a.len) :
    recUnpack (recPack r) = some r := by
  have haddr := r.a.addr.2
  have h0 : (recPack r).getD 0 0 = r.a.net := by simp [recPack]
  have h1 : (recPack r).getD 1 0 = r.a.len := by simp [recPack]
  have h52 : (recPack r).getD 52 0 = r.flags := by
    unfold recPack
    rw [List.getD_eq_getElem?_getD, List.getElem?_append_right (by simp [haddr])]
    simp [haddr]
  have hbytes : pread (recPack r) 2 32 = r.a.addr.1 := by
    simp only [recPack, List.append_assoc]
    exact pread_append rfl haddr
  have hport : pread (recPack r) 34 2 = (leBytes 2 r.a.port.toNat).reverse := by
    simp only [recPack, List.append_assoc]
    rw [← List.append_assoc]
    exact pread_append (by simp [haddr]) (by simp)
  have hservices : pread (recPack r) 36 8 = leBytes 8 r.services.toNat := by
    simp only [recPack, List.append_assoc]
    rw [← List.append_assoc, ← List.append_assoc]
    exact pread_append (by simp [haddr]) (by simp)
  have hseen : pread (recPack r) 44 4 = leBytes 4 r.lastSeen.toNat := by
    simp only [recPack, List.append_assoc]
    rw [← List.append_assoc, ← List.append_assoc, ← List.append_assoc]
    exact pread_append (by simp [haddr]) (by simp)
  have hsrc : pread (recPack r) 48 4 = leBytes 4 r.srcGroup.toNat := by
    simp only [recPack, List.append_assoc]
    rw [← List.append_assoc, ← List.append_assoc, ← List.append_assoc, ← List.append_assoc]
    exact pread_append (by simp [haddr]) (by simp)
  unfold recUnpack
  rw [h0, h1, h52, hbytes, hport, hservices, hseen, hsrc, if_neg (not_not.mpr h), beVal_reverse]
  simp only [leVal_leBytes, Bytes.ofList_val]
  have h16 : UInt16.ofNat (r.a.port.toNat % 256 ^ 2) = r.a.port := by
    have hp : r.a.port.toNat < 256 ^ 2 := r.a.port.toNat_lt
    rw [Nat.mod_eq_of_lt hp, UInt16.ofNat_toNat]
  have h64 : UInt64.ofNat (r.services.toNat % 256 ^ 8) = r.services := by
    have hs : r.services.toNat < 256 ^ 8 := r.services.toNat_lt
    rw [Nat.mod_eq_of_lt hs, UInt64.ofNat_toNat]
  have h32 : ∀ x : UInt32, UInt32.ofNat (x.toNat % 256 ^ 4) = x := fun x => by
    have hx : x.toNat < 256 ^ 4 := x.toNat_lt
    rw [Nat.mod_eq_of_lt hx, UInt32.ofNat_toNat]
  rw [h16, h64, h32, h32]

theorem valid_of_recUnpack {o : List UInt8} {r : Ab2Rec} (h : recUnpack o = some r) :
    bmcNetAddrlen r.a.net = r.a.len := by
  unfold recUnpack at h
  split_ifs at h with hlen
  obtain rfl := Option.some_injective _ h
  exact not_not.mp hlen

/-! ## Writing to a slot -/

theorem slotOffset_le {file : List UInt8} {i : Nat} (hsize : ab2Hdr ≤ file.length)
    (hi : i ≤ slotCount file) : slotOffset i ≤ file.length := by
  have hdiv : slotCount file ≤ (file.length - ab2Hdr) / ab2RecSize :=
    (min_le_left _ _).trans (min_le_right _ _)
  simp only [slotOffset, ab2Hdr, ab2RecSize] at *
  omega

@[simp] theorem length_slots (file : List UInt8) : (slots file).length = slotCount file := by
  simp [slots]

theorem getElem?_slots {file : List UInt8} {i : Nat} (hi : i < slotCount file) :
    (slots file)[i]? = some (recUnpack (pread file (slotOffset i) ab2RecSize)) := by
  simp [slots, hi]

/-- A slot other than the one written reads as before. -/
theorem pread_slot_ne {file : List UInt8} {i j : Nat} (r : Ab2Rec) (hij : i ≠ j)
    (hi : slotOffset i ≤ file.length) :
    pread (pwrite file (slotOffset i) (recPack r)) (slotOffset j) ab2RecSize =
      pread file (slotOffset j) ab2RecSize := by
  rcases Nat.lt_or_gt_of_ne hij with h | h
  · apply pread_pwrite_after hi
    simp only [slotOffset, ab2Hdr, ab2RecSize, length_recPack]
    omega
  · apply pread_pwrite_before hi
    simp only [slotOffset, ab2Hdr, ab2RecSize]
    omega

theorem pread_slot_same {file : List UInt8} {i : Nat} (r : Ab2Rec)
    (hi : slotOffset i ≤ file.length) :
    pread (pwrite file (slotOffset i) (recPack r)) (slotOffset i) ab2RecSize = recPack r := by
  have hsame : pread (pwrite file (slotOffset i) (recPack r)) (slotOffset i)
      (recPack r).length = recPack r := pread_pwrite_same hi
  rwa [length_recPack] at hsame

/-- The header is in front of every slot. -/
theorem pread_header {file : List UInt8} {i off len : Nat} (r : Ab2Rec)
    (hi : slotOffset i ≤ file.length) (h : off + len ≤ ab2Hdr) :
    pread (pwrite file (slotOffset i) (recPack r)) off len = pread file off len := by
  apply pread_pwrite_before hi
  unfold slotOffset
  omega

theorem slots_write {file : List UInt8} {i : Nat} (r : Ab2Rec) (hsize : ab2Hdr ≤ file.length)
    (hi : i < slotCount file) :
    slots (pwrite file (slotOffset i) (recPack r)) =
      (slots file).set i (recUnpack (recPack r)) := by
  have hoff := slotOffset_le hsize hi.le
  have hend := slotOffset_le hsize (Nat.succ_le_of_lt hi)
  have hlen : (pwrite file (slotOffset i) (recPack r)).length = file.length := by
    rw [length_pwrite hoff, length_recPack]
    simp only [slotOffset, ab2RecSize] at hend ⊢
    omega
  have hcount : slotCount (pwrite file (slotOffset i) (recPack r)) = slotCount file := by
    unfold slotCount
    rw [hlen, pread_header r hoff (by decide)]
  apply List.ext_getElem?
  intro j
  by_cases hj : j < slotCount file
  · rw [getElem?_slots (hcount ▸ hj)]
    by_cases hij : i = j
    · subst hij
      rw [pread_slot_same r hoff, List.getElem?_set_self (by simpa using hi)]
    · rw [pread_slot_ne r hij hoff, List.getElem?_set_ne hij, getElem?_slots hj]
  · rw [List.getElem?_eq_none (by simpa [hcount] using hj),
      List.getElem?_eq_none (by simpa using hj)]

/-- The file after a record was put at `m` and the count set to what is then there. -/
theorem slots_append {file : List UInt8} {m : Nat} (r : Ab2Rec) (hsize : ab2Hdr ≤ file.length)
    (hm : m ≤ slotCount file) (hmax : m < ab2Max) :
    slots (pwrite (pwrite file (slotOffset m) (recPack r)) 8 (leBytes 4 (m + 1))) =
      (slots file).take m ++ [recUnpack (recPack r)] := by
  have hoff := slotOffset_le hsize hm
  have hlong : slotOffset m + 56 ≤ (pwrite file (slotOffset m) (recPack r)).length := by
    rw [length_pwrite hoff, length_recPack]
    exact le_max_right _ _
  have h8 : 8 ≤ (pwrite file (slotOffset m) (recPack r)).length := by
    have hhdr : ab2Hdr ≤ slotOffset m := Nat.le_add_right _ _
    simp only [ab2Hdr] at hhdr
    omega
  have hcount : slotCount (pwrite (pwrite file (slotOffset m) (recPack r)) 8
      (leBytes 4 (m + 1))) = m + 1 := by
    have hread : pread (pwrite (pwrite file (slotOffset m) (recPack r)) 8 (leBytes 4 (m + 1))) 8
        (leBytes 4 (m + 1)).length = leBytes 4 (m + 1) := pread_pwrite_same h8
    rw [length_leBytes] at hread
    unfold slotCount
    rw [hread, leVal_leBytes, length_pwrite h8, length_leBytes]
    simp only [slotOffset, ab2Hdr, ab2RecSize, ab2Max] at *
    omega
  have hslot : ∀ j, pread (pwrite (pwrite file (slotOffset m) (recPack r)) 8
      (leBytes 4 (m + 1))) (slotOffset j) ab2RecSize =
      pread (pwrite file (slotOffset m) (recPack r)) (slotOffset j) ab2RecSize := fun j => by
    apply pread_pwrite_after h8
    simp only [slotOffset, ab2Hdr, length_leBytes]
    omega
  have htake : ((slots file).take m).length = m := by simpa using hm
  apply List.ext_getElem?
  intro j
  rcases Nat.lt_trichotomy j m with hj | rfl | hj
  · rw [getElem?_slots (by omega), hslot, pread_slot_ne r hj.ne' hoff,
      List.getElem?_append_left (by omega), List.getElem?_take_of_lt hj,
      getElem?_slots (by omega)]
  · rw [getElem?_slots (by omega), hslot, pread_slot_same r hoff,
      List.getElem?_append_right (by omega), htake]
    simp
  · rw [List.getElem?_eq_none (by simp [hcount]; omega),
      List.getElem?_eq_none (by simp; omega)]

/-! ## Memory and file in step -/

/-- The records in memory are the first slots, and no further slot would be kept. -/
structure Aligned (b : Ab2) : Prop where
  size : ab2Hdr ≤ b.file.length
  magic : pread b.file 0 8 = ab2Magic
  nodup : (b.recs.map Ab2Rec.key).Nodup
  split : ∃ rest, slots b.file = b.recs.map some ++ rest ∧
    ∀ r, some r ∈ rest → Ab2Rec.key r ∈ b.recs.map Ab2Rec.key

theorem Aligned.n_le {b : Ab2} (h : Aligned b) : b.n ≤ slotCount b.file := by
  obtain ⟨rest, hsplit, -⟩ := h.split
  have := congrArg List.length hsplit
  simp only [length_slots, List.length_append, List.length_map] at this
  simp only [Ab2.n]
  omega

theorem load_eq {file : List UInt8} (hsize : ab2Hdr ≤ file.length)
    (hmagic : pread file 0 8 = ab2Magic) :
    load file = some ⟨file, keepFirst Ab2Rec.key [] (slots file)⟩ := by
  have hbook : bookFile file = some file := by
    unfold bookFile
    rw [if_neg (not_lt.mpr hsize), hmagic, if_neg (by decide), if_pos rfl]
  unfold load
  rw [hbook, Option.map_some]

theorem Aligned.load {b : Ab2} (h : Aligned b) : load b.file = some b := by
  obtain ⟨rest, hsplit, hrest⟩ := h.split
  rw [load_eq h.size h.magic, hsplit, keepFirst_append,
    keepFirst_map_some (by simpa using h.nodup), List.nil_append,
    keepFirst_eq_self_iff.mpr hrest]

theorem aligned_of_tidy {file : List UInt8} (hsize : ab2Hdr ≤ file.length)
    (hmagic : pread file 0 8 = ab2Magic) (h : Tidy Ab2Rec.key (slots file)) :
    Aligned ⟨file, keepFirst Ab2Rec.key [] (slots file)⟩ := by
  have htake := h.take_kept
  refine ⟨hsize, hmagic, nodup_keepFirst _ (by simp),
    (slots file).drop (keepFirst Ab2Rec.key [] (slots file)).length, ?_, fun r hr => ?_⟩
  · rw [← htake, List.take_append_drop]
  · exact mem_keys_keepFirst.mpr (.inr ⟨r, List.mem_of_mem_drop hr, rfl⟩)

theorem Aligned.write {b : Ab2} (h : Aligned b) {i : Nat} {r : Ab2Rec} (hi : i < b.n)
    (hvalid : bmcNetAddrlen r.a.net = r.a.len)
    (hkey : ((b.recs.set i r).map Ab2Rec.key).Nodup)
    (hrest : (b.recs.set i r).map Ab2Rec.key = b.recs.map Ab2Rec.key ∨ ab2Max ≤ b.n) :
    Aligned (writeRec b i r) := by
  obtain ⟨rest, hsplit, hskip⟩ := h.split
  have hslot : i < slotCount b.file := hi.trans_le h.n_le
  have hoff := slotOffset_le h.size hslot.le
  refine ⟨?_, ?_, hkey, rest, ?_, fun q hq => ?_⟩
  · rw [writeRec, length_pwrite hoff]
    exact h.size.trans (le_max_left _ _)
  · rw [writeRec, pread_header r hoff (by decide)]
    exact h.magic
  · rw [writeRec, slots_write r h.size hslot, hsplit, recUnpack_recPack r hvalid,
      List.set_append_left _ _ (by rw [List.length_map]; exact hi), List.map_set]
  · rcases hrest with hsame | hfull
    · rw [writeRec, hsame]
      exact hskip q hq
    · -- a full book has no further slots
      have hlen := congrArg List.length hsplit
      have hmax : slotCount b.file ≤ ab2Max := min_le_right _ _
      have hpos := List.length_pos_of_mem hq
      simp only [length_slots, List.length_append, List.length_map, Ab2.n] at hlen hfull
      omega

theorem header_append {b : Ab2} (r : Ab2Rec) (hsize : ab2Hdr ≤ b.file.length)
    (hmagic : pread b.file 0 8 = ab2Magic) (hn : b.n ≤ slotCount b.file) :
    ab2Hdr ≤ (writeCount (ab2AppendRec b r)).file.length ∧
      pread (writeCount (ab2AppendRec b r)).file 0 8 = ab2Magic := by
  have hoff := slotOffset_le hsize hn
  have hlen : ab2Hdr ≤ (pwrite b.file (slotOffset b.n) (recPack r)).length := by
    rw [length_pwrite hoff]
    exact hsize.trans (le_max_left _ _)
  have h8 : 8 ≤ (pwrite b.file (slotOffset b.n) (recPack r)).length := by
    simp only [ab2Hdr] at hlen
    omega
  simp only [writeCount, ab2AppendRec]
  constructor
  · rw [length_pwrite h8]
    exact hlen.trans (le_max_left _ _)
  · rw [pread_pwrite_before h8 (by omega), pread_header r hoff (by decide)]
    exact hmagic

theorem slots_appendRec {b : Ab2} (r : Ab2Rec) (hsize : ab2Hdr ≤ b.file.length)
    (hn : b.n ≤ slotCount b.file) (hmax : b.n < ab2Max)
    (hvalid : bmcNetAddrlen r.a.net = r.a.len) :
    slots (writeCount (ab2AppendRec b r)).file = (slots b.file).take b.n ++ [some r] := by
  have hcount : (ab2AppendRec b r).n = b.n + 1 := by simp [ab2AppendRec, Ab2.n]
  simp only [writeCount]
  rw [hcount, ab2AppendRec, slots_append r hsize hn hmax, recUnpack_recPack r hvalid]

theorem nodup_append_key {recs : List Ab2Rec} {r : Ab2Rec} (h : (recs.map Ab2Rec.key).Nodup)
    (hr : r.key ∉ recs.map Ab2Rec.key) : ((recs ++ [r]).map Ab2Rec.key).Nodup := by
  rw [List.map_append, List.map_singleton, List.nodup_append]
  refine ⟨h, by simp, fun k hk k' hk' heq => hr ?_⟩
  obtain rfl := List.mem_singleton.mp hk'
  exact heq ▸ hk

theorem Aligned.append {b : Ab2} (h : Aligned b) {r : Ab2Rec} (hmax : b.n < ab2Max)
    (hvalid : bmcNetAddrlen r.a.net = r.a.len) (hnew : r.key ∉ b.recs.map Ab2Rec.key) :
    Aligned (writeCount (ab2AppendRec b r)) := by
  obtain ⟨rest, hsplit, -⟩ := h.split
  obtain ⟨hsize, hmagic⟩ := header_append r h.size h.magic h.n_le
  refine ⟨hsize, hmagic, nodup_append_key h.nodup hnew, [], ?_, by simp⟩
  rw [slots_appendRec r h.size h.n_le hmax hvalid, hsplit, List.take_left' (by simp [Ab2.n])]
  simp [writeCount, ab2AppendRec]

theorem Aligned.valid {b : Ab2} (h : Aligned b) {r : Ab2Rec} (hr : r ∈ b.recs) :
    bmcNetAddrlen r.a.net = r.a.len := by
  obtain ⟨rest, hsplit, -⟩ := h.split
  have hmem : some r ∈ slots b.file := by
    rw [hsplit]
    exact List.mem_append_left _ (List.mem_map_of_mem hr)
  obtain ⟨i, -, hi⟩ := List.mem_map.mp hmem
  exact valid_of_recUnpack hi

theorem ab2Find_eq_none {b : Ab2} {a : BmcAddr} (h : ab2Find b a = none) :
    a.key ∉ b.recs.map Ab2Rec.key := by
  intro hmem
  obtain ⟨r, hr, hkey⟩ := List.mem_map.mp hmem
  have := List.findFinIdx?_eq_none_iff.mp h r hr
  exact this (decide_eq_true hkey)

/-- A record changed in place keeps its address. -/
theorem Aligned.update {b : Ab2} (h : Aligned b) (i : Fin b.recs.length) {r : Ab2Rec}
    (ha : r.a = (b.recs.get i).a) : Aligned (writeRec b i r) := by
  have hkeys : (b.recs.set i r).map Ab2Rec.key = b.recs.map Ab2Rec.key := by
    apply List.ext_getElem?
    intro j
    by_cases hij : i.1 = j
    · subst hij
      simp [Ab2Rec.key, ha]
    · rw [List.map_set, List.getElem?_set_ne hij]
  refine h.write i.2 ?_ (hkeys ▸ h.nodup) (.inl hkeys)
  rw [ha]
  exact h.valid (List.getElem_mem i.2)

theorem victimFrom_lt {now : UInt32} {recs : List Ab2Rec} {k v : Nat}
    {best : Option (Nat × Ab2Rec)} (hbest : ∀ p ∈ best, p.1 < k + recs.length)
    (h : victimFrom now k best recs = some v) : v < k + recs.length := by
  induction recs generalizing k best with
  | nil =>
      obtain ⟨p, hp, rfl⟩ := Option.map_eq_some_iff.mp h
      exact hbest p hp
  | cons r recs ih =>
      have hlen : k + 1 + recs.length = k + (r :: recs).length := by
        simp only [List.length_cons]
        omega
      have hkeep : ∀ p ∈ best, p.1 < k + 1 + recs.length := hlen ▸ hbest
      have hhere : ∀ p ∈ some (k, r), p.1 < k + 1 + recs.length := by
        rintro p hp
        obtain rfl := Option.mem_some_iff.mp hp
        dsimp only
        omega
      unfold victimFrom at h
      rw [← hlen]
      split_ifs at h
      · exact ih hkeep h
      · split at h
        · exact ih hhere h
        · split_ifs at h
          · exact ih hhere h
          · exact ih hhere h
          · exact ih hkeep h

theorem nodup_set_key {recs : List Ab2Rec} {v : Nat} {r : Ab2Rec}
    (h : (recs.map Ab2Rec.key).Nodup) (hr : r.key ∉ recs.map Ab2Rec.key) :
    ((recs.set v r).map Ab2Rec.key).Nodup := by
  rw [List.map_set]
  exact h.set hr

theorem Aligned.addFrom {b : Ab2} (h : Aligned b) (a : BmcAddr) (services : UInt64)
    (lastSeen srcGroup now : UInt32) :
    Aligned (ab2AddFrom b a services lastSeen srcGroup now).2 := by
  unfold ab2AddFrom
  by_cases hlen : bmcNetAddrlen a.net ≠ a.len
  · rw [if_pos hlen]
    exact h
  rw [if_neg hlen]
  split
  next i hfound =>
    split_ifs
    · exact h
    · exact h.update i rfl
  next hnone =>
    have hnew : a.key ∉ b.recs.map Ab2Rec.key := ab2Find_eq_none hnone
    by_cases hcap : srcGroup ≠ 0 ∧ ab2SrcCap ≤ ab2CountSrc b srcGroup
    · rw [if_pos hcap]
      exact h
    rw [if_neg hcap]
    by_cases hfull : ab2Max ≤ b.n
    · rw [if_pos hfull]
      split
      · exact h
      next v hv =>
        have hlt : v < b.n := by simpa [Ab2.n] using victimFrom_lt (by simp) hv
        exact h.write hlt (not_not.mp hlen) (nodup_set_key h.nodup hnew) (.inr hfull)
    · rw [if_neg hfull]
      exact h.append (not_le.mp hfull) (not_not.mp hlen) hnew

theorem Aligned.markTried {b : Ab2} (h : Aligned b) (a : BmcAddr) :
    Aligned (ab2MarkTried b a).2 := by
  unfold ab2MarkTried
  split
  · exact h
  next i hfound =>
    split_ifs
    · exact h
    · exact h.update i rfl

theorem Aligned.call {b : Ab2} (h : Aligned b) (c : BookCall) : Aligned (b.call c) := by
  cases c with
  | addFrom a services lastSeen srcGroup now => exact h.addFrom a services lastSeen srcGroup now
  | markTried a => exact h.markTried a

theorem Aligned.calls {b : Ab2} (h : Aligned b) (cs : List BookCall) : Aligned (b.calls cs) := by
  induction cs generalizing b with
  | nil => exact h
  | cons c cs ih => exact ih (h.call c)

theorem aligned_empty : Aligned ⟨headerOf 0, []⟩ :=
  ⟨by decide, by decide, by simp, [], by decide, by simp⟩

theorem Aligned.migrateLegacy {b : Ab2} (h : Aligned b) (routable : BmcAddr → Bool) (now : UInt32)
    (legacy : List UInt8) : Aligned (ab2MigrateLegacy routable now b legacy) := by
  unfold ab2MigrateLegacy
  generalize legacyRecords legacy = rs
  induction rs generalizing b with
  | nil => exact h
  | cons r rs ih =>
      refine ih ?_
      unfold migrateOne
      dsimp only
      by_cases hroutable : ¬ routable (legacyAddr r)
      · rw [if_pos hroutable]
        exact h
      · rw [if_neg hroutable]
        split_ifs
        · exact (h.addFrom _ _ _ _ _).markTried _
        · exact h.addFrom _ _ _ _ _

theorem bookFile_spec {file f : List UInt8} (h : bookFile file = some f) :
    ab2Hdr ≤ f.length ∧ pread f 0 8 = ab2Magic := by
  unfold bookFile at h
  split_ifs at h with hsize hv2 hv3
  · obtain rfl := Option.some_injective _ h
    constructor
    · simp [upgradeV2, headerOf, ab2Hdr, ab2Magic]
      omega
    · simp [upgradeV2, headerOf, pread, ab2Magic]
  · obtain rfl := Option.some_injective _ h
    exact ⟨not_lt.mp hsize, hv3⟩

theorem aligned_open {file : List UInt8} (routable : BmcAddr → Bool) (legacy : List UInt8)
    (now : UInt32) (h : ∀ f, bookFile file = some f → Tidy Ab2Rec.key (slots f)) :
    Aligned (ab2Open routable legacy now file) := by
  unfold ab2Open load
  cases hfile : bookFile file with
  | none => exact aligned_empty.migrateLegacy routable now legacy
  | some f =>
      obtain ⟨hsize, hmagic⟩ := bookFile_spec hfile
      exact aligned_of_tidy hsize hmagic (h f hfile)

/-! ## A skipped record in front of a kept one -/

def ipv4At (port : UInt16) : BmcAddr := ⟨bmcNetIpv4, 4, ⟨1 :: List.replicate 31 0, rfl⟩, port⟩

/-- Some address is not in a book that is not full. -/
theorem exists_fresh {recs : List Ab2Rec} (h : recs.length < ab2Max) :
    ∃ port, (ipv4At port).key ∉ recs.map Ab2Rec.key := by
  have hinj : Set.InjOn (fun n => (ipv4At (UInt16.ofNat n)).key) (Finset.range ab2Max) := by
    intro x hx y hy heq
    have hport := congrArg (fun k => k.2.2.1.toNat) heq
    simp only [Finset.coe_range, Set.mem_Iio, ab2Max] at hx hy
    simpa [BmcAddr.key, ipv4At, Nat.mod_eq_of_lt hx, Nat.mod_eq_of_lt hy] using hport
  have hcard : (recs.map Ab2Rec.key).toFinset.card <
      ((Finset.range ab2Max).image fun n => (ipv4At (UInt16.ofNat n)).key).card := by
    rw [Finset.card_image_of_injOn hinj, Finset.card_range]
    exact (List.toFinset_card_le _).trans_lt (by simpa using h)
  obtain ⟨k, hk, hnot⟩ := Finset.exists_mem_notMem_of_card_lt_card hcard
  obtain ⟨n, -, rfl⟩ := Finset.mem_image.mp hk
  exact ⟨_, by simpa using hnot⟩

theorem addFrom_fresh {b : Ab2} {a : BmcAddr} (hvalid : bmcNetAddrlen a.net = a.len)
    (hnew : a.key ∉ b.recs.map Ab2Rec.key) (hmax : b.n < ab2Max) :
    (ab2AddFrom b a 0 0 0 0).2 = writeCount (ab2AppendRec b ⟨a, 0, 0, 0, 0⟩) := by
  have hnone : ab2Find b a = none := by
    apply List.findFinIdx?_eq_none_iff.mpr
    intro r hr hkey
    exact hnew (List.mem_map.mpr ⟨r, hr, of_decide_eq_true hkey⟩)
  unfold ab2AddFrom
  rw [if_neg (not_not.mpr hvalid), hnone]
  simp [not_le.mpr hmax]

/-- Adding an address to such a book loses a record: it is written over a slot that is kept,
and the count is cut down. -/
theorem exists_lost {f : List UInt8} (hsize : ab2Hdr ≤ f.length)
    (hmagic : pread f 0 8 = ab2Magic) (h : ¬ Tidy Ab2Rec.key (slots f)) :
    ∃ c b', load ((Ab2.mk f (keepFirst Ab2Rec.key [] (slots f))).call c).file = some b' ∧
      ¬ ((Ab2.mk f (keepFirst Ab2Rec.key [] (slots f))).call c).recs ⊆ b'.recs := by
  have hlost := length_keepFirst_take_lt h
  generalize hb : Ab2.mk f (keepFirst Ab2Rec.key [] (slots f)) = b
  have hrecs : keepFirst Ab2Rec.key [] (slots f) = b.recs := by rw [← hb]
  have hfile : b.file = f := by rw [← hb]
  have hnodup : (b.recs.map Ab2Rec.key).Nodup := hrecs ▸ nodup_keepFirst _ (by simp)
  rw [hrecs] at hlost
  have hn : b.n < slotCount b.file := by
    refine not_le.mp fun hle => ?_
    rw [List.take_of_length_le (by rw [length_slots, ← hfile]; exact hle), hrecs] at hlost
    exact hlost.false
  have hmax : b.n < ab2Max := hn.trans_le (min_le_right _ _)
  obtain ⟨port, hport⟩ := exists_fresh hmax
  have hcall := addFrom_fresh (b := b) (a := ipv4At port) rfl hport hmax
  obtain ⟨hsize', hmagic'⟩ :=
    header_append ⟨ipv4At port, 0, 0, 0, 0⟩ (hfile ▸ hsize) (hfile ▸ hmagic) hn.le
  have hslots := slots_appendRec ⟨ipv4At port, 0, 0, 0, 0⟩ (hfile ▸ hsize) hn.le hmax rfl
  have hload := load_eq hsize' hmagic'
  rw [← hcall] at hload
  refine ⟨.addFrom (ipv4At port) 0 0 0 0, _, hload, fun hsub => ?_⟩
  rw [Ab2.call, hcall] at hsub
  have hkeys : ((b.recs ++ [Ab2Rec.mk (ipv4At port) 0 0 0 0]).map Ab2Rec.key).Nodup :=
    nodup_append_key hnodup hport
  have hlen := (List.subperm_of_subset (List.Nodup.of_map _ hkeys) hsub).length_le
  simp only [hslots, keepFirst_append] at hlen
  obtain ⟨more, hmore, hone⟩ : ∃ more, keepFirst Ab2Rec.key
      (keepFirst Ab2Rec.key [] ((slots b.file).take b.n)) [some ⟨ipv4At port, 0, 0, 0, 0⟩] =
      _ ++ more ∧ more.length ≤ 1 := keepFirst_spec _ _
  rw [hmore, List.length_append, List.length_append] at hlen
  rw [← hfile] at hlost
  simp only [List.length_singleton, Ab2.n] at hlen hlost
  omega

theorem reopen_same_iff (routable : BmcAddr → Bool) (legacy legacy' : List UInt8)
    (now now' : UInt32) (file : List UInt8) :
    (∀ cs : List BookCall, ∀ r : Ab2Rec,
      r ∈ (ab2Open routable legacy' now'
        ((ab2Open routable legacy now file).calls cs).file).recs ↔
        r ∈ ((ab2Open routable legacy now file).calls cs).recs) ↔
      ∀ f, bookFile file = some f → Tidy Ab2Rec.key (slots f) := by
  constructor
  · intro hsame f hf
    by_contra hbad
    obtain ⟨hsize, hmagic⟩ := bookFile_spec hf
    obtain ⟨c, b', hload, hlost⟩ := exists_lost hsize hmagic hbad
    have hopen : ab2Open routable legacy now file =
        ⟨f, keepFirst Ab2Rec.key [] (slots f)⟩ := by
      simp [ab2Open, load, hf]
    apply hlost
    intro r hr
    have hmem := (hsame [c] r).mpr (by rw [hopen]; exact hr)
    rw [hopen, Ab2.calls, List.foldl_cons, List.foldl_nil, ab2Open, hload] at hmem
    exact hmem
  · intro htidy cs r
    have haligned := (aligned_open routable legacy now htidy).calls cs
    have hreopen : ab2Open routable legacy' now'
        ((ab2Open routable legacy now file).calls cs).file =
        (ab2Open routable legacy now file).calls cs := by
      rw [ab2Open, haligned.load]
    rw [hreopen]

/-- One corrupt record in front of a good one. -/
def shiftedFile : List UInt8 :=
  headerOf 2 ++ 1 :: List.replicate 55 0 ++ recPack ⟨ipv4At 8333, 1, 7, 0, 1⟩

/-- A new address, from the address of the good record's host and another port. -/
def shiftedCall : BookCall := .addFrom (ipv4At 8334) 1 7 0 7

theorem reopen_loses_record :
    ¬ ∀ cs : List BookCall, ∀ r : Ab2Rec,
      r ∈ (ab2Open (fun _ => true) [] 7
        ((ab2Open (fun _ => true) [] 7 shiftedFile).calls cs).file).recs ↔
        r ∈ ((ab2Open (fun _ => true) [] 7 shiftedFile).calls cs).recs := by
  intro hsame
  have hmem : Ab2Rec.mk (ipv4At 8333) 1 7 0 1 ∈
      ((ab2Open (fun _ => true) [] 7 shiftedFile).calls [shiftedCall]).recs := by
    decide +kernel
  have hlost : Ab2Rec.mk (ipv4At 8333) 1 7 0 1 ∉
      (ab2Open (fun _ => true) [] 7
        ((ab2Open (fun _ => true) [] 7 shiftedFile).calls [shiftedCall]).file).recs := by
    decide +kernel
  exact hlost ((hsame _ _).mpr hmem)

end BitcoinMachineCode.Network
