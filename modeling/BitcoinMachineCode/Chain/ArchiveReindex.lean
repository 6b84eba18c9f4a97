import BitcoinMachineCode.Chain.ArchiveScan
import BitcoinMachineCode.Chain.Chainwork
import BitcoinMachineCode.Foundation.Forest
import BitcoinMachineCode.Foundation.Probing

/-!
# Rebuilding the index of the block files

`archive_reindex` of `daemon/archive_reindex.c`: the frames that the scan of the block files
comes to are gathered in an array, copies of one block are brought together in place, the blocks
are linked by their previous hashes, and the chain from genesis with the most work becomes the
index.  The map of hashes is a table of open addressing over the array.  Failures of the file
system and of allocations, the counts for the log and the renaming of the three files are left
out.
-/

namespace BitcoinMachineCode.Chain.Reindex

open Foundation Consensus

/-! ## The frames of all files -/

structure RxEnt where
  hash : List UInt8
  prev : List UInt8
  bits : UInt32
  file : Nat
  pos : Nat
  size : Nat
  deriving DecidableEq

/-- The bytes of a compact target, none where it is invalid. -/
def rxTarget (bits : UInt32) : Option (List UInt8) :=
  let exp := (bits >>> 24).toNat
  let mant := (bits &&& 0x007fffff).toNat
  if bits &&& 0x00800000 ≠ 0 ∨ mant = 0 ∨ 34 < exp then none
  else if exp ≤ 3 then some (leBytes 3 (mant >>> (8 * (3 - exp))) ++ List.replicate 29 0)
  else if 32 < exp - 3 + 3 then none
  else some (List.replicate (exp - 3) 0 ++ leBytes 3 mant ++ List.replicate (32 - exp) 0)

def rxPowOk (hash : List UInt8) (bits : UInt32) : Bool :=
  match rxTarget bits with
  | none => false
  | some target => !beGreater hash.reverse target.reverse

/-- The entry of a header at a place, if the header has the work it states. -/
def rxEnt (fno pos size : Nat) (header : List UInt8) : Option RxEnt :=
  let hash := (sha256d header).1
  let bits := UInt32.ofNat (rd32 header 72)
  if rxPowOk hash bits then some ⟨hash, pread header 4 32, bits, fno, pos, size⟩ else none

abbrev Dir := Nat → Option (List UInt8)

def rxMaxMissing : Nat := 8

/-- The block files by number, up to too many missing ones. -/
def blkFilesFrom (dir : Dir) : Nat → Nat → Nat → List (Nat × List UInt8)
  | 0, _, _ => []
  | k + 1, fno, missing =>
      match dir fno with
      | none =>
          if rxMaxMissing ≤ missing + 1 then [] else blkFilesFrom dir k (fno + 1) (missing + 1)
      | some file => (fno, file) :: blkFilesFrom dir k (fno + 1) 0

def blkFiles (dir : Dir) : List (Nat × List UInt8) := blkFilesFrom dir 65536 0 0

def fileEnts (magic : UInt32) (f : Nat × List UInt8) : List RxEnt :=
  (scanFile magic f.2).filterMap fun p => rxEnt f.1 p.1 p.2 (pread f.2 (p.1 + 8) 80)

def scanDir (magic : UInt32) (dir : Dir) : List RxEnt := (blkFiles dir).flatMap (fileEnts magic)

/-! ## Copies of one block -/

def mapSizeFrom (n : Nat) : Nat → Nat → Nat
  | 0, m => m
  | k + 1, m => if m < n * 2 then mapSizeFrom n k (m * 2) else m

/-- The least power of two that is at least twice the number of entries. -/
def mapSize (n : Nat) : Nat := mapSizeFrom n (2 * n) 1

def rxKey (hash : List UInt8) : Nat := if leVal (hash.take 8) = 0 then 1 else leVal (hash.take 8)

def hashAt (e : List RxEnt) (v : Nat) : List UInt8 := ((e[v]?).map RxEnt.hash).getD []

/-- The search in the map; the size is a power of two, so the mask is a remainder. -/
def rxMapFind (m : Nat) (slots : Nat → Option Nat) (e : List RxEnt) (h : List UInt8) : Option Nat :=
  probeFind m (hashAt e) slots h m (rxKey h % m)

def rxMapPut (m : Nat) (slots : Nat → Option Nat) (e : List RxEnt) (idx : Nat) :
    Nat → Option Nat :=
  probePut m slots idx m (rxKey (hashAt e idx) % m)

structure Dedup where
  e : List RxEnt
  kept : Nat
  slots : Nat → Option Nat

def dedupStep (m : Nat) (s : Dedup) (i : Nat) : Dedup :=
  match s.e[i]? with
  | none => s
  | some x =>
      match rxMapFind m s.slots s.e x.hash with
      | some ex => { s with e := s.e.set ex x }
      | none =>
          let e := if s.kept ≠ i then s.e.set s.kept x else s.e
          { e := e, kept := s.kept + 1, slots := rxMapPut m s.slots e s.kept }

def dedup (e : List RxEnt) : Dedup :=
  (List.range e.length).foldl (dedupStep (mapSize e.length)) ⟨e, 0, fun _ => none⟩

/-! ## The tree -/

/-- The parent of an entry: the entry of its previous hash, none for genesis. -/
def parentOf (m : Nat) (slots : Nat → Option Nat) (e : List RxEnt) (g i : Nat) : Option Nat :=
  if i = g then none else (e[i]?).bind fun x => rxMapFind m slots e x.prev

def entWork (e : List RxEnt) (i : Nat) : BitVec 128 := ((e[i]?).map fun x => blockWork x.bits).getD 0

def walkTree (par : Nat → Option Nat) (e : List RxEnt) (g : Nat) : Option (Walk (BitVec 128)) :=
  let links := linkAll par e.length
  walk chainworkAdd (entWork e) BitVec.toNat
    (fun i => follow links.sibling e.length (links.child i)) (e.length + 1) [g]
    (startWalk (entWork e) g)

/-! ## The files that are written -/

structure Reindexed where
  dir : Dir
  index : List UInt8
  headers : List UInt8
  chainwork : List UInt8
  tip : Nat
  tipReappended : Bool

def indexRecord (x : RxEnt) : List UInt8 :=
  x.hash ++ leBytes 4 x.file ++ leBytes 8 x.pos ++ leBytes 4 x.size

def headerRecord (dir : Dir) (x : RxEnt) : List UInt8 :=
  pread ((dir x.file).getD []) (x.pos + 8) 80 ++ x.hash

/-- Records of one width, each at its height. -/
def writeAt (width : Nat) (records : List (Nat × List UInt8)) (buf : List UInt8) : List UInt8 :=
  records.foldl (fun buf r => pwrite buf (r.1 * width) r.2) buf

def zeros (n : Nat) : List UInt8 := List.replicate n 0

/-- The tip's frame is put last in the highest file, unless it stands there. -/
def appendTip (dir : Dir) (maxFile : Nat) (t : RxEnt) : Dir × RxEnt × Bool :=
  let last := (dir maxFile).getD []
  if t.file = maxFile ∧ t.pos + 8 + t.size = last.length then (dir, t, false)
  else
    (Function.update dir maxFile
        (some (last ++ pread ((dir t.file).getD []) t.pos (t.size + 8))),
      { t with file := maxFile, pos := last.length }, true)

def writeFiles (dir : Dir) (e : List RxEnt) (par : Nat → Option Nat) (w : Walk (BitVec 128))
    (reappended : Bool) : Reindexed :=
  let path := climb par e.length (some w.best)
  let tip := w.height w.best
  let record (f : RxEnt → List UInt8) (c : Nat) : Nat × List UInt8 :=
    (w.height c, ((e[c]?).map f).getD [])
  { dir := dir
    index := writeAt 48 (path.map (record indexRecord)) (zeros ((tip + 1) * 48))
    headers := writeAt 112 (path.map (record (headerRecord dir))) (zeros ((tip + 1) * 112))
    chainwork := writeAt 16 (path.map fun c => (w.height c, leBytes 16 (w.value c).toNat))
      (zeros ((tip + 1) * 16))
    tip := tip
    tipReappended := reappended }

/-- The walk, the tip's place and the files, for entries with their parents. -/
def finish (dir : Dir) (maxFile : Nat) (e : List RxEnt) (par : Nat → Option Nat) (g : Nat) :
    Option Reindexed :=
  match walkTree par e g with
  | none => none
  | some w =>
      match e[w.best]? with
      | none => none
      | some t =>
          let (dir', t', reappended) := appendTip dir maxFile t
          some (writeFiles dir' (e.set w.best t') par w reappended)

/-- Everything after the scan, over the array of entries as it was compacted. -/
def rebuild (dir : Dir) (maxFile : Nat) (m : Nat) (slots : Nat → Option Nat) (e : List RxEnt)
    (genesis : List UInt8) : Option Reindexed :=
  match rxMapFind m slots e genesis with
  | none => none
  | some g => finish dir maxFile e (parentOf m slots e g) g

def archiveReindex (magic : UInt32) (genesis : List UInt8) (dir : Dir) : Option Reindexed :=
  let e := scanDir magic dir
  match (blkFiles dir).getLast? with
  | none => none
  | some (maxFile, _) =>
      if e = [] then none
      else
        let d := dedup e
        rebuild dir maxFile (mapSize e.length) d.slots (d.e.take d.kept) genesis

/-! ## What the array holds after the copies are brought together -/

/-- An entry takes the place of an earlier copy of its block. -/
def keepLast (acc : List RxEnt) (x : RxEnt) : List RxEnt :=
  match acc.findIdx? fun y => decide (y.hash = x.hash) with
  | some j => acc.set j x
  | none => acc ++ [x]

/-- Each block once, by its last copy, in the place of its first. -/
def copies (e : List RxEnt) : List RxEnt := e.foldl keepLast []

/-- The map leads to the entries of the array's front. -/
structure Mapped (m : Nat) (slots : Nat → Option Nat) (acc e : List RxEnt) : Prop where
  front : e.take acc.length = acc
  probed : Probed rxKey m (hashAt acc) slots acc.length

variable {m : Nat} {slots : Nat → Option Nat} {acc e : List RxEnt}

theorem hashAt_of_lt {v : Nat} (hv : v < e.length) : hashAt e v = (e[v]).hash := by
  simp [hashAt, hv]

theorem Mapped.hashAt_eq (h : Mapped m slots acc e) {v : Nat} (hv : v < acc.length) :
    hashAt e v = hashAt acc v := by
  rw [← h.front, hashAt, hashAt, List.getElem?_take_of_lt hv]

theorem Mapped.find_eq (h : Mapped m slots acc e) (k : List UInt8) :
    rxMapFind m slots e k = acc.findIdx? fun y => decide (y.hash = k) := by
  have hprobed : Probed rxKey m (hashAt e) slots acc.length :=
    h.probed.congr fun v hv => h.hashAt_eq hv
  have hfind : ∀ v, rxMapFind m slots e k = some v ↔ v < acc.length ∧ hashAt acc v = k := by
    intro v
    unfold rxMapFind
    rw [hprobed.find_eq_some_iff]
    exact and_congr_right fun hv => by rw [h.hashAt_eq hv]
  cases hidx : acc.findIdx? fun y => decide (y.hash = k) with
  | none =>
      by_contra hne
      obtain ⟨v, hv⟩ := Option.ne_none_iff_exists'.mp hne
      obtain ⟨hlt, hkey⟩ := (hfind v).mp hv
      have := List.findIdx?_eq_none_iff.mp hidx _ (List.getElem_mem hlt)
      rw [hashAt_of_lt hlt] at hkey
      simp [hkey] at this
  | some v =>
      obtain ⟨hlt, hkey, -⟩ := List.findIdx?_eq_some_iff_getElem.mp hidx
      exact (hfind v).mpr ⟨hlt, by rw [hashAt_of_lt hlt]; simpa using hkey⟩

/-- The loop between two entries: the front of the array holds the blocks seen so far, and what
is still to be read stands as it was. -/
structure Deduping (m : Nat) (e₀ : List RxEnt) (i : Nat) (s : Dedup) : Prop where
  mapped : Mapped m s.slots (copies (e₀.take i)) s.e
  kept_eq : s.kept = (copies (e₀.take i)).length
  kept_le : s.kept ≤ i
  rest : s.e.drop i = e₀.drop i

theorem copies_concat (e : List RxEnt) (x : RxEnt) : copies (e ++ [x]) = keepLast (copies e) x := by
  simp [copies]

theorem Deduping.step {e₀ : List RxEnt} {i : Nat} {s : Dedup} (h : Deduping m e₀ i s)
    (hi : i < e₀.length) (hroom : e₀.length < m) : Deduping m e₀ (i + 1) (dedupStep m s i) := by
  obtain ⟨hmapped, hkept, hle, hrest⟩ := h
  have hx : s.e[i]? = some e₀[i] := by
    have := congrArg (·[0]?) hrest
    simpa [hi] using this
  have hlen : s.e.length = e₀.length := by
    have := congrArg List.length hrest
    simp only [List.length_drop] at this
    have : i < s.e.length := (List.getElem?_eq_some_iff.mp hx).1
    omega
  have hrest' : s.e.drop (i + 1) = e₀.drop (i + 1) := by
    have := congrArg (List.drop 1) hrest
    simpa [List.drop_drop, Nat.add_comm] using this
  have htake : e₀.take (i + 1) = e₀.take i ++ [e₀[i]] := (List.take_append_getElem hi).symm
  generalize hacc : copies (e₀.take i) = acc at hmapped hkept
  have hnext : copies (e₀.take (i + 1)) = keepLast acc e₀[i] := by
    rw [htake, copies_concat, hacc]
  have hstep := hmapped.find_eq e₀[i].hash
  unfold dedupStep
  rw [hx]
  dsimp only
  rw [hstep]
  cases hidx : acc.findIdx? fun y => decide (y.hash = (e₀[i]).hash) with
  | some ex =>
      obtain ⟨hlt, hkey, -⟩ := List.findIdx?_eq_some_iff_getElem.mp hidx
      have hnext' : copies (e₀.take (i + 1)) = acc.set ex e₀[i] := by
        rw [hnext, keepLast, hidx]
      have hkey' : acc[ex].hash = e₀[i].hash := by simpa using hkey
      have hsame : ∀ v < acc.length, hashAt (acc.set ex e₀[i]) v = hashAt acc v := by
        intro v hv
        rw [hashAt_of_lt (by simpa using hv), hashAt_of_lt hv, List.getElem_set]
        split
        · next heq =>
            subst heq
            exact hkey'.symm
        · rfl
      refine ⟨⟨?_, ?_⟩, ?_, Nat.le_succ_of_le hle, ?_⟩
      · rw [hnext', List.length_set, List.take_set, hmapped.front]
      · rw [hnext', List.length_set]
        exact hmapped.probed.congr hsame
      · rw [hnext', List.length_set]
        exact hkept
      · rw [List.drop_set_of_lt (by omega)]
        exact hrest'
  | none =>
      have hnext' : copies (e₀.take (i + 1)) = acc ++ [e₀[i]] := by
        rw [hnext, keepLast, hidx]
      dsimp only
      generalize he' : (if s.kept ≠ i then s.e.set s.kept e₀[i] else s.e) = e'
      have hfront : e'.take s.kept = acc ∧ e'[s.kept]? = some e₀[i] ∧
          e'.drop (i + 1) = e₀.drop (i + 1) := by
        rw [← he']
        split
        · refine ⟨?_, List.getElem?_set_self (by omega), ?_⟩
          · rw [List.take_set_of_le (Nat.le_refl _), hkept]
            exact hmapped.front
          · rw [List.drop_set_of_lt (by omega)]
            exact hrest'
        · next heq =>
            rw [not_ne_iff] at heq
            refine ⟨?_, heq ▸ hx, hrest'⟩
            rw [hkept]
            exact hmapped.front
      obtain ⟨hacc', hlast, hdrop⟩ := hfront
      have hsame : ∀ v < acc.length, hashAt (acc ++ [e₀[i]]) v = hashAt acc v := by
        intro v hv
        rw [hashAt, hashAt, List.getElem?_append_left hv]
      have hnew : hashAt (acc ++ [e₀[i]]) acc.length = e₀[i].hash := by simp [hashAt]
      refine ⟨⟨?_, ?_⟩, ?_, by simp; omega, hdrop⟩
      · rw [hnext', List.length_append, List.length_singleton, List.take_add_one, ← hkept, hacc',
          hlast]
        rfl
      · rw [hnext', List.length_append, List.length_singleton]
        have hput := (hmapped.probed.congr hsame).put (by omega) fun v hv hveq => by
          rw [hsame v hv, hnew, hashAt_of_lt hv] at hveq
          have := List.findIdx?_eq_none_iff.mp hidx _ (List.getElem_mem hv)
          simp [hveq] at this
        have hhash : hashAt e' s.kept = hashAt (acc ++ [e₀[i]]) acc.length := by
          rw [hnew, hashAt, hlast]
          rfl
        rw [rxMapPut, hhash, hkept]
        exact hput
      · rw [hnext', List.length_append, List.length_singleton, hkept]

theorem dedup_spec {e₀ : List RxEnt} (hroom : e₀.length < m) :
    Deduping m e₀ e₀.length
      ((List.range e₀.length).foldl (dedupStep m) ⟨e₀, 0, fun _ => none⟩) := by
  have hrun : ∀ i ≤ e₀.length,
      Deduping m e₀ i ((List.range i).foldl (dedupStep m) ⟨e₀, 0, fun _ => none⟩) := by
    intro i
    induction i with
    | zero => exact fun _ => ⟨⟨rfl, probed_empty⟩, rfl, Nat.le_refl _, rfl⟩
    | succ i ih =>
        intro hi
        rw [List.range_succ, List.foldl_append]
        exact (ih (by omega)).step hi hroom
  exact hrun e₀.length (Nat.le_refl _)

theorem le_mapSizeFrom {n k a : Nat} (ha : 0 < a) (hk : n * 2 ≤ a * 2 ^ k) :
    n * 2 ≤ mapSizeFrom n k a := by
  induction k generalizing a with
  | zero => simpa [mapSizeFrom] using hk
  | succ k ih =>
      rw [mapSizeFrom]
      split
      · refine ih (by omega) ?_
        rw [Nat.mul_assoc, ← Nat.pow_succ']
        exact hk
      · omega

theorem lt_mapSize {n : Nat} (hn : 0 < n) : n < mapSize n := by
  have hpow : n * 2 ≤ 1 * 2 ^ (2 * n) := by
    have := (2 * n).lt_two_pow_self
    omega
  have := le_mapSizeFrom (n := n) Nat.one_pos hpow
  unfold mapSize
  omega

/-- What stands at the front after the loop, and how the map finds it. -/
theorem dedup_mapped (e₀ : List RxEnt) (hne : e₀ ≠ []) :
    (dedup e₀).e.take (dedup e₀).kept = copies e₀ ∧
      Mapped (mapSize e₀.length) (dedup e₀).slots (copies e₀) (copies e₀) := by
  have h := dedup_spec (lt_mapSize (List.length_pos_of_ne_nil hne))
  rw [← dedup] at h
  obtain ⟨hmapped, hkept, -, -⟩ := h
  rw [List.take_length] at hmapped hkept
  exact ⟨by rw [hkept]; exact hmapped.front, List.take_length, hmapped.probed⟩

theorem index_inj (h : (acc.map RxEnt.hash).Nodup) {i j : Nat} (hi : i < acc.length)
    (hj : j < acc.length) (heq : acc[i].hash = acc[j].hash) : i = j := by
  have hi' : i < (acc.map RxEnt.hash).length := by simpa using hi
  have hj' : j < (acc.map RxEnt.hash).length := by simpa using hj
  have hmap : (acc.map RxEnt.hash)[i] = (acc.map RxEnt.hash)[j] := by simpa using heq
  exact h.getElem_inj_iff.mp hmap

theorem findIdx?_hash (h : (acc.map RxEnt.hash).Nodup) {i : Nat} {t : RxEnt} (ht : acc[i]? = some t)
    {k : List UInt8} (hk : t.hash = k) :
    acc.findIdx? (fun y => decide (y.hash = k)) = some i := by
  obtain ⟨hi, rfl⟩ := List.getElem?_eq_some_iff.mp ht
  refine List.findIdx?_eq_some_iff_getElem.mpr ⟨hi, by simpa using hk, fun j hj hkey => ?_⟩
  have hkey' : acc[j].hash = k := by simpa using hkey
  exact hj.ne (index_inj h (hj.trans hi) hi (hkey'.trans hk.symm))

/-- An entry that agrees with the one it replaces leaves the row of such values. -/
theorem map_set_eq {α : Type} (f : RxEnt → α) {i : Nat} {t t' : RxEnt} (ht : acc[i]? = some t)
    (hf : f t' = f t) : (acc.set i t').map f = acc.map f := by
  obtain ⟨hi, rfl⟩ := List.getElem?_eq_some_iff.mp ht
  rw [List.map_set, hf, ← List.getElem_map f (h := by simpa using hi), List.set_getElem_self]

theorem nodup_keepLast (h : (acc.map RxEnt.hash).Nodup) (x : RxEnt) :
    ((keepLast acc x).map RxEnt.hash).Nodup := by
  unfold keepLast
  cases hidx : acc.findIdx? fun y => decide (y.hash = x.hash) with
  | some j =>
      obtain ⟨hlt, hkey, -⟩ := List.findIdx?_eq_some_iff_getElem.mp hidx
      have hkey' : x.hash = acc[j].hash := by simpa [eq_comm] using hkey
      dsimp only
      rw [map_set_eq RxEnt.hash (List.getElem?_eq_getElem hlt) hkey']
      exact h
  | none =>
      dsimp only
      rw [List.map_append, List.nodup_append]
      refine ⟨h, List.nodup_singleton _, ?_⟩
      rintro k hk k' hk' rfl
      obtain ⟨y, hy, rfl⟩ := List.mem_map.mp hk
      have := List.findIdx?_eq_none_iff.mp hidx y hy
      simp [List.mem_singleton.mp hk'] at this

theorem mem_keepLast (h : (acc.map RxEnt.hash).Nodup) {x y : RxEnt} :
    y ∈ keepLast acc x ↔ y = x ∨ y ∈ acc ∧ y.hash ≠ x.hash := by
  unfold keepLast
  cases hidx : acc.findIdx? fun z => decide (z.hash = x.hash) with
  | some j =>
      obtain ⟨hlt, hkey, -⟩ := List.findIdx?_eq_some_iff_getElem.mp hidx
      have hkey' : acc[j].hash = x.hash := by simpa using hkey
      dsimp only
      constructor
      · intro hy
        obtain ⟨i, hi, rfl⟩ := List.getElem_of_mem hy
        rw [List.getElem_set]
        split
        · exact .inl rfl
        · next hne =>
            have hi' : i < acc.length := by simpa using hi
            exact .inr ⟨List.getElem_mem hi', fun heq =>
              hne (index_inj h hlt hi' (hkey'.trans heq.symm))⟩
      · rintro (rfl | ⟨hy, hne⟩)
        · exact List.mem_set hlt y
        · obtain ⟨i, hi, rfl⟩ := List.getElem_of_mem hy
          have hij : j ≠ i := by
            rintro rfl
            exact hne hkey'
          have hset : (acc.set j x)[i]? = some acc[i] := by
            rw [List.getElem?_set_ne hij, List.getElem?_eq_getElem hi]
          exact List.mem_of_getElem? hset
  | none =>
      dsimp only
      rw [List.mem_append, List.mem_singleton, or_comm]
      refine or_congr_right (iff_self_and.mpr fun hy heq => ?_)
      have := List.findIdx?_eq_none_iff.mp hidx y hy
      simp [heq] at this

/-- The last copy of its block among the frames found. -/
def LastCopy (e : List RxEnt) (x : RxEnt) : Prop :=
  ∃ before after, e = before ++ x :: after ∧ ∀ y ∈ after, y.hash ≠ x.hash

theorem lastCopy_concat {e : List RxEnt} {x y : RxEnt} :
    LastCopy (e ++ [x]) y ↔ y = x ∨ LastCopy e y ∧ y.hash ≠ x.hash := by
  constructor
  · rintro ⟨before, after, heq, hlater⟩
    rcases List.eq_nil_or_concat after with rfl | ⟨after, z, rfl⟩
    · exact .inl (List.singleton_inj.mp (List.append_inj' heq rfl).2.symm)
    · rw [List.concat_eq_append] at heq hlater
      rw [← List.cons_append, ← List.append_assoc] at heq
      obtain ⟨rfl, hz⟩ := List.append_inj' heq rfl
      obtain rfl := (List.singleton_inj.mp hz).symm
      refine .inr ⟨⟨before, after, rfl, fun w hw => ?_⟩, ?_⟩
      · exact hlater w (List.mem_append_left _ hw)
      · exact (hlater z (by simp)).symm
  · rintro (rfl | ⟨⟨before, after, rfl, hlater⟩, hne⟩)
    · exact ⟨e, [], rfl, nofun⟩
    · refine ⟨before, after ++ [x], by simp, fun w hw => ?_⟩
      rcases List.mem_append.mp hw with hw | hw
      · exact hlater w hw
      · rw [List.mem_singleton.mp hw]
        exact hne.symm

theorem copies_spec (e : List RxEnt) :
    ((copies e).map RxEnt.hash).Nodup ∧ ∀ x, x ∈ copies e ↔ LastCopy e x := by
  induction e using List.reverseRecOn with
  | nil => exact ⟨List.nodup_nil, fun x => ⟨nofun, fun ⟨_, _, h, _⟩ => by simp at h⟩⟩
  | append_singleton e x ih =>
      obtain ⟨hnodup, hmem⟩ := ih
      rw [copies_concat]
      refine ⟨nodup_keepLast hnodup x, fun y => ?_⟩
      rw [mem_keepLast hnodup, lastCopy_concat, hmem]

theorem LastCopy.mem {e : List RxEnt} {x : RxEnt} (h : LastCopy e x) : x ∈ e := by
  obtain ⟨before, after, rfl, -⟩ := h
  simp

theorem exists_lastCopy {e : List RxEnt} {x : RxEnt} (h : x ∈ e) :
    ∃ y, LastCopy e y ∧ y.hash = x.hash := by
  induction e using List.reverseRecOn with
  | nil => cases h
  | append_singleton e z ih =>
      by_cases hz : z.hash = x.hash
      · exact ⟨z, lastCopy_concat.mpr (.inl rfl), hz⟩
      · rcases List.mem_append.mp h with h | h
        · obtain ⟨y, hy, hyx⟩ := ih h
          exact ⟨y, lastCopy_concat.mpr (.inr ⟨hy, fun heq => hz (heq.symm.trans hyx)⟩), hyx⟩
        · exact absurd (congrArg RxEnt.hash (List.mem_singleton.mp h).symm) hz

/-! ## The map out of the way -/

/-- The parent as the entries themselves tell it. -/
def parentIn (e : List RxEnt) (g i : Nat) : Option Nat :=
  if i = g then none else (e[i]?).bind fun x => e.findIdx? fun y => decide (y.hash = x.prev)

/-- The reindexing as a function of the blocks. -/
def rebuildOf (dir : Dir) (maxFile : Nat) (e : List RxEnt) (genesis : List UInt8) :
    Option Reindexed :=
  match e.findIdx? fun y => decide (y.hash = genesis) with
  | none => none
  | some g => finish dir maxFile e (parentIn e g) g

theorem Mapped.rebuild_eq (h : Mapped m slots e e) (dir : Dir) (maxFile : Nat)
    (genesis : List UInt8) :
    rebuild dir maxFile m slots e genesis = rebuildOf dir maxFile e genesis := by
  have hpar : ∀ g, parentOf m slots e g = parentIn e g := fun g => by
    funext i
    simp only [parentOf, parentIn, h.find_eq]
  unfold rebuild rebuildOf
  rw [h.find_eq]
  simp only [hpar]

theorem archiveReindex_eq {magic : UInt32} {genesis : List UInt8} {dir : Dir} {maxFile : Nat}
    {file : List UInt8} (hlast : (blkFiles dir).getLast? = some (maxFile, file))
    (hne : scanDir magic dir ≠ []) :
    archiveReindex magic genesis dir =
      rebuildOf dir maxFile (copies (scanDir magic dir)) genesis := by
  obtain ⟨hcopies, hmapped⟩ := dedup_mapped (scanDir magic dir) hne
  unfold archiveReindex
  rw [hlast]
  dsimp only
  rw [if_neg hne, hcopies, hmapped.rebuild_eq]

/-! ## Chains of blocks -/

/-- A chain from genesis to a block: each block names the one before, and none comes twice. -/
inductive ChainTo (stored : RxEnt → Prop) (genesis : List UInt8) : List RxEnt → RxEnt → Prop
  | start {x : RxEnt} : stored x → x.hash = genesis → ChainTo stored genesis [x] x
  | grow {chain : List RxEnt} {x y : RxEnt} : ChainTo stored genesis chain x → stored y →
      y.prev = x.hash → (∀ z ∈ chain, z.hash ≠ y.hash) → ChainTo stored genesis (chain ++ [y]) y

/-- The work of a chain as it is summed up. -/
def workOf : List RxEnt → BitVec 128
  | [] => 0
  | x :: rest => rest.foldl (fun v y => chainworkAdd v (blockWork y.bits)) (blockWork x.bits)

def totalWork (chain : List RxEnt) : Nat := (chain.map fun x => (blockWork x.bits).toNat).sum

theorem workOf_concat {chain : List RxEnt} (h : chain ≠ []) (y : RxEnt) :
    workOf (chain ++ [y]) = chainworkAdd (workOf chain) (blockWork y.bits) := by
  cases chain with
  | nil => exact absurd rfl h
  | cons x rest => simp [workOf]

/-- The sum is exact as long as it fits 16 bytes. -/
theorem workOf_toNat (chain : List RxEnt) :
    (workOf chain).toNat = min (totalWork chain) (2 ^ 128 - 1) := by
  cases chain with
  | nil => simp [workOf, totalWork]
  | cons x rest =>
      have hfold : workOf (x :: rest) =
          (rest.map fun y => blockWork y.bits).foldl chainworkAdd (blockWork x.bits) := by
        rw [workOf, List.foldl_map]
      rw [hfold, foldl_chainworkAdd_toNat, totalWork, List.map_cons, List.sum_cons, List.map_map]
      rfl

variable {stored : RxEnt → Prop} {genesis : List UInt8}

theorem ChainTo.ne_nil {chain : List RxEnt} {x : RxEnt} (h : ChainTo stored genesis chain x) :
    chain ≠ [] := by
  cases h with
  | start _ _ => exact List.cons_ne_nil _ _
  | grow _ _ _ _ => exact List.append_ne_nil_of_right_ne_nil _ (List.cons_ne_nil _ _)

theorem ChainTo.genesis_mem {chain : List RxEnt} {x : RxEnt} (h : ChainTo stored genesis chain x) :
    ∃ z ∈ chain, z.hash = genesis := by
  induction h with
  | start _ hx => exact ⟨_, List.mem_singleton_self _, hx⟩
  | grow _ _ _ _ ih =>
      obtain ⟨z, hz, hgenesis⟩ := ih
      exact ⟨z, List.mem_append_left _ hz, hgenesis⟩

theorem ChainTo.mono {stored' : RxEnt → Prop} (hsub : ∀ x, stored x → stored' x)
    {chain : List RxEnt} {x : RxEnt} (h : ChainTo stored genesis chain x) :
    ChainTo stored' genesis chain x := by
  induction h with
  | start hx hgenesis => exact .start (hsub _ hx) hgenesis
  | grow _ hy hprev hfresh ih => exact ih.grow (hsub _ hy) hprev hfresh

/-! ### Paths in the tree -/

theorem parentIn_eq_some_iff (hnodup : (e.map RxEnt.hash).Nodup) {g i p : Nat} :
    parentIn e g i = some p ↔
      i ≠ g ∧ ∃ x y, e[i]? = some x ∧ e[p]? = some y ∧ x.prev = y.hash := by
  unfold parentIn
  split
  · next heq => exact iff_of_false nofun fun h => h.1 heq
  next hne =>
  rw [Option.bind_eq_some_iff]
  constructor
  · rintro ⟨x, hx, hfind⟩
    obtain ⟨hlt, hkey, -⟩ := List.findIdx?_eq_some_iff_getElem.mp hfind
    refine ⟨hne, x, e[p], hx, List.getElem?_eq_getElem hlt, ?_⟩
    simpa [eq_comm] using hkey
  · rintro ⟨-, x, y, hx, hy, hprev⟩
    exact ⟨x, hx, findIdx?_hash hnodup hy hprev.symm⟩

def chainOf (e : List RxEnt) (path : List Nat) : List RxEnt := path.filterMap fun i => e[i]?

theorem chainOf_concat {path : List Nat} {i : Nat} {x : RxEnt} (h : e[i]? = some x) :
    chainOf e (path ++ [i]) = chainOf e path ++ [x] := by
  simp [chainOf, h]

section Tree

variable {g : Nat} {y₀ : RxEnt} (hnodup : (e.map RxEnt.hash).Nodup) (hroot : e[g]? = some y₀)
  (hgenesis : y₀.hash = genesis)

theorem parentIn_root (e : List RxEnt) (g : Nat) : parentIn e g g = none := if_pos rfl

include hnodup

theorem parentIn_lt {i p : Nat} (h : parentIn e g i = some p) : i < e.length := by
  obtain ⟨-, x, y, hx, -, -⟩ := (parentIn_eq_some_iff hnodup).mp h
  exact (List.getElem?_eq_some_iff.mp hx).1

include hroot hgenesis

/-- A path is a chain of the blocks it goes over. -/
theorem chainTo_of_descends {i : Nat} {path : List Nat} (h : Descends (parentIn e g) g i path) :
    ∃ x, e[i]? = some x ∧ ChainTo (· ∈ e) genesis (chainOf e path) x := by
  induction h with
  | root =>
      refine ⟨y₀, hroot, ?_⟩
      have hone : chainOf e [g] = [y₀] := by simp [chainOf, hroot]
      rw [hone]
      exact .start (List.mem_of_getElem? hroot) hgenesis
  | @step p i path hrest hp ih =>
      obtain ⟨x, hx, hchain⟩ := ih
      obtain ⟨hne, y, x', hy, hx', hprev⟩ := (parentIn_eq_some_iff hnodup).mp hp
      obtain rfl := Option.some.inj (hx.symm.trans hx')
      refine ⟨y, hy, ?_⟩
      rw [chainOf_concat hy]
      refine hchain.grow (List.mem_of_getElem? hy) hprev fun z hz heq => ?_
      obtain ⟨j, hj, hz⟩ := List.mem_filterMap.mp hz
      obtain ⟨hjlt, rfl⟩ := List.getElem?_eq_some_iff.mp hz
      obtain ⟨hilt, rfl⟩ := List.getElem?_eq_some_iff.mp hy
      obtain rfl := index_inj hnodup hjlt hilt heq
      exact hrest.fresh (parentIn_root e g) hp hj

theorem index_eq_root {i : Nat} {x : RxEnt} (hx : e[i]? = some x) (h : x.hash = genesis) :
    i = g := by
  obtain ⟨hilt, rfl⟩ := List.getElem?_eq_some_iff.mp hx
  obtain ⟨hglt, rfl⟩ := List.getElem?_eq_some_iff.mp hroot
  exact index_inj hnodup hilt hglt (h.trans hgenesis.symm)

/-- Every chain is a path. -/
theorem descends_of_chainTo {chain : List RxEnt} {x : RxEnt}
    (h : ChainTo (· ∈ e) genesis chain x) :
    ∃ i path, e[i]? = some x ∧ Descends (parentIn e g) g i path ∧ chainOf e path = chain := by
  induction h with
  | @start x hx hg =>
      obtain ⟨i, hi⟩ := List.mem_iff_getElem?.mp hx
      obtain rfl := index_eq_root hnodup hroot hgenesis hi hg
      exact ⟨i, [i], hi, .root, by simp [chainOf, hi]⟩
  | @grow chain x y hchain hy hprev hfresh ih =>
      obtain ⟨i, path, hi, hpath, rfl⟩ := ih
      obtain ⟨j, hj⟩ := List.mem_iff_getElem?.mp hy
      have hjg : j ≠ g := by
        rintro rfl
        obtain rfl := Option.some.inj (hj.symm.trans hroot)
        obtain ⟨z, hz, hzg⟩ := hchain.genesis_mem
        exact hfresh z hz (hzg.trans hgenesis.symm)
      refine ⟨j, path ++ [j], hj, hpath.step ?_, chainOf_concat hj⟩
      exact (parentIn_eq_some_iff hnodup).mpr ⟨hjg, y, x, hj, hi, hprev⟩

theorem pathValue_eq_workOf {i : Nat} {path : List Nat}
    (h : Descends (parentIn e g) g i path) :
    pathValue chainworkAdd (entWork e) path = some (workOf (chainOf e path)) := by
  induction h with
  | root => simp [pathValue, chainOf, hroot, workOf, entWork]
  | @step p i path hrest hp ih =>
      obtain ⟨x, -, hchain⟩ := chainTo_of_descends hnodup hroot hgenesis hrest
      obtain ⟨-, y, -, hy, -, -⟩ := (parentIn_eq_some_iff hnodup).mp hp
      rw [pathValue_concat ih, chainOf_concat hy, workOf_concat hchain.ne_nil]
      simp [entWork, hy]

theorem walkTree_spec :
    ∃ w path, walkTree (parentIn e g) e g = some w ∧
      Descends (parentIn e g) g w.best path ∧
      ∀ i path, Descends (parentIn e g) g i path →
        w.value i = workOf (chainOf e path) ∧ w.height i + 1 = path.length ∧
          (w.value i).toNat ≤ (w.value w.best).toNat := by
  have hglt : g < e.length := (List.getElem?_eq_some_iff.mp hroot).1
  obtain ⟨w, hwalk, ⟨path, hpath⟩, hall⟩ := @walk_spec (parentIn e g) _ chainworkAdd
    (entWork e) BitVec.toNat g _ e.length (parentIn_root e g) hglt (fun i p => parentIn_lt hnodup)
    _ fun i => follow_linkAll i e.length
  refine ⟨w, path, hwalk, hpath, fun i path hi => ?_⟩
  obtain ⟨hvalue, hheight, hle⟩ := hall i path hi
  rw [pathValue_eq_workOf hnodup hroot hgenesis hi] at hvalue
  exact ⟨(Option.some.inj hvalue).symm, hheight, hle⟩

end Tree

/-! ## Records by height -/

/-- Records of one width from the last to the first, each with its place. -/
def descending (rs : List (List UInt8)) : List (Nat × List UInt8) :=
  (rs.zipIdx.map fun p => (p.2, p.1)).reverse

theorem descending_concat (rs : List (List UInt8)) (r : List UInt8) :
    descending (rs ++ [r]) = (rs.length, r) :: descending rs := by
  simp [descending, List.zipIdx_append]

theorem pwrite_append_left {front back data : List UInt8} {off : Nat}
    (h : off + data.length ≤ front.length) :
    pwrite (front ++ back) off data = pwrite front off data ++ back := by
  unfold pwrite
  rw [List.take_append_of_le_length (by omega), List.drop_append_of_le_length h]
  simp

theorem writeAt_append {width : Nat} {records : List (Nat × List UInt8)} {front : List UInt8}
    (back : List UInt8)
    (h : ∀ r ∈ records, r.1 * width + r.2.length ≤ front.length) :
    writeAt width records (front ++ back) = writeAt width records front ++ back := by
  induction records generalizing front with
  | nil => rfl
  | cons r records ih =>
      obtain ⟨hr, hrest⟩ := List.forall_mem_cons.mp h
      unfold writeAt
      rw [List.foldl_cons, List.foldl_cons, pwrite_append_left hr]
      refine ih fun q hq => ?_
      rw [length_pwrite (by omega)]
      exact (hrest q hq).trans (Nat.le_max_left _ _)

theorem mem_descending_lt {rs : List (List UInt8)} {r : Nat × List UInt8}
    (h : r ∈ descending rs) : r.1 < rs.length ∧ r.2 ∈ rs := by
  unfold descending at h
  obtain ⟨⟨a, k⟩, hmem, rfl⟩ := List.mem_map.mp (List.mem_reverse.mp h)
  obtain ⟨hk, ha⟩ := List.mem_zipIdx' hmem
  exact ⟨hk, ha ▸ List.getElem_mem _⟩

/-- Written from the last to the first the records stand in their order. -/
theorem writeAt_descending {width : Nat} {rs : List (List UInt8)} {buf : List UInt8}
    (hrs : ∀ r ∈ rs, r.length = width) (hbuf : buf.length = rs.length * width) :
    writeAt width (descending rs) buf = rs.flatten := by
  induction rs using List.reverseRecOn generalizing buf with
  | nil => simpa [writeAt, descending] using hbuf
  | append_singleton rs r ih =>
      have hr : r.length = width := hrs r (by simp)
      have hrest : ∀ q ∈ rs, q.length = width := fun q hq => hrs q (by simp [hq])
      rw [List.length_append, List.length_singleton, Nat.add_mul, Nat.one_mul] at hbuf
      have hfirst : pwrite buf (rs.length * width) r = buf.take (rs.length * width) ++ r := by
        unfold pwrite
        rw [List.drop_of_length_le (by omega), List.append_nil]
      have hfront : (buf.take (rs.length * width)).length = rs.length * width := by
        rw [List.length_take]
        omega
      have hrun : writeAt width (descending (rs ++ [r])) buf =
          writeAt width (descending rs) (buf.take (rs.length * width) ++ r) := by
        rw [descending_concat, ← hfirst]
        rfl
      rw [hrun, writeAt_append r, ih hrest hfront, List.flatten_append]
      · simp
      · intro q hq
        obtain ⟨hlt, hmem⟩ := mem_descending_lt hq
        rw [hfront, hrest _ hmem, ← Nat.succ_mul]
        exact Nat.mul_le_mul_right width hlt

/-! ## Where the entries stand -/

/-- The frame of an entry stands where the entry says. -/
structure StandsIn (dir : Dir) (x : RxEnt) (file : List UInt8) : Prop where
  file_eq : dir x.file = some file
  fits : x.pos + 8 + x.size ≤ file.length
  least : 80 ≤ x.size
  hash_eq : (sha256d (pread file (x.pos + 8) 80)).1 = x.hash

theorem StandsIn.hash_length {dir : Dir} {x : RxEnt} {file : List UInt8} (h : StandsIn dir x file) :
    x.hash.length = 32 := by
  rw [← h.hash_eq]
  exact (sha256d _).2

theorem mem_blkFilesFrom {dir : Dir} {k fno missing : Nat} {f : Nat × List UInt8}
    (h : f ∈ blkFilesFrom dir k fno missing) : dir f.1 = some f.2 := by
  induction k generalizing fno missing with
  | zero => cases h
  | succ k ih =>
      rw [blkFilesFrom] at h
      split at h
      · split at h
        · cases h
        · exact ih h
      · next file hfile =>
          rcases List.mem_cons.mp h with rfl | h
          · exact hfile
          · exact ih h

theorem rxEnt_eq_some {fno pos size : Nat} {header : List UInt8} {x : RxEnt}
    (h : rxEnt fno pos size header = some x) :
    rxPowOk x.hash x.bits = true ∧ x.file = fno ∧ x.pos = pos ∧ x.size = size ∧
      x.hash = (sha256d header).1 := by
  unfold rxEnt at h
  dsimp only at h
  split at h
  · next hpow =>
      obtain rfl := Option.some.inj h
      exact ⟨hpow, rfl, rfl, rfl, rfl⟩
  · cases h

/-- An entry of the scan, with the file its frame stands in. -/
theorem exists_frame {magic : UInt32} {dir : Dir} {x : RxEnt} (h : x ∈ scanDir magic dir) :
    ∃ file, dir x.file = some file ∧ (x.pos, x.size) ∈ scanFile magic file ∧
      FrameAt magic file x.pos ∧ x.size = rd32 file x.pos ∧
      rxEnt x.file x.pos x.size (pread file (x.pos + 8) 80) = some x := by
  obtain ⟨⟨fno, file⟩, hf, hx⟩ := List.mem_flatMap.mp h
  obtain ⟨⟨pos, size⟩, hp, hent⟩ := List.mem_filterMap.mp hx
  obtain ⟨-, rfl, rfl, rfl, -⟩ := rxEnt_eq_some hent
  obtain ⟨hframe, hsize⟩ := mem_scanFrom hp
  exact ⟨file, mem_blkFilesFrom hf, hp, hframe, hsize, hent⟩

theorem mem_scanDir {magic : UInt32} {dir : Dir} {x : RxEnt} (h : x ∈ scanDir magic dir) :
    ∃ file, StandsIn dir x file := by
  obtain ⟨file, hfile, -, hframe, hsize, hent⟩ := exists_frame h
  obtain ⟨-, -, -, -, hhash⟩ := rxEnt_eq_some hent
  refine ⟨file, hfile, ?_, ?_, hhash.symm⟩
  · rw [hsize]
    exact hframe.fits
  · rw [hsize]
    exact hframe.least

/-- Every file of a directory goes on in another. -/
def Extends (dir dir' : Dir) : Prop :=
  ∀ n file, dir n = some file → ∃ more, dir' n = some (file ++ more)

theorem StandsIn.extends {dir dir' : Dir} {x : RxEnt} {file : List UInt8}
    (h : StandsIn dir x file) (hdir : Extends dir dir') : ∃ file', StandsIn dir' x file' := by
  obtain ⟨more, hmore⟩ := hdir _ _ h.file_eq
  have hfits := h.fits
  have hleast := h.least
  refine ⟨file ++ more, hmore, ?_, hleast, ?_⟩
  · rw [List.length_append]
    omega
  · rw [pread_append_left more (by omega)]
    exact h.hash_eq

/-- The entry of the tip after its frame was put last. -/
structure TipLast (dir dir' : Dir) (maxFile : Nat) (t t' : RxEnt) : Prop where
  extends_dir : Extends dir dir'
  same : t'.hash = t.hash ∧ t'.prev = t.prev ∧ t'.bits = t.bits ∧ t'.size = t.size
  file_eq : t'.file = maxFile
  stands : ∃ file', StandsIn dir' t' file' ∧ t'.pos + 8 + t'.size = file'.length ∧
    ∀ file, dir t.file = some file →
      pread file' t'.pos (t'.size + 8) = pread file t.pos (t.size + 8)

theorem appendTip_spec {dir : Dir} {maxFile : Nat} {last file : List UInt8} {t : RxEnt}
    (hlast : dir maxFile = some last) (ht : StandsIn dir t file) :
    TipLast dir (appendTip dir maxFile t).1 maxFile t (appendTip dir maxFile t).2.1 := by
  unfold appendTip
  rw [hlast, ht.file_eq, Option.getD_some, Option.getD_some]
  dsimp only
  split
  · next hend =>
      obtain ⟨hfile, hpos⟩ := hend
      obtain rfl : last = file := by
        have := ht.file_eq
        rw [hfile, hlast] at this
        exact Option.some.inj this
      refine ⟨fun n f hf => ⟨[], by rw [List.append_nil]; exact hf⟩, ⟨rfl, rfl, rfl, rfl⟩, hfile,
        last, ht, hpos, fun f hf => ?_⟩
      rw [ht.file_eq] at hf
      rw [Option.some.inj hf]
  · have hfits := ht.fits
    have hleast := ht.least
    have hlen : (pread file t.pos (t.size + 8)).length = t.size + 8 := by
      rw [length_pread]
      omega
    refine ⟨fun n f hf => ?_, ⟨rfl, rfl, rfl, rfl⟩, rfl,
      last ++ pread file t.pos (t.size + 8), ⟨?_, ?_, hleast, ?_⟩, ?_, fun f hf => ?_⟩
    · by_cases hn : n = maxFile
      · subst hn
        rw [hlast] at hf
        obtain rfl := Option.some.inj hf
        exact ⟨_, Function.update_self ..⟩
      · refine ⟨[], ?_⟩
        rw [List.append_nil, ← hf]
        exact Function.update_of_ne hn ..
    · exact Function.update_self ..
    · rw [List.length_append, hlen]
      dsimp only
      omega
    · dsimp only
      rw [pread_append_right, pread_pread (by omega)]
      exact ht.hash_eq
    · rw [List.length_append, hlen]
      dsimp only
      omega
    · rw [ht.file_eq] at hf
      obtain rfl := Option.some.inj hf
      have := pread_append_right last (pread file t.pos (t.size + 8)) 0 (t.size + 8)
      rw [Nat.add_zero, pread_pread (by omega), Nat.add_zero] at this
      exact this

end BitcoinMachineCode.Chain.Reindex
