import BitcoinMachineCode.Consensus.Sha256
import BitcoinMachineCode.Foundation.DiskWrites
import BitcoinMachineCode.Foundation.FileBytes

/-!
# The block filter index

`daemon/bfilter_index.c`: the filters of the blocks one after the other in a data file, and a
record for each height with the place of its filter and the header chained over all filters up
to it.  The index is opened when a block arrives, follows the chain from there and is cut when
the chain is, but only while it is open.

The filter of a block is a parameter, as `bf_basic_build` makes it from the block and the scripts
of the coins it spends.  Undo data may be missing for a height, and then the index is closed.  A
write is carried out or not; errors of the file system are left out.
-/

namespace BitcoinMachineCode.Storage.FilterIndex

open Foundation Consensus

/-! ## The two files -/

structure BfiRec where
  off : Nat
  len : Nat
  header : List UInt8
  deriving DecidableEq

/-- `bfilters.idx`: missing, still without its header, or with a count and records. -/
inductive IdxFile where
  | absent
  | blank
  | full (count : Nat) (recs : List BfiRec)
  deriving DecidableEq

structure BfiDisk where
  idx : IdxFile
  data : Option (List UInt8)
  deriving DecidableEq

inductive BfiWrite where
  | createIdx
  | createData
  | magic
  | truncIdx (n : Nat)
  | truncData (n : Nat)
  | data (bytes : List UInt8)
  | record (h : Nat) (r : BfiRec)
  | count (n : Nat)

def IdxFile.change (f : Nat → List BfiRec → IdxFile) : IdxFile → IdxFile
  | .full count recs => f count recs
  | idx => idx

def BfiDisk.write (d : BfiDisk) : BfiWrite → BfiDisk
  | .createIdx => { d with idx := .blank }
  | .createData => { d with data := some (d.data.getD []) }
  | .magic => { d with idx := .full 0 [] }
  | .truncIdx n => { d with idx := d.idx.change fun count recs => .full count (recs.take n) }
  | .truncData n => { d with data := d.data.map (List.take n) }
  | .data bytes => { d with data := d.data.map (· ++ bytes) }
  | .record h r =>
      { d with idx := d.idx.change fun count recs =>
          .full count (recs.take h ++ r :: recs.drop (h + 1)) }
  | .count n => { d with idx := d.idx.change fun _ recs => .full n recs }

def BfiDisk.writes (d : BfiDisk) (ws : List BfiWrite) : BfiDisk := ws.foldl BfiDisk.write d

/-! ## The functions of the index -/

/-- The records an open index has and the header of the last one. -/
structure BfiOpen where
  n : Nat
  prev : List UInt8
  deriving DecidableEq

def noHeader : List UInt8 := List.replicate 32 0

def bfHeader (filter prev : List UInt8) : List UInt8 := (sha256d ((sha256d filter).1 ++ prev)).1

def bfiProbeCount (d : BfiDisk) : Option Nat :=
  match d.idx with
  | .full count recs => some (min count recs.length)
  | _ => none

def BfiDisk.rec? (d : BfiDisk) (h : Nat) : Option BfiRec :=
  match d.idx with
  | .full _ recs => recs[h]?
  | _ => none

/-- `bfi_open` for writing: what no complete record stands for is cut off. -/
def bfiOpen (d : BfiDisk) : List BfiWrite × Option BfiOpen :=
  match d.idx, d.data with
  | .full count recs, some data =>
      let nn := min count recs.length
      let cut := if recs.length = nn then [] else [BfiWrite.truncIdx nn]
      if nn = 0 then (cut, some ⟨0, noHeader⟩)
      else
        match recs[nn - 1]? with
        | none => (cut, none)
        | some r =>
            if data.length = r.off + r.len then (cut, some ⟨nn, r.header⟩)
            else if data.length < r.off + r.len then (cut, none)
            else (cut ++ [.truncData (r.off + r.len)], some ⟨nn, r.header⟩)
  | _, _ => ([], none)

def bfiCreate (d : BfiDisk) : Option (List BfiWrite) :=
  match d.idx with
  | .absent => some [.createIdx, .createData, .magic]
  | _ => none

def bfiMaxFilter : Nat := 2 ^ 20

/-- Data first, then the record, then the count. -/
def bfiAppend (d : BfiDisk) (s : BfiOpen) (filter : List UInt8) :
    Option (List BfiWrite × BfiOpen) :=
  if filter = [] ∨ bfiMaxFilter < filter.length then none
  else
    let header := bfHeader filter s.prev
    some ([.data filter, .record s.n ⟨(d.data.getD []).length, filter.length, header⟩,
      .count (s.n + 1)], ⟨s.n + 1, header⟩)

def readRec (d : BfiDisk) (h : Nat) : Option (List UInt8 × List UInt8) :=
  match d.rec? h, d.data with
  | some r, some data =>
      if (pread data r.off r.len).length = r.len then some (pread data r.off r.len, r.header)
      else none
  | _, _ => none

def bfiGet (d : BfiDisk) (s : BfiOpen) (h : Nat) : Option (List UInt8 × List UInt8) :=
  if h < s.n then readRec d h else none

def bfiGetFile (d : BfiDisk) (h : Nat) : Option (List UInt8 × List UInt8) :=
  if h < (bfiProbeCount d).getD 0 then readRec d h else none

section Tail

variable {B : Type} (filterOf : B → List UInt8) (chain : List B) (avail : Nat → Bool)

/-- The filter of a height from the archive and the undo data of the chain. -/
def bfiAppendFromUndo (d : BfiDisk) (s : BfiOpen) (h : Nat) : Option (List BfiWrite × BfiOpen) :=
  match chain[h]? with
  | none => none
  | some b => if avail h then bfiAppend d s (filterOf b) else none

/-- At most so many heights below `h` in one call. -/
def gapClose (h : Nat) : Nat → BfiDisk → BfiOpen → List BfiWrite × Option BfiOpen
  | 0, _, s => ([], some s)
  | k + 1, d, s =>
      if s.n < h then
        match bfiAppendFromUndo filterOf chain avail d s s.n with
        | none => ([], none)
        | some (ws, s') =>
            let out := gapClose h k (d.writes ws) s'
            (ws ++ out.1, out.2)
      else ([], some s)

def gapSlice : Nat := 256

def onBlockOpen (h : Nat) (d : BfiDisk) (s : BfiOpen) : List BfiWrite × Option BfiOpen :=
  match gapClose filterOf chain avail h gapSlice d s with
  | (ws, none) => (ws, none)
  | (ws, some s') =>
      if s'.n = h then
        match bfiAppendFromUndo filterOf chain avail (d.writes ws) s' h with
        | none => (ws, none)
        | some (ws', s'') => (ws ++ ws', some s'')
      else (ws, some s')

/-- The files are created where there are none, and opened. -/
def openFiles (d : BfiDisk) : List BfiWrite × Option BfiOpen :=
  match bfiProbeCount d with
  | some _ => bfiOpen d
  | none =>
      match bfiCreate d with
      | none => ([], none)
      | some ws =>
          let out := bfiOpen (d.writes ws)
          (ws ++ out.1, out.2)

def bfiOnBlock (h : Nat) (d : BfiDisk) : Option BfiOpen → List BfiWrite × Option BfiOpen
  | some s => onBlockOpen filterOf chain avail h d s
  | none =>
      match openFiles d with
      | (ws, none) => (ws, none)
      | (ws, some s) =>
          let out := onBlockOpen filterOf chain avail h (d.writes ws) s
          (ws ++ out.1, out.2)

end Tail

def bfiOnTruncate (newTip : Nat) (d : BfiDisk) : Option BfiOpen → List BfiWrite × Option BfiOpen
  | none => ([], none)
  | some s =>
      if s.n ≤ newTip + 1 then ([], some s)
      else
        match d.rec? newTip with
        | none => ([], none)
        | some r =>
            ([.truncIdx (newTip + 1), .truncData (r.off + r.len), .count (newTip + 1)],
              some ⟨newTip + 1, r.header⟩)

/-! ## The node -/

/-- The active chain, the files and the open index. -/
structure Bfi (B : Type) where
  chain : List B
  disk : BfiDisk
  mem : Option BfiOpen

inductive BfiCall where
  | onBlock (h : Nat) (avail : Nat → Bool)
  | truncate (tip : Nat)

/-- What a call writes and leaves in memory; a truncation is one of the chain first. -/
def Bfi.perform {B : Type} (filterOf : B → List UInt8) (s : Bfi B) :
    BfiCall → List B × List BfiWrite × Option BfiOpen
  | .onBlock h avail => (s.chain, bfiOnBlock filterOf s.chain avail h s.disk s.mem)
  | .truncate tip => (s.chain.take (tip + 1), bfiOnTruncate tip s.disk s.mem)

/-- A process that dies in a call has carried out some of its writes. -/
inductive BfiMove (B : Type) where
  | connect (b : B)
  | call (c : BfiCall)
  | die (c : BfiCall) (k : Nat)
  | close
  | restart

variable {B : Type} (filterOf : B → List UInt8)

def Bfi.move (s : Bfi B) : BfiMove B → Bfi B
  | .connect b => { s with chain := s.chain ++ [b] }
  | .call c =>
      let (chain, ws, mem) := s.perform filterOf c
      ⟨chain, s.disk.writes ws, mem⟩
  | .die c k =>
      let (chain, ws, _) := s.perform filterOf c
      ⟨chain, s.disk.writes (ws.take k), none⟩
  | .close => { s with mem := none }
  | .restart => { s with mem := none }

def Bfi.run (s : Bfi B) (moves : List (BfiMove B)) : Bfi B := moves.foldl (Bfi.move filterOf) s

/-- A node without blocks and without an index. -/
def Bfi.start : Bfi B := ⟨[], ⟨.absent, none⟩, none⟩

/-- A truncation below the records finds the index open, and the process lives to cut it. -/
def Bfi.CutsInTime (s : Bfi B) : BfiMove B → Prop
  | .call (.truncate tip) => (bfiProbeCount s.disk).getD 0 ≤ tip + 1 ∨ s.mem.isSome
  | .die (.truncate tip) k =>
      (bfiProbeCount s.disk).getD 0 ≤ tip + 1 ∨ s.mem.isSome ∧ 0 < k
  | _ => True

def Bfi.Moves (P : Bfi B → BfiMove B → Prop) : Bfi B → List (BfiMove B) → Prop
  | _, [] => True
  | s, mv :: moves => P s mv ∧ Bfi.Moves P (s.move filterOf mv) moves

/-- The header chained over the filters of a chain from genesis. -/
def chainedHeader (chain : List B) : List UInt8 :=
  chain.foldl (fun prev b => bfHeader (filterOf b) prev) noHeader

def Bfi.Serves (s : Bfi B) (h : Nat) (out : List UInt8 × List UInt8) : Prop :=
  bfiGetFile s.disk h = some out ∨ ∃ m, s.mem = some m ∧ bfiGet s.disk m h = some out

/-- What is served for a height of the chain is the filter and the header of the chain. -/
def Bfi.Faithful (s : Bfi B) : Prop :=
  ∀ h out b, s.Serves h out → s.chain[h]? = some b →
    out = (filterOf b, chainedHeader filterOf (s.chain.take (h + 1)))

/-! ## What the files hold -/

/-- The first `n` records are those of the chain. -/
structure Recorded (chain : List B) (recs : List BfiRec) (data : List UInt8) (n : Nat) : Prop where
  le : n ≤ recs.length
  within : n ≤ chain.length
  right : ∀ h b r, h < n → chain[h]? = some b → recs[h]? = some r →
    r.off + r.len ≤ data.length ∧ pread data r.off r.len = filterOf b ∧
      r.header = chainedHeader filterOf (chain.take (h + 1))
  ascending : ∀ i j r r', i ≤ j → j < n → recs[i]? = some r → recs[j]? = some r' →
    r.off + r.len ≤ r'.off + r'.len

variable {filterOf} {chain chain' : List B} {recs recs' : List BfiRec} {data data' : List UInt8}
  {n n' : Nat}

theorem getElem?_of_take {α : Type} {xs ys : List α} (h : ys.take n = xs.take n) {i : Nat}
    (hi : i < n) : ys[i]? = xs[i]? := by
  rw [← List.getElem?_take_of_lt hi, h, List.getElem?_take_of_lt hi]

/-- What a number of records says depends on the chain, the records and the data so far. -/
theorem Recorded.congr (h : Recorded filterOf chain recs data n) (hn : n' ≤ n)
    (hwithin : n' ≤ chain'.length) (hchain : chain'.take n' = chain.take n')
    (hle : n' ≤ recs'.length) (hrecs : recs'.take n' = recs.take n')
    (hdata : ∀ i r, i < n' → recs[i]? = some r → r.off + r.len ≤ data.length →
      r.off + r.len ≤ data'.length ∧ pread data' r.off r.len = pread data r.off r.len) :
    Recorded filterOf chain' recs' data' n' := by
  refine ⟨hle, hwithin, fun i b r hi hb hr => ?_, fun i j r r' hij hj hr hr' => ?_⟩
  · rw [getElem?_of_take hchain hi] at hb
    rw [getElem?_of_take hrecs hi] at hr
    obtain ⟨hend, hfilter, hheader⟩ := h.right i b r (by omega) hb hr
    obtain ⟨hend', hsame⟩ := hdata i r hi hr hend
    have htake : chain'.take (i + 1) = chain.take (i + 1) := by
      have := congrArg (List.take (i + 1)) hchain
      rwa [List.take_take, List.take_take, Nat.min_eq_left (by omega)] at this
    exact ⟨hend', hsame.trans hfilter, by rw [htake]; exact hheader⟩
  · rw [getElem?_of_take hrecs (by omega)] at hr
    rw [getElem?_of_take hrecs hj] at hr'
    exact h.ascending i j r r' hij (by omega) hr hr'

theorem Recorded.fewer (h : Recorded filterOf chain recs data n) (hn : n' ≤ n) :
    Recorded filterOf chain recs data n' :=
  h.congr hn (hn.trans h.within) rfl (hn.trans h.le) rfl fun _ _ _ _ hend => ⟨hend, rfl⟩

theorem Recorded.more_data (h : Recorded filterOf chain recs data n) (more : List UInt8) :
    Recorded filterOf chain recs (data ++ more) n :=
  h.congr (Nat.le_refl _) h.within rfl h.le rfl fun _ r _ _ hend =>
    ⟨by rw [List.length_append]; omega, pread_append_left more hend⟩

theorem Recorded.more_chain (h : Recorded filterOf chain recs data n) (b : B) :
    Recorded filterOf (chain ++ [b]) recs data n := by
  have hwithin := h.within
  refine h.congr (Nat.le_refl _) ?_ ?_ h.le rfl fun _ _ _ _ hend => ⟨hend, rfl⟩
  · rw [List.length_append]
    omega
  · exact List.take_append_of_le_length hwithin

theorem Recorded.cut_chain (h : Recorded filterOf chain recs data n) {k : Nat} (hk : n ≤ k) :
    Recorded filterOf (chain.take k) recs data n := by
  have hwithin := h.within
  refine h.congr (Nat.le_refl _) ?_ ?_ h.le rfl fun _ _ _ _ hend => ⟨hend, rfl⟩
  · rw [List.length_take]
    omega
  · rw [List.take_take, Nat.min_eq_left hk]

theorem Recorded.cut_recs (h : Recorded filterOf chain recs data n) :
    Recorded filterOf chain (recs.take n) data n := by
  have hle := h.le
  refine h.congr (Nat.le_refl _) h.within rfl ?_ ?_ fun _ _ _ _ hend => ⟨hend, rfl⟩
  · rw [List.length_take]
    omega
  · rw [List.take_take, Nat.min_self]

/-- Behind the filter of the last record the data is not needed. -/
theorem Recorded.cut_data (h : Recorded filterOf chain recs data n) {r : BfiRec}
    (hr : recs[n - 1]? = some r) :
    Recorded filterOf chain recs (data.take (r.off + r.len)) n := by
  refine h.congr (Nat.le_refl _) h.within rfl h.le rfl fun i r' hi hr' hend => ?_
  have hle := h.ascending i (n - 1) r' r (by omega) (by omega) hr' hr
  have hlen : (data.take (r.off + r.len)).length = min (r.off + r.len) data.length :=
    List.length_take
  refine ⟨by omega, ?_⟩
  have hcut : data.take (r.off + r.len) = pread data 0 (r.off + r.len) := rfl
  rw [hcut, pread_pread hle, Nat.zero_add]

theorem chainedHeader_succ {b : B} (hb : chain[n]? = some b) :
    chainedHeader filterOf (chain.take (n + 1)) =
      bfHeader (filterOf b) (chainedHeader filterOf (chain.take n)) := by
  obtain ⟨hn, rfl⟩ := List.getElem?_eq_some_iff.mp hb
  rw [← List.take_append_getElem hn, chainedHeader, List.foldl_append]
  rfl

/-- The record of the next height. -/
theorem Recorded.grow {b : B} (h : Recorded filterOf chain recs data recs.length)
    (hb : chain[recs.length]? = some b) :
    Recorded filterOf chain
      (recs ++ [⟨data.length, (filterOf b).length,
        bfHeader (filterOf b) (chainedHeader filterOf (chain.take recs.length))⟩])
      (data ++ filterOf b) (recs.length + 1) := by
  have hlt : recs.length < chain.length := (List.getElem?_eq_some_iff.mp hb).1
  have hmore := h.more_data (filterOf b)
  have hold : ∀ {i : Nat}, i < recs.length → ∀ x : BfiRec, (recs ++ [x])[i]? = recs[i]? :=
    fun hi x => List.getElem?_append_left hi
  have hnew : ∀ x r : BfiRec, (recs ++ [x])[recs.length]? = some r → r = x := by
    intro x r hr
    rw [List.getElem?_concat_length] at hr
    exact (Option.some.inj hr).symm
  refine ⟨by simp, hlt, fun i c r hi hc hr => ?_, fun i j r r' hij hj hr hr' => ?_⟩
  · rcases Nat.lt_or_eq_of_le (Nat.le_of_lt_succ hi) with hi | rfl
    · rw [hold hi] at hr
      exact hmore.right i c r hi hc hr
    · obtain rfl := hnew _ _ hr
      obtain rfl := Option.some.inj (hb.symm.trans hc)
      refine ⟨by rw [List.length_append], ?_, (chainedHeader_succ hb).symm⟩
      have := @pread_append_right _ data (filterOf b) 0 (filterOf b).length
      rw [Nat.add_zero] at this
      rw [this, pread, List.drop_zero, List.take_length]
  · rcases Nat.lt_or_eq_of_le (Nat.le_of_lt_succ hj) with hj | rfl
    · rw [hold (by omega)] at hr
      rw [hold hj] at hr'
      exact h.ascending i j r r' hij hj hr hr'
    · obtain rfl := hnew _ _ hr'
      rcases Nat.lt_or_eq_of_le hij with hi | rfl
      · rw [hold hi] at hr
        have hc : chain[i]? = some (chain.get ⟨i, by omega⟩) := List.getElem?_eq_getElem _
        have := (h.right i _ r hi hc hr).1
        dsimp only
        omega
      · rw [hnew _ _ hr]

variable (filterOf)

/-- Every record that is counted is that of the chain. -/
def BfiDisk.Sound (chain : List B) (d : BfiDisk) : Prop :=
  ∀ count recs, d.idx = .full count recs →
    ∃ data, d.data = some data ∧ Recorded filterOf chain recs data (min count recs.length)

/-- The index is open: it has all records of its file and the last header. -/
def OpenSound (chain : List B) (d : BfiDisk) (s : BfiOpen) : Prop :=
  ∃ count recs data, d = ⟨.full count recs, some data⟩ ∧ recs.length = s.n ∧ s.n ≤ count ∧
    Recorded filterOf chain recs data s.n ∧ s.prev = chainedHeader filterOf (chain.take s.n)

/-- Writes that keep the disk sound all along and lead to an index that is open or closed. -/
def Leads (chain : List B) (d : BfiDisk) (out : List BfiWrite × Option BfiOpen) : Prop :=
  Along BfiDisk.write (BfiDisk.Sound filterOf chain) d out.1 ∧
    ∀ s, out.2 = some s → OpenSound filterOf chain (d.writes out.1) s

variable {filterOf} {d : BfiDisk} {s : BfiOpen} {count : Nat}

theorem sound_full : (⟨.full count recs, some data⟩ : BfiDisk).Sound filterOf chain ↔
    Recorded filterOf chain recs data (min count recs.length) := by
  constructor
  · intro h
    obtain ⟨data', hdata, hrec⟩ := h count recs rfl
    obtain rfl := Option.some.inj hdata
    exact hrec
  · rintro h count' recs' heq
    obtain ⟨rfl, rfl⟩ := IdxFile.full.inj heq
    exact ⟨data, rfl, h⟩

theorem OpenSound.sound (h : OpenSound filterOf chain d s) : d.Sound filterOf chain := by
  obtain ⟨count, recs, data, rfl, hlen, hcount, hrec, -⟩ := h
  rw [sound_full, hlen, Nat.min_eq_right hcount]
  exact hrec

theorem sound_blank {file : Option (List UInt8)} :
    (⟨.blank, file⟩ : BfiDisk).Sound filterOf chain := by
  intro count recs heq
  cases heq

theorem recorded_zero : Recorded filterOf chain recs data 0 where
  le := Nat.zero_le _
  within := Nat.zero_le _
  right h _ _ hlt := absurd hlt (Nat.not_lt_zero h)
  ascending _ j _ _ _ hlt := absurd hlt (Nat.not_lt_zero j)

theorem leads_none {ws : List BfiWrite}
    (h : Along BfiDisk.write (BfiDisk.Sound filterOf chain) d ws) :
    Leads filterOf chain d (ws, none) :=
  ⟨h, fun s hs => absurd hs.symm (Option.some_ne_none s)⟩

theorem leads_closed (h : d.Sound filterOf chain) : Leads filterOf chain d ([], none) :=
  leads_none h

theorem OpenSound.leads (h : OpenSound filterOf chain d s) :
    Leads filterOf chain d ([], some s) := by
  refine ⟨h.sound, fun s' hs' => ?_⟩
  obtain rfl := Option.some.inj hs'
  exact h

theorem Leads.andThen {ws : List BfiWrite} {mem : Option BfiOpen}
    {out : List BfiWrite × Option BfiOpen} (h : Leads filterOf chain d (ws, mem))
    (h' : Leads filterOf chain (d.writes ws) out) :
    Leads filterOf chain d (ws ++ out.1, out.2) := by
  refine ⟨h.1.append h'.1, fun s hs => ?_⟩
  dsimp only
  rw [BfiDisk.writes, List.foldl_append]
  exact h'.2 s hs

/-! ## Appending -/

theorem leads_append {b : B} (hopen : OpenSound filterOf chain d s) (hb : chain[s.n]? = some b)
    {ws : List BfiWrite} {s' : BfiOpen} (h : bfiAppend d s (filterOf b) = some (ws, s')) :
    Leads filterOf chain d (ws, some s') := by
  unfold bfiAppend at h
  split at h
  · cases h
  obtain ⟨rfl, rfl⟩ := Prod.mk.inj (Option.some.inj h)
  obtain ⟨count, recs, data, rfl, hlen, hcount, hrec, hprev⟩ := hopen
  rw [← hlen] at hb hrec hprev hcount ⊢
  have hgrown := hrec.grow hb
  rw [← hprev] at hgrown
  have hheader := @chainedHeader_succ _ filterOf chain recs.length b hb
  rw [← hprev] at hheader
  have hlen' : ∀ r : BfiRec, (recs ++ [r]).length = recs.length + 1 := fun r => by simp
  have hrecs : ∀ r : BfiRec, recs.take recs.length ++ r :: recs.drop (recs.length + 1) =
      recs ++ [r] := by
    intro r
    rw [List.take_length, List.drop_of_length_le (by omega)]
  have hstart : (⟨.full count recs, some data⟩ : BfiDisk).Sound filterOf chain :=
    sound_full.mpr (hrec.fewer (Nat.min_le_right _ _))
  have hdata : (⟨.full count recs, some (data ++ filterOf b)⟩ : BfiDisk).Sound filterOf chain :=
    sound_full.mpr ((hrec.more_data _).fewer (Nat.min_le_right _ _))
  refine ⟨⟨hstart, hdata, ?_, ?_⟩, fun s' hs' => ?_⟩
  · change (⟨.full count (recs.take recs.length ++ _ :: recs.drop (recs.length + 1)),
      some (data ++ filterOf b)⟩ : BfiDisk).Sound filterOf chain
    rw [hrecs, sound_full, hlen']
    exact hgrown.fewer (Nat.min_le_right _ _)
  · change (⟨.full (recs.length + 1) (recs.take recs.length ++ _ :: recs.drop (recs.length + 1)),
      some (data ++ filterOf b)⟩ : BfiDisk).Sound filterOf chain
    rw [hrecs, sound_full, hlen']
    exact hgrown.fewer (Nat.min_le_right _ _)
  · obtain rfl := Option.some.inj hs'
    refine ⟨recs.length + 1, _, data ++ filterOf b, ?_, hlen' _, Nat.le_refl _, hgrown,
      hheader.symm⟩
    rw [← hrecs]
    rfl

variable {avail : Nat → Bool}

theorem leads_appendFromUndo (hopen : OpenSound filterOf chain d s) {ws : List BfiWrite}
    {s' : BfiOpen} (h : bfiAppendFromUndo filterOf chain avail d s s.n = some (ws, s')) :
    Leads filterOf chain d (ws, some s') := by
  unfold bfiAppendFromUndo at h
  split at h
  · cases h
  next b hb =>
  split at h
  · exact leads_append hopen hb h
  · cases h

theorem leads_gapClose (h k : Nat) (hopen : OpenSound filterOf chain d s) :
    Leads filterOf chain d (gapClose filterOf chain avail h k d s) := by
  induction k generalizing d s with
  | zero => exact hopen.leads
  | succ k ih =>
      rw [gapClose]
      split
      · split
        · exact leads_closed hopen.sound
        · next ws s' happend =>
            have hstep := leads_appendFromUndo hopen happend
            exact hstep.andThen (ih (hstep.2 s' rfl))
      · exact hopen.leads

theorem leads_onBlockOpen (h : Nat) (hopen : OpenSound filterOf chain d s) :
    Leads filterOf chain d (onBlockOpen filterOf chain avail h d s) := by
  have hgap := @leads_gapClose _ _ _ _ _ avail h gapSlice hopen
  unfold onBlockOpen
  split
  · next ws hout =>
      rw [hout] at hgap
      exact hgap
  · next ws s' hout =>
      rw [hout] at hgap
      split
      · next hs' =>
          have hopen' := hgap.2 s' rfl
          split
          · exact leads_none hgap.1
          · next ws' s'' happend =>
              subst hs'
              exact hgap.andThen (leads_appendFromUndo hopen' happend)
      · exact hgap

/-! ## Opening -/

theorem cut_eq (recs : List BfiRec) (data : List UInt8) (count nn : Nat) :
    (⟨.full count recs, some data⟩ : BfiDisk).writes
      (if recs.length = nn then [] else [BfiWrite.truncIdx nn]) =
        ⟨.full count (recs.take nn), some data⟩ := by
  split
  · next heq => rw [← heq, List.take_length]; rfl
  · rfl

theorem leads_bfiOpen (hd : d.Sound filterOf chain) : Leads filterOf chain d (bfiOpen d) := by
  obtain ⟨idx, data⟩ := d
  unfold bfiOpen
  split
  · next count recs data hidx hdata =>
      dsimp only at hidx hdata
      subst hidx hdata
      have hrec := sound_full.mp hd
      generalize hnn : min count recs.length = nn at hrec
      have hcut := hrec.cut_recs
      have hcuteq := cut_eq recs data count nn
      have hlen : (recs.take nn).length = nn := by
        rw [List.length_take]
        omega
      have hcutsound : ∀ data', Recorded filterOf chain (recs.take nn) data' nn →
          (⟨.full count (recs.take nn), some data'⟩ : BfiDisk).Sound filterOf chain := by
        intro data' h
        rw [sound_full, hlen, Nat.min_eq_right (by omega)]
        exact h
      have halong : Along BfiDisk.write (BfiDisk.Sound filterOf chain) ⟨.full count recs, some data⟩
          (if recs.length = nn then [] else [BfiWrite.truncIdx nn]) := by
        split
        · exact hd
        · exact ⟨hd, hcutsound _ hcut⟩
      dsimp only
      split
      · next hzero =>
          refine ⟨halong, fun s hs => ?_⟩
          obtain rfl := Option.some.inj hs
          dsimp only
          rw [hcuteq]
          subst hzero
          exact ⟨count, recs.take 0, data, rfl, rfl, Nat.zero_le _, hcut, rfl⟩
      next hpos =>
      split
      · exact leads_none halong
      next r hr =>
      have hlast : chainedHeader filterOf (chain.take nn) = r.header := by
        have hwithin := hrec.within
        have hb : chain[nn - 1]? = some (chain.get ⟨nn - 1, by omega⟩) := List.getElem?_eq_getElem _
        have := (hrec.right (nn - 1) _ r (by omega) hb hr).2.2
        rw [this, Nat.sub_add_cancel (by omega)]
      have hr' : (recs.take nn)[nn - 1]? = some r := by
        rw [List.getElem?_take_of_lt (by omega)]
        exact hr
      split
      · refine ⟨halong, fun s hs => ?_⟩
        obtain rfl := Option.some.inj hs
        dsimp only
        rw [hcuteq]
        exact ⟨count, _, data, rfl, hlen, by dsimp only; omega, hcut, hlast.symm⟩
      split
      · exact leads_none halong
      · have hshort := hcut.cut_data hr'
        have hfirst : Leads filterOf chain ⟨.full count recs, some data⟩
            ((if recs.length = nn then [] else [BfiWrite.truncIdx nn]), none) := leads_none halong
        have hsecond : Leads filterOf chain ⟨.full count (recs.take nn), some data⟩
            ([.truncData (r.off + r.len)], some ⟨nn, r.header⟩) := by
          refine ⟨⟨hcutsound _ hcut, hcutsound _ hshort⟩, fun s hs => ?_⟩
          obtain rfl := Option.some.inj hs
          exact ⟨count, _, _, rfl, hlen, by dsimp only; omega, hshort, hlast.symm⟩
        rw [← hcuteq] at hsecond
        exact hfirst.andThen hsecond
  · exact leads_closed hd

theorem leads_openFiles (hd : d.Sound filterOf chain) : Leads filterOf chain d (openFiles d) := by
  unfold openFiles
  split
  · exact leads_bfiOpen hd
  split
  · exact leads_closed hd
  next ws hcreate =>
  have hnew : Leads filterOf chain d (ws, none) := by
    unfold bfiCreate at hcreate
    split at hcreate
    · next hidx =>
        obtain rfl := Option.some.inj hcreate
        exact leads_none ⟨hd, sound_blank, sound_blank, sound_full.mpr recorded_zero⟩
    · cases hcreate
  exact hnew.andThen (leads_bfiOpen hnew.1.whole)

theorem leads_onBlock (h : Nat) {mem : Option BfiOpen} (hd : d.Sound filterOf chain)
    (hmem : ∀ s, mem = some s → OpenSound filterOf chain d s) :
    Leads filterOf chain d (bfiOnBlock filterOf chain avail h d mem) := by
  cases mem with
  | some s => exact leads_onBlockOpen h (hmem s rfl)
  | none =>
      have hfiles := leads_openFiles hd
      unfold bfiOnBlock
      split
      · cases ‹_ = _›
      split
      · next ws hout =>
          rw [hout] at hfiles
          exact hfiles
      · next ws s hout =>
          rw [hout] at hfiles
          exact hfiles.andThen (leads_onBlockOpen h (hfiles.2 s rfl))

/-! ## Cutting -/

theorem BfiDisk.Sound.cut (hd : d.Sound filterOf chain) {k : Nat}
    (hk : (bfiProbeCount d).getD 0 ≤ k) : d.Sound filterOf (chain.take k) := by
  intro count recs hidx
  obtain ⟨data, hdata, hrec⟩ := hd count recs hidx
  have hserved : min count recs.length ≤ k := by
    rw [bfiProbeCount, hidx] at hk
    exact hk
  exact ⟨data, hdata, hrec.cut_chain hserved⟩

theorem OpenSound.probe (h : OpenSound filterOf chain d s) : (bfiProbeCount d).getD 0 = s.n := by
  obtain ⟨count, recs, data, rfl, hlen, hcount, -⟩ := h
  change min count recs.length = s.n
  omega

theorem OpenSound.cut (h : OpenSound filterOf chain d s) {k : Nat} (hk : s.n ≤ k) :
    OpenSound filterOf (chain.take k) d s := by
  obtain ⟨count, recs, data, hd, hlen, hcount, hrec, hprev⟩ := h
  refine ⟨count, recs, data, hd, hlen, hcount, hrec.cut_chain hk, ?_⟩
  rw [List.take_take, Nat.min_eq_left hk]
  exact hprev

/-- From its first write on a truncation of the open index has followed the chain. -/
theorem leads_truncate (hopen : OpenSound filterOf chain d s) {tip : Nat} (htip : tip + 1 < s.n) :
    ∃ ws s', bfiOnTruncate tip d (some s) = (.truncIdx (tip + 1) :: ws, some s') ∧
      Leads filterOf (chain.take (tip + 1)) (d.write (.truncIdx (tip + 1))) (ws, some s') := by
  obtain ⟨count, recs, data, rfl, hlen, hcount, hrec, -⟩ := hopen
  have hr : recs[tip]? = some (recs.get ⟨tip, by omega⟩) := List.getElem?_eq_getElem _
  generalize recs.get ⟨tip, by omega⟩ = r at hr
  have hshort := ((hrec.fewer (Nat.le_of_lt htip)).cut_recs).cut_chain (Nat.le_refl _)
  have hrlast : (recs.take (tip + 1))[tip + 1 - 1]? = some r := by
    rw [List.getElem?_take_of_lt (by omega)]
    exact hr
  have hcut := hshort.cut_data hrlast
  have hlen' : (recs.take (tip + 1)).length = tip + 1 := by
    rw [List.length_take]
    omega
  have hsound : ∀ count' data', tip + 1 ≤ count' →
      Recorded filterOf (chain.take (tip + 1)) (recs.take (tip + 1)) data' (tip + 1) →
      (⟨.full count' (recs.take (tip + 1)), some data'⟩ : BfiDisk).Sound filterOf
        (chain.take (tip + 1)) := by
    intro count' data' hle h
    rw [sound_full, hlen', Nat.min_eq_right hle]
    exact h
  have hb : chain[tip]? = some (chain.get ⟨tip, by have := hrec.within; omega⟩) :=
    List.getElem?_eq_getElem _
  have hheader := (hrec.right tip _ r (by omega) hb hr).2.2
  refine ⟨[.truncData (r.off + r.len), .count (tip + 1)], ⟨tip + 1, r.header⟩, ?_, ⟨?_, ?_, ?_⟩,
    fun s' hs' => ?_⟩
  · unfold bfiOnTruncate
    dsimp only
    rw [if_neg (by omega)]
    unfold BfiDisk.rec?
    dsimp only
    rw [hr]
  · exact hsound count data (by omega) hshort
  · exact hsound count _ (by omega) hcut
  · exact hsound (tip + 1) _ (Nat.le_refl _) hcut
  · obtain rfl := Option.some.inj hs'
    refine ⟨tip + 1, _, _, rfl, hlen', Nat.le_refl _, hcut, ?_⟩
    rw [List.take_take, Nat.min_self]
    exact hheader

/-! ## Runs -/

/-- The files and the open index follow the chain. -/
structure Bfi.Sound (filterOf : B → List UInt8) (s : Bfi B) : Prop where
  disk : s.disk.Sound filterOf s.chain
  mem : ∀ m, s.mem = some m → OpenSound filterOf s.chain s.disk m

theorem Recorded.readRec_eq (h : Recorded filterOf chain recs data n) {i : Nat} (hi : i < n) {b : B}
    (hb : chain[i]? = some b) {out : List UInt8 × List UInt8}
    (hout : readRec ⟨.full count recs, some data⟩ i = some out) :
    out = (filterOf b, chainedHeader filterOf (chain.take (i + 1))) := by
  unfold readRec at hout
  split at hout
  · next r data' hr hdata =>
      obtain rfl := Option.some.inj hdata
      obtain ⟨-, hfilter, hheader⟩ := h.right i b r hi hb hr
      split at hout
      · rw [← Option.some.inj hout, hfilter, hheader]
      · cases hout
  · cases hout

theorem Bfi.Sound.faithful {s : Bfi B} (h : s.Sound filterOf) : s.Faithful filterOf := by
  rintro i out b (hfile | ⟨m, hm, hget⟩) hb
  · obtain ⟨chain, ⟨idx, data⟩, mem⟩ := s
    unfold bfiGetFile at hfile
    split at hfile
    · next hlt =>
        cases idx with
        | absent => cases hfile
        | blank => cases hfile
        | full count recs =>
            obtain ⟨data', hdata, hrec⟩ := h.disk count recs rfl
            dsimp only at hdata
            subst hdata
            exact hrec.readRec_eq hlt hb hfile
    · cases hfile
  · obtain ⟨count, recs, data, hd, hlen, hcount, hrec, -⟩ := h.mem m hm
    unfold bfiGet at hget
    split at hget
    · next hlt =>
        rw [hd] at hget
        exact hrec.readRec_eq hlt hb hget
    · cases hget

theorem Bfi.Sound.connect {s : Bfi B} (h : s.Sound filterOf) (b : B) :
    (s.move filterOf (.connect b)).Sound filterOf := by
  constructor
  · intro count recs hidx
    obtain ⟨data, hdata, hrec⟩ := h.disk count recs hidx
    exact ⟨data, hdata, hrec.more_chain b⟩
  · intro m hm
    obtain ⟨count, recs, data, hd, hlen, hcount, hrec, hprev⟩ := h.mem m hm
    refine ⟨count, recs, data, hd, hlen, hcount, hrec.more_chain b, ?_⟩
    rw [hprev]
    exact congrArg _ (List.take_append_of_le_length hrec.within).symm

theorem Bfi.Sound.of_leads {ws : List BfiWrite} {mem : Option BfiOpen}
    (h : Leads filterOf chain d (ws, mem)) : Bfi.Sound filterOf ⟨chain, d.writes ws, mem⟩ :=
  ⟨h.1.whole, h.2⟩

theorem Bfi.Sound.of_leads_take {ws : List BfiWrite} {mem : Option BfiOpen}
    (h : Leads filterOf chain d (ws, mem)) (k : Nat) :
    Bfi.Sound filterOf ⟨chain, d.writes (ws.take k), none⟩ :=
  ⟨h.1.take k, nofun⟩

/-- What a truncation leads to, whole or cut short. -/
theorem Bfi.Sound.truncate {s : Bfi B} (h : s.Sound filterOf) {tip : Nat} :
    ((bfiProbeCount s.disk).getD 0 ≤ tip + 1 →
      Leads filterOf (s.chain.take (tip + 1)) s.disk (bfiOnTruncate tip s.disk s.mem)) ∧
    (s.mem.isSome → tip + 1 < (bfiProbeCount s.disk).getD 0 →
      ∃ ws mem, bfiOnTruncate tip s.disk s.mem = (.truncIdx (tip + 1) :: ws, mem) ∧
        Leads filterOf (s.chain.take (tip + 1)) (s.disk.write (.truncIdx (tip + 1))) (ws, mem)) := by
  obtain ⟨chain, d, mem⟩ := s
  constructor
  · intro hle
    have hd := h.disk.cut hle
    cases mem with
    | none => exact leads_closed hd
    | some m =>
        have hopen := h.mem m rfl
        rw [hopen.probe] at hle
        have hsame : bfiOnTruncate tip d (some m) = ([], some m) := if_pos hle
        dsimp only
        rw [hsame]
        exact (hopen.cut hle).leads
  · intro hsome hlt
    obtain ⟨m, rfl⟩ := Option.isSome_iff_exists.mp hsome
    have hopen := h.mem m rfl
    rw [hopen.probe] at hlt
    obtain ⟨ws, s', heq, hleads⟩ := leads_truncate hopen hlt
    exact ⟨ws, some s', heq, hleads⟩

theorem Bfi.Sound.move {s : Bfi B} (h : s.Sound filterOf) {mv : BfiMove B}
    (hcut : s.CutsInTime mv) : (s.move filterOf mv).Sound filterOf := by
  cases mv with
  | connect b => exact h.connect b
  | close => exact ⟨h.disk, nofun⟩
  | restart => exact ⟨h.disk, nofun⟩
  | call c =>
      cases c with
      | onBlock i avail => exact .of_leads (leads_onBlock i h.disk h.mem)
      | truncate tip =>
          by_cases hle : (bfiProbeCount s.disk).getD 0 ≤ tip + 1
          · exact .of_leads (h.truncate.1 hle)
          · have hsome : s.mem.isSome := Or.resolve_left hcut hle
            obtain ⟨ws, mem, heq, hleads⟩ := h.truncate.2 hsome (Nat.lt_of_not_le hle)
            change Bfi.Sound filterOf ⟨s.chain.take (tip + 1),
              s.disk.writes (bfiOnTruncate tip s.disk s.mem).1, (bfiOnTruncate tip s.disk s.mem).2⟩
            rw [heq]
            have hsound := Bfi.Sound.of_leads hleads
            exact hsound
  | die c k =>
      cases c with
      | onBlock i avail => exact .of_leads_take (leads_onBlock i h.disk h.mem) k
      | truncate tip =>
          by_cases hle : (bfiProbeCount s.disk).getD 0 ≤ tip + 1
          · exact .of_leads_take (h.truncate.1 hle) k
          · obtain ⟨hsome, hk⟩ := Or.resolve_left hcut hle
            obtain ⟨ws, mem, heq, hleads⟩ := h.truncate.2 hsome (Nat.lt_of_not_le hle)
            obtain ⟨k, rfl⟩ := Nat.exists_eq_add_of_le' hk
            change Bfi.Sound filterOf ⟨s.chain.take (tip + 1),
              s.disk.writes ((bfiOnTruncate tip s.disk s.mem).1.take (k + 1)), none⟩
            rw [heq, List.take_succ_cons]
            exact .of_leads_take hleads k

theorem Bfi.Sound.run {s : Bfi B} (h : s.Sound filterOf) {moves : List (BfiMove B)}
    (hcut : Bfi.Moves filterOf Bfi.CutsInTime s moves) : (s.run filterOf moves).Sound filterOf := by
  induction moves generalizing s with
  | nil => exact h
  | cons mv moves ih => exact ih (h.move hcut.1) hcut.2

/-- As long as every truncation below the records finds the index open and the process lives to
cut it, what the index serves is that of the active chain. -/
theorem faithful_of_cutsInTime (filterOf : B → List UInt8) (moves : List (BfiMove B))
    (hcut : Bfi.Moves filterOf Bfi.CutsInTime Bfi.start moves) :
    (Bfi.start.run filterOf moves).Faithful filterOf := by
  have hstart : Bfi.Sound filterOf (Bfi.start : Bfi B) := ⟨nofun, nofun⟩
  exact (hstart.run hcut).faithful

/-! ## An index that was closed -/

/-- Blocks with the filters of blocks 0, 2 and 3 of the test chain. -/
inductive SampleBlock where
  | genesis
  | first
  | other

def sampleFilter : SampleBlock → List UInt8
  | .genesis => [0x01, 0x9d, 0xfc, 0xa8]
  | .first => [0x01, 0x74, 0xa1, 0x70]
  | .other => [0x01, 0x6c, 0xf7, 0xa0]

/-- Two blocks with their filters, then the second one is replaced. -/
def sampleMoves (between : List (BfiMove SampleBlock)) : List (BfiMove SampleBlock) :=
  [.connect .genesis, .call (.onBlock 0 fun _ => true), .connect .first,
    .call (.onBlock 1 fun _ => true)] ++ between ++
    [.call (.truncate 0), .connect .other, .call (.onBlock 1 fun _ => true)]

theorem faithful_sample :
    (Bfi.start.run sampleFilter (sampleMoves [])).Faithful sampleFilter := by
  refine faithful_of_cutsInTime sampleFilter _ ?_
  refine ⟨trivial, trivial, trivial, trivial, .inr ?_, trivial, trivial, trivial⟩
  decide

/-- After a restart the truncation finds the index closed, and the filter of the block that was
replaced stays. -/
theorem not_faithful_restart :
    ¬ (Bfi.start.run sampleFilter (sampleMoves [.restart])).Faithful sampleFilter := by
  intro h
  have hchain : (Bfi.start.run sampleFilter (sampleMoves [.restart])).chain[1]? =
      some SampleBlock.other := rfl
  have hserved : (bfiGetFile (Bfi.start.run sampleFilter (sampleMoves [.restart])).disk 1).map
      Prod.fst = some (sampleFilter .first) := by
    decide
  obtain ⟨out, hout, hfilter⟩ := Option.map_eq_some_iff.mp hserved
  have := congrArg Prod.fst (h 1 out .other (.inl hout) hchain)
  rw [hfilter] at this
  cases this

end BitcoinMachineCode.Storage.FilterIndex
