import BitcoinMachineCode.Foundation.Digits

/-!
# The fork tree

The headers of branches off the best chain, as `daemon/hdr_tree.c` keeps them:
a bounded table of entries and the file that repeats it.  A header is appended
while there is room; in a full table it takes the place of the lightest tip, if
it is heavier.  `block_hash` is a parameter throughout.
-/

namespace BitcoinMachineCode.Chain

open BitcoinMachineCode.Foundation

/-! ## Entries and records -/

def hdrtreeMax : Nat := 8192

def hdrtreeRec : Nat := 184

def hdrtreeRecV1 : Nat := 96

def hdrtreeHaveHdr : UInt32 := 1

structure Entry where
  hash : Bytes 32
  prev : Bytes 32
  height : Int64
  bits : UInt32
  work : BitVec 128
  ntx : UInt32
  flags : UInt32
  hdr : Bytes 80
  deriving DecidableEq

/-- The parent a wire header names. -/
def hdrPrev (hdr : Bytes 80) : Bytes 32 := hdr.slice 4 32 (by omega)

def hdrBits (hdr : Bytes 80) : UInt32 :=
  UInt32.ofNat (leVal (hdr.slice 72 4 (by omega)).1)

def pack (e : Entry) : List UInt8 :=
  e.hash.1 ++ (e.prev.1 ++ (leBytes 8 e.height.toUInt64.toNat ++
    (leBytes 4 e.bits.toNat ++ (leBytes 16 e.work.toNat ++
      (leBytes 4 e.ntx.toNat ++ (leBytes 4 e.flags.toNat ++
        (e.hdr.1 ++ List.replicate 4 0)))))))

/-- A version-1 record has no transaction count, no flags and no header. -/
def unpack (v2 : Bool) (r : List UInt8) : Entry where
  hash := Bytes.ofList 32 (r.take 32)
  prev := Bytes.ofList 32 ((r.drop 32).take 32)
  height := (UInt64.ofNat (leVal ((r.drop 64).take 8))).toInt64
  bits := UInt32.ofNat (leVal ((r.drop 72).take 4))
  work := BitVec.ofNat 128 (leVal ((r.drop 76).take 16))
  ntx := if v2 then UInt32.ofNat (leVal ((r.drop 92).take 4)) else 0
  flags := if v2 then UInt32.ofNat (leVal ((r.drop 96).take 4)) else 0
  hdr := if v2 then Bytes.ofList 80 ((r.drop 100).take 80)
    else Bytes.ofList 80 []

def fill (h : Bytes 32) (hdr : Bytes 80) (height : Int64) (work : BitVec 128)
    (ntx : UInt32) : Entry :=
  ⟨h, hdrPrev hdr, height, hdrBits hdr, work, ntx, hdrtreeHaveHdr, hdr⟩

/-- `chainwork_cmp`: two 128-bit numbers, least significant byte first. -/
def chainworkCmp (a b : BitVec 128) : Int :=
  if b < a then 1 else if a < b then -1 else 0

/-! ## The table and its files -/

/-- The process's table with the version-2 and version-1 files beside it. -/
structure HdrTree where
  entries : List Entry
  loaded : Bool
  file : Option (List UInt8)
  fileV1 : Option (List UInt8)

namespace HdrTree

/-- The reader's loop: whole records from the front, while there is room. -/
def loadRecords (v2 : Bool) : Nat → List UInt8 → List Entry
  | 0, _ => []
  | room + 1, bytes =>
      let rs := if v2 then hdrtreeRec else hdrtreeRecV1
      if bytes.length < rs then []
      else unpack v2 (bytes.take rs) :: loadRecords v2 room (bytes.drop rs)

/-- The file written anew and renamed into place. -/
def rewrite (t : HdrTree) : HdrTree :=
  { t with file := some (t.entries.flatMap pack) }

def hdrtreeOpen (t : HdrTree) : HdrTree :=
  match t.file, t.fileV1 with
  | some bytes, _ =>
      { t with entries := loadRecords true hdrtreeMax bytes, loaded := true }
  | none, some bytes =>
      -- read once, written as version 2, the old file moved aside
      { ({ t with
            entries := loadRecords false hdrtreeMax bytes
            loaded := true } : HdrTree).rewrite with fileV1 := none }
  | none, none => { t with entries := [], loaded := true }

/-- The first entry with this hash, and its place. -/
def find (t : HdrTree) (h : Bytes 32) : Option (Entry × Nat) :=
  t.entries.zipIdx.find? fun p => p.1.hash = h

/-- No other entry names this one as its parent. -/
def isTip (entries : List Entry) (p : Entry × Nat) : Bool :=
  entries.zipIdx.all fun q => q.2 == p.2 || q.1.prev != p.1.hash

/-- The scans of `hdrtree_add_ntx` and `hdrtree_best`: among the tips, the
first that no later one beats. -/
def bestTip (beats : BitVec 128 → BitVec 128 → Bool) (entries : List Entry) :
    Option (Entry × Nat) :=
  entries.zipIdx.foldl
    (fun best p =>
      if isTip entries p &&
          best.all (fun b => beats p.1.work b.1.work) then some p
      else best)
    none

/-- The lightest tip, which a full table gives up. -/
def victim (entries : List Entry) : Option (Entry × Nat) :=
  bestTip (fun a b => chainworkCmp a b < 0) entries

def hdrtreeBest (t : HdrTree) : Option Entry :=
  (bestTip (fun a b => chainworkCmp a b > 0) t.entries).map Prod.fst

/-- What a known entry lacked is filled in from the header offered again. -/
def complete (hdr : Bytes 80) (ntx : UInt32) (e : Entry) : Entry :=
  { e with
    hdr := hdr
    flags := e.flags ||| hdrtreeHaveHdr
    ntx := if ntx ≠ 0 then ntx else e.ntx }

variable (blockHash : Bytes 80 → Bytes 32)

/-- The part of `hdrtree_add_ntx` after the table is loaded. -/
def addLoaded (t : HdrTree) (hdr : Bytes 80) (height : Int64)
    (work : BitVec 128) (ntx : UInt32) : HdrTree × Int :=
  let e := fill (blockHash hdr) hdr height work ntx
  match t.find (blockHash hdr) with
  | some (known, at_) =>
      if known.flags &&& hdrtreeHaveHdr = 0 ∨ (known.ntx = 0 ∧ ntx ≠ 0) then
        ({ t with
            entries := t.entries.set at_ (complete hdr ntx known) }.rewrite, 0)
      else (t, 0)
  | none =>
      if hdrtreeMax ≤ t.entries.length then
        match victim t.entries with
        | none => (t, -1)
        | some (v, i) =>
            if chainworkCmp work v.work ≤ 0 then (t, -1)
            else ({ t with entries := t.entries.set i e }.rewrite, 1)
      else
        ({ t with
            entries := t.entries ++ [e]
            file := some (t.file.getD [] ++ pack e) }, 1)

def hdrtreeAddNtx (t : HdrTree) (hdr : Bytes 80) (height : Int64)
    (work : BitVec 128) (ntx : UInt32) : HdrTree × Int :=
  (if t.loaded then t else t.hdrtreeOpen).addLoaded blockHash hdr height work
    ntx

def hdrtreePruneBelow (t : HdrTree) (height : Int64) : HdrTree × Nat :=
  let kept := t.entries.filter fun e => ¬ e.height < height
  let dropped := t.entries.length - kept.length
  if dropped = 0 then (t, 0) else (({ t with entries := kept }).rewrite, dropped)

/-! ## What the scans find -/

variable {t : HdrTree} {entries : List Entry}

theorem find_some {h : Bytes 32} {e : Entry} {i : Nat}
    (hfind : t.find h = some (e, i)) :
    t.entries[i]? = some e ∧ e.hash = h := by
  have hmem := List.mem_of_find?_eq_some hfind
  have hhash := List.find?_some hfind
  exact ⟨List.mem_zipIdx_iff_getElem?.mp hmem, by simpa using hhash⟩

theorem find_none {h : Bytes 32} :
    t.find h = none ↔ ∀ e ∈ t.entries, e.hash ≠ h := by
  rw [find, List.find?_eq_none]
  constructor
  · intro hnone e he
    obtain ⟨i, hi⟩ := List.mem_iff_getElem?.mp he
    simpa using hnone (e, i) (List.mem_zipIdx_iff_getElem?.mpr hi)
  · intro hnone p hp
    have he := List.mem_of_getElem? (List.mem_zipIdx_iff_getElem?.mp hp)
    simpa using hnone p.1 he

theorem isTip_iff {e : Entry} {i : Nat} :
    isTip entries (e, i) = true ↔
      ∀ k x, entries[k]? = some x → k ≠ i → x.prev ≠ e.hash := by
  rw [isTip, List.all_eq_true]
  constructor
  · intro hall k x hx hk
    have hor := hall (x, k) (List.mem_zipIdx_iff_getElem?.mpr hx)
    simpa [hk] using hor
  · intro hall q hq
    by_cases hk : q.2 = i
    · simp [hk]
    · have hne := hall q.2 q.1 (List.mem_zipIdx_iff_getElem?.mp hq) hk
      simp [hne]

/-- The scan's invariant: what it holds is a tip it has passed, and it holds
one as soon as it has passed one. -/
theorem foldl_tip (entries : List Entry) (beats : BitVec 128 → BitVec 128 → Bool)
    (ts : List (Entry × Nat)) (best : Option (Entry × Nat)) :
    let last := ts.foldl
      (fun best p =>
        if isTip entries p && best.all (fun b => beats p.1.work b.1.work)
        then some p else best) best
    (∀ p, last = some p → best = some p ∨ (p ∈ ts ∧ isTip entries p = true)) ∧
      (last = none → best = none ∧ ∀ p ∈ ts, isTip entries p = false) := by
  induction ts generalizing best with
  | nil => simp
  | cons q ts ih =>
      simp only [List.foldl_cons]
      by_cases htake :
          (isTip entries q && best.all (fun b => beats q.1.work b.1.work)) = true
      · rw [if_pos htake]
        have htip : isTip entries q = true := by
          simp only [Bool.and_eq_true] at htake
          exact htake.1
        obtain ⟨hsome, hnone⟩ := ih (some q)
        refine ⟨fun p hp => ?_, fun hlast => ?_⟩
        · rcases hsome p hp with hq | ⟨hmem, hp⟩
          · cases hq
            exact Or.inr ⟨List.mem_cons_self, htip⟩
          · exact Or.inr ⟨List.mem_cons_of_mem _ hmem, hp⟩
        · exact absurd (hnone hlast).1 (by simp)
      · rw [if_neg htake]
        obtain ⟨hsome, hnone⟩ := ih best
        refine ⟨fun p hp => ?_, fun hlast => ?_⟩
        · rcases hsome p hp with hq | ⟨hmem, hp⟩
          · exact Or.inl hq
          · exact Or.inr ⟨List.mem_cons_of_mem _ hmem, hp⟩
        · obtain ⟨hbest, hrest⟩ := hnone hlast
          subst hbest
          have hq : isTip entries q = false := by simpa using htake
          refine ⟨rfl, fun p hp => ?_⟩
          rcases List.mem_cons.mp hp with rfl | hp
          · exact hq
          · exact hrest p hp

theorem victim_some {v : Entry} {i : Nat} (h : victim entries = some (v, i)) :
    entries[i]? = some v ∧ isTip entries (v, i) = true := by
  have hscan := foldl_tip entries (fun a b => chainworkCmp a b < 0)
    entries.zipIdx none
  rcases hscan.1 (v, i) h with hnone | ⟨hmem, htip⟩
  · cases hnone
  · exact ⟨List.mem_zipIdx_iff_getElem?.mp hmem, htip⟩

theorem victim_none (h : victim entries = none) {e : Entry} {i : Nat}
    (hi : entries[i]? = some e) : isTip entries (e, i) = false := by
  have hscan := foldl_tip entries (fun a b => chainworkCmp a b < 0)
    entries.zipIdx none
  exact (hscan.2 h).2 (e, i) (List.mem_zipIdx_iff_getElem?.mpr hi)

theorem not_chainworkCmp_le {a b : BitVec 128} :
    ¬ chainworkCmp a b ≤ 0 ↔ b < a := by
  rw [chainworkCmp]
  split
  · simp [*]
  · split <;> simp [*]

/-! ## What an offer can do -/

/-- The header that took a full table's lightest tip. -/
structure Evicts (t : HdrTree) (hdr : Bytes 80) (work : BitVec 128)
    (v : Entry) (i : Nat) : Prop where
  fresh : t.find (blockHash hdr) = none
  full : hdrtreeMax ≤ t.entries.length
  lightest : victim t.entries = some (v, i)
  heavier : v.work < work

variable {blockHash} in
theorem Evicts.addLoaded {hdr : Bytes 80} {work : BitVec 128} {v : Entry}
    {i : Nat} (hev : Evicts blockHash t hdr work v i) (height : Int64)
    (ntx : UInt32) :
    t.addLoaded blockHash hdr height work ntx =
      ({ t with
          entries := t.entries.set i
            (fill (blockHash hdr) hdr height work ntx) }.rewrite, 1) := by
  have hcmp : ¬ chainworkCmp work v.work ≤ 0 :=
    not_chainworkCmp_le.mpr hev.heavier
  simp [HdrTree.addLoaded, hev.fresh, hev.full, hev.lightest, hcmp]

theorem addLoaded_append {hdr : Bytes 80} (height : Int64) (work : BitVec 128)
    (ntx : UInt32) (hfresh : t.find (blockHash hdr) = none)
    (hroom : t.entries.length < hdrtreeMax) :
    t.addLoaded blockHash hdr height work ntx =
      ({ t with
          entries := t.entries ++ [fill (blockHash hdr) hdr height work ntx]
          file := some (t.file.getD [] ++
            pack (fill (blockHash hdr) hdr height work ntx)) }, 1) := by
  have hroom' : ¬ hdrtreeMax ≤ t.entries.length := by omega
  simp [HdrTree.addLoaded, hfresh, hroom']

theorem addLoaded_cases (t : HdrTree) (hdr : Bytes 80) (height : Int64)
    (work : BitVec 128) (ntx : UInt32) :
    let e := fill (blockHash hdr) hdr height work ntx
    let out := t.addLoaded blockHash hdr height work ntx
    (out.1 = t ∧ out.2 ≠ 1) ∨
    (∃ known i, t.entries[i]? = some known ∧
      out.1 = { t with
        entries := t.entries.set i (complete hdr ntx known) }.rewrite ∧
      out.2 ≠ 1) ∨
    (∃ v i, Evicts blockHash t hdr work v i ∧
      out.1 = { t with entries := t.entries.set i e }.rewrite ∧ out.2 = 1) ∨
    (t.find (blockHash hdr) = none ∧ t.entries.length < hdrtreeMax ∧
      out.1 = { t with
        entries := t.entries ++ [e]
        file := some (t.file.getD [] ++ pack e) } ∧ out.2 = 1) := by
  intro e out
  cases hfind : t.find (blockHash hdr) with
  | some p =>
      obtain ⟨known, i⟩ := p
      by_cases hlacks : known.flags &&& hdrtreeHaveHdr = 0 ∨
          (known.ntx = 0 ∧ ntx ≠ 0)
      · refine Or.inr (Or.inl ⟨known, i, (find_some hfind).1, ?_⟩)
        simp [out, addLoaded, hfind, hlacks]
      · refine Or.inl ?_
        simp [out, addLoaded, hfind, hlacks]
  | none =>
      by_cases hfull : hdrtreeMax ≤ t.entries.length
      · cases hv : victim t.entries with
        | none =>
            refine Or.inl ?_
            simp [out, addLoaded, hfind, hfull, hv]
        | some p =>
            obtain ⟨v, i⟩ := p
            by_cases hle : chainworkCmp work v.work ≤ 0
            · refine Or.inl ?_
              simp [out, addLoaded, hfind, hfull, hv, hle]
            · have hev : Evicts blockHash t hdr work v i :=
                ⟨hfind, hfull, hv, not_chainworkCmp_le.mp hle⟩
              refine Or.inr (Or.inr (Or.inl ⟨v, i, hev, ?_⟩))
              simp [out, e, hev.addLoaded]
      · have hroom : t.entries.length < hdrtreeMax := by omega
        refine Or.inr (Or.inr (Or.inr ⟨rfl, hroom, ?_⟩))
        simp [out, e, addLoaded_append blockHash height work ntx hfind hroom]

end HdrTree

end BitcoinMachineCode.Chain
