import BitcoinMachineCode.Foundation.BitString
import BitcoinMachineCode.Foundation.CountingSort
import BitcoinMachineCode.Foundation.Digits
import BitcoinMachineCode.Foundation.Probing

/-!
# Building a block filter

`bf_build_hashed` of `block_filter.c`: the elements are reduced to the distinct ones in
place, their hashes mapped to the range of the filter, sorted, and written as a count and a
stream of Golomb-Rice coded differences.  Memory is taken to be there when it is asked for.
-/

namespace BitcoinMachineCode.Chain

open BitcoinMachineCode.Foundation

/-! ## SipHash -/

structure SipState where
  v0 : UInt64
  v1 : UInt64
  v2 : UInt64
  v3 : UInt64

def rotl64 (x b : UInt64) : UInt64 := (x <<< b) ||| (x >>> (64 - b))

def sipRound (s : SipState) : SipState :=
  let v0 := s.v0 + s.v1
  let v1 := rotl64 s.v1 13 ^^^ v0
  let v0 := rotl64 v0 32
  let v2 := s.v2 + s.v3
  let v3 := rotl64 s.v3 16 ^^^ v2
  let v0 := v0 + v3
  let v3 := rotl64 v3 21 ^^^ v0
  let v2 := v2 + v1
  let v1 := rotl64 v1 17 ^^^ v2
  let v2 := rotl64 v2 32
  ⟨v0, v1, v2, v3⟩

def sipWord (s : SipState) (word : UInt64) : SipState :=
  let s := sipRound (sipRound { s with v3 := s.v3 ^^^ word })
  { s with v0 := s.v0 ^^^ word }

/-- `bf_siphash` -/
def bfSiphash (k0 k1 : UInt64) (m : List UInt8) : UInt64 :=
  let s : SipState :=
    ⟨0x736f6d6570736575 ^^^ k0, 0x646f72616e646f6d ^^^ k1, 0x6c7967656e657261 ^^^ k0, 0x7465646279746573 ^^^ k1⟩
  let s := (List.range (m.length / 8)).foldl
    (fun s i => sipWord s (UInt64.ofNat (leVal ((m.drop (8 * i)).take 8)))) s
  let s := sipWord s
    (UInt64.ofNat (m.length % 256) <<< 56 ||| UInt64.ofNat (leVal (m.drop (8 * (m.length / 8)))))
  let s := sipRound (sipRound (sipRound (sipRound { s with v2 := s.v2 ^^^ 0xff })))
  s.v0 ^^^ s.v1 ^^^ s.v2 ^^^ s.v3

/-- `bf_map`: the high word of the product. -/
def bfMap (h nm : UInt64) : UInt64 := UInt64.ofNat (h.toNat * nm.toNat / 2 ^ 64)

/-! ## The distinct elements -/

/-- The loop `while (tsz < 2 * n + 2) tsz <<= 1`; it doubles at most as often as the first
argument says. -/
def tszFrom : Nat → Nat → Nat → Nat
  | 0, _, tsz => tsz
  | k + 1, least, tsz => if tsz < least then tszFrom k least (2 * tsz) else tsz

def tableSize (n : Nat) : Nat := tszFrom (2 * n + 2) (2 * n + 2) 1

/-- The table of places, and the elements and their hashes with the first `w` of them kept. -/
structure Dedup where
  tab : Nat → Option Nat
  el : Nat → List UInt8
  h : Nat → UInt64
  w : Nat

/-- The free slot the search for an element ends at, unless it finds the element. -/
def probeSlot (d : Dedup) (tsz : Nat) (hv : UInt64) (e : List UInt8) : Nat → Nat → Option Nat
  | 0, _ => none
  | k + 1, pos =>
      match d.tab pos with
      | none => some pos
      | some j => if d.h j = hv ∧ d.el j = e then none else probeSlot d tsz hv e k ((pos + 1) &&& (tsz - 1))

def dedupStep (k0 k1 : UInt64) (tsz : Nat) (d : Dedup) (i : Nat) : Dedup :=
  let hv := bfSiphash k0 k1 (d.el i)
  match probeSlot d tsz hv (d.el i) tsz (hv.toNat &&& (tsz - 1)) with
  | none => d
  | some pos =>
      { tab := Function.update d.tab pos (some d.w)
        el := Function.update d.el d.w (d.el i)
        h := Function.update d.h d.w hv
        w := d.w + 1 }

def dedupAll (k0 k1 : UInt64) (els : List (List UInt8)) : Dedup :=
  (List.range els.length).foldl (dedupStep k0 k1 (tableSize els.length))
    ⟨fun _ => none, fun i => els.getD i [], fun _ => 0, 0⟩

/-! ## The sort -/

def byteKey (pass : Nat) (v : UInt64) : Nat := ((v >>> UInt64.ofNat (8 * pass)) &&& 0xff).toNat

/-- A pass over `src` and `dst`, which then change places; none if every byte is zero. -/
def radixPass (n : Nat) (s : (Nat → UInt64) × (Nat → UInt64)) (pass : Nat) : (Nat → UInt64) × (Nat → UInt64) :=
  if histogram (byteKey pass) s.1 n 0 = n then s
  else (countingPass (byteKey pass) 256 s.1 s.2 n, s.1)

/-- `bf_radix_sort_u64` -/
def bfRadixSort (h tmp : Nat → UInt64) (n : Nat) : Nat → UInt64 :=
  ((List.range 8).foldl (radixPass n) (h, tmp)).1

/-! ## The bit writer -/

/-- `bf_bw` -/
structure BitWriter where
  out : Nat → UInt8
  cap : Nat
  bitpos : Nat
  overflow : Bool
  acc : Nat
  nacc : Nat

namespace BitWriter

/-- `bw_emit` -/
def emit (w : BitWriter) : BitWriter :=
  if 8 ≤ w.nacc then
    if w.cap ≤ w.bitpos / 8 then { w with overflow := true, nacc := 0 }
    else
      emit { w with
        out := Function.update w.out (w.bitpos / 8) (UInt8.ofNat (w.acc / 2 ^ (w.nacc - 8)))
        nacc := w.nacc - 8
        bitpos := w.bitpos + 8 }
  else w
termination_by w.nacc

/-- `bw_put` -/
def put (w : BitWriter) (v n : Nat) : BitWriter :=
  emit { w with acc := ((w.acc <<< n) ||| (v % 2 ^ n)) % 2 ^ 64, nacc := w.nacc + n }

/-- `bw_ones` -/
def ones (w : BitWriter) (q : Nat) : BitWriter :=
  if 32 ≤ q then ones (w.put 0xffffffff 32) (q - 32)
  else if q = 0 then w
  else w.put (2 ^ q - 1) q
termination_by q

/-- `bw_finish` -/
def finish (w : BitWriter) : BitWriter :=
  if w.nacc = 0 then w
  else if w.cap ≤ w.bitpos / 8 then { w with overflow := true }
  else
    { w with
      out := Function.update w.out (w.bitpos / 8) (UInt8.ofNat (w.acc <<< (8 - w.nacc)))
      bitpos := w.bitpos + w.nacc
      nacc := 0 }

/-- One difference: the quotient, a zero, the remainder. -/
def delta (w : BitWriter) (d : UInt64) : BitWriter :=
  ((w.ones (d >>> 19).toNat).put 0 1).put (d &&& 0x7ffff).toNat 19

end BitWriter

/-! ## The filter -/

/-- The count in front, if there is room for it. -/
def filterHeader (n cap : Nat) : Option (List UInt8) :=
  if n < 0xfd then if cap ≤ 0 then none else some [UInt8.ofNat n]
  else if n ≤ 0xffff then if cap < 3 then none else some (0xfd :: leBytes 2 n)
  else if cap < 5 then none
  else some (0xfe :: leBytes 4 n)

/-- The mapped hashes in order. -/
def sortedHashes (k0 k1 : UInt64) (els : List (List UInt8)) : List UInt64 :=
  let d := dedupAll k0 k1 els
  let nm := UInt64.ofNat d.w * 784931
  items (bfRadixSort (fun i => bfMap (d.h i) nm) (fun _ => 0) d.w) d.w

/-- The loop over the sorted hashes. -/
def writeDeltas (w : BitWriter) (hs : List UInt64) : BitWriter :=
  (hs.foldl (fun s h => (s.1.delta (h - s.2), h)) (w, (0 : UInt64))).1

/-- `bf_build_hashed`: the bytes written, or `none` where the buffer is too small. -/
def bfBuildHashed (k0 k1 : UInt64) (els : List (List UInt8)) (cap : Nat) : Option (List UInt8) :=
  match filterHeader (dedupAll k0 k1 els).w cap with
  | none => none
  | some hdr =>
      let w := (writeDeltas ⟨fun _ => 0, cap - hdr.length, 0, false, 0, 0⟩ (sortedHashes k0 k1 els)).finish
      if w.overflow then none else some (hdr ++ items w.out ((w.bitpos + 7) / 8))

end BitcoinMachineCode.Chain
