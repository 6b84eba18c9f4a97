import BitcoinMachineCode.Foundation.Digits
import BitcoinMachineCode.Foundation.FileBytes
import BitcoinMachineCode.Foundation.KWayMerge
import Mathlib.Order.Compare

/-!
# The files of an index run

A run of the transaction index or of the spender index is one file: a header of 48 bytes,
records of one size in order, and a sparse table with the key and the offset of every 256th
record.  `irs_open_run` of `daemon/index_runs.c` checks a file and reads its header, and
`daemon/merge_index_runs.c` writes one.
-/

namespace BitcoinMachineCode.Storage.IndexRuns

open BitcoinMachineCode.Foundation KWay

structure Fmt where
  magic : List UInt8
  recBytes : Nat
  sparseBytes : Nat
  keylen : Nat
  voutAt : Option Nat

inductive Index where
  | txindex
  | txospender

def Index.fmt : Index → Fmt
  | .txindex => ⟨[0x42, 0x4d, 0x43, 0x54, 0x58, 0x49, 0x44, 0x58], 20, 16, 8, none⟩
  | .txospender => ⟨[0x42, 0x4d, 0x43, 0x54, 0x58, 0x4f, 0x53, 0x50], 28, 24, 12, some 12⟩

def irsHdr : Nat := 48

/-! ## The order of records -/

namespace Fmt

def voutOf (f : Fmt) (r : List UInt8) : Nat :=
  match f.voutAt with
  | none => 0
  | some off => leVal (pread r off 4)

/-- The height stands after the key, and after the output number where there is one. -/
def heightAt (f : Fmt) : Nat := f.keylen + if f.voutAt.isSome then 4 else 0

def heightOf (f : Fmt) (r : List UInt8) : Nat := leVal (pread r f.heightAt 4)

def offsetOf (f : Fmt) (r : List UInt8) : Nat := leVal (pread r (f.heightAt + 4) 4)

end Fmt

/-- Key, output number, height, offset. -/
def recCmp (f : Fmt) : List UInt8 → List UInt8 → Ordering :=
  compareLex (compareOn fun r => r.take f.keylen)
    (compareLex (compareOn f.voutOf) (compareLex (compareOn f.heightOf) (compareOn f.offsetOf)))

def recLt (f : Fmt) (a b : List UInt8) : Bool := recCmp f a b == .lt

instance (f : Fmt) : Std.TransCmp (recCmp f) := inferInstanceAs (Std.TransCmp (compareLex _ _))

theorem recLt_eq_false {f : Fmt} {a b : List UInt8} : recLt f b a = false ↔ (recCmp f a b).isLE = true := by
  rw [recLt, @Std.OrientedCmp.eq_swap _ (recCmp f) _ b a]
  cases recCmp f a b <;> decide

theorem strictWeak_recLt (f : Fmt) : StrictWeak (recLt f) where
  asymm := by
    intro a b h
    rw [recLt_eq_false]
    simp only [recLt, beq_iff_eq] at h
    rw [h]
    rfl
  trans := by
    intro a b c hab hbc
    rw [recLt_eq_false] at *
    exact Std.TransCmp.isLE_trans hab hbc

/-! ## Opening a run -/

inductive Name where
  | base
  | run (first last : Nat)
  | tmp (first last : Nat)
  deriving DecidableEq

structure IRun where
  path : Name
  n : Nat
  sparseOff : Nat
  nsparse : Nat
  first : Nat
  last : Nat
  recs : List (List UInt8)
  deriving DecidableEq

/-- The records of a file, from the end of the header. -/
def recordsAt (f : Fmt) (bytes : List UInt8) (n : Nat) : List (List UInt8) :=
  (List.range n).map fun k => pread bytes (irsHdr + k * f.recBytes) f.recBytes

def irsOpenRun (f : Fmt) (path : Name) (bytes : List UInt8) : Option IRun :=
  if bytes.length < irsHdr then none
  else if pread bytes 0 8 ≠ f.magic then none
  else
    let n := leVal (pread bytes 8 8)
    let so := leVal (pread bytes 16 8)
    let ns := leVal (pread bytes 24 8)
    let first := leVal (pread bytes 32 4)
    let last := leVal (pread bytes 36 4)
    if so < irsHdr ∨ bytes.length < so ∨ (so - irsHdr) % f.recBytes ≠ 0 ∨ (so - irsHdr) / f.recBytes ≠ n ∨
        (bytes.length - so) / f.sparseBytes < ns ∨ last < first then none
    else some ⟨path, n, so, ns, first, last, recordsAt f bytes n⟩

/-! ## Writing a run -/

/-- The entries for the records from number `written` on. -/
def sparseFrom (f : Fmt) : Nat → List (List UInt8) → List (List UInt8)
  | _, [] => []
  | written, r :: rs =>
      if written % 256 = 0 then
        (r.take (f.sparseBytes - 8) ++ leBytes 8 (irsHdr + written * f.recBytes)) :: sparseFrom f (written + 1) rs
      else sparseFrom f (written + 1) rs

def runHeader (f : Fmt) (first last : Nat) (recs : List (List UInt8)) : List UInt8 :=
  f.magic ++ (leBytes 8 recs.length ++ (leBytes 8 (irsHdr + recs.length * f.recBytes) ++
    (leBytes 8 (sparseFrom f 0 recs).length ++ (leBytes 4 first ++ (leBytes 4 last ++ List.replicate 8 0)))))

def runBody (f : Fmt) (recs : List (List UInt8)) : List UInt8 :=
  recs.flatten ++ (sparseFrom f 0 recs).flatten

def runFile (f : Fmt) (first last : Nat) (recs : List (List UInt8)) : List UInt8 :=
  runHeader f first last recs ++ runBody f recs

/-- What every record of a file is like. -/
def Sized (f : Fmt) (recs : List (List UInt8)) : Prop := ∀ r ∈ recs, r.length = f.recBytes

theorem Index.fmt_pos (ix : Index) :
    ix.fmt.magic.length = 8 ∧ 0 < ix.fmt.recBytes ∧ 8 < ix.fmt.sparseBytes ∧
      ix.fmt.sparseBytes - 8 ≤ ix.fmt.recBytes := by
  cases ix <;> decide

theorem length_flatten_of_sized {size : Nat} {recs : List (List UInt8)} (h : ∀ r ∈ recs, r.length = size) :
    recs.flatten.length = recs.length * size := by
  induction recs with
  | nil => simp
  | cons r recs ih =>
      rw [List.forall_mem_cons] at h
      simp only [List.flatten_cons, List.length_append, List.length_cons, h.1, ih h.2]
      ring

/-- A stretch of equal pieces is read back piece by piece. -/
theorem pread_flatten {size : Nat} {recs : List (List UInt8)} (h : ∀ r ∈ recs, r.length = size)
    (tail : List UInt8) {k : Nat} {r : List UInt8} (hk : recs[k]? = some r) :
    pread (recs.flatten ++ tail) (k * size) size = r := by
  induction recs generalizing k with
  | nil => simp at hk
  | cons r' recs ih =>
      rw [List.forall_mem_cons] at h
      cases k with
      | zero =>
          obtain rfl : r' = r := by simpa using hk
          simp [pread, ← h.1]
      | succ k =>
          have hrest := ih h.2 (k := k) (by simpa using hk)
          rw [List.flatten_cons, List.append_assoc, show (k + 1) * size = r'.length + k * size by rw [h.1]; ring,
            pread_append_right, hrest]

theorem map_range_pread_flatten {size : Nat} {recs : List (List UInt8)} (h : ∀ r ∈ recs, r.length = size)
    (tail : List UInt8) :
    (List.range recs.length).map (fun k => pread (recs.flatten ++ tail) (k * size) size) = recs := by
  refine List.ext_getElem (by simp) fun k hk hk' => ?_
  rw [List.getElem_map, List.getElem_range]
  exact pread_flatten h tail (List.getElem?_eq_getElem hk')

/-- What an opened run says of its file. -/
theorem irsOpenRun_eq_some {f : Fmt} {path : Name} {bytes : List UInt8} {r : IRun}
    (h : irsOpenRun f path bytes = some r) :
    r.path = path ∧ r.first ≤ r.last ∧ r.last < 2 ^ 32 ∧ r.recs.length = r.n ∧ Sized f r.recs ∧
      irsHdr + r.recs.length * f.recBytes ≤ bytes.length := by
  unfold irsOpenRun at h
  split at h
  · cases h
  split at h
  · cases h
  simp only at h
  split at h
  · cases h
  next hlen hmagic hok =>
    obtain rfl := Option.some_inj.mp h
    simp only [not_or, not_lt, not_not] at hok
    obtain ⟨hso, hso', -, heq, -, hrange⟩ := hok
    have hdiv : irsHdr + leVal (pread bytes 8 8) * f.recBytes ≤ bytes.length := by
      have hmul := Nat.div_mul_le_self (leVal (pread bytes 16 8) - irsHdr) f.recBytes
      rw [heq] at hmul
      omega
    have hlast : leVal (pread bytes 36 4) < 2 ^ 32 := by
      have hlt := leVal_lt (pread bytes 36 4)
      have hle : (pread bytes 36 4).length ≤ 4 := by simp [length_pread]
      calc leVal (pread bytes 36 4) < 256 ^ (pread bytes 36 4).length := hlt
        _ ≤ 256 ^ 4 := Nat.pow_le_pow_right (by decide) hle
        _ = 2 ^ 32 := by decide
    refine ⟨rfl, hrange, hlast, by simp [recordsAt], ?_, by simpa [recordsAt] using hdiv⟩
    intro r hr
    obtain ⟨k, hk, rfl⟩ := List.mem_map.mp hr
    have hk' := List.mem_range.mp hk
    have hroom : irsHdr + k * f.recBytes + f.recBytes ≤ bytes.length := by
      have hmul : (k + 1) * f.recBytes ≤ leVal (pread bytes 8 8) * f.recBytes := Nat.mul_le_mul_right _ hk'
      rw [Nat.add_mul, Nat.one_mul] at hmul
      omega
    rw [length_pread]
    omega

/-! ## Reading what was written -/

section Written

variable {ix : Index} {first last : Nat} {recs : List (List UInt8)}

theorem length_runHeader : (runHeader ix.fmt first last recs).length = irsHdr := by
  simp [runHeader, ix.fmt_pos.1, irsHdr]

theorem length_sparseFrom_le (f : Fmt) (written : Nat) (recs : List (List UInt8)) :
    (sparseFrom f written recs).length ≤ recs.length := by
  induction recs generalizing written with
  | nil => simp [sparseFrom]
  | cons r recs ih =>
      have hrest := ih (written + 1)
      unfold sparseFrom
      split <;> simp only [List.length_cons] <;> omega

theorem length_of_mem_sparseFrom (hsized : Sized ix.fmt recs) (written : Nat) :
    ∀ e ∈ sparseFrom ix.fmt written recs, e.length = ix.fmt.sparseBytes := by
  obtain ⟨-, -, hsparse, hle⟩ := ix.fmt_pos
  induction recs generalizing written with
  | nil => simp [sparseFrom]
  | cons r recs ih =>
      unfold Sized at hsized
      rw [List.forall_mem_cons] at hsized
      have hrest := ih hsized.2 (written + 1)
      unfold sparseFrom
      split
      · rw [List.forall_mem_cons]
        refine ⟨?_, hrest⟩
        rw [List.length_append, List.length_take, length_leBytes, hsized.1]
        omega
      · exact hrest

/-- A field of the header. -/
theorem pread_header (front field back : List UInt8) {off len : Nat} (body : List UInt8)
    (hheader : runHeader ix.fmt first last recs = front ++ (field ++ back)) (hoff : front.length = off)
    (hlen : field.length = len) :
    pread (runHeader ix.fmt first last recs ++ body) off len = field := by
  rw [hheader, List.append_assoc, List.append_assoc]
  exact @pread_append _ front field (back ++ body) off len hoff hlen

/-- A run that was written opens, with its range and its records. -/
theorem irsOpenRun_runFile (path : Name) (hsized : Sized ix.fmt recs) (hrange : first ≤ last)
    (hlast : last < 2 ^ 32) (hroom : irsHdr + recs.length * ix.fmt.recBytes < 2 ^ 64) :
    irsOpenRun ix.fmt path (runFile ix.fmt first last recs) =
      some ⟨path, recs.length, irsHdr + recs.length * ix.fmt.recBytes, (sparseFrom ix.fmt 0 recs).length, first,
        last, recs⟩ := by
  obtain ⟨hmagic, hrec, hsparse, -⟩ := ix.fmt_pos
  have hbody : (runBody ix.fmt recs).length =
      recs.length * ix.fmt.recBytes + (sparseFrom ix.fmt 0 recs).length * ix.fmt.sparseBytes := by
    rw [runBody, List.length_append, length_flatten_of_sized hsized,
      length_flatten_of_sized (length_of_mem_sparseFrom hsized 0)]
  have hlen : (runFile ix.fmt first last recs).length = irsHdr + recs.length * ix.fmt.recBytes +
      (sparseFrom ix.fmt 0 recs).length * ix.fmt.sparseBytes := by
    rw [runFile, List.length_append, length_runHeader, hbody]
    omega
  have hmagic' : pread (runFile ix.fmt first last recs) 0 8 = ix.fmt.magic :=
    pread_header [] ix.fmt.magic _ _ rfl rfl hmagic
  have hn : pread (runFile ix.fmt first last recs) 8 8 = leBytes 8 recs.length :=
    pread_header ix.fmt.magic (leBytes 8 recs.length) _ _ rfl hmagic (length_leBytes ..)
  have hso : pread (runFile ix.fmt first last recs) 16 8 = leBytes 8 (irsHdr + recs.length * ix.fmt.recBytes) :=
    pread_header (ix.fmt.magic ++ leBytes 8 recs.length) (leBytes 8 _) _ _ (List.append_assoc ..).symm
      (by simp [hmagic]) (length_leBytes ..)
  have hns : pread (runFile ix.fmt first last recs) 24 8 = leBytes 8 (sparseFrom ix.fmt 0 recs).length :=
    pread_header (ix.fmt.magic ++ leBytes 8 recs.length ++ leBytes 8 (irsHdr + recs.length * ix.fmt.recBytes))
      (leBytes 8 _) (leBytes 4 first ++ (leBytes 4 last ++ List.replicate 8 0)) _ (by simp [runHeader])
      (by simp [hmagic]) (length_leBytes ..)
  have hfirst : pread (runFile ix.fmt first last recs) 32 4 = leBytes 4 first :=
    pread_header (ix.fmt.magic ++ leBytes 8 recs.length ++ leBytes 8 (irsHdr + recs.length * ix.fmt.recBytes) ++
      leBytes 8 (sparseFrom ix.fmt 0 recs).length) (leBytes 4 first) (leBytes 4 last ++ List.replicate 8 0) _
      (by simp [runHeader]) (by simp [hmagic]) (length_leBytes ..)
  have hlast' : pread (runFile ix.fmt first last recs) 36 4 = leBytes 4 last :=
    pread_header (ix.fmt.magic ++ leBytes 8 recs.length ++ leBytes 8 (irsHdr + recs.length * ix.fmt.recBytes) ++
      leBytes 8 (sparseFrom ix.fmt 0 recs).length ++ leBytes 4 first) (leBytes 4 last) (List.replicate 8 0) _
      (by simp [runHeader]) (by simp [hmagic]) (length_leBytes ..)
  have hcount : recs.length ≤ recs.length * ix.fmt.recBytes := Nat.le_mul_of_pos_right _ hrec
  have hcount' := length_sparseFrom_le ix.fmt 0 recs
  have hrecs : recordsAt ix.fmt (runFile ix.fmt first last recs) recs.length = recs := by
    unfold recordsAt runFile runBody
    simp only [← @length_runHeader ix first last recs, pread_append_right]
    exact map_range_pread_flatten hsized _
  unfold irsOpenRun
  rw [if_neg (by omega), if_neg (by rw [hmagic']; simp)]
  simp only [hn, hso, hns, hfirst, hlast', leVal_leBytes]
  rw [Nat.mod_eq_of_lt (show recs.length < 256 ^ 8 by omega),
    Nat.mod_eq_of_lt (show irsHdr + recs.length * ix.fmt.recBytes < 256 ^ 8 by omega),
    Nat.mod_eq_of_lt (show (sparseFrom ix.fmt 0 recs).length < 256 ^ 8 by omega),
    Nat.mod_eq_of_lt (show first < 256 ^ 4 by omega), Nat.mod_eq_of_lt (show last < 256 ^ 4 by omega), hrecs]
  have hmod : (irsHdr + recs.length * ix.fmt.recBytes - irsHdr) % ix.fmt.recBytes = 0 := by simp
  have hdiv : (irsHdr + recs.length * ix.fmt.recBytes - irsHdr) / ix.fmt.recBytes = recs.length := by
    rw [Nat.add_sub_cancel_left, Nat.mul_div_cancel _ hrec]
  have htable : ((runFile ix.fmt first last recs).length - (irsHdr + recs.length * ix.fmt.recBytes)) /
      ix.fmt.sparseBytes = (sparseFrom ix.fmt 0 recs).length := by
    rw [hlen, Nat.add_sub_cancel_left, Nat.mul_div_cancel _ (by omega)]
  rw [if_neg]
  rw [hmod, hdiv, htable]
  omega

theorem sparseFrom_getElem {f : Fmt} {written i : Nat} {recs : List (List UInt8)} {e : List UInt8}
    (h : (sparseFrom f written recs)[i]? = some e) :
    ∃ r, recs[(256 - written % 256) % 256 + 256 * i]? = some r ∧
      e = r.take (f.sparseBytes - 8) ++
        leBytes 8 (irsHdr + (written + (256 - written % 256) % 256 + 256 * i) * f.recBytes) := by
  induction recs generalizing written i with
  | nil => simp [sparseFrom] at h
  | cons r recs ih =>
      unfold sparseFrom at h
      split at h
      case isTrue hstride =>
        cases i with
        | zero =>
            obtain rfl := Option.some_inj.mp h
            exact ⟨r, by simp [hstride], by simp [hstride]⟩
        | succ i =>
            obtain ⟨r', hr', rfl⟩ := ih (List.getElem?_cons_succ ▸ h)
            have hpos : (256 - written % 256) % 256 + 256 * (i + 1) =
                ((256 - (written + 1) % 256) % 256 + 256 * i) + 1 := by omega
            refine ⟨r', by rw [hpos, List.getElem?_cons_succ]; exact hr', ?_⟩
            congr 3
            congr 1
            omega
      case isFalse hskip =>
        obtain ⟨r', hr', rfl⟩ := ih h
        have hpos : (256 - written % 256) % 256 + 256 * i =
            ((256 - (written + 1) % 256) % 256 + 256 * i) + 1 := by omega
        refine ⟨r', by rw [hpos, List.getElem?_cons_succ]; exact hr', ?_⟩
        congr 3
        congr 1
        omega

/-- Entry `i` of the table has the key of record `256 * i` and the offset where that stands. -/
def SparseNames (f : Fmt) (bytes : List UInt8) (r : IRun) : Prop :=
  ∀ i < r.nsparse, ∃ rec, r.recs[256 * i]? = some rec ∧
    (pread bytes (r.sparseOff + i * f.sparseBytes) f.sparseBytes).take (f.sparseBytes - 8) =
      rec.take (f.sparseBytes - 8) ∧
    pread bytes (leVal ((pread bytes (r.sparseOff + i * f.sparseBytes) f.sparseBytes).drop (f.sparseBytes - 8)))
      f.recBytes = rec

theorem sparseNames_runFile (path : Name) (hsized : Sized ix.fmt recs)
    (hroom : irsHdr + recs.length * ix.fmt.recBytes < 2 ^ 64) :
    SparseNames ix.fmt (runFile ix.fmt first last recs) ⟨path, recs.length, irsHdr + recs.length * ix.fmt.recBytes,
      (sparseFrom ix.fmt 0 recs).length, first, last, recs⟩ := by
  obtain ⟨-, hrec, hsparse, hle⟩ := ix.fmt_pos
  intro i hi
  obtain ⟨r, hr, hentry⟩ := sparseFrom_getElem (List.getElem?_eq_getElem hi)
  simp only [Nat.zero_mod, Nat.sub_zero, Nat.mod_self, Nat.zero_add] at hr hentry
  refine ⟨r, hr, ?_⟩
  have hmem : r ∈ recs := List.mem_of_getElem? hr
  have hread : pread (runFile ix.fmt first last recs)
      (irsHdr + recs.length * ix.fmt.recBytes + i * ix.fmt.sparseBytes) ix.fmt.sparseBytes =
        (sparseFrom ix.fmt 0 recs)[i] := by
    have hflat := length_flatten_of_sized hsized
    have htable := pread_flatten (length_of_mem_sparseFrom hsized 0) [] (List.getElem?_eq_getElem hi)
    rw [List.append_nil] at htable
    rw [runFile, runBody, ← @length_runHeader ix first last recs, Nat.add_assoc, pread_append_right, ← hflat,
      pread_append_right, htable]
  have hlenr : (r.take (ix.fmt.sparseBytes - 8)).length = ix.fmt.sparseBytes - 8 := by
    rw [List.length_take, hsized r hmem]
    omega
  have hoff : irsHdr + 256 * i * ix.fmt.recBytes < 256 ^ 8 := by
    obtain ⟨hlt, -⟩ := List.getElem?_eq_some_iff.mp hr
    have hmul := Nat.mul_le_mul_right ix.fmt.recBytes hlt.le
    omega
  rw [hread, hentry, List.take_left' hlenr, List.drop_left' hlenr, leVal_leBytes, Nat.mod_eq_of_lt hoff]
  refine ⟨rfl, ?_⟩
  rw [runFile, runBody, ← @length_runHeader ix first last recs, pread_append_right]
  exact pread_flatten hsized _ hr

end Written

end BitcoinMachineCode.Storage.IndexRuns
