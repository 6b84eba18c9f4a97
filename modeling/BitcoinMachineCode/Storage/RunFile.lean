import BitcoinMachineCode.Foundation.FileBytes
import BitcoinMachineCode.Foundation.Frames
import BitcoinMachineCode.Storage.Lsm

/-!
# Run files and their lookup

A run of the coin store on disk: a header, a filter, the records in key order and a sample
of their keys with the offsets they start at.  `utxo_lsm_mm.c` looks a key up in it, with
the records read from the mapping or through a window that is read again where it ends.
-/

namespace BitcoinMachineCode.Storage.RunFile

open BitcoinMachineCode.Foundation

/-! ## The format -/

structure PushData where
  value : UInt64
  height : UInt32
  isCoinbase : UInt8
  script : List UInt8
  deriving DecidableEq, Repr

/-- A key with what was put under it, or with a tombstone. -/
abbrev RunRec := Record Outpoint PushData

/-- Records of the old shape have no height and no coinbase byte. -/
def encodePush (v2 : Bool) (p : PushData) : List UInt8 :=
  leBytes 8 p.value.toNat ++ (leBytes 2 p.script.length ++
    ((if v2 then leBytes 4 p.height.toNat ++ [p.isCoinbase] else []) ++ p.script))

def encodeRec (v2 : Bool) (r : RunRec) : List UInt8 :=
  r.1.key36 ++ (match r.2 with
    | none => [2]
    | some p => 1 :: encodePush v2 p)

inductive RunMagic where
  | run
  | run2
  | run3
  deriving DecidableEq, Repr

namespace RunMagic

def value : RunMagic → Nat
  | run => 0x4E555255
  | run2 => 0x32555255
  | run3 => 0x33555255

def ofValue (v : Nat) : Option RunMagic :=
  if v = run.value then some run
  else if v = run2.value then some run2
  else if v = run3.value then some run3
  else none

def headerSize (m : RunMagic) : Nat := if m = run then 28 else 44

def recV2 (m : RunMagic) : Bool := m == run3

end RunMagic

def sparseEntSize : Nat := 44

def encodeEntry (e : Outpoint × Nat) : List UInt8 := e.1.key36 ++ leBytes 8 e.2

/-! ## The lookup -/

structure RunHeader where
  headerSize : Nat
  recV2 : Bool
  gen : Nat
  nrec : Nat
  bitsMask : UInt32
  bloomBytes : Nat
  sparseOff : Nat
  sparseN : Nat
  recordsStart : Nat

def rd64 (file : List UInt8) (pos : Nat) : Nat := leVal (pread file pos 8)

/-- `parse_header`: nothing where a part does not lie inside the file. -/
def parseHeader (file : List UInt8) : Option RunHeader :=
  if file.length < 4 then none
  else
    match RunMagic.ofValue (leVal (pread file 0 4)) with
    | none => none
    | some magic =>
        if file.length < magic.headerSize then none
        else
          let bloomBits := rd64 file 20
          let sparseOff := if magic = .run then 0 else rd64 file 28
          let sparseN := if magic = .run then 0 else rd64 file 36
          let recordsStart := magic.headerSize + bloomBits / 8
          if file.length < recordsStart then none
          else if sparseOff ≠ 0 ∧ (sparseOff < recordsStart ∨ file.length < sparseOff) then none
          else if sparseN ≠ 0 ∧ (2 ^ 64 ≤ sparseN * sparseEntSize + sparseOff ∨
              file.length < sparseN * sparseEntSize + sparseOff) then none
          else some
            { headerSize := magic.headerSize
              recV2 := magic.recV2
              gen := rd64 file 4
              nrec := rd64 file 12
              bitsMask := UInt32.ofNat ((bloomBits + 2 ^ 64 - 1) % 2 ^ 64)
              bloomBytes := bloomBits / 8
              sparseOff := sparseOff
              sparseN := sparseN
              recordsStart := recordsStart }

/-- The file's own generation has to be the one the manifest promised. -/
def slotGet (file : List UInt8) (gen : Nat) : Option RunHeader :=
  match parseHeader file with
  | none => none
  | some h => if h.gen = gen then some h else none

def bloomH (key : List UInt8) (seed : UInt32) : UInt32 :=
  key.foldl (fun h b => (h ^^^ b.toUInt32) * 16777619) seed

def bloomBit (bloom : List UInt8) (bitsMask h : UInt32) : Bool :=
  let bit := h &&& bitsMask
  (bloom.getD (bit.toNat / 8) 0).toNat.testBit (bit.toNat % 8)

def bloomSeeds : List UInt32 := [0x811c9dc5, 0xa1b2c3d4, 0x5bd1e995]

/-- All three bits of the key are set. -/
def bloomHas (bloom : List UInt8) (bitsMask : UInt32) (key : List UInt8) : Bool :=
  bloomSeeds.all fun seed => bloomBit bloom bitsMask (bloomH key seed)

def memcmp : List UInt8 → List UInt8 → Ordering
  | a :: as, b :: bs => if a < b then .lt else if b < a then .gt else memcmp as bs
  | _, _ => .eq

/-- The search over the sampled keys; nothing where it does not end. -/
def searchSparse (file : List UInt8) (h : RunHeader) (key : List UInt8) :
    Nat → Nat → Nat → Nat → Option Nat
  | 0, _, _, _ => none
  | fuel + 1, lo, hi, pos =>
      if lo ≤ hi then
        let mid := lo + (hi - lo) / 2
        let e := h.sparseOff + mid * sparseEntSize
        match memcmp (pread file e 36) key with
        | .gt => if mid = 0 then some pos else searchSparse file h key fuel lo (mid - 1) pos
        | _ => searchSparse file h key fuel (mid + 1) hi (rd64 file (e + 36))
      else some pos

def scriptMaxBytes : Nat := 65536

def lsmWinFirst : Nat := 4096

def lsmWinBytes : Nat := lsmWinFirst + 37 + 15 + scriptMaxBytes

/-- What was last read from the file; empty before the first read. -/
structure Window where
  pos : Nat
  data : List UInt8

/-- `rec_at`: the bytes from the mapping, from the window, or from a new window. -/
def recAt (file : List UInt8) (recEnd : Nat) (pr : Bool) (w : Window) (pos need : Nat) :
    Option (List UInt8 × Window) :=
  if ¬ pr then some (pread file pos need, w)
  else if w.data ≠ [] ∧ w.pos ≤ pos ∧ pos + need ≤ w.pos + w.data.length then
    some (pread w.data (pos - w.pos) need, w)
  else
    let want := if lsmWinFirst < need then need else lsmWinFirst
    if lsmWinBytes < want then none
    else
      let want := if recEnd < pos + want then recEnd - pos else want
      if want < need then none
      else
        let got := pread file pos want
        if got.length < need then none else some (got.take need, ⟨pos, got⟩)

inductive RunAnswer where
  | found (p : PushData)
  | tomb
  | absent
  | fallback
  deriving DecidableEq, Repr

def pushLen (v2 : Bool) : Nat := if v2 then 15 else 10

/-- What follows the key of a record that was found. -/
def readPush (file : List UInt8) (v2 : Bool) (recEnd : Nat) (pr : Bool) (w : Window) (vp : Nat) :
    RunAnswer :=
  let vlen := pushLen v2
  if recEnd < vp + vlen then .fallback
  else
    match recAt file recEnd pr w vp vlen with
    | none => .fallback
    | some (v, w) =>
        let slen := leVal (pread v 8 2)
        if scriptMaxBytes < slen then .fallback
        else if recEnd < vp + vlen + slen then .fallback
        else
          match recAt file recEnd pr w vp (vlen + slen) with
          | none => .fallback
          | some (v, _) => .found
              { value := UInt64.ofNat (leVal (pread v 0 8))
                height := if v2 then UInt32.ofNat (leVal (pread v 10 4)) else 0
                isCoinbase := if v2 then v.getD 14 0 else 0
                script := pread v vlen slen }

/-- The scan forward from a record; nothing where it does not end. -/
def scanRecords (file : List UInt8) (v2 : Bool) (recEnd : Nat) (pr : Bool) (key : List UInt8) :
    Nat → Nat → Window → Option RunAnswer
  | 0, _, _ => none
  | fuel + 1, pos, w =>
      if recEnd < pos + 37 then some .absent
      else
        match recAt file recEnd pr w pos 37 with
        | none => some .fallback
        | some (rec, w) =>
            let kind := rec.getD 36 0
            match memcmp (rec.take 36) key with
            | .eq => if kind = 2 then some .tomb else some (readPush file v2 recEnd pr w (pos + 37))
            | .gt => some .absent
            | .lt =>
                if kind ≠ 1 then scanRecords file v2 recEnd pr key fuel (pos + 37) w
                else
                  let vp := pos + 37
                  if recEnd < vp + pushLen v2 then some .absent
                  else
                    match recAt file recEnd pr w vp (pushLen v2) with
                    | none => some .fallback
                    | some (v, w) =>
                        scanRecords file v2 recEnd pr key fuel
                          (vp + pushLen v2 + leVal (pread v 8 2)) w

/-- `lookup_body`, on the file that the run's number names; `pr` reads the records through
the window. -/
def lookupBody (file : List UInt8) (gen : Nat) (pr : Bool) (o : Outpoint) : Option RunAnswer :=
  match slotGet file gen with
  | none => some .fallback
  | some h =>
      let key := o.key36
      if h.bloomBytes ≠ 0 ∧ ¬ bloomHas (file.drop h.headerSize) h.bitsMask key then some .absent
      else
        match if h.sparseN = 0 then some h.recordsStart
            else searchSparse file h key (h.sparseN + 1) 0 (h.sparseN - 1) h.recordsStart with
        | none => none
        | some pos =>
            if h.sparseN ≠ 0 ∧ file.length < pos then some .fallback
            else
              let recEnd := if h.sparseOff ≠ 0 then h.sparseOff else file.length
              scanRecords file h.recV2 recEnd pr key (file.length + 1) pos ⟨0, []⟩

/-! ## Well-formed run files -/

structure RunImage where
  magic : RunMagic
  gen : UInt64
  nrec : UInt64
  bloomBits : UInt64
  bloom : List UInt8
  recs : List RunRec
  sparse : List (Outpoint × Nat)
  /-- whether the header says where the sample stands -/
  trailer : Bool

namespace RunImage

variable (img : RunImage)

def records : List UInt8 := encodeAll (encodeRec img.magic.recV2) img.recs

def recordsStart : Nat := img.magic.headerSize + img.bloom.length

def recordsEnd : Nat := img.recordsStart + img.records.length

def sparseOff : Nat := if img.trailer then img.recordsEnd else 0

def header : List UInt8 :=
  leBytes 4 img.magic.value ++ (leBytes 8 img.gen.toNat ++ (leBytes 8 img.nrec.toNat ++
    (leBytes 8 img.bloomBits.toNat ++
      (if img.magic = .run then [] else leBytes 8 img.sparseOff ++ leBytes 8 img.sparse.length))))

def bytes : List UInt8 :=
  img.header ++ (img.bloom ++ (img.records ++ encodeAll encodeEntry img.sparse))

def bitsMask : UInt32 := UInt32.ofNat ((img.bloomBits.toNat + 2 ^ 64 - 1) % 2 ^ 64)

/-- The entry names a record and the offset it starts at. -/
def Names (e : Outpoint × Nat) : Prop :=
  ∃ before r after, img.recs = before ++ r :: after ∧ e.1 = r.1 ∧
    e.2 = img.recordsStart + (encodeAll (encodeRec img.magic.recV2) before).length

/-- Records in strict order, a sample of record starts, a filter with every key.  How the
sample is spaced or ordered does not matter to the answers. -/
structure WellFormed : Prop where
  sorted : img.recs.Pairwise fun a b => a.1 < b.1
  scripts : ∀ o p, (o, some p) ∈ img.recs → p.script.length < 2 ^ 16
  bloom_length : img.bloom.length = img.bloomBits.toNat / 8
  filter : img.bloom ≠ [] →
    ∀ r ∈ img.recs, bloomHas (img.bytes.drop img.magic.headerSize) img.bitsMask r.1.key36 = true
  names : ∀ e ∈ img.sparse, img.Names e
  trailer_run : img.magic = .run → img.trailer = false
  trailer_sparse : img.trailer = false → img.sparse = []
  length_lt : img.bytes.length < 2 ^ 63

end RunImage

/-! ## Keys -/

theorem memcmp_eq {xs ys : List UInt8} (h : xs.length = ys.length) :
    memcmp xs ys = compare (beVal xs) (beVal ys) := by
  induction xs generalizing ys with
  | nil =>
      cases ys with
      | nil => rfl
      | cons y ys => cases h
  | cons x xs ih =>
      cases ys with
      | nil => cases h
      | cons y ys =>
          have hlen : xs.length = ys.length := Nat.succ.inj h
          have hx := beVal_lt xs
          have hy := beVal_lt ys
          have hmul : ∀ {a b : Nat}, a < b → (a + 1) * 256 ^ xs.length ≤ b * 256 ^ xs.length :=
            fun hab => Nat.mul_le_mul_right _ hab
          rw [beVal_cons, beVal_cons, ← hlen]
          rw [← hlen] at hy
          unfold memcmp
          split
          · next hlt =>
              have := hmul (UInt8.lt_iff_toNat_lt.mp hlt)
              rw [Nat.add_mul, Nat.one_mul] at this
              exact (Nat.compare_eq_lt.mpr (by omega)).symm
          · next hge =>
              split
              · next hgt =>
                  have := hmul (UInt8.lt_iff_toNat_lt.mp hgt)
                  rw [Nat.add_mul, Nat.one_mul] at this
                  exact (Nat.compare_eq_gt.mpr (by omega)).symm
              · next hle =>
                  have heq : x = y := by
                    rw [UInt8.lt_iff_toNat_lt] at hge hle
                    exact UInt8.toNat_inj.mp (by omega)
                  rw [ih hlen, heq]
                  rcases Nat.lt_trichotomy (beVal xs) (beVal ys) with hlt | heq' | hgt
                  · rw [Nat.compare_eq_lt.mpr hlt, Nat.compare_eq_lt.mpr (by omega)]
                  · rw [heq']
                    simp
                  · rw [Nat.compare_eq_gt.mpr hgt, Nat.compare_eq_gt.mpr (by omega)]

section Keys

variable {a b : Outpoint}

theorem lt_iff_beVal : a < b ↔ beVal a.key36 < beVal b.key36 := by
  rw [lt_iff_not_ge]
  exact Nat.not_le

theorem memcmp_key36 (a b : Outpoint) :
    memcmp a.key36 b.key36 = compare (beVal a.key36) (beVal b.key36) :=
  memcmp_eq (by rw [a.key36_length, b.key36_length])

theorem memcmp_self (a : Outpoint) : memcmp a.key36 a.key36 = .eq := by
  rw [memcmp_key36]
  exact Nat.compare_eq_eq.mpr rfl

theorem memcmp_of_lt (h : a < b) : memcmp a.key36 b.key36 = .lt := by
  rw [memcmp_key36]
  exact Nat.compare_eq_lt.mpr (lt_iff_beVal.mp h)

theorem memcmp_of_gt (h : b < a) : memcmp a.key36 b.key36 = .gt := by
  rw [memcmp_key36]
  exact Nat.compare_eq_gt.mpr (lt_iff_beVal.mp h)

end Keys

/-! ## The window -/

def Window.Of (w : Window) (file : List UInt8) : Prop := w.data = pread file w.pos w.data.length

/-- The bytes are those of the file, whether mapped, in the window or read anew. -/
theorem recAt_spec {file : List UInt8} {recEnd pos need : Nat} {pr : Bool} {w : Window}
    (hw : w.Of file) (hend : recEnd ≤ file.length) (hpos : pos + need ≤ recEnd)
    (hneed : need ≤ lsmWinBytes) :
    ∃ w', recAt file recEnd pr w pos need = some (pread file pos need, w') ∧ w'.Of file := by
  unfold recAt
  split
  · exact ⟨w, rfl, hw⟩
  · split
    · next hin =>
        refine ⟨w, ?_, hw⟩
        rw [hw, pread_pread (by omega), Nat.add_sub_cancel' hin.2.1]
    · have hfirst : lsmWinFirst ≤ lsmWinBytes := by decide
      have hwant : ¬ lsmWinBytes < (if lsmWinFirst < need then need else lsmWinFirst) := by
        split <;> omega
      simp only
      rw [if_neg hwant]
      generalize hn : (if recEnd < pos + (if lsmWinFirst < need then need else lsmWinFirst) then recEnd - pos
        else if lsmWinFirst < need then need else lsmWinFirst) = want
      have hge : need ≤ want := by
        split_ifs at hn <;> omega
      have hle : pos + want ≤ recEnd := by
        split_ifs at hn <;> omega
      have hlen : (pread file pos want).length = want := by
        rw [length_pread]
        omega
      rw [if_neg (by omega), if_neg (by omega)]
      refine ⟨⟨pos, pread file pos want⟩, ?_, ?_⟩
      · have htake : (pread file pos want).take need = pread file pos need := by
          unfold pread
          rw [List.take_take, min_eq_left hge]
        rw [htake]
      · unfold Window.Of
        simp only
        rw [hlen]

/-! ## The scan -/

/-- What a record says of its key; the old shape has no height and no coinbase byte. -/
def shown (v2 : Bool) (p : PushData) : PushData :=
  if v2 then p else { p with height := 0, isCoinbase := 0 }

def answerOf (v2 : Bool) : Option RunRec → RunAnswer
  | none => .absent
  | some (_, none) => .tomb
  | some (_, some p) => .found (shown v2 p)

theorem length_encodePush (v2 : Bool) (p : PushData) :
    (encodePush v2 p).length = pushLen v2 + p.script.length := by
  unfold encodePush pushLen
  cases v2 with
  | false =>
      simp only [List.length_append, length_leBytes, Bool.false_eq_true, if_false, List.length_nil]
      omega
  | true =>
      simp only [List.length_append, length_leBytes, if_true, List.length_singleton]
      omega

section Scan

variable {file : List UInt8} {v2 : Bool} {recEnd pos : Nat} {pr : Bool} {w : Window}

/-- Bytes that are known to stand at an offset, read from there on. -/
theorem pread_at {n o len : Nat} {bytes : List UInt8} (hat : pread file pos n = bytes) (hle : o + len ≤ n) :
    pread file (pos + o) len = pread bytes o len := by
  rw [← hat, pread_pread hle]

theorem slen_encodePush {p : PushData} (hscript : p.script.length < 2 ^ 16) (tail : List UInt8) :
    leVal (pread (encodePush v2 p ++ tail) 8 2) = p.script.length := by
  have hread : pread (encodePush v2 p ++ tail) 8 2 = leBytes 2 p.script.length := by
    unfold encodePush
    rw [List.append_assoc, List.append_assoc]
    exact pread_append (length_leBytes ..) (length_leBytes ..)
  rw [hread, leVal_leBytes, Nat.mod_eq_of_lt (by omega)]

theorem pread_whole (xs : List UInt8) : pread xs 0 xs.length = xs := by
  unfold pread
  rw [List.drop_zero, List.take_length]

/-- The fields of a record, read where the writer put them. -/
theorem fields_encodePush (p : PushData) :
    (⟨UInt64.ofNat (leVal (pread (encodePush v2 p) 0 8)),
      if v2 then UInt32.ofNat (leVal (pread (encodePush v2 p) 10 4)) else 0,
      if v2 then (encodePush v2 p).getD 14 0 else 0,
      pread (encodePush v2 p) (pushLen v2) p.script.length⟩ : PushData) = shown v2 p := by
  have hvalue : leVal (pread (encodePush v2 p) 0 8) = p.value.toNat := by
    have hread : pread (encodePush v2 p) 0 8 = leBytes 8 p.value.toNat :=
      @pread_append _ [] _ _ _ _ rfl (length_leBytes ..)
    rw [hread, leVal_leBytes]
    exact Nat.mod_eq_of_lt p.value.toNat_lt
  rw [hvalue, UInt64.ofNat_toNat]
  cases v2 with
  | false =>
      have htail : pread (encodePush false p) (pushLen false) p.script.length = p.script := by
        have hcat : encodePush false p =
            (leBytes 8 p.value.toNat ++ leBytes 2 p.script.length) ++ (p.script ++ []) := by
          simp [encodePush]
        rw [hcat]
        exact pread_append (by simp [pushLen]) rfl
      rw [htail]
      rfl
  | true =>
      have htail : pread (encodePush true p) (pushLen true) p.script.length = p.script := by
        have hcat : encodePush true p = (leBytes 8 p.value.toNat ++ (leBytes 2 p.script.length ++
            (leBytes 4 p.height.toNat ++ [p.isCoinbase]))) ++ (p.script ++ []) := by
          simp [encodePush]
        rw [hcat]
        exact pread_append (by simp [pushLen]) rfl
      have hheight : leVal (pread (encodePush true p) 10 4) = p.height.toNat := by
        have hcat : encodePush true p = (leBytes 8 p.value.toNat ++ leBytes 2 p.script.length) ++
            (leBytes 4 p.height.toNat ++ (p.isCoinbase :: p.script)) := by
          simp [encodePush]
        have hread : pread (encodePush true p) 10 4 = leBytes 4 p.height.toNat := by
          rw [hcat]
          exact pread_append (by simp) (length_leBytes ..)
        rw [hread, leVal_leBytes]
        exact Nat.mod_eq_of_lt p.height.toNat_lt
      have hcoinbase : (encodePush true p).getD 14 0 = p.isCoinbase := by
        have hcat : encodePush true p = (leBytes 8 p.value.toNat ++ (leBytes 2 p.script.length ++
            leBytes 4 p.height.toNat)) ++ (p.isCoinbase :: p.script) := by
          simp [encodePush]
        rw [hcat, List.getD_eq_getElem?_getD, List.getElem?_append_right (by simp)]
        simp
      rw [htail, hheight, hcoinbase, UInt32.ofNat_toNat]
      rfl

theorem readPush_eq {vp : Nat} {p : PushData} {tail : List UInt8} (hw : w.Of file)
    (hend : recEnd ≤ file.length) (hscript : p.script.length < 2 ^ 16)
    (hat : pread file vp (recEnd - vp) = encodePush v2 p ++ tail)
    (hfit : vp + (encodePush v2 p).length ≤ recEnd) :
    readPush file v2 recEnd pr w vp = .found (shown v2 p) := by
  have hlen := length_encodePush v2 p
  have hten : 10 ≤ pushLen v2 := by cases v2 <;> decide
  have hmax : pushLen v2 ≤ 15 := by cases v2 <;> decide
  have hwin : pushLen v2 + p.script.length ≤ lsmWinBytes := by
    have : lsmWinBytes = 69684 := rfl
    omega
  obtain ⟨w₁, hread₁, hw₁⟩ := @recAt_spec file recEnd vp (pushLen v2) pr w hw hend (by omega) (by omega)
  obtain ⟨w₂, hread₂, hw₂⟩ :=
    @recAt_spec file recEnd vp (pushLen v2 + p.script.length) pr w₁ hw₁ hend (by omega) hwin
  have hslen : leVal (pread (pread file vp (pushLen v2)) 8 2) = p.script.length := by
    rw [pread_pread (by omega), pread_at hat (by omega)]
    exact slen_encodePush hscript tail
  have hwhole : pread file vp (pushLen v2 + p.script.length) = encodePush v2 p := by
    have hread := @pread_at file vp (recEnd - vp) 0 (pushLen v2 + p.script.length) _ hat (by omega)
    rw [Nat.add_zero] at hread
    rw [hread, ← hlen, pread_append_left _ (by omega)]
    exact pread_whole _
  unfold readPush
  simp only
  rw [if_neg (by omega), hread₁]
  simp only
  rw [hslen, if_neg (by unfold scriptMaxBytes; omega), if_neg (by omega), hread₂]
  simp only
  rw [hwhole]
  exact congrArg RunAnswer.found (fields_encodePush p)

def kindOf (r : RunRec) : UInt8 := if r.2.isSome then 1 else 2

theorem encodeRec_eq (v2 : Bool) (r : RunRec) :
    encodeRec v2 r = (r.1.key36 ++ [kindOf r]) ++ (r.2.elim [] (encodePush v2)) := by
  obtain ⟨o, p⟩ := r
  cases p with
  | none => simp [encodeRec, kindOf]
  | some p => simp [encodeRec, kindOf]

theorem length_keyKind (r : RunRec) : (r.1.key36 ++ [kindOf r]).length = 37 := by
  rw [List.length_append, r.1.key36_length]
  rfl

/-- From the start of a record on, the scan finds what is in the records from there on. -/
theorem scanRecords_eq {rs : List RunRec} {o : Outpoint} {fuel : Nat}
    (hsorted : rs.Pairwise fun a b => a.1 < b.1)
    (hscripts : ∀ k p, (k, some p) ∈ rs → p.script.length < 2 ^ 16)
    (hw : w.Of file) (hend : recEnd ≤ file.length) (hpos : pos ≤ recEnd)
    (hat : pread file pos (recEnd - pos) = encodeAll (encodeRec v2) rs) (hfuel : rs.length < fuel) :
    scanRecords file v2 recEnd pr o.key36 fuel pos w = some (answerOf v2 (rs.find? (·.1 = o))) := by
  induction rs generalizing pos w fuel with
  | nil =>
      obtain ⟨fuel, rfl⟩ := Nat.exists_eq_add_one_of_ne_zero (Nat.ne_of_gt hfuel)
      have hlen := congrArg List.length hat
      rw [length_pread, encodeAll_nil, List.length_nil] at hlen
      unfold scanRecords
      rw [if_pos (by omega)]
      rfl
  | cons r rs ih =>
      obtain ⟨fuel, rfl⟩ := Nat.exists_eq_add_one_of_ne_zero (Nat.ne_of_gt (Nat.zero_lt_of_lt hfuel))
      obtain ⟨hhead, htail⟩ := List.pairwise_cons.mp hsorted
      have hlen := congrArg List.length hat
      rw [length_pread, encodeAll_cons, List.length_append] at hlen
      rw [encodeAll_cons, encodeRec_eq, List.append_assoc] at hat
      rw [encodeRec_eq, List.length_append, length_keyKind] at hlen
      have hkeykind : pread file pos 37 = r.1.key36 ++ [kindOf r] := by
        have hread := @pread_at file pos (recEnd - pos) 0 37 _ hat (by omega)
        rw [Nat.add_zero] at hread
        rw [hread]
        exact @pread_append _ [] _ _ _ _ rfl (length_keyKind r)
      have hrest : pread file (pos + 37) (recEnd - (pos + 37)) =
          r.2.elim [] (encodePush v2) ++ encodeAll (encodeRec v2) rs := by
        have hread := @pread_at file pos (recEnd - pos) 37 (recEnd - (pos + 37)) _ hat (by omega)
        rw [hread, show 37 = (r.1.key36 ++ [kindOf r]).length + 0 by rw [length_keyKind],
          pread_append_right]
        unfold pread
        rw [List.drop_zero, List.take_of_length_le]
        rw [List.length_append, length_keyKind]
        omega
      obtain ⟨w₁, hread₁, hw₁⟩ := @recAt_spec file recEnd pos 37 pr w hw hend (by omega) (by decide)
      have htake : (r.1.key36 ++ [kindOf r]).take 36 = r.1.key36 := by
        rw [List.take_left' r.1.key36_length]
      have hkind : (r.1.key36 ++ [kindOf r]).getD 36 0 = kindOf r := by
        rw [List.getD_eq_getElem?_getD, List.getElem?_append_right (by rw [r.1.key36_length]),
          r.1.key36_length]
        rfl
      unfold scanRecords
      rw [if_neg (by omega), hread₁]
      simp only
      rw [hkeykind, htake, hkind]
      rcases lt_trichotomy r.1 o with hlt | heq | hgt
      · rw [memcmp_of_lt hlt, List.find?_cons_of_neg (by simpa using hlt.ne)]
        simp only
        obtain ⟨k, v⟩ := r
        cases v with
        | none =>
            rw [if_pos (show kindOf (k, none) ≠ 1 from (by decide : (2 : UInt8) ≠ 1))]
            exact ih htail (fun k p hmem => hscripts k p (List.mem_cons_of_mem _ hmem)) hw₁ (by omega)
              hrest (by simpa using hfuel)
        | some p =>
            have hscript := hscripts k p List.mem_cons_self
            have hplen := length_encodePush v2 p
            simp only [Option.elim_some, hplen] at hlen hrest
            rw [if_neg (not_not.mpr (show kindOf (k, some p) = 1 from rfl))]
            have hten : 10 ≤ pushLen v2 := by cases v2 <;> decide
            have hmax : pushLen v2 ≤ lsmWinBytes := by cases v2 <;> decide
            obtain ⟨w₂, hread₂, hw₂⟩ :=
              @recAt_spec file recEnd (pos + 37) (pushLen v2) pr w₁ hw₁ hend (by omega) hmax
            have hslen : leVal (pread (pread file (pos + 37) (pushLen v2)) 8 2) = p.script.length := by
              rw [pread_pread (by omega), pread_at hrest (by omega)]
              exact slen_encodePush hscript _
            rw [if_neg (by omega), hread₂]
            simp only
            rw [hslen]
            refine ih htail (fun k p hmem => hscripts k p (List.mem_cons_of_mem _ hmem)) hw₂ (by omega)
              ?_ (by simpa using hfuel)
            have hread := @pread_at file (pos + 37) (recEnd - (pos + 37)) (encodePush v2 p).length
              (recEnd - (pos + 37 + (encodePush v2 p).length)) _ hrest (by omega)
            rw [hplen, ← Nat.add_assoc] at hread
            rw [hread, ← hplen, ← Nat.add_zero (encodePush v2 p).length, pread_append_right]
            unfold pread
            rw [List.drop_zero, List.take_of_length_le (by omega)]
      · subst heq
        rw [memcmp_self, List.find?_cons_of_pos (by simp)]
        simp only
        obtain ⟨k, v⟩ := r
        cases v with
        | none =>
            rw [if_pos (show kindOf (k, none) = 2 from rfl)]
            rfl
        | some p =>
            have hscript := hscripts k p List.mem_cons_self
            simp only [Option.elim_some] at hlen hrest
            rw [if_neg (show kindOf (k, some p) ≠ 2 from (by decide : (1 : UInt8) ≠ 2)),
              readPush_eq hw₁ hend hscript hrest (by omega)]
            rfl
      · have hnone : rs.find? (·.1 = o) = none := by
          rw [List.find?_eq_none]
          intro x hx
          simpa using (hgt.trans (hhead x hx)).ne'
        rw [memcmp_of_gt hgt, List.find?_cons_of_neg (by simpa using hgt.ne'), hnone]
        rfl

end Scan

/-! ## The parts of a well-formed file -/

theorem rd64_of_pread {file : List UInt8} {pos n : Nat} (h : pread file pos 8 = leBytes 8 n) (hn : n < 2 ^ 64) :
    rd64 file pos = n := by
  unfold rd64
  rw [h, leVal_leBytes]
  exact Nat.mod_eq_of_lt hn

theorem RunMagic.ofValue_value (m : RunMagic) : ofValue m.value = some m := by
  cases m <;> rfl

namespace RunImage

variable {img : RunImage}

theorem length_header (img : RunImage) : img.header.length = img.magic.headerSize := by
  unfold header RunMagic.headerSize
  split
  · simp
  · simp

theorem length_bytes (img : RunImage) :
    img.bytes.length = img.recordsEnd + (encodeAll encodeEntry img.sparse).length := by
  unfold bytes recordsEnd recordsStart
  rw [List.length_append, List.length_append, List.length_append, length_header]
  omega

/-- What `parse_header` makes of the file. -/
def parsed (img : RunImage) : RunHeader where
  headerSize := img.magic.headerSize
  recV2 := img.magic.recV2
  gen := img.gen.toNat
  nrec := img.nrec.toNat
  bitsMask := img.bitsMask
  bloomBytes := img.bloomBits.toNat / 8
  sparseOff := img.sparseOff
  sparseN := img.sparse.length
  recordsStart := img.recordsStart

theorem length_encodeEntry (e : Outpoint × Nat) : (encodeEntry e).length = sparseEntSize := by
  unfold encodeEntry
  rw [List.length_append, e.1.key36_length, length_leBytes]
  rfl

theorem length_encodeAll_entry (es : List (Outpoint × Nat)) :
    (encodeAll encodeEntry es).length = es.length * sparseEntSize := by
  induction es with
  | nil => simp
  | cons e es ih =>
      rw [encodeAll_cons, List.length_append, ih, length_encodeEntry, List.length_cons, Nat.add_mul,
        Nat.one_mul, Nat.add_comm]

theorem bytes_common (img : RunImage) : img.bytes = leBytes 4 img.magic.value ++
    (leBytes 8 img.gen.toNat ++ (leBytes 8 img.nrec.toNat ++ (leBytes 8 img.bloomBits.toNat ++
      ((if img.magic = .run then [] else leBytes 8 img.sparseOff ++ leBytes 8 img.sparse.length) ++
        (img.bloom ++ (img.records ++ encodeAll encodeEntry img.sparse)))))) := by
  unfold bytes header
  simp only [List.append_assoc]

theorem WellFormed.parseHeader_eq (h : img.WellFormed) : parseHeader img.bytes = some img.parsed := by
  have hlen := img.length_bytes
  have hentries := length_encodeAll_entry img.sparse
  have hlt := h.length_lt
  have hend : img.recordsEnd = img.recordsStart + img.records.length := rfl
  have hstart : img.recordsStart = img.magic.headerSize + img.bloom.length := rfl
  have hsize : 28 ≤ img.magic.headerSize := by
    unfold RunMagic.headerSize
    split <;> omega
  have hmagic : leVal (pread img.bytes 0 4) = img.magic.value := by
    have hread : pread img.bytes 0 4 = leBytes 4 img.magic.value := by
      rw [bytes_common]
      exact @pread_append _ [] _ _ _ _ rfl (length_leBytes ..)
    rw [hread, leVal_leBytes]
    cases img.magic <;> rfl
  have hgen : rd64 img.bytes 4 = img.gen.toNat := by
    refine rd64_of_pread ?_ img.gen.toNat_lt
    rw [bytes_common]
    exact pread_append (length_leBytes ..) (length_leBytes ..)
  have hnrec : rd64 img.bytes 12 = img.nrec.toNat := by
    refine rd64_of_pread ?_ img.nrec.toNat_lt
    rw [bytes_common, ← List.append_assoc]
    exact pread_append (by simp) (length_leBytes ..)
  have hbits : rd64 img.bytes 20 = img.bloomBits.toNat := by
    refine rd64_of_pread ?_ img.bloomBits.toNat_lt
    rw [bytes_common, ← List.append_assoc, ← List.append_assoc]
    exact pread_append (by simp) (length_leBytes ..)
  have hsparse : (if img.magic = .run then 0 else rd64 img.bytes 28) = img.sparseOff ∧
      (if img.magic = .run then 0 else rd64 img.bytes 36) = img.sparse.length := by
    by_cases hrun : img.magic = .run
    · have htrailer := h.trailer_run hrun
      rw [if_pos hrun, if_pos hrun, h.trailer_sparse htrailer]
      unfold sparseOff
      rw [htrailer]
      exact ⟨rfl, rfl⟩
    · rw [if_neg hrun, if_neg hrun]
      have hoff : img.sparseOff < 2 ^ 64 := by
        unfold sparseOff
        split <;> omega
      have hn : img.sparse.length < 2 ^ 64 := by
        unfold sparseEntSize at hentries
        omega
      refine ⟨rd64_of_pread ?_ hoff, rd64_of_pread ?_ hn⟩
      · rw [bytes_common, if_neg hrun, ← List.append_assoc, ← List.append_assoc, ← List.append_assoc,
          List.append_assoc (leBytes 8 img.sparseOff)]
        exact pread_append (by simp) (length_leBytes ..)
      · rw [bytes_common, if_neg hrun, ← List.append_assoc, ← List.append_assoc, ← List.append_assoc,
          List.append_assoc (leBytes 8 img.sparseOff), ← List.append_assoc]
        exact pread_append (by simp) (length_leBytes ..)
  have hbloom : img.bloomBits.toNat / 8 = img.bloom.length := h.bloom_length.symm
  unfold parseHeader
  simp only
  rw [if_neg (by omega), hmagic, RunMagic.ofValue_value]
  simp only
  rw [if_neg (by omega), hbits, hsparse.1, hsparse.2, hbloom, if_neg (by omega), if_neg, if_neg]
  · rw [hgen, hnrec]
    unfold parsed
    rw [hbloom]
    rfl
  · rintro ⟨hne, hbad⟩
    have hoff : img.sparseOff = img.recordsEnd := by
      unfold sparseOff
      rw [if_pos]
      by_contra htrailer
      rw [h.trailer_sparse (by simpa using htrailer)] at hne
      exact hne rfl
    omega
  · rintro ⟨hne, hbad⟩
    have hoff : img.sparseOff = img.recordsEnd := by
      unfold sparseOff at hne ⊢
      split
      · rfl
      · next htrailer =>
          rw [if_neg htrailer] at hne
          exact absurd rfl hne
    omega

/-- An entry of the sample, read where the search looks for it. -/
theorem WellFormed.read_entry (h : img.WellFormed) {mid : Nat} (hmid : mid < img.sparse.length) :
    ∃ e ∈ img.sparse, pread img.bytes (img.sparseOff + mid * sparseEntSize) 36 = e.1.key36 ∧
      rd64 img.bytes (img.sparseOff + mid * sparseEntSize + 36) = e.2 := by
  have hoff : img.sparseOff = img.recordsEnd := by
    unfold sparseOff
    rw [if_pos]
    by_contra htrailer
    rw [h.trailer_sparse (by simpa using htrailer)] at hmid
    exact absurd hmid (Nat.not_lt_zero _)
  refine ⟨img.sparse[mid], List.getElem_mem hmid, ?_⟩
  have hsplit : img.sparse = img.sparse.take mid ++ img.sparse[mid] :: img.sparse.drop (mid + 1) := by
    rw [← List.drop_eq_getElem_cons hmid, List.take_append_drop]
  generalize img.sparse[mid] = e at hsplit
  have hlt : e.2 < 2 ^ 64 := by
    obtain ⟨before, r, after, hrecs, -, heq⟩ := h.names e (by rw [hsplit]; simp)
    have hle : (encodeAll (encodeRec img.magic.recV2) before).length ≤ img.records.length := by
      unfold records
      rw [hrecs, encodeAll_append, List.length_append]
      omega
    have := h.length_lt
    have := img.length_bytes
    have : img.recordsEnd = img.recordsStart + img.records.length := rfl
    omega
  have hbytes : img.bytes = (img.header ++ (img.bloom ++ (img.records ++
      encodeAll encodeEntry (img.sparse.take mid)))) ++ (e.1.key36 ++ (leBytes 8 e.2 ++
        encodeAll encodeEntry (img.sparse.drop (mid + 1)))) := by
    unfold bytes
    conv_lhs => rw [hsplit]
    rw [encodeAll_append, encodeAll_cons]
    unfold encodeEntry
    simp only [List.append_assoc]
  have hfront : (img.header ++ (img.bloom ++ (img.records ++
      encodeAll encodeEntry (img.sparse.take mid)))).length = img.sparseOff + mid * sparseEntSize := by
    rw [hoff]
    unfold recordsEnd recordsStart
    rw [List.length_append, List.length_append, List.length_append, length_header,
      length_encodeAll_entry, List.length_take, min_eq_left hmid.le]
    omega
  rw [hbytes]
  refine ⟨pread_append hfront e.1.key36_length, rd64_of_pread ?_ hlt⟩
  rw [← List.append_assoc]
  exact pread_append (by rw [List.length_append, hfront, e.1.key36_length]) (length_leBytes ..)

end RunImage

/-! ## The search -/

/-- Where a scan for the key may start: at the first record, or at one with a sampled key
that is not greater. -/
def StartFor (img : RunImage) (o : Outpoint) (pos : Nat) : Prop :=
  pos = img.recordsStart ∨ ∃ e ∈ img.sparse, e.1 ≤ o ∧ pos = e.2

theorem RunImage.WellFormed.searchSparse_spec {img : RunImage} (h : img.WellFormed) {o : Outpoint}
    {fuel lo hi pos : Nat} (hhi : hi < img.sparse.length) (hfuel : hi + 1 - lo < fuel)
    (hpos : StartFor img o pos) :
    ∃ pos', searchSparse img.bytes img.parsed o.key36 fuel lo hi pos = some pos' ∧
      StartFor img o pos' := by
  induction fuel generalizing lo hi pos with
  | zero => omega
  | succ fuel ih =>
      unfold searchSparse
      split
      · next hle =>
          have hmid : lo + (hi - lo) / 2 ≤ hi := by omega
          have hlow : lo ≤ lo + (hi - lo) / 2 := Nat.le_add_right _ _
          simp only
          generalize lo + (hi - lo) / 2 = mid at hmid hlow
          obtain ⟨e, he, hkey, hoff⟩ := h.read_entry (show mid < img.sparse.length by omega)
          change ∃ pos', (match memcmp (pread img.bytes (img.sparseOff + mid * sparseEntSize) 36) o.key36 with
            | .gt => if mid = 0 then some pos
              else searchSparse img.bytes img.parsed o.key36 fuel lo (mid - 1) pos
            | _ => searchSparse img.bytes img.parsed o.key36 fuel (mid + 1) hi
              (rd64 img.bytes (img.sparseOff + mid * sparseEntSize + 36))) = some pos' ∧ _
          rw [hkey, hoff]
          have hstep : e.1 ≤ o → ∃ pos',
              searchSparse img.bytes img.parsed o.key36 fuel (mid + 1) hi e.2 = some pos' ∧
                StartFor img o pos' :=
            fun hle => ih hhi (by omega) (.inr ⟨e, he, hle, rfl⟩)
          rcases lt_trichotomy e.1 o with hlt | heq | hgt
          · rw [memcmp_of_lt hlt]
            exact hstep hlt.le
          · rw [heq, memcmp_self]
            exact hstep heq.le
          · rw [memcmp_of_gt hgt]
            simp only
            split
            · exact ⟨pos, rfl, hpos⟩
            · exact ih (by omega) (by omega) hpos
      · exact ⟨pos, rfl, hpos⟩

/-- A scan may start where nothing before it has the key. -/
theorem RunImage.WellFormed.start_cases {img : RunImage} (h : img.WellFormed) {o : Outpoint} {pos : Nat}
    (hpos : StartFor img o pos) :
    ∃ before rest, img.recs = before ++ rest ∧ (∀ r ∈ before, r.1 ≠ o) ∧
      pos = img.recordsStart + (encodeAll (encodeRec img.magic.recV2) before).length := by
  rcases hpos with rfl | ⟨e, he, hle, rfl⟩
  · exact ⟨[], img.recs, rfl, nofun, rfl⟩
  · obtain ⟨before, r, after, hrecs, hkey, hoff⟩ := h.names e he
    refine ⟨before, r :: after, hrecs, fun x hx => ?_, hoff⟩
    have hsorted := h.sorted
    rw [hrecs, List.pairwise_append] at hsorted
    have hlt := hsorted.2.2 x hx r List.mem_cons_self
    exact (hlt.trans_le (hkey ▸ hle)).ne

theorem length_le_encodeAll (v2 : Bool) (rs : List RunRec) :
    rs.length ≤ (encodeAll (encodeRec v2) rs).length := by
  induction rs with
  | nil => exact le_rfl
  | cons r rs ih =>
      rw [encodeAll_cons, List.length_append, List.length_cons, encodeRec_eq, List.length_append,
        length_keyKind]
      omega

/-- On every well-formed run file and for every key the lookup ends, and answers what a scan
of all the records answers, mapped or read through the window. -/
theorem lookupBody_eq {img : RunImage} (h : img.WellFormed) (pr : Bool) (o : Outpoint) :
    lookupBody img.bytes img.gen.toNat pr o =
      some (answerOf img.magic.recV2 (img.recs.find? (·.1 = o))) := by
  have hslot : slotGet img.bytes img.gen.toNat = some img.parsed := by
    unfold slotGet
    rw [h.parseHeader_eq]
    exact if_pos rfl
  have hlen := img.length_bytes
  have hend : img.recordsEnd = img.recordsStart + img.records.length := rfl
  have hsize : 28 ≤ img.recordsStart := by
    unfold RunImage.recordsStart RunMagic.headerSize
    split <;> omega
  have hrecEnd : (if img.sparseOff ≠ 0 then img.sparseOff else img.bytes.length) = img.recordsEnd := by
    unfold RunImage.sparseOff
    cases htrailer : img.trailer with
    | true =>
        rw [if_pos rfl, if_pos (by omega)]
    | false =>
        rw [if_neg (by simp), hlen, h.trailer_sparse htrailer]
        rfl
  -- whatever the search answers, the scan from there is the whole scan
  have hscan : ∀ pos, StartFor img o pos → pos ≤ img.recordsEnd ∧
      scanRecords img.bytes img.magic.recV2 img.recordsEnd pr o.key36 (img.bytes.length + 1) pos ⟨0, []⟩ =
        some (answerOf img.magic.recV2 (img.recs.find? (·.1 = o))) := by
    intro pos hpos
    obtain ⟨before, rest, hrecs, hbefore, rfl⟩ := h.start_cases hpos
    have hsorted := h.sorted
    rw [hrecs, List.pairwise_append] at hsorted
    have hrecords : img.records = encodeAll (encodeRec img.magic.recV2) before ++
        encodeAll (encodeRec img.magic.recV2) rest := by
      unfold RunImage.records
      rw [hrecs, encodeAll_append]
    have hreclen := congrArg List.length hrecords
    rw [List.length_append] at hreclen
    have hfind : img.recs.find? (·.1 = o) = rest.find? (·.1 = o) := by
      have hnone : before.find? (·.1 = o) = none := by
        rw [List.find?_eq_none]
        intro x hx
        simpa using hbefore x hx
      rw [hrecs, List.find?_append, hnone, Option.none_or]
    have hat : pread img.bytes (img.recordsStart + (encodeAll (encodeRec img.magic.recV2) before).length)
        (img.recordsEnd - (img.recordsStart + (encodeAll (encodeRec img.magic.recV2) before).length)) =
          encodeAll (encodeRec img.magic.recV2) rest := by
      have hbytes : img.bytes = (img.header ++ (img.bloom ++ encodeAll (encodeRec img.magic.recV2) before)) ++
          (encodeAll (encodeRec img.magic.recV2) rest ++ encodeAll encodeEntry img.sparse) := by
        unfold RunImage.bytes
        rw [hrecords]
        simp only [List.append_assoc]
      rw [hbytes]
      refine pread_append ?_ (by omega)
      rw [List.length_append, List.length_append, RunImage.length_header]
      unfold RunImage.recordsStart
      omega
    have hshort := length_le_encodeAll img.magic.recV2 rest
    refine ⟨by omega, ?_⟩
    rw [hfind]
    refine scanRecords_eq hsorted.2.1 (fun k p hmem => h.scripts k p ?_) rfl (by omega) (by omega) hat
      (by omega)
    rw [hrecs]
    exact List.mem_append_right _ hmem
  unfold lookupBody
  rw [hslot]
  simp only
  by_cases hbloom : img.parsed.bloomBytes ≠ 0 ∧
      ¬ bloomHas (img.bytes.drop img.parsed.headerSize) img.parsed.bitsMask o.key36 = true
  · rw [if_pos hbloom]
    have hne : img.bloom ≠ [] := by
      intro hnil
      have hlen := h.bloom_length
      rw [hnil] at hlen
      exact hbloom.1 hlen.symm
    have hnone : img.recs.find? (·.1 = o) = none := by
      rw [List.find?_eq_none]
      intro r hr heq
      obtain rfl : r.1 = o := by simpa using heq
      exact hbloom.2 (h.filter hne r hr)
    rw [hnone]
    rfl
  · rw [if_neg hbloom]
    change (match if img.sparse.length = 0 then some img.recordsStart
      else searchSparse img.bytes img.parsed o.key36 (img.sparse.length + 1) 0 (img.sparse.length - 1)
        img.recordsStart with
      | none => none
      | some pos => if img.sparse.length ≠ 0 ∧ img.bytes.length < pos then some RunAnswer.fallback
        else scanRecords img.bytes img.magic.recV2
          (if img.sparseOff ≠ 0 then img.sparseOff else img.bytes.length) pr o.key36
          (img.bytes.length + 1) pos ⟨0, []⟩) = _
    have hsearch : ∃ pos, (if img.sparse.length = 0 then some img.recordsStart
        else searchSparse img.bytes img.parsed o.key36 (img.sparse.length + 1) 0 (img.sparse.length - 1)
          img.recordsStart) = some pos ∧ StartFor img o pos := by
      split
      · exact ⟨_, rfl, .inl rfl⟩
      · exact h.searchSparse_spec (by omega) (by omega) (.inl rfl)
    obtain ⟨pos, hpos, hstart⟩ := hsearch
    obtain ⟨hle, hfound⟩ := hscan pos hstart
    rw [hpos]
    simp only
    rw [if_neg (by omega), hrecEnd]
    exact hfound

def sampleKey (i : UInt32) : Outpoint := ⟨Txid.ofBytes [1], i⟩

def samplePush : PushData := ⟨50, 7, 1, [0x51, 0x52]⟩

/-- Two puts and a tombstone, with the first and the last key sampled. -/
def sampleRun : RunImage where
  magic := .run3
  gen := 4
  nrec := 3
  bloomBits := 64
  bloom := List.replicate 8 0xFF
  recs := [(sampleKey 0, some samplePush), (sampleKey 1, none), (sampleKey 2, some samplePush)]
  sparse := [(sampleKey 0, 52), (sampleKey 2, 143)]
  trailer := true

theorem sampleRun_wellFormed : sampleRun.WellFormed where
  sorted := by decide
  scripts := by
    intro o p hmem
    have hp : p = samplePush := by
      simp only [sampleRun, List.mem_cons, Prod.mk.injEq, Option.some.injEq, reduceCtorEq, and_false,
        List.not_mem_nil, or_false, false_or] at hmem
      rcases hmem with ⟨-, rfl⟩ | ⟨-, rfl⟩ <;> rfl
    rw [hp]
    decide
  bloom_length := by decide
  filter := by
    intro _
    decide +kernel
  names := by
    intro e he
    have hcases : e = (sampleKey 0, 52) ∨ e = (sampleKey 2, 143) := by
      simpa [sampleRun] using he
    rcases hcases with rfl | rfl
    · exact ⟨[], _, _, rfl, rfl, by decide⟩
    · exact ⟨[(sampleKey 0, some samplePush), (sampleKey 1, none)], _, _, rfl, rfl, by decide⟩
  trailer_run := nofun
  trailer_sparse := nofun
  length_lt := by decide +kernel

theorem lookupBody_eq_sample : sampleRun.WellFormed ∧
    lookupBody sampleRun.bytes 4 true (sampleKey 2) = some (.found samplePush) ∧
    lookupBody sampleRun.bytes 4 false (sampleKey 1) = some .tomb ∧
    lookupBody sampleRun.bytes 4 true (sampleKey 3) = some .absent :=
  ⟨sampleRun_wellFormed, lookupBody_eq sampleRun_wellFormed true (sampleKey 2),
    lookupBody_eq sampleRun_wellFormed false (sampleKey 1),
    lookupBody_eq sampleRun_wellFormed true (sampleKey 3)⟩

end BitcoinMachineCode.Storage.RunFile
