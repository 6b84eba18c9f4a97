import BitcoinMachineCode.Storage.LsmReads
import BitcoinMachineCode.Storage.RunFile

/-!
# Compaction, on the files

`utxo_lsm_compact_range` reads a range of runs record by record, one slot a run, and writes
what wins each key to a new run.  The header, the filter and the place of the sample are
written again after the records, over what was written for them first.
-/

namespace BitcoinMachineCode.Storage.RunFile

open BitcoinMachineCode.Foundation

/-! ## The inputs -/

/-- A record in a slot: the key with the type byte, and what a put has after it. -/
structure SlotRec where
  head : List UInt8
  push : Option PushData

def SlotRec.key (r : SlotRec) : List UInt8 := r.head.take 36

def SlotRec.kind (r : SlotRec) : UInt8 := r.head.getD 36 0

/-- A slot without a current record is not active. -/
structure Slot where
  file : List UInt8
  recV2 : Bool
  pos : Nat
  remaining : Nat
  current : Option SlotRec

/-- `mac_slot_read`: a short read is an error. -/
def slotRead (file : List UInt8) (pos len : Nat) : Option (List UInt8) :=
  if (pread file pos len).length = len then some (pread file pos len) else none

/-- `mac_compact_read_rec`; a put of the old shape gets no height and no coinbase byte. -/
def compactReadRec (s : Slot) : Option Slot :=
  match slotRead s.file s.pos 37 with
  | none => none
  | some head =>
      if head.getD 36 0 ≠ 1 then
        some { s with pos := s.pos + 37, remaining := s.remaining - 1, current := some ⟨head, none⟩ }
      else
        match slotRead s.file (s.pos + 37) (pushLen s.recV2) with
        | none => none
        | some v =>
            let slen := leVal (pread v 8 2)
            match slotRead s.file (s.pos + 37 + pushLen s.recV2) slen with
            | none => none
            | some script => some { s with
                pos := s.pos + 37 + pushLen s.recV2 + slen
                remaining := s.remaining - 1
                current := some ⟨head, some
                  { value := UInt64.ofNat (leVal (pread v 0 8))
                    height := if s.recV2 then UInt32.ofNat (leVal (pread v 10 4)) else 0
                    isCoinbase := if s.recV2 then v.getD 14 0 else 0
                    script := script }⟩ }

/-- `mac_read_run_header`: the magic, the record count and the filter's length. -/
def readRunHeader (file : List UInt8) : Option (RunMagic × Nat × Nat) :=
  match slotRead file 0 4 with
  | none => none
  | some m =>
      match RunMagic.ofValue (leVal m) with
      | none => none
      | some magic =>
          match slotRead file 4 (magic.headerSize - 4) with
          | none => none
          | some h => some (magic, leVal (pread h 8 8), leVal (pread h 16 8) / 8)

/-- A slot at the first record of its run, with the count the header gives. -/
def openRun (file : List UInt8) : Option (Slot × Nat) :=
  match readRunHeader file with
  | none => none
  | some (magic, nrec, bloomBytes) =>
      let slot : Slot := ⟨file, magic.recV2, magic.headerSize + bloomBytes, nrec, none⟩
      if nrec = 0 then some (slot, nrec)
      else
        match compactReadRec slot with
        | none => none
        | some slot => some (slot, nrec)

def openRuns (files : PMap Nat (List UInt8)) (es : List ManifestEntry) : Option (List (Slot × Nat)) :=
  es.mapM fun e =>
    match files e.runNo with
    | none => none
    | some file => openRun file

/-! ## The filter of the output -/

/-- Doubled until it is enough; nothing where it shifts out to zero and never is. -/
def doubleUntil (want : Nat) : Nat → Nat → Option Nat
  | 0, _ => none
  | fuel + 1, bits => if want ≤ bits then some bits else doubleUntil want fuel (bits * 2 % 2 ^ 64)

def runBloomMaxBytes : Nat := 256 * 1024 * 1024

/-- Ten bits a record, rounded up to a power of two. -/
def bloomBitsFor (upper : Nat) : Option Nat :=
  let want := upper * 10 % 2 ^ 64
  (doubleUntil (if want < 64 then 64 else want) 65 1).map fun bits =>
    if runBloomMaxBytes * 8 < bits then runBloomMaxBytes * 8 else bits

def bloomSetbit (bitsMask : UInt32) (bloom : List UInt8) (h : UInt32) : List UInt8 :=
  let bit := h &&& bitsMask
  bloom.modify (bit.toNat / 8) fun b => b ||| (1 <<< UInt8.ofNat (bit.toNat % 8))

def bloomAdd (bitsMask : UInt32) (bloom : List UInt8) (key : List UInt8) : List UInt8 :=
  bloomSeeds.foldl (fun bloom seed => bloomSetbit bitsMask bloom (bloomH key seed)) bloom

/-! ## The output -/

/-- What has reached the file and what the writer still holds, with the record count, the
sample and the filter built so far. -/
structure CompactOut where
  written : List UInt8
  held : List UInt8
  nrec : Nat
  sparse : List UInt8
  sparseN : Nat
  bloom : List UInt8

namespace CompactOut

def macOwbuf : Nat := 1048576

def outWrite (out : CompactOut) (data : List UInt8) : CompactOut :=
  if out.held.length + data.length ≤ macOwbuf then { out with held := out.held ++ data }
  else if macOwbuf ≤ data.length then { out with written := out.written ++ out.held ++ data, held := [] }
  else { out with written := out.written ++ out.held, held := data }

def outFlush (out : CompactOut) : CompactOut :=
  { out with written := out.written ++ out.held, held := [] }

def outTell (out : CompactOut) : Nat := out.written.length + out.held.length

end CompactOut

def sparseStride : Nat := 64

/-- The fields of a put before its script, in the new shape. -/
def valueBlock (p : PushData) : List UInt8 :=
  leBytes 8 p.value.toNat ++ (leBytes 2 p.script.length ++ (leBytes 4 p.height.toNat ++ [p.isCoinbase]))

/-- Every stride-th record is sampled before its bytes are written; nothing where the
sample does not fit the memory that was mapped for it. -/
def sampleKeyAt (sparseBytes : Nat) (out : CompactOut) (key : List UInt8) : Option CompactOut :=
  if out.nrec % sparseStride ≠ 0 then some out
  else if sparseBytes < out.sparse.length + sparseEntSize then none
  else some { out with
    sparse := out.sparse ++ (key ++ leBytes 8 out.outTell)
    sparseN := out.sparseN + 1 }

def writeRec (out : CompactOut) (r : SlotRec) : CompactOut :=
  let out := out.outWrite r.head
  match r.push with
  | none => out
  | some p =>
      let out := out.outWrite (valueBlock p)
      if p.script = [] then out else out.outWrite p.script

def emit (sparseBytes : Nat) (bitsMask : UInt32) (out : CompactOut) (r : SlotRec) : Option CompactOut :=
  match sampleKeyAt sparseBytes out r.key with
  | none => none
  | some out =>
      let out := writeRec out r
      some { out with bloom := bloomAdd bitsMask out.bloom r.key, nrec := out.nrec + 1 }

/-! ## The merge -/

/-- One slot of the search: an equal key goes to the later slot. -/
def pickSlot (best : Option SlotRec) (s : Slot) : Option SlotRec :=
  match s.current, best with
  | none, best => best
  | some r, none => some r
  | some r, some b =>
      match memcmp r.key b.key with
      | .gt => some b
      | _ => some r

def findWinner (slots : List Slot) : Option SlotRec := slots.foldl pickSlot none

/-- A slot walks past every copy of the key; nothing where a read fails. -/
def advanceFuel (key : List UInt8) : Nat → Slot → Option Slot
  | 0, _ => none
  | fuel + 1, s =>
      match s.current with
      | none => some s
      | some r =>
          match memcmp r.key key with
          | .eq =>
              if s.remaining = 0 then some { s with current := none }
              else
                match compactReadRec s with
                | none => none
                | some s => advanceFuel key fuel s
          | _ => some s

def advanceSlot (key : List UInt8) (s : Slot) : Option Slot := advanceFuel key (s.remaining + 1) s

/-- Puts are written, deletions only where they may cancel an older run's put. -/
def keepsRec (keepDels : Bool) (r : SlotRec) : Bool := r.kind == 1 || keepDels && r.kind == 2

/-- The streaming merge; nothing where it does not end or a step of it fails. -/
def compactLoop (keepDels : Bool) (sparseBytes : Nat) (bitsMask : UInt32) :
    Nat → List Slot → CompactOut → Option CompactOut
  | 0, _, _ => none
  | fuel + 1, slots, out =>
      match findWinner slots with
      | none => some out
      | some w =>
          match if keepsRec keepDels w then emit sparseBytes bitsMask out w else some out with
          | none => none
          | some out =>
              match slots.mapM (advanceSlot w.key) with
              | none => none
              | some slots => compactLoop keepDels sparseBytes bitsMask fuel slots out

/-- The header with nothing yet for the record count and the sample. -/
def blankHeader (gen : UInt64) (bits : Nat) : List UInt8 :=
  leBytes 4 RunMagic.run3.value ++ (leBytes 8 gen.toNat ++ (leBytes 8 0 ++ (leBytes 8 bits ++
    (leBytes 8 0 ++ leBytes 8 0))))

/-- What is written after the last record: the filter and the count over what stands for
them, the sample at the end, and its place into the header. -/
def finishFile (out : CompactOut) : List UInt8 :=
  let file := out.outFlush.written
  let file := pwrite file 44 out.bloom
  let file := pwrite file 12 (leBytes 8 out.nrec)
  let sparseOff := file.length
  let file := file ++ out.sparse
  pwrite file 28 (leBytes 8 sparseOff ++ leBytes 8 out.sparseN)

/-- The bytes mapped for the sample, of which only 32 bits reach the call. -/
def sparseScratch (upper : Nat) : Nat := (upper / sparseStride + 2) * sparseEntSize % 2 ^ 32

/-- The run written for the entries; nothing where a read fails, a loop does not end, memory
is missing or the file would grow past the largest offset. -/
def writeMerged (files : PMap Nat (List UInt8)) (es : List ManifestEntry) (keepDels : Bool)
    (gen : UInt64) : Option (List UInt8) :=
  match openRuns files es with
  | none => none
  | some opened =>
      let total := (opened.map (·.2)).sum
      let upper := total % 2 ^ 64
      match bloomBitsFor upper with
      | none => none
      | some bits =>
          let bloom := List.replicate (bits / 8) 0
          match compactLoop keepDels (sparseScratch upper) (UInt32.ofNat (bits - 1)) (total + 1)
              (opened.map (·.1)) ⟨blankHeader gen bits ++ bloom, [], 0, [], 0, bloom⟩ with
          | none => none
          | some out =>
              if (finishFile out).length < 2 ^ 63 then some (finishFile out) else none

/-- `utxo_lsm_compact_range`, up to the file it writes: nothing for a range it does not
take. -/
def compactRange (files : PMap Nat (List UInt8)) (manifest : List ManifestEntry) (lo k : Nat)
    (nextGen : UInt64) : Option (List UInt8) :=
  match compactBatch manifest.length lo k with
  | none => none
  | some (lo, k, keepDels) => writeMerged files (batch manifest lo k) keepDels nextGen

/-- The run loop of `utxo_lsm_get`, over entries from the newest down. -/
def lookupRuns (files : PMap Nat (List UInt8)) (pr : Bool) (o : Outpoint) :
    List ManifestEntry → Option RunAnswer
  | [] => some .absent
  | e :: es =>
      match files e.runNo with
      | none => some .fallback
      | some file =>
          match lookupBody file e.gen pr o with
          | some .absent => lookupRuns files pr o es
          | answer => answer

/-! ## What the slots hold -/

/-- A record as compaction carries it over. -/
def shownRec (v2 : Bool) (r : RunRec) : RunRec := (r.1, r.2.map (shown v2))

def slotRec (r : RunRec) : SlotRec := ⟨r.1.key36 ++ [kindOf r], r.2⟩

theorem key_slotRec (r : RunRec) : (slotRec r).key = r.1.key36 := by
  unfold SlotRec.key slotRec
  rw [List.take_left' r.1.key36_length]

theorem kind_slotRec (r : RunRec) : (slotRec r).kind = kindOf r := by
  unfold SlotRec.kind slotRec
  rw [List.getD_eq_getElem?_getD, List.getElem?_append_right (by rw [r.1.key36_length]),
    r.1.key36_length]
  rfl

theorem kindOf_shownRec (v2 : Bool) (r : RunRec) : kindOf (shownRec v2 r) = kindOf r := by
  unfold kindOf shownRec
  rw [Option.isSome_map]

theorem memcmp_eq_iff {a b : Outpoint} : memcmp a.key36 b.key36 = .eq ↔ a = b := by
  constructor
  · intro h
    rcases lt_trichotomy a b with hlt | heq | hgt
    · rw [memcmp_of_lt hlt] at h
      cases h
    · exact heq
    · rw [memcmp_of_gt hgt] at h
      cases h
  · rintro rfl
    exact memcmp_self a

/-- The records from the slot's place on. -/
structure Slot.Ahead (s : Slot) (raw : List RunRec) : Prop where
  remaining : s.remaining = raw.length
  bytes : ∃ tail, s.file.drop s.pos = encodeAll (encodeRec s.recV2) raw ++ tail
  scripts : ∀ o p, (o, some p) ∈ raw → p.script.length < 2 ^ 16

theorem slotRead_of_drop {file data tail : List UInt8} {pos len : Nat}
    (h : file.drop pos = data ++ tail) (hlen : data.length = len) : slotRead file pos len = some data := by
  have hread : pread file pos len = data := by
    unfold pread
    rw [h, List.take_left' hlen]
  unfold slotRead
  rw [hread, if_pos hlen]

theorem drop_of_drop {file data tail : List UInt8} {pos len : Nat}
    (h : file.drop pos = data ++ tail) (hlen : data.length = len) : file.drop (pos + len) = tail := by
  rw [← List.drop_drop, h, List.drop_left' hlen]

/-- A put is the fields before its script and the script. -/
theorem encodePush_split (v2 : Bool) {p : PushData} (hscript : p.script.length < 2 ^ 16) :
    ∃ block, encodePush v2 p = block ++ p.script ∧ block.length = pushLen v2 ∧
      leVal (pread block 8 2) = p.script.length ∧
      (⟨UInt64.ofNat (leVal (pread block 0 8)),
        if v2 then UInt32.ofNat (leVal (pread block 10 4)) else 0,
        if v2 then block.getD 14 0 else 0, p.script⟩ : PushData) = shown v2 p := by
  have hlen := length_encodePush v2 p
  have hfields := @fields_encodePush v2 p
  have hslen := @slen_encodePush v2 p hscript []
  rw [List.append_nil] at hslen
  have hten : 10 ≤ pushLen v2 := by cases v2 <;> decide
  have hat : ∀ {o n}, o + n ≤ pushLen v2 →
      pread ((encodePush v2 p).take (pushLen v2)) o n = pread (encodePush v2 p) o n := by
    intro o n hle
    have hread := @pread_pread _ (encodePush v2 p) 0 (pushLen v2) o n hle
    unfold pread at hread ⊢
    simpa using hread
  have hpread : pread (encodePush v2 p) (pushLen v2) p.script.length =
      (encodePush v2 p).drop (pushLen v2) := by
    unfold pread
    rw [List.take_of_length_le]
    rw [List.length_drop, hlen]
    omega
  have hscr : (encodePush v2 p).drop (pushLen v2) = p.script := by
    have hshown : (shown v2 p).script = p.script := by
      unfold shown
      split <;> rfl
    have hproj := congrArg PushData.script hfields
    change pread (encodePush v2 p) (pushLen v2) p.script.length = (shown v2 p).script at hproj
    rw [← hpread, hproj, hshown]
  rw [hpread, hscr] at hfields
  refine ⟨(encodePush v2 p).take (pushLen v2), ?_, ?_, ?_, ?_⟩
  · conv_lhs => rw [← List.take_append_drop (pushLen v2) (encodePush v2 p), hscr]
  · rw [List.length_take, hlen]
    omega
  · rw [hat (by omega), hslen]
  · rw [← hfields, hat (by omega)]
    cases v2 with
    | false => rfl
    | true =>
        rw [hat (by decide), List.getD_eq_getElem?_getD, List.getD_eq_getElem?_getD,
          List.getElem?_take_of_lt (by decide)]

theorem Slot.Ahead.compactReadRec {s : Slot} {r : RunRec} {raw : List RunRec} (h : s.Ahead (r :: raw)) :
    ∃ s', compactReadRec s = some s' ∧ s'.recV2 = s.recV2 ∧
      s'.current = some (slotRec (shownRec s.recV2 r)) ∧ s'.Ahead raw := by
  obtain ⟨hrem, ⟨tail, hbytes⟩, hscripts⟩ := h
  have hscripts' : ∀ o p, (o, some p) ∈ raw → p.script.length < 2 ^ 16 :=
    fun o p hmem => hscripts o p (List.mem_cons_of_mem _ hmem)
  rw [encodeAll_cons, encodeRec_eq, List.append_assoc, List.append_assoc] at hbytes
  have hhead := slotRead_of_drop hbytes (length_keyKind r)
  have hdrop := drop_of_drop hbytes (length_keyKind r)
  have hkind := kind_slotRec r
  unfold SlotRec.kind slotRec at hkind
  unfold RunFile.compactReadRec
  rw [hhead]
  simp only
  rw [hkind]
  obtain ⟨o, v⟩ := r
  cases v with
  | none =>
      rw [if_pos (show kindOf (o, none) ≠ 1 from (by decide : (2 : UInt8) ≠ 1))]
      refine ⟨_, rfl, rfl, rfl, ?_, ⟨tail, hdrop⟩, hscripts'⟩
      rw [hrem]
      rfl
  | some p =>
      obtain ⟨block, hsplit, hblen, hslen, hfields⟩ :=
        encodePush_split s.recV2 (hscripts o p List.mem_cons_self)
      rw [if_neg (not_not.mpr (show kindOf (o, some p) = 1 from rfl))]
      change s.file.drop (s.pos + 37) = encodePush s.recV2 p ++ _ at hdrop
      rw [hsplit, List.append_assoc] at hdrop
      have hdrop' := drop_of_drop hdrop hblen
      rw [slotRead_of_drop hdrop hblen]
      simp only
      rw [hslen, slotRead_of_drop hdrop' rfl]
      simp only
      rw [hfields]
      refine ⟨_, rfl, rfl, ?_, ?_, ⟨tail, drop_of_drop hdrop' rfl⟩, hscripts'⟩
      · unfold slotRec
        rw [kindOf_shownRec]
        rfl
      · rw [hrem]
        rfl

/-- The current record of the slot with those after it, as compaction carries them over. -/
inductive Slot.Holds (s : Slot) : List RunRec → Prop
  | done (h : s.current = none) : s.Holds []
  | next {r : RunRec} {raw : List RunRec} (hcurrent : s.current = some (slotRec r)) (hahead : s.Ahead raw) :
      s.Holds (r :: raw.map (shownRec s.recV2))

/-- A slot that stands at another key stays where it is. -/
theorem advanceFuel_of_ne {o : Outpoint} {r : RunRec} {s : Slot} (fuel : Nat)
    (hcurrent : s.current = some (slotRec r)) (hne : r.1 ≠ o) :
    advanceFuel o.key36 (fuel + 1) s = some s := by
  unfold advanceFuel
  rw [hcurrent]
  simp only
  rw [key_slotRec]
  split
  · next heq => exact absurd (memcmp_eq_iff.mp heq) hne
  · rfl

theorem advanceFuel_spec {o : Outpoint} {r : RunRec} {raw : List RunRec} {s : Slot} {fuel : Nat}
    (hcurrent : s.current = some (slotRec r)) (hahead : s.Ahead raw) (hfuel : raw.length < fuel) :
    ∃ s', advanceFuel o.key36 fuel s = some s' ∧
      s'.Holds ((r :: raw.map (shownRec s.recV2)).dropWhile fun x => x.1 = o) := by
  induction raw generalizing s r fuel with
  | nil =>
      obtain ⟨fuel, rfl⟩ := Nat.exists_eq_add_one_of_ne_zero (Nat.ne_of_gt hfuel)
      by_cases heq : r.1 = o
      · rw [List.dropWhile_cons_of_pos (by simpa using heq)]
        refine ⟨{ s with current := none }, ?_, .done rfl⟩
        unfold advanceFuel
        rw [hcurrent]
        simp only
        rw [key_slotRec, memcmp_eq_iff.mpr heq]
        exact if_pos hahead.remaining
      · rw [List.dropWhile_cons_of_neg (by simpa using heq)]
        exact ⟨s, advanceFuel_of_ne fuel hcurrent heq, .next hcurrent hahead⟩
  | cons r' raw ih =>
      obtain ⟨fuel, rfl⟩ := Nat.exists_eq_add_one_of_ne_zero (Nat.ne_of_gt (Nat.zero_lt_of_lt hfuel))
      by_cases heq : r.1 = o
      · obtain ⟨s', hread, hv2, hcurrent', hahead'⟩ := hahead.compactReadRec
        obtain ⟨s'', hadv, hholds⟩ := @ih _ s' fuel hcurrent' hahead' (Nat.lt_of_succ_lt_succ hfuel)
        rw [List.dropWhile_cons_of_pos (by simpa using heq)]
        rw [hv2] at hholds
        refine ⟨s'', ?_, hholds⟩
        unfold advanceFuel
        rw [hcurrent]
        simp only
        rw [key_slotRec, memcmp_eq_iff.mpr heq]
        simp only
        rw [if_neg (by rw [hahead.remaining]; exact Nat.succ_ne_zero _), hread]
        exact hadv
      · rw [List.dropWhile_cons_of_neg (by simpa using heq)]
        exact ⟨s, advanceFuel_of_ne fuel hcurrent heq, .next hcurrent hahead⟩

theorem Slot.Holds.advanceSlot {s : Slot} {rs : List RunRec} (h : s.Holds rs) (o : Outpoint) :
    ∃ s', advanceSlot o.key36 s = some s' ∧ s'.Holds (rs.dropWhile fun x => x.1 = o) := by
  unfold RunFile.advanceSlot
  cases h with
  | done h =>
      refine ⟨s, ?_, .done h⟩
      unfold advanceFuel
      rw [h]
  | next hcurrent hahead =>
      exact advanceFuel_spec hcurrent hahead (by rw [hahead.remaining]; exact Nat.lt_succ_self _)

theorem mapM_advanceSlot {slots : List Slot} {rss : List (List RunRec)}
    (h : List.Forall₂ Slot.Holds slots rss) (o : Outpoint) :
    ∃ slots', slots.mapM (advanceSlot o.key36) = some slots' ∧
      List.Forall₂ Slot.Holds slots' (advance o rss) := by
  induction h with
  | nil => exact ⟨[], rfl, .nil⟩
  | cons hs _ ih =>
      obtain ⟨s', hadv, hs'⟩ := hs.advanceSlot o
      obtain ⟨slots', hmap, hslots'⟩ := ih
      refine ⟨s' :: slots', ?_, .cons hs' hslots'⟩
      rw [List.mapM_cons, hadv, hmap]
      rfl

theorem pickSlot_eq {s : Slot} {rs : List RunRec} (h : s.Holds rs) (best : Option RunRec) :
    pickSlot (best.map slotRec) s = (pick best rs).map slotRec := by
  unfold pickSlot
  cases h with
  | done h =>
      rw [h]
      cases best <;> rfl
  | @next r raw hcurrent hahead =>
      rw [hcurrent]
      cases best with
      | none => rfl
      | some b =>
          simp only [Option.map_some, pick]
          rw [key_slotRec, key_slotRec]
          split
          · next hgt =>
              rw [if_neg, Option.map_some]
              intro hle
              rcases hle.lt_or_eq with hlt | heq
              · rw [memcmp_of_lt hlt] at hgt
                cases hgt
              · rw [memcmp_eq_iff.mpr heq] at hgt
                cases hgt
          · next hle =>
              rw [if_pos, Option.map_some]
              exact le_of_not_gt fun hlt => hle (memcmp_of_gt hlt)

/-- The search over the slots finds the winner of what they hold. -/
theorem findWinner_eq {slots : List Slot} {rss : List (List RunRec)}
    (h : List.Forall₂ Slot.Holds slots rss) : findWinner slots = (winner rss).map slotRec := by
  have hfold : ∀ best : Option RunRec,
      slots.foldl pickSlot (best.map slotRec) = (rss.foldl pick best).map slotRec := by
    induction h with
    | nil => exact fun _ => rfl
    | cons hs _ ih =>
        intro best
        rw [List.foldl_cons, List.foldl_cons, pickSlot_eq hs]
        exact ih _
  exact hfold none

/-! ## The filter of the output -/

section Filter

variable {bitsMask : UInt32} {bloom : List UInt8}

theorem length_bloomSetbit (bitsMask : UInt32) (bloom : List UInt8) (h : UInt32) :
    (bloomSetbit bitsMask bloom h).length = bloom.length :=
  List.length_modify ..

theorem toNat_one_shiftLeft : ∀ k < 8, ((1 : UInt8) <<< UInt8.ofNat k).toNat = 2 ^ k := by
  decide

theorem bloomBit_setbit_of {h : UInt32} (hset : bloomBit bloom bitsMask h = true) (h' : UInt32) :
    bloomBit (bloomSetbit bitsMask bloom h') bitsMask h = true := by
  unfold bloomBit at hset ⊢
  unfold bloomSetbit
  simp only [List.getD_eq_getElem?_getD, List.getElem?_modify] at hset ⊢
  cases hget : bloom[(h &&& bitsMask).toNat / 8]? with
  | none =>
      rw [hget] at hset
      exact hset
  | some b =>
      rw [hget] at hset
      simp only [Option.getD_some, Option.map_eq_map, Option.map_some] at hset ⊢
      split
      · rw [UInt8.toNat_or, Nat.testBit_or, hset, Bool.true_or]
      · exact hset

theorem bloomBit_setbit_self {h : UInt32} (hlt : (h &&& bitsMask).toNat / 8 < bloom.length) :
    bloomBit (bloomSetbit bitsMask bloom h) bitsMask h = true := by
  unfold bloomBit bloomSetbit
  simp only [List.getD_eq_getElem?_getD, List.getElem?_modify, List.getElem?_eq_getElem hlt,
    Option.map_eq_map, Option.map_some, Option.getD_some, if_pos]
  rw [UInt8.toNat_or, Nat.testBit_or, toNat_one_shiftLeft _ (Nat.mod_lt _ (by decide)),
    Nat.testBit_two_pow_self, Bool.or_true]

/-- No bit of a filter of this many bytes lies outside it. -/
def Inside (bitsMask : UInt32) (bytes : Nat) : Prop := ∀ h : UInt32, (h &&& bitsMask).toNat / 8 < bytes

theorem length_bloomAdd (bitsMask : UInt32) (bloom key : List UInt8) :
    (bloomAdd bitsMask bloom key).length = bloom.length := by
  unfold bloomAdd bloomSeeds
  simp only [List.foldl_cons, List.foldl_nil, length_bloomSetbit]

theorem bloomHas_bloomAdd_of {key : List UInt8} (hhas : bloomHas bloom bitsMask key = true)
    (key' : List UInt8) : bloomHas (bloomAdd bitsMask bloom key') bitsMask key = true := by
  unfold bloomHas at hhas ⊢
  rw [List.all_eq_true] at hhas ⊢
  intro seed hseed
  unfold bloomAdd bloomSeeds
  simp only [List.foldl_cons, List.foldl_nil]
  exact bloomBit_setbit_of (bloomBit_setbit_of (bloomBit_setbit_of (hhas seed hseed) _) _) _

theorem bloomHas_bloomAdd_self (hin : Inside bitsMask bloom.length) (key : List UInt8) :
    bloomHas (bloomAdd bitsMask bloom key) bitsMask key = true := by
  unfold bloomHas bloomAdd bloomSeeds
  simp only [List.all_cons, List.all_nil, List.foldl_cons, List.foldl_nil, Bool.and_true,
    Bool.and_eq_true]
  have hself : ∀ {b : List UInt8}, b.length = bloom.length → ∀ h,
      bloomBit (bloomSetbit bitsMask b h) bitsMask h = true :=
    fun hlen h => bloomBit_setbit_self (hlen ▸ hin h)
  refine ⟨bloomBit_setbit_of (bloomBit_setbit_of (hself rfl _) _) _,
    bloomBit_setbit_of (hself (length_bloomSetbit ..) _) _, hself ?_ _⟩
  rw [length_bloomSetbit, length_bloomSetbit]

theorem bloomHas_append {key : List UInt8} (hin : Inside bitsMask bloom.length) (tail : List UInt8) :
    bloomHas (bloom ++ tail) bitsMask key = bloomHas bloom bitsMask key := by
  unfold bloomHas bloomBit
  simp only [List.getD_eq_getElem?_getD, List.getElem?_append_left (hin _)]

end Filter

/-- A power of two, or shifted out. -/
theorem doubleUntil_spec {want fuel bits out : Nat} (hbits : bits = 0 ∨ ∃ i < 64, bits = 2 ^ i)
    (h : doubleUntil want fuel bits = some out) : want ≤ out ∧ (out = 0 ∨ ∃ i < 64, out = 2 ^ i) := by
  induction fuel generalizing bits with
  | zero => cases h
  | succ fuel ih =>
      unfold doubleUntil at h
      split at h
      · next hle =>
          obtain rfl := Option.some.inj h
          exact ⟨hle, hbits⟩
      · refine ih ?_ h
        rcases hbits with rfl | ⟨i, hi, rfl⟩
        · exact .inl rfl
        · rw [← Nat.pow_succ]
          rcases Nat.lt_or_ge i 63 with hlt | hge
          · refine .inr ⟨i + 1, by omega, ?_⟩
            exact Nat.mod_eq_of_lt (Nat.pow_lt_pow_right (by decide) (by omega))
          · obtain rfl : i = 63 := by omega
            exact .inl (by decide)

theorem doubleUntil_isSome {want fuel i : Nat} (hwant : want ≤ 2 ^ 63) (hfuel : 63 < i + fuel)
    (hi : i ≤ 63) : (doubleUntil want fuel (2 ^ i)).isSome = true := by
  induction fuel generalizing i with
  | zero => omega
  | succ fuel ih =>
      unfold doubleUntil
      split
      · rfl
      · next hlt =>
          have hlast : i ≠ 63 := by
            rintro rfl
            exact hlt hwant
          rw [← Nat.pow_succ, Nat.mod_eq_of_lt (Nat.pow_lt_pow_right (by decide) (by omega))]
          exact ih (by omega) (by omega)

/-- The filter's size is a power of two from 64 bits up to the cap. -/
theorem bloomBitsFor_spec {upper bits : Nat} (h : bloomBitsFor upper = some bits) :
    ∃ i, bits = 2 ^ i ∧ 6 ≤ i ∧ i ≤ 31 := by
  unfold bloomBitsFor at h
  simp only at h
  generalize hwant : (if upper * 10 % 2 ^ 64 < 64 then 64 else upper * 10 % 2 ^ 64) = want at h
  have hge : 64 ≤ want := by
    rw [← hwant]
    split <;> omega
  obtain ⟨d, hd, rfl⟩ := Option.map_eq_some_iff.mp h
  have hmax : runBloomMaxBytes * 8 = 2 ^ 31 := by decide
  rw [hmax]
  obtain ⟨hle, rfl | ⟨i, -, rfl⟩⟩ := doubleUntil_spec (.inr ⟨0, by decide, rfl⟩) hd
  · omega
  · have hi : 6 ≤ i := by
      by_contra hlt
      have : 2 ^ i < 2 ^ 6 := Nat.pow_lt_pow_right (by decide) (by omega)
      omega
    split
    · exact ⟨31, rfl, by decide, le_rfl⟩
    · next hnot =>
        refine ⟨i, rfl, hi, ?_⟩
        by_contra hlt
        exact hnot (Nat.pow_lt_pow_right (by decide) (by omega))

theorem bloomBitsFor_isSome {upper : Nat} (h : upper * 10 ≤ 2 ^ 63) :
    (bloomBitsFor upper).isSome = true := by
  unfold bloomBitsFor
  simp only [Option.isSome_map]
  refine @doubleUntil_isSome _ 65 0 ?_ (by decide) (by decide)
  have hmod := Nat.mod_le (upper * 10) (2 ^ 64)
  split
  · decide
  · exact hmod.trans h

theorem inside_of_pow {bits i : Nat} (hbits : bits = 2 ^ i) (hlow : 6 ≤ i) (hhigh : i ≤ 31) :
    Inside (UInt32.ofNat (bits - 1)) (bits / 8) := by
  intro h
  have hle : bits ≤ 2 ^ 31 := hbits ▸ Nat.pow_le_pow_right (by decide) hhigh
  have hpos : 0 < bits := hbits ▸ Nat.two_pow_pos i
  have hdvd : 8 ∣ bits := hbits ▸ Nat.pow_dvd_pow 2 (show 3 ≤ i by omega)
  rw [UInt32.toNat_and, UInt32.toNat_ofNat_of_lt' (by rw [show UInt32.size = 2 ^ 32 from rfl]; omega)]
  have hand := @Nat.and_le_right h.toNat (bits - 1)
  omega

/-! ## What has been written -/

/-- Whether spilled or held, the bytes follow those written before. -/
theorem CompactOut.outWrite_spec (out : CompactOut) (data : List UInt8) :
    ∃ w h, out.outWrite data = { out with written := w, held := h } ∧
      w ++ h = (out.written ++ out.held) ++ data := by
  unfold outWrite
  split
  · exact ⟨out.written, out.held ++ data, rfl, (List.append_assoc ..).symm⟩
  · split
    · exact ⟨_, [], rfl, List.append_nil _⟩
    · exact ⟨_, data, rfl, rfl⟩

theorem valueBlock_append (p : PushData) : valueBlock p ++ p.script = encodePush true p := by
  unfold valueBlock encodePush
  simp only [if_pos, List.append_assoc]

theorem writeRec_spec (out : CompactOut) (r : RunRec) :
    ∃ w h, writeRec out (slotRec r) = { out with written := w, held := h } ∧
      w ++ h = (out.written ++ out.held) ++ encodeRec true r := by
  obtain ⟨w, h, heq, hcat⟩ := out.outWrite_spec (slotRec r).head
  obtain ⟨o, v⟩ := r
  rw [encodeRec_eq, ← List.append_assoc]
  change w ++ h = (out.written ++ out.held) ++ (o.key36 ++ [kindOf (o, v)]) at hcat
  rw [← hcat]
  unfold writeRec
  simp only
  rw [heq]
  cases v with
  | none => exact ⟨w, h, rfl, (List.append_nil _).symm⟩
  | some p =>
      simp only [slotRec, Option.elim_some]
      rw [← valueBlock_append, ← List.append_assoc]
      obtain ⟨w₁, h₁, heq₁, hcat₁⟩ :=
        CompactOut.outWrite_spec { out with written := w, held := h } (valueBlock p)
      change w₁ ++ h₁ = (w ++ h) ++ valueBlock p at hcat₁
      rw [heq₁, ← hcat₁]
      split
      · next hnil => exact ⟨w₁, h₁, rfl, by rw [hnil, List.append_nil]⟩
      · exact CompactOut.outWrite_spec { out with written := w₁, held := h₁ } p.script

/-- The output after some records, with what was sampled of them. -/
structure CompactOut.Wrote (start : List UInt8) (bitsMask : UInt32) (out : CompactOut)
    (recs : List RunRec) (es : List (Outpoint × Nat)) : Prop where
  bytes : out.written ++ out.held = start ++ encodeAll (encodeRec true) recs
  nrec : out.nrec = recs.length
  sparse : out.sparse = encodeAll encodeEntry es
  sparseN : out.sparseN = es.length
  sampled : es.length = (recs.length + 63) / 64
  names : ∀ e ∈ es, ∃ before r after, recs = before ++ r :: after ∧ e.1 = r.1 ∧
    e.2 = start.length + (encodeAll (encodeRec true) before).length
  bloom_length : start.length = 44 + out.bloom.length
  inside : Inside bitsMask out.bloom.length
  filter : ∀ r ∈ recs, bloomHas out.bloom bitsMask r.1.key36 = true

section Emit

variable {start : List UInt8} {bitsMask : UInt32} {out out' : CompactOut} {recs : List RunRec}
  {es : List (Outpoint × Nat)} {sparseBytes : Nat} {r : RunRec}

/-- The sample before a record is written: its key with the offset the record will have. -/
theorem CompactOut.Wrote.sampleKeyAt (hw : out.Wrote start bitsMask recs es)
    (h : sampleKeyAt sparseBytes out r.1.key36 = some out') :
    ∃ es', out' = { out with sparse := encodeAll encodeEntry es', sparseN := es'.length } ∧
      es'.length = (recs.length + 1 + 63) / 64 ∧
      ∀ e ∈ es', e ∈ es ∨ e = (r.1, start.length + (encodeAll (encodeRec true) recs).length) := by
  have hsampled := hw.sampled
  have hnrec := hw.nrec
  unfold RunFile.sampleKeyAt sparseStride at h
  split at h
  · next hskip =>
      obtain rfl := Option.some.inj h
      refine ⟨es, ?_, by omega, fun e he => .inl he⟩
      rw [← hw.sparse, ← hw.sparseN]
  · next htake =>
      split at h
      · cases h
      · obtain rfl := Option.some.inj h
        have htell : out.outTell = start.length + (encodeAll (encodeRec true) recs).length := by
          unfold outTell
          rw [← List.length_append, hw.bytes, List.length_append]
        refine ⟨es ++ [(r.1, start.length + (encodeAll (encodeRec true) recs).length)], ?_, ?_, ?_⟩
        · rw [htell, hw.sparse, hw.sparseN, encodeAll_append, List.length_append, encodeAll_cons,
            encodeAll_nil, List.append_nil]
          rfl
        · rw [List.length_append, List.length_singleton]
          omega
        · intro e he
          rcases List.mem_append.mp he with he | he
          · exact .inl he
          · exact .inr (List.mem_singleton.mp he)

theorem CompactOut.Wrote.emit (hw : out.Wrote start bitsMask recs es)
    (h : emit sparseBytes bitsMask out (slotRec r) = some out') :
    ∃ es', out'.Wrote start bitsMask (recs ++ [r]) es' := by
  unfold RunFile.emit at h
  rw [key_slotRec] at h
  cases hsample : RunFile.sampleKeyAt sparseBytes out r.1.key36 with
  | none =>
      rw [hsample] at h
      cases h
  | some out₁ =>
      rw [hsample] at h
      obtain rfl := Option.some.inj h
      obtain ⟨es', rfl, hlen, hes'⟩ := hw.sampleKeyAt hsample
      obtain ⟨w, held, heq, hcat⟩ := writeRec_spec
        { out with sparse := encodeAll encodeEntry es', sparseN := es'.length } r
      rw [heq]
      refine ⟨es', ?_, ?_, rfl, rfl, ?_, ?_, ?_, ?_, ?_⟩
      · change w ++ held = _
        rw [hcat, encodeAll_append, encodeAll_cons, encodeAll_nil, List.append_nil, ← List.append_assoc,
          ← hw.bytes]
      · change out.nrec + 1 = _
        rw [hw.nrec, List.length_append, List.length_singleton]
      · rw [hlen, List.length_append, List.length_singleton]
      · intro e he
        rcases hes' e he with he | rfl
        · obtain ⟨before, x, after, hrecs, hkey, hoff⟩ := hw.names e he
          exact ⟨before, x, after ++ [r], by rw [hrecs]; simp, hkey, hoff⟩
        · exact ⟨recs, r, [], rfl, rfl, rfl⟩
      · change start.length = 44 + (bloomAdd bitsMask out.bloom r.1.key36).length
        rw [length_bloomAdd]
        exact hw.bloom_length
      · change Inside bitsMask (bloomAdd bitsMask out.bloom r.1.key36).length
        rw [length_bloomAdd]
        exact hw.inside
      · intro x hx
        change bloomHas (bloomAdd bitsMask out.bloom r.1.key36) bitsMask x.1.key36 = true
        rcases List.mem_append.mp hx with hx | hx
        · exact bloomHas_bloomAdd_of (hw.filter x hx) _
        · rw [List.mem_singleton.mp hx]
          exact bloomHas_bloomAdd_self hw.inside _

/-- The memory for the sample is enough for the records that were counted. -/
theorem CompactOut.Wrote.emit_isSome (hw : out.Wrote start bitsMask recs es)
    (hbytes : (recs.length / sparseStride + 1) * sparseEntSize ≤ sparseBytes) (r : SlotRec) :
    (RunFile.emit sparseBytes bitsMask out r).isSome = true := by
  have hsome : (RunFile.sampleKeyAt sparseBytes out r.key).isSome = true := by
    unfold RunFile.sampleKeyAt
    split
    · rfl
    · next htake =>
        have hnrec := hw.nrec
        have hsampled := hw.sampled
        rw [hw.sparse, RunImage.length_encodeAll_entry, hsampled]
        unfold sparseStride sparseEntSize at *
        rw [if_neg (by omega)]
        rfl
  obtain ⟨out₁, hout₁⟩ := Option.isSome_iff_exists.mp hsome
  unfold RunFile.emit
  rw [hout₁]
  rfl

end Emit

/-! ## The whole merge -/

theorem keepsRec_slotRec (keepDels : Bool) (r : RunRec) :
    keepsRec keepDels (slotRec r) = (r.2.isSome || keepDels) := by
  unfold keepsRec
  rw [kind_slotRec]
  unfold kindOf
  cases r.2 <;> cases keepDels <;> rfl

section Loop

variable {start : List UInt8} {bitsMask : UInt32} {keepDels : Bool} {sparseBytes fuel : Nat}
  {slots : List Slot} {rss : List (List RunRec)} {out out' : CompactOut} {recs : List RunRec}
  {es : List (Outpoint × Nat)}

theorem compactLoop_done (h : findWinner slots = none) :
    compactLoop keepDels sparseBytes bitsMask (fuel + 1) slots out = some out := by
  unfold compactLoop
  rw [h]

/-- One round: what won is written, or passed over, and every slot walks past it. -/
theorem compactLoop_round (hslots : List.Forall₂ Slot.Holds slots rss) {w : RunRec}
    (hw : winner rss = some w) :
    ∃ slots', List.Forall₂ Slot.Holds slots' (advance w.1 rss) ∧
      compactLoop keepDels sparseBytes bitsMask (fuel + 1) slots out =
        (if w.2.isSome || keepDels then emit sparseBytes bitsMask out (slotRec w) else some out).bind
          (compactLoop keepDels sparseBytes bitsMask fuel slots') := by
  obtain ⟨slots', hmap, hholds⟩ := mapM_advanceSlot hslots w.1
  refine ⟨slots', hholds, ?_⟩
  conv_lhs => unfold compactLoop
  rw [findWinner_eq hslots, hw]
  simp only [Option.map_some]
  rw [keepsRec_slotRec, key_slotRec, hmap]
  cases if w.2.isSome || keepDels then emit sparseBytes bitsMask out (slotRec w) else some out with
  | none => rfl
  | some out => rfl

/-- What the loop writes is the merge of what the slots hold. -/
theorem compactLoop_wrote (hslots : List.Forall₂ Slot.Holds slots rss)
    (hwrote : out.Wrote start bitsMask recs es) (hfuel : recordCount rss ≤ fuel)
    (h : compactLoop keepDels sparseBytes bitsMask (fuel + 1) slots out = some out') :
    ∃ es', out'.Wrote start bitsMask (recs ++ mergeLoop keepDels fuel rss) es' := by
  induction fuel generalizing slots rss out recs es with
  | zero =>
      have hnone := winner_eq_none_of_recordCount (Nat.le_zero.mp hfuel)
      rw [compactLoop_done (by rw [findWinner_eq hslots, hnone]; rfl)] at h
      obtain rfl := Option.some.inj h
      exact ⟨es, by rwa [mergeLoop_done hnone, List.append_nil]⟩
  | succ fuel ih =>
      cases hw : winner rss with
      | none =>
          rw [compactLoop_done (by rw [findWinner_eq hslots, hw]; rfl)] at h
          obtain rfl := Option.some.inj h
          exact ⟨es, by rwa [mergeLoop_done hw, List.append_nil]⟩
      | some w =>
          have hcount := recordCount_advance_lt (winner_head hw)
          obtain ⟨slots', hholds, hround⟩ := @compactLoop_round bitsMask keepDels sparseBytes
            (fuel + 1) _ _ out hslots _ hw
          rw [hround] at h
          obtain ⟨out₁, hout₁, hrest⟩ := Option.bind_eq_some_iff.mp h
          simp only [mergeLoop, hw]
          split
          · next hkeep =>
              rw [if_pos hkeep] at hout₁
              obtain ⟨es₁, hwrote₁⟩ := hwrote.emit hout₁
              obtain ⟨es', hwrote'⟩ := ih hholds hwrote₁ (by omega) hrest
              exact ⟨es', by rwa [List.append_assoc] at hwrote'⟩
          · next hdrop =>
              rw [if_neg hdrop] at hout₁
              obtain rfl := Option.some.inj hout₁
              exact ih hholds hwrote (by omega) hrest

/-- The loop ends where there is memory for a sample of all the records. -/
theorem compactLoop_isSome (hslots : List.Forall₂ Slot.Holds slots rss)
    (hwrote : out.Wrote start bitsMask recs es) (hfuel : recordCount rss ≤ fuel)
    (hbytes : ((recs.length + recordCount rss) / sparseStride + 1) * sparseEntSize ≤ sparseBytes) :
    (compactLoop keepDels sparseBytes bitsMask (fuel + 1) slots out).isSome = true := by
  induction fuel generalizing slots rss out recs es with
  | zero =>
      have hnone := winner_eq_none_of_recordCount (Nat.le_zero.mp hfuel)
      rw [compactLoop_done (by rw [findWinner_eq hslots, hnone]; rfl)]
      rfl
  | succ fuel ih =>
      cases hw : winner rss with
      | none =>
          rw [compactLoop_done (by rw [findWinner_eq hslots, hw]; rfl)]
          rfl
      | some w =>
          have hcount := recordCount_advance_lt (winner_head hw)
          obtain ⟨slots', hholds, hround⟩ := @compactLoop_round bitsMask keepDels sparseBytes
            (fuel + 1) _ _ out hslots _ hw
          rw [hround]
          unfold sparseStride sparseEntSize at *
          split
          · obtain ⟨out₁, hout₁⟩ := Option.isSome_iff_exists.mp
              (@CompactOut.Wrote.emit_isSome _ _ _ _ _ sparseBytes hwrote
                (by unfold sparseStride sparseEntSize; omega) (slotRec w))
            obtain ⟨es₁, hwrote₁⟩ := hwrote.emit hout₁
            rw [hout₁]
            refine ih hholds hwrote₁ (by omega) ?_
            rw [List.length_append, List.length_singleton]
            omega
          · exact ih hholds hwrote (by omega) (by omega)

end Loop

/-! ## The finished file -/

/-- The run that a merge writes. -/
def mergedImage (gen : UInt64) (bits : Nat) (bloom : List UInt8) (recs : List RunRec)
    (es : List (Outpoint × Nat)) : RunImage where
  magic := .run3
  gen := gen
  nrec := UInt64.ofNat recs.length
  bloomBits := UInt64.ofNat bits
  bloom := bloom
  recs := recs
  sparse := es
  trailer := true

theorem leBytes_toNat_ofNat (n : Nat) : leBytes 8 (UInt64.ofNat n).toNat = leBytes 8 n := by
  refine leVal_inj (by rw [length_leBytes, length_leBytes]) ?_
  rw [leVal_leBytes, leVal_leBytes, UInt64.toNat_ofNat']
  exact Nat.mod_mod _ _

theorem length_blankHeader (gen : UInt64) (bits : Nat) : (blankHeader gen bits).length = 44 := by
  unfold blankHeader
  simp only [List.length_append, length_leBytes]

/-- The writes after the records leave the file of a run. -/
theorem finishFile_eq {gen : UInt64} {bits : Nat} {blank : List UInt8} {bitsMask : UInt32}
    {out : CompactOut} {recs : List RunRec} {es : List (Outpoint × Nat)}
    (hw : out.Wrote (blankHeader gen bits ++ blank) bitsMask recs es) :
    finishFile out = (mergedImage gen bits out.bloom recs es).bytes := by
  have hblank : blank.length = out.bloom.length := by
    have hlen := hw.bloom_length
    rw [List.length_append, length_blankHeader] at hlen
    omega
  unfold finishFile CompactOut.outFlush
  simp only
  rw [hw.bytes, List.append_assoc, pwrite_append (length_blankHeader gen bits) hblank]
  have hcount : pwrite (blankHeader gen bits ++ (out.bloom ++ encodeAll (encodeRec true) recs)) 12
      (leBytes 8 out.nrec) =
      (leBytes 4 RunMagic.run3.value ++ (leBytes 8 gen.toNat ++ (leBytes 8 out.nrec ++ leBytes 8 bits))) ++
        (leBytes 8 0 ++ leBytes 8 0 ++ (out.bloom ++ encodeAll (encodeRec true) recs)) := by
    have hcat : blankHeader gen bits ++ (out.bloom ++ encodeAll (encodeRec true) recs) =
        (leBytes 4 RunMagic.run3.value ++ leBytes 8 gen.toNat) ++ (leBytes 8 0 ++ (leBytes 8 bits ++
          (leBytes 8 0 ++ (leBytes 8 0 ++ (out.bloom ++ encodeAll (encodeRec true) recs))))) := by
      unfold blankHeader
      simp only [List.append_assoc]
    rw [hcat, pwrite_append (by simp) (by rw [length_leBytes, length_leBytes])]
    simp only [List.append_assoc]
  rw [hcount, List.append_assoc _ _ out.sparse, List.append_assoc (leBytes 8 0 ++ leBytes 8 0),
    pwrite_append (by simp) (by simp)]
  have hoff : ((leBytes 4 RunMagic.run3.value ++ (leBytes 8 gen.toNat ++ (leBytes 8 out.nrec ++
      leBytes 8 bits))) ++ (leBytes 8 0 ++ leBytes 8 0 ++ (out.bloom ++
        encodeAll (encodeRec true) recs))).length =
      (mergedImage gen bits out.bloom recs es).sparseOff := by
    change _ = 44 + out.bloom.length + (encodeAll (encodeRec true) recs).length
    simp only [List.length_append, length_leBytes]
    omega
  rw [hoff, hw.sparseN, hw.sparse, hw.nrec]
  unfold RunImage.bytes RunImage.header
  rw [if_neg (by exact nofun)]
  change _ = (leBytes 4 RunMagic.run3.value ++ (leBytes 8 gen.toNat ++
    (leBytes 8 (UInt64.ofNat recs.length).toNat ++ (leBytes 8 (UInt64.ofNat bits).toNat ++
      (leBytes 8 (mergedImage gen bits out.bloom recs es).sparseOff ++ leBytes 8 es.length))))) ++
    (out.bloom ++ (encodeAll (encodeRec true) recs ++ encodeAll encodeEntry es))
  rw [leBytes_toNat_ofNat, leBytes_toNat_ofNat]
  simp only [List.append_assoc]

/-! ## Opening the inputs -/

namespace RunImage

variable {img : RunImage}

/-- The records as compaction carries them over. -/
def contents (img : RunImage) : List RunRec := img.recs.map (shownRec img.magic.recV2)

theorem leVal_leBytes_toNat (n : UInt64) : leVal (leBytes 8 n.toNat) = n.toNat := by
  rw [leVal_leBytes]
  exact Nat.mod_eq_of_lt n.toNat_lt

theorem readRunHeader_eq (img : RunImage) :
    readRunHeader img.bytes = some (img.magic, img.nrec.toNat, img.bloomBits.toNat / 8) := by
  have hmagic : leVal (leBytes 4 img.magic.value) = img.magic.value := by
    rw [leVal_leBytes]
    cases img.magic <;> rfl
  have hcat : img.bytes.drop 0 = leBytes 4 img.magic.value ++ (img.header.drop 4 ++
      (img.bloom ++ (img.records ++ encodeAll encodeEntry img.sparse))) := by
    rw [List.drop_zero]
    unfold bytes header
    rw [List.drop_left' (length_leBytes ..)]
    simp only [List.append_assoc]
  have hdrop := drop_of_drop hcat (length_leBytes ..)
  have hlen : (img.header.drop 4).length = img.magic.headerSize - 4 := by
    rw [List.length_drop, length_header]
  unfold readRunHeader
  rw [slotRead_of_drop hcat (length_leBytes ..)]
  simp only
  rw [hmagic, RunMagic.ofValue_value]
  simp only
  rw [slotRead_of_drop hdrop hlen]
  simp only
  have hfields : img.header.drop 4 = leBytes 8 img.gen.toNat ++ (leBytes 8 img.nrec.toNat ++
      (leBytes 8 img.bloomBits.toNat ++ (if img.magic = .run then []
        else leBytes 8 img.sparseOff ++ leBytes 8 img.sparse.length))) := by
    unfold header
    rw [List.drop_left' (length_leBytes ..)]
  have hnrec : pread (img.header.drop 4) 8 8 = leBytes 8 img.nrec.toNat := by
    rw [hfields]
    exact pread_append (length_leBytes ..) (length_leBytes ..)
  have hbits : pread (img.header.drop 4) 16 8 = leBytes 8 img.bloomBits.toNat := by
    rw [hfields, ← List.append_assoc]
    exact pread_append (by simp) (length_leBytes ..)
  rw [hnrec, hbits, leVal_leBytes_toNat, leVal_leBytes_toNat]

theorem WellFormed.openRun (h : img.WellFormed) (hnrec : img.nrec.toNat = img.recs.length) :
    ∃ slot, openRun img.bytes = some (slot, img.recs.length) ∧ slot.Holds img.contents := by
  have hstart : img.magic.headerSize + img.bloomBits.toNat / 8 = (img.header ++ img.bloom).length := by
    rw [List.length_append, length_header, h.bloom_length]
  have hahead : Slot.Ahead ⟨img.bytes, img.magic.recV2, img.magic.headerSize + img.bloomBits.toNat / 8,
      img.nrec.toNat, none⟩ img.recs := by
    refine ⟨hnrec, ⟨encodeAll encodeEntry img.sparse, ?_⟩, h.scripts⟩
    change img.bytes.drop (img.magic.headerSize + img.bloomBits.toNat / 8) = img.records ++ _
    have hcat : img.bytes = (img.header ++ img.bloom) ++ (img.records ++ encodeAll encodeEntry img.sparse) := by
      unfold bytes
      simp only [List.append_assoc]
    rw [hcat, hstart, List.drop_left]
  unfold RunFile.openRun
  rw [readRunHeader_eq]
  simp only
  rw [hnrec] at hahead ⊢
  unfold contents
  cases hrecs : img.recs with
  | nil => exact ⟨_, if_pos rfl, .done rfl⟩
  | cons r raw =>
      rw [hrecs] at hahead
      obtain ⟨slot, hread, hv2, hcurrent, hahead'⟩ := hahead.compactReadRec
      rw [if_neg (show (r :: raw).length ≠ 0 from Nat.succ_ne_zero _), hread]
      refine ⟨slot, rfl, ?_⟩
      have hholds := Slot.Holds.next hcurrent hahead'
      rwa [hv2] at hholds

end RunImage

/-- The file that a manifest entry names is this run. -/
structure IsRun (files : PMap Nat (List UInt8)) (e : ManifestEntry) (img : RunImage) : Prop where
  file : files e.runNo = some img.bytes
  gen : img.gen.toNat = e.gen
  wellFormed : img.WellFormed
  nrec : img.nrec.toNat = img.recs.length

section Inputs

variable {files : PMap Nat (List UInt8)} {es : List ManifestEntry} {imgs : List RunImage}

theorem openRuns_spec (h : List.Forall₂ (IsRun files) es imgs) :
    ∃ opened, openRuns files es = some opened ∧
      List.Forall₂ Slot.Holds (opened.map (·.1)) (imgs.map RunImage.contents) ∧
      opened.map (·.2) = imgs.map fun img => img.recs.length := by
  unfold openRuns
  induction h with
  | nil => exact ⟨[], rfl, .nil, rfl⟩
  | @cons e img es imgs hrun _ ih =>
      obtain ⟨opened, hopened, hholds, hcounts⟩ := ih
      obtain ⟨slot, hslot, hs⟩ := hrun.wellFormed.openRun hrun.nrec
      refine ⟨(slot, img.recs.length) :: opened, ?_, .cons hs hholds, ?_⟩
      · rw [List.mapM_cons, hrun.file]
        simp only
        rw [hslot, hopened]
        rfl
      · rw [List.map_cons, List.map_cons, hcounts]

theorem recordCount_contents (imgs : List RunImage) :
    recordCount (imgs.map RunImage.contents) = (imgs.map fun img => img.recs.length).sum := by
  unfold recordCount
  rw [List.map_map]
  congr 1
  refine List.map_congr_left fun img _ => ?_
  exact List.length_map _

theorem inKeyOrder_contents {img : RunImage} (h : img.WellFormed) : InKeyOrder img.contents := by
  have hsorted : img.contents.Pairwise fun a b => a.1 < b.1 := List.pairwise_map.mpr h.sorted
  exact hsorted.imp Or.inl

theorem inKeyOrder_inputs (h : List.Forall₂ (IsRun files) es imgs) :
    ∀ slot ∈ imgs.map RunImage.contents, InKeyOrder slot := by
  induction h with
  | nil => exact nofun
  | cons hrun _ ih =>
      intro slot hslot
      rcases List.mem_cons.mp hslot with rfl | hslot
      · exact inKeyOrder_contents hrun.wellFormed
      · exact ih slot hslot

theorem scripts_inputs (h : List.Forall₂ (IsRun files) es imgs) :
    ∀ slot ∈ imgs.map RunImage.contents, ∀ o p, (o, some p) ∈ slot → p.script.length < 2 ^ 16 := by
  induction h with
  | nil => exact nofun
  | @cons e img es imgs hrun _ ih =>
      intro slot hslot
      rcases List.mem_cons.mp hslot with rfl | hslot
      · intro o p hmem
        obtain ⟨⟨o', v⟩, hin, heq⟩ := List.mem_map.mp hmem
        obtain ⟨rfl, hv⟩ := Prod.mk.inj heq
        obtain ⟨q, rfl, rfl⟩ := Option.map_eq_some_iff.mp hv
        have hscript := hrun.wellFormed.scripts o' q hin
        unfold shown
        split <;> exact hscript
      · exact ih slot hslot

end Inputs

/-! ## What a lookup answers -/

def answer : Option (Option PushData) → RunAnswer
  | none => .absent
  | some none => .tomb
  | some (some p) => .found p

theorem findKey_eq_find {rs : List RunRec} (h : rs.Pairwise fun a b => a.1 < b.1) (o : Outpoint) :
    findKey o rs = (rs.find? (·.1 = o)).map (·.2) := by
  induction rs with
  | nil => rfl
  | cons r rs ih =>
      obtain ⟨hhead, htail⟩ := List.pairwise_cons.mp h
      unfold findKey
      rcases lt_trichotomy r.1 o with hlt | heq | hgt
      · rw [if_pos hlt, List.find?_cons_of_neg (by simpa using hlt.ne), ih htail]
      · rw [if_neg (by rw [heq]; exact lt_irrefl o), if_pos heq,
          List.find?_cons_of_pos (by simpa using heq)]
        rfl
      · have hnone : rs.find? (·.1 = o) = none := by
          rw [List.find?_eq_none]
          intro x hx
          simpa using (hgt.trans (hhead x hx)).ne'
        rw [if_neg hgt.le.not_gt, if_neg hgt.ne', List.find?_cons_of_neg (by simpa using hgt.ne'), hnone]
        rfl

/-- A lookup in a run answers what the run says of the key. -/
theorem RunImage.WellFormed.lookup_contents {img : RunImage} (h : img.WellFormed) (pr : Bool) (o : Outpoint) :
    lookupBody img.bytes img.gen.toNat pr o = some (answer (findKey o img.contents)) := by
  have hsorted : img.contents.Pairwise fun a b => a.1 < b.1 := List.pairwise_map.mpr h.sorted
  rw [lookupBody_eq h, findKey_eq_find hsorted]
  unfold RunImage.contents
  have hshown : ∀ found : Option RunRec, answerOf img.magic.recV2 found =
      answer ((found.map (shownRec img.magic.recV2)).map (·.2)) := by
    rintro (_ | ⟨k, _ | p⟩) <;> rfl
  rw [List.find?_map, hshown]
  rfl

theorem lookupRuns_eq {files : PMap Nat (List UInt8)} {es : List ManifestEntry} {imgs : List RunImage}
    (h : List.Forall₂ (IsRun files) es imgs) (pr : Bool) (o : Outpoint) :
    lookupRuns files pr o es =
      some (answer (overlay (imgs.map fun img k => findKey k img.contents) o)) := by
  induction h with
  | nil => rfl
  | @cons e img es imgs hrun _ ih =>
      unfold lookupRuns
      rw [hrun.file]
      simp only
      rw [← hrun.gen, hrun.wellFormed.lookup_contents, List.map_cons, overlay_cons]
      rcases findKey o img.contents with _ | _ | p
      · exact ih
      · rfl
      · rfl

/-! ## The run a merge writes -/

theorem length_encodeAll_le {rs : List RunRec}
    (hscripts : ∀ o p, (o, some p) ∈ rs → p.script.length < 2 ^ 16) :
    (encodeAll (encodeRec true) rs).length ≤ rs.length * 2 ^ 17 := by
  induction rs with
  | nil => exact Nat.zero_le _
  | cons r rs ih =>
      have hrest := ih fun o p hmem => hscripts o p (List.mem_cons_of_mem _ hmem)
      have hrec : (encodeRec true r).length ≤ 2 ^ 17 := by
        rw [encodeRec_eq, List.length_append, length_keyKind]
        obtain ⟨o, v⟩ := r
        cases v with
        | none =>
            simp only [Option.elim_none, List.length_nil]
            omega
        | some p =>
            have hscript := hscripts o p List.mem_cons_self
            simp only [Option.elim_some]
            rw [length_encodePush, show pushLen true = 15 from rfl]
            omega
      rw [encodeAll_cons, List.length_append, List.length_cons, Nat.add_mul]
      omega

theorem CompactOut.wrote_start {gen : UInt64} {bits i : Nat} (hbits : bits = 2 ^ i) (hlow : 6 ≤ i)
    (hhigh : i ≤ 31) :
    CompactOut.Wrote (blankHeader gen bits ++ List.replicate (bits / 8) 0) (UInt32.ofNat (bits - 1))
      ⟨blankHeader gen bits ++ List.replicate (bits / 8) 0, [], 0, [], 0, List.replicate (bits / 8) 0⟩
      [] [] where
  bytes := rfl
  nrec := rfl
  sparse := rfl
  sparseN := rfl
  sampled := rfl
  names := nofun
  bloom_length := by rw [List.length_append, length_blankHeader]
  inside := by
    rw [List.length_replicate]
    exact inside_of_pow hbits hlow hhigh
  filter := nofun

section Merged

variable {files : PMap Nat (List UInt8)} {es : List ManifestEntry} {imgs : List RunImage}
  {keepDels : Bool} {gen : UInt64}

def mergedRecs (keepDels : Bool) (imgs : List RunImage) : List RunRec :=
  mergeLoop keepDels (recordCount (imgs.map RunImage.contents)) (imgs.map RunImage.contents)

theorem scripts_mergedRecs (h : List.Forall₂ (IsRun files) es imgs) {o : Outpoint} {p : PushData}
    (hmem : (o, some p) ∈ mergedRecs keepDels imgs) : p.script.length < 2 ^ 16 := by
  obtain ⟨slot, hslot, hin⟩ := mem_of_mem_mergeLoop hmem
  exact scripts_inputs h slot hslot o p hin

/-- What was written is a well-formed run. -/
theorem CompactOut.Wrote.wellFormed (h : List.Forall₂ (IsRun files) es imgs) {out : CompactOut}
    {bits i : Nat} {blank : List UInt8} {sampled : List (Outpoint × Nat)} (hbits : bits = 2 ^ i)
    (hhigh : i ≤ 31) (hblank : blank.length = bits / 8)
    (hw : out.Wrote (blankHeader gen bits ++ blank) (UInt32.ofNat (bits - 1)) (mergedRecs keepDels imgs)
      sampled)
    (hlen : (mergedImage gen bits out.bloom (mergedRecs keepDels imgs) sampled).bytes.length < 2 ^ 63) :
    (mergedImage gen bits out.bloom (mergedRecs keepDels imgs) sampled).WellFormed := by
  have hle : bits ≤ 2 ^ 31 := hbits ▸ Nat.pow_le_pow_right (by decide) hhigh
  have hpos : 0 < bits := hbits ▸ Nat.two_pow_pos i
  have hstart := hw.bloom_length
  rw [List.length_append, length_blankHeader] at hstart
  have htoNat : (UInt64.ofNat bits).toNat = bits := by
    rw [UInt64.toNat_ofNat']
    omega
  refine ⟨pairwise_lt_mergeLoop (inKeyOrder_inputs h), fun o p => scripts_mergedRecs h, ?_, ?_, ?_, nofun,
    nofun, hlen⟩
  · change out.bloom.length = (UInt64.ofNat bits).toNat / 8
    rw [htoNat]
    omega
  · intro _ r hr
    have hdrop : (mergedImage gen bits out.bloom (mergedRecs keepDels imgs) sampled).bytes.drop 44 =
        out.bloom ++ (encodeAll (encodeRec true) (mergedRecs keepDels imgs) ++
          encodeAll encodeEntry sampled) := by
      unfold RunImage.bytes
      exact List.drop_left' (RunImage.length_header _)
    have hmask : (mergedImage gen bits out.bloom (mergedRecs keepDels imgs) sampled).bitsMask =
        UInt32.ofNat (bits - 1) := by
      unfold RunImage.bitsMask mergedImage
      simp only
      rw [htoNat, show (bits + 2 ^ 64 - 1) % 2 ^ 64 = bits - 1 by omega]
    change bloomHas ((mergedImage gen bits out.bloom (mergedRecs keepDels imgs) sampled).bytes.drop 44) _ _ =
      true
    rw [hdrop, hmask, bloomHas_append hw.inside]
    exact hw.filter r hr
  · intro e he
    obtain ⟨before, r, after, hrecs, hkey, hoff⟩ := hw.names e he
    refine ⟨before, r, after, hrecs, hkey, ?_⟩
    rw [hoff, List.length_append, length_blankHeader, hstart]
    rfl

theorem writeMerged_spec (h : List.Forall₂ (IsRun files) es imgs) {file : List UInt8}
    (hfile : writeMerged files es keepDels gen = some file) :
    ∃ out : RunImage, out.bytes = file ∧ out.gen = gen ∧ out.magic = .run3 ∧
      out.recs = mergedRecs keepDels imgs ∧ out.nrec.toNat = out.recs.length ∧ out.bloom ≠ [] ∧
      out.WellFormed := by
  obtain ⟨opened, hopened, hholds, hcounts⟩ := openRuns_spec h
  unfold writeMerged at hfile
  rw [hopened] at hfile
  simp only at hfile
  rw [hcounts, ← recordCount_contents] at hfile
  cases hbits : bloomBitsFor (recordCount (imgs.map RunImage.contents) % 2 ^ 64) with
  | none =>
      rw [hbits] at hfile
      cases hfile
  | some bits =>
      rw [hbits] at hfile
      simp only at hfile
      obtain ⟨i, hpow, hlow, hhigh⟩ := bloomBitsFor_spec hbits
      split at hfile
      · cases hfile
      · next out hout =>
          split at hfile
          · next hlt =>
              obtain rfl := Option.some.inj hfile
              obtain ⟨sampled, hw⟩ :=
                compactLoop_wrote hholds (CompactOut.wrote_start hpow hlow hhigh) le_rfl hout
              rw [List.nil_append] at hw
              rw [finishFile_eq hw] at hlt ⊢
              have hwf := hw.wellFormed h hpow hhigh (List.length_replicate ..) hlt
              refine ⟨_, rfl, rfl, rfl, rfl, ?_, ?_, hwf⟩
              · have hshort := length_le_encodeAll true (mergedRecs keepDels imgs)
                rw [RunImage.length_bytes] at hlt
                change 44 + out.bloom.length + (encodeAll (encodeRec true) (mergedRecs keepDels imgs)).length +
                  _ < 2 ^ 63 at hlt
                change (UInt64.ofNat (mergedRecs keepDels imgs).length).toNat =
                  (mergedRecs keepDels imgs).length
                rw [UInt64.toNat_ofNat']
                exact Nat.mod_eq_of_lt (by omega)
              · intro hnil
                have hlen := hw.bloom_length
                have hge : 2 ^ 6 ≤ bits := hpow ▸ Nat.pow_le_pow_right (by decide) hlow
                rw [List.length_append, length_blankHeader, List.length_replicate] at hlen
                change out.bloom = [] at hnil
                rw [hnil, List.length_nil] at hlen
                omega
          · cases hfile

/-- Fewer than 2^32 records are merged, whatever they hold. -/
theorem writeMerged_isSome (h : List.Forall₂ (IsRun files) es imgs)
    (hcount : (imgs.map fun img => img.recs.length).sum < 2 ^ 32) :
    (writeMerged files es keepDels gen).isSome = true := by
  obtain ⟨opened, hopened, hholds, hcounts⟩ := openRuns_spec h
  rw [← recordCount_contents] at hcount
  unfold writeMerged
  rw [hopened]
  simp only
  rw [hcounts, ← recordCount_contents, Nat.mod_eq_of_lt (by omega)]
  obtain ⟨bits, hbits⟩ := Option.isSome_iff_exists.mp
    (@bloomBitsFor_isSome (recordCount (imgs.map RunImage.contents)) (by omega))
  obtain ⟨i, hpow, hlow, hhigh⟩ := bloomBitsFor_spec hbits
  rw [hbits]
  simp only
  have hstart := @CompactOut.wrote_start gen bits i hpow hlow hhigh
  have hscratch : ((([] : List RunRec).length + recordCount (imgs.map RunImage.contents)) / sparseStride + 1) *
      sparseEntSize ≤ sparseScratch (recordCount (imgs.map RunImage.contents)) := by
    unfold sparseScratch sparseStride sparseEntSize
    rw [List.length_nil]
    omega
  obtain ⟨out, hout⟩ := Option.isSome_iff_exists.mp
    (@compactLoop_isSome _ _ keepDels _ _ _ _ _ _ _ hholds hstart le_rfl hscratch)
  obtain ⟨sampled, hw⟩ := compactLoop_wrote hholds hstart le_rfl hout
  rw [hout]
  simp only
  rw [if_pos]
  · rfl
  · rw [List.nil_append] at hw
    have hrecs := length_mergeLoop_le keepDels (recordCount (imgs.map RunImage.contents))
      (imgs.map RunImage.contents)
    have hbytes := @length_encodeAll_le (mergedRecs keepDels imgs) fun o p => scripts_mergedRecs h
    have hlen := hw.bloom_length
    have hle : bits ≤ 2 ^ 31 := hpow ▸ Nat.pow_le_pow_right (by decide) hhigh
    have hsampled := hw.sampled
    rw [List.length_append, length_blankHeader, List.length_replicate] at hlen
    change (mergedRecs keepDels imgs).length ≤ _ at hrecs
    change sampled.length = ((mergedRecs keepDels imgs).length + 63) / 64 at hsampled
    rw [finishFile_eq hw, RunImage.length_bytes]
    change 44 + out.bloom.length + (encodeAll (encodeRec true) (mergedRecs keepDels imgs)).length +
      (encodeAll encodeEntry sampled).length < 2 ^ 63
    rw [RunImage.length_encodeAll_entry]
    unfold sparseEntSize
    omega

end Merged

/-! ## Lookups before and after -/

/-- Where nothing older lies below, a deletion is as good as silence. -/
def RunAnswer.forgetTomb : RunAnswer → RunAnswer
  | .tomb => .absent
  | a => a

theorem answer_kept (keepDels : Bool) (x : Option (Option PushData)) :
    answer (kept keepDels x) = if keepDels then answer x else (answer x).forgetTomb := by
  cases keepDels with
  | true => rw [kept_true, if_pos rfl]
  | false => rcases x with _ | _ | p <;> rfl

theorem contents_run3 {img : RunImage} (h : img.magic = .run3) : img.contents = img.recs := by
  have hid : ∀ r : RunRec, shownRec true r = r := by
    rintro ⟨o, _ | p⟩ <;> rfl
  unfold RunImage.contents
  rw [h]
  exact (List.map_congr_left fun r _ => hid r).trans (List.map_id _)

theorem findKey_mergedRecs {files : PMap Nat (List UInt8)} {es : List ManifestEntry}
    {imgs : List RunImage} (h : List.Forall₂ (IsRun files) es imgs) (keepDels : Bool) (o : Outpoint) :
    findKey o (mergedRecs keepDels imgs) =
      kept keepDels (overlay (imgs.reverse.map fun img k => findKey k img.contents) o) := by
  have hlayers : slotLayers (imgs.map RunImage.contents) =
      imgs.reverse.map fun img k => findKey k img.contents := by
    unfold slotLayers
    rw [← List.map_reverse, List.map_map]
    rfl
  unfold mergedRecs
  rw [findKey_mergeLoop (inKeyOrder_inputs h) le_rfl, hlayers]

theorem compactBatch_keepDels {n lo k lo' k' : Nat} {keepDels : Bool}
    (h : compactBatch n lo k = some (lo', k', keepDels)) : keepDels = decide (0 < lo') := by
  unfold compactBatch at h
  split_ifs at h with h₁ h₂ h₃ h₄ h₅
  · obtain ⟨rfl, rfl, rfl⟩ := by simpa using h
    rfl
  · obtain ⟨rfl, rfl, rfl⟩ := by simpa using h
    rfl
  · obtain ⟨rfl, rfl, rfl⟩ := by simpa using h
    exact (decide_eq_true (by omega)).symm

/-- A newer run that deletes the first key of the sample. -/
def sampleNewer : RunImage where
  magic := .run3
  gen := 5
  nrec := 1
  bloomBits := 64
  bloom := List.replicate 8 0xFF
  recs := [(sampleKey 0, none)]
  sparse := []
  trailer := true

theorem sampleNewer_wellFormed : sampleNewer.WellFormed where
  sorted := List.pairwise_singleton ..
  scripts := by
    intro o p hmem
    cases List.mem_singleton.mp hmem
  bloom_length := by decide
  filter := by
    intro _
    decide +kernel
  names := nofun
  trailer_run := nofun
  trailer_sparse := nofun
  length_lt := by decide

def sampleFiles : PMap Nat (List UInt8)
  | 0 => some sampleRun.bytes
  | 1 => some sampleRun.bytes
  | 2 => some sampleNewer.bytes
  | _ => none

def sampleManifest : List ManifestEntry := [⟨4, 0⟩, ⟨4, 1⟩, ⟨5, 2⟩]

end BitcoinMachineCode.Storage.RunFile
