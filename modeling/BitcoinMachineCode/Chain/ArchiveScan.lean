import BitcoinMachineCode.Consensus.Sha256
import BitcoinMachineCode.Foundation.Occurrence

/-!
# Scanning the block files

The scan of `daemon/archive_reindex.c`.  A block file is a row of frames: a length, a magic and
as many bytes.  Where no frame begins the scan looks for the magic in chunks of 4 MiB; it comes
to the same frames as one that slides forward byte by byte.  The counts for the log are left
out.
-/

namespace BitcoinMachineCode.Chain.Reindex

open Foundation Consensus

def rxMaxFrame : Nat := 8 * 2 ^ 20

def rxChunk : Nat := 4 * 2 ^ 20

def rd32 (bs : List UInt8) (off : Nat) : Nat := leVal (pread bs off 4)

/-- A frame stands here, as far as magic, length and the end of the file say. -/
def sane (magic : UInt32) (file : List UInt8) (pos : Nat) : Bool :=
  decide (rd32 file (pos + 4) = magic.toNat ∧ 80 ≤ rd32 file pos ∧ rd32 file pos ≤ rxMaxFrame ∧
    pos + 8 + rd32 file pos ≤ file.length)

def magicBytes (magic : UInt32) : List UInt8 := leBytes 4 magic.toNat

/-- The first magic at or after `off` that could be that of a frame. -/
def findFrame (magic : UInt32) (fsz pos : Nat) (chunk : List UInt8) : Nat → Nat → Option Nat
  | 0, _ => none
  | k + 1, off =>
      if chunk.length < off + 4 then none
      else
        match memmem (magicBytes magic) (chunk.drop off) off with
        | none => none
        | some hit =>
            if 80 ≤ rd32 chunk (hit - 4) ∧ rd32 chunk (hit - 4) ≤ rxMaxFrame ∧
                pos + (hit - 4) + 8 + rd32 chunk (hit - 4) ≤ fsz then
              some (pos + (hit - 4))
            else findFrame magic fsz pos chunk k (hit + 1)

/-- Where the scan goes on when no frame begins at `pos`. -/
def resync (magic : UInt32) (file : List UInt8) (pos : Nat) : Nat :=
  let chunk := pread file pos rxChunk
  if chunk.length < 88 then file.length
  else
    match findFrame magic file.length pos chunk chunk.length 4 with
    | some cand => cand
    | none => pos + (chunk.length - 8)

/-- The frames from `pos` on with their lengths; every round goes forward. -/
def scanFrom (magic : UInt32) (file : List UInt8) : Nat → Nat → List (Nat × Nat)
  | 0, _ => []
  | k + 1, pos =>
      if file.length < pos + 88 then []
      else if sane magic file pos then
        (pos, rd32 file pos) :: scanFrom magic file k (pos + 8 + rd32 file pos)
      else scanFrom magic file k (resync magic file pos)

def scanAt (magic : UInt32) (file : List UInt8) (pos : Nat) : List (Nat × Nat) :=
  scanFrom magic file (file.length + 1) pos

def scanFile (magic : UInt32) (file : List UInt8) : List (Nat × Nat) := scanAt magic file 0

/-! ## Resynchronising -/

variable {magic : UInt32} {file : List UInt8} {pos : Nat}

@[simp] theorem length_magicBytes (magic : UInt32) : (magicBytes magic).length = 4 :=
  length_leBytes 4 magic.toNat

theorem magicBytes_ne_nil (magic : UInt32) : magicBytes magic ≠ [] := by
  intro h
  have := length_magicBytes magic
  rw [h] at this
  cases this

/-- A frame in the sense of `sane`. -/
structure FrameAt (magic : UInt32) (file : List UInt8) (pos : Nat) : Prop where
  magicAt : OccursAt (magicBytes magic) file (pos + 4)
  least : 80 ≤ rd32 file pos
  most : rd32 file pos ≤ rxMaxFrame
  fits : pos + 8 + rd32 file pos ≤ file.length

theorem rd32_eq_magic_iff {i : Nat} (h : i + 4 ≤ file.length) :
    rd32 file i = magic.toNat ↔ OccursAt (magicBytes magic) file i := by
  have hlen : (pread file i 4).length = 4 := by
    rw [length_pread]
    omega
  have hval : leVal (magicBytes magic) = magic.toNat := by
    rw [magicBytes, leVal_leBytes]
    exact Nat.mod_eq_of_lt magic.toNat_lt
  unfold OccursAt
  rw [length_magicBytes]
  constructor
  · intro heq
    exact leVal_inj (by rw [hlen, length_magicBytes]) (heq.trans hval.symm)
  · intro heq
    rw [rd32, heq, hval]

theorem sane_iff : sane magic file pos = true ↔ FrameAt magic file pos := by
  unfold sane
  rw [decide_eq_true_iff]
  constructor
  · rintro ⟨hmagic, hleast, hmost, hfits⟩
    exact ⟨(rd32_eq_magic_iff (by omega)).mp hmagic, hleast, hmost, hfits⟩
  · rintro ⟨hmagic, hleast, hmost, hfits⟩
    exact ⟨(rd32_eq_magic_iff (by omega)).mpr hmagic, hleast, hmost, hfits⟩

/-- The test of a hit at `i` of a chunk that starts at `pos`. -/
def Candidate (fsz pos : Nat) (chunk : List UInt8) (i : Nat) : Prop :=
  80 ≤ rd32 chunk (i - 4) ∧ rd32 chunk (i - 4) ≤ rxMaxFrame ∧
    pos + (i - 4) + 8 + rd32 chunk (i - 4) ≤ fsz

theorem occursAt_drop {pat bs : List UInt8} {off j : Nat} (h : off ≤ j) :
    OccursAt pat (bs.drop off) (j - off) ↔ OccursAt pat bs j := by
  unfold OccursAt pread
  rw [List.drop_drop, Nat.add_sub_cancel' h]

theorem findFrame_eq_some {fsz : Nat} {chunk : List UInt8} {k off cand : Nat}
    (h : findFrame magic fsz pos chunk k off = some cand) :
    ∃ i, off ≤ i ∧ cand = pos + (i - 4) ∧ OccursAt (magicBytes magic) chunk i ∧
      Candidate fsz pos chunk i ∧
      ∀ j, off ≤ j → j < i → OccursAt (magicBytes magic) chunk j → ¬ Candidate fsz pos chunk j := by
  induction k generalizing off with
  | zero => cases h
  | succ k ih =>
      rw [findFrame] at h
      split at h
      · cases h
      split at h
      · cases h
      next hit hsome =>
      obtain ⟨n, rfl, hocc, hbefore⟩ := memmem_eq_some hsome
      have hfree : ∀ j, off ≤ j → j < off + n → ¬ OccursAt (magicBytes magic) chunk j := by
        intro j hj hlt hj'
        exact hbefore (j - off) (by omega) ((occursAt_drop hj).mpr hj')
      split at h
      · next hcand =>
          have hocc' : OccursAt (magicBytes magic) chunk (off + n) := by
            rw [← occursAt_drop (Nat.le_add_right off n), Nat.add_sub_cancel_left]
            exact hocc
          exact ⟨off + n, by omega, (Option.some.inj h).symm, hocc', hcand,
            fun j hj hlt hj' => absurd hj' (hfree j hj hlt)⟩
      · next hcand =>
          obtain ⟨i, hi, hcand', hocc', hcan, hrest⟩ := ih h
          refine ⟨i, by omega, hcand', hocc', hcan, fun j hj hlt hj' => ?_⟩
          rcases Nat.lt_trichotomy j (off + n) with hlt' | rfl | hgt
          · exact absurd hj' (hfree j hj hlt')
          · exact hcand
          · exact hrest j (by omega) hlt hj'

theorem findFrame_eq_none {fsz : Nat} {chunk : List UInt8} {k off : Nat}
    (hk : chunk.length < k + off) (h : findFrame magic fsz pos chunk k off = none) {j : Nat}
    (hj : off ≤ j) (hocc : OccursAt (magicBytes magic) chunk j) : ¬ Candidate fsz pos chunk j := by
  have hbound : j + 4 ≤ chunk.length := hocc.bound (magicBytes_ne_nil magic)
  induction k generalizing off with
  | zero => omega
  | succ k ih =>
      rw [findFrame, if_neg (by omega)] at h
      split at h
      · next hnone =>
          have := memmem_eq_none (magicBytes_ne_nil magic) hnone (j - off)
          exact absurd ((occursAt_drop hj).mpr hocc) this
      next hit hsome =>
      obtain ⟨n, rfl, -, hbefore⟩ := memmem_eq_some hsome
      split at h
      · cases h
      next hcand =>
      rcases Nat.lt_trichotomy j (off + n) with hlt | rfl | hgt
      · exact absurd ((occursAt_drop hj).mpr hocc) (hbefore (j - off) (by omega))
      · exact hcand
      · exact ih (by omega) h (by omega)

/-- Nothing is passed over. -/
theorem resync_spec (hroom : pos + 88 ≤ file.length) (hpos : ¬ FrameAt magic file pos) :
    pos < resync magic file pos ∧
      ∀ p, pos ≤ p → p < resync magic file pos → ¬ FrameAt magic file p := by
  have hlen : (pread file pos rxChunk).length = min rxChunk (file.length - pos) := length_pread ..
  have hchunk : rxChunk = 4194304 := rfl
  -- a frame whose magic lies in the chunk is a hit that passes the test
  have hhit : ∀ p, pos ≤ p → p + 8 ≤ pos + (pread file pos rxChunk).length →
      FrameAt magic file p → OccursAt (magicBytes magic) (pread file pos rxChunk) (p - pos + 4) ∧
        Candidate file.length pos (pread file pos rxChunk) (p - pos + 4) := by
    intro p hp hin hframe
    have hrd : rd32 (pread file pos rxChunk) (p - pos) = rd32 file p := by
      rw [rd32, pread_pread (by omega), Nat.add_sub_cancel' hp]
      rfl
    constructor
    · rw [occursAt_pread (by rw [length_magicBytes]; omega)]
      convert hframe.magicAt using 1
      omega
    · unfold Candidate
      rw [Nat.add_sub_cancel, hrd, Nat.add_sub_cancel' hp]
      exact ⟨hframe.least, hframe.most, hframe.fits⟩
  unfold resync
  dsimp only
  rw [if_neg (by omega)]
  cases hfind : findFrame magic file.length pos (pread file pos rxChunk)
      (pread file pos rxChunk).length 4 with
  | none =>
      dsimp only
      refine ⟨by omega, fun p hp hlt hframe => ?_⟩
      obtain ⟨hocc, hcand⟩ := hhit p hp (by omega) hframe
      exact findFrame_eq_none (by omega) hfind (by omega) hocc hcand
  | some cand =>
      dsimp only
      obtain ⟨i, hi, rfl, hocc, hcand, hbefore⟩ := findFrame_eq_some hfind
      have hbound : i + 4 ≤ (pread file pos rxChunk).length := hocc.bound (magicBytes_ne_nil magic)
      have hrd : rd32 (pread file pos rxChunk) (i - 4) = rd32 file (pos + (i - 4)) := by
        rw [rd32, pread_pread (by omega)]
        rfl
      have hframe : FrameAt magic file (pos + (i - 4)) := by
        obtain ⟨hleast, hmost, hfits⟩ := hcand
        rw [hrd] at hleast hmost hfits
        rw [occursAt_pread (by rw [length_magicBytes]; omega)] at hocc
        refine ⟨?_, hleast, hmost, hfits⟩
        convert hocc using 1
        omega
      have hne : i - 4 ≠ 0 := fun hzero => hpos (by rwa [hzero] at hframe)
      refine ⟨by omega, fun p hp hlt hframe' => ?_⟩
      obtain ⟨hocc', hcand'⟩ := hhit p hp (by omega) hframe'
      exact hbefore (p - pos + 4) (by omega) (by omega) hocc' hcand'

/-! ## What the scan comes to -/

theorem scanFrom_succ (magic : UInt32) (file : List UInt8) (k pos : Nat) :
    scanFrom magic file (k + 1) pos =
      if file.length < pos + 88 then []
      else if sane magic file pos then
        (pos, rd32 file pos) :: scanFrom magic file k (pos + 8 + rd32 file pos)
      else scanFrom magic file k (resync magic file pos) := rfl

theorem scanFrom_congr {k m : Nat} (hk : file.length < k + pos) (hm : file.length < m + pos) :
    scanFrom magic file k pos = scanFrom magic file m pos := by
  induction k generalizing m pos with
  | zero =>
      cases m with
      | zero => rfl
      | succ m =>
          rw [scanFrom_succ, if_pos (by omega)]
          rfl
  | succ k ih =>
      cases m with
      | zero =>
          rw [scanFrom_succ, if_pos (by omega)]
          rfl
      | succ m =>
          rw [scanFrom_succ, scanFrom_succ]
          split
          · rfl
          next hroom =>
          split
          · next hsane =>
              have := (sane_iff.mp hsane).least
              rw [@ih (pos + 8 + rd32 file pos) m (by omega) (by omega)]
          · next hsane =>
              have := (resync_spec (Nat.not_lt.mp hroom) (mt sane_iff.mpr hsane)).1
              exact ih (by omega) (by omega)

theorem scanAt_end (h : file.length < pos + 88) : scanAt magic file pos = [] := by
  rw [scanAt, scanFrom_succ, if_pos h]

theorem scanAt_frame (h : FrameAt magic file pos) :
    scanAt magic file pos =
      (pos, rd32 file pos) :: scanAt magic file (pos + 8 + rd32 file pos) := by
  have hleast := h.least
  have hfits := h.fits
  rw [scanAt, scanFrom_succ, if_neg (by omega), if_pos (sane_iff.mpr h),
    scanFrom_congr (m := file.length + 1) (by omega) (by omega)]
  rfl

theorem scanAt_resync (hroom : pos + 88 ≤ file.length) (h : ¬ FrameAt magic file pos) :
    scanAt magic file pos = scanAt magic file (resync magic file pos) := by
  have hpast := (resync_spec hroom h).1
  rw [scanAt, scanFrom_succ, if_neg (by omega), if_neg (mt sane_iff.mp h),
    scanFrom_congr (m := file.length + 1) (by omega) (by omega)]
  rfl

theorem mem_scanFrom {k : Nat} {p : Nat × Nat} (h : p ∈ scanFrom magic file k pos) :
    FrameAt magic file p.1 ∧ p.2 = rd32 file p.1 := by
  induction k generalizing pos with
  | zero => cases h
  | succ k ih =>
      rw [scanFrom_succ] at h
      split at h
      · cases h
      split at h
      · next hsane =>
          rcases List.mem_cons.mp h with rfl | h
          · exact ⟨sane_iff.mp hsane, rfl⟩
          · exact ih h
      · exact ih h

/-- Where no frame begins the scan slides on. -/
theorem scanAt_slide {q : Nat} (hq : pos ≤ q) (h : ∀ p, pos ≤ p → p < q → ¬ FrameAt magic file p) :
    scanAt magic file pos = scanAt magic file q := by
  induction hn : file.length - pos using Nat.strong_induction_on generalizing pos q with
  | _ n ih =>
      subst hn
      rcases Nat.eq_or_lt_of_le hq with rfl | hlt
      · rfl
      by_cases hroom : pos + 88 ≤ file.length
      · have hpos := h pos (Nat.le_refl _) hlt
        obtain ⟨hpast, hfree⟩ := resync_spec hroom hpos
        rw [scanAt_resync hroom hpos]
        rcases Nat.le_total (resync magic file pos) q with hle | hge
        · exact ih _ (by omega) hle (fun p hp => h p (by omega)) rfl
        · exact (ih _ (by omega) hge (fun p hp => hfree p (by omega)) rfl).symm
      · rw [scanAt_end (by omega), scanAt_end (by omega)]

/-! ## Files laid out in frames -/

/-- The magic of every frame the store writes, on every chain. -/
def bmcFrameMagic : UInt32 := 0xd9b4bef9

def frameBytes (block : List UInt8) : List UInt8 :=
  leBytes 4 block.length ++ magicBytes bmcFrameMagic ++ block

inductive Seg where
  | frame (block : List UInt8)
  | junk (bytes : List UInt8)

def Seg.bytes : Seg → List UInt8
  | .frame block => frameBytes block
  | .junk bytes => bytes

def laid (segs : List Seg) : List UInt8 := segs.flatMap Seg.bytes

/-- The complete frames with their places. -/
def framesOf : Nat → List Seg → List (Nat × List UInt8)
  | _, [] => []
  | off, .frame block :: rest => (off, block) :: framesOf (off + (8 + block.length)) rest
  | off, .junk bytes :: rest => framesOf (off + bytes.length) rest

def BlockSized (block : List UInt8) : Prop := 80 ≤ block.length ∧ block.length ≤ rxMaxFrame

/-- What is left of a frame that was cut short; its own magic is the only one in it. -/
structure Torn (torn : List UInt8) : Prop where
  cut : ∃ block rest, BlockSized block ∧ rest ≠ [] ∧ frameBytes block = torn ++ rest
  once : ∀ i, OccursAt (magicBytes bmcFrameMagic) torn i → i = 4

/-- A file of complete frames and junk that may end in a frame cut short.  No magic touches the
junk. -/
structure Layout (file : List UInt8) (segs : List Seg) (torn : List UInt8) : Prop where
  bytes_eq : file = laid segs ++ torn
  sized : ∀ block, Seg.frame block ∈ segs → BlockSized block
  clear : ∀ before bytes after, segs = before ++ .junk bytes :: after →
    ∀ i, OccursAt (magicBytes bmcFrameMagic) file i →
      i + 4 ≤ (laid before).length ∨ (laid before).length + bytes.length ≤ i
  torn : torn = [] ∨ Torn torn

@[simp] theorem length_frameBytes (block : List UInt8) :
    (frameBytes block).length = 8 + block.length := by
  simp [frameBytes]
  omega

theorem laid_append (xs ys : List Seg) : laid (xs ++ ys) = laid xs ++ laid ys :=
  List.flatMap_append

theorem laid_cons (s : Seg) (segs : List Seg) : laid (s :: segs) = s.bytes ++ laid segs := rfl

theorem magicBytes_ne_zero (k : Nat) : (magicBytes bmcFrameMagic)[k]? ≠ some 0 := by
  intro h
  have hmem := List.mem_of_getElem? h
  revert hmem
  decide

/-- The length before a magic ends in a zero byte, so no other magic touches it from behind. -/
theorem not_occursAt_of_zero {file : List UInt8} {b i : Nat} (hzero : file[b + 3]? = some 0)
    (hb : b ≤ i) (hi : i < b + 4) : ¬ OccursAt (magicBytes bmcFrameMagic) file i := by
  intro hocc
  have hget := hocc.getElem? (k := b + 3 - i) (by rw [length_magicBytes]; omega)
  rw [show i + (b + 3 - i) = b + 3 by omega, hzero] at hget
  exact magicBytes_ne_zero _ hget.symm

theorem frameBytes_getElem_three {block : List UInt8} (h : BlockSized block) :
    (frameBytes block)[3]? = some 0 := by
  have hsize : block.length / 256 / 256 / 256 = 0 := by
    have : block.length ≤ 8388608 := h.2
    omega
  simp [frameBytes, leBytes, hsize]

theorem rd32_frameBytes {block : List UInt8} (h : BlockSized block) (front back : List UInt8) :
    rd32 (front ++ (frameBytes block ++ back)) front.length = block.length := by
  have hread : pread (front ++ (frameBytes block ++ back)) front.length 4 =
      leBytes 4 block.length := by
    rw [frameBytes, List.append_assoc, List.append_assoc]
    exact pread_append rfl (length_leBytes ..)
  rw [rd32, hread, leVal_leBytes]
  have : block.length ≤ 8388608 := h.2
  exact Nat.mod_eq_of_lt (by omega)

theorem frameAt_frameBytes {block : List UInt8} (h : BlockSized block) (front back : List UInt8) :
    FrameAt bmcFrameMagic (front ++ (frameBytes block ++ back)) front.length := by
  have hlen := rd32_frameBytes h front back
  refine ⟨?_, hlen ▸ h.1, hlen ▸ h.2, ?_⟩
  · unfold OccursAt
    have hsplit : front ++ (frameBytes block ++ back) =
        (front ++ leBytes 4 block.length) ++ (magicBytes bmcFrameMagic ++ (block ++ back)) := by
      simp [frameBytes]
    rw [hsplit]
    exact pread_append (by simp) rfl
  · rw [hlen]
    simp only [List.length_append, length_frameBytes]
    omega

variable {segs : List Seg} {torn : List UInt8}

/-- No magic begins in the first four bytes of a segment. -/
theorem Layout.head_clear (h : Layout file segs torn) {before after : List Seg}
    (hsegs : segs = before ++ after) {i : Nat} (hb : (laid before).length ≤ i)
    (hi : i < (laid before).length + 4) : ¬ OccursAt (magicBytes bmcFrameMagic) file i := by
  induction after generalizing before with
  | nil =>
      intro hocc
      rw [h.bytes_eq, hsegs, List.append_nil] at hocc
      obtain ⟨o, rfl⟩ := Nat.exists_eq_add_of_le hb
      rw [occursAt_append_right] at hocc
      rcases h.torn with rfl | htorn
      · have hbound : o + 4 ≤ 0 := hocc.bound (magicBytes_ne_nil _)
        omega
      · have := htorn.once o hocc
        omega
  | cons s after ih =>
      cases s with
      | frame block =>
          have hsized := h.sized block (by simp [hsegs])
          refine not_occursAt_of_zero ?_ hb hi
          rw [h.bytes_eq, hsegs, laid_append, laid_cons, List.append_assoc, List.append_assoc,
            List.getElem?_append_right (by omega), Nat.add_sub_cancel_left,
            List.getElem?_append_left (by simp [Seg.bytes]; omega)]
          exact frameBytes_getElem_three hsized
      | junk bytes =>
          intro hocc
          have hpast := (h.clear before bytes after hsegs i hocc).resolve_left (by omega)
          have hlen : (laid (before ++ [.junk bytes])).length =
              (laid before).length + bytes.length := by
            simp [laid, Seg.bytes]
          have hnext : segs = (before ++ [.junk bytes]) ++ after := by simp [hsegs]
          refine ih hnext ?_ ?_ hocc
          · rw [hlen]
            exact hpast
          · rw [hlen]
            omega

theorem Layout.no_frame_in_junk (h : Layout file segs torn) {before after : List Seg}
    {bytes : List UInt8} (hsegs : segs = before ++ .junk bytes :: after) {p : Nat}
    (hp : (laid before).length ≤ p) (hlt : p < (laid before).length + bytes.length) :
    ¬ FrameAt bmcFrameMagic file p := by
  intro hframe
  have hpast := (h.clear before bytes after hsegs _ hframe.magicAt).resolve_left (by omega)
  have hlen : (laid (before ++ [.junk bytes])).length = (laid before).length + bytes.length := by
    simp [laid, Seg.bytes]
  have hnext : segs = (before ++ [.junk bytes]) ++ after := by simp [hsegs]
  refine h.head_clear hnext ?_ ?_ hframe.magicAt
  · rw [hlen]
    exact hpast
  · rw [hlen]
    omega

theorem no_frame_in_torn (front : List UInt8) {torn : List UInt8} (h : torn = [] ∨ Torn torn)
    {p : Nat} (hp : front.length ≤ p) : ¬ FrameAt bmcFrameMagic (front ++ torn) p := by
  intro hframe
  obtain ⟨o, rfl⟩ := Nat.exists_eq_add_of_le hp
  have hfits := hframe.fits
  have hleast := hframe.least
  rw [List.length_append] at hfits
  rcases h with rfl | htorn
  · rw [List.length_nil] at hfits
    omega
  · have hocc := hframe.magicAt
    rw [Nat.add_assoc, occursAt_append_right] at hocc
    have hzero : o = 0 := by
      have := htorn.once _ hocc
      omega
    subst hzero
    -- the length is that of the frame before it was cut
    obtain ⟨block, rest, hsized, hrest, hcut⟩ := htorn.cut
    have hpos := List.length_pos_of_ne_nil hrest
    have hlens := congrArg List.length hcut
    rw [length_frameBytes, List.length_append] at hlens
    have hrd : rd32 (front ++ torn) front.length = block.length := by
      have hwhole := rd32_frameBytes hsized front []
      rw [List.append_nil, hcut, ← List.append_assoc] at hwhole
      rw [← hwhole, rd32, rd32, pread_append_left rest]
      rw [List.length_append]
      omega
    simp only [Nat.add_zero, hrd] at hfits
    omega

/-- The scan comes to the complete frames. -/
theorem Layout.scanAt_eq (h : Layout file segs torn) {before after : List Seg}
    (hsegs : segs = before ++ after) :
    scanAt bmcFrameMagic file (laid before).length =
      (framesOf (laid before).length after).map fun f => (f.1, f.2.length) := by
  induction after generalizing before with
  | nil =>
      have hfile : file = laid before ++ torn := by
        rw [h.bytes_eq, hsegs, List.append_nil]
      rw [scanAt_slide (q := file.length), scanAt_end (by omega)]
      · rfl
      · rw [hfile, List.length_append]
        omega
      · intro p hp _
        rw [hfile]
        exact no_frame_in_torn _ h.torn hp
  | cons s after ih =>
      have hnext : segs = (before ++ [s]) ++ after := by simp [hsegs]
      have hlen : (laid (before ++ [s])).length = (laid before).length + s.bytes.length := by
        simp [laid]
      have hrest := ih hnext
      rw [hlen] at hrest
      cases s with
      | frame block =>
          have hsized := h.sized block (by simp [hsegs])
          have hfile : file = laid before ++ (frameBytes block ++ (laid after ++ torn)) := by
            rw [h.bytes_eq, hsegs, laid_append, laid_cons]
            simp [Seg.bytes]
          have hframe : FrameAt bmcFrameMagic file (laid before).length := by
            rw [hfile]
            exact frameAt_frameBytes hsized _ _
          have hrd : rd32 file (laid before).length = block.length := by
            rw [hfile]
            exact rd32_frameBytes hsized _ _
          rw [scanAt_frame hframe, hrd, Nat.add_assoc, framesOf, List.map_cons]
          rw [Seg.bytes, length_frameBytes] at hrest
          rw [hrest]
      | junk bytes =>
          rw [scanAt_slide (Nat.le_add_right _ bytes.length) fun p => h.no_frame_in_junk hsegs]
          exact hrest

theorem Layout.scanFile_eq (h : Layout file segs torn) :
    scanFile bmcFrameMagic file = (framesOf 0 segs).map fun f => (f.1, f.2.length) :=
  h.scanAt_eq (List.nil_append segs).symm

end BitcoinMachineCode.Chain.Reindex
