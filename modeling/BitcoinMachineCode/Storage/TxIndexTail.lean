import Mathlib.Data.List.TakeWhile
import Mathlib.Tactic
import BitcoinMachineCode.Foundation.DiskWrites
import BitcoinMachineCode.Storage.Coins

/-!
# The tail of the transaction index

`daemon/tx_index_tail.c`: records of the newest blocks' transactions in an append-only file,
sorted runs for the blocks below, and a watermark that only lives in memory.  The file is
scanned at boot for the highest record, and that is where the watermark starts again.
-/

namespace BitcoinMachineCode.Storage

open BitcoinMachineCode.Foundation

/-! ## Files -/

/-- Where the archive has a transaction of a block. -/
structure TxPlace where
  txid : Txid
  off : UInt32
  len : UInt32
  deriving DecidableEq

/-- `TXI_REC`: the first eight bytes of the id, the height and the place. -/
structure TxiRec where
  txid8 : List UInt8
  height : Nat
  off : UInt32
  len : UInt32
  deriving DecidableEq

/-- `txit_emit` -/
def txitEmit (h : Nat) (t : TxPlace) : TxiRec := ⟨t.txid.bytes.take 8, h, t.off, t.len⟩

/-- The archive's blocks by height, the committed runs and the height they reach (-1 for
none), and the tail.  `followed` is not a file: it is the height to which the index was
brought along the blocks that are in the archive now. -/
structure TxiDisk where
  archive : List (List TxPlace)
  runs : List TxiRec
  runsTo : Int
  tail : List TxiRec
  followed : Int

def TxiDisk.tip (d : TxiDisk) : Int := d.archive.length - 1

inductive TailWrite where
  | append (h : Nat) (recs : List TxiRec)
  | clear
  | rotate (kept : List TxiRec)

def TxiDisk.write (d : TxiDisk) : TailWrite → TxiDisk
  | .append h recs => { d with tail := d.tail ++ recs, followed := max d.followed h }
  | .clear => { d with tail := [] }
  | .rotate kept => { d with tail := kept }

/-! ## Calls -/

/-- One block's records as one write; none for a block without transactions. -/
def txitAppendBlock (h : Nat) (blk : List TxPlace) : Option TailWrite :=
  if blk = [] then none else some (.append h (blk.map (txitEmit h)))

/-- The highest record, -1 for none. -/
def txitScanMax (tail : List TxiRec) : Int := tail.foldl (fun m r => max m (r.height : Int)) (-1)

/-- At most `n` blocks from the archive behind the watermark: the writes, the new watermark,
and whether no block was missing. -/
def txitBackfill (archive : List (List TxPlace)) : Nat → Int → List TailWrite × Int × Bool
  | 0, covered => ([], covered, true)
  | n + 1, covered =>
      match (archive[(covered + 1).toNat]?).bind (txitAppendBlock (covered + 1).toNat) with
      | none => ([], covered, false)
      | some w =>
          let r := txitBackfill archive n (covered + 1)
          (w :: r.1, r.2)

def txitBoot (d : TxiDisk) : List TailWrite × Int :=
  let tailMax := txitScanMax d.tail
  let folded := decide (0 ≤ tailMax ∧ tailMax ≤ d.runsTo)
  let covered := if folded then d.runsTo else max tailMax d.runsTo
  let r := txitBackfill d.archive (d.tip - covered).toNat covered
  ((if folded then [TailWrite.clear] else []) ++ r.1, r.2.1)

def txitOnTruncate (d : TxiDisk) (covered : Int) : Int :=
  if d.tip < covered then d.tip else covered

/-- The block is the one the archive has at the height. -/
def txitOnBlock (d : TxiDisk) (covered : Int) (h : Nat) : List TailWrite × Int :=
  if (h : Int) ≤ covered then ([], covered)
  else
    let r := if covered + 1 < h then txitBackfill d.archive (h - 1 - covered).toNat covered
      else ([], covered, true)
    if !r.2.2 then (r.1, r.2.1)
    else
      match (d.archive[h]?).bind (txitAppendBlock h) with
      | none => (r.1, r.2.1)
      | some w => if (h : Int) = r.2.1 + 1 then (r.1 ++ [w], h) else (r.1, r.2.1)

/-- The records from the first one above `upTo` on. -/
def txitRunsAdvanced (d : TxiDisk) (upTo : Int) : List TailWrite :=
  let kept := d.tail.dropWhile fun r => decide ((r.height : Int) ≤ upTo)
  if kept.length = d.tail.length then [] else [.rotate kept]

inductive TxiCall where
  | boot
  | onBlock (h : Nat)
  | runsAdvanced (upTo : Int)

/-- The process's watermark; none while it is down or the tail is closed. -/
structure TxIndex where
  disk : TxiDisk
  covered : Option Int

/-- What a call writes, and the watermark behind it. -/
def TxIndex.perform (s : TxIndex) : TxiCall → List TailWrite × Option Int
  | .boot => ((txitBoot s.disk).1, some (txitBoot s.disk).2)
  | .onBlock h =>
      match s.covered with
      | none => ([], none)
      | some c => ((txitOnBlock s.disk c h).1, some (txitOnBlock s.disk c h).2)
  | .runsAdvanced upTo =>
      match s.covered with
      | none => ([], none)
      | some c => (txitRunsAdvanced s.disk upTo, some c)

inductive TxiMove where
  /-- a block goes to the archive -/
  | store (blk : List TxPlace)
  /-- the archive is cut behind a height, and a process that runs is told -/
  | truncate (tip : Nat)
  /-- a run is built from the archive up to a height and committed -/
  | commitRun (upTo : Nat)
  | call (c : TxiCall)
  /-- the process dies behind the first `k` writes of a call -/
  | dieIn (c : TxiCall) (k : Nat)

/-- The records of a new run: the blocks behind the runs that are there. -/
def runRecords (d : TxiDisk) (upTo : Nat) : List TxiRec :=
  ((d.archive.take (upTo + 1)).zipIdx.drop (d.runsTo + 1).toNat).flatMap fun p =>
    p.1.map (txitEmit p.2)

namespace TxIndex

def move (s : TxIndex) : TxiMove → TxIndex
  | .store blk => { s with disk := { s.disk with archive := s.disk.archive ++ [blk] } }
  | .truncate tip =>
      let d := { s.disk with
        archive := s.disk.archive.take (tip + 1)
        followed := min s.disk.followed tip }
      ⟨d, s.covered.map (txitOnTruncate d)⟩
  | .commitRun upTo =>
      { s with disk := { s.disk with
        runs := s.disk.runs ++ runRecords s.disk upTo
        runsTo := max s.disk.runsTo upTo
        followed := max s.disk.followed upTo } }
  | .call c => ⟨(s.perform c).1.foldl TxiDisk.write s.disk, (s.perform c).2⟩
  | .dieIn c k => ⟨((s.perform c).1.take k).foldl TxiDisk.write s.disk, none⟩

def run (s : TxIndex) (moves : List TxiMove) : TxIndex := moves.foldl move s

def start : TxIndex := ⟨⟨[], [], -1, [], -1⟩, none⟩

/-! ## What is claimed of it -/

/-- What the builder and the reorganisation keep to: a cut stays above the runs, a run
reaches no further than the archive, and the tail is told of runs that are there. -/
def Allowed (s : TxIndex) : TxiMove → Prop
  | .truncate tip => s.disk.runsTo ≤ tip
  | .commitRun upTo => upTo < s.disk.archive.length
  | .call (.runsAdvanced upTo) => upTo ≤ s.disk.runsTo
  | .dieIn (.runsAdvanced upTo) _ => upTo ≤ s.disk.runsTo
  | _ => True

def AllowedMoves : TxIndex → List TxiMove → Prop
  | _, [] => True
  | s, mv :: mvs => s.Allowed mv ∧ AllowedMoves (s.move mv) mvs

/-- A boot finds no record above the height to which the index had followed the chain. -/
def NoStaleTop (s : TxIndex) : TxiMove → Prop
  | .call .boot => txitScanMax s.disk.tail ≤ s.disk.followed
  | .dieIn .boot _ => txitScanMax s.disk.tail ≤ s.disk.followed
  | _ => True

def NoStaleBoots : TxIndex → List TxiMove → Prop
  | _, [] => True
  | s, mv :: mvs => s.NoStaleTop mv ∧ NoStaleBoots (s.move mv) mvs

instance (s : TxIndex) : (mv : TxiMove) → Decidable (s.Allowed mv)
  | .store _ => isTrue trivial
  | .truncate tip => inferInstanceAs (Decidable (s.disk.runsTo ≤ tip))
  | .commitRun upTo => inferInstanceAs (Decidable (upTo < s.disk.archive.length))
  | .call .boot => isTrue trivial
  | .call (.onBlock _) => isTrue trivial
  | .call (.runsAdvanced upTo) => inferInstanceAs (Decidable (upTo ≤ s.disk.runsTo))
  | .dieIn .boot _ => isTrue trivial
  | .dieIn (.onBlock _) _ => isTrue trivial
  | .dieIn (.runsAdvanced upTo) _ => inferInstanceAs (Decidable (upTo ≤ s.disk.runsTo))

instance decidableAllowedMoves : (s : TxIndex) → (mvs : List TxiMove) →
    Decidable (s.AllowedMoves mvs)
  | _, [] => isTrue trivial
  | s, mv :: mvs =>
      have := decidableAllowedMoves (s.move mv) mvs
      inferInstanceAs (Decidable (s.Allowed mv ∧ (s.move mv).AllowedMoves mvs))

instance (s : TxIndex) : (mv : TxiMove) → Decidable (s.NoStaleTop mv)
  | .call .boot => inferInstanceAs (Decidable (txitScanMax s.disk.tail ≤ s.disk.followed))
  | .dieIn .boot _ => inferInstanceAs (Decidable (txitScanMax s.disk.tail ≤ s.disk.followed))
  | .store _ => isTrue trivial
  | .truncate _ => isTrue trivial
  | .commitRun _ => isTrue trivial
  | .call (.onBlock _) => isTrue trivial
  | .call (.runsAdvanced _) => isTrue trivial
  | .dieIn (.onBlock _) _ => isTrue trivial
  | .dieIn (.runsAdvanced _) _ => isTrue trivial

instance decidableNoStaleBoots : (s : TxIndex) → (mvs : List TxiMove) →
    Decidable (s.NoStaleBoots mvs)
  | _, [] => isTrue trivial
  | s, mv :: mvs =>
      have := decidableNoStaleBoots (s.move mv) mvs
      inferInstanceAs (Decidable (s.NoStaleTop mv ∧ (s.move mv).NoStaleBoots mvs))

/-- Every transaction up to the reported height has its record. -/
def Complete (s : TxIndex) : Prop :=
  ∀ c, s.covered = some c → ∀ (h : Nat) (blk : List TxPlace), (h : Int) ≤ c →
    s.disk.archive[h]? = some blk → ∀ t ∈ blk,
      txitEmit h t ∈ s.disk.tail ∨ txitEmit h t ∈ s.disk.runs

end TxIndex

/-! ## The disk -/

/-- The runs hold the blocks they reach to, and with the tail all that was followed. -/
structure TxiDisk.Sound (d : TxiDisk) : Prop where
  runs_le : d.runsTo ≤ d.followed
  followed_le : d.followed ≤ d.tip
  lower : -1 ≤ d.runsTo
  runs : ∀ (h : Nat) (blk : List TxPlace), (h : Int) ≤ d.runsTo → d.archive[h]? = some blk →
    ∀ t ∈ blk, txitEmit h t ∈ d.runs
  tail : ∀ (h : Nat) (blk : List TxPlace), (h : Int) ≤ d.followed → d.archive[h]? = some blk →
    ∀ t ∈ blk, txitEmit h t ∈ d.tail ∨ txitEmit h t ∈ d.runs

namespace TxiDisk

variable {d : TxiDisk}

theorem Sound.append (hd : d.Sound) {h : Nat} {w : TailWrite} (hh : (h : Int) ≤ d.followed + 1)
    (hw : (d.archive[h]?).bind (txitAppendBlock h) = some w) :
    (d.write w).Sound ∧ (d.write w).archive = d.archive ∧ (h : Int) ≤ (d.write w).followed := by
  obtain ⟨blk, hblk, happend⟩ := Option.bind_eq_some_iff.mp hw
  unfold txitAppendBlock at happend
  split_ifs at happend
  cases happend
  have htip : (h : Int) ≤ d.tip := by
    have hlt := (List.getElem?_eq_some_iff.mp hblk).1
    unfold tip
    omega
  refine ⟨⟨?_, ?_, hd.lower, hd.runs, ?_⟩, rfl, le_max_right _ _⟩
  · exact hd.runs_le.trans (le_max_left _ _)
  · exact max_le hd.followed_le htip
  · intro k blk' hk hblk' t ht
    by_cases hold : (k : Int) ≤ d.followed
    · exact (hd.tail k blk' hold hblk' t ht).imp_left fun hmem => List.mem_append_left _ hmem
    · -- only the new block is behind what was followed
      obtain rfl : k = h := by
        simp only [write] at hk
        omega
      obtain rfl : blk = blk' := Option.some_injective _ (hblk.symm.trans hblk')
      exact .inl (List.mem_append_right _ (List.mem_map_of_mem ht))

/-- Records no higher than the runs may go. -/
theorem Sound.drop (hd : d.Sound) {kept : List TxiRec}
    (hkept : ∀ r ∈ d.tail, r ∈ kept ∨ (r.height : Int) ≤ d.runsTo) :
    Sound { d with tail := kept } where
  runs_le := hd.runs_le
  followed_le := hd.followed_le
  lower := hd.lower
  runs := hd.runs
  tail h blk hh hblk t ht := by
    rcases hd.tail h blk hh hblk t ht with hmem | hmem
    · rcases hkept _ hmem with hkept | hlow
      · exact .inl hkept
      · exact .inr (hd.runs h blk hlow hblk t ht)
    · exact .inr hmem

theorem le_txitScanMax (tail : List TxiRec) :
    -1 ≤ txitScanMax tail ∧ ∀ r ∈ tail, (r.height : Int) ≤ txitScanMax tail := by
  have hfold : ∀ (l : List TxiRec) (m : Int),
      m ≤ l.foldl (fun m r => max m (r.height : Int)) m ∧
        ∀ r ∈ l, (r.height : Int) ≤ l.foldl (fun m r => max m (r.height : Int)) m := by
    intro l
    induction l with
    | nil => exact fun m => ⟨le_rfl, nofun⟩
    | cons r l ih =>
        intro m
        obtain ⟨hle, hmem⟩ := ih (max m r.height)
        refine ⟨(le_max_left _ _).trans hle, fun r' hr' => ?_⟩
        rcases List.mem_cons.mp hr' with rfl | hr'
        · exact (le_max_right _ _).trans hle
        · exact hmem r' hr'
  exact hfold tail (-1)

theorem Sound.backfill (hd : d.Sound) (n : Nat) {covered : Int} (hlower : -1 ≤ covered)
    (hcovered : covered ≤ d.followed) :
    Along write (fun d' => d'.Sound ∧ d'.archive = d.archive) d
        (txitBackfill d.archive n covered).1 ∧
      -1 ≤ (txitBackfill d.archive n covered).2.1 ∧
      (txitBackfill d.archive n covered).2.1 ≤
        ((txitBackfill d.archive n covered).1.foldl write d).followed := by
  induction n generalizing d covered with
  | zero => exact ⟨⟨hd, rfl⟩, hlower, hcovered⟩
  | succ n ih =>
      unfold txitBackfill
      cases hw : (d.archive[(covered + 1).toNat]?).bind
          (txitAppendBlock (covered + 1).toNat) with
      | none => exact ⟨⟨hd, rfl⟩, hlower, hcovered⟩
      | some w =>
          have hh : ((covered + 1).toNat : Int) = covered + 1 := by omega
          obtain ⟨hd', harchive, hle⟩ := hd.append (by omega) hw
          obtain ⟨halong, hlast⟩ := ih hd' (by omega) (hh ▸ hle)
          rw [harchive] at halong hlast
          exact ⟨⟨⟨hd, rfl⟩, halong⟩, hlast⟩

theorem Sound.boot (hd : d.Sound) (hstale : txitScanMax d.tail ≤ d.followed) :
    Along write (fun d' => d'.Sound ∧ d'.archive = d.archive) d (txitBoot d).1 ∧
      -1 ≤ (txitBoot d).2 ∧ (txitBoot d).2 ≤ ((txitBoot d).1.foldl write d).followed := by
  obtain ⟨hlower, hmax⟩ := le_txitScanMax d.tail
  unfold txitBoot
  dsimp only
  by_cases hfolded : 0 ≤ txitScanMax d.tail ∧ txitScanMax d.tail ≤ d.runsTo
  · rw [decide_eq_true hfolded]
    have hclear : (d.write .clear).Sound :=
      hd.drop fun r hr => .inr ((hmax r hr).trans hfolded.2)
    obtain ⟨halong, hlast⟩ := hclear.backfill (d.tip - d.runsTo).toNat hd.lower hd.runs_le
    exact ⟨⟨⟨hd, rfl⟩, halong⟩, hlast⟩
  · rw [decide_eq_false hfolded]
    exact hd.backfill _ (hd.lower.trans (le_max_right _ _)) (max_le hstale hd.runs_le)

theorem Sound.onBlock (hd : d.Sound) {covered : Int} (hlower : -1 ≤ covered)
    (hcovered : covered ≤ d.followed) (h : Nat) :
    Along write (fun d' => d'.Sound ∧ d'.archive = d.archive) d (txitOnBlock d covered h).1 ∧
      -1 ≤ (txitOnBlock d covered h).2 ∧
      (txitOnBlock d covered h).2 ≤ ((txitOnBlock d covered h).1.foldl write d).followed := by
  unfold txitOnBlock
  by_cases hlow : (h : Int) ≤ covered
  · rw [if_pos hlow]
    exact ⟨⟨hd, rfl⟩, hlower, hcovered⟩
  · rw [if_neg hlow]
    have hgap : ∃ r : List TailWrite × Int × Bool,
        (if covered + 1 < h then txitBackfill d.archive (h - 1 - covered).toNat covered
          else ([], covered, true)) = r ∧
        Along write (fun d' => d'.Sound ∧ d'.archive = d.archive) d r.1 ∧ -1 ≤ r.2.1 ∧
        r.2.1 ≤ (r.1.foldl write d).followed := by
      refine ⟨_, rfl, ?_⟩
      split_ifs
      · exact hd.backfill _ hlower hcovered
      · exact ⟨⟨hd, rfl⟩, hlower, hcovered⟩
    obtain ⟨r, hr, halong, hlower', hlast⟩ := hgap
    dsimp only
    rw [hr]
    by_cases hstop : (!r.2.2) = true
    · rw [if_pos hstop]
      exact ⟨halong, hlower', hlast⟩
    · rw [if_neg hstop]
      cases hw : (d.archive[h]?).bind (txitAppendBlock h) with
      | none => exact ⟨halong, hlower', hlast⟩
      | some w =>
          by_cases hnext : (h : Int) = r.2.1 + 1
          · obtain ⟨hd', harchive⟩ := halong.whole
            rw [← harchive] at hw
            obtain ⟨hd'', harchive', hle⟩ := hd'.append (by omega) hw
            simp only [if_pos hnext, List.foldl_append]
            exact ⟨halong.append ⟨⟨hd', harchive⟩, hd'', harchive'.trans harchive⟩, by omega, hle⟩
          · simp only [if_neg hnext]
            exact ⟨halong, hlower', hlast⟩

theorem Sound.runsAdvanced (hd : d.Sound) {upTo : Int} (hruns : upTo ≤ d.runsTo) :
    Along write (fun d' => d'.Sound ∧ d'.archive = d.archive) d (txitRunsAdvanced d upTo) ∧
      ((txitRunsAdvanced d upTo).foldl write d).followed = d.followed := by
  unfold txitRunsAdvanced
  dsimp only
  split_ifs
  · exact ⟨⟨hd, rfl⟩, rfl⟩
  · refine ⟨⟨⟨hd, rfl⟩, hd.drop fun r hr => ?_, rfl⟩, rfl⟩
    by_cases hlow : (r.height : Int) ≤ upTo
    · exact .inr (hlow.trans hruns)
    · have hsplit := List.takeWhile_append_dropWhile
        (p := fun r : TxiRec => decide ((r.height : Int) ≤ upTo)) (l := d.tail)
      rw [← hsplit] at hr
      rcases List.mem_append.mp hr with hfront | hback
      · exact absurd (by simpa using List.mem_takeWhile_imp hfront) hlow
      · exact .inl hback

end TxiDisk

/-! ## Runs -/

namespace TxIndex

variable {s : TxIndex}

/-- The watermark is never above what was followed. -/
structure Sound (s : TxIndex) : Prop where
  disk : s.disk.Sound
  covered : ∀ c, s.covered = some c → -1 ≤ c ∧ c ≤ s.disk.followed

theorem Sound.complete (hs : s.Sound) : s.Complete := by
  intro c hc h blk hh hblk
  exact hs.disk.tail h blk (hh.trans (hs.covered c hc).2) hblk

theorem Sound.store (hs : s.Sound) (blk : List TxPlace) : (s.move (.store blk)).Sound := by
  have hd := hs.disk
  have hold : ∀ {h : Nat} {b : List TxPlace}, (h : Int) ≤ s.disk.followed →
      (s.disk.archive ++ [blk])[h]? = some b → s.disk.archive[h]? = some b := by
    intro h b hh hb
    have hle := hd.followed_le
    unfold TxiDisk.tip at hle
    rwa [List.getElem?_append_left (by omega)] at hb
  refine ⟨⟨hd.runs_le, ?_, hd.lower, ?_, ?_⟩, hs.covered⟩
  · have hle := hd.followed_le
    simp only [TxiDisk.tip, move, List.length_append, List.length_singleton] at hle ⊢
    omega
  · exact fun h b hh hb => hd.runs h b hh (hold (hh.trans hd.runs_le) hb)
  · exact fun h b hh hb => hd.tail h b hh (hold hh hb)

theorem Sound.truncate (hs : s.Sound) {tip : Nat} (htip : s.disk.runsTo ≤ tip) :
    (s.move (.truncate tip)).Sound := by
  have hd := hs.disk
  have hold : ∀ {h : Nat} {b : List TxPlace}, (s.disk.archive.take (tip + 1))[h]? = some b →
      s.disk.archive[h]? = some b := by
    intro h b hb
    rw [List.getElem?_take] at hb
    split_ifs at hb
    exact hb
  have hfollowed := hd.followed_le
  refine ⟨⟨le_min hd.runs_le htip, ?_, hd.lower, ?_, ?_⟩, fun c hc => ?_⟩
  · simp only [TxiDisk.tip, move, List.length_take] at hfollowed ⊢
    omega
  · exact fun h b hh hb => hd.runs h b hh (hold hb)
  · exact fun h b hh hb => hd.tail h b (hh.trans (min_le_left _ _)) (hold hb)
  · obtain ⟨c', hc', rfl⟩ := Option.map_eq_some_iff.mp hc
    obtain ⟨hlow, hle⟩ := hs.covered c' hc'
    have hlower := hd.lower
    simp only [txitOnTruncate, TxiDisk.tip, move, List.length_take] at hfollowed ⊢
    split_ifs <;> omega

theorem Sound.commitRun (hs : s.Sound) {upTo : Nat} (hupTo : upTo < s.disk.archive.length) :
    (s.move (.commitRun upTo)).Sound := by
  have hd := hs.disk
  have hruns : ∀ (h : Nat) (blk : List TxPlace), (h : Int) ≤ max s.disk.runsTo upTo →
      s.disk.archive[h]? = some blk → ∀ t ∈ blk,
        txitEmit h t ∈ s.disk.runs ++ runRecords s.disk upTo := by
    intro h blk hh hblk t ht
    by_cases hold : (h : Int) ≤ s.disk.runsTo
    · exact List.mem_append_left _ (hd.runs h blk hold hblk t ht)
    · -- the new run has the blocks behind the old ones
      have hlower := hd.lower
      apply List.mem_append_right
      refine List.mem_flatMap.mpr ⟨(blk, h), ?_, List.mem_map_of_mem ht⟩
      rw [List.mem_iff_getElem?]
      refine ⟨h - (s.disk.runsTo + 1).toNat, ?_⟩
      have hplace : (s.disk.runsTo + 1).toNat + (h - (s.disk.runsTo + 1).toNat) = h := by omega
      rw [List.getElem?_drop, hplace, List.getElem?_zipIdx, List.getElem?_take,
        if_pos (by omega), hblk]
      simp
  refine ⟨⟨?_, ?_, ?_, hruns, ?_⟩, fun c hc => ?_⟩
  · exact max_le_max_right _ hd.runs_le
  · have hfollowed := hd.followed_le
    simp only [TxiDisk.tip, move] at hfollowed ⊢
    omega
  · exact hd.lower.trans (le_max_left _ _)
  · intro h blk hh hblk t ht
    by_cases hold : (h : Int) ≤ s.disk.followed
    · exact (hd.tail h blk hold hblk t ht).imp_right fun hmem => List.mem_append_left _ hmem
    · refine .inr (hruns h blk ?_ hblk t ht)
      simp only [move] at hh
      omega
  · obtain ⟨hlow, hle⟩ := hs.covered c hc
    exact ⟨hlow, hle.trans (le_max_left _ _)⟩

/-- Every disk that a call leads through is in order, and so is the watermark behind it. -/
theorem Sound.perform (hs : s.Sound) {c : TxiCall} (hallowed : s.Allowed (.call c))
    (hstale : s.NoStaleTop (.call c)) :
    Along TxiDisk.write (fun d' => d'.Sound ∧ d'.archive = s.disk.archive) s.disk
        (s.perform c).1 ∧
      ∀ w, (s.perform c).2 = some w →
        -1 ≤ w ∧ w ≤ ((s.perform c).1.foldl TxiDisk.write s.disk).followed := by
  cases c with
  | boot =>
      obtain ⟨halong, hlow, hle⟩ := hs.disk.boot hstale
      refine ⟨halong, fun w hw => ?_⟩
      cases hw
      exact ⟨hlow, hle⟩
  | onBlock h =>
      unfold TxIndex.perform
      cases hc : s.covered with
      | none => exact ⟨⟨hs.disk, rfl⟩, nofun⟩
      | some c =>
          obtain ⟨hlow, hle⟩ := hs.covered c hc
          obtain ⟨halong, hlow', hle'⟩ := hs.disk.onBlock hlow hle h
          refine ⟨halong, fun w hw => ?_⟩
          cases hw
          exact ⟨hlow', hle'⟩
  | runsAdvanced upTo =>
      unfold TxIndex.perform
      cases hc : s.covered with
      | none => exact ⟨⟨hs.disk, rfl⟩, nofun⟩
      | some c =>
          obtain ⟨halong, hsame⟩ := hs.disk.runsAdvanced hallowed
          refine ⟨halong, fun w hw => ?_⟩
          cases hw
          simp only [hsame]
          exact hs.covered c hc

theorem Sound.move (hs : s.Sound) {mv : TxiMove} (hallowed : s.Allowed mv)
    (hstale : s.NoStaleTop mv) : (s.move mv).Sound := by
  cases mv with
  | store blk => exact hs.store blk
  | truncate tip => exact hs.truncate hallowed
  | commitRun upTo => exact hs.commitRun hallowed
  | call c =>
      obtain ⟨halong, hcovered⟩ := hs.perform hallowed hstale
      exact ⟨halong.whole.1, hcovered⟩
  | dieIn c k =>
      obtain ⟨halong, -⟩ := hs.perform (c := c) (by cases c <;> exact hallowed)
        (by cases c <;> exact hstale)
      exact ⟨(halong.take k).1, nofun⟩

theorem Sound.run (hs : s.Sound) {moves : List TxiMove} (hallowed : s.AllowedMoves moves)
    (hstale : s.NoStaleBoots moves) : (s.run moves).Sound := by
  induction moves generalizing s with
  | nil => exact hs
  | cons mv moves ih => exact ih (hs.move hallowed.1 hstale.1) hallowed.2 hstale.2

theorem sound_start : start.Sound where
  disk := ⟨by decide, by decide, by decide, nofun, nofun⟩
  covered := nofun

end TxIndex

theorem complete_of_noStaleBoots (moves : List TxiMove)
    (hallowed : TxIndex.start.AllowedMoves moves)
    (hstale : TxIndex.start.NoStaleBoots moves) : (TxIndex.start.run moves).Complete :=
  (TxIndex.sound_start.run hallowed hstale).complete

/-! ## A stale record -/

/-- A block with one transaction. -/
def oneTx (tag : UInt8) : List TxPlace := [⟨Txid.ofBytes [tag], 81, 100⟩]

theorem complete_after_restart :
    (TxIndex.start.run [.store (oneTx 1), .store (oneTx 2), .call .boot, .truncate 0,
      .store (oneTx 3), .call (.onBlock 1), .dieIn (.onBlock 2) 0, .call .boot]).Complete := by
  apply complete_of_noStaleBoots <;> decide

/-- Two blocks are left for one, and the process restarts before the index has it. -/
def staleMoves : List TxiMove :=
  [.store (oneTx 1), .store (oneTx 2), .store (oneTx 3), .call .boot, .truncate 0,
    .dieIn (.onBlock 1) 0, .store (oneTx 4), .call .boot]

theorem not_complete_stale :
    TxIndex.start.AllowedMoves staleMoves ∧ ¬ (TxIndex.start.run staleMoves).Complete := by
  refine ⟨by decide, fun h => ?_⟩
  have hrec := h 2 (by decide) 1 (oneTx 4) (by decide) (by decide)
    ⟨Txid.ofBytes [4], 81, 100⟩ List.mem_cons_self
  revert hrec
  decide

end BitcoinMachineCode.Storage
