import BitcoinMachineCode.Storage.UndoLog

/-!
# Pruning the undo store

`us_prune_below` removes the `rev` files before the one of the lowest kept
height, and stops looking there: "runs are appended in height order".  Where
runs are filed in height order no kept run loses its file.  The migration of
the per-height files walks the directory in whatever order `readdir` gives, so
a run can be filed behind a lower one, and then its file is removed.
-/

namespace BitcoinMachineCode.Storage

open BitcoinMachineCode.Foundation

namespace UndoStore

/-! ## Pruning and migration -/

/-- The first slot at or above `keepFrom`, up to the end of `undo.idx`. -/
def firstKept (d : UndoStore) (keepFrom : Nat) : Option Slot :=
  (List.range' keepFrom (d.idxEnd - keepFrom)).findSome? d.idx

def minKeepFile (d : UndoStore) (keepFrom : Nat) : Nat :=
  match d.firstKept keepFrom with
  | none => d.curFile
  | some s => if s.file < d.curFile then s.file else d.curFile

def usPruneBelow (d : UndoStore) (keepFrom : Nat) : UndoStore :=
  { d with
    rev := fun f => if f < d.minKeepFile keepFrom then [] else d.rev f
    idx := fun h => if h < keepFrom then none else d.idx h
    idx_end := by
      intro h hh
      simp only [d.idx_end h hh, ite_self] }

def undoPruneBelow (d : UndoStore) (keepFrom : Nat) : UndoStore :=
  if 0 < keepFrom then d.undoCloseCurrent.usPruneBelow keepFrom
  else d.undoCloseCurrent

/-- `undo_wipe`: `undo.idx` and every `rev` file are removed. -/
def undoWipe (_ : UndoStore) : UndoStore := empty

/-- Where the next run is registered: the end of the current file, or the next
file when that one is full. -/
def nextSlot (d : UndoStore) : Slot :=
  if undoRevMax ≤ (d.rev d.curFile).length then ⟨d.curFile + 1, 0⟩
  else ⟨d.curFile, (d.rev d.curFile).length⟩

/-- `us_append_run`: a whole run with its END marker, of which `w` landed. -/
def usAppendRun (d : UndoStore) (h : Nat) (recs : List UInt8) (w : Written) :
    UndoStore :=
  let bytes := recs ++ usMakeEnd h
  { d.usSlotPut h d.nextSlot with curFile := d.nextSlot.file }.write
    d.nextSlot.file
    (match w with
      | .whole => bytes
      | .short n => bytes.take n)

/-- The whole records a legacy file starts with. -/
def wholeRecords : Nat → List UInt8 → List UInt8
  | 0, _ => []
  | fuel + 1, bytes =>
      let len := undoRecHdr + leVal (field bytes 49 2)
      if bytes.length < undoRecHdr then []
      else if maxScriptSize < leVal (field bytes 49 2) ∨ bytes.length < len then []
      else bytes.take len ++ wholeRecords fuel (bytes.drop len)

/-- One turn of the loop of `undo_migrate_legacy`: the directory entry
`undo_<h>.dat` with the bytes it holds. -/
def undoMigrateLegacy (d : UndoStore) (h : Nat) (file : List UInt8)
    (w : Written) : UndoStore :=
  if d.undoExists h then d
  else d.usAppendRun h (wholeRecords file.length file) w

end UndoStore

/-- What is done to the store: the writer's calls, the process ending with a
run open, a legacy file folded in, a prune and a wipe. -/
inductive UndoOp where
  | begin (h : Nat)
  | append (h : Nat) (r : UndoRec) (w : Written)
  | commit (h : Nat) (w : Written)
  | discard (h : Nat) (hookOk : Bool)
  | close
  | migrate (h : Nat) (file : List UInt8) (w : Written)
  | prune (keepFrom : Nat)
  | wipe

namespace UndoStore

def perform (d : UndoStore) : UndoOp → UndoStore
  | .begin h => d.undoBegin h
  | .append h r w => (d.undoAppendRecord h r w).1
  | .commit h w => (d.undoCommit h w).1
  | .discard h hookOk => d.undoDiscard h hookOk
  | .close => d.undoCloseCurrent
  | .migrate h file w => d.undoMigrateLegacy h file w
  | .prune keepFrom => d.undoPruneBelow keepFrom
  | .wipe => d.undoWipe

def run (ops : List UndoOp) : UndoStore := ops.foldl perform empty

/-! ## Runs filed in height order -/

/-- No height above `h` has its run in a file before that of `s`. -/
def NotBehind (d : UndoStore) (h : Nat) (s : Slot) : Prop :=
  ∀ h' s', h < h' → d.idx h' = some s' → s.file ≤ s'.file

/-- A run registered by the operation goes to a file that is not behind the
run of any higher height. -/
def FiledInOrder (d : UndoStore) : UndoOp → Prop
  | .begin h | .append h _ _ | .commit h _ =>
      ∀ s, (d.undoFdFor h).idx h = some s → d.NotBehind h s
  | .migrate h _ _ => d.idx h = none → d.NotBehind h d.nextSlot
  | .discard _ _ | .close | .prune _ | .wipe => True

/-- Every operation of a history registers its run in height order. -/
def FiledAll (d : UndoStore) : List UndoOp → Prop
  | [] => True
  | op :: ops => d.FiledInOrder op ∧ (d.perform op).FiledAll ops

/-- A prune leaves the slot of every kept height, the file it points into and
the run read from it. -/
def PruneKeeps (d : UndoStore) (keepFrom : Nat) : Prop :=
  ∀ h, keepFrom ≤ h →
    (d.undoPruneBelow keepFrom).idx h = d.idx h ∧
    (∀ s, d.idx h = some s →
      (d.undoPruneBelow keepFrom).rev s.file = d.rev s.file) ∧
    (d.undoPruneBelow keepFrom).usReadRun h = d.usReadRun h

/-- The invariant: runs are in files in the order of their heights. -/
structure Filed (d : UndoStore) : Prop where
  wellFormed : d.WellFormed
  mono : ∀ h h' s s', h < h' → d.idx h = some s → d.idx h' = some s' →
    s.file ≤ s'.file

variable {d d' : UndoStore}

theorem filed_empty : empty.Filed :=
  ⟨wellFormed_empty, fun _ _ _ _ _ h => by simp [empty] at h⟩

/-- Slots may go. -/
theorem Filed.subset (hd : d.Filed) (hwf : d'.WellFormed)
    (hidx : ∀ h s, d'.idx h = some s → d.idx h = some s) : d'.Filed :=
  ⟨hwf, fun h h' s s' hlt hs hs' =>
    hd.mono h h' s s' hlt (hidx h s hs) (hidx h' s' hs')⟩

/-- One slot may come, in the current file or behind it. -/
theorem Filed.update (hd : d.Filed) (hwf : d'.WellFormed) {h : Nat} {s : Slot}
    (hidx : d'.idx = Function.update d.idx h (some s))
    (hcur : d.curFile ≤ s.file) (hnot : d.NotBehind h s) : d'.Filed := by
  refine ⟨hwf, fun k k' t t' hlt ht ht' => ?_⟩
  rw [hidx] at ht ht'
  by_cases hk : k = h
  · subst hk
    rw [Function.update_self, Option.some.injEq] at ht
    rw [Function.update_of_ne (by omega)] at ht'
    subst ht
    exact hnot k' t' hlt ht'
  · rw [Function.update_of_ne hk] at ht
    by_cases hk' : k' = h
    · subst hk'
      rw [Function.update_self, Option.some.injEq] at ht'
      subst ht'
      exact (hd.wellFormed.slot_le k t ht).trans hcur
    · rw [Function.update_of_ne hk'] at ht'
      exact hd.mono k k' t t' hlt ht ht'

/-- Reaching a height's run changes no slot, or registers the height behind
everything there is. -/
theorem undoFdFor_registers (d : UndoStore) (h : Nat) :
    (d.undoFdFor h).idx = d.idx ∨
      ∃ s, (d.undoFdFor h).idx = Function.update d.idx h (some s) ∧
        d.curFile ≤ s.file := by
  have hopen : ∀ d' : UndoStore, d'.idx = d.idx → d'.curFile = d.curFile →
      (d'.openRun h).idx = d.idx ∨
        ∃ s, (d'.openRun h).idx = Function.update d.idx h (some s) ∧
          d.curFile ≤ s.file := by
    intro d' hidx hcur
    simp only [openRun]
    split
    · exact Or.inl hidx
    · right
      split
      · exact ⟨⟨d'.curFile + 1, 0⟩, by rw [← hidx]; rfl, by simp [hcur]⟩
      · exact ⟨⟨d'.curFile, _⟩, by rw [← hidx]; rfl, by simp [hcur]⟩
  simp only [undoFdFor]
  split
  · exact hopen d rfl rfl
  · split
    · exact Or.inl rfl
    · exact hopen _ rfl rfl

theorem Filed.undoFdFor (hd : d.Filed) {h : Nat}
    (hord : ∀ s, (d.undoFdFor h).idx h = some s → d.NotBehind h s) :
    (d.undoFdFor h).Filed := by
  have hwf := hd.wellFormed.undoFdFor h
  rcases undoFdFor_registers d h with hidx | ⟨s, hidx, hcur⟩
  · exact hd.subset hwf fun k s hs => by rwa [hidx] at hs
  · exact hd.update hwf hidx hcur (hord s (by rw [hidx, Function.update_self]))

theorem undoAppendRecord_slots (d : UndoStore) (h : Nat) (r : UndoRec)
    (w : Written) : (d.undoAppendRecord h r w).1.idx = (d.undoFdFor h).idx := by
  simp only [undoAppendRecord]
  split
  · rfl
  · cases w <;> rfl

theorem undoCommit_slots (d : UndoStore) (h : Nat) (w : Written) :
    (d.undoCommit h w).1.idx = (d.undoFdFor h).idx := by
  simp only [undoCommit]
  split
  · rfl
  · cases w <;> rfl

theorem undoDiscard_subset (d : UndoStore) (h : Nat) (hookOk : Bool) (k : Nat)
    (s : Slot) (hs : (d.undoDiscard h hookOk).idx k = some s) :
    d.idx k = some s := by
  have hclear : ∀ d' : UndoStore, d'.idx = d.idx →
      (d'.usSlotClear h).idx k = some s → d.idx k = some s := by
    intro d' hidx hs
    by_cases hk : k = h
    · simp [usSlotClear, hk] at hs
    · simp only [usSlotClear, Function.update_of_ne hk, hidx] at hs
      exact hs
  simp only [undoDiscard] at hs
  split_ifs at hs
  · exact hs
  · exact hclear _ rfl hs
  · exact hs
  · exact hclear _ rfl hs

theorem curFile_le_nextSlot (d : UndoStore) : d.curFile ≤ d.nextSlot.file := by
  rw [nextSlot]
  split
  · exact Nat.le_succ _
  · exact le_rfl

theorem WellFormed.usAppendRun (hd : d.WellFormed) (h : Nat)
    (recs : List UInt8) (w : Written) : (d.usAppendRun h recs w).WellFormed := by
  have hcur := d.curFile_le_nextSlot
  have hput : ({ d.usSlotPut h d.nextSlot with
      curFile := d.nextSlot.file } : UndoStore).WellFormed := by
    refine ⟨fun f hf => hd.rev_eq_nil f (hcur.trans_lt hf), ?_, ?_⟩
    · intro k s hs
      by_cases hk : k = h
      · simp only [usSlotPut, hk, Function.update_self, Option.some.injEq] at hs
        exact le_of_eq (congrArg Slot.file hs.symm)
      · simp only [usSlotPut, Function.update_of_ne hk] at hs
        exact (hd.slot_le k s hs).trans hcur
    · intro k f hfd
      exact (hd.fd_le k f hfd).trans hcur
  exact hput.write le_rfl _

theorem WellFormed.undoPruneBelow (hd : d.WellFormed) (keepFrom : Nat) :
    (d.undoPruneBelow keepFrom).WellFormed := by
  rw [UndoStore.undoPruneBelow]
  split
  · refine ⟨fun f hf => ?_, fun h s hs => ?_, fun _ _ h => by cases h⟩
    · simp only [usPruneBelow]
      split
      · rfl
      · exact hd.rev_eq_nil f hf
    · simp only [usPruneBelow] at hs
      split at hs
      · cases hs
      · exact hd.slot_le h s hs
  · exact hd.undoCloseCurrent

theorem undoPruneBelow_idx (d : UndoStore) (keepFrom h : Nat) :
    (d.undoPruneBelow keepFrom).idx h =
      if h < keepFrom then none else d.idx h := by
  rw [undoPruneBelow]
  split
  · rfl
  · rw [if_neg (by omega)]
    rfl

theorem Filed.perform (hd : d.Filed) {op : UndoOp} (hord : d.FiledInOrder op) :
    (d.perform op).Filed := by
  have hwf := hd.wellFormed
  cases op with
  | begin h => exact hd.undoFdFor hord
  | append h r w =>
      refine (hd.undoFdFor hord).subset (hwf.undoAppendRecord h r w) ?_
      intro k s hs
      rwa [UndoStore.perform, undoAppendRecord_slots] at hs
  | commit h w =>
      refine (hd.undoFdFor hord).subset (hwf.undoCommit h w) ?_
      intro k s hs
      rwa [UndoStore.perform, undoCommit_slots] at hs
  | discard h hookOk =>
      exact hd.subset (hwf.undoDiscard h hookOk) (undoDiscard_subset d h hookOk)
  | close => exact hd.subset hwf.undoCloseCurrent fun _ _ hs => hs
  | migrate h file w =>
      simp only [UndoStore.perform, undoMigrateLegacy]
      split
      · exact hd
      · rename_i hnew
        have hnone : d.idx h = none := by simpa [undoExists] using hnew
        exact hd.update (hwf.usAppendRun h _ w) rfl d.curFile_le_nextSlot
          (hord hnone)
  | prune keepFrom =>
      refine hd.subset (hwf.undoPruneBelow keepFrom) fun h s hs => ?_
      rw [UndoStore.perform, undoPruneBelow_idx] at hs
      split at hs
      · cases hs
      · exact hs
  | wipe => exact filed_empty

theorem Filed.performAll (hd : d.Filed) {ops : List UndoOp}
    (hord : d.FiledAll ops) : (ops.foldl UndoStore.perform d).Filed := by
  induction ops generalizing d with
  | nil => exact hd
  | cons op ops ih => exact ih (hd.perform hord.1) hord.2

/-! ## What a prune keeps -/

/-- The slot the scan stops at is the one of the lowest kept height. -/
theorem firstKept_lowest {keepFrom : Nat} {s : Slot}
    (hs : d.firstKept keepFrom = some s) {h : Nat} (hh : keepFrom ≤ h)
    {t : Slot} (ht : d.idx h = some t) :
    ∃ k ≤ h, d.idx k = some s := by
  rw [firstKept, List.findSome?_eq_some_iff] at hs
  obtain ⟨before, k, after, hsplit, hk, hnone⟩ := hs
  refine ⟨k, ?_, hk⟩
  by_contra hlt
  have hend : h < d.idxEnd := by
    by_contra hge
    rw [d.idx_end h (by omega)] at ht
    cases ht
  have hmem : h ∈ List.range' keepFrom (d.idxEnd - keepFrom) := by
    rw [List.mem_range'_1]
    omega
  have hsorted : (before ++ k :: after).Pairwise (· < ·) := by
    rw [← hsplit]
    exact List.pairwise_lt_range'
  rw [hsplit] at hmem
  rcases List.mem_append.mp hmem with hmem | hmem
  · rw [hnone h hmem] at ht
    cases ht
  · rcases List.mem_cons.mp hmem with rfl | hmem
    · exact hlt le_rfl
    · have htail := (List.pairwise_append.mp hsorted).2.1
      have hkh := List.rel_of_pairwise_cons htail hmem
      omega

theorem firstKept_none {keepFrom : Nat} (hnone : d.firstKept keepFrom = none)
    {h : Nat} (hh : keepFrom ≤ h) : d.idx h = none := by
  rw [firstKept, List.findSome?_eq_none_iff] at hnone
  by_cases hend : h < d.idxEnd
  · apply hnone h
    rw [List.mem_range'_1]
    omega
  · exact d.idx_end h (by omega)

theorem Filed.minKeepFile_le_slot (hd : d.Filed) {keepFrom h : Nat}
    (hh : keepFrom ≤ h) {t : Slot} (ht : d.idx h = some t) :
    d.minKeepFile keepFrom ≤ t.file := by
  rw [minKeepFile]
  cases hs : d.firstKept keepFrom with
  | none =>
      rw [firstKept_none hs hh] at ht
      cases ht
  | some s =>
      obtain ⟨k, hk, hks⟩ := firstKept_lowest hs hh ht
      have hle : s.file ≤ t.file := by
        rcases Nat.lt_or_eq_of_le hk with hlt | rfl
        · exact hd.mono k h s t hlt hks ht
        · rw [hks, Option.some.injEq] at ht
          rw [ht]
      dsimp only
      split <;> omega

theorem Filed.pruneKeeps (hd : d.Filed) (keepFrom : Nat) :
    d.PruneKeeps keepFrom := by
  intro h hh
  have hidx : (d.undoPruneBelow keepFrom).idx h = d.idx h := by
    rw [undoPruneBelow_idx, if_neg (by omega)]
  have hrev : ∀ s, d.idx h = some s →
      (d.undoPruneBelow keepFrom).rev s.file = d.rev s.file := by
    intro s hs
    rw [undoPruneBelow]
    split
    · -- the close changed neither the slots nor the current file
      have hle : d.undoCloseCurrent.minKeepFile keepFrom ≤ s.file :=
        hd.minKeepFile_le_slot hh hs
      simp only [usPruneBelow]
      rw [if_neg (by omega)]
      rfl
    · rfl
  refine ⟨hidx, hrev, ?_⟩
  rw [usReadRun, usReadRun, hidx]
  cases hs : d.idx h with
  | none => rfl
  | some s => simp only [hrev s hs]

end UndoStore

theorem undoPruneBelow_keeps_of_filed (ops : List UndoOp)
    (hord : UndoStore.empty.FiledAll ops) (keepFrom : Nat) :
    (UndoStore.run ops).PruneKeeps keepFrom :=
  (UndoStore.filed_empty.performAll hord).pruneKeeps keepFrom

def sampleMigration : List UndoOp := [.migrate 3 [] .whole, .migrate 4 [] .whole]

theorem sampleMigration_prune :
    (UndoStore.run sampleMigration).idx 4 = some ⟨0, 51⟩ ∧
      (UndoStore.run sampleMigration).PruneKeeps 4 := by
  refine ⟨by decide, undoPruneBelow_keeps_of_filed _ ?_ 4⟩
  refine ⟨fun _ h' s' _ hs => ?_, fun _ h' s' hlt hs => ?_, trivial⟩
  · simp [UndoStore.empty] at hs
  · have hne : h' ≠ 3 := by omega
    simp [UndoStore.perform, UndoStore.undoMigrateLegacy, UndoStore.undoExists,
      UndoStore.usAppendRun, UndoStore.write, UndoStore.usSlotPut,
      UndoStore.empty, hne] at hs

/-! ## A directory walked out of order -/

namespace UndoStore

theorem wholeRecords_encode (r : UndoRec) (fuel : Nat) (rest : List UInt8) :
    wholeRecords (fuel + 1) (r.encode ++ rest) =
      r.encode ++ wholeRecords fuel rest := by
  have hslen := r.slen_encode rest
  have hscript := r.coin.script_le
  have hlen : (r.encode ++ rest).length =
      undoRecHdr + r.coin.script.length + rest.length := by
    rw [List.length_append, r.length_encode]
  simp only [wholeRecords, hslen]
  rw [if_neg (by omega), if_neg (by omega), ← r.length_encode,
    List.take_left, List.drop_left]

theorem wholeRecords_encodeAll (recs : List UndoRec) {fuel : Nat}
    (hfuel : recs.length ≤ fuel) :
    wholeRecords fuel (encodeAll UndoRec.encode recs) =
      encodeAll UndoRec.encode recs := by
  induction recs generalizing fuel with
  | nil =>
      cases fuel with
      | zero => rfl
      | succ fuel => simp [wholeRecords, encodeAll, undoRecHdr]
  | cons r recs ih =>
      obtain ⟨fuel, rfl⟩ : ∃ f, fuel = f + 1 := by
        cases fuel with
        | zero => simp at hfuel
        | succ fuel => exact ⟨fuel, rfl⟩
      rw [encodeAll_cons, wholeRecords_encode, ih (by simpa using hfuel)]

end UndoStore

/-- A spent coin with the longest script a coin can have. -/
def fatRec : UndoRec :=
  ⟨nullOutpoint, ⟨0, 0, false, List.replicate maxScriptSize 0, by simp⟩⟩

/-- Enough of them to fill a `rev` file. -/
def fatRun : List UndoRec := List.replicate 13354 fatRec

theorem length_encodeAll_fat (n : Nat) :
    (encodeAll UndoRec.encode (List.replicate n fatRec)).length = n * 10051 := by
  have hrec : fatRec.encode.length = 10051 := by
    rw [UndoRec.length_encode, fatRec, List.length_replicate]
    rfl
  induction n with
  | zero => rfl
  | succ n ih =>
      rw [List.replicate_succ, encodeAll_cons, List.length_append, ih, hrec]
      omega

/-- The legacy files of heights 5 and 3, in that order. -/
def migrateDown : List UndoOp :=
  [.migrate 5 (encodeAll UndoRec.encode fatRun) .whole, .migrate 3 [] .whole]

/-- A higher run filed first, in a file it fills: the lower one is filed in the
next, and the scan that stops there takes the first file for free. -/
theorem not_pruneKeeps_of_full {file : List UInt8}
    (hfull : undoRevMax ≤ file.length)
    (hwhole : UndoStore.wholeRecords file.length file = file) :
    ¬ (UndoStore.run [.migrate 5 file .whole, .migrate 3 [] .whole]).PruneKeeps
      3 := by
  intro hkeeps
  let d₁ := UndoStore.empty.undoMigrateLegacy 5 file .whole
  have hrev₁ : d₁.rev 0 = file ++ usMakeEnd 5 := by
    simp [d₁, UndoStore.undoMigrateLegacy, UndoStore.undoExists,
      UndoStore.usAppendRun, UndoStore.write, UndoStore.usSlotPut,
      UndoStore.nextSlot, UndoStore.empty, hwhole, undoRevMax]
  have hidx₁ : d₁.idx = Function.update (fun _ => none) 5 (some ⟨0, 0⟩) := by
    simp [d₁, UndoStore.undoMigrateLegacy, UndoStore.undoExists,
      UndoStore.usAppendRun, UndoStore.write, UndoStore.usSlotPut,
      UndoStore.nextSlot, UndoStore.empty, undoRevMax]
  have hcur₁ : d₁.curFile = 0 := by
    simp [d₁, UndoStore.undoMigrateLegacy, UndoStore.undoExists,
      UndoStore.usAppendRun, UndoStore.write, UndoStore.nextSlot,
      UndoStore.empty, undoRevMax]
  have hend₁ : d₁.idxEnd = 6 := by
    simp [d₁, UndoStore.undoMigrateLegacy, UndoStore.undoExists,
      UndoStore.usAppendRun, UndoStore.write, UndoStore.usSlotPut,
      UndoStore.empty]
  have hslot : d₁.nextSlot = ⟨1, 0⟩ := by
    have hlen : undoRevMax ≤ (d₁.rev d₁.curFile).length := by
      rw [hcur₁, hrev₁, List.length_append]
      omega
    rw [UndoStore.nextSlot, if_pos hlen, hcur₁]
  let d₂ := d₁.undoMigrateLegacy 3 [] .whole
  have hnew : d₁.undoExists 3 = false := by
    simp [UndoStore.undoExists, hidx₁]
  have hidx₂ : d₂.idx =
      Function.update (Function.update (fun _ => none) 5 (some ⟨0, 0⟩)) 3
        (some ⟨1, 0⟩) := by
    simp [d₂, UndoStore.undoMigrateLegacy, hnew, UndoStore.usAppendRun,
      UndoStore.write, UndoStore.usSlotPut, hslot, hidx₁]
  have hcur₂ : d₂.curFile = 1 := by
    simp [d₂, UndoStore.undoMigrateLegacy, hnew, UndoStore.usAppendRun,
      UndoStore.write, hslot]
  have hrev₂ : d₂.rev 0 = file ++ usMakeEnd 5 := by
    simp [d₂, UndoStore.undoMigrateLegacy, hnew, UndoStore.usAppendRun,
      UndoStore.write, UndoStore.usSlotPut, hslot, hrev₁]
  have hend₂ : d₂.idxEnd = 6 := by
    simp [d₂, UndoStore.undoMigrateLegacy, hnew, UndoStore.usAppendRun,
      UndoStore.write, UndoStore.usSlotPut, hend₁]
  have hmin : d₂.undoCloseCurrent.minKeepFile 3 = 1 := by
    have hfirst : d₂.undoCloseCurrent.firstKept 3 = some ⟨1, 0⟩ := by
      simp [UndoStore.firstKept, UndoStore.undoCloseCurrent, hend₂, hidx₂,
        List.range']
    rw [UndoStore.minKeepFile, hfirst]
    simp [UndoStore.undoCloseCurrent, hcur₂]
  have hgone : (d₂.undoPruneBelow 3).rev 0 = [] := by
    simp [UndoStore.undoPruneBelow, UndoStore.usPruneBelow, hmin]
  have hkept := (hkeeps 5 (by omega)).2.1 ⟨0, 0⟩
    (by change d₂.idx 5 = _; simp [hidx₂])
  change (d₂.undoPruneBelow 3).rev 0 = d₂.rev 0 at hkept
  rw [hgone, hrev₂] at hkept
  have hlen := congrArg List.length hkept
  rw [List.length_append, length_usMakeEnd] at hlen
  simp [undoRecHdr] at hlen

theorem migrateDown_loses_run : ¬ (UndoStore.run migrateDown).PruneKeeps 3 := by
  have hlen := length_encodeAll_fat 13354
  apply not_pruneKeeps_of_full
  · rw [fatRun, hlen]
    decide
  · apply UndoStore.wholeRecords_encodeAll
    rw [fatRun, hlen, List.length_replicate]
    omega

end BitcoinMachineCode.Storage
