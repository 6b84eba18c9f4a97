import BitcoinMachineCode.Storage.UndoStore

/-!
# The undo writer

The writer of `daemon/undo_log.c`: one open `rev` file and one run at a time.
Every write says how much of it landed, so that the partial records a failing
disk leaves behind are states of the model like any other.
-/

namespace BitcoinMachineCode.Storage

open BitcoinMachineCode.Foundation

def undoRevMax : Nat := 134217728

structure Slot where
  file : Nat
  off : Nat
  deriving DecidableEq

/-- The `rev` files (a missing one is empty), the slots of `undo.idx` up to
its end, the current file of its header, and the height and file of the open
run. -/
structure UndoStore where
  rev : Nat → List UInt8
  idx : Nat → Option Slot
  idxEnd : Nat
  idx_end : ∀ h, idxEnd ≤ h → idx h = none
  curFile : Nat
  fd : Option (Nat × Nat)

/-- How much of a write landed: all of it, or the first `n` bytes. -/
inductive Written where
  | whole
  | short (n : Nat)
  deriving DecidableEq

namespace UndoStore

/-- A new data directory. -/
def empty : UndoStore := ⟨fun _ => [], fun _ => none, 0, fun _ _ => rfl, 0, none⟩

/-! ## The operations -/

def undoExists (d : UndoStore) (h : Nat) : Bool := (d.idx h).isSome

/-- `us_read_run`: the whole records of the run, and the torn flag. -/
def usReadRun (d : UndoStore) (h : Nat) : List UndoRec × Bool :=
  match d.idx h with
  | none => ([], false)
  | some s => scan undoNext ((d.rev s.file).drop s.off)

/-- `undo_replay`: nothing of a torn run. -/
def undoReplay (d : UndoStore) (h : Nat) : Option (List UndoRec) :=
  let run := d.usReadRun h
  if run.2 then none else some run.1

/-- `undo_replay_tolerant`: a torn tail ends the run. -/
def undoReplayTolerant (d : UndoStore) (h : Nat) : List UndoRec :=
  (d.usReadRun h).1

/-- An `O_APPEND` write. -/
def write (d : UndoStore) (file : Nat) (bytes : List UInt8) : UndoStore :=
  { d with rev := Function.update d.rev file (d.rev file ++ bytes) }

def undoCloseCurrent (d : UndoStore) : UndoStore := { d with fd := none }

def usSlotPut (d : UndoStore) (h : Nat) (s : Slot) : UndoStore :=
  { d with
    idx := Function.update d.idx h (some s)
    idxEnd := max d.idxEnd (h + 1)
    idx_end := by
      intro k hk
      rw [Function.update_of_ne (by omega)]
      exact d.idx_end k (by omega) }

def usSlotClear (d : UndoStore) (h : Nat) : UndoStore :=
  { d with
    idx := Function.update d.idx h none
    idx_end := by
      intro k hk
      by_cases hkh : k = h
      · rw [hkh, Function.update_self]
      · rw [Function.update_of_ne hkh]
        exact d.idx_end k hk }

/-- The second half of `undo_fd_for`: reuse the height's slot, or register the
run at the end of the current file. -/
def openRun (d : UndoStore) (h : Nat) : UndoStore :=
  match d.idx h with
  | some s => { d with fd := some (h, s.file) }
  | none =>
      let sz := (d.rev d.curFile).length
      if undoRevMax ≤ sz then
        { d.usSlotPut h ⟨d.curFile + 1, 0⟩ with
          curFile := d.curFile + 1
          fd := some (h, d.curFile + 1) }
      else
        { d.usSlotPut h ⟨d.curFile, sz⟩ with fd := some (h, d.curFile) }

/-- `undo_fd_for`: a run left open for another height is closed with END. -/
def undoFdFor (d : UndoStore) (h : Nat) : UndoStore :=
  match d.fd with
  | none => d.openRun h
  | some (h', file) =>
      if h' = h then d
      else ((d.write file (usMakeEnd h')).undoCloseCurrent).openRun h

def undoBegin (d : UndoStore) (h : Nat) : UndoStore := d.undoFdFor h

/-- `undo_append_record`: a short write closes the file and fails. -/
def undoAppendRecord (d : UndoStore) (h : Nat) (r : UndoRec) (w : Written) :
    UndoStore × Bool :=
  let d := d.undoFdFor h
  match d.fd with
  | none => (d, false)
  | some (_, file) =>
      match w with
      | .whole => (d.write file r.encode, true)
      | .short n => ((d.write file (r.encode.take n)).undoCloseCurrent, false)

def undoCommit (d : UndoStore) (h : Nat) (w : Written) : UndoStore × Bool :=
  let d := d.undoFdFor h
  match d.fd with
  | none => (d, false)
  | some (_, file) =>
      match w with
      | .whole => ((d.write file (usMakeEnd h)).undoCloseCurrent, true)
      | .short n =>
          ((d.write file ((usMakeEnd h).take n)).undoCloseCurrent, false)

/-- `undo_discard`: the hook drains and syncs the coin log first; when it
fails the slot stays. -/
def undoDiscard (d : UndoStore) (h : Nat) (hookOk : Bool) : UndoStore :=
  let d := if (d.fd.map Prod.fst) = some h then d.undoCloseCurrent else d
  if d.undoExists h && !hookOk then d
  else d.usSlotClear h

/-! ## Runs -/

/-- Files past the current one are not there yet, and no slot and no open run
is in one. -/
structure WellFormed (d : UndoStore) : Prop where
  rev_eq_nil : ∀ f, d.curFile < f → d.rev f = []
  slot_le : ∀ h s, d.idx h = some s → s.file ≤ d.curFile
  fd_le : ∀ h f, d.fd = some (h, f) → f ≤ d.curFile

theorem wellFormed_empty : empty.WellFormed :=
  ⟨fun _ _ => rfl, fun _ _ h => by simp [empty] at h,
    fun _ _ h => by simp [empty] at h⟩

theorem WellFormed.undoCloseCurrent {d : UndoStore} (hd : d.WellFormed) :
    d.undoCloseCurrent.WellFormed :=
  ⟨hd.rev_eq_nil, hd.slot_le, fun _ _ h => by cases h⟩

theorem WellFormed.usSlotClear {d : UndoStore} (hd : d.WellFormed) (h : Nat) :
    (d.usSlotClear h).WellFormed := by
  refine ⟨hd.rev_eq_nil, ?_, hd.fd_le⟩
  intro k s hs
  by_cases hk : k = h
  · simp [UndoStore.usSlotClear, hk] at hs
  · simp only [UndoStore.usSlotClear, Function.update_of_ne hk] at hs
    exact hd.slot_le k s hs

theorem WellFormed.undoDiscard {d : UndoStore} (hd : d.WellFormed) (h : Nat)
    (hookOk : Bool) : (d.undoDiscard h hookOk).WellFormed := by
  simp only [UndoStore.undoDiscard]
  split_ifs
  · exact hd.undoCloseCurrent
  · exact hd.undoCloseCurrent.usSlotClear h
  · exact hd
  · exact hd.usSlotClear h

theorem WellFormed.write {d : UndoStore} (hd : d.WellFormed) {file : Nat}
    (hfile : file ≤ d.curFile) (bytes : List UInt8) :
    (d.write file bytes).WellFormed := by
  refine ⟨?_, hd.slot_le, hd.fd_le⟩
  intro f hf
  have hne : f ≠ file := by
    change d.curFile < f at hf
    omega
  simp only [UndoStore.write, Function.update_of_ne hne]
  exact hd.rev_eq_nil f hf

theorem WellFormed.openRun {d : UndoStore} (hd : d.WellFormed) (h : Nat) :
    (d.openRun h).WellFormed := by
  simp only [UndoStore.openRun]
  split
  · rename_i s hs
    refine ⟨hd.rev_eq_nil, hd.slot_le, ?_⟩
    rintro _ _ ⟨⟩
    exact hd.slot_le h s hs
  · have hslot : ∀ file off, d.curFile ≤ file → ∀ k s,
        (d.usSlotPut h ⟨file, off⟩).idx k = some s → s.file ≤ file := by
      intro file off hle k s hs
      by_cases hk : k = h
      · simp only [usSlotPut, hk, Function.update_self, Option.some.injEq] at hs
        rw [← hs]
      · simp only [usSlotPut, Function.update_of_ne hk] at hs
        exact (hd.slot_le k s hs).trans hle
    split
    · refine ⟨?_, hslot _ 0 (Nat.le_succ _), ?_⟩
      · intro f hf
        exact hd.rev_eq_nil f (Nat.lt_of_succ_lt hf)
      · rintro _ _ ⟨⟩
        exact le_rfl
    · refine ⟨hd.rev_eq_nil, hslot _ _ le_rfl, ?_⟩
      rintro _ _ ⟨⟩
      exact le_rfl

theorem WellFormed.undoFdFor {d : UndoStore} (hd : d.WellFormed) (h : Nat) :
    (d.undoFdFor h).WellFormed := by
  rw [UndoStore.undoFdFor]
  split
  · exact hd.openRun h
  · rename_i h' file hfd
    split
    · exact hd
    · exact ((hd.write (hd.fd_le _ _ hfd) _).undoCloseCurrent).openRun h

theorem WellFormed.undoAppendRecord {d : UndoStore} (hd : d.WellFormed)
    (h : Nat) (r : UndoRec) (w : Written) :
    (d.undoAppendRecord h r w).1.WellFormed := by
  have hfd := hd.undoFdFor h
  simp only [UndoStore.undoAppendRecord]
  split
  · exact hfd
  · rename_i h' file hopen
    have hle := hfd.fd_le _ _ hopen
    cases w with
    | whole => exact hfd.write hle _
    | short n => exact (hfd.write hle _).undoCloseCurrent

theorem WellFormed.undoCommit {d : UndoStore} (hd : d.WellFormed) (h : Nat)
    (w : Written) : (d.undoCommit h w).1.WellFormed := by
  have hfd := hd.undoFdFor h
  simp only [UndoStore.undoCommit]
  split
  · exact hfd
  · rename_i h' file hopen
    have hle := hfd.fd_le _ _ hopen
    cases w with
    | whole => exact (hfd.write hle _).undoCloseCurrent
    | short n => exact (hfd.write hle _).undoCloseCurrent

theorem undoDiscard_fd {d : UndoStore} (hfd : d.fd = none) (h : Nat)
    (hookOk : Bool) : (d.undoDiscard h hookOk).fd = none := by
  simp only [undoDiscard, hfd, Option.map_none, reduceCtorEq, if_false]
  split_ifs <;> exact hfd

theorem undoDiscard_idx (d : UndoStore) (h : Nat) :
    (d.undoDiscard h true).idx h = none := by
  simp [undoDiscard, usSlotClear]

/-- The bytes a reader of height `h` sees. -/
def HasRun (d : UndoStore) (h : Nat) (bytes : List UInt8) : Prop :=
  ∃ s, d.idx h = some s ∧ s.off ≤ (d.rev s.file).length ∧
    (d.rev s.file).drop s.off = bytes

/-- A run at the end of its file, which is open for it or not at all: what is
appended for `h` continues it. -/
def Writing (d : UndoStore) (h : Nat) (bytes : List UInt8) : Prop :=
  ∃ s, d.idx h = some s ∧ (d.fd = none ∨ d.fd = some (h, s.file)) ∧
    s.off ≤ (d.rev s.file).length ∧ (d.rev s.file).drop s.off = bytes

theorem Writing.hasRun {d : UndoStore} {h : Nat} {bytes : List UInt8}
    (hw : d.Writing h bytes) : d.HasRun h bytes := by
  obtain ⟨s, hs, -, hoff, hbytes⟩ := hw
  exact ⟨s, hs, hoff, hbytes⟩

theorem HasRun.usReadRun {d : UndoStore} {h : Nat} {bytes : List UInt8}
    (hr : d.HasRun h bytes) : d.usReadRun h = scan undoNext bytes := by
  obtain ⟨s, hs, -, hbytes⟩ := hr
  rw [UndoStore.usReadRun, hs]
  simp only [hbytes]

theorem HasRun.undoExists {d : UndoStore} {h : Nat} {bytes : List UInt8}
    (hr : d.HasRun h bytes) : d.undoExists h = true := by
  obtain ⟨s, hs, -⟩ := hr
  rw [UndoStore.undoExists, hs]
  rfl

@[simp] theorem usReadRun_undoCloseCurrent (d : UndoStore) (h : Nat) :
    d.undoCloseCurrent.usReadRun h = d.usReadRun h := rfl

theorem Writing.undoCloseCurrent {d : UndoStore} {h : Nat}
    {bytes : List UInt8} (hw : d.Writing h bytes) :
    d.undoCloseCurrent.Writing h bytes := by
  obtain ⟨s, hs, -, hoff, hbytes⟩ := hw
  exact ⟨s, hs, Or.inl rfl, hoff, hbytes⟩

/-- Reaching the run's file changes nothing but the descriptor. -/
theorem Writing.undoFdFor {d : UndoStore} {h : Nat} {bytes : List UInt8}
    (hw : d.Writing h bytes) :
    ∃ s, d.idx h = some s ∧
      d.undoFdFor h = { d with fd := some (h, s.file) } := by
  obtain ⟨s, hs, hfd, -⟩ := hw
  refine ⟨s, hs, ?_⟩
  rcases hfd with hfd | hfd
  · simp [UndoStore.undoFdFor, hfd, openRun, hs]
  · simp only [UndoStore.undoFdFor, hfd, if_true]
    rw [← hfd]

/-- Bytes appended to the run's file continue the run. -/
theorem Writing.write {d : UndoStore} {h : Nat} {bytes : List UInt8}
    (hw : d.Writing h bytes) {s : Slot} (hs : d.idx h = some s)
    (more : List UInt8) :
    ({ d with fd := some (h, s.file) }.write s.file more).Writing h
      (bytes ++ more) := by
  obtain ⟨s', hs', -, hoff, hbytes⟩ := hw
  rw [hs] at hs'
  cases hs'
  refine ⟨s, hs, Or.inr rfl, ?_, ?_⟩
  · simp only [UndoStore.write, Function.update_self, List.length_append]
    omega
  · simp only [UndoStore.write, Function.update_self]
    rw [List.drop_append_of_le_length hoff, hbytes]

theorem Writing.undoAppendRecord_whole {d : UndoStore} {h : Nat}
    {bytes : List UInt8} (hw : d.Writing h bytes) (r : UndoRec) :
    (d.undoAppendRecord h r .whole).1.Writing h (bytes ++ r.encode) := by
  obtain ⟨s, hs, hfd⟩ := hw.undoFdFor
  simp only [undoAppendRecord, hfd]
  exact hw.write hs r.encode

theorem Writing.undoAppendRecord_short {d : UndoStore} {h : Nat}
    {bytes : List UInt8} (hw : d.Writing h bytes) (r : UndoRec) (n : Nat) :
    (d.undoAppendRecord h r (.short n)).1.Writing h
      (bytes ++ r.encode.take n) := by
  obtain ⟨s, hs, hfd⟩ := hw.undoFdFor
  simp only [undoAppendRecord, hfd]
  exact (hw.write hs (r.encode.take n)).undoCloseCurrent

/-- Committing closes the run with the END marker. -/
theorem Writing.undoCommit_whole {d : UndoStore} {h : Nat}
    {bytes : List UInt8} (hw : d.Writing h bytes) :
    (d.undoCommit h .whole).2 = true ∧
      (d.undoCommit h .whole).1.HasRun h (bytes ++ usMakeEnd h) := by
  obtain ⟨s, hs, hfd⟩ := hw.undoFdFor
  simp only [undoCommit, hfd, true_and]
  exact (hw.write hs (usMakeEnd h)).undoCloseCurrent.hasRun

/-- A fresh run starts empty, at the end of its file. -/
theorem writing_undoBegin {d : UndoStore} (hd : d.WellFormed) {h : Nat}
    (hidx : d.idx h = none) (hfd : d.fd = none) :
    (d.undoBegin h).Writing h [] := by
  simp only [undoBegin, undoFdFor, hfd, openRun, hidx]
  split
  · refine ⟨⟨d.curFile + 1, 0⟩, by simp [usSlotPut], Or.inr rfl,
      Nat.zero_le _, ?_⟩
    simp [usSlotPut, hd.rev_eq_nil (d.curFile + 1) (by omega)]
  · exact ⟨⟨d.curFile, (d.rev d.curFile).length⟩, by simp [usSlotPut],
      Or.inr rfl, le_rfl, by simp [usSlotPut]⟩

/-- A committed run reads back as its records. -/
theorem HasRun.usReadRun_committed {d : UndoStore} {h : Nat}
    {recs : List UndoRec}
    (hr : d.HasRun h (encodeAll UndoRec.encode recs ++ usMakeEnd h)) :
    d.usReadRun h = (recs, false) := by
  have hend := undoNext_end h []
  rw [hr.usReadRun, ← List.append_nil (usMakeEnd h)]
  exact undo_framed.scan_stopped recs hend

/-- An open run reads back as its records too. -/
theorem HasRun.usReadRun_open {d : UndoStore} {h : Nat} {recs : List UndoRec}
    (hr : d.HasRun h (encodeAll UndoRec.encode recs)) :
    d.usReadRun h = (recs, false) := by
  rw [hr.usReadRun]
  exact undo_framed.scan_whole recs

/-- A run cut inside a record is torn after the records before it. -/
theorem HasRun.usReadRun_cut {d : UndoStore} {h : Nat} {recs : List UndoRec}
    {r : UndoRec} {n : Nat} (hpos : 0 < n) (hlt : n < r.encode.length)
    (hr : d.HasRun h (encodeAll UndoRec.encode recs ++ r.encode.take n)) :
    d.usReadRun h = (recs, true) := by
  rw [hr.usReadRun]
  exact undo_framed.scan_cut recs r n hpos hlt

end UndoStore

end BitcoinMachineCode.Storage
