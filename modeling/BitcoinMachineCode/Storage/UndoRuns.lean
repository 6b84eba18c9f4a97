import BitcoinMachineCode.Storage.SlotReuse

/-!
# Sequences of undo operations

Runs of many heights share the `rev` files.  A height is written in one piece: once its run
has been closed, by a commit or because another height was written, it has to be discarded
before it is written again, for what is appended then is never read.
-/

namespace BitcoinMachineCode.Storage

open BitcoinMachineCode.Foundation

/-! ## Operations and what they record -/

inductive UndoEvent where
  | begin (h : Nat)
  | append (h : Nat) (r : UndoRec) (w : Written)
  | commit (h : Nat) (w : Written)
  | discard (h : Nat) (hookOk : Bool)

/-- For each height with an entry, the records appended since it has one, and whether they
have been committed. -/
abbrev Recorded := Nat → Option (List UndoRec × Bool)

def Recorded.records (g : Recorded) (h : Nat) : List UndoRec := ((g h).map Prod.fst).getD []

def undoStep : UndoStore × Recorded → UndoEvent → UndoStore × Recorded
  | (d, g), .begin h => (d.undoBegin h, Function.update g h (some ((g h).getD ([], false))))
  | (d, g), .append h r w =>
      let res := d.undoAppendRecord h r w
      (res.1, Function.update g h (some (g.records h ++ if res.2 then [r] else [], false)))
  | (d, g), .commit h w =>
      let res := d.undoCommit h w
      (res.1, Function.update g h (some (g.records h, res.2)))
  | (d, g), .discard h hookOk =>
      (d.undoDiscard h hookOk,
        if d.undoExists h && !hookOk then g else Function.update g h none)

def undoRun (ops : List UndoEvent) : UndoStore × Recorded :=
  ops.foldl undoStep (UndoStore.empty, fun _ => none)

/-- The height has no entry, or its run is the open one. -/
def UndoStore.Writable (d : UndoStore) (h : Nat) : Prop :=
  d.idx h = none ∨ d.fd.map Prod.fst = some h

def OneRun (d : UndoStore) : UndoEvent → Prop
  | .begin h => d.Writable h
  | .append h _ _ => d.Writable h
  | .commit h _ => d.Writable h
  | .discard _ _ => True

/-- Every height is written in one piece. -/
def OneRunEach : List UndoEvent → UndoStore × Recorded → Prop
  | [], _ => True
  | op :: ops, s => OneRun s.1 op ∧ OneRunEach ops (undoStep s op)

/-- The file of a height's run ends `n` bytes into the run. -/
def UndoStore.cutRun (d : UndoStore) (h n : Nat) : UndoStore :=
  match d.idx h with
  | none => d
  | some s => { d with rev := Function.update d.rev s.file ((d.rev s.file).take (s.off + n)) }

/-! ## Files only grow -/

namespace UndoStore

/-- Everything that was in the files is still there. -/
def Grows (d d' : UndoStore) : Prop := ∀ f, d.rev f <+: d'.rev f

theorem Grows.refl (d : UndoStore) : d.Grows d := fun _ => List.prefix_rfl

theorem Grows.trans {d₁ d₂ d₃ : UndoStore} (h₁ : d₁.Grows d₂) (h₂ : d₂.Grows d₃) : d₁.Grows d₃ :=
  fun f => (h₁ f).trans (h₂ f)

theorem grows_write (d : UndoStore) (file : Nat) (bytes : List UInt8) : d.Grows (d.write file bytes) := by
  intro f
  unfold write
  simp only
  by_cases hf : f = file
  · rw [hf, Function.update_self]
    exact List.prefix_append _ _
  · rw [Function.update_of_ne hf]

theorem rev_openRun (d : UndoStore) (h : Nat) : (d.openRun h).rev = d.rev := by
  unfold openRun
  split
  · rfl
  · simp only
    split <;> rfl

theorem grows_undoFdFor (d : UndoStore) (h : Nat) : d.Grows (d.undoFdFor h) := by
  unfold undoFdFor
  split
  · intro f
    rw [rev_openRun]
  · split
    · exact Grows.refl d
    · intro f
      rw [rev_openRun]
      exact d.grows_write _ _ f

variable {d d' : UndoStore} {h : Nat} {bytes : List UInt8}

theorem HasRun.grows (hr : d.HasRun h bytes) (hg : d.Grows d') (hidx : d'.idx h = d.idx h) :
    ∃ more, d'.HasRun h (bytes ++ more) := by
  obtain ⟨s, hs, hoff, hbytes⟩ := hr
  obtain ⟨more, hmore⟩ := hg s.file
  refine ⟨more, s, hidx.trans hs, ?_, ?_⟩
  · rw [← hmore, List.length_append]
    omega
  · rw [← hmore, List.drop_append_of_le_length hoff, hbytes]

/-- Reaching the file of a height twice is reaching it once. -/
theorem fd_undoFdFor (d : UndoStore) (h : Nat) : ∃ file, (d.undoFdFor h).fd = some (h, file) := by
  have hopen : ∀ d : UndoStore, ∃ file, (d.openRun h).fd = some (h, file) := by
    intro d
    unfold openRun
    split
    · exact ⟨_, rfl⟩
    · simp only
      split
      · exact ⟨_, rfl⟩
      · exact ⟨_, rfl⟩
  unfold undoFdFor
  split
  · exact hopen d
  · next h' file hfd =>
      split
      · next heq => exact ⟨file, heq ▸ hfd⟩
      · exact hopen _

theorem undoFdFor_of_open {file : Nat} (hfd : d.fd = some (h, file)) : d.undoFdFor h = d := by
  unfold undoFdFor
  rw [hfd]
  exact if_pos rfl

theorem undoFdFor_idem (d : UndoStore) (h : Nat) : (d.undoFdFor h).undoFdFor h = d.undoFdFor h := by
  obtain ⟨file, hfd⟩ := d.fd_undoFdFor h
  exact undoFdFor_of_open hfd

theorem undoAppendRecord_undoFdFor (d : UndoStore) (h : Nat) (r : UndoRec) (w : Written) :
    (d.undoFdFor h).undoAppendRecord h r w = d.undoAppendRecord h r w := by
  unfold undoAppendRecord
  rw [undoFdFor_idem]

/-- Closing the descriptor first makes no difference to the slots. -/
theorem undoDiscard_eq (d : UndoStore) (h : Nat) (hookOk : Bool) : ∃ d' : UndoStore,
    d'.idx = d.idx ∧
      d.undoDiscard h hookOk = if (d.undoExists h && !hookOk) = true then d' else d'.usSlotClear h := by
  unfold undoDiscard
  by_cases hfd : d.fd.map Prod.fst = some h
  · rw [if_pos hfd]
    exact ⟨d.undoCloseCurrent, rfl, rfl⟩
  · rw [if_neg hfd]
    exact ⟨d, rfl, rfl⟩

theorem undoDiscard_idx_stays {hookOk : Bool} (hstays : (d.undoExists h && !hookOk) = true) :
    (d.undoDiscard h hookOk).idx = d.idx := by
  obtain ⟨d', hd', heq⟩ := d.undoDiscard_eq h hookOk
  rw [heq, if_pos hstays]
  exact hd'

theorem undoDiscard_idx_gone {hookOk : Bool} (hgone : ¬ (d.undoExists h && !hookOk) = true) :
    (d.undoDiscard h hookOk).idx h = none := by
  obtain ⟨d', -, heq⟩ := d.undoDiscard_eq h hookOk
  rw [heq, if_neg hgone]
  exact Function.update_self ..

theorem undoCommit_undoFdFor (d : UndoStore) (h : Nat) (w : Written) :
    (d.undoFdFor h).undoCommit h w = d.undoCommit h w := by
  unfold undoCommit
  rw [undoFdFor_idem]

end UndoStore

/-! ## What every state keeps -/

/-- Each height's records stand at its slot, closed by END if they are committed, and up to
the end of the file if its run is the open one. -/
structure RunsKept (d : UndoStore) (g : Recorded) : Prop where
  wellFormed : d.WellFormed
  entry : ∀ h, g h = none ↔ d.idx h = none
  run : ∀ h rs c, g h = some (rs, c) → ∃ rest,
    d.HasRun h (encodeAll UndoRec.encode rs ++ rest) ∧ (c = true → ∃ tail, rest = usMakeEnd h ++ tail)
  opened : ∀ h file, d.fd = some (h, file) → ∃ rs, g h = some (rs, false) ∧
    d.Writing h (encodeAll UndoRec.encode rs)

theorem runsKept_empty : RunsKept UndoStore.empty fun _ => none :=
  ⟨UndoStore.wellFormed_empty, fun _ => ⟨fun _ => rfl, fun _ => rfl⟩, nofun, nofun⟩

section Kept

variable {d d' : UndoStore} {g : Recorded} {h : Nat}

/-- The runs of the other heights, over a step that lets the files grow. -/
theorem RunsKept.run_of_grows (hk : RunsKept d g) (hg : d.Grows d') {k : Nat} (hidx : d'.idx k = d.idx k)
    {rs : List UndoRec} {c : Bool} (hrs : g k = some (rs, c)) : ∃ rest,
    d'.HasRun k (encodeAll UndoRec.encode rs ++ rest) ∧ (c = true → ∃ tail, rest = usMakeEnd k ++ tail) := by
  obtain ⟨rest, hrun, hend⟩ := hk.run k rs c hrs
  obtain ⟨more, hrun'⟩ := hrun.grows hg hidx
  refine ⟨rest ++ more, ?_, fun hc => ?_⟩
  · rw [← List.append_assoc]
    exact hrun'
  · obtain ⟨tail, rfl⟩ := hend hc
    exact ⟨tail ++ more, List.append_assoc _ _ _⟩

/-- A step that writes one height's run keeps the others. -/
theorem RunsKept.of_run (hk : RunsKept d g) (hwf : d'.WellFormed) (hg : d.Grows d')
    (hidx : ∀ k, k ≠ h → d'.idx k = d.idx k) {rs : List UndoRec} {c : Bool} {rest : List UInt8}
    (hrun : d'.HasRun h (encodeAll UndoRec.encode rs ++ rest))
    (hend : c = true → ∃ tail, rest = usMakeEnd h ++ tail)
    (hopened : ∀ k file, d'.fd = some (k, file) →
      k = h ∧ c = false ∧ d'.Writing h (encodeAll UndoRec.encode rs)) :
    RunsKept d' (Function.update g h (some (rs, c))) := by
  refine ⟨hwf, fun k => ?_, fun k rs' c' hrs => ?_, fun k file hfd => ?_⟩
  · by_cases hk' : k = h
    · subst hk'
      obtain ⟨s, hs, -⟩ := hrun
      rw [Function.update_self, hs]
      exact ⟨nofun, nofun⟩
    · rw [Function.update_of_ne hk', hidx k hk']
      exact hk.entry k
  · by_cases hk' : k = h
    · subst hk'
      rw [Function.update_self] at hrs
      obtain ⟨rfl, rfl⟩ := Prod.mk.inj (Option.some.inj hrs)
      exact ⟨rest, hrun, hend⟩
    · rw [Function.update_of_ne hk'] at hrs
      exact hk.run_of_grows hg (hidx k hk') hrs
  · obtain ⟨rfl, rfl, hwriting⟩ := hopened k file hfd
    exact ⟨rs, Function.update_self .., hwriting⟩

/-- A height that may be written is reached at the end of its file. -/
theorem RunsKept.writing_undoFdFor (hk : RunsKept d g) (hw : d.Writable h) :
    (d.undoFdFor h).Writing h (encodeAll UndoRec.encode (g.records h)) ∧
      (g h).getD ([], false) = (g.records h, false) := by
  unfold Recorded.records
  rcases hw with hnone | hopen
  · rw [(hk.entry h).mpr hnone]
    refine ⟨?_, rfl⟩
    cases hfd : d.fd with
    | none => exact UndoStore.writing_undoBegin hk.wellFormed hnone hfd
    | some p =>
        obtain ⟨h', file⟩ := p
        have hne : h' ≠ h := by
          rintro rfl
          obtain ⟨rs, hrs, -⟩ := hk.opened _ _ hfd
          rw [(hk.entry _).mpr hnone] at hrs
          cases hrs
        -- the other run is closed first, and then nothing is open
        have hwf := (hk.wellFormed.write (hk.wellFormed.fd_le _ _ hfd) (usMakeEnd h')).undoCloseCurrent
        have hfresh := @UndoStore.writing_undoBegin ((d.write file (usMakeEnd h')).undoCloseCurrent) hwf h
          hnone rfl
        unfold UndoStore.undoFdFor
        rw [hfd]
        simp only
        rw [if_neg hne]
        exact hfresh
  · obtain ⟨p, hp, hph⟩ := Option.map_eq_some_iff.mp hopen
    obtain ⟨h', file⟩ := p
    obtain rfl : h' = h := hph
    obtain ⟨rs, hrs, hwriting⟩ := hk.opened _ _ hp
    rw [UndoStore.undoFdFor_of_open hp, hrs]
    exact ⟨hwriting, rfl⟩

theorem RunsKept.undoBegin (hk : RunsKept d g) (hw : d.Writable h) :
    RunsKept (d.undoFdFor h) (Function.update g h (some (g.records h, false))) := by
  obtain ⟨hwriting, -⟩ := hk.writing_undoFdFor hw
  obtain ⟨file, hfd⟩ := d.fd_undoFdFor h
  refine @RunsKept.of_run d _ g h hk (hk.wellFormed.undoFdFor h) (d.grows_undoFdFor h)
    (fun k hne => UndoStore.undoFdFor_idx hne) _ false [] ?_ nofun fun k file' hfd' => ?_
  · rw [List.append_nil]
    exact hwriting.hasRun
  · rw [hfd] at hfd'
    obtain ⟨rfl, -⟩ := Prod.mk.inj (Option.some.inj hfd')
    exact ⟨rfl, rfl, hwriting⟩

theorem RunsKept.undoAppendRecord (hk : RunsKept d g) (hw : d.Writable h) (r : UndoRec) (w : Written) :
    RunsKept (d.undoAppendRecord h r w).1 (Function.update g h
      (some (g.records h ++ if (d.undoAppendRecord h r w).2 then [r] else [], false))) := by
  obtain ⟨hwriting, -⟩ := hk.writing_undoFdFor hw
  have hwf := hk.wellFormed.undoAppendRecord h r w
  obtain ⟨file, hfd⟩ := d.fd_undoFdFor h
  cases w with
  | whole =>
      have hnext := hwriting.undoAppendRecord_whole r
      have hres : (d.undoAppendRecord h r .whole).2 = true := by
        unfold UndoStore.undoAppendRecord
        simp only
        rw [hfd]
      have hgrows : d.Grows (d.undoAppendRecord h r .whole).1 := by
        unfold UndoStore.undoAppendRecord
        simp only
        rw [hfd]
        exact (d.grows_undoFdFor h).trans (UndoStore.grows_write _ _ _)
      have hfd' : (d.undoAppendRecord h r .whole).1.fd = some (h, file) := by
        unfold UndoStore.undoAppendRecord
        simp only
        rw [hfd]
        exact hfd
      have hbytes : encodeAll UndoRec.encode (g.records h) ++ r.encode =
          encodeAll UndoRec.encode (g.records h ++ [r]) := by
        rw [encodeAll_append, encodeAll_cons, encodeAll_nil, List.append_nil]
      rw [UndoStore.undoAppendRecord_undoFdFor, hbytes] at hnext
      have hrun : (d.undoAppendRecord h r .whole).1.HasRun h
          (encodeAll UndoRec.encode (g.records h ++ [r]) ++ []) := by
        rw [List.append_nil]
        exact hnext.hasRun
      rw [hres, if_pos rfl]
      refine hk.of_run hwf hgrows (fun k hne => UndoStore.undoAppendRecord_idx hne r .whole) hrun nofun
        fun k file' hopen => ?_
      · rw [hfd'] at hopen
        obtain ⟨rfl, -⟩ := Prod.mk.inj (Option.some.inj hopen)
        exact ⟨rfl, rfl, hnext⟩
  | short n =>
      have hnext := hwriting.undoAppendRecord_short r n
      rw [UndoStore.undoAppendRecord_undoFdFor] at hnext
      have hres : (d.undoAppendRecord h r (.short n)).2 = false := by
        unfold UndoStore.undoAppendRecord
        simp only
        rw [hfd]
      have hgrows : d.Grows (d.undoAppendRecord h r (.short n)).1 := by
        unfold UndoStore.undoAppendRecord
        simp only
        rw [hfd]
        exact (d.grows_undoFdFor h).trans (UndoStore.grows_write _ _ _)
      have hfd' : (d.undoAppendRecord h r (.short n)).1.fd = none := by
        unfold UndoStore.undoAppendRecord
        simp only
        rw [hfd]
        rfl
      rw [hres, if_neg (by decide), List.append_nil]
      refine hk.of_run hwf hgrows (fun k hne => UndoStore.undoAppendRecord_idx hne r (.short n))
        hnext.hasRun nofun fun k file' hopen => ?_
      rw [hfd'] at hopen
      cases hopen

theorem RunsKept.undoCommit (hk : RunsKept d g) (hw : d.Writable h) (w : Written) :
    RunsKept (d.undoCommit h w).1 (Function.update g h (some (g.records h, (d.undoCommit h w).2))) := by
  obtain ⟨hwriting, -⟩ := hk.writing_undoFdFor hw
  have hwf := hk.wellFormed.undoCommit h w
  obtain ⟨file, hfd⟩ := d.fd_undoFdFor h
  have hgrows : d.Grows (d.undoCommit h w).1 := by
    unfold UndoStore.undoCommit
    simp only
    rw [hfd]
    cases w with
    | whole => exact (d.grows_undoFdFor h).trans (UndoStore.grows_write _ _ _)
    | short n => exact (d.grows_undoFdFor h).trans (UndoStore.grows_write _ _ _)
  have hclosed : (d.undoCommit h w).1.fd = none := by
    unfold UndoStore.undoCommit
    simp only
    rw [hfd]
    cases w <;> rfl
  have hopened : ∀ k file, (d.undoCommit h w).1.fd = some (k, file) →
      k = h ∧ (d.undoCommit h w).2 = false ∧
        (d.undoCommit h w).1.Writing h (encodeAll UndoRec.encode (g.records h)) := by
    intro k file hopen
    rw [hclosed] at hopen
    cases hopen
  cases w with
  | whole =>
      obtain ⟨-, hrun⟩ := hwriting.undoCommit_whole
      rw [UndoStore.undoCommit_undoFdFor] at hrun
      exact hk.of_run hwf hgrows (fun k hne => UndoStore.undoCommit_idx hne .whole) hrun
        (fun _ => ⟨[], (List.append_nil _).symm⟩) hopened
  | short n =>
      obtain ⟨s, hs, hat⟩ := hwriting.undoFdFor
      have hnext := (hwriting.write hs ((usMakeEnd h).take n)).undoCloseCurrent
      have hres : (d.undoCommit h (.short n)).2 = false := by
        unfold UndoStore.undoCommit
        simp only
        rw [hfd]
      have heq : (d.undoCommit h (.short n)).1 =
          ({ d.undoFdFor h with fd := some (h, s.file) }.write s.file
            ((usMakeEnd h).take n)).undoCloseCurrent := by
        rw [← UndoStore.undoCommit_undoFdFor]
        unfold UndoStore.undoCommit
        rw [hat]
      have hrun : (d.undoCommit h (.short n)).1.HasRun h
          (encodeAll UndoRec.encode (g.records h) ++ (usMakeEnd h).take n) := by
        rw [heq]
        exact hnext.hasRun
      refine hk.of_run hwf hgrows (fun k hne => UndoStore.undoCommit_idx hne (.short n)) hrun ?_ hopened
      rw [hres]
      nofun

theorem RunsKept.undoDiscard (hk : RunsKept d g) (hookOk : Bool) :
    RunsKept (d.undoDiscard h hookOk)
      (if d.undoExists h && !hookOk then g else Function.update g h none) := by
  have hwf := hk.wellFormed.undoDiscard h hookOk
  have hrev : (d.undoDiscard h hookOk).rev = d.rev := by
    unfold UndoStore.undoDiscard
    simp only
    split_ifs <;> rfl
  have hgrows : d.Grows (d.undoDiscard h hookOk) := fun f => by rw [hrev]
  -- a run that is still open is not the discarded one
  have hfd : ∀ k file, (d.undoDiscard h hookOk).fd = some (k, file) → k ≠ h ∧ d.fd = some (k, file) := by
    intro k file hopen
    unfold UndoStore.undoDiscard at hopen
    simp only at hopen
    split_ifs at hopen with hopened
    · cases hopen
    · cases hopen
    · refine ⟨fun heq => hopened ?_, hopen⟩
      rw [hopen, heq]
      rfl
    · refine ⟨fun heq => hopened ?_, hopen⟩
      rw [show d.fd = some (k, file) from hopen, heq]
      rfl
  have hwriting : ∀ k file, (d.undoDiscard h hookOk).fd = some (k, file) → ∃ rs, g k = some (rs, false) ∧
      (d.undoDiscard h hookOk).Writing k (encodeAll UndoRec.encode rs) := by
    intro k file hopen
    obtain ⟨hne, hopen'⟩ := hfd k file hopen
    obtain ⟨rs, hrs, s, hs, hat, hoff, hbytes⟩ := hk.opened k file hopen'
    refine ⟨rs, hrs, s, ?_, ?_, ?_, ?_⟩
    · rw [UndoStore.undoDiscard_idx_of_ne hne]
      exact hs
    · rw [hopen, ← hopen']
      exact hat
    · rw [hrev]
      exact hoff
    · rw [hrev]
      exact hbytes
  by_cases hstays : (d.undoExists h && !hookOk) = true
  · have hidx := UndoStore.undoDiscard_idx_stays hstays
    rw [if_pos hstays]
    refine ⟨hwf, fun k => ?_, fun k rs c hrs => ?_, hwriting⟩
    · rw [hidx]
      exact hk.entry k
    · exact hk.run_of_grows hgrows (by rw [hidx]) hrs
  · have hidx := UndoStore.undoDiscard_idx_gone hstays
    rw [if_neg hstays]
    refine ⟨hwf, fun k => ?_, fun k rs c hrs => ?_, fun k file hopen => ?_⟩
    · by_cases hk' : k = h
      · rw [hk', Function.update_self, hidx]
        exact ⟨fun _ => rfl, fun _ => rfl⟩
      · rw [Function.update_of_ne hk', UndoStore.undoDiscard_idx_of_ne hk']
        exact hk.entry k
    · by_cases hk' : k = h
      · rw [hk', Function.update_self] at hrs
        cases hrs
      · rw [Function.update_of_ne hk'] at hrs
        exact hk.run_of_grows hgrows (UndoStore.undoDiscard_idx_of_ne hk' hookOk) hrs
    · obtain ⟨hne, -⟩ := hfd k file hopen
      rw [Function.update_of_ne hne]
      exact hwriting k file hopen

theorem RunsKept.step (hk : RunsKept d g) {op : UndoEvent} (hop : OneRun d op) :
    RunsKept (undoStep (d, g) op).1 (undoStep (d, g) op).2 := by
  cases op with
  | begin h =>
      unfold undoStep
      simp only
      rw [(hk.writing_undoFdFor hop).2]
      exact hk.undoBegin hop
  | append h r w => exact hk.undoAppendRecord hop r w
  | commit h w => exact hk.undoCommit hop w
  | discard h hookOk => exact hk.undoDiscard hookOk

theorem RunsKept.run_all {ops : List UndoEvent} (hk : RunsKept d g) (hops : OneRunEach ops (d, g)) :
    RunsKept (ops.foldl undoStep (d, g)).1 (ops.foldl undoStep (d, g)).2 := by
  induction ops generalizing d g with
  | nil => exact hk
  | cons op ops ih => exact ih (hk.step hops.1) hops.2

end Kept

/-! ## Replaying -/

section Replay

variable {d : UndoStore} {g : Recorded} {h : Nat} {rs : List UndoRec}

theorem UndoStore.undoReplay_eq {torn : Bool} (hread : d.usReadRun h = (rs, torn)) :
    d.undoReplay h = (if torn then none else some rs) ∧ d.undoReplayTolerant h = rs := by
  unfold UndoStore.undoReplay UndoStore.undoReplayTolerant
  rw [hread]
  exact ⟨rfl, rfl⟩

theorem RunsKept.usReadRun_committed (hk : RunsKept d g) (hrs : g h = some (rs, true)) :
    d.usReadRun h = (rs, false) := by
  obtain ⟨rest, hrun, hend⟩ := hk.run h rs true hrs
  obtain ⟨tail, rfl⟩ := hend rfl
  rw [hrun.usReadRun]
  exact undo_framed.scan_stopped rs (undoNext_end h tail)

/-- A run whose file ends inside the run reads as the whole records before the cut. -/
theorem RunsKept.usReadRun_cutRun (hk : RunsKept d g) {c : Bool} (hrs : g h = some (rs, c)) {n : Nat}
    (hn : n ≤ (encodeAll UndoRec.encode rs).length) :
    (d.cutRun h n).usReadRun h = (wholeBefore UndoRec.encode rs n,
      decide ((encodeAll UndoRec.encode (wholeBefore UndoRec.encode rs n)).length < n)) := by
  obtain ⟨rest, ⟨s, hs, hoff, hbytes⟩, -⟩ := hk.run h rs c hrs
  have hcut : (d.cutRun h n).HasRun h ((encodeAll UndoRec.encode rs).take n) := by
    unfold UndoStore.cutRun
    rw [hs]
    refine ⟨s, hs, ?_, ?_⟩
    · simp only [Function.update_self, List.length_take]
      omega
    · simp only [Function.update_self]
      rw [List.drop_take, Nat.add_sub_cancel_left, hbytes, List.take_append_of_le_length hn]
  rw [hcut.usReadRun]
  exact undo_framed.scan_take rs hn

theorem wholeBefore_last (rs : List UndoRec) (r : UndoRec) {n : Nat} (hlt : n < r.encode.length) :
    wholeBefore UndoRec.encode (rs ++ [r]) ((encodeAll UndoRec.encode rs).length + n) = rs := by
  rw [wholeBefore_append _ _ _ (Nat.le_add_right _ _), Nat.add_sub_cancel_left]
  unfold wholeBefore
  rw [if_neg (by omega), List.append_nil]

end Replay

/-- Where every height is written in one piece, a committed height replays its records; a
run that ends inside its last record, because the file does or because the last append was
short, replays the records before it to the tolerant reader and is torn to the strict one. -/
theorem undoReplay_of_oneRunEach {ops : List UndoEvent}
    (hops : OneRunEach ops (UndoStore.empty, fun _ => none)) :
    (∀ h rs, (undoRun ops).2 h = some (rs, true) →
      (undoRun ops).1.undoReplay h = some rs ∧ (undoRun ops).1.undoReplayTolerant h = rs) ∧
    (∀ h rs r c n, (undoRun ops).2 h = some (rs ++ [r], c) → 0 < n → n < r.encode.length →
      let cut := (undoRun ops).1.cutRun h ((encodeAll UndoRec.encode rs).length + n)
      cut.undoReplayTolerant h = rs ∧ cut.undoReplay h = none ∧ (cut.usReadRun h).2 = true) ∧
    ∀ h r n, (undoRun ops).1.Writable h → 0 < n → n < r.encode.length →
      let torn := ((undoRun ops).1.undoAppendRecord h r (.short n)).1
      torn.undoReplayTolerant h = (undoRun ops).2.records h ∧ torn.undoReplay h = none ∧
        (torn.usReadRun h).2 = true := by
  have hk : RunsKept (undoRun ops).1 (undoRun ops).2 := runsKept_empty.run_all hops
  refine ⟨fun h rs hrs => ?_, fun h rs r c n hrs hpos hlt => ?_, fun h r n hw hpos hlt => ?_⟩
  · exact UndoStore.undoReplay_eq (hk.usReadRun_committed hrs)
  · have hlen : (encodeAll UndoRec.encode rs).length + n ≤ (encodeAll UndoRec.encode (rs ++ [r])).length := by
      rw [encodeAll_append, List.length_append, encodeAll_cons, encodeAll_nil, List.append_nil]
      omega
    have hread := hk.usReadRun_cutRun hrs hlen
    rw [wholeBefore_last rs r hlt, decide_eq_true (by omega)] at hread
    obtain ⟨hstrict, htolerant⟩ := UndoStore.undoReplay_eq hread
    exact ⟨htolerant, hstrict, congrArg Prod.snd hread⟩
  · have hwriting := (hk.writing_undoFdFor hw).1.undoAppendRecord_short r n
    rw [UndoStore.undoAppendRecord_undoFdFor] at hwriting
    have hread := UndoStore.HasRun.usReadRun_cut hpos hlt hwriting.hasRun
    obtain ⟨hstrict, htolerant⟩ := UndoStore.undoReplay_eq hread
    exact ⟨htolerant, hstrict, congrArg Prod.snd hread⟩

def spentRec (i : UInt32) : UndoRec :=
  ⟨⟨Txid.ofBytes [7], i⟩, ⟨50, 3, false, [0x51], by decide⟩⟩

/-- Two heights one after the other, and the first once more after a discard. -/
def tidyOps : List UndoEvent :=
  [.append 5 (spentRec 0) .whole, .commit 5 .whole, .append 6 (spentRec 1) .whole, .commit 6 .whole,
    .discard 5 true, .append 5 (spentRec 2) .whole, .commit 5 .whole]

theorem undoReplay_of_oneRunEach_tidy : OneRunEach tidyOps (UndoStore.empty, fun _ => none) ∧
    (undoRun tidyOps).1.undoReplay 5 = some [spentRec 2] := by
  have hops : OneRunEach tidyOps (UndoStore.empty, fun _ => none) := by
    refine ⟨.inl rfl, .inr ?_, .inl ?_, .inr ?_, trivial, .inl ?_, .inr ?_, trivial⟩
    all_goals decide +kernel
  have hrecorded : (undoRun tidyOps).2 5 = some ([spentRec 2], true) := by decide +kernel
  exact ⟨hops, ((undoReplay_of_oneRunEach hops).1 5 [spentRec 2] hrecorded).1⟩

/-- A height that is written again after another one. -/
def brokenOps : List UndoEvent :=
  [.append 5 (spentRec 0) .whole, .append 6 (spentRec 1) .whole, .append 5 (spentRec 2) .whole,
    .commit 5 .whole]

/-- Both records of height 5 were taken and committed, and one is replayed. -/
theorem undoReplay_broken : (undoRun brokenOps).2 5 = some ([spentRec 0, spentRec 2], true) ∧
    (undoRun brokenOps).1.undoReplay 5 = some [spentRec 0] := by
  decide +kernel

end BitcoinMachineCode.Storage
