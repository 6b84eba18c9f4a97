import BitcoinMachineCode.Storage.LsmReads

/-!
# Histories of the layered store

Each operation keeps the store sound and the coins it holds, a put and a delete
changing their own key alone; so after any interleaving the store reads as the
plain map driven by the same puts and deletes.
-/

namespace BitcoinMachineCode.Storage

open BitcoinMachineCode.Foundation

/-! ## A run added on top -/

theorem files_put_of_not_mem {files : PMap Nat (Run Outpoint Coin)} {n : Nat}
    {rs : List Nat} (h : n ∉ rs) (run : Run Outpoint Coin) :
    ∀ r ∈ rs, files.put n run r = files r := by
  intro r hr
  exact files.put_of_ne run fun heq => h (heq ▸ hr)

theorem runLayers_append_run (files : PMap Nat (Run Outpoint Coin))
    {m : List ManifestEntry} {e : ManifestEntry} (h : e.runNo ∉ runNos m)
    (run : Run Outpoint Coin) :
    runLayers (files.put e.runNo run) (m ++ [e]) = run.find :: runLayers files m := by
  have hone : runLayers (files.put e.runNo run) [e] = [run.find] := by
    have hlayer : runLayer (files.put e.runNo run) e = run.find := by
      funext o
      simp [runLayer]
    simp [runLayers, hlayer]
  rw [runLayers_append, hone, runLayers_congr (files_put_of_not_mem h run)]
  rfl

theorem Output.congr {files files' : PMap Nat (Run Outpoint Coin)} {c : CompactChild}
    {m : List ManifestEntry} {keepDels : Bool} {run : Run Outpoint Coin}
    (h : Output files c m keepDels run) (hout : files' c.runNo = files c.runNo)
    (hin : ∀ r ∈ runNos c.inherited, files' r = files r) :
    Output files' c m keepDels run where
  range := h.range
  manifest := h.manifest
  written := hout.trans h.written
  find_eq o := by
    rw [h.find_eq]
    congr 2
    refine (runLayers_congr fun r hr => ?_).symm
    obtain ⟨e, he, rfl⟩ := mem_runNos.mp hr
    exact hin _ (List.mem_map_of_mem (mem_survivors_or_batch.mpr (Or.inr he)))

theorem Tracks.append {cur : List ManifestEntry} {files : PMap Nat (Run Outpoint Coin)}
    {c : CompactChild} (h : Tracks cur files c) {e : ManifestEntry}
    (hc : e.runNo ≠ c.runNo) (hin : e.runNo ∉ runNos c.inherited)
    (run : Run Outpoint Coin) :
    Tracks (cur ++ [e]) (files.put e.runNo run) c := by
  cases h with
  | lost x hmem hgone =>
      refine .lost x hmem ?_
      rw [runNos_append]
      intro hx
      rcases List.mem_append.mp hx with hx | hx
      · exact hgone hx
      · have hxe : x.runNo = e.runNo := by simpa [runNos] using hx
        exact hin (hxe ▸ List.mem_map_of_mem hmem)
  | intact rest hcur hout =>
      refine .intact (rest ++ [e]) (by rw [hcur, List.append_assoc]) ?_
      intro m live hst
      obtain ⟨keepDels, out, ho⟩ := hout m live hst
      exact ⟨keepDels, out, ho.congr (files.put_of_ne run hc.symm)
        (files_put_of_not_mem hin run)⟩

/-- What a state must share with the one before it for a run to have been added
to its manifest. -/
structure RunAdded (s s' : Lsm) (e : ManifestEntry) (run : Run Outpoint Coin) : Prop where
  manifest : s'.manifest = s.manifest ++ [e]
  files : s'.files = s.files.put e.runNo run
  asyncFlush : s'.asyncFlush = s.asyncFlush
  child : s'.child = s.child
  next_le : s.nextRunNo ≤ s'.nextRunNo
  lt_next : e.runNo < s'.nextRunNo
  fresh : e.runNo ∉ runNos s.manifest
  frozen : ∀ fz, s'.frozen = some fz → s.frozen = some fz ∧ fz.runNo ≠ e.runNo
  child_fresh : ∀ c, s.child = some c →
    e.runNo ≠ c.runNo ∧ e.runNo ∉ runNos c.inherited

theorem Lsm.Sound.runAdded {s s' : Lsm} (hs : s.Sound) {e : ManifestEntry}
    {run : Run Outpoint Coin} (h : RunAdded s s' e run) : s'.Sound where
  readable x hx := by
    rw [h.manifest] at hx
    rw [h.files]
    by_cases hxe : x.runNo = e.runNo
    · simp [hxe]
    · rcases List.mem_append.mp hx with hx | hx
      · rw [PMap.put_of_ne _ _ hxe]
        exact hs.readable x hx
      · rw [List.mem_singleton.mp hx] at hxe
        exact absurd rfl hxe
  nodup := by
    rw [h.manifest, runNos_append]
    refine List.nodup_append.mpr ⟨hs.nodup, List.nodup_singleton _, ?_⟩
    intro a ha b hb hab
    obtain rfl : b = e.runNo := by simpa [runNos] using hb
    exact h.fresh (hab ▸ ha)
  below r hr := by
    rw [h.manifest, runNos_append] at hr
    rcases List.mem_append.mp hr with hr | hr
    · exact (hs.below r hr).trans_le h.next_le
    · obtain rfl : r = e.runNo := by simpa [runNos] using hr
      exact h.lt_next
  frozen fz hfz := by
    obtain ⟨hold, hne⟩ := h.frozen fz hfz
    obtain ⟨hasync, hlt, hout⟩ := hs.frozen fz hold
    refine ⟨h.asyncFlush ▸ hasync, hlt.trans_le h.next_le, ?_⟩
    rw [h.manifest, runNos_append]
    intro hmem
    rcases List.mem_append.mp hmem with hmem | hmem
    · exact hout hmem
    · exact hne (by simpa [runNos] using hmem)
  child c hc := by
    rw [h.child] at hc
    have hchild := hs.child c hc
    obtain ⟨hne, hin⟩ := h.child_fresh c hc
    rw [h.manifest, h.files]
    refine ⟨hchild.runNo_lt.trans_le h.next_le, ?_, ?_, hchild.inherited_lt,
      hchild.inputs_eq, hchild.k_ne, hchild.finished, hchild.tracks.append hne hin run⟩
    · rw [runNos_append]
      intro hmem
      rcases List.mem_append.mp hmem with hmem | hmem
      · exact hchild.not_named hmem
      · exact hne.symm (by simpa [runNos] using hmem)
    · intro fz hfz
      exact hchild.not_frozen fz (h.frozen fz hfz).1

/-! ## A batch replaced by its merge -/

theorem runNo_not_mem_mergedManifest {m : List ManifestEntry} {lo k r : Nat}
    {e : ManifestEntry} (hne : r ≠ e.runNo) (h : r ∉ runNos (survivors m lo k)) :
    r ∉ runNos (mergedManifest m lo k e) := by
  intro hmem
  rw [(runNos_mergedManifest_perm m lo k e).mem_iff] at hmem
  rcases List.mem_cons.mp hmem with hr | hr
  · exact hne hr
  · exact h hr

theorem mem_of_mem_survivors {m : List ManifestEntry} {lo k r : Nat}
    (h : r ∈ runNos (survivors m lo k)) : r ∈ runNos m := by
  obtain ⟨e, he, rfl⟩ := mem_runNos.mp h
  exact List.mem_map_of_mem (mem_survivors_or_batch.mpr (Or.inl he))

theorem mergedManifest_append_right {a b : List ManifestEntry} {lo : Nat}
    (h : a.length ≤ lo) (k : Nat) (e : ManifestEntry) :
    mergedManifest (a ++ b) lo k e = a ++ mergedManifest b (lo - a.length) k e := by
  have hdrop : lo + k - a.length = lo - a.length + k := by omega
  rw [mergedManifest, mergedManifest, List.take_append, List.take_of_length_le h,
    List.drop_append, List.drop_eq_nil_of_le (by omega), List.nil_append, hdrop,
    List.append_assoc]

theorem Tracks.replace {cur : List ManifestEntry}
    {files files' : PMap Nat (Run Outpoint Coin)} {c : CompactChild}
    (h : Tracks cur files c) (hnodup : (runNos cur).Nodup) {lo k : Nat}
    (hk : 0 < k) (hle : lo + k ≤ cur.length) {e : ManifestEntry}
    (hin : e.runNo ∉ runNos c.inherited)
    (hsame : ∀ r ∈ runNos (survivors cur lo k), files' r = files r)
    (hout : files' c.runNo = files c.runNo) :
    Tracks (mergedManifest cur lo k e) files' c := by
  have hne : ∀ x ∈ c.inherited, x.runNo ≠ e.runNo := fun x hx heq =>
    hin (heq ▸ List.mem_map_of_mem hx)
  cases h with
  | lost x hmem hgone =>
      exact .lost x hmem (runNo_not_mem_mergedManifest (hne x hmem)
        fun hs => hgone (mem_of_mem_survivors hs))
  | intact rest hcur hfin =>
      by_cases hlo : c.inherited.length ≤ lo
      · -- the batch lies wholly in what came after the fork
        refine .intact (mergedManifest rest (lo - c.inherited.length) k e) ?_ ?_
        · rw [hcur, mergedManifest_append_right hlo]
        · intro m live hst
          obtain ⟨keepDels, out, ho⟩ := hfin m live hst
          refine ⟨keepDels, out, ho.congr hout fun r hr => hsame r ?_⟩
          rw [survivors, hcur, List.take_append, List.take_of_length_le hlo,
            List.append_assoc, runNos_append]
          exact List.mem_append_left _ hr
      · -- the batch begins at an inherited run, which is gone with it
        have hlt : lo < c.inherited.length := not_le.mp hlo
        have hx : c.inherited[lo] ∈ batch cur lo k := by
          rw [batch, List.mem_take_iff_getElem]
          refine ⟨0, by simp; omega, ?_⟩
          simp [hcur, List.getElem_append_left hlt]
        refine .lost _ (List.getElem_mem hlt)
          (runNo_not_mem_mergedManifest (hne _ (List.getElem_mem hlt)) ?_)
        intro hs
        exact survivors_disjoint_batch hnodup lo k _ hs (List.mem_map_of_mem hx)

/-- What a state must share with the one before it for a merge to have taken
its batch's place. -/
structure BatchReplaced (s s' : Lsm) (lo k : Nat) (e : ManifestEntry)
    (run : Run Outpoint Coin) : Prop where
  manifest : s'.manifest = mergedManifest s.manifest lo k e
  written : s'.files e.runNo = some run
  same : ∀ r ∈ runNos (survivors s.manifest lo k), s'.files r = s.files r
  asyncFlush : s'.asyncFlush = s.asyncFlush
  frozen : s'.frozen = s.frozen
  next_le : s.nextRunNo ≤ s'.nextRunNo
  lt_next : e.runNo < s'.nextRunNo
  fresh : e.runNo ∉ runNos s.manifest
  frozen_ne : ∀ fz, s.frozen = some fz → fz.runNo ≠ e.runNo

theorem Lsm.Sound.batchReplaced {s s' : Lsm} (hs : s.Sound) {lo k : Nat}
    {e : ManifestEntry} {run : Run Outpoint Coin} (h : BatchReplaced s s' lo k e run)
    (hchild : ∀ c, s'.child = some c →
      ChildSound s'.manifest s'.files s'.nextRunNo s'.frozen c) : s'.Sound where
  readable x hx := by
    rw [h.manifest] at hx
    rcases mem_mergedManifest.mp hx with rfl | hx
    · simp [h.written]
    · rw [h.same _ (List.mem_map_of_mem hx)]
      exact hs.readable x (mem_survivors_or_batch.mpr (Or.inl hx))
  nodup := by
    rw [h.manifest, (runNos_mergedManifest_perm _ _ _ _).nodup_iff]
    exact List.nodup_cons.mpr ⟨fun hmem => h.fresh (mem_of_mem_survivors hmem),
      nodup_runNos_survivors hs.nodup lo k⟩
  below r hr := by
    rw [h.manifest, (runNos_mergedManifest_perm _ _ _ _).mem_iff] at hr
    rcases List.mem_cons.mp hr with rfl | hr
    · exact h.lt_next
    · exact (hs.below r (mem_of_mem_survivors hr)).trans_le h.next_le
  frozen fz hfz := by
    rw [h.frozen] at hfz
    obtain ⟨hasync, hlt, hout⟩ := hs.frozen fz hfz
    refine ⟨h.asyncFlush ▸ hasync, hlt.trans_le h.next_le, ?_⟩
    rw [h.manifest]
    exact runNo_not_mem_mergedManifest (h.frozen_ne fz hfz)
      fun hmem => hout (mem_of_mem_survivors hmem)
  child := hchild

/-! ## The operations -/

/-- A step that neither adds nor removes a coin. -/
structure Keeps (s s' : Lsm) : Prop where
  sound : s'.Sound
  coins_eq : s'.coins = s.coins

theorem Keeps.refl {s : Lsm} (hs : s.Sound) : Keeps s s := ⟨hs, rfl⟩

theorem Keeps.trans {s s' s'' : Lsm} (h : Keeps s s') (h' : Keeps s' s'') :
    Keeps s s'' := ⟨h'.sound, h'.coins_eq.trans h.coins_eq⟩

/-- A step among the runs: the generations stay, and under any layers above them
the runs stand for the same coins. -/
structure KeepsRuns (s s' : Lsm) : Prop where
  sound : s'.Sound
  live_eq : s'.live = s.live
  frozen_eq : s'.frozen = s.frozen
  runs_eq : ∀ top, stackMap (top ++ runLayers s'.files s'.manifest) =
    stackMap (top ++ runLayers s.files s.manifest)

theorem KeepsRuns.refl {s : Lsm} (hs : s.Sound) : KeepsRuns s s :=
  ⟨hs, rfl, rfl, fun _ => rfl⟩

theorem KeepsRuns.keeps {s s' : Lsm} (h : KeepsRuns s s') : Keeps s s' where
  sound := h.sound
  coins_eq := by
    rw [Lsm.coins, Lsm.coins, Lsm.stack, Lsm.stack, h.live_eq, h.frozen_eq,
      ← List.cons_append, ← List.cons_append]
    exact h.runs_eq _

/-- Replacing a batch by a run that answers for it leaves the coins alone. -/
theorem BatchReplaced.keepsRuns {s s' : Lsm} {lo k : Nat} {e : ManifestEntry}
    {run : Run Outpoint Coin} (h : BatchReplaced s s' lo k e run) (hs' : s'.Sound)
    (hlive : s'.live = s.live) {keepDels : Bool} (hkeep : keepDels = true ∨ lo = 0)
    (hfind : ∀ o, run.find o =
      kept keepDels (overlay (runLayers s.files (batch s.manifest lo k)) o)) :
    KeepsRuns s s' where
  sound := hs'
  live_eq := hlive
  frozen_eq := h.frozen
  runs_eq top := by
    rw [h.manifest]
    exact stackMap_mergedManifest hkeep h.written hfind h.same top

/-- The state after a merge in the foreground. -/
def compactedState (s : Lsm) (lo k : Nat) (run : Run Outpoint Coin) : Lsm :=
  { s with
    files := (s.files.put s.nextRunNo run).delAll (runNos (batch s.manifest lo k))
    manifest := mergedManifest s.manifest lo k ⟨s.nextGen, s.nextRunNo⟩
    nextGen := s.nextGen + 1
    nextRunNo := s.nextRunNo + 1
    persistedLive := mergedCount s.manifest.length k run s.persistedLive
    totalLive := healedTotal s.manifest.length k run s.persistedLive s.totalLive }

/-- Nothing, or the batch its range rules gave merged. -/
theorem utxoLsmCompactRange_cases (s : Lsm) (lo k : Nat) :
    (utxoLsmCompactRange s lo k).1 = s ∨
      ∃ lo' k' keepDels runs,
        compactBatch s.manifest.length lo k = some (lo', k', keepDels) ∧
        readRuns s.files (batch s.manifest lo' k') = some runs ∧
        (utxoLsmCompactRange s lo k).1 =
          compactedState s lo' k' (Run.merge keepDels runs) := by
  unfold utxoLsmCompactRange
  cases hbatch : compactBatch s.manifest.length lo k with
  | none => exact Or.inl rfl
  | some range =>
      obtain ⟨lo', k', keepDels⟩ := range
      simp only
      cases hruns : readRuns s.files (batch s.manifest lo' k') with
      | none => exact Or.inl rfl
      | some runs => exact Or.inr ⟨lo', k', keepDels, runs, rfl, hruns, rfl⟩

/-- The child fails, or it merges the range it was given. -/
theorem compactChildMerge_cases (s : Lsm) {c : CompactChild} (hk : c.k ≠ 0) :
    compactChildMerge s c = { s with child := some { c with status := .failed } } ∨
      ∃ keepDels runs,
        compactBatch c.inherited.length c.lo c.k = some (c.lo, c.k, keepDels) ∧
        readRuns s.files (batch c.inherited c.lo c.k) = some runs ∧
        compactChildMerge s c =
          { s with
            files := s.files.put c.runNo (Run.merge keepDels runs)
            child := some { c with
              status := .finished (mergedManifest c.inherited c.lo c.k ⟨c.gen, c.runNo⟩)
                (mergedCount c.inherited.length c.k (Run.merge keepDels runs)
                  s.persistedLive) } } := by
  unfold compactChildMerge
  cases hbatch : compactBatch c.inherited.length c.lo c.k with
  | none => exact Or.inl rfl
  | some range =>
      obtain ⟨lo, k, keepDels⟩ := range
      obtain ⟨rfl, rfl⟩ := (compactBatch_spec hbatch).2.2.2 hk
      simp only
      cases hruns : readRuns s.files (batch c.inherited c.lo c.k) with
      | none => exact Or.inl rfl
      | some runs => exact Or.inr ⟨keepDels, runs, rfl, rfl, rfl⟩

namespace Lsm.Sound

variable {s : Lsm} (hs : s.Sound)

include hs

theorem next_not_named : s.nextRunNo ∉ runNos s.manifest := fun h =>
  (hs.below _ h).false

theorem next_ne_frozen {fz : Frozen} (hfz : s.frozen = some fz) :
    fz.runNo ≠ s.nextRunNo := (hs.frozen fz hfz).2.1.ne

theorem next_child {c : CompactChild} (hc : s.child = some c) :
    s.nextRunNo ≠ c.runNo ∧ s.nextRunNo ∉ runNos c.inherited := by
  have hchild := hs.child c hc
  refine ⟨hchild.runNo_lt.ne', fun hmem => ?_⟩
  have := hchild.inherited_lt _ hmem
  have := hchild.runNo_lt
  omega

/-- A merge in the foreground, for the range and the inputs it read. -/
theorem compactedState_replaced (lo k : Nat) (run : Run Outpoint Coin) :
    BatchReplaced s (compactedState s lo k run) lo k ⟨s.nextGen, s.nextRunNo⟩ run where
  manifest := rfl
  written := by
    have hnext : s.nextRunNo ∉ runNos (batch s.manifest lo k) := by
      intro hmem
      obtain ⟨e, he, heq⟩ := mem_runNos.mp hmem
      exact hs.next_not_named (heq ▸ List.mem_map_of_mem
        (mem_survivors_or_batch.mpr (Or.inr he)))
    simp only [compactedState, PMap.delAll_apply, if_neg hnext, PMap.put_self]
  same := by
    intro r hr
    have hnr : r ≠ s.nextRunNo := (hs.below r (mem_of_mem_survivors hr)).ne
    simp only [compactedState, PMap.delAll_apply,
      if_neg (survivors_disjoint_batch hs.nodup lo k r hr)]
    exact PMap.put_of_ne _ _ hnr
  asyncFlush := rfl
  frozen := rfl
  next_le := Nat.le_succ _
  lt_next := Nat.lt_succ_self _
  fresh := hs.next_not_named
  frozen_ne := fun fz hfz => hs.next_ne_frozen hfz

theorem utxoLsmCompactRange (lo k : Nat) : KeepsRuns s (utxoLsmCompactRange s lo k).1 := by
  rcases utxoLsmCompactRange_cases s lo k with h | ⟨lo, k, keepDels, runs, hbatch, hruns, h⟩
  · rw [h]
    exact .refl hs
  rw [h]
  obtain ⟨hk, hle, hkeep, -⟩ := compactBatch_spec hbatch
  have hrep := hs.compactedState_replaced lo k (Run.merge keepDels runs)
  refine hrep.keepsRuns (hs.batchReplaced hrep ?_) rfl hkeep ?_
  · intro c hc
    have hchild := hs.child c hc
    obtain ⟨hne, hin⟩ := hs.next_child hc
    have hcb : c.runNo ∉ runNos (batch s.manifest lo k) := by
      intro hmem
      obtain ⟨e, he, heq⟩ := mem_runNos.mp hmem
      exact hchild.not_named (heq ▸ List.mem_map_of_mem
        (mem_survivors_or_batch.mpr (Or.inr he)))
    exact
      { runNo_lt := hchild.runNo_lt.trans (Nat.lt_succ_self _)
        not_named := runNo_not_mem_mergedManifest hne.symm
          fun hmem => hchild.not_named (mem_of_mem_survivors hmem)
        not_frozen := hchild.not_frozen
        inherited_lt := hchild.inherited_lt
        inputs_eq := hchild.inputs_eq
        k_ne := hchild.k_ne
        finished := hchild.finished
        tracks := hchild.tracks.replace hs.nodup (by omega) hle hin hrep.same (by
          simp only [compactedState, PMap.delAll_apply, if_neg hcb]
          exact PMap.put_of_ne _ _ hne.symm) }
  · intro o
    rw [Run.find_merge, readRuns_layers hruns]

theorem compactStartAsync (lo k : Nat) : KeepsRuns s (compactStartAsync s lo k) := by
  unfold Storage.compactStartAsync
  split
  · exact .refl hs
  · next h =>
      refine ⟨⟨hs.readable, hs.nodup, fun r hr => (hs.below r hr).trans (Nat.lt_succ_self _),
        ?_, ?_⟩, rfl, rfl, fun _ => rfl⟩
      · intro fz hfz
        obtain ⟨hasync, hlt, hout⟩ := hs.frozen fz hfz
        exact ⟨hasync, hlt.trans (Nat.lt_succ_self _), hout⟩
      · intro c hc
        obtain rfl := Option.some.inj hc
        exact
          { runNo_lt := Nat.lt_succ_self _
            not_named := hs.next_not_named
            not_frozen := fun fz hfz =>
              ⟨hs.next_ne_frozen hfz, (hs.frozen fz hfz).2.2⟩
            inherited_lt := hs.below
            inputs_eq := rfl
            k_ne := fun hk => h (Or.inr hk)
            finished := fun m live hst => by cases hst
            tracks := .intact [] (List.append_nil _).symm
              fun m live hst => by cases hst }

/-- A step beside the manifest: files it does not name, and the child. -/
theorem beside {s' : Lsm} (hman : s'.manifest = s.manifest) (hlive : s'.live = s.live)
    (hfrozen : s'.frozen = s.frozen) (hasync : s'.asyncFlush = s.asyncFlush)
    (hnext : s'.nextRunNo = s.nextRunNo)
    (hfiles : ∀ r ∈ runNos s.manifest, s'.files r = s.files r)
    (hchild : ∀ c, s'.child = some c →
      ChildSound s'.manifest s'.files s'.nextRunNo s'.frozen c) : KeepsRuns s s' := by
  refine ⟨⟨?_, by rw [hman]; exact hs.nodup, by rw [hman, hnext]; exact hs.below, ?_,
    hchild⟩, hlive, hfrozen, fun top => ?_⟩
  · intro e he
    rw [hman] at he
    rw [hfiles _ (List.mem_map_of_mem he)]
    exact hs.readable e he
  · rw [hfrozen, hasync, hnext, hman]
    exact hs.frozen
  · rw [hman, runLayers_congr hfiles]

theorem compactChildMerge {c : CompactChild} (hc : s.child = some c) :
    KeepsRuns s (compactChildMerge s c) := by
  have hchild := hs.child c hc
  rcases compactChildMerge_cases s hchild.k_ne with h | ⟨keepDels, runs, hbatch, hruns, h⟩
  all_goals rw [h]
  · refine hs.beside rfl rfl rfl rfl rfl (fun _ _ => rfl) ?_
    intro d hd
    obtain rfl := Option.some.inj hd
    refine ⟨hchild.runNo_lt, hchild.not_named, hchild.not_frozen, hchild.inherited_lt,
      hchild.inputs_eq, hchild.k_ne, (fun m live hst => by cases hst), ?_⟩
    cases hchild.tracks with
    | lost e hmem hgone => exact .lost e hmem hgone
    | intact rest hcur _ => exact .intact rest hcur fun m live hst => by cases hst
  · have hother : ∀ rs : List Nat, c.runNo ∉ rs → ∀ r ∈ rs,
        s.files.put c.runNo (Run.merge keepDels runs) r = s.files r :=
      fun rs hrs => files_put_of_not_mem hrs _
    refine hs.beside rfl rfl rfl rfl rfl (hother _ hchild.not_named) ?_
    intro d hd
    obtain rfl := Option.some.inj hd
    refine ⟨hchild.runNo_lt, hchild.not_named, hchild.not_frozen,
      hchild.inherited_lt, hchild.inputs_eq, hchild.k_ne, ?_, ?_⟩
    · intro m live hst
      cases hst
      rfl
    · cases hchild.tracks with
      | lost e hmem hgone => exact .lost e hmem hgone
      | intact rest hcur _ =>
          refine .intact rest hcur fun m live hst =>
            ⟨keepDels, Run.merge keepDels runs, ?_⟩
          cases hst
          have hin : c.runNo ∉ runNos (batch c.inherited c.lo c.k) := by
            intro hmem
            obtain ⟨e, he, heq⟩ := mem_runNos.mp hmem
            have := hchild.inherited_lt e.runNo (List.mem_map_of_mem
              (mem_survivors_or_batch.mpr (Or.inr he)))
            omega
          exact
            { range := hbatch
              manifest := rfl
              written := PMap.put_self ..
              find_eq := fun o => by
                rw [runLayers_congr (hother _ hin), Run.find_merge,
                  readRuns_layers hruns] }

theorem compactChildRun : KeepsRuns s (compactChildRun s) := by
  unfold Storage.compactChildRun
  split
  · next c hc =>
      split
      · exact hs.compactChildMerge hc
      · exact .refl hs
  · exact .refl hs

end Lsm.Sound

theorem advanceCounters_le (m : List ManifestEntry) (g n : Nat) :
    n ≤ (advanceCounters m g n).2 := by
  induction m generalizing g n with
  | nil => exact le_rfl
  | cons e es ih => exact (le_max_left n (e.runNo + 1)).trans (ih _ _)

/-- What `lsm_manifest_adopt_child` leaves: the state as it was, or the batch
replaced in the manifest of now. -/
theorem Lsm.Sound.reconcile_eq {s : Lsm} (hs : s.Sound) {c : CompactChild}
    (hc : s.child = some c) {childM m : List ManifestEntry} {live : Option Int}
    (hst : c.status = .finished childM live)
    (h : reconcile s.manifestCap s.manifest childM c.inputs = some m) :
    m = mergedManifest s.manifest c.lo c.k ⟨c.gen, c.runNo⟩ ∧
      ∃ rest keepDels run, s.manifest = c.inherited ++ rest ∧
        Output s.files c childM keepDels run := by
  have hchild := hs.child c hc
  rw [hchild.finished childM live hst, hchild.inputs_eq] at h
  cases hchild.tracks with
  | lost e hmem hgone =>
      have hlt := hchild.inherited_lt e.runNo (List.mem_map_of_mem hmem)
      rw [reconcile_lost hmem hgone hchild.not_named hlt.ne] at h
      cases h
  | intact rest hcur hout =>
      obtain ⟨keepDels, run, ho⟩ := hout childM live hst
      have hle := (compactBatch_spec ho.range).2.1
      exact ⟨reconcile_intact hcur hs.nodup hchild.not_named hle h,
        rest, keepDels, run, hcur, ho⟩

/-- Adopting a finished merge, whatever becomes of the files of its inputs. -/
theorem Lsm.Sound.adopted {s s' : Lsm} (hs : s.Sound) {c : CompactChild}
    (hc : s.child = some c) {childM m : List ManifestEntry} {live : Option Int}
    (hst : c.status = .finished childM live)
    (h : reconcile s.manifestCap s.manifest childM c.inputs = some m)
    (hman : s'.manifest = m) (hlive : s'.live = s.live) (hfrozen : s'.frozen = s.frozen)
    (hasync : s'.asyncFlush = s.asyncFlush) (hnext : s.nextRunNo ≤ s'.nextRunNo)
    (hfiles : ∀ r, r ∉ c.inputs → s'.files r = s.files r) (hnone : s'.child = none) :
    KeepsRuns s s' := by
  have hchild := hs.child c hc
  obtain ⟨rfl, rest, keepDels, run, hcur, ho⟩ := hs.reconcile_eq hc hst h
  obtain ⟨-, hle, hkeep, -⟩ := compactBatch_spec ho.range
  have hbatch : batch s.manifest c.lo c.k = batch c.inherited c.lo c.k := by
    rw [hcur, batch_append hle]
  have hinputs : c.inputs = runNos (batch s.manifest c.lo c.k) := by
    rw [hchild.inputs_eq, hbatch]
  have hrep : BatchReplaced s s' c.lo c.k ⟨c.gen, c.runNo⟩ run :=
    { manifest := hman
      written := by
        rw [hfiles, ho.written]
        rw [hinputs]
        intro hmem
        obtain ⟨e, he, heq⟩ := mem_runNos.mp hmem
        have heq' : e.runNo = c.runNo := heq
        exact hchild.not_named (heq' ▸ List.mem_map_of_mem
          (mem_survivors_or_batch.mpr (Or.inr he)))
      same := fun r hr => hfiles r (hinputs ▸ survivors_disjoint_batch hs.nodup _ _ r hr)
      asyncFlush := hasync
      frozen := hfrozen
      next_le := hnext
      lt_next := hchild.runNo_lt.trans_le hnext
      fresh := hchild.not_named
      frozen_ne := fun fz hfz => (hchild.not_frozen fz hfz).1 }
  refine hrep.keepsRuns (hs.batchReplaced hrep fun d hd => ?_) hlive hkeep ?_
  · rw [hnone] at hd
    cases hd
  · rw [hbatch]
    exact ho.find_eq

/-- The state after an adoption, for the files it leaves. -/
def adoptedState (s : Lsm) (c : CompactChild) (m : List ManifestEntry)
    (live : Option Int) (files : PMap Nat (Run Outpoint Coin)) : Lsm :=
  { s with
    manifest := m
    persistedLive := (adoptedCount c.isFull s.persistedLive c.oldBase live).1
    totalLive := s.totalLive + (adoptedCount c.isFull s.persistedLive c.oldBase live).2
    nextGen := (advanceCounters m s.nextGen s.nextRunNo).1
    nextRunNo := (advanceCounters m s.nextGen s.nextRunNo).2
    files := files
    child := none }

/-- Nothing yet, the merge dropped, or the merge adopted. -/
theorem compactAdopt_cases (pub : Publish) (s : Lsm) (c : CompactChild) :
    compactAdopt pub s c = s ∨
      compactAdopt pub s c = { s with files := s.files.del c.runNo, child := none } ∨
      ∃ childM live m files, c.status = .finished childM live ∧
        reconcile s.manifestCap s.manifest childM c.inputs = some m ∧
        (∀ r, r ∉ c.inputs → files r = s.files r) ∧
        compactAdopt pub s c = adoptedState s c m live files := by
  unfold compactAdopt
  cases hst : c.status with
  | running => exact Or.inl rfl
  | failed => exact Or.inr (Or.inl rfl)
  | finished childM live =>
      refine Or.inr ?_
      simp only [lsmManifestAdoptChild]
      cases hrec : reconcile s.manifestCap s.manifest childM c.inputs with
      | none => exact Or.inl rfl
      | some m =>
          simp only
          cases pub with
          | failed => exact Or.inl rfl
          | durable =>
              refine Or.inr ⟨childM, live, m, _, rfl, hrec, ?_, rfl⟩
              intro r hr
              simp only [PMap.delAll_apply]
              exact if_neg fun hmem => hr (List.mem_filter.mp hmem).1
          | unsynced => exact Or.inr ⟨childM, live, m, s.files, rfl, hrec, fun _ _ => rfl, rfl⟩

theorem compactPoll_asyncFlush (pub : Publish) (s : Lsm) :
    (compactPoll pub s).asyncFlush = s.asyncFlush := by
  unfold compactPoll
  split
  · next c _ =>
      rcases compactAdopt_cases pub s c with h | h | ⟨_, _, _, _, _, _, _, h⟩
      all_goals rw [h]
      all_goals rfl
  · rfl

namespace Lsm.Sound

variable {s : Lsm} (hs : s.Sound)

include hs

theorem compactAdopt (pub : Publish) {c : CompactChild} (hc : s.child = some c) :
    KeepsRuns s (compactAdopt pub s c) := by
  have hchild := hs.child c hc
  rcases compactAdopt_cases pub s c with h | h | ⟨childM, live, m, files, hst, hrec, hfiles, h⟩
  · rw [h]
    exact .refl hs
  · rw [h]
    refine hs.beside rfl rfl rfl rfl rfl ?_ fun d hd => by cases hd
    intro r hr
    exact PMap.del_of_ne _ fun heq => hchild.not_named (heq ▸ hr)
  · rw [h]
    exact hs.adopted hc hst hrec rfl rfl rfl rfl (advanceCounters_le _ _ _) hfiles rfl

theorem compactPoll (pub : Publish) : KeepsRuns s (compactPoll pub s) := by
  unfold Storage.compactPoll
  split
  · next c hc => exact hs.compactAdopt pub hc
  · exact .refl hs

end Lsm.Sound

/-! ## Flushing -/

theorem Generation.layer_empty (o : Outpoint) : Generation.empty.layer o = none := by
  simp [layer, empty, utxoGet]

theorem Generation.layer_of_isEmpty {g : Generation} (h : g.isEmpty = true)
    (o : Outpoint) : g.layer o = none := by
  apply layer_of_buildRun_none
  simp only [isEmpty, Bool.and_eq_true, List.isEmpty_iff] at h
  simp [buildRun, descriptors, h.1, h.2]

/-- The state after an inline flush. -/
def flushedState (s : Lsm) (run : Run Outpoint Coin) : Lsm :=
  { s with
    live := Generation.empty
    files := s.files.put s.nextRunNo run
    manifest := s.manifest ++ [⟨s.nextGen, s.nextRunNo⟩]
    nextGen := s.nextGen + 1
    nextRunNo := s.nextRunNo + 1
    persistedLive := some s.totalLive }

/-- After the gate: nothing, a silent generation given up, or a run written. -/
theorem macFlush_cases (gate : Publish) (s : Lsm) :
    (macFlush gate s).1 = compactPoll gate s ∨
      ((∀ o, (compactPoll gate s).live.layer o = none) ∧
        (macFlush gate s).1 = { compactPoll gate s with live := Generation.empty }) ∨
      ∃ run, (compactPoll gate s).live.buildRun = some run ∧
        (macFlush gate s).1 = flushedState (compactPoll gate s) run := by
  unfold macFlush
  simp only
  split
  · next hempty => exact Or.inr (Or.inl ⟨Generation.layer_of_isEmpty hempty, rfl⟩)
  split
  · exact Or.inl rfl
  split
  · next hnone => exact Or.inr (Or.inl ⟨Generation.layer_of_buildRun_none hnone, rfl⟩)
  · next run hrun => exact Or.inr (Or.inr ⟨run, hrun, rfl⟩)

/-- The state after a freeze. -/
def frozenState (s : Lsm) : Lsm :=
  { s with
    frozen := some ⟨s.live, s.nextGen, s.nextRunNo⟩
    nextGen := s.nextGen + 1
    nextRunNo := s.nextRunNo + 1
    live := Generation.empty }

theorem utxoLsmFreeze_cases (gate : Publish) (s : Lsm) :
    (utxoLsmFreeze gate s).1 = compactPoll gate s ∨
      (compactPoll gate s).frozen = none ∧
        (utxoLsmFreeze gate s).1 = frozenState (compactPoll gate s) := by
  unfold utxoLsmFreeze
  simp only
  split
  · exact Or.inl rfl
  split
  · exact Or.inl rfl
  · next hnone => exact Or.inr ⟨by simpa using hnone, rfl⟩

/-- The state after the run of a frozen generation was adopted. -/
def fzAdoptedState (s : Lsm) (fz : Frozen) (run : Run Outpoint Coin) : Lsm :=
  { s with
    files := s.files.put fz.runNo run
    manifest := s.manifest ++ [⟨fz.gen, fz.runNo⟩]
    persistedLive := do return (← s.persistedLive) + (← s.fzDelta)
    frozen := none }

/-- Nothing frozen, a silent generation given up, its run left an orphan, or its
run adopted. -/
theorem fzAdopt_cases (pub : Publish) (s : Lsm) :
    (s.frozen = none ∧ fzAdopt pub s = s) ∨
      ∃ fz, s.frozen = some fz ∧
        ((∀ o, fz.generation.layer o = none) ∧ fzAdopt pub s = { s with frozen := none } ∨
          ∃ run, fz.generation.buildRun = some run ∧
            (fzAdopt pub s = { s with files := s.files.put fz.runNo run, fzFatal := true } ∨
              fzAdopt pub s = fzAdoptedState s fz run)) := by
  unfold fzAdopt
  split
  · next hnone => exact Or.inl ⟨hnone, rfl⟩
  next fz hfz =>
    refine Or.inr ⟨fz, hfz, ?_⟩
    split
    · next hnone => exact Or.inl ⟨Generation.layer_of_buildRun_none hnone, rfl⟩
    next run hrun =>
      refine Or.inr ⟨run, hrun, ?_⟩
      split
      · exact Or.inl rfl
      · exact Or.inr rfl

/-- A poll that does not end in an error leaves nothing frozen. -/
theorem fzPoll_frozen {pub : Publish} {s : Lsm} (h : (fzPoll pub s).fzFatal = false) :
    (fzPoll pub s).frozen = none := by
  unfold fzPoll at h ⊢
  split at h
  · next hfatal =>
      rw [hfatal] at h
      cases h
  next hfatal =>
    rw [if_neg hfatal]
    rcases fzAdopt_cases pub s with ⟨hnone, heq⟩ | ⟨fz, -, ⟨-, heq⟩ | ⟨run, -, heq | heq⟩⟩
    all_goals rw [heq] at h ⊢
    · exact hnone
    · cases h
    · rfl

/-- Giving up a generation that says nothing. -/
theorem Lsm.Sound.cleared {s s' : Lsm} (hs : s.Sound)
    (hsilent : ∀ o, s.live.layer o = none)
    (hs' : s' = { s with live := Generation.empty }) : Keeps s s' := by
  subst hs'
  refine ⟨⟨hs.readable, hs.nodup, hs.below, hs.frozen, hs.child⟩, ?_⟩
  rw [Lsm.coins, Lsm.coins, Lsm.stack, Lsm.stack]
  exact (stackMap_silent Generation.layer_empty [] _).trans
    (stackMap_silent hsilent [] _).symm

namespace Lsm.Sound

variable {s : Lsm} (hs : s.Sound)

include hs

theorem not_frozen (hinline : s.asyncFlush = false) : s.frozen = none := by
  cases hf : s.frozen with
  | none => rfl
  | some fz =>
      have := (hs.frozen fz hf).1
      rw [hinline] at this
      cases this

theorem flushedState_added (run : Run Outpoint Coin) :
    RunAdded s (flushedState s run) ⟨s.nextGen, s.nextRunNo⟩ run where
  manifest := rfl
  files := rfl
  asyncFlush := rfl
  child := rfl
  next_le := Nat.le_succ _
  lt_next := Nat.lt_succ_self _
  fresh := hs.next_not_named
  frozen := fun _ hfz => ⟨hfz, hs.next_ne_frozen hfz⟩
  child_fresh := fun _ hc => hs.next_child hc

theorem fzAdoptedState_added {fz : Frozen} (hfz : s.frozen = some fz)
    (run : Run Outpoint Coin) :
    RunAdded s (fzAdoptedState s fz run) ⟨fz.gen, fz.runNo⟩ run where
  manifest := rfl
  files := rfl
  asyncFlush := rfl
  child := rfl
  next_le := le_rfl
  lt_next := (hs.frozen fz hfz).2.1
  fresh := (hs.frozen fz hfz).2.2
  frozen := fun f hf => by cases hf
  child_fresh := fun c hc => (hs.child c hc).not_frozen fz hfz

theorem macFlush (gate : Publish) (hinline : s.asyncFlush = false) :
    Keeps s (macFlush gate s).1 := by
  have hpoll := (hs.compactPoll gate).keeps
  have hs' := hpoll.sound
  have hasync := (compactPoll_asyncFlush gate s).trans hinline
  refine hpoll.trans ?_
  rcases macFlush_cases gate s with h | ⟨hsilent, h⟩ | ⟨run, hrun, h⟩
  all_goals rw [h]
  · exact .refl hs'
  · exact hs'.cleared hsilent rfl
  generalize Storage.compactPoll gate s = s at hs' hasync hrun ⊢
  refine ⟨hs'.runAdded (hs'.flushedState_added run), ?_⟩
  have hlayer : run.find = s.live.layer := funext (Generation.find_buildRun hrun)
  have hruns := runLayers_append_run s.files
    (e := ⟨s.nextGen, s.nextRunNo⟩) hs'.next_not_named run
  simp only [Lsm.coins, Lsm.stack, flushedState, hs'.not_frozen hasync] at hruns ⊢
  rw [hruns, hlayer]
  exact stackMap_silent Generation.layer_empty [] _

theorem utxoLsmFreeze (gate : Publish) (hasync : s.asyncFlush = true) :
    Keeps s (utxoLsmFreeze gate s).1 := by
  have hpoll := (hs.compactPoll gate).keeps
  have hs' := hpoll.sound
  have hasync' := (compactPoll_asyncFlush gate s).trans hasync
  refine hpoll.trans ?_
  rcases utxoLsmFreeze_cases gate s with h | ⟨hfrozen, h⟩
  all_goals rw [h]
  · exact .refl hs'
  generalize Storage.compactPoll gate s = s at hs' hasync' hfrozen ⊢
  refine ⟨⟨hs'.readable, hs'.nodup,
    fun r hr => (hs'.below r hr).trans (Nat.lt_succ_self _), ?_, ?_⟩, ?_⟩
  · intro fz hfz
    obtain rfl := Option.some.inj hfz
    exact ⟨hasync', Nat.lt_succ_self _, hs'.next_not_named⟩
  · intro c hc
    have hchild := hs'.child c hc
    refine ⟨hchild.runNo_lt.trans (Nat.lt_succ_self _), hchild.not_named, ?_,
      hchild.inherited_lt, hchild.inputs_eq, hchild.k_ne, hchild.finished,
      hchild.tracks⟩
    intro fz hfz
    obtain rfl := Option.some.inj hfz
    exact hs'.next_child hc
  · simp only [Lsm.coins, Lsm.stack, frozenState, hfrozen]
    exact stackMap_silent Generation.layer_empty [] _

/-- The run of a frozen generation that stays an orphan. -/
theorem orphaned {fz : Frozen} (hfz : s.frozen = some fz) (run : Run Outpoint Coin) :
    KeepsRuns s { s with files := s.files.put fz.runNo run, fzFatal := true } := by
  refine hs.beside rfl rfl rfl rfl rfl (files_put_of_not_mem (hs.frozen fz hfz).2.2 run) ?_
  intro c hc
  have hchild := hs.child c hc
  obtain ⟨hne, hin⟩ := hchild.not_frozen fz hfz
  refine ⟨hchild.runNo_lt, hchild.not_named, hchild.not_frozen,
    hchild.inherited_lt, hchild.inputs_eq, hchild.k_ne, hchild.finished, ?_⟩
  cases hchild.tracks with
  | lost e hmem hgone => exact .lost e hmem hgone
  | intact rest hcur hout =>
      refine .intact rest hcur fun m live hst => ?_
      obtain ⟨keepDels, out, ho⟩ := hout m live hst
      exact ⟨keepDels, out, ho.congr (PMap.put_of_ne _ _ hne.symm)
        (files_put_of_not_mem hin run)⟩

theorem fzAdopt (pub : Publish) : Keeps s (fzAdopt pub s) := by
  rcases fzAdopt_cases pub s with ⟨-, h⟩ | ⟨fz, hfz, ⟨hsilent, h⟩ | ⟨run, hrun, h | h⟩⟩
  all_goals rw [h]
  · exact .refl hs
  · refine ⟨⟨hs.readable, hs.nodup, hs.below, (fun f hf => by cases hf), ?_⟩, ?_⟩
    · intro c hc
      have hchild := hs.child c hc
      exact ⟨hchild.runNo_lt, hchild.not_named, (fun f hf => by cases hf),
        hchild.inherited_lt, hchild.inputs_eq, hchild.k_ne, hchild.finished,
        hchild.tracks⟩
    · simp only [Lsm.coins, Lsm.stack, hfz]
      exact (stackMap_silent hsilent [s.live.layer] _).symm
  · exact (hs.orphaned hfz run).keeps
  · refine ⟨hs.runAdded (hs.fzAdoptedState_added hfz run), ?_⟩
    have hlayer : run.find = fz.generation.layer :=
      funext (Generation.find_buildRun hrun)
    have hruns := runLayers_append_run s.files
      (e := ⟨fz.gen, fz.runNo⟩) (hs.frozen fz hfz).2.2 run
    simp only [Lsm.coins, Lsm.stack, fzAdoptedState, hfz] at hruns ⊢
    rw [hruns, hlayer]
    rfl

theorem fzPoll (pub : Publish) : Keeps s (fzPoll pub s) := by
  unfold Storage.fzPoll
  split
  · exact .refl hs
  · exact hs.fzAdopt pub

end Lsm.Sound

theorem fzPoll_asyncFlush (pub : Publish) (s : Lsm) :
    (fzPoll pub s).asyncFlush = s.asyncFlush := by
  unfold fzPoll fzAdopt
  repeat' split
  all_goals rfl

namespace Lsm.Sound

variable {s : Lsm} (hs : s.Sound)

include hs

theorem fzHook (pub gate : Publish) (hasync : s.asyncFlush = true) :
    Keeps s (fzHook pub gate s).1 := by
  unfold Storage.fzHook
  split
  · exact .refl hs
  have hpoll := hs.fzPoll pub
  have hs' := hpoll.sound
  have hasync' := (fzPoll_asyncFlush pub s).trans hasync
  generalize Storage.fzPoll pub s = t at hpoll hs' hasync' ⊢
  simp only
  split
  · exact hpoll
  · have hnoted : Keeps t { t with fzDelta := t.persistedLive.map (t.totalLive - ·) } :=
      ⟨⟨hs'.readable, hs'.nodup, hs'.below, hs'.frozen, hs'.child⟩, rfl⟩
    exact hpoll.trans (hnoted.trans (hnoted.sound.utxoLsmFreeze gate hasync'))

theorem flushGeneration (pub gate : Publish) :
    Keeps s (flushGeneration pub gate s).1 := by
  unfold Storage.flushGeneration
  cases hasync : s.asyncFlush with
  | true => exact hs.fzHook pub gate hasync
  | false => exact hs.macFlush gate hasync

end Lsm.Sound

/-! ## Writing -/

theorem utxoLsmPut_new {s s' : Lsm} {o : Outpoint} {c : Coin}
    (h : utxoLsmPut s o c = .new s') :
    ∃ fill, s' = { s with
      live := ⟨⟨s.live.table.slots.insert o c, fill⟩, s.live.tombs⟩
      totalLive := s.totalLive + 1 } := by
  unfold utxoLsmPut at h
  simp only at h
  split at h
  · cases h
  split at h
  · cases h
  · exact ⟨_, (PutResult.new.inj h).symm⟩

theorem Lsm.Sound.utxoLsmPut {s s' : Lsm} (hs : s.Sound) {o : Outpoint} {c : Coin}
    (h : utxoLsmPut s o c = .new s') : s'.Sound ∧ s'.coins = s.coins.put o c := by
  obtain ⟨fill, rfl⟩ := utxoLsmPut_new h
  refine ⟨⟨hs.readable, hs.nodup, hs.below, hs.frozen, hs.child⟩, ?_⟩
  funext x
  rw [PMap.put_apply]
  simp only [Lsm.coins, Lsm.stack, stackMap_cons, Generation.layer, utxoGet]
  by_cases hx : x = o
  · subst hx
    simp [AList.lookup_insert]
  · rw [AList.lookup_insert_ne hx, if_neg hx]

theorem utxoLsmDel_some {s s' : Lsm} {o : Outpoint} (h : utxoLsmDel s o = some s') :
    s' = { s with
      live := ⟨⟨s.live.table.slots.erase o, s.live.table.fill⟩, recordTomb s.live.tombs o⟩
      totalLive := s.totalLive - 1 } := by
  unfold utxoLsmDel at h
  split at h
  · cases h
  · exact (Option.some.inj h).symm

theorem Lsm.Sound.utxoLsmDel {s s' : Lsm} (hs : s.Sound) {o : Outpoint}
    (h : utxoLsmDel s o = some s') : s'.Sound ∧ s'.coins = s.coins.del o := by
  obtain rfl := utxoLsmDel_some h
  refine ⟨⟨hs.readable, hs.nodup, hs.below, hs.frozen, hs.child⟩, ?_⟩
  funext x
  rw [PMap.del_apply]
  simp only [Lsm.coins, Lsm.stack, stackMap_cons, Generation.layer, utxoGet,
    mem_recordTomb]
  by_cases hx : x = o
  · subst hx
    simp [AList.lookup_erase]
  · rw [AList.lookup_erase_ne hx, if_neg hx]
    simp [hx]

/-! ## Histories -/

/-- One step of the foreground or of a background process, beside the plain map
the same puts and deletes drive. -/
inductive LsmStep : Lsm × CoinSet → Lsm × CoinSet → Prop where
  | put {s s' : Lsm} {m : CoinSet} (o : Outpoint) (c : Coin) (habsent : m o = none)
      (hput : utxoLsmPut s o c = .new s') : LsmStep (s, m) (s', m.put o c)
  | del {s s' : Lsm} {m : CoinSet} (o : Outpoint) (hpresent : m o ≠ none)
      (hdel : utxoLsmDel s o = some s') : LsmStep (s, m) (s', m.del o)
  | flush {s : Lsm} {m : CoinSet} (pub gate : Publish) :
      LsmStep (s, m) ((flushGeneration pub gate s).1, m)
  | adoptFlush {s : Lsm} {m : CoinSet} (pub : Publish) :
      LsmStep (s, m) (fzPoll pub s, m)
  | compact {s : Lsm} {m : CoinSet} (lo k : Nat) :
      LsmStep (s, m) ((utxoLsmCompactRange s lo k).1, m)
  | startCompact {s : Lsm} {m : CoinSet} (lo k : Nat) :
      LsmStep (s, m) (compactStartAsync s lo k, m)
  | childMerges {s : Lsm} {m : CoinSet} : LsmStep (s, m) (compactChildRun s, m)
  | adoptCompact {s : Lsm} {m : CoinSet} (pub : Publish) :
      LsmStep (s, m) (compactPoll pub s, m)

/-- The store is sound and holds exactly the coins of a map. -/
structure Represents (s : Lsm) (m : CoinSet) : Prop where
  sound : s.Sound
  coins_eq : s.coins = m

theorem Keeps.represents {s s' : Lsm} {m : CoinSet} (h : Represents s m)
    (hk : s.Sound → Keeps s s') : Represents s' m :=
  ⟨(hk h.sound).sound, (hk h.sound).coins_eq.trans h.coins_eq⟩

theorem Represents.init (slotMax blobCap tombCap manifestCap : Nat) (asyncFlush : Bool) :
    Represents (Lsm.init slotMax blobCap tombCap manifestCap asyncFlush)
      (fun _ => none) where
  sound :=
    { readable := fun e he => by cases he
      nodup := List.nodup_nil
      below := fun r hr => by cases hr
      frozen := fun fz hfz => by cases hfz
      child := fun c hc => by cases hc }
  coins_eq := stackMap_silent Generation.layer_empty [] []

theorem LsmStep.represents {p q : Lsm × CoinSet} (h : LsmStep p q)
    (hp : Represents p.1 p.2) : Represents q.1 q.2 := by
  cases h with
  | put o c _ hput =>
      obtain ⟨hs, hcoins⟩ := hp.sound.utxoLsmPut hput
      exact ⟨hs, hcoins.trans (congrArg (PMap.put · o c) hp.coins_eq)⟩
  | del o _ hdel =>
      obtain ⟨hs, hcoins⟩ := hp.sound.utxoLsmDel hdel
      exact ⟨hs, hcoins.trans (congrArg (PMap.del · o) hp.coins_eq)⟩
  | flush pub gate => exact Keeps.represents hp fun hs => hs.flushGeneration pub gate
  | adoptFlush pub => exact Keeps.represents hp fun hs => hs.fzPoll pub
  | compact lo k => exact Keeps.represents hp fun hs => (hs.utxoLsmCompactRange lo k).keeps
  | startCompact lo k => exact Keeps.represents hp fun hs => (hs.compactStartAsync lo k).keeps
  | childMerges => exact Keeps.represents hp fun hs => hs.compactChildRun.keeps
  | adoptCompact pub => exact Keeps.represents hp fun hs => (hs.compactPoll pub).keeps

theorem represents_of_history {p q : Lsm × CoinSet}
    (h : Relation.ReflTransGen LsmStep p q) (hp : Represents p.1 p.2) :
    Represents q.1 q.2 := by
  induction h with
  | refl => exact hp
  | tail _ hstep ih => exact hstep.represents ih

def sampleOutpoint (i : UInt32) : Outpoint := ⟨Txid.ofBytes [1], i⟩

def sampleOutput : Coin := ⟨50, 1, true, [], by decide⟩

end BitcoinMachineCode.Storage
