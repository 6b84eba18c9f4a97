import BitcoinMachineCode.Storage.Lsm
import Mathlib.Logic.Relation

/-!
# Reads of the layered store

The generations and runs as one stack of layers, newest first.  Every step of
the store, in the foreground or in a child, keeps the map the stack holds
except for its own put or delete, and `utxo_lsm_get` reads that map.
-/

namespace BitcoinMachineCode.Storage

open BitcoinMachineCode.Foundation

/-! ## The stack -/

def runLayer (files : PMap Nat (Run Outpoint Coin)) (e : ManifestEntry) :
    Layer Outpoint Coin := fun o =>
  (files e.runNo).bind fun run => run.find o

/-- The runs of a manifest, newest first. -/
def runLayers (files : PMap Nat (Run Outpoint Coin)) (m : List ManifestEntry) :
    List (Layer Outpoint Coin) :=
  m.reverse.map (runLayer files)

def frozenLayers (fz : Option Frozen) : List (Layer Outpoint Coin) :=
  (fz.map fun f => f.generation.layer).toList

namespace Lsm

def stack (s : Lsm) : List (Layer Outpoint Coin) :=
  s.live.layer :: (frozenLayers s.frozen ++ runLayers s.files s.manifest)

/-- The coins the store holds. -/
def coins (s : Lsm) : CoinSet := stackMap s.stack

end Lsm

theorem runLayers_append (files : PMap Nat (Run Outpoint Coin))
    (a b : List ManifestEntry) :
    runLayers files (a ++ b) = runLayers files b ++ runLayers files a := by
  simp [runLayers]

theorem runLayers_congr {files files' : PMap Nat (Run Outpoint Coin)}
    {m : List ManifestEntry} (h : ∀ r ∈ runNos m, files' r = files r) :
    runLayers files' m = runLayers files m := by
  refine List.map_congr_left fun e he => ?_
  have hmem : e.runNo ∈ runNos m :=
    List.mem_map_of_mem (List.mem_reverse.mp he)
  funext o
  rw [runLayer, runLayer, h _ hmem]

@[simp] theorem mem_runNos {r : Nat} {m : List ManifestEntry} :
    r ∈ runNos m ↔ ∃ e ∈ m, e.runNo = r := List.mem_map

theorem runNos_append (a b : List ManifestEntry) :
    runNos (a ++ b) = runNos a ++ runNos b := List.map_append

/-! ## Reading the stack -/

/-- The answer that reports what a map holds. -/
def LsmAnswer.ofOption : Option Coin → LsmAnswer
  | some c => .found c
  | none => .absent

/-- What `utxo_lsm_get` answers where a stack answers `v`. -/
def answerOf (v : Option (Option Coin)) : LsmAnswer := .ofOption v.join

theorem getFromRuns_eq {files : PMap Nat (Run Outpoint Coin)}
    {m : List ManifestEntry} (h : ∀ e ∈ m, (files e.runNo).isSome) (o : Outpoint) :
    getFromRuns files o m = answerOf (overlay (m.map (runLayer files)) o) := by
  induction m with
  | nil => rfl
  | cons e es ih =>
      obtain ⟨run, hrun⟩ := Option.isSome_iff_exists.mp (h e List.mem_cons_self)
      have htail := ih fun x hx => h x (List.mem_cons_of_mem _ hx)
      rw [getFromRuns, List.map_cons, overlay_cons]
      simp only [hrun, runLayer, Option.bind_some]
      cases run.find o with
      | none => exact htail
      | some v => cases v <;> rfl

theorem getFromGeneration_eq (g : Generation) (o : Outpoint)
    (v : Option (Option Coin)) :
    getFromGeneration g o (answerOf v) = answerOf ((g.layer o).or v) := by
  rw [getFromGeneration, Generation.layer]
  cases utxoGet g.table o with
  | some c => rfl
  | none =>
      simp only
      split <;> rfl

/-! ## Batches of a manifest -/

theorem compactBatch_spec {n lo k lo' k' : Nat} {keepDels : Bool}
    (h : compactBatch n lo k = some (lo', k', keepDels)) :
    2 ≤ k' ∧ lo' + k' ≤ n ∧ (keepDels = true ∨ lo' = 0) ∧
      (k ≠ 0 → lo' = lo ∧ k' = k) := by
  unfold compactBatch at h
  split at h
  · cases h
  split at h
  · obtain ⟨rfl, rfl, rfl⟩ := by simpa using h
    refine ⟨?_, ?_, Or.inr rfl, fun hk => absurd ‹k = 0› hk⟩
    · simp only [compactMaxRuns]
      omega
    · omega
  split at h
  · cases h
  split at h
  · obtain ⟨rfl, rfl, rfl⟩ := by simpa using h
    exact ⟨by omega, by omega, Or.inr rfl, fun _ => ⟨by omega, rfl⟩⟩
  split at h
  · obtain ⟨rfl, rfl, rfl⟩ := by simpa using h
    exact ⟨by omega, by omega, Or.inl rfl, fun _ => ⟨rfl, rfl⟩⟩
  · cases h

theorem take_batch_drop (m : List ManifestEntry) (lo k : Nat) :
    m = m.take lo ++ (batch m lo k ++ m.drop (lo + k)) := by
  rw [batch, ← List.drop_drop, List.take_append_drop, List.take_append_drop]

theorem batch_append {a : List ManifestEntry} {lo k : Nat} (h : lo + k ≤ a.length)
    (b : List ManifestEntry) : batch (a ++ b) lo k = batch a lo k := by
  rw [batch, batch, List.drop_append_of_le_length (by omega),
    List.take_append_of_le_length (by simp; omega)]

theorem mergedManifest_append {a : List ManifestEntry} {lo k : Nat}
    (h : lo + k ≤ a.length) (b : List ManifestEntry) (e : ManifestEntry) :
    mergedManifest (a ++ b) lo k e = mergedManifest a lo k e ++ b := by
  rw [mergedManifest, mergedManifest, List.take_append_of_le_length (by omega),
    List.drop_append_of_le_length h]
  simp

/-- The entries a merge leaves alone. -/
def survivors (m : List ManifestEntry) (lo k : Nat) : List ManifestEntry :=
  m.take lo ++ m.drop (lo + k)

theorem mem_mergedManifest {m : List ManifestEntry} {lo k : Nat}
    {e x : ManifestEntry} :
    x ∈ mergedManifest m lo k e ↔ x = e ∨ x ∈ survivors m lo k := by
  simp only [mergedManifest, survivors, List.mem_append, List.mem_cons]
  tauto

theorem perm_survivors_batch (m : List ManifestEntry) (lo k : Nat) :
    (survivors m lo k ++ batch m lo k).Perm m := by
  conv_rhs => rw [take_batch_drop m lo k]
  rw [survivors, List.append_assoc]
  exact List.Perm.append_left _ List.perm_append_comm

theorem mem_survivors_or_batch {m : List ManifestEntry} {lo k : Nat}
    {x : ManifestEntry} : x ∈ m ↔ x ∈ survivors m lo k ∨ x ∈ batch m lo k := by
  rw [← (perm_survivors_batch m lo k).mem_iff, List.mem_append]

theorem survivors_disjoint_batch {m : List ManifestEntry} (h : (runNos m).Nodup)
    (lo k : Nat) : ∀ r ∈ runNos (survivors m lo k), r ∉ runNos (batch m lo k) := by
  have hperm := (perm_survivors_batch m lo k).map ManifestEntry.runNo
  rw [List.map_append] at hperm
  have hnodup := hperm.nodup_iff.mpr h
  exact fun r hs hb => (List.nodup_append.mp hnodup).2.2 r hs r hb rfl

theorem nodup_runNos_survivors {m : List ManifestEntry} (h : (runNos m).Nodup)
    (lo k : Nat) : (runNos (survivors m lo k)).Nodup := by
  have hperm := (perm_survivors_batch m lo k).map ManifestEntry.runNo
  rw [List.map_append] at hperm
  exact (List.nodup_append.mp (hperm.nodup_iff.mpr h)).1

theorem runNos_mergedManifest_perm (m : List ManifestEntry) (lo k : Nat)
    (e : ManifestEntry) :
    (runNos (mergedManifest m lo k e)).Perm (e.runNo :: runNos (survivors m lo k)) := by
  rw [mergedManifest, survivors, runNos_append, runNos_append]
  exact List.perm_middle

theorem readRuns_layers {files : PMap Nat (Run Outpoint Coin)}
    {es : List ManifestEntry} {runs : List (Run Outpoint Coin)}
    (h : readRuns files es = some runs) : Run.layers runs = runLayers files es := by
  have hmap : runs.map Run.find = es.map (runLayer files) := by
    induction es generalizing runs with
    | nil =>
        obtain rfl : runs = [] := by simpa [readRuns] using h.symm
        rfl
    | cons e es ih =>
        simp only [readRuns, List.mapM_cons, Option.bind_eq_bind,
          Option.bind_eq_some_iff, Option.pure_def] at h
        obtain ⟨run, hrun, rest, hrest, hruns⟩ := h
        obtain rfl := Option.some.inj hruns
        rw [List.map_cons, List.map_cons, ih hrest]
        congr 1
        funext o
        simp [runLayer, hrun]
  rw [Run.layers, runLayers, List.map_reverse, List.map_reverse, hmap]

theorem readRuns_isSome (files : PMap Nat (Run Outpoint Coin))
    (es : List ManifestEntry) (h : ∀ e ∈ es, (files e.runNo).isSome) :
    ∃ runs, readRuns files es = some runs := by
  induction es with
  | nil => exact ⟨[], rfl⟩
  | cons e es ih =>
      obtain ⟨run, hrun⟩ := Option.isSome_iff_exists.mp (h e List.mem_cons_self)
      obtain ⟨runs, hruns⟩ := ih fun x hx => h x (List.mem_cons_of_mem _ hx)
      refine ⟨run :: runs, ?_⟩
      rw [readRuns] at hruns
      simp [readRuns, List.mapM_cons, hrun, hruns]

theorem kept_true {ν : Type*} (v : Option (Option ν)) : kept true v = v := by
  cases v <;> simp [kept, Option.filter]

theorem join_kept {ν : Type*} (keepDels : Bool) (v : Option (Option ν)) :
    (kept keepDels v).join = v.join := by
  rcases v with _ | _ | c
  · rfl
  · cases keepDels <;> rfl
  · rfl

/-- A merge in place of its batch leaves the map as it was: it answers as the
batch, or it forgets deletions with nothing below them. -/
theorem stackMap_mergedManifest {files files' : PMap Nat (Run Outpoint Coin)}
    {m : List ManifestEntry} {lo k : Nat} {keepDels : Bool} {e : ManifestEntry}
    {run : Run Outpoint Coin} (hkeep : keepDels = true ∨ lo = 0)
    (hrun : files' e.runNo = some run)
    (hfind : ∀ o, run.find o = kept keepDels (overlay (runLayers files (batch m lo k)) o))
    (hsame : ∀ r ∈ runNos (survivors m lo k), files' r = files r)
    (top : List (Layer Outpoint Coin)) :
    stackMap (top ++ runLayers files' (mergedManifest m lo k e)) =
      stackMap (top ++ runLayers files m) := by
  have htake : runLayers files' (m.take lo) = runLayers files (m.take lo) :=
    runLayers_congr fun r hr => hsame r (by
      rw [survivors, runNos_append]
      exact List.mem_append_left _ hr)
  have hdrop : runLayers files' (m.drop (lo + k)) = runLayers files (m.drop (lo + k)) :=
    runLayers_congr fun r hr => hsame r (by
      rw [survivors, runNos_append]
      exact List.mem_append_right _ hr)
  have hone : ∀ o, overlay (runLayers files' [e]) o =
      kept keepDels (overlay (runLayers files (batch m lo k)) o) := by
    intro o
    rw [← hfind o]
    simp [runLayers, overlay_cons, runLayer, hrun]
  have hnew : mergedManifest m lo k e = m.take lo ++ ([e] ++ m.drop (lo + k)) := rfl
  conv_rhs => rw [take_batch_drop m lo k]
  rw [hnew, runLayers_append, runLayers_append, runLayers_append, runLayers_append,
    htake, hdrop]
  simp only [← List.append_assoc]
  rcases hkeep with rfl | rfl
  · refine stackMap_congr (fun o => ?_) _ _
    rw [hone, kept_true]
  · simp only [List.take_zero, runLayers, List.reverse_nil, List.map_nil,
      List.append_nil]
    refine stackMap_bottom (fun o => ?_) _
    have := hone o
    simp only [runLayers] at this
    rw [this, join_kept]

/-! ## Reconciling a child's manifest -/

section Reconcile

variable {cap : Nat} {cur child inherited m : List ManifestEntry} {inputs : List Nat}
  {lo k : Nat} {e : ManifestEntry}

theorem reconcile_some (h : reconcile cap cur child inputs = some m) :
    m = child ++ addedSince cur child inputs ∧
      (child.filter fun e => e.runNo ∉ runNos cur).length = 1 ∧
      (∀ r ∈ inputs, r ∈ runNos cur) ∧ m.length ≤ cap := by
  unfold reconcile at h
  split at h
  · cases h
  split at h
  · cases h
  split at h
  · cases h
  split at h
  · cases h
  split at h
  · cases h
  split at h
  · cases h
  · next hone hin hcap =>
      obtain rfl := Option.some.inj h
      refine ⟨rfl, by simpa using hone, ?_, not_lt.mp hcap⟩
      intro r hr
      by_contra hout
      exact hin (List.any_eq_true.mpr ⟨r, hr, by simpa using hout⟩)

/-- A run the child inherited is gone: an input is missing, or two runs of the
child's list are unknown. -/
theorem reconcile_lost {x : ManifestEntry} (hmem : x ∈ inherited)
    (hgone : x.runNo ∉ runNos cur) (hfresh : e.runNo ∉ runNos cur)
    (hne : x.runNo ≠ e.runNo) :
    reconcile cap cur (mergedManifest inherited lo k e)
      (runNos (batch inherited lo k)) = none := by
  cases h : reconcile cap cur (mergedManifest inherited lo k e)
      (runNos (batch inherited lo k)) with
  | none => rfl
  | some m =>
      obtain ⟨-, hone, hin, -⟩ := reconcile_some h
      rcases mem_survivors_or_batch.mp hmem with hs | hb
      · -- both the merged run and the lost one are unknown
        obtain ⟨y, hy⟩ := List.length_eq_one_iff.mp hone
        have hx : x ∈ [y] := by
          rw [← hy, List.mem_filter]
          exact ⟨mem_mergedManifest.mpr (Or.inr hs), by simpa using hgone⟩
        have he : e ∈ [y] := by
          rw [← hy, List.mem_filter]
          exact ⟨mem_mergedManifest.mpr (Or.inl rfl), by simpa using hfresh⟩
        rw [List.mem_singleton] at hx he
        rw [hx, he] at hne
        exact absurd rfl hne
      · exact absurd (hin x.runNo (List.mem_map_of_mem hb)) hgone

/-- Nothing but additions since the fork: the splice replaces the batch in the
manifest of now. -/
theorem splice_eq {rest : List ManifestEntry}
    (hcur : cur = inherited ++ rest) (hnodup : (runNos cur).Nodup)
    (hfresh : e.runNo ∉ runNos cur) (hle : lo + k ≤ inherited.length) :
    mergedManifest cur lo k e =
      mergedManifest inherited lo k e ++
        addedSince cur (mergedManifest inherited lo k e)
          (runNos (batch inherited lo k)) := by
  subst hcur
  rw [mergedManifest_append hle]
  congr 1
  rw [runNos_append] at hnodup hfresh
  obtain ⟨-, -, hdisj⟩ := List.nodup_append.mp hnodup
  have hold : addedSince inherited (mergedManifest inherited lo k e)
      (runNos (batch inherited lo k)) = [] := by
    rw [addedSince, List.filter_eq_nil_iff]
    intro x hx
    simp only [decide_eq_true_eq, not_and, not_not]
    intro hb
    rcases mem_survivors_or_batch.mp hx with hs | hb'
    · exact List.mem_map_of_mem (mem_mergedManifest.mpr (Or.inr hs))
    · exact absurd (List.mem_map_of_mem hb') hb
  have hnew : addedSince rest (mergedManifest inherited lo k e)
      (runNos (batch inherited lo k)) = rest := by
    rw [addedSince, List.filter_eq_self]
    intro x hx
    have hxr : x.runNo ∈ runNos rest := List.mem_map_of_mem hx
    have hout : ∀ y ∈ inherited, y.runNo ≠ x.runNo := fun y hy =>
      hdisj y.runNo (List.mem_map_of_mem hy) x.runNo hxr
    simp only [decide_eq_true_eq, mem_runNos, not_exists, not_and]
    constructor
    · intro y hy
      exact hout y (mem_survivors_or_batch.mpr (Or.inr hy))
    · intro y hy
      rcases mem_mergedManifest.mp hy with rfl | hy
      · intro heq
        exact hfresh (List.mem_append_right _ (heq ▸ hxr))
      · exact hout y (mem_survivors_or_batch.mpr (Or.inl hy))
  rw [addedSince, List.filter_append]
  rw [addedSince] at hold hnew
  rw [hold, hnew, List.nil_append]

theorem reconcile_intact {rest : List ManifestEntry}
    (hcur : cur = inherited ++ rest) (hnodup : (runNos cur).Nodup)
    (hfresh : e.runNo ∉ runNos cur) (hle : lo + k ≤ inherited.length)
    (h : reconcile cap cur (mergedManifest inherited lo k e)
      (runNos (batch inherited lo k)) = some m) :
    m = mergedManifest cur lo k e := by
  rw [(reconcile_some h).1, splice_eq hcur hnodup hfresh hle]

end Reconcile

/-! ## What every state of the store keeps -/

/-- A child that has finished left a run that answers for its batch. -/
structure Output (files : PMap Nat (Run Outpoint Coin)) (c : CompactChild)
    (m : List ManifestEntry) (keepDels : Bool) (run : Run Outpoint Coin) : Prop where
  range : compactBatch c.inherited.length c.lo c.k = some (c.lo, c.k, keepDels)
  manifest : m = mergedManifest c.inherited c.lo c.k ⟨c.gen, c.runNo⟩
  written : files c.runNo = some run
  find_eq : ∀ o, run.find o =
    kept keepDels (overlay (runLayers files (batch c.inherited c.lo c.k)) o)

/-- Where a merge child stands in relation to the manifest: the runs it
inherited are no longer all there, or they still are its oldest. -/
inductive Tracks (cur : List ManifestEntry) (files : PMap Nat (Run Outpoint Coin))
    (c : CompactChild) : Prop where
  | lost (e : ManifestEntry) (hmem : e ∈ c.inherited) (hgone : e.runNo ∉ runNos cur)
  | intact (rest : List ManifestEntry) (hcur : cur = c.inherited ++ rest)
      (hout : ∀ m live, c.status = .finished m live →
        ∃ keepDels run, Output files c m keepDels run)

structure ChildSound (cur : List ManifestEntry) (files : PMap Nat (Run Outpoint Coin))
    (nextRunNo : Nat) (frozen : Option Frozen) (c : CompactChild) : Prop where
  runNo_lt : c.runNo < nextRunNo
  not_named : c.runNo ∉ runNos cur
  not_frozen : ∀ fz, frozen = some fz →
    fz.runNo ≠ c.runNo ∧ fz.runNo ∉ runNos c.inherited
  inherited_lt : ∀ r ∈ runNos c.inherited, r < c.runNo
  inputs_eq : c.inputs = runNos (batch c.inherited c.lo c.k)
  k_ne : c.k ≠ 0
  finished : ∀ m live, c.status = .finished m live →
    m = mergedManifest c.inherited c.lo c.k ⟨c.gen, c.runNo⟩
  tracks : Tracks cur files c

structure Lsm.Sound (s : Lsm) : Prop where
  readable : ∀ e ∈ s.manifest, (s.files e.runNo).isSome
  nodup : (runNos s.manifest).Nodup
  below : ∀ r ∈ runNos s.manifest, r < s.nextRunNo
  frozen : ∀ fz, s.frozen = some fz →
    s.asyncFlush = true ∧ fz.runNo < s.nextRunNo ∧ fz.runNo ∉ runNos s.manifest
  child : ∀ c, s.child = some c →
    ChildSound s.manifest s.files s.nextRunNo s.frozen c

theorem utxoLsmGet_eq {s : Lsm} (hs : s.Sound) (o : Outpoint) :
    utxoLsmGet s o = .ofOption (s.coins o) := by
  have hruns := getFromRuns_eq (m := s.manifest.reverse)
    (fun e he => hs.readable e (List.mem_reverse.mp he)) o
  have hstack : s.coins o = (overlay s.stack o).join := rfl
  rw [hstack, Lsm.stack, overlay_cons, overlay_append]
  show _ = answerOf _
  rw [utxoLsmGet, hruns]
  cases hf : s.frozen with
  | none =>
      simp only [frozenLayers, Option.map_none, Option.toList_none, overlay_nil,
        Option.none_or, ite_self]
      exact getFromGeneration_eq _ _ _
  | some fz =>
      simp only [(hs.frozen fz hf).1, if_true, frozenLayers, Option.map_some,
        Option.toList_some, overlay_cons, overlay_nil, Option.or_none]
      rw [getFromGeneration_eq, getFromGeneration_eq]
      rfl

end BitcoinMachineCode.Storage
