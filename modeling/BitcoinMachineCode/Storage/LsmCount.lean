import BitcoinMachineCode.Storage.LsmHistory
import BitcoinMachineCode.Storage.LsmWalk

/-!
# The live counter

`total_live` goes up with every put the memtable takes and down with every
delete, and the manifest carries the count of its runs alone.  A merge of every
run, the net of a frozen generation and a reload all work from these two; where
each put is of a coin the set does not hold and each delete of one it does, the
counter stays the size of the set that the walk visits.
-/

namespace BitcoinMachineCode.Storage

open BitcoinMachineCode.Foundation

/-! ## Reloading -/

inductive WalOp where
  | push (o : Outpoint) (c : Coin)
  | del (o : Outpoint)

/-- `utxo_store_reload`: the log's tail into an empty table, `none` when the
table is full. -/
def replayWal (slotMax blobCap : Nat) (u : Memtable) : List WalOp → Option Memtable
  | [] => some u
  | .push o c :: tail =>
      if (utxoGet u o).isSome then replayWal slotMax blobCap u tail
      else if slotMax ≤ u.slots.entries.length ∨ blobCap < u.fill + recordBytes c then none
      else replayWal slotMax blobCap ⟨u.slots.insert o c, u.fill + recordBytes c⟩ tail
  | .del o :: tail => replayWal slotMax blobCap ⟨u.slots.erase o, u.fill⟩ tail

def WalOp.deleted : WalOp → Option Outpoint
  | .push _ _ => none
  | .del o => some o

/-- The rescan for the deletions, which stops where the list is full. -/
def walTombs (tombCap : Nat) (tail : List WalOp) : List Outpoint :=
  (tail.filterMap WalOp.deleted).take tombCap

/-- What a new process has read of the manifest and the log, its count not yet
set. -/
def reloadedState (s : Lsm) (table : Memtable) (tail : List WalOp) : Lsm :=
  { s with
    live := ⟨table, walTombs s.tombCap tail⟩
    frozen := none
    nextGen := (advanceCounters s.manifest 0 0).1
    nextRunNo := (advanceCounters s.manifest 0 0).2
    totalLive := 0
    fzDelta := none
    fzFatal := false
    child := none }

/-- `utxo_lsm_reload`: the count is the persisted one only where the log had no
tail. -/
def utxoLsmReload (s : Lsm) (tail : List WalOp) : Option Lsm :=
  if s.manifestCap < s.manifest.length ∨ entsHaveSuccessor s.manifest = false then none
  else
    match replayWal s.slotMax s.blobCap Generation.empty.table tail with
    | none => none
    | some table =>
        let t := reloadedState s table tail
        match s.persistedLive, tail with
        | some base, [] => some { t with totalLive := base }
        | _, _ => (macLsmRecount t).map fun p => { t with totalLive := p.1 }

/-! ## The counter's invariant -/

namespace Lsm

/-- The coins of the runs alone. -/
def runCoins (s : Lsm) : CoinSet := stackMap (runLayers s.files s.manifest)

end Lsm

/-- A merge of every run found the count the parent noted, as long as its runs
are still there. -/
structure ChildCounted (cur : List ManifestEntry) (files : PMap Nat (Run Outpoint Coin))
    (c : CompactChild) : Prop where
  full : c.isFull = true → c.lo = 0 ∧ c.k = c.inherited.length
  count : c.isFull = true → (∀ r ∈ runNos c.inherited, r ∈ runNos cur) →
    ∀ b, c.oldBase = some b →
      b = (stackMap (runLayers files c.inherited)).size ∧
        ∀ m l, c.status = .finished m (some l) → l = b

structure Lsm.Counted (s : Lsm) : Prop where
  total : s.totalLive = s.coins.size
  base : ∀ b, s.persistedLive = some b → b = s.runCoins.size
  delta : ∀ fz d, s.frozen = some fz → s.fzDelta = some d →
    d = ((stackMap (fz.generation.layer :: runLayers s.files s.manifest)).size : Int) -
      s.runCoins.size
  child : ∀ c, s.child = some c → ChildCounted s.manifest s.files c

/-- The runs the child inherited are named as before, or one of them is gone. -/
theorem ChildCounted.congr {cur cur' : List ManifestEntry}
    {files files' : PMap Nat (Run Outpoint Coin)} {c : CompactChild}
    (h : ChildCounted cur files c)
    (hsame : ∀ r ∈ runNos c.inherited, r ∈ runNos cur' →
      r ∈ runNos cur ∧ files' r = files r) : ChildCounted cur' files' c where
  full := h.full
  count hfull hin b hb := by
    rw [runLayers_congr fun r hr => (hsame r hr (hin r hr)).2]
    exact h.count hfull (fun r hr => (hsame r hr (hin r hr)).1) b hb

/-- A step among the runs that leaves the counter alone. -/
theorem Lsm.Counted.keepsRuns {s s' : Lsm} (h : s.Counted) (hk : KeepsRuns s s')
    (htotal : s'.totalLive = s.totalLive)
    (hbase : ∀ b, s'.persistedLive = some b → b = s.runCoins.size)
    (hdelta : s'.fzDelta = s.fzDelta)
    (hchild : ∀ c, s'.child = some c → ChildCounted s'.manifest s'.files c) :
    s'.Counted where
  total := by
    rw [htotal, h.total, hk.keeps.coins_eq]
  base b hb := by
    have hruns : s'.runCoins = s.runCoins := hk.runs_eq []
    rw [hruns]
    exact hbase b hb
  delta fz d hfz hd := by
    rw [hk.frozen_eq] at hfz
    rw [hdelta] at hd
    have hruns : s'.runCoins = s.runCoins := hk.runs_eq []
    have htop := hk.runs_eq [fz.generation.layer]
    simp only [List.singleton_append] at htop
    rw [hruns, htop]
    exact h.delta fz d hfz hd
  child := hchild

/-! ## Finite layers -/

theorem Generation.answered_layer_finite (g : Generation) : (answered g.layer).Finite := by
  refine ((g.table.slots.keys ++ g.tombs).finite_toSet).subset ?_
  intro o ho
  obtain ⟨v, hv⟩ := Option.ne_none_iff_exists'.mp ho
  have hmem := Generation.mem_descriptors.mpr hv
  show o ∈ g.table.slots.keys ++ g.tombs
  rw [List.mem_append]
  rw [Generation.descriptors, List.mem_append] at hmem
  rcases hmem with hmem | hmem
  · obtain ⟨e, he, heq⟩ := List.mem_map.mp hmem
    obtain ⟨rfl, -⟩ := Prod.mk.inj heq
    exact Or.inl (List.mem_map_of_mem he)
  · obtain ⟨x, hx, heq⟩ := List.mem_map.mp hmem
    obtain ⟨rfl, -⟩ := Prod.mk.inj heq
    exact Or.inr (List.mem_filter.mp hx).1

theorem answered_runLayer_finite (files : PMap Nat (Run Outpoint Coin)) (e : ManifestEntry) :
    (answered (runLayer files e)).Finite := by
  cases h : files e.runNo with
  | none =>
      refine Set.finite_empty.subset fun o ho => ho ?_
      simp [runLayer, h]
  | some run =>
      have hrun : runLayer files e = run.find := by
        funext o
        simp [runLayer, h]
      rw [hrun]
      exact run.answered_find_finite

theorem Lsm.finite_coins (s : Lsm) : s.coins.dom.Finite := by
  refine finite_dom_stackMap fun l hl => ?_
  rw [stack] at hl
  rcases List.mem_cons.mp hl with rfl | hl
  · exact s.live.answered_layer_finite
  rcases List.mem_append.mp hl with hl | hl
  · obtain ⟨fz, -, rfl⟩ : ∃ fz, s.frozen = some fz ∧ fz.generation.layer = l := by
      simpa [frozenLayers] using hl
    exact fz.generation.answered_layer_finite
  · obtain ⟨e, -, rfl⟩ := List.mem_map.mp hl
    exact answered_runLayer_finite s.files e

/-! ## Merging -/

theorem compactBatch_full {n lo k lo' k' : Nat} {keepDels : Bool}
    (h : compactBatch n lo k = some (lo', k', keepDels)) (hn : k' = n) :
    lo' = 0 ∧ keepDels = false := by
  unfold compactBatch at h
  split at h
  · cases h
  split at h
  · obtain ⟨rfl, rfl, rfl⟩ := by simpa using h
    exact ⟨rfl, rfl⟩
  split at h
  · cases h
  split at h
  · obtain ⟨rfl, rfl, rfl⟩ := by simpa using h
    exact ⟨rfl, rfl⟩
  split at h
  · obtain ⟨rfl, rfl, rfl⟩ := by simpa using h
    omega
  · cases h

theorem batch_all (m : List ManifestEntry) : batch m 0 m.length = m := by
  rw [batch, List.drop_zero, List.take_length]

/-- A merge of every run holds a record for each coin of the runs. -/
theorem length_merge_of_full {files : PMap Nat (Run Outpoint Coin)}
    {m : List ManifestEntry} {lo k lo' k' : Nat} {keepDels : Bool}
    {runs : List (Run Outpoint Coin)}
    (hbatch : compactBatch m.length lo k = some (lo', k', keepDels))
    (hruns : readRuns files (batch m lo' k') = some runs) (hk : k' = m.length) :
    (Run.merge keepDels runs).recs.length = (stackMap (runLayers files m)).size := by
  obtain ⟨rfl, rfl⟩ := compactBatch_full hbatch hk
  rw [hk, batch_all] at hruns
  rw [Run.length_merge, readRuns_layers hruns]

theorem BatchReplaced.childCounted {s s' : Lsm} {lo k : Nat} {e : ManifestEntry}
    {run : Run Outpoint Coin} (h : BatchReplaced s s' lo k e run) {c : CompactChild}
    (hc : ChildCounted s.manifest s.files c) (hin : e.runNo ∉ runNos c.inherited) :
    ChildCounted s'.manifest s'.files c := by
  refine hc.congr fun r hr hr' => ?_
  rw [h.manifest, (runNos_mergedManifest_perm _ _ _ _).mem_iff] at hr'
  rcases List.mem_cons.mp hr' with rfl | hr'
  · exact absurd hr hin
  · exact ⟨mem_of_mem_survivors hr', h.same r hr'⟩

theorem RunAdded.childCounted {s s' : Lsm} {e : ManifestEntry} {run : Run Outpoint Coin}
    (h : RunAdded s s' e run) {c : CompactChild} (hc : ChildCounted s.manifest s.files c)
    (hin : e.runNo ∉ runNos c.inherited) : ChildCounted s'.manifest s'.files c := by
  refine hc.congr fun r hr hr' => ?_
  have hne : r ≠ e.runNo := fun heq => hin (heq ▸ hr)
  rw [h.manifest, runNos_append] at hr'
  refine ⟨?_, ?_⟩
  · rcases List.mem_append.mp hr' with hr' | hr'
    · exact hr'
    · exact absurd (by simpa [runNos] using hr') hne
  · rw [h.files]
    exact PMap.put_of_ne _ _ hne

namespace Lsm.Counted

variable {s : Lsm} (hs : s.Sound) (h : s.Counted)

include hs h

theorem utxoLsmCompactRange (lo k : Nat) : (utxoLsmCompactRange s lo k).1.Counted := by
  have hkeep := hs.utxoLsmCompactRange lo k
  rcases utxoLsmCompactRange_cases s lo k with heq | ⟨lo, k, keepDels, runs, hbatch, hruns, heq⟩
  · rw [heq]
    exact h
  rw [heq] at hkeep ⊢
  have hlen := length_merge_of_full hbatch hruns
  refine h.keepsRuns hkeep ?_ ?_ rfl ?_
  · simp only [compactedState, healedTotal]
    cases hbase : s.persistedLive with
    | none => rfl
    | some b =>
        simp only
        split
        · next hk =>
            have hb := h.base b hbase
            have hrecs := hlen hk
            rw [Lsm.runCoins] at hb
            omega
        · rfl
  · intro b hb
    simp only [compactedState, mergedCount] at hb
    split at hb
    · next hk =>
        rw [← Option.some.inj hb, hlen hk]
        rfl
    · exact h.base b hb
  · intro c hc
    exact (hs.compactedState_replaced lo k _).childCounted (h.child c hc) (hs.next_child hc).2

theorem compactStartAsync (lo k : Nat) : (compactStartAsync s lo k).Counted := by
  have hkeep := hs.compactStartAsync lo k
  unfold Storage.compactStartAsync at hkeep ⊢
  split at hkeep
  · next hno =>
      rw [if_pos hno]
      exact h
  next hno =>
    rw [if_neg hno]
    refine h.keepsRuns hkeep rfl h.base rfl ?_
    intro c hc
    obtain rfl := Option.some.inj hc
    refine ⟨fun hfull => by simpa using hfull, fun _ _ b hb => ⟨h.base b hb, ?_⟩⟩
    intro m l hst
    cases hst

theorem compactChildMerge {c : CompactChild} (hc : s.child = some c) :
    (compactChildMerge s c).Counted := by
  have hkeep := hs.compactChildMerge hc
  have hcount := h.child c hc
  have hchild := hs.child c hc
  rcases compactChildMerge_cases s hchild.k_ne with heq | ⟨keepDels, runs, hbatch, hruns, heq⟩
  all_goals rw [heq] at hkeep ⊢
  all_goals refine h.keepsRuns hkeep rfl h.base rfl fun d hd => ?_
  all_goals obtain rfl := Option.some.inj hd
  · exact ⟨hcount.full, fun hfull hin b hb =>
      ⟨(hcount.count hfull hin b hb).1, fun m l hst => by cases hst⟩⟩
  · refine ⟨hcount.full, fun hfull hin b hb => ?_⟩
    obtain ⟨hb, -⟩ := hcount.count hfull hin b hb
    have hsame : runLayers (s.files.put c.runNo (Run.merge keepDels runs)) c.inherited =
        runLayers s.files c.inherited := by
      refine runLayers_congr (files_put_of_not_mem (fun hmem => ?_) _)
      exact (hchild.inherited_lt _ hmem).false
    refine ⟨?_, ?_⟩
    · simp only
      rw [hsame]
      exact hb
    · intro m l hst
      have hk := (hcount.full hfull).2
      have hlen := length_merge_of_full hbatch hruns hk
      simp only [mergedCount, if_pos hk, ChildStatus.finished.injEq, Option.some.injEq] at hst
      rw [← hst.2, hb, hlen]

theorem compactChildRun : (compactChildRun s).Counted := by
  unfold Storage.compactChildRun
  split
  · next c hc =>
      split
      · exact h.compactChildMerge hs hc
      · exact h
  · exact h

theorem compactAdopt (pub : Publish) {c : CompactChild} (hc : s.child = some c) :
    (compactAdopt pub s c).Counted := by
  have hkeep := hs.compactAdopt pub hc
  have hcount := h.child c hc
  rcases compactAdopt_cases pub s c with
    heq | heq | ⟨childM, live, m, files, hst, hrec, hfiles, heq⟩
  all_goals rw [heq] at hkeep ⊢
  · exact h
  · exact h.keepsRuns hkeep rfl h.base rfl fun d hd => by cases hd
  · obtain ⟨-, rest, -, -, hcur, -⟩ := hs.reconcile_eq hc hst hrec
    have hin : ∀ r ∈ runNos c.inherited, r ∈ runNos s.manifest := by
      intro r hr
      rw [hcur, runNos_append]
      exact List.mem_append_left _ hr
    -- a merge of every run found the count the parent had noted
    have hneutral : (adoptedCount c.isFull s.persistedLive c.oldBase live).2 = 0 ∧
        ∀ b, (adoptedCount c.isFull s.persistedLive c.oldBase live).1 = some b →
          b = s.runCoins.size := by
      unfold adoptedCount
      split
      · next hfull =>
          split
          · next l n o hnow hold =>
              have hl : l = o := (hcount.count hfull hin o hold).2 childM l hst
              refine ⟨by simp [hl], fun b hb => ?_⟩
              have hb' : l + (n - o) = b := by simpa using hb
              have := h.base n hnow
              omega
          · exact ⟨rfl, fun b hb => by cases hb⟩
      · exact ⟨rfl, h.base⟩
    refine h.keepsRuns hkeep ?_ hneutral.2 rfl fun d hd => by cases hd
    simp only [adoptedState, hneutral.1, add_zero]

theorem compactPoll (pub : Publish) : (compactPoll pub s).Counted := by
  unfold Storage.compactPoll
  split
  · next c hc => exact h.compactAdopt hs pub hc
  · exact h

end Lsm.Counted

/-! ## Flushing -/

theorem compactPoll_fzDelta (pub : Publish) (s : Lsm) :
    (compactPoll pub s).fzDelta = s.fzDelta := by
  unfold compactPoll
  split
  · next c _ =>
      rcases compactAdopt_cases pub s c with h | h | ⟨_, _, _, _, _, _, _, h⟩
      all_goals rw [h]
      all_goals rfl
  · rfl

namespace Lsm.Counted

/-- Giving up a live generation that says nothing. -/
theorem cleared {s : Lsm} (h : s.Counted) (hsilent : ∀ o, s.live.layer o = none) :
    Lsm.Counted { s with live := Generation.empty } where
  total := by
    have hcoins : Lsm.coins { s with live := Generation.empty } = s.coins := by
      rw [Lsm.coins, Lsm.coins, Lsm.stack, Lsm.stack]
      exact (stackMap_silent Generation.layer_empty [] _).trans
        (stackMap_silent hsilent [] _).symm
    rw [hcoins]
    exact h.total
  base := h.base
  delta := h.delta
  child := h.child

variable {s : Lsm} (hs : s.Sound) (h : s.Counted)

include hs h

theorem macFlush (gate : Publish) (hinline : s.asyncFlush = false) :
    (macFlush gate s).1.Counted := by
  have hkeep := hs.macFlush gate hinline
  have hpoll := h.compactPoll hs gate
  have hs' := (hs.compactPoll gate).sound
  have hasync := (compactPoll_asyncFlush gate s).trans hinline
  have hcoins := (hs.compactPoll gate).keeps.coins_eq
  rcases macFlush_cases gate s with heq | ⟨hsilent, heq⟩ | ⟨run, hrun, heq⟩
  all_goals rw [heq] at hkeep ⊢
  · exact hpoll
  · exact hpoll.cleared hsilent
  · have hflushed := hkeep.coins_eq.trans hcoins.symm
    generalize Storage.compactPoll gate s = t at hpoll hs' hasync hflushed ⊢
    have hfrozen := hs'.not_frozen hasync
    have hruns : (flushedState t run).coins = (flushedState t run).runCoins := by
      simp only [Lsm.coins, Lsm.stack, Lsm.runCoins, flushedState, hfrozen]
      exact stackMap_silent Generation.layer_empty [] _
    have htotal : (flushedState t run).totalLive = (flushedState t run).coins.size := by
      rw [hflushed]
      exact hpoll.total
    refine ⟨htotal, ?_, ?_, ?_⟩
    · intro b hb
      rw [← hruns, ← htotal]
      exact (Option.some.inj hb).symm
    · intro fz d hfz
      rw [show (flushedState t run).frozen = t.frozen from rfl, hfrozen] at hfz
      cases hfz
    · intro c hc
      exact (hs'.flushedState_added run).childCounted (hpoll.child c hc) (hs'.next_child hc).2

/-- A freeze whose net was noted just before it. -/
theorem utxoLsmFreeze (gate : Publish)
    (hnoted : s.fzDelta = s.persistedLive.map (s.totalLive - ·)) :
    (utxoLsmFreeze gate s).1.Counted := by
  have hruns := (hs.compactPoll gate).runs_eq []
  have hcoins := (hs.compactPoll gate).keeps.coins_eq
  have hpoll := h.compactPoll hs gate
  have hdelta := (compactPoll_fzDelta gate s).trans hnoted
  rcases utxoLsmFreeze_cases gate s with heq | ⟨hfrozen, heq⟩
  all_goals rw [heq]
  · exact hpoll
  · generalize Storage.compactPoll gate s = t at hpoll hruns hcoins hdelta hfrozen ⊢
    have hsame : (frozenState t).coins = t.coins := by
      simp only [Lsm.coins, Lsm.stack, frozenState, hfrozen]
      exact stackMap_silent Generation.layer_empty [] _
    refine ⟨?_, hpoll.base, ?_, hpoll.child⟩
    · rw [hsame]
      exact hpoll.total
    · intro fz d hfz hd
      obtain rfl := Option.some.inj hfz
      rw [show (frozenState t).fzDelta = t.fzDelta from rfl, hdelta,
        Option.map_eq_some_iff] at hd
      obtain ⟨b, hb, rfl⟩ := hd
      have htop : stackMap (t.live.layer :: runLayers t.files t.manifest) = t.coins := by
        simp only [Lsm.coins, Lsm.stack, hfrozen]
        rfl
      have hbase : (frozenState t).runCoins = s.runCoins := hruns
      show s.totalLive - b = ((stackMap (t.live.layer ::
        runLayers t.files t.manifest)).size : Int) - (frozenState t).runCoins.size
      rw [htop, hcoins, hbase, h.total, h.base b hb]

theorem fzAdopt (pub : Publish) : (fzAdopt pub s).Counted := by
  have hkeep := hs.fzAdopt pub
  rcases fzAdopt_cases pub s with ⟨-, heq⟩ | ⟨fz, hfz, ⟨hsilent, heq⟩ | ⟨run, hrun, heq | heq⟩⟩
  all_goals rw [heq] at hkeep ⊢
  · exact h
  · refine ⟨?_, h.base, (fun f d hf => by cases hf), h.child⟩
    rw [hkeep.coins_eq]
    exact h.total
  · refine h.keepsRuns (hs.orphaned hfz run) rfl h.base rfl fun c hc => ?_
    have hin := ((hs.child c hc).not_frozen fz hfz).2
    exact (h.child c hc).congr fun r hr hcur =>
      ⟨hcur, PMap.put_of_ne _ _ fun heq => hin (heq ▸ hr)⟩
  · refine ⟨?_, ?_, (fun f d hf => by cases hf), ?_⟩
    · rw [hkeep.coins_eq]
      exact h.total
    · intro b hb
      simp only [fzAdoptedState, Option.bind_eq_bind, Option.bind_eq_some_iff,
        Option.pure_def] at hb
      obtain ⟨base, hbase, d, hd, hsum⟩ := hb
      have hlayer : run.find = fz.generation.layer :=
        funext (Generation.find_buildRun hrun)
      have hruns := runLayers_append_run s.files
        (e := ⟨fz.gen, fz.runNo⟩) (hs.frozen fz hfz).2.2 run
      have hnew : (fzAdoptedState s fz run).runCoins =
          stackMap (fz.generation.layer :: runLayers s.files s.manifest) := by
        rw [← hlayer, ← hruns]
        rfl
      have hb := h.base base hbase
      have hd := h.delta fz d hfz hd
      have hsum := Option.some.inj hsum
      rw [hnew]
      omega
    · intro c hc
      exact (hs.fzAdoptedState_added hfz run).childCounted (h.child c hc)
        ((hs.child c hc).not_frozen fz hfz).2

theorem fzPoll (pub : Publish) : (fzPoll pub s).Counted := by
  unfold Storage.fzPoll
  split
  · exact h
  · exact h.fzAdopt hs pub

theorem fzHook (pub gate : Publish) : (fzHook pub gate s).1.Counted := by
  unfold Storage.fzHook
  split
  · exact h
  have hs' := (hs.fzPoll pub).sound
  have hpoll := h.fzPoll hs pub
  have hclear : (Storage.fzPoll pub s).fzFatal = false → (Storage.fzPoll pub s).frozen = none :=
    fzPoll_frozen
  generalize Storage.fzPoll pub s = t at hs' hpoll hclear ⊢
  simp only
  split
  · exact hpoll
  next hfatal =>
    have hfrozen := hclear (Bool.eq_false_iff.mpr hfatal)
    have hnoted : Lsm.Counted { t with fzDelta := t.persistedLive.map (t.totalLive - ·) } := by
      refine ⟨hpoll.total, hpoll.base, fun fz d hfz => ?_, hpoll.child⟩
      rw [hfrozen] at hfz
      cases hfz
    have hs'' : Lsm.Sound { t with fzDelta := t.persistedLive.map (t.totalLive - ·) } :=
      ⟨hs'.readable, hs'.nodup, hs'.below, hs'.frozen, hs'.child⟩
    exact hnoted.utxoLsmFreeze hs'' gate rfl

theorem flushGeneration (pub gate : Publish) : (flushGeneration pub gate s).1.Counted := by
  unfold Storage.flushGeneration
  cases hasync : s.asyncFlush with
  | true => exact h.fzHook hs pub gate
  | false => exact h.macFlush hs gate hasync

end Lsm.Counted

/-! ## Writing -/

namespace Lsm.Counted

variable {s s' : Lsm} (hs : s.Sound) (h : s.Counted) {o : Outpoint}

include hs h

theorem utxoLsmPut {c : Coin} (habsent : s.coins o = none)
    (hput : utxoLsmPut s o c = .new s') : s'.Counted := by
  have hcoins := (hs.utxoLsmPut hput).2
  obtain ⟨fill, rfl⟩ := utxoLsmPut_new hput
  refine ⟨?_, h.base, h.delta, h.child⟩
  rw [hcoins, PMap.size_put s.finite_coins habsent]
  have := h.total
  simp only
  omega

theorem utxoLsmDel (hpresent : s.coins o ≠ none) (hdel : utxoLsmDel s o = some s') :
    s'.Counted := by
  have hcoins := (hs.utxoLsmDel hdel).2
  obtain rfl := utxoLsmDel_some hdel
  refine ⟨?_, h.base, h.delta, h.child⟩
  have hpos : 0 < s.coins.size :=
    (Set.ncard_pos s.finite_coins).mpr ⟨o, hpresent⟩
  rw [hcoins, PMap.size_del hpresent]
  have := h.total
  simp only
  omega

end Lsm.Counted

/-! ## Reloading -/

theorem lt_advanceCounters (m : List ManifestEntry) (g n : Nat) :
    ∀ r ∈ runNos m, r < (advanceCounters m g n).2 := by
  induction m generalizing g n with
  | nil => exact fun r hr => by cases hr
  | cons e es ih =>
      intro r hr
      rcases List.mem_cons.mp hr with rfl | hr
      · exact (Nat.lt_succ_self _).trans_le
          ((le_max_right n (e.runNo + 1)).trans (advanceCounters_le es _ _))
      · exact ih _ _ r hr

theorem Lsm.Sound.reloadedState {s : Lsm} (hs : s.Sound) (table : Memtable)
    (tail : List WalOp) : (reloadedState s table tail).Sound :=
  ⟨hs.readable, hs.nodup, lt_advanceCounters _ _ _, (fun fz hfz => by cases hfz),
    fun c hc => by cases hc⟩

theorem Lsm.Sound.withTotal {s : Lsm} (hs : s.Sound) (n : Int) :
    Lsm.Sound { s with totalLive := n } :=
  ⟨hs.readable, hs.nodup, hs.below, hs.frozen, hs.child⟩

/-- Neither the runs nor what the manifest says of them change, so a right count
is all that a reload has to find. -/
theorem Lsm.Counted.reloaded {s : Lsm} (h : s.Counted) (table : Memtable)
    (tail : List WalOp) {n : Int} (hn : n = (reloadedState s table tail).coins.size) :
    Lsm.Counted { reloadedState s table tail with totalLive := n } :=
  ⟨hn, h.base, (fun fz d hfz => by cases hfz), fun c hc => by cases hc⟩

/-- A reload takes the persisted count of an empty log, or counts again. -/
theorem utxoLsmReload_cases {s s' : Lsm} {tail : List WalOp}
    (h : utxoLsmReload s tail = some s') :
    (∃ base, s.persistedLive = some base ∧ tail = [] ∧
      s' = { reloadedState s Generation.empty.table [] with totalLive := base }) ∨
    ∃ table p, macLsmRecount (reloadedState s table tail) = some p ∧
      s' = { reloadedState s table tail with totalLive := p.1 } := by
  have hrecount : ∀ table,
      ((macLsmRecount (reloadedState s table tail)).map fun p =>
        { reloadedState s table tail with totalLive := (p.1 : Int) }) = some s' →
      ∃ table p, macLsmRecount (reloadedState s table tail) = some p ∧
        s' = { reloadedState s table tail with totalLive := p.1 } := by
    intro table hmap
    obtain ⟨p, hp, rfl⟩ := Option.map_eq_some_iff.mp hmap
    exact ⟨table, p, hp, rfl⟩
  unfold utxoLsmReload at h
  split at h
  · cases h
  split at h
  · cases h
  next table htable =>
    cases hbase : s.persistedLive with
    | none =>
        simp only [hbase] at h
        exact Or.inr (hrecount table h)
    | some base =>
        cases tail with
        | nil =>
            obtain rfl : Generation.empty.table = table := by simpa [replayWal] using htable
            simp only [hbase] at h
            exact Or.inl ⟨base, rfl, rfl, (Option.some.inj h).symm⟩
        | cons op tail =>
            simp only [hbase] at h
            exact Or.inr (hrecount table h)

theorem utxoLsmReload_spec {s s' : Lsm} (hs : s.Sound) {tail : List WalOp}
    (h : utxoLsmReload s tail = some s') : s'.Sound ∧ (s.Counted → s'.Counted) := by
  rcases utxoLsmReload_cases h with ⟨base, hbase, rfl, rfl⟩ | ⟨table, p, hp, rfl⟩
  · refine ⟨(hs.reloadedState _ _).withTotal base, fun hc => hc.reloaded _ [] ?_⟩
    have hlive : (reloadedState s Generation.empty.table []).live = Generation.empty := by
      simp [reloadedState, walTombs, Generation.empty]
    have hcoins : (reloadedState s Generation.empty.table []).coins = s.runCoins := by
      rw [Lsm.coins, Lsm.stack, hlive]
      exact stackMap_silent Generation.layer_empty [] _
    rw [hcoins]
    exact hc.base base hbase
  · have hsound := hs.reloadedState table tail
    obtain ⟨seen, -, hrec, henum⟩ := utxoLsmWalk_spec hsound rfl
    rw [hp] at hrec
    have hcount : p.1 = seen.length := by simpa using hrec
    refine ⟨hsound.withTotal _, fun hc => hc.reloaded table tail ?_⟩
    rw [henum.size_eq, hcount]

/-! ## Histories -/

/-- A call of the store, by the applier or by a background process. -/
inductive StoreOp where
  | put (o : Outpoint) (c : Coin)
  | del (o : Outpoint)
  | flush (pub gate : Publish)
  | adoptFlush (pub : Publish)
  | compact (lo k : Nat)
  | startCompact (lo k : Nat)
  | childMerges
  | adoptCompact (pub : Publish)
  | reload (tail : List WalOp)

namespace StoreOp

/-- The state a call leaves, `none` where it fails for good. -/
def run (s : Lsm) : StoreOp → Option Lsm
  | put o c =>
      match utxoLsmPut s o c with
      | .new s' => some s'
      | .dup => some s
      | .full => none
  | del o => utxoLsmDel s o
  | flush pub gate => some (flushGeneration pub gate s).1
  | adoptFlush pub => some (fzPoll pub s)
  | compact lo k => some (utxoLsmCompactRange s lo k).1
  | startCompact lo k => some (compactStartAsync s lo k)
  | childMerges => some (compactChildRun s)
  | adoptCompact pub => some (compactPoll pub s)
  | reload tail => utxoLsmReload s tail

/-- The counter moves with the set: no coin is put over one that lives below the
memtable, and none is deleted that is not there. -/
def counts (s : Lsm) : StoreOp → Bool
  | put o _ => (utxoGet s.live.table o).isSome || utxoLsmGet s o = .absent
  | del o => utxoLsmGet s o ≠ .absent
  | _ => true

end StoreOp

def StoreStep (s s' : Lsm) : Prop := ∃ op : StoreOp, op.run s = some s'

def CountedStep (s s' : Lsm) : Prop := ∃ op : StoreOp, op.counts s = true ∧ op.run s = some s'

theorem utxoLsmPut_dup {s : Lsm} {o : Outpoint} {c : Coin}
    (h : (utxoGet s.live.table o).isSome) : utxoLsmPut s o c = .dup := by
  rw [utxoLsmPut, if_pos h]

theorem StoreOp.sound {s s' : Lsm} {op : StoreOp} (h : op.run s = some s') (hs : s.Sound) :
    s'.Sound := by
  cases op with
  | put o c =>
      simp only [run] at h
      split at h
      · next hput =>
          obtain rfl := Option.some.inj h
          exact (hs.utxoLsmPut hput).1
      · obtain rfl := Option.some.inj h
        exact hs
      · cases h
  | del o => exact (hs.utxoLsmDel h).1
  | flush pub gate =>
      obtain rfl := Option.some.inj h
      exact (hs.flushGeneration pub gate).sound
  | adoptFlush pub =>
      obtain rfl := Option.some.inj h
      exact (hs.fzPoll pub).sound
  | compact lo k =>
      obtain rfl := Option.some.inj h
      exact (hs.utxoLsmCompactRange lo k).sound
  | startCompact lo k =>
      obtain rfl := Option.some.inj h
      exact (hs.compactStartAsync lo k).sound
  | childMerges =>
      obtain rfl := Option.some.inj h
      exact hs.compactChildRun.sound
  | adoptCompact pub =>
      obtain rfl := Option.some.inj h
      exact (hs.compactPoll pub).sound
  | reload tail => exact (utxoLsmReload_spec hs h).1

theorem StoreOp.counted {s s' : Lsm} {op : StoreOp} (h : op.run s = some s')
    (hop : op.counts s = true) (hs : s.Sound) (hc : s.Counted) : s'.Counted := by
  have hget : ∀ o, utxoLsmGet s o = .absent ↔ s.coins o = none := by
    intro o
    rw [utxoLsmGet_eq hs]
    cases s.coins o <;> simp [LsmAnswer.ofOption]
  cases op with
  | put o c =>
      simp only [run] at h
      split at h
      · next hput =>
          obtain rfl := Option.some.inj h
          refine hc.utxoLsmPut hs ?_ hput
          rcases Bool.or_eq_true_iff.mp hop with hdup | habsent
          · rw [utxoLsmPut_dup hdup] at hput
            cases hput
          · exact (hget o).mp (by simpa using habsent)
      · obtain rfl := Option.some.inj h
        exact hc
      · cases h
  | del o =>
      refine hc.utxoLsmDel hs (fun habs => ?_) h
      have hne : utxoLsmGet s o ≠ .absent := by simpa [counts] using hop
      exact hne ((hget o).mpr habs)
  | flush pub gate =>
      obtain rfl := Option.some.inj h
      exact hc.flushGeneration hs pub gate
  | adoptFlush pub =>
      obtain rfl := Option.some.inj h
      exact hc.fzPoll hs pub
  | compact lo k =>
      obtain rfl := Option.some.inj h
      exact hc.utxoLsmCompactRange hs lo k
  | startCompact lo k =>
      obtain rfl := Option.some.inj h
      exact hc.compactStartAsync hs lo k
  | childMerges =>
      obtain rfl := Option.some.inj h
      exact hc.compactChildRun hs
  | adoptCompact pub =>
      obtain rfl := Option.some.inj h
      exact hc.compactPoll hs pub
  | reload tail => exact (utxoLsmReload_spec hs h).2 hc

theorem Lsm.Counted.init (slotMax blobCap tombCap manifestCap : Nat) (asyncFlush : Bool) :
    (Lsm.init slotMax blobCap tombCap manifestCap asyncFlush).Counted := by
  have hcoins : (Lsm.init slotMax blobCap tombCap manifestCap asyncFlush).coins =
      fun _ => none := (Represents.init ..).coins_eq
  refine ⟨?_, (fun b hb => by cases hb), (fun fz d hfz => by cases hfz),
    fun c hc => by cases hc⟩
  rw [hcoins]
  simp [PMap.size, PMap.dom, Lsm.init]

theorem counted_of_history {s s' : Lsm} (h : Relation.ReflTransGen CountedStep s s')
    (hs : s.Sound) (hc : s.Counted) : s'.Sound ∧ s'.Counted := by
  induction h with
  | refl => exact ⟨hs, hc⟩
  | tail _ hstep ih =>
      obtain ⟨op, hop, hrun⟩ := hstep
      exact ⟨op.sound hrun ih.1, op.counted hrun hop ih.1 ih.2⟩

/-- What the walk is for: every coin a lookup finds, once, and as many as the
counter says. -/
structure WalkExact (s : Lsm) : Prop where
  visits : ∃ seen, utxoLsmWalk s = some (seen.length, seen) ∧
    (seen.map Prod.fst).Nodup ∧
    (∀ o c, (o, c) ∈ seen ↔ utxoLsmGet s o = .found c) ∧
    seen.length = {o | utxoLsmGet s o ≠ .absent}.ncard ∧
    s.totalLive = seen.length

/-- Whatever the counter says, the walk visits what the lookups find. -/
theorem utxoLsmWalk_lookups {s : Lsm} (hs : s.Sound) (hfrozen : s.frozen = none) :
    ∃ seen, utxoLsmWalk s = some (seen.length, seen) ∧ PMap.Enumerates seen s.coins ∧
      (∀ o c, (o, c) ∈ seen ↔ utxoLsmGet s o = .found c) ∧
      seen.length = {o | utxoLsmGet s o ≠ .absent}.ncard := by
  obtain ⟨seen, hwalk, -, henum⟩ := utxoLsmWalk_spec hs hfrozen
  refine ⟨seen, hwalk, henum, ?_, ?_⟩
  · intro o c
    rw [henum.mem_iff, utxoLsmGet_eq hs]
    cases s.coins o <;> simp [LsmAnswer.ofOption]
  · rw [← henum.size_eq, PMap.size]
    congr 1
    ext o
    rw [PMap.mem_dom]
    show s.coins o ≠ none ↔ utxoLsmGet s o ≠ .absent
    rw [utxoLsmGet_eq hs]
    cases s.coins o <;> simp [LsmAnswer.ofOption]

theorem sound_of_storeHistory {s s' : Lsm} (h : Relation.ReflTransGen StoreStep s s')
    (hs : s.Sound) : s'.Sound := by
  induction h with
  | refl => exact hs
  | tail _ hstep ih =>
      obtain ⟨op, hrun⟩ := hstep
      exact op.sound hrun ih

/-- Every run, also one that puts a coin over another: only the counter can be
wrong. -/
theorem utxoLsmWalk_of_storeHistory {slotMax blobCap tombCap manifestCap : Nat}
    {asyncFlush : Bool} {s : Lsm}
    (h : Relation.ReflTransGen StoreStep
      (Lsm.init slotMax blobCap tombCap manifestCap asyncFlush) s)
    (hfrozen : s.frozen = none) :
    ∃ seen, utxoLsmWalk s = some (seen.length, seen) ∧ (seen.map Prod.fst).Nodup ∧
      ∀ o c, (o, c) ∈ seen ↔ utxoLsmGet s o = .found c := by
  obtain ⟨seen, hwalk, henum, hget, -⟩ :=
    utxoLsmWalk_lookups (sound_of_storeHistory h (Represents.init ..).sound) hfrozen
  exact ⟨seen, hwalk, henum.nodup, hget⟩

theorem walkExact_of_counted {s : Lsm} (hs : s.Sound) (hc : s.Counted)
    (hfrozen : s.frozen = none) : WalkExact s := by
  obtain ⟨seen, hwalk, henum, hget, hcard⟩ := utxoLsmWalk_lookups hs hfrozen
  refine ⟨seen, hwalk, henum.nodup, hget, hcard, ?_⟩
  rw [hc.total, henum.size_eq]

theorem emptyScript_le : ([] : List UInt8).length ≤ maxScriptSize := Nat.zero_le _

/-- The coin of a coinbase whose transaction is repeated. -/
def repeatedCoin : Coin := ⟨50, 2, true, [], emptyScript_le⟩

end BitcoinMachineCode.Storage
