import Mathlib.Data.List.AList
import BitcoinMachineCode.Foundation.SortedRuns
import BitcoinMachineCode.Storage.Coins

/-!
# The layered coin store

`bitcoin_utxo_lsm.asm` with the parts of `daemon/utxo_live.c` and
`daemon/lsm_manifest.c` that move its layers.  New coins and deletions go to a
generation in memory; a full generation becomes a run, inline or through a
frozen copy that a forked writer turns into one; runs are merged inline or by a
forked child whose manifest is reconciled with the one that grew meanwhile.
Publishing a manifest may fail; every other system call is taken to succeed.
-/

namespace BitcoinMachineCode.Storage

open BitcoinMachineCode.Foundation

/-! ## Keys -/

/-- The 36 bytes `mac_cmp_key` compares: the txid, then the index as stored. -/
def Outpoint.key36 (o : Outpoint) : List UInt8 :=
  o.txid.bytes ++ leBytes 4 o.index.toNat

theorem Outpoint.key36_length (o : Outpoint) : o.key36.length = 36 := by
  simp [key36, o.txid.length_eq, length_leBytes]

theorem Outpoint.key_injective :
    Function.Injective fun o : Outpoint => beVal o.key36 := by
  intro a b h
  have hkey : a.key36 = b.key36 :=
    beVal_inj (by rw [key36_length, key36_length]) h
  obtain ⟨htxid, hindex⟩ := List.append_inj hkey
    (by rw [a.txid.length_eq, b.txid.length_eq])
  have hval := congrArg leVal hindex
  rw [leVal_leBytes, leVal_leBytes] at hval
  have ha := a.index.toNat_lt
  have hb := b.index.toNat_lt
  have heq : a.index = b.index := UInt32.toNat_inj.mp (by omega)
  obtain ⟨⟨abytes, _⟩, aindex⟩ := a
  obtain ⟨⟨bbytes, _⟩, bindex⟩ := b
  obtain rfl : abytes = bbytes := htxid
  obtain rfl : aindex = bindex := heq
  rfl

/-- `mac_cmp_key`: big-endian words from the first byte on. -/
instance : LinearOrder Outpoint where
  le a b := beVal a.key36 ≤ beVal b.key36
  le_refl _ := Nat.le_refl _
  le_trans _ _ _ := Nat.le_trans
  le_antisymm _ _ hab hba := Outpoint.key_injective (Nat.le_antisymm hab hba)
  le_total _ _ := Nat.le_total _ _
  toDecidableLE a b := inferInstanceAs (Decidable (beVal a.key36 ≤ beVal b.key36))
  toDecidableEq := inferInstance

/-! ## A generation in memory -/

/-- The memtable's live slots, and how far its blob is filled: a delete gives
the slot back, not the blob. -/
structure Memtable where
  slots : AList fun _ : Outpoint => Coin
  fill : Nat

/-- `utxo_get`. -/
def utxoGet (u : Memtable) (o : Outpoint) : Option Coin := u.slots.lookup o

/-- A key joins the generation's deletions unless it is listed. -/
def recordTomb (tombs : List Outpoint) (o : Outpoint) : List Outpoint :=
  if o ∈ tombs then tombs else tombs ++ [o]

theorem mem_recordTomb {tombs : List Outpoint} {o x : Outpoint} :
    x ∈ recordTomb tombs o ↔ x = o ∨ x ∈ tombs := by
  rw [recordTomb]
  split
  · next h =>
      constructor
      · exact Or.inr
      · rintro (rfl | hx)
        · exact h
        · exact hx
  · simp [or_comm]

structure Generation where
  table : Memtable
  tombs : List Outpoint

namespace Generation

def empty : Generation := ⟨⟨∅, 0⟩, []⟩

/-- The entries and the tombstones counted together, as the flush and the
freeze test them. -/
def isEmpty (g : Generation) : Bool :=
  g.table.slots.entries.isEmpty && g.tombs.isEmpty

/-- What a lookup that reaches the generation learns of a key. -/
def layer (g : Generation) : Layer Outpoint Coin := fun o =>
  match utxoGet g.table o with
  | some c => some (some c)
  | none => if o ∈ g.tombs then some none else none

/-- The descriptors of `mac_build_run`: a push for every live slot, a deletion
for every tombstone whose key is not live. -/
def descriptors (g : Generation) : List (Record Outpoint Coin) :=
  g.table.slots.entries.map (fun e => (e.1, some e.2)) ++
    (g.tombs.filter fun o => (utxoGet g.table o).isNone).map fun o => (o, none)

theorem mem_descriptors {g : Generation} {o : Outpoint} {v : Option Coin} :
    (o, v) ∈ g.descriptors ↔ g.layer o = some v := by
  have hpush : ∀ c, (⟨o, c⟩ : Sigma fun _ : Outpoint => Coin) ∈ g.table.slots.entries ↔
      utxoGet g.table o = some c := fun c => AList.mem_lookup_iff.symm
  rw [descriptors, layer, List.mem_append]
  cases v with
  | none =>
      cases hg : utxoGet g.table o <;> simp [hg]
  | some c =>
      cases hg : utxoGet g.table o with
      | none =>
          have := (hpush c).not.mpr (by simp [hg])
          simp [this]
      | some d =>
          have := hpush c
          simp [this, hg]

theorem descriptors_functional (g : Generation) :
    ∀ a ∈ g.descriptors, ∀ b ∈ g.descriptors, a.1 = b.1 → a = b := by
  rintro ⟨o, v⟩ ha ⟨x, w⟩ hb hkey
  obtain rfl : o = x := hkey
  have hv := (mem_descriptors.mp ha).symm.trans (mem_descriptors.mp hb)
  rw [Option.some.inj hv]

/-- `mac_build_run`: the run of a generation, `none` when there is nothing to
write. -/
def buildRun (g : Generation) : Option (Run Outpoint Coin) :=
  if g.descriptors.isEmpty then none
  else some (Run.ofRecords g.descriptors g.descriptors_functional)

theorem find_buildRun {g : Generation} {run : Run Outpoint Coin}
    (h : g.buildRun = some run) (o : Outpoint) : run.find o = g.layer o := by
  rw [buildRun] at h
  split at h
  · cases h
  · obtain rfl := Option.some.inj h
    apply Option.ext
    intro v
    rw [Run.find_ofRecords, mem_descriptors]

theorem layer_of_buildRun_none {g : Generation} (h : g.buildRun = none)
    (o : Outpoint) : g.layer o = none := by
  rw [buildRun] at h
  split at h
  · next hempty =>
      cases hl : g.layer o with
      | none => rfl
      | some v =>
          have := mem_descriptors.mpr hl
          rw [List.isEmpty_iff.mp hempty] at this
          cases this
  · cases h

end Generation

/-! ## The store -/

/-- A manifest entry: the run's generation and the number of its file. -/
structure ManifestEntry where
  gen : Nat
  runNo : Nat
  deriving DecidableEq

/-- The frozen copy with the numbers reserved for its run. -/
structure Frozen where
  generation : Generation
  gen : Nat
  runNo : Nat

inductive ChildStatus where
  | running
  | failed
  /-- What `utxo_manifest.child` holds: the entries and the live count. -/
  | finished (manifest : List ManifestEntry) (live : Option Int)

/-- A merge in a forked child: the manifest it inherited and the range it was
given; the parent's notes of the inputs, of whether they are all the runs and
of the persisted count; the numbers reserved for the output. -/
structure CompactChild where
  inherited : List ManifestEntry
  lo : Nat
  k : Nat
  inputs : List Nat
  isFull : Bool
  oldBase : Option Int
  gen : Nat
  runNo : Nat
  status : ChildStatus

structure Lsm where
  live : Generation
  slotMax : Nat
  blobCap : Nat
  tombCap : Nat
  manifestCap : Nat
  /-- The freeze hook is installed (`g_fz_enabled`, `mac_fz_on`). -/
  asyncFlush : Bool
  frozen : Option Frozen
  /-- Oldest run first. -/
  manifest : List ManifestEntry
  nextGen : Nat
  nextRunNo : Nat
  files : PMap Nat (Run Outpoint Coin)
  /-- The running live count, and the one the manifest on disk carries for its
  runs alone. -/
  totalLive : Int
  persistedLive : Option Int
  /-- The frozen generation's net over the persisted count. -/
  fzDelta : Option Int
  /-- An adopt failed: the next threshold crossing is an error. -/
  fzFatal : Bool
  child : Option CompactChild

namespace Lsm

/-- `utxo_lsm_init`. -/
def init (slotMax blobCap tombCap manifestCap : Nat) (asyncFlush : Bool) : Lsm where
  live := Generation.empty
  slotMax := slotMax
  blobCap := blobCap
  tombCap := tombCap
  manifestCap := manifestCap
  asyncFlush := asyncFlush
  frozen := none
  manifest := []
  nextGen := 0
  nextRunNo := 0
  files := fun _ => none
  totalLive := 0
  persistedLive := none
  fzDelta := none
  fzFatal := false
  child := none

end Lsm

def runNos (es : List ManifestEntry) : List Nat := es.map ManifestEntry.runNo

/-! ## Reading -/

inductive LsmAnswer where
  | found (c : Coin)
  | absent
  | err
  deriving DecidableEq

/-- The loop over the manifest, from its newest entry down. -/
def getFromRuns (files : PMap Nat (Run Outpoint Coin)) (o : Outpoint) :
    List ManifestEntry → LsmAnswer
  | [] => .absent
  | e :: older =>
      match files e.runNo with
      | none => .err
      | some run =>
          match run.find o with
          | some (some c) => .found c
          | some none => .absent
          | none => getFromRuns files o older

def getFromGeneration (g : Generation) (o : Outpoint) (older : LsmAnswer) :
    LsmAnswer :=
  match utxoGet g.table o with
  | some c => .found c
  | none => if o ∈ g.tombs then .absent else older

def utxoLsmGet (s : Lsm) (o : Outpoint) : LsmAnswer :=
  let runs := getFromRuns s.files o s.manifest.reverse
  let older :=
    if s.asyncFlush then
      match s.frozen with
      | some fz => getFromGeneration fz.generation o runs
      | none => runs
    else runs
  getFromGeneration s.live o older

/-! ## Writing -/

/-- The blob bytes a coin takes: 24 and its script. -/
def recordBytes (c : Coin) : Nat := 24 + c.script.length

inductive PutResult where
  | new (s : Lsm)
  | dup
  | full

/-- `utxo_lsm_put` up to the threshold test.  After `full` the apply halts. -/
def utxoLsmPut (s : Lsm) (o : Outpoint) (c : Coin) : PutResult :=
  let u := s.live.table
  if (utxoGet u o).isSome then .dup
  else if s.slotMax ≤ u.slots.entries.length ∨ s.blobCap < u.fill + recordBytes c then
    .full
  else
    .new { s with
      live := ⟨⟨u.slots.insert o c, u.fill + recordBytes c⟩, s.live.tombs⟩
      totalLive := s.totalLive + 1 }

/-- `utxo_lsm_del` up to the threshold test: the slot goes, and the key is
listed whether or not there was one. -/
def utxoLsmDel (s : Lsm) (o : Outpoint) : Option Lsm :=
  if s.tombCap ≤ s.live.tombs.length then none
  else
    some { s with
      live := ⟨⟨s.live.table.slots.erase o, s.live.table.fill⟩, recordTomb s.live.tombs o⟩
      totalLive := s.totalLive - 1 }

/-! ## Publishing and compaction -/

/-- `lsm_manifest_publish`: nothing on disk changed, or the manifest is renamed
into place and its directory synced or not. -/
inductive Publish where
  | failed
  | durable
  | unsynced
  deriving DecidableEq

inductive Rc where
  | ok
  | nothing
  | err
  deriving DecidableEq

def compactMaxRuns : Nat := 64

/-- The range rules of `utxo_lsm_compact_range`: the batch and whether its
deletions must be kept for the runs below it.  A range of no runs stands for
the oldest ones. -/
def compactBatch (n lo k : Nat) : Option (Nat × Nat × Bool) :=
  if n < 2 then none
  else if k = 0 then some (0, min n compactMaxRuns, false)
  else if k < 2 ∨ compactMaxRuns < k ∨ n < lo + k then none
  else if lo = 0 then some (0, k, false)
  else if lo + k = n then some (lo, k, true)
  else none

def batch (m : List ManifestEntry) (lo k : Nat) : List ManifestEntry :=
  (m.drop lo).take k

/-- The merged entry takes the batch's first index. -/
def mergedManifest (m : List ManifestEntry) (lo k : Nat) (e : ManifestEntry) :
    List ManifestEntry :=
  m.take lo ++ e :: m.drop (lo + k)

def readRuns (files : PMap Nat (Run Outpoint Coin)) (es : List ManifestEntry) :
    Option (List (Run Outpoint Coin)) :=
  es.mapM fun e => files e.runNo

/-- The count a merge publishes: the records it wrote when it merged every
run, the persisted one otherwise. -/
def mergedCount (n k : Nat) (run : Run Outpoint Coin) (old : Option Int) : Option Int :=
  if k = n then some run.recs.length else old

/-- A merge of every run sets the running count right by what it found the
persisted one wrong. -/
def healedTotal (n k : Nat) (run : Run Outpoint Coin) (old : Option Int)
    (total : Int) : Int :=
  match old with
  | some base => if k = n then total - base + run.recs.length else total
  | none => total

def utxoLsmCompactRange (s : Lsm) (lo k : Nat) : Lsm × Rc :=
  match compactBatch s.manifest.length lo k with
  | none => (s, .nothing)
  | some (lo, k, keepDels) =>
      match readRuns s.files (batch s.manifest lo k) with
      | none => (s, .err)
      | some runs =>
          let run := Run.merge keepDels runs
          let n := s.manifest.length
          ({ s with
              files := (s.files.put s.nextRunNo run).delAll
                (runNos (batch s.manifest lo k))
              manifest := mergedManifest s.manifest lo k ⟨s.nextGen, s.nextRunNo⟩
              nextGen := s.nextGen + 1
              nextRunNo := s.nextRunNo + 1
              persistedLive := mergedCount n k run s.persistedLive
              totalLive := healedTotal n k run s.persistedLive s.totalLive }, .ok)

/-! ## A merge in the background -/

/-- `compact_start_async` on the range it picked: the child's output numbers
are passed over, so that the next flush does not take them. -/
def compactStartAsync (s : Lsm) (lo k : Nat) : Lsm :=
  if s.child.isSome ∨ k = 0 then s
  else
    { s with
        child := some
          { inherited := s.manifest
            lo := lo
            k := k
            inputs := runNos (batch s.manifest lo k)
            isFull := lo == 0 && k == s.manifest.length
            oldBase := s.persistedLive
            gen := s.nextGen
            runNo := s.nextRunNo
            status := .running }
        nextGen := s.nextGen + 1
        nextRunNo := s.nextRunNo + 1 }

/-- The child's whole life: the merge on its own copy of the state, publish and
unlink deferred to the parent. -/
def compactChildMerge (s : Lsm) (c : CompactChild) : Lsm :=
  match compactBatch c.inherited.length c.lo c.k with
  | none => { s with child := some { c with status := .failed } }
  | some (lo, k, keepDels) =>
      match readRuns s.files (batch c.inherited lo k) with
      | none => { s with child := some { c with status := .failed } }
      | some runs =>
          let run := Run.merge keepDels runs
          { s with
              files := s.files.put c.runNo run
              child := some { c with
                status := .finished
                  (mergedManifest c.inherited lo k ⟨c.gen, c.runNo⟩)
                  (mergedCount c.inherited.length k run s.persistedLive) } }

def compactChildRun (s : Lsm) : Lsm :=
  match s.child with
  | some c =>
      match c.status with
      | .running => compactChildMerge s c
      | _ => s
  | none => s

/-- `ents_have_successor`. -/
def entsHaveSuccessor (es : List ManifestEntry) : Bool :=
  es.all fun e => e.gen != 2 ^ 64 - 1 && e.runNo != 2 ^ 64 - 1

/-- The entries the foreground added after the fork. -/
def addedSince (cur child : List ManifestEntry) (inputs : List Nat) :
    List ManifestEntry :=
  cur.filter fun e => e.runNo ∉ inputs ∧ e.runNo ∉ runNos child

/-- The list `lsm_manifest_adopt_child` makes of the two, `none` when they do
not reconcile. -/
def reconcile (cap : Nat) (cur child : List ManifestEntry)
    (inputs : List Nat) : Option (List ManifestEntry) :=
  if child.length < 1 then none
  else if entsHaveSuccessor child = false then none
  else if child.any (fun e => e.runNo ∈ inputs) then none
  else if (child.filter fun e => e.runNo ∉ runNos cur).length ≠ 1 then none
  else if inputs.any (fun r => r ∉ runNos cur) then none
  else if cap < (child ++ addedSince cur child inputs).length then none
  else some (child ++ addedSince cur child inputs)

/-- `advance_counters`. -/
def advanceCounters (m : List ManifestEntry) (nextGen nextRunNo : Nat) : Nat × Nat :=
  m.foldl (fun p e => (max p.1 (e.gen + 1), max p.2 (e.runNo + 1))) (nextGen, nextRunNo)

/-- The count to publish and what it corrects the running one by. -/
def adoptedCount (isFull : Bool) (now old child : Option Int) : Option Int × Int :=
  if isFull then
    match child, now, old with
    | some c, some n, some o => (some (c + (n - o)), c - o)
    | _, _, _ => (none, 0)
  else (now, 0)

/-- `lsm_manifest_adopt_child`: published first, committed to memory only then.
The second component is its return: failed, or adopted and durable or not. -/
def lsmManifestAdoptChild (pub : Publish) (s : Lsm) (inputs : List Nat)
    (isFull : Bool) (oldBase : Option Int) (child : List ManifestEntry)
    (childLive : Option Int) : Lsm × Publish :=
  match reconcile s.manifestCap s.manifest child inputs with
  | none => (s, .failed)
  | some m =>
      match pub with
      | .failed => (s, .failed)
      | pub =>
          let count := adoptedCount isFull s.persistedLive oldBase childLive
          ({ s with
              manifest := m
              persistedLive := count.1
              totalLive := s.totalLive + count.2
              nextGen := (advanceCounters m s.nextGen s.nextRunNo).1
              nextRunNo := (advanceCounters m s.nextGen s.nextRunNo).2 }, pub)

/-- `compact_adopt`: the inputs go once the manifest without them is durable, a
merge that was not adopted goes itself. -/
def compactAdopt (pub : Publish) (s : Lsm) (c : CompactChild) : Lsm :=
  let dropped := { s with files := s.files.del c.runNo, child := none }
  match c.status with
  | .running => s
  | .failed => dropped
  | .finished child live =>
      match lsmManifestAdoptChild pub s c.inputs c.isFull c.oldBase child live with
      | (_, .failed) => dropped
      | (s', .durable) =>
          { s' with
              files := s'.files.delAll (c.inputs.filter fun r => r ∉ runNos s'.manifest)
              child := none }
      | (s', .unsynced) => { s' with child := none }

/-- `compact_poll`. -/
def compactPoll (pub : Publish) (s : Lsm) : Lsm :=
  match s.child with
  | some c => compactAdopt pub s c
  | none => s

/-! ## Flushing -/

/-- `mac_flush`, after its gate has adopted a child that has exited. -/
def macFlush (gate : Publish) (s : Lsm) : Lsm × Rc :=
  let s := compactPoll gate s
  if s.live.isEmpty then ({ s with live := Generation.empty }, .ok)
  else if s.manifestCap ≤ s.manifest.length then (s, .err)
  else
    match s.live.buildRun with
    | none => ({ s with live := Generation.empty }, .ok)
    | some run =>
        ({ s with
            live := Generation.empty
            files := s.files.put s.nextRunNo run
            manifest := s.manifest ++ [⟨s.nextGen, s.nextRunNo⟩]
            nextGen := s.nextGen + 1
            nextRunNo := s.nextRunNo + 1
            persistedLive := some s.totalLive }, .ok)

/-- `utxo_lsm_freeze`, with the gate. -/
def utxoLsmFreeze (gate : Publish) (s : Lsm) : Lsm × Rc :=
  let s := compactPoll gate s
  if s.live.isEmpty then (s, .nothing)
  else if s.frozen.isSome then (s, .err)
  else
    ({ s with
        frozen := some ⟨s.live, s.nextGen, s.nextRunNo⟩
        nextGen := s.nextGen + 1
        nextRunNo := s.nextRunNo + 1
        live := Generation.empty }, .ok)

/-- `fz_adopt`: the copy's run, from the forked writer or built inline when the
writer was lost, joins the manifest as its newest.  A full manifest or a failed
publish keeps the generation frozen. -/
def fzAdopt (pub : Publish) (s : Lsm) : Lsm :=
  match s.frozen with
  | none => s
  | some fz =>
      match fz.generation.buildRun with
      | none => { s with frozen := none }
      | some run =>
          if s.manifestCap ≤ s.manifest.length ∨ pub = .failed then
            { s with files := s.files.put fz.runNo run, fzFatal := true }
          else
            { s with
                files := s.files.put fz.runNo run
                manifest := s.manifest ++ [⟨fz.gen, fz.runNo⟩]
                persistedLive := do return (← s.persistedLive) + (← s.fzDelta)
                frozen := none }

/-- `fz_poll` and `fz_wait`, once the writer is gone. -/
def fzPoll (pub : Publish) (s : Lsm) : Lsm :=
  if s.fzFatal then s else fzAdopt pub s

/-- `fz_hook`: one frozen generation at a time, its net noted before the
freeze. -/
def fzHook (pub gate : Publish) (s : Lsm) : Lsm × Rc :=
  if s.fzFatal then (s, .err)
  else
    let s := fzPoll pub s
    if s.fzFatal then (s, .err)
    else
      utxoLsmFreeze gate { s with fzDelta := s.persistedLive.map (s.totalLive - ·) }

/-- What a threshold crossing and `utxo_live_flush_now` call: the hook where it
is installed, the inline flush elsewhere. -/
def flushGeneration (pub gate : Publish) (s : Lsm) : Lsm × Rc :=
  if s.asyncFlush then fzHook pub gate s else macFlush gate s

end BitcoinMachineCode.Storage
