import BitcoinMachineCode.Foundation.SeqLock
import BitcoinMachineCode.Storage.StatsRecords

/-!
# The coin statistics fold worker

`daemon/coinstats_index.c`: the connect process pushes coin events and markers on a shared
ring, and a forked worker folds them and writes `coinstats.dat` at the commit markers.  The
producer waits for room, but only for a while: then it laps the worker, which finds out and
drops the index.  Either process may die at any point, and a worker that is gone may be
started again after the next seed.

A step is one load or store of a shared word, of a byte of a slot's body or of a file; the
two processes' own variables change along with it.  Sequence numbers do not wrap.
-/

namespace BitcoinMachineCode.Storage.StatsRing

open BitcoinMachineCode.Foundation

/-- The two running totals, of the coins that came and of those that went. -/
structure Totals (σ : Type) where
  num : σ
  den : σ

/-- What became of the index since it was last seeded or adopted: the totals then, and all
that was given to it since. -/
structure Generation (σ : Type) where
  base : Totals σ
  log : List Entry

/-- What the connect process does next.  In the phases of `slot_fill` it has the number of the
slot, the record and the pieces from this one on. -/
inductive Producer where
  | idle
  | dead
  | wait (e : Entry)
  | claim (e : Entry)
  | clear (q : Nat) (e : Entry) (p : Piece) (rest : List Piece)
  | kind (q : Nat) (e : Entry) (p : Piece) (rest : List Piece)
  | slen (q : Nat) (e : Entry) (p : Piece) (rest : List Piece)
  | body (q : Nat) (e : Entry) (p : Piece) (rest : List Piece) (k : Nat)
  | ready (q : Nat) (e : Entry) (p : Piece) (rest : List Piece)
  | pushed (h : Int64)
  | unlink
  | rename (h : Int64)
  | reap

/-- A coin whose script goes on in further slots: how many slots the record has, how many of
those behind the first are read, and the script so far. -/
structure Part where
  isAdd : Bool
  slen : Nat
  body : List UInt8
  n : Nat
  chunks : Nat
  script : List UInt8

inductive Phase where
  | poll
  | unlink (next : Phase)
  | check
  | kind
  | slen (kind : Kind)
  | body (kind : Kind) (slen : UInt32) (bytes : List UInt8)
  | again (kind : Kind) (slen : UInt32) (bytes : List UInt8)
  | contReady (p : Part)
  | contSlen (p : Part)
  | contKind (p : Part) (cl : Nat)
  | contBody (p : Part) (cl : Nat) (got : List UInt8)
  | contAgain (p : Part) (got : List UInt8)
  | rename (h : Int64)
  | writeRow (h : Int64)
  | mark (h : Int64)
  | publish (stop : Bool)

structure Worker (σ : Type) where
  cursor : Nat
  head : Nat
  totals : Totals σ
  valid : Bool
  phase : Phase

/-- The shared block and the files, the connect process, the worker while it runs; then the
history: the generations with the latest first, the records claimed in the ring and how many
of its slots were filled. -/
structure Sys (σ : Type) where
  slots : Nat → Stamped Cell
  seq : Nat
  foldedSeq : Nat
  foldedHeight : Int64
  pushedHeight : Int64
  file : Option (Int64 × Totals σ)
  rows : List (Int64 × Totals σ)
  totals : Totals σ
  height : Int64
  valid : Bool
  ringOn : Bool
  workerPid : Bool
  producer : Producer
  worker : Option (Worker σ)
  gens : List (Generation σ)
  ring : List Entry
  filled : Nat

inductive Action (σ : Type) where
  | onCoin (isAdd : Bool) (c : CoinRec)
  | onBlock (h : Int64) (wrote : Bool)
  | commit (h : Int64)
  | invalidate
  | seed (walk : Totals σ) (h : Int64) (ok wrote : Bool)
  | start (forked : Bool)
  | stop
  | produce (choice : Bool)
  | look
  | consume (choice : Bool)
  | killProducer
  | killWorker

variable {σ : Type} (add : σ → CoinRec → σ)

/-- `add` stands for `utxo_stats_add`. -/
def Totals.apply (t : Totals σ) : Entry → Totals σ
  | .coin true c => { t with num := add t.num c }
  | .coin false c => { t with den := add t.den c }
  | _ => t

def Totals.replay (t : Totals σ) (log : List Entry) : Totals σ := log.foldl (apply add) t

def note (gens : List (Generation σ)) (e : Entry) : List (Generation σ) :=
  match gens with
  | [] => []
  | g :: gs => { g with log := g.log ++ [e] } :: gs

namespace Sys

/-! ## The connect process -/

/-- `csi_invalidate_local` -/
def invalidateLocal (s : Sys σ) : Sys σ := { s with valid := false, producer := .unlink }

/-- `csi_on_add` and `csi_on_remove` -/
def onCoin (s : Sys σ) (isAdd : Bool) (c : CoinRec) : Sys σ :=
  if !s.valid then s
  else if s.ringOn then { s with producer := .wait (.coin isAdd c) }
  else { s with totals := s.totals.apply add (.coin isAdd c), gens := note s.gens (.coin isAdd c) }

/-- `csi_on_block`; the row may fail to be written. -/
def onBlock (s : Sys σ) (h : Int64) (wrote : Bool) : Sys σ :=
  if !s.valid then s
  else if s.ringOn then { s with producer := .wait (.row h) }
  else
    { s with
      rows := if wrote then (h, s.totals) :: s.rows else s.rows
      gens := note s.gens (.row h) }

/-- `csi_commit`, with `csi_persist` up to the rename. -/
def commit (s : Sys σ) (h : Int64) : Sys σ :=
  if !s.valid then s
  else if s.ringOn then { s with producer := .wait (.commit h) }
  else { s with height := h, gens := note s.gens (.commit h), producer := .rename h }

/-- `csi_invalidate` -/
def invalidate (s : Sys σ) : Sys σ :=
  if s.ringOn && s.workerPid then
    if s.worker.isSome then
      if s.valid then { s with producer := .wait .inval } else s
    else invalidateLocal { s with workerPid := false, ringOn := false }
  else s.invalidateLocal

/-- `csi_seed_from_walk` once no worker is left: the walk may fail. -/
def seed (s : Sys σ) (walk : Totals σ) (h : Int64) (ok wrote : Bool) : Sys σ :=
  if s.workerPid then s
  else if !ok then { s with totals := walk, valid := false }
  else
    { s with
      totals := walk
      valid := true
      rows := if wrote then (h, walk) :: s.rows else s.rows
      gens := ⟨walk, [.row h, .commit h]⟩ :: s.gens
      height := h
      producer := .rename h }

/-- `csi_worker_start` -/
def start (s : Sys σ) (forked : Bool) : Sys σ :=
  if s.workerPid || !s.valid then s
  else if forked then
    { s with
      foldedSeq := s.seq
      foldedHeight := s.height
      pushedHeight := s.height
      worker := some ⟨s.seq, s.seq, s.totals, true, .poll⟩
      workerPid := true
      ringOn := true }
  else { s with foldedSeq := s.seq, foldedHeight := s.height, pushedHeight := s.height }

/-- The end of `csi_worker_stop`: the totals here are stale since the fork. -/
def stopped (s : Sys σ) : Sys σ :=
  { s with workerPid := false, ringOn := false, valid := false, producer := .idle }

/-- `csi_worker_stop` -/
def stop (s : Sys σ) : Sys σ :=
  if !s.workerPid then s
  else if s.worker.isSome then { s with producer := .wait .stop }
  else s.stopped

/-- After `ring_push` returned 1. -/
def pushDone (s : Sys σ) : Entry → Sys σ
  | .coin _ _ => { s with producer := .idle }
  | .row _ => { s with producer := .idle }
  | .commit h => { s with producer := .pushed h }
  | .inval => { s with valid := false, producer := .idle }
  | .stop => { s with producer := .reap }

/-- After `ring_push` found the worker gone. -/
def pushGone (s : Sys σ) : Entry → Sys σ
  | .coin _ _ => s.invalidateLocal
  | .row _ => s.invalidateLocal
  | .commit _ => s.invalidateLocal
  | .inval => { s with valid := false, producer := .idle }
  | .stop => s.stopped

def fillNext (s : Sys σ) (q : Nat) (e : Entry) : List Piece → Sys σ
  | [] => s.pushDone e
  | p :: rest => { s with producer := .clear (q + 1) e p rest }

/-- One step of the connect process.  The choice is whether the wait for room is over, and
whether a rename succeeds. -/
def produce (s : Sys σ) (choice : Bool) : Sys σ :=
  match s.producer with
  | .idle => s
  | .dead => s
  | .wait e =>
      if s.seq + e.pieces.length - s.foldedSeq ≤ ringSlots ∨ choice = true then
        { s with producer := .claim e }
      else s
  | .claim e =>
      match e.pieces with
      | [] => s
      | p :: rest =>
          { s with
            seq := s.seq + e.pieces.length
            gens := note s.gens e
            ring := s.ring ++ [e]
            producer := .clear s.seq e p rest }
  | .clear q e p rest =>
      { s with slots := Stamped.clear ringSlots s.slots q, producer := .kind q e p rest }
  | .kind q e p rest =>
      { s with
        slots := Stamped.store ringSlots s.slots q fun cell => { cell with kind := p.kind }
        producer := .slen q e p rest }
  | .slen q e p rest =>
      { s with
        slots := Stamped.store ringSlots s.slots q fun cell => { cell with slen := p.slen }
        producer := .body q e p rest 0 }
  | .body q e p rest k =>
      if k < p.bytes.length then
        { s with
          slots := Stamped.store ringSlots s.slots q fun cell =>
            { cell with body := Function.update cell.body k (p.bytes.getD k 0) }
          producer := .body q e p rest (k + 1) }
      else { s with producer := .ready q e p rest }
  | .ready q e _ rest =>
      fillNext { s with slots := Stamped.mark ringSlots s.slots q, filled := q + 1 } q e rest
  | .pushed h => { s with pushedHeight := h, producer := .idle }
  | .unlink => { s with file := none, producer := .idle }
  | .rename h =>
      if choice then { s with file := some (h, s.totals), producer := .idle } else s.invalidateLocal
  | .reap => stopped { s with worker := none }

/-- `csi_worker_dead` where the connect process asks for it while it waits. -/
def look (s : Sys σ) : Sys σ :=
  match s.producer with
  | .wait e => if s.worker.isSome then s else pushGone { s with workerPid := false, ringOn := false } e
  | .reap => if s.worker.isSome then s else s.stopped
  | _ => s

end Sys

/-! ## The worker -/

namespace Worker

/-- `csi_invalidate_local` in the worker, `n` slots further on. -/
def invalidate (w : Worker σ) (n : Nat) (next : Phase) : Worker σ :=
  { w with cursor := w.cursor + n, valid := false, phase := .unlink next }

def foldCoin (w : Worker σ) (isAdd : Bool) (body script : List UInt8) (n : Nat) : Worker σ :=
  { w with
    totals := if w.valid then w.totals.apply add (decodeCoin isAdd body script) else w.totals
    cursor := w.cursor + n
    phase := .publish false }

def takeCoin (w : Worker σ) (isAdd : Bool) (slen : Nat) (body : List UInt8) : Worker σ :=
  if scriptMax < slen then w.invalidate 1 (.publish false)
  else if inlineBytes < slen then
    if w.head - w.cursor < 1 + contSlots slen then { w with phase := .poll }
    else { w with phase := .contReady ⟨isAdd, slen, body, 1 + contSlots slen, 0, inlineScript slen body⟩ }
  else w.foldCoin add isAdd body (inlineScript slen body) 1

/-- A record whose first slot is read. -/
def dispatch (w : Worker σ) (kind : Kind) (slen : UInt32) (body : List UInt8) : Worker σ :=
  match kind with
  | .add => w.takeCoin add true slen.toNat body
  | .remove => w.takeCoin add false slen.toNat body
  | .row =>
      { w with
        cursor := w.cursor + 1
        phase := if w.valid then .writeRow (decodeHeight body) else .publish false }
  | .commit =>
      { w with
        cursor := w.cursor + 1
        phase := if w.valid then .rename (decodeHeight body) else .mark (decodeHeight body) }
  | .inval => w.invalidate 1 (.publish false)
  | .stop => { w with cursor := w.cursor + 1, phase := .publish true }
  | .cont => { w with cursor := w.cursor + 1, phase := .publish false }
  | .empty => { w with cursor := w.cursor + 1, phase := .publish false }

/-- A continuation slot is read. -/
def takeChunk (w : Worker σ) (p : Part) (got : List UInt8) : Worker σ :=
  if p.chunks + 2 < p.n then
    { w with phase := .contReady { p with chunks := p.chunks + 1, script := p.script ++ got } }
  else if (p.script ++ got).length ≠ p.slen then w.invalidate p.n (.publish false)
  else w.foldCoin add p.isAdd p.body (p.script ++ got) p.n

end Worker

namespace Sys

def setWorker (s : Sys σ) (w : Worker σ) : Sys σ := { s with worker := some w }

def slot (s : Sys σ) (q : Nat) : Cell := (s.slots (q % ringSlots)).item

/-- One step of `worker_run`.  The choice is whether a rename or the write of a row
succeeds. -/
def consume (s : Sys σ) (w : Worker σ) (choice : Bool) : Sys σ :=
  match w.phase with
  | .poll =>
      if ringSlots < s.seq - w.cursor then
        s.setWorker ⟨s.seq - ringSlots, s.seq, w.totals, false, .unlink .check⟩
      else s.setWorker { w with head := s.seq, phase := .check }
  | .unlink next => { s.setWorker { w with phase := next } with file := none }
  | .check =>
      s.setWorker { w with
        phase := if w.cursor < w.head ∧ Stamped.Has ringSlots s.slots w.cursor then .kind else .poll }
  | .kind => s.setWorker { w with phase := .slen (s.slot w.cursor).kind }
  | .slen kind => s.setWorker { w with phase := .body kind (s.slot w.cursor).slen [] }
  | .body kind slen bytes =>
      let bytes := bytes ++ [(s.slot w.cursor).body bytes.length]
      s.setWorker { w with
        phase := if bytes.length < bodyBytes then .body kind slen bytes else .again kind slen bytes }
  | .again kind slen bytes =>
      s.setWorker (if Stamped.Has ringSlots s.slots w.cursor then w.dispatch add kind slen bytes
        else { w with phase := .poll })
  | .contReady p =>
      s.setWorker { w with
        phase := if Stamped.Has ringSlots s.slots (w.cursor + p.chunks + 1) then .contSlen p else .poll }
  | .contSlen p =>
      s.setWorker { w with phase := .contKind p (s.slot (w.cursor + p.chunks + 1)).slen.toNat }
  | .contKind p cl =>
      s.setWorker (if (s.slot (w.cursor + p.chunks + 1)).kind ≠ .cont ∨ bodyBytes < cl ∨
          p.slen < p.script.length + cl then w.invalidate p.n (.publish false)
        else { w with phase := .contBody p cl [] })
  | .contBody p cl got =>
      s.setWorker { w with
        phase := if got.length < cl then
            .contBody p cl (got ++ [(s.slot (w.cursor + p.chunks + 1)).body got.length])
          else .contAgain p got }
  | .contAgain p got =>
      s.setWorker (if Stamped.Has ringSlots s.slots (w.cursor + p.chunks + 1) then w.takeChunk add p got
        else { w with phase := .poll })
  | .rename h =>
      if choice then { s.setWorker { w with phase := .mark h } with file := some (h, w.totals) }
      else s.setWorker (w.invalidate 0 (.mark h))
  | .writeRow h =>
      { s.setWorker { w with phase := .publish false } with
        rows := if choice then (h, w.totals) :: s.rows else s.rows }
  | .mark h => { s.setWorker { w with phase := .publish false } with foldedHeight := h }
  | .publish stop =>
      { s with
        foldedSeq := w.cursor
        worker := if stop then none else some { w with phase := .check } }

/-- What the connect process is called for; it is busy with one call at a time. -/
def call (s : Sys σ) (next : Sys σ) : Sys σ :=
  match s.producer with
  | .idle => next
  | _ => s

def step (s : Sys σ) : Action σ → Sys σ
  | .onCoin isAdd c => s.call (s.onCoin add isAdd c)
  | .onBlock h wrote => s.call (s.onBlock h wrote)
  | .commit h => s.call (s.commit h)
  | .invalidate => s.call s.invalidate
  | .seed walk h ok wrote => s.call (s.seed walk h ok wrote)
  | .start forked => s.call (s.start forked)
  | .stop => s.call s.stop
  | .produce choice => s.produce choice
  | .look => s.look
  | .consume choice =>
      match s.worker with
      | none => s
      | some w => s.consume add w choice
  | .killProducer => { s with producer := .dead }
  | .killWorker => { s with worker := none }

def run (s : Sys σ) (acts : List (Action σ)) : Sys σ := acts.foldl (step add) s

/-- `csi_boot` over the file an earlier run left: its state is adopted if it is that of the
applied height.  The status block is new. -/
def boot (file : Option (Int64 × Totals σ)) (empty : Totals σ) (applied : Int64) : Sys σ :=
  let adopted := match file with
    | some (h, _) => decide (0 ≤ h ∧ h = applied)
    | none => false
  { slots := fun _ => ⟨0, ⟨.empty, 0, fun _ => 0⟩⟩
    seq := 0
    foldedSeq := 0
    foldedHeight := 0
    pushedHeight := 0
    file := file
    rows := []
    totals := (file.map Prod.snd).getD empty
    height := (file.map Prod.fst).getD 0
    valid := adopted
    ringOn := false
    workerPid := false
    producer := .idle
    worker := none
    gens := (file.map fun x => ⟨x.2, [.commit x.1]⟩).toList
    ring := []
    filled := 0 }

/-- `csi_rpc_run`: refused while the worker is behind the last marker. -/
def csiRpcRun (s : Sys σ) : Option (Int64 × Totals σ) :=
  if s.foldedHeight < s.pushedHeight then none else s.file

end Sys

end BitcoinMachineCode.Storage.StatsRing
