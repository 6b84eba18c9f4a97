import Mathlib.Data.List.Basic
import Mathlib.Logic.Function.Basic
import Mathlib.Tactic.Linarith

/-!
# The rolling chunk fetch

`ibd_fetch_chunk_rolling` of `daemon/ibd_pipeline.c`: a worker completes one chunk of blocks
while the blocks of the next already arrive.  What comes before its turn waits in the memory
of its side, an allocator that only moves forward; the two sides change places from one call
to the next.  Counters for the log and the callbacks for progress and bytes are left out.
-/

namespace BitcoinMachineCode.Network.RollingFetch

def pipeMax : Nat := 256

def sideBytes : Nat := 80 <<< 20

inductive Fail where
  | args
  | headers
  | write
  | read
  | consensus
  | link
  | store
  | hold
  | budget
  deriving DecidableEq

inductive Cmd where
  | ping
  | block
  | other
  deriving DecidableEq

structure Msg where
  cmd : Cmd
  payload : List UInt8

/-- A header store: its records of 112 bytes by local index. -/
def Hst : Type := Nat → Option (List UInt8)

def recHash (rcd : List UInt8) : List UInt8 := (rcd.drop 80).take 32

def recPrev (rcd : List UInt8) : List UInt8 := (rcd.drop 4).take 32

/-- The previous hash inside a block. -/
def rawPrev (raw : List UInt8) : List UInt8 := (raw.drop 4).take 32

/-- `ibd_side_t` -/
structure Side where
  lo : Int
  n : Nat
  sent : Int
  arrived : Int
  want : Nat → List UInt8
  prev : Nat → List UInt8
  off : Nat → Nat
  len : Nat → Nat
  buf : Nat → UInt8
  used : Nat

namespace Side

/-- `ibd_side_reset` -/
def reset (s : Side) (lo : Int) (n : Nat) : Side :=
  { s with lo := lo, n := n, sent := 0, arrived := 0, used := 0, len := fun _ => 0 }

/-- `ibd_side_load`, up to the first record that cannot be read. -/
def load (s : Side) (hst : Hst) : Side × Bool :=
  (List.range s.n).foldl
    (fun x i =>
      if !x.2 then x
      else
        match hst i with
        | none => (x.1, false)
        | some rcd =>
            ({ x.1 with
                want := Function.update x.1.want i (recHash rcd)
                prev := Function.update x.1.prev i (recPrev rcd) }, true))
    (s, true)

/-- `ibd_park`; lengths are of 32 bits. -/
def park (s : Side) (idx : Nat) (raw : List UInt8) : Option Side :=
  if sideBytes < (s.used + raw.length) % 2 ^ 32 then none
  else
    some { s with
      buf := fun a => if s.used ≤ a ∧ a < s.used + raw.length then raw.getD (a - s.used) 0 else s.buf a
      off := Function.update s.off idx s.used
      len := Function.update s.len idx raw.length
      used := s.used + raw.length }

/-- The bytes of a parked block. -/
def body (s : Side) (i : Nat) : List UInt8 := (List.range (s.len i)).map fun k => s.buf (s.off i + k)

end Side

/-- What is handed to the sink. -/
structure Handed where
  height : Int
  hash : List UInt8
  raw : List UInt8

/-- One call with what its peer, its socket and its sink do: the messages read, whether the
requests go out, and whether the sink takes what it is handed, each by number. -/
structure Call where
  fd : Int
  lo : Int
  nloc : Int
  loNext : Int
  nNext : Int
  cap : Int
  hst : Hst
  hstNext : Option Hst
  buflen : Nat
  /-- the caller's buffer, which has 24 MiB, is far from the end of the 32-bit lengths -/
  buflen_fits : buflen + sideBytes < 2 ^ 32
  mapped : Bool
  reads : Nat → Option Msg
  writes : Nat → Bool
  sinks : Nat → Bool

/-- `g_sa`, `g_sb` and `g_carry_fd` -/
structure Sides where
  sa : Side
  sb : Side
  carryFd : Int

/-- The sides and the local variables of a call. -/
structure Fetch where
  sa : Side
  sb : Side
  stale : Int
  next : Nat
  stored : Nat
  handed : List Handed

variable (verify : List UInt8 → Bool) (blockHash : List UInt8 → List UInt8)

namespace Call

def size (c : Call) : Nat := c.nloc.toNat

def argsOk (c : Call) : Bool :=
  decide (0 < c.nloc ∧ c.nloc ≤ pipeMax ∧ 0 ≤ c.nNext ∧ c.nNext ≤ pipeMax ∧ 1 ≤ c.cap ∧ c.cap ≤ pipeMax)

/-- Whether the carried hashes are those of the headers, `none` where one cannot be read. -/
def sameHashes (c : Call) (s : Side) : Nat → Nat → Option Bool
  | 0, _ => some true
  | k + 1, i =>
      match c.hst i with
      | none => none
      | some rcd => if s.want i = recHash rcd then sameHashes c s k (i + 1) else some false

/-- A side loaded anew with the chunk. -/
def reloaded (c : Call) (s : Side) : Side × Bool := (s.reset c.lo c.size).load c.hst

/-- The sides at the start: the carry is adopted if it is this chunk on this socket.  The
number is what is still under way for nothing. -/
def adopt (c : Call) (g : Sides) : Side × Side × Int × Bool :=
  if g.carryFd = c.fd ∧ (g.sb.n : Int) = c.nloc ∧ g.sb.lo = c.lo then
    match c.sameHashes g.sb c.size 0 with
    | none => (g.sb, g.sa, 0, false)
    | some true => (g.sb, g.sa, 0, true)
    | some false => ((c.reloaded g.sb).1, g.sa, g.sb.sent - g.sb.arrived, (c.reloaded g.sb).2)
  else
    ((c.reloaded g.sa).1, g.sb, if g.carryFd = c.fd ∧ 0 < g.sb.n then g.sb.sent - g.sb.arrived else 0,
      (c.reloaded g.sa).2)

/-- The lookahead side, empty if there is no next chunk. -/
def lookahead (c : Call) (sb : Side) : Side × Bool :=
  match c.hstNext with
  | none => (sb.reset c.loNext 0, true)
  | some hst => if 0 < c.nNext then (sb.reset c.loNext c.nNext.toNat).load hst else (sb.reset c.loNext 0, true)

def give (c : Call) (f : Fetch) (hash raw : List UInt8) : Fetch × Bool :=
  ({ f with handed := f.handed ++ [⟨c.lo + f.next, hash, raw⟩] }, c.sinks f.handed.length)

/-- What is parked from the next height on goes to the sink. -/
def drain (c : Call) : Nat → Fetch → Fetch × Option Fail
  | 0, f => (f, none)
  | k + 1, f =>
      if f.next < c.size ∧ f.sa.len f.next ≠ 0 then
        match c.give f (f.sa.want f.next) (f.sa.body f.next) with
        | (f', false) => (f', some .store)
        | (f', true) =>
            drain c k { f' with
              sa := { f'.sa with len := Function.update f'.sa.len f.next 0 }
              stored := f.stored + 1
              next := f.next + 1 }
      else (f, none)

/-- The first block of a side from `start` on that is missing and has the hash. -/
def place (s : Side) (n start : Nat) (hash : List UInt8) : Option Nat :=
  (List.range n).find? fun i => decide (start ≤ i ∧ s.len i = 0 ∧ hash = s.want i)

def linked (s : Side) (i : Nat) (raw : List UInt8) : Bool :=
  (decide (i = 0) || decide (rawPrev raw = s.want (i - 1))) && decide (rawPrev raw = s.prev i)

/-- The peer is asked for as many as may be under way, of this chunk first. -/
def topUp (c : Call) (f : Fetch) : Fetch × Nat :=
  let out := (f.sa.sent - f.sa.arrived) + (f.sb.sent - f.sb.arrived) + f.stale
  let room := c.cap - out
  let ka := (min room (c.size - f.sa.sent)).toNat
  let kb := (min (room - ka) (f.sb.n - f.sb.sent)).toNat
  ({ f with
      sa := { f.sa with sent := f.sa.sent + ka }
      sb := { f.sb with sent := f.sb.sent + kb } }, ka + kb)

/-- A block of this chunk. -/
def takeOwn (c : Call) (f : Fetch) (i : Nat) (raw : List UInt8) : Fetch × Option Fail :=
  if !linked f.sa i raw then (f, some .link)
  else
    let f := { f with sa := { f.sa with arrived := f.sa.arrived + 1 } }
    if i = f.next then
      match c.give f (blockHash raw) raw with
      | (f', false) => (f', some .store)
      | (f', true) => c.drain c.size { f' with stored := f.stored + 1, next := f.next + 1 }
    else
      match f.sa.park i raw with
      | none => (f, some .hold)
      | some sa => ({ f with sa := sa }, none)

/-- A block of the lookahead. -/
def takeAhead (f : Fetch) (i : Nat) (raw : List UInt8) : Fetch × Option Fail :=
  if !linked f.sb i raw then (f, some .link)
  else
    let f := { f with sb := { f.sb with arrived := f.sb.arrived + 1 } }
    match f.sb.park i raw with
    | none => (f, some .hold)
    | some sb => ({ f with sb := sb }, none)

def takeBlock (c : Call) (f : Fetch) (raw : List UInt8) : Fetch × Option Fail :=
  if !verify raw then (f, some .consensus)
  else
    match place f.sa c.size f.next (blockHash raw) with
    | some i => c.takeOwn blockHash f i raw
    | none =>
        match place f.sb f.sb.n 0 (blockHash raw) with
        | some i => takeAhead f i raw
        | none => ({ f with stale := if 0 < f.stale then f.stale - 1 else f.stale }, none)

/-- One message, after the requests. -/
def round (c : Call) (r : Nat) (f : Fetch) : Fetch × Option Fail :=
  let (f, k) := c.topUp f
  if 0 < k ∧ !c.writes r then (f, some .write)
  else
    match c.reads r with
    | none => (f, some .read)
    | some m =>
        if c.buflen < m.payload.length then (f, some .read)
        else if m.cmd ≠ .block ∨ m.payload.length < 81 then (f, none)
        else c.takeBlock verify blockHash f m.payload

def loop (c : Call) : Nat → Nat → Fetch → Fetch × Option Fail
  | 0, _, f => (f, if f.stored = c.size then none else some .budget)
  | k + 1, r, f =>
      if f.stored < c.size then
        match c.round verify blockHash r f with
        | (f', none) => loop c k (r + 1) f'
        | (f', some why) => (f', some why)
      else (f, if f.stored = c.size then none else some .budget)

/-- The result of a call: what went to the sink, and why it failed if it did. -/
structure Outcome where
  handed : List Handed
  why : Option Fail

def failed (sa sb : Side) (handed : List Handed) (why : Fail) : Sides × Outcome :=
  (⟨sa, { sb with n := 0 }, -1⟩, ⟨handed, some why⟩)

/-- `ibd_fetch_chunk_rolling` -/
def ibdFetchChunkRolling (c : Call) (g : Sides) : Sides × Outcome :=
  if !c.argsOk then failed g.sa g.sb [] .args
  else if !c.mapped then failed g.sa g.sb [] .hold
  else
    let (sa, sb, stale, ok) := c.adopt g
    if !ok then failed sa sb [] .headers
    else
      let (sb, ok) := c.lookahead sb
      if !ok then failed sa sb [] .headers
      else
        match c.drain c.size ⟨sa, sb, stale, 0, 0, []⟩ with
        | (f, some why) => failed f.sa f.sb f.handed why
        | (f, none) =>
            match c.loop verify blockHash ((c.size + f.sb.n) * 8 + 256) 0 f with
            | (f, some why) => failed f.sa f.sb f.handed why
            | (f, none) => (⟨f.sa, f.sb, if 0 < f.sb.n then c.fd else -1⟩, ⟨f.handed, none⟩)

end Call

/-- One call after the other, and `ibd_pipeline_drop_carry` in between. -/
inductive Step where
  | fetch (c : Call)
  | dropCarry

def stepSides (g : Sides) : Step → Sides × Option (Call × Call.Outcome)
  | .fetch c => ((c.ibdFetchChunkRolling verify blockHash g).1, some (c, (c.ibdFetchChunkRolling verify blockHash g).2))
  | .dropCarry => ({ g with carryFd := -1, sb := { g.sb with n := 0 } }, none)

/-- The calls of a run with their outcomes. -/
def runSides (g : Sides) : List Step → List (Call × Call.Outcome)
  | [] => []
  | a :: as => (stepSides verify blockHash g a).2.toList ++ runSides (stepSides verify blockHash g a).1 as

/-- The sides before the first call. -/
def emptySide : Side := ⟨0, 0, 0, 0, fun _ => [], fun _ => [], fun _ => 0, fun _ => 0, fun _ => 0, 0⟩

def emptySides : Sides := ⟨emptySide, emptySide, -1⟩

end BitcoinMachineCode.Network.RollingFetch
