import BitcoinMachineCode.Chain.ReorgAnalyze

/-!
# The boot header fetch

`dlc_fetch_headers` of `daemon/main.c` with the low-work hold of
`daemon/hdr_lowwork.c`.  A page of a peer's headers is attached to the locator,
weighed, and then stored, held in memory or thrown away; one peer's hold may be
handed to the next.  Work is a natural number, so `block_work` and
`chainwork_add` are exact; `block_hash` and `pow_check` are parameters.
-/

namespace BitcoinMachineCode.Chain

open BitcoinMachineCode.Foundation

/-! ## Pages -/

def dlcHdrPage : Nat := 2000

def dlcHdrLocatorMax : Nat := 40

def dlcHdrSaneMax : Nat := 100000

def dlcHdrRounds : Nat := 1000

def lowworkHoldPages : Nat := 1000

/-- One of the 81-byte entries of a `headers` message. -/
structure WireHeader where
  hdr : Bytes 80
  txnCount : UInt8

/-- The work a page claims. -/
def pageWork (hdrs : List WireHeader) : Nat := totalWork (hdrs.map WireHeader.hdr)

/-- What does not change between the replies: the hash and the proof-of-work
check, the configured floor as a 256-bit number (zero is none), and what the
header rules are armed with. -/
structure FetchEnv where
  blockHash : Bytes 80 → Bytes 32
  powCheck : Bytes 80 → Bool
  minWork : Nat
  scriptFlags : Nat → Bytes 32 → UInt64
  bip34 : Nat
  bip94 : Bool

/-- What may change: the clock, the operator's invalid set, whether the next
record can be written and whether the hold's scratch can be mapped. -/
structure Moment where
  now : Int
  invalid : Bytes 32 → Bool
  appendOk : Nat → Bool
  mapped : Bool

/-! ## The hold -/

structure HeldPage where
  hdrs : List WireHeader
  pos : Nat
  prev : Bytes 32

/-- `lowwork_t` -/
structure Hold where
  armed : Bool
  cum : Nat
  held : List HeldPage
  tailHash : Bytes 32
  tailHeight : Nat

inductive LowworkVerdict where
  | append
  | hold
  | release
  | abandon
  deriving DecidableEq

namespace Hold

def clear (l : Hold) : Hold := { l with held := [] }

/-- `lowwork_begin` -/
def start (cumAtFork : Nat) (armed : Bool) : Hold :=
  ⟨armed, cumAtFork, [], Bytes.ofList 32 [], 0⟩

def tail (l : Hold) : Option (Bytes 32 × Nat) :=
  if l.held = [] then none else some (l.tailHash, l.tailHeight)

end Hold

namespace FetchEnv

/-- `reorg_min_chain_work_set` -/
def minChainWorkSet (env : FetchEnv) : Bool := env.minWork != 0

/-- `reorg_work_meets_minimum`: a floor that does not fit 128 bits is never
met. -/
def meetsMinimum (env : FetchEnv) (work : Nat) : Bool :=
  if env.minWork = 0 then true
  else if 2 ^ 128 ≤ env.minWork then false
  else decide (env.minWork ≤ work)

/-- `lowwork_page` -/
def lowworkPage (env : FetchEnv) (l : Hold) (hdrs : List WireHeader) (pos : Nat)
    (prev lastHash : Bytes 32) (mapped : Bool) : Hold × LowworkVerdict :=
  let l := { l with cum := l.cum + pageWork hdrs }
  if !l.armed then (l, .append)
  else if env.meetsMinimum l.cum then
    (l, if l.held = [] then .append else .release)
  else if hdrs.length < dlcHdrPage then (l, .append)
  else if lowworkHoldPages ≤ l.held.length then (l, .abandon)
  else if l.held = [] && !mapped then (l, .abandon)
  else
    ({ l with
        held := l.held ++ [⟨hdrs, pos, prev⟩]
        tailHash := lastHash
        tailHeight := pos + hdrs.length - 1 }, .hold)

/-! ## Taking a page -/

/-- The rules of a header that would be new at `height`: proof of work, a
readable parent window, the contextual and timewarp rules, the operator's
invalid set, and the append itself. -/
def takesHeader (env : FetchEnv) (m : Moment) (store : List (Bytes 80))
    (height : Nat) (hdr : Bytes 80) : Bool :=
  env.powCheck hdr &&
    (if height = 0 then
      (hdrContextualOk height hdr 0 m.now
        (env.scriptFlags height (env.blockHash hdr)) env.bip34).isNone
    else
      match mtpAt (store[·]?) (height - 1), store[height - 1]? with
      | some mtp, some parent =>
          (hdrContextualOk height hdr mtp m.now
            (env.scriptFlags height (env.blockHash hdr)) env.bip34).isNone &&
          (hdrTimewarpOk height hdr parent env.bip94).isNone
      | _, _ => false) &&
    !m.invalid (env.blockHash hdr) && m.appendOk store.length

structure Took where
  store : List (Bytes 80)
  took : Nat
  added : Nat

/-- The loop of `dlc_take_page` from `height` on.  `have_` is the count when the
page began; `none` is a refusal, after which the store is rolled back. -/
def takeHeaders (env : FetchEnv) (m : Moment) (have_ : Nat) :
    Nat → Bytes 32 → List WireHeader → List (Bytes 80) → Option Took
  | _, _, [], store => some ⟨store, 0, 0⟩
  | height, prev, w :: ws, store =>
      if w.txnCount ≠ 0 then some ⟨store, 0, 0⟩
      else if hdrPrev w.hdr ≠ prev then none
      else if height < have_ then
        -- an overlap has to be the same block
        if (store[height]?).map env.blockHash = some (env.blockHash w.hdr) then
          (takeHeaders env m have_ (height + 1) (env.blockHash w.hdr) ws store).map
            fun t => { t with took := t.took + 1 }
        else none
      else if env.takesHeader m store height w.hdr then
        (takeHeaders env m have_ (height + 1) (env.blockHash w.hdr) ws
          (store ++ [w.hdr])).map
            fun t => { t with took := t.took + 1, added := t.added + 1 }
      else none

/-- `dlc_take_page` -/
def dlcTakePage (env : FetchEnv) (m : Moment) (pos : Nat) (prev : Bytes 32)
    (hdrs : List WireHeader) (store : List (Bytes 80)) : Option Took :=
  env.takeHeaders m store.length pos prev hdrs store

/-- The held pages, in order. -/
def takeHeld (env : FetchEnv) (m : Moment) :
    List HeldPage → List (Bytes 80) → Option (List (Bytes 80) × Nat)
  | [], store => some (store, 0)
  | p :: ps, store =>
      match env.dlcTakePage m p.pos p.prev p.hdrs store with
      | none => none
      | some t => (takeHeld env m ps t.store).map fun r => (r.1, r.2 + t.added)

/-- A held page is checked for its counts, its linkage and its proof of work,
and for nothing else. -/
def heldPageOk (env : FetchEnv) : Bytes 32 → List WireHeader → Bool
  | _, [] => true
  | prev, w :: ws =>
      w.txnCount == 0 && hdrPrev w.hdr == prev && env.powCheck w.hdr &&
        heldPageOk env (env.blockHash w.hdr) ws

end FetchEnv

/-! ## The locator -/

/-- The heights of `dlc_locator_build`: ten in a row, then twice as far back
each time. -/
def locatorHeights : Nat → Nat → Nat → Nat → List Nat
  | 0, _, _, _ => []
  | room + 1, n, h, step =>
      let step := if 10 ≤ n + 1 then step * 2 else step
      h :: if h = 0 then [] else locatorHeights room (n + 1) (h - step) step

def FetchEnv.locator (env : FetchEnv) (store : List (Bytes 80)) :
    List (Bytes 32 × Nat) :=
  if store = [] then []
  else (locatorHeights dlcHdrLocatorMax 0 (store.length - 1) 1).filterMap fun h =>
    (store[h]?).map fun hdr => (env.blockHash hdr, h)

/-- The held tail goes in front. -/
def FetchEnv.asked (env : FetchEnv) (store : List (Bytes 80)) (l : Hold) :
    List (Bytes 32 × Nat) :=
  match l.tail with
  | none => env.locator store
  | some t => t :: (env.locator store).take (dlcHdrLocatorMax - 1)

/-! ## A round -/

structure FetchState where
  store : List (Bytes 80)
  lw : Hold
  added : Nat
  lwStarted : Bool
  carried : Bool

/-- How a fetch ends.  `handsOver` marks the endings after which the caller may
set the carry flag: a peer that fell under the bar, and the ends of the replay
of the header ranges, which are an empty page and the last round. -/
structure FetchEnd where
  store : List (Bytes 80)
  lw : Hold
  ret : Int
  handsOver : Bool

/-- What the socket gives in one round. -/
inductive Reply where
  | slow
  | unsent
  | silent
  | malformed
  | page (m : Moment) (hdrs : List WireHeader)

namespace FetchState

def stop (s : FetchState) : FetchEnd := ⟨s.store, s.lw, s.added, false⟩

def pause (s : FetchState) : FetchEnd := ⟨s.store, s.lw, s.added, true⟩

def fail (s : FetchState) : FetchEnd := ⟨s.store, s.lw, -1, false⟩

/-- `dlc_headers_rollback` and the failure after it. -/
def rollback (s : FetchState) (have0 : Nat) : FetchEnd :=
  ⟨s.store.take have0, s.lw, -1, false⟩

/-- A carried hold that the page does not continue is dropped. -/
def dropUncontinued (s : FetchState) (place : Nat) : FetchState :=
  if s.carried && place != 0 then
    { s with lw := s.lw.clear, lwStarted := false, carried := false }
  else s

def startHold (env : FetchEnv) (s : FetchState) (pos : Nat) : FetchState :=
  if s.lwStarted then s
  else
    { s with
      lw := Hold.start (totalWork (s.store.take pos)) env.minChainWorkSet
      lwStarted := true }

/-- The page itself, once the hold has let it through. -/
def takeCurrent (env : FetchEnv) (m : Moment) (have0 pos : Nat) (prev : Bytes 32)
    (hdrs : List WireHeader) (s : FetchState) : Except FetchEnd FetchState :=
  match env.dlcTakePage m pos prev hdrs s.store with
  | none => .error (s.rollback have0)
  | some t =>
      let s := { s with store := t.store, added := s.added + t.added }
      if t.took < hdrs.length || hdrs.length < dlcHdrPage then .error s.stop
      else .ok s

/-- The page after its verdict. -/
def settlePage (env : FetchEnv) (m : Moment) (have0 pos : Nat) (prev : Bytes 32)
    (hdrs : List WireHeader) (s : FetchState) :
    LowworkVerdict → Except FetchEnd FetchState
  | .abandon => .error ({ s with lw := s.lw.clear }.rollback have0)
  | .hold =>
      if env.heldPageOk prev hdrs then .ok s
      else .error ({ s with lw := s.lw.clear }.rollback have0)
  | .release =>
      match env.takeHeld m s.lw.held s.store with
      | none => .error ({ s with lw := s.lw.clear }.rollback have0)
      | some r =>
          takeCurrent env m have0 pos prev hdrs
            { s with store := r.1, added := s.added + r.2, lw := s.lw.clear }
  | .append => takeCurrent env m have0 pos prev hdrs s

/-- A page that names the `place`-th entry of the locator as its parent. -/
def attachPage (env : FetchEnv) (m : Moment) (have0 : Nat) (entry : Bytes 32 × Nat)
    (place : Nat) (hdrs : List WireHeader) (lastHash : Bytes 32) (s : FetchState) :
    Except FetchEnd FetchState :=
  let s := s.dropUncontinued place
  let pos := entry.2 + 1
  if pos + dlcHdrSaneMax < have0 then .error (s.rollback have0)
  else if pos + hdrs.length ≤ s.store.length then
    -- the peer is behind us
    .error ⟨s.store, s.lw.clear, if 0 < s.added then s.added else -1, false⟩
  else
    let s := startHold env s pos
    let weighed := env.lowworkPage s.lw hdrs pos entry.1 lastHash m.mapped
    settlePage env m have0 pos entry.1 hdrs { s with lw := weighed.1 } weighed.2

/-- One turn of the loop of `dlc_fetch_headers`; an error is the end of the
fetch. -/
def round (env : FetchEnv) (have0 : Nat) (s : FetchState) :
    Reply → Except FetchEnd FetchState
  | .slow => .error s.pause
  | .unsent => .error s.fail
  | .silent =>
      if env.locator s.store = [] then .error s.fail
      else .error (if 0 < s.added then s.stop else s.fail)
  | .malformed =>
      if env.locator s.store = [] then .error s.fail else .error s.stop
  | .page m hdrs =>
      if env.locator s.store = [] then .error s.fail
      else if dlcHdrPage < hdrs.length then .error s.stop
      else
        match hdrs.head?, hdrs.getLast? with
        | some first, some last =>
            match (env.asked s.store s.lw).zipIdx.find? fun q =>
                q.1.1 = hdrPrev first.hdr with
            | none => .error (s.rollback have0)
            | some q =>
                s.attachPage env m have0 q.1 q.2 hdrs (env.blockHash last.hdr)
        | _, _ => .error s.pause

/-- The loop; a peer that says no more is silent. -/
def rounds (env : FetchEnv) (have0 : Nat) :
    Nat → FetchState → List Reply → FetchEnd
  | 0, s, _ => s.pause
  | n + 1, s, replies =>
      match s.round env have0 (replies.headD .silent) with
      | .error e => e
      | .ok s' => rounds env have0 n s' replies.tail

end FetchState

/-! ## Fetches in turn -/

/-- What one fetch leaves for the next. -/
structure Session where
  store : List (Bytes 80)
  lw : Hold
  carry : Bool

/-- A hold is taken over when the flag is set and there is one. -/
def Session.begin (d : Session) : FetchState :=
  if d.carry && !d.lw.held.isEmpty then ⟨d.store, d.lw, 0, true, true⟩
  else ⟨d.store, d.lw.clear, 0, false, false⟩

def dlcFetchHeaders (env : FetchEnv) (d : Session) (replies : List Reply) :
    FetchEnd :=
  d.begin.rounds env d.store.length dlcHdrRounds replies

end BitcoinMachineCode.Chain
