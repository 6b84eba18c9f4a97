import BitcoinMachineCode.Consensus.Sha256
import BitcoinMachineCode.Foundation.LinkedChain

/-!
# BIP9 deployments

`b9_state_for` of `rpc_chain.c` walks the period boundaries of the chain and keeps the state
decided at each of them with the hash of the boundary's block.  A later call starts at the
highest boundary kept that is still on the chain.  The archive may be reorganised between two
calls.  The state of the block after `prev` is asked for by that block's own height.
-/

namespace BitcoinMachineCode.Chain.Deployments

open Foundation Consensus

/-! ## The archive -/

def hashOf (header : List UInt8) : List UInt8 := (sha256d header).1

def prevHashOf (header : List UInt8) : List UInt8 := (header.drop 4).take 32

def versionOf (header : List UInt8) : Nat := leVal (header.take 4)

def timeOf (header : List UInt8) : Nat := leVal ((header.drop 68).take 4)

/-- The headers of the chain the index names, and what can be read of them. -/
structure Archive where
  chain : List (List UInt8)
  linked : chain.IsChain fun a b => prevHashOf b = hashOf a
  /-- the block of a height can be read -/
  stored : Nat → Bool
  /-- the index record of a height can be read -/
  indexed : Nat → Bool
  /-- the table can grow by the entry for a height -/
  grows : Nat → Bool

/-- `read_block_prefix` -/
def Archive.readHeader (a : Archive) (h : Nat) : Option (List UInt8) :=
  if a.stored h then a.chain[h]? else none

/-- `read_idx_rec` -/
def Archive.readIdxRec (a : Archive) (h : Nat) : Option (List UInt8) :=
  if a.indexed h then (a.chain[h]?).map hashOf else none

/-! ## One boundary -/

structure Dep where
  bit : Nat
  start : Int
  timeout : Int
  minAct : Nat
  period : Nat
  threshold : Nat
  period_pos : 0 < period

inductive State where
  | defined
  | started
  | lockedIn
  | active
  | failed
  deriving DecidableEq

def State.terminal : State → Bool
  | .active | .failed => true
  | _ => false

section Read

variable (read : Nat → Option (List UInt8))

def b9Signals (d : Dep) (h : Nat) : Option Bool :=
  (read h).map fun header =>
    decide (versionOf header / 2 ^ 29 = 1) && (versionOf header).testBit d.bit

/-- The times from height `h` down, up to `k` of them. -/
def mtpTimes : Nat → Nat → Option (List Nat)
  | 0, _ => some []
  | k + 1, h =>
      match read h with
      | none => none
      | some header =>
          if h = 0 then some [timeOf header] else (mtpTimes k (h - 1)).map (timeOf header :: ·)

def b9Mtp (h : Nat) : Option Nat :=
  (mtpTimes read 11 h).map fun times => (times.mergeSort (· ≤ ·)).getD (times.length / 2) 0

/-- How many of the `k` heights from `h` on signal. -/
def signalCount (d : Dep) : Nat → Nat → Option Nat
  | 0, _ => some 0
  | k + 1, h =>
      match b9Signals read d h with
      | none => none
      | some signals => (signalCount d k (h + 1)).map (· + if signals then 1 else 0)

/-- The state from height `b` on, a boundary, of which the state before is known; none when a
header is missing. -/
def boundaryNext (d : Dep) (b : Nat) (state : State) : Option State :=
  match state with
  | .defined =>
      (b9Mtp read (b - 1)).map fun (m : Nat) => if d.start ≤ m then .started else .defined
  | .started =>
      match signalCount read d d.period (b - d.period) with
      | none => none
      | some count =>
          if d.threshold ≤ count then some .lockedIn
          else (b9Mtp read (b - 1)).map fun (m : Nat) => if d.timeout ≤ m then .failed else .started
  | .lockedIn => some (if d.minAct ≤ b then .active else .lockedIn)
  | state => some state

/-- The recursion without a cache: the state after `j` boundaries, and the height it holds
since. -/
def stateAfter (d : Dep) : Nat → Option (State × Nat)
  | 0 => some (.defined, 0)
  | j + 1 =>
      match stateAfter d j with
      | none => none
      | some (state, since) =>
          if state.terminal then some (state, since)
          else
            (boundaryNext read d ((j + 1) * d.period) state).map fun next =>
              (next, if next = state then since else (j + 1) * d.period)

def alwaysActive : Int := -1

/-- The state of the block at height `next`. -/
def uncached (d : Dep) (next : Nat) : Option (State × Nat) :=
  if d.start = alwaysActive then some (.active, 0) else stateAfter read d (next / d.period)

end Read

/-! ## The cache -/

structure Ent where
  p : Nat
  hash : List UInt8
  state : State
  since : Nat

def b9CachePut (a : Archive) (c : List Ent) (p : Nat) (state : State) (since : Nat) : List Ent :=
  if c.getLast?.any fun e => decide (p ≤ e.p) then c
  else
    match a.readIdxRec p with
    | none => c
    | some hash => if a.grows p then c ++ [⟨p, hash, state, since⟩] else c

/-- The walk up from boundary `b`; no cache when the table of caches was full. -/
def walk (a : Archive) (d : Dep) (next : Nat) :
    Nat → Nat → State → Nat → Option (List Ent) → Option (State × Nat) × Option (List Ent)
  | 0, _, state, since, c => (some (state, since), c)
  | k + 1, b, state, since, c =>
      if b ≤ next then
        match boundaryNext a.readHeader d b state with
        | none => (none, c)
        | some state' =>
            let since' := if state' = state then since else b
            let c' := c.map fun c => b9CachePut a c (b - 1) state' since'
            if state'.terminal then (some (state', since'), c')
            else walk a d next k (b + d.period) state' since' c'
      else (some (state, since), c)

/-- Where the walk starts, and what is left of the cache. -/
def startFrom (a : Archive) (d : Dep) (next : Nat) (c : List Ent) : (Nat × State × Nat) × List Ent :=
  match c.reverse.find? fun e => decide (e.p < next) with
  | none => ((d.period, .defined, 0), c)
  | some e =>
      if a.readIdxRec e.p = some e.hash then ((e.p + 1 + d.period, e.state, e.since), c)
      else ((d.period, .defined, 0), [])

/-- The caches by the address of their deployment. -/
abbrev Caches : Type := List (Nat × List Ent)

def maxCaches : Nat := 8

/-- `b9_cache_for` with the entries found. -/
def cacheFor (cs : Caches) (key : Nat) : Option (List Ent) :=
  match cs.find? fun c => decide (c.1 = key) with
  | some c => some c.2
  | none => if maxCaches ≤ cs.length then none else some []

def storeCache (cs : Caches) (key : Nat) (c : List Ent) : Caches :=
  if cs.any fun c => decide (c.1 = key) then cs.map fun x => if x.1 = key then (key, c) else x
  else cs ++ [(key, c)]

/-- None for -1. -/
def b9StateFor (a : Archive) (key : Nat) (d : Dep) (next : Nat) (cs : Caches) :
    Option (State × Nat) × Caches :=
  if d.start = alwaysActive then (some (.active, 0), cs)
  else
    let c := cacheFor cs key
    let origin := (c.map (startFrom a d next)).getD ((d.period, .defined, 0), [])
    let r :=
      if origin.1.2.1.terminal then (some (origin.1.2.1, origin.1.2.2), c.map fun _ => origin.2)
      else walk a d next (next + 1) origin.1.1 origin.1.2.1 origin.1.2.2 (c.map fun _ => origin.2)
    (r.1, (r.2.map (storeCache cs key)).getD cs)

/-- A query of the state at a height, on the archive as it then stands, or the caches cleared. -/
inductive Request where
  | query (a : Archive) (key next : Nat)
  | reset

structure Answer where
  archive : Archive
  key : Nat
  next : Nat
  value : Option (State × Nat)

def serve (deps : Nat → Dep) : Caches → List Request → List Answer
  | _, [] => []
  | cs, .reset :: rest => serve deps (cs.map fun c => (c.1, [])) rest
  | cs, .query a key next :: rest =>
      let r := b9StateFor a key (deps key) next cs
      ⟨a, key, next, r.1⟩ :: serve deps r.2 rest

/-! ## What the recursion reads -/

/-- Below height `n` whatever `read` gives `read'` gives too. -/
def Covers (n : Nat) (read read' : Nat → Option (List UInt8)) : Prop :=
  ∀ k < n, ∀ header, read k = some header → read' k = some header

theorem Covers.mono {n m : Nat} {read read' : Nat → Option (List UInt8)} (h : Covers n read read')
    (hm : m ≤ n) : Covers m read read' :=
  fun k hk => h k (hk.trans_le hm)

section Covers

variable {read read' : Nat → Option (List UInt8)} {n : Nat} (hc : Covers n read read') {d : Dep}
include hc

theorem b9Signals_covers {h : Nat} (hh : h < n) {v : Bool} (hr : b9Signals read d h = some v) :
    b9Signals read' d h = some v := by
  obtain ⟨header, hread, hv⟩ := Option.map_eq_some_iff.mp hr
  rw [b9Signals, hc h hh header hread, ← hv]
  rfl

theorem mtpTimes_covers {k h : Nat} (hh : h < n) {v : List Nat} (hr : mtpTimes read k h = some v) :
    mtpTimes read' k h = some v := by
  induction k generalizing h v with
  | zero => exact hr
  | succ k ih =>
      rw [mtpTimes] at hr ⊢
      cases hread : read h with
      | none => simp [hread] at hr
      | some header =>
          rw [hread] at hr
          rw [hc h hh header hread]
          dsimp only at hr ⊢
          split at hr
          · next hzero => rwa [if_pos hzero]
          · next hpos =>
              obtain ⟨times, htimes, rfl⟩ := Option.map_eq_some_iff.mp hr
              rw [if_neg hpos, ih (by omega) htimes]
              rfl

theorem b9Mtp_covers {h : Nat} (hh : h < n) {v : Nat} (hr : b9Mtp read h = some v) :
    b9Mtp read' h = some v := by
  obtain ⟨times, htimes, hv⟩ := Option.map_eq_some_iff.mp hr
  rw [b9Mtp, mtpTimes_covers hc hh htimes, ← hv]
  rfl

theorem signalCount_covers {k h : Nat} (hh : h + k ≤ n) {v : Nat} (hr : signalCount read d k h = some v) :
    signalCount read' d k h = some v := by
  induction k generalizing h v with
  | zero => exact hr
  | succ k ih =>
      rw [signalCount] at hr ⊢
      cases hsig : b9Signals read d h with
      | none => simp [hsig] at hr
      | some signals =>
          rw [hsig] at hr
          rw [b9Signals_covers hc (by omega) hsig]
          obtain ⟨count, hcount, rfl⟩ := Option.map_eq_some_iff.mp hr
          simp only [ih (by omega) hcount, Option.map_some]

theorem boundaryNext_covers {b : Nat} {state : State} (hb : b ≤ n) (hp : d.period ≤ b) {v : State}
    (hr : boundaryNext read d b state = some v) : boundaryNext read' d b state = some v := by
  have hpos := d.period_pos
  cases state with
  | defined =>
      obtain ⟨m, hm, hv⟩ := Option.map_eq_some_iff.mp hr
      simp only [boundaryNext, b9Mtp_covers hc (by omega) hm, Option.map_some, hv]
  | started =>
      simp only [boundaryNext] at hr ⊢
      cases hcount : signalCount read d d.period (b - d.period) with
      | none => simp [hcount] at hr
      | some count =>
          rw [hcount] at hr
          rw [signalCount_covers hc (by omega) hcount]
          dsimp only at hr ⊢
          split at hr
          · next hreach => rwa [if_pos hreach]
          · next hshort =>
              obtain ⟨m, hm, hv⟩ := Option.map_eq_some_iff.mp hr
              rw [if_neg hshort, b9Mtp_covers hc (by omega) hm, ← hv]
              rfl
  | lockedIn => exact hr
  | active => exact hr
  | failed => exact hr

/-- The state after `j` boundaries rests on the headers below the last of them. -/
theorem stateAfter_covers {j : Nat} (hj : j * d.period ≤ n) {v : State × Nat}
    (hr : stateAfter read d j = some v) : stateAfter read' d j = some v := by
  induction j generalizing v with
  | zero => exact hr
  | succ j ih =>
      have hmul : (j + 1) * d.period = j * d.period + d.period := Nat.succ_mul _ _
      rw [stateAfter] at hr ⊢
      cases hbefore : stateAfter read d j with
      | none => simp [hbefore] at hr
      | some p =>
          rw [hbefore] at hr
          rw [ih (by omega) hbefore]
          dsimp only at hr ⊢
          split at hr
          · next hterm => rwa [if_pos hterm]
          · next hterm =>
              obtain ⟨next, hnext, hv⟩ := Option.map_eq_some_iff.mp hr
              rw [if_neg hterm, boundaryNext_covers hc hj (by omega) hnext, ← hv]
              rfl

end Covers

/-- A terminal state stays. -/
theorem stateAfter_terminal {read : Nat → Option (List UInt8)} {d : Dep} {j : Nat} {state : State}
    {since : Nat} (h : stateAfter read d j = some (state, since)) (hterm : state.terminal = true)
    {i : Nat} (hi : j ≤ i) : stateAfter read d i = some (state, since) := by
  induction i, hi using Nat.le_induction with
  | base => exact h
  | succ i _ ih => rw [stateAfter, ih]; exact if_pos hterm

/-- A header that is missing stays missing. -/
theorem stateAfter_none {read : Nat → Option (List UInt8)} {d : Dep} {j : Nat}
    (h : stateAfter read d j = none) {i : Nat} (hi : j ≤ i) : stateAfter read d i = none := by
  induction i, hi using Nat.le_induction with
  | base => exact h
  | succ i _ ih => rw [stateAfter, ih]

/-! ## The entries are right for their hashes -/

def Archive.ideal (a : Archive) (h : Nat) : Option (List UInt8) := a.chain[h]?

theorem covers_ideal (a : Archive) (n : Nat) : Covers n a.readHeader a.ideal := by
  intro k _ header hread
  unfold Archive.readHeader at hread
  split at hread
  · exact hread
  · cases hread

/-- On every chain whose block at the boundary has the entry's hash, the recursion gives the
entry's state there. -/
structure EntSound (U : List UInt8 → Prop) (d : Dep) (e : Ent) : Prop where
  boundary : d.period ∣ e.p + 1
  right : ∀ a : Archive, (∀ x ∈ a.chain, U x) → (a.chain[e.p]?).map hashOf = some e.hash →
    stateAfter a.ideal d ((e.p + 1) / d.period) = some (e.state, e.since)

/-- The answer is that of the recursion on the chain; when there is none, the recursion lacks a
header. -/
structure Right (a : Archive) (d : Dep) (next : Nat) (value : Option (State × Nat)) : Prop where
  some_eq : ∀ v, value = some v → uncached a.ideal d next = some v
  none_eq : value = none → uncached a.readHeader d next = none

section Sound

variable {U : List UInt8 → Prop} (hU : ∀ x y, U x → U y → hashOf x = hashOf y → x = y) {a : Archive}
  (ha : ∀ x ∈ a.chain, U x) {d : Dep} {next : Nat}

include hU ha in
theorem entSound_of_chain {p : Nat} {hash : List UInt8} {state : State} {since : Nat}
    (hdvd : d.period ∣ p + 1) (hhash : (a.chain[p]?).map hashOf = some hash)
    (hst : stateAfter a.ideal d ((p + 1) / d.period) = some (state, since)) :
    EntSound U d ⟨p, hash, state, since⟩ := by
  refine ⟨hdvd, fun a' ha' hhash' => ?_⟩
  obtain ⟨x, hx, rfl⟩ := Option.map_eq_some_iff.mp hhash
  obtain ⟨y, hy, hxy⟩ := Option.map_eq_some_iff.mp hhash'
  obtain rfl : y = x :=
    hU y x (ha' y (List.mem_of_getElem? hy)) (ha x (List.mem_of_getElem? hx)) hxy
  -- one hash, one chain below it
  have htake : a.chain.take (p + 1) = a'.chain.take (p + 1) :=
    take_eq_of_top (fun _ _ _ hPa hPb hac hbc => hU _ _ hPa hPb (hac.symm.trans hbc)) a.linked
      a'.linked ha ha' hx hy
  have hcovers : Covers (p + 1) a.ideal a'.ideal := by
    intro k hk header hread
    have := congrArg (·[k]?) htake
    simp only [List.getElem?_take_of_lt hk] at this
    exact this.symm.trans hread
  exact stateAfter_covers hcovers (Nat.div_mul_le_self _ _) hst

include hU ha in
theorem entSound_put {c : List Ent} (hc : ∀ e ∈ c, EntSound U d e) {p : Nat} {state : State}
    {since : Nat} (hdvd : d.period ∣ p + 1)
    (hst : stateAfter a.ideal d ((p + 1) / d.period) = some (state, since)) :
    ∀ e ∈ b9CachePut a c p state since, EntSound U d e := by
  unfold b9CachePut
  split
  · exact hc
  cases hread : a.readIdxRec p with
  | none => exact hc
  | some hash =>
      dsimp only
      split
      · intro e he
        rcases List.mem_append.mp he with hold | hnew
        · exact hc e hold
        · obtain rfl := List.mem_singleton.mp hnew
          apply entSound_of_chain hU ha hdvd _ hst
          unfold Archive.readIdxRec at hread
          split at hread
          · exact hread
          · cases hread
      · exact hc

/-- What the walk and the whole call leave. -/
structure Walked (U : List UInt8 → Prop) (a : Archive) (d : Dep) (next : Nat)
    (r : Option (State × Nat) × Option (List Ent)) : Prop where
  some_eq : ∀ v, r.1 = some v → stateAfter a.ideal d (next / d.period) = some v
  none_eq : r.1 = none → stateAfter a.readHeader d (next / d.period) = none
  sound : ∀ c, r.2 = some c → ∀ e ∈ c, EntSound U d e

theorem walked_of_some {c : Option (List Ent)} (hc : ∀ c', c = some c' → ∀ e ∈ c', EntSound U d e)
    {v : State × Nat} (hst : stateAfter a.ideal d (next / d.period) = some v) :
    Walked U a d next (some v, c) :=
  ⟨fun _ h => Option.some.inj h ▸ hst, fun h => (Option.some_ne_none _ h).elim, hc⟩

include hU ha in
theorem walked_walk {k j : Nat} {state : State} {since : Nat} {c : Option (List Ent)}
    (hst : stateAfter a.ideal d j = some (state, since)) (hterm : state.terminal = false)
    (hlow : j * d.period ≤ next) (hfuel : next < (j + 1) * d.period + k)
    (hc : ∀ c', c = some c' → ∀ e ∈ c', EntSound U d e) :
    Walked U a d next (walk a d next k ((j + 1) * d.period) state since c) := by
  have hpos := d.period_pos
  have hmul : (j + 1) * d.period = j * d.period + d.period := Nat.succ_mul _ _
  -- no boundary is left
  have hlast : ¬ (j + 1) * d.period ≤ next → next / d.period = j := by
    intro hover
    rw [Nat.div_eq_iff hpos]
    omega
  induction k generalizing j state since c with
  | zero =>
      apply walked_of_some hc
      rw [hlast (by omega)]
      exact hst
  | succ k ih =>
      rw [walk]
      split
      · next hmore =>
          have hj : j + 1 ≤ next / d.period := (Nat.le_div_iff_mul_le hpos).mpr hmore
          cases hnext : boundaryNext a.readHeader d ((j + 1) * d.period) state with
          | none =>
              refine ⟨fun _ h => (Option.some_ne_none _ h.symm).elim, fun _ => ?_, hc⟩
              apply stateAfter_none _ hj
              rw [stateAfter]
              cases hbefore : stateAfter a.readHeader d j with
              | none => rfl
              | some v =>
                  obtain rfl : v = (state, since) := by
                    have := stateAfter_covers (covers_ideal a (j * d.period)) le_rfl hbefore
                    rw [this] at hst
                    exact Option.some.inj hst
                  simp [hterm, hnext]
          | some state' =>
              have hafter : stateAfter a.ideal d (j + 1) =
                  some (state', if state' = state then since else (j + 1) * d.period) := by
                rw [stateAfter, hst]
                have hideal := boundaryNext_covers (covers_ideal a ((j + 1) * d.period)) le_rfl
                  (by omega) hnext
                simp [hterm, hideal]
              have hput : ∀ c', (c.map fun c => b9CachePut a c ((j + 1) * d.period - 1) state'
                  (if state' = state then since else (j + 1) * d.period)) = some c' →
                    ∀ e ∈ c', EntSound U d e := by
                intro c' hc'
                obtain ⟨c0, hc0, rfl⟩ := Option.map_eq_some_iff.mp hc'
                have hback : (j + 1) * d.period - 1 + 1 = (j + 1) * d.period := by omega
                apply entSound_put hU ha (hc c0 hc0)
                · rw [hback]
                  exact Nat.dvd_mul_left _ _
                · rw [hback, Nat.mul_div_cancel _ hpos]
                  exact hafter
              dsimp only
              split
              · next hend => exact walked_of_some hput (stateAfter_terminal hafter hend hj)
              · next hon =>
                  have hstep : (j + 1) * d.period + d.period = (j + 1 + 1) * d.period :=
                    (Nat.succ_mul _ _).symm
                  rw [hstep]
                  apply ih hafter (by simpa using hon) hmore _ hput hstep.symm
                  · intro hover
                    rw [Nat.div_eq_iff hpos]
                    omega
                  · omega
      · next hover =>
          apply walked_of_some hc
          rw [hlast hover]
          exact hst

/-- Where a call starts: after some boundaries, of which the state is known. -/
def StartsAt (a : Archive) (d : Dep) (next : Nat) (origin : Nat × State × Nat) : Prop :=
  ∃ j, origin.1 = (j + 1) * d.period ∧ j * d.period ≤ next ∧
    stateAfter a.ideal d j = some (origin.2.1, origin.2.2)

theorem startsAt_genesis : StartsAt a d next (d.period, .defined, 0) :=
  ⟨0, (Nat.one_mul _).symm, by simp, rfl⟩

include ha in
theorem startFrom_sound {c : List Ent} (hc : ∀ e ∈ c, EntSound U d e) :
    StartsAt a d next (startFrom a d next c).1 ∧ ∀ e ∈ (startFrom a d next c).2, EntSound U d e := by
  unfold startFrom
  cases hfind : c.reverse.find? fun e => decide (e.p < next) with
  | none => exact ⟨startsAt_genesis, hc⟩
  | some e =>
      dsimp only
      split
      · next hread =>
          have hmem : e ∈ c := List.mem_reverse.mp (List.mem_of_find?_eq_some hfind)
          have hbelow : e.p < next := by simpa using List.find?_some hfind
          obtain ⟨hdvd, hright⟩ := hc e hmem
          refine ⟨⟨(e.p + 1) / d.period, ?_, ?_, ?_⟩, hc⟩
          · rw [Nat.succ_mul, Nat.div_mul_cancel hdvd]
          · rw [Nat.div_mul_cancel hdvd]
            omega
          · apply hright a ha
            unfold Archive.readIdxRec at hread
            split at hread
            · exact hread
            · cases hread
      · exact ⟨startsAt_genesis, by simp⟩

/-- Every cache holds right entries of its deployment. -/
def CachesSound (U : List UInt8 → Prop) (deps : Nat → Dep) (cs : Caches) : Prop :=
  ∀ c ∈ cs, ∀ e ∈ c.2, EntSound U (deps c.1) e

variable {deps : Nat → Dep} {cs : Caches} {key : Nat}

theorem cacheFor_sound (hcs : CachesSound U deps cs) :
    ∀ c, cacheFor cs key = some c → ∀ e ∈ c, EntSound U (deps key) e := by
  intro c hc
  unfold cacheFor at hc
  cases hfind : cs.find? fun c => decide (c.1 = key) with
  | none =>
      simp only [hfind] at hc
      split at hc
      · cases hc
      · obtain rfl := Option.some.inj hc
        simp
  | some x =>
      simp only [hfind, Option.some.injEq] at hc
      subst hc
      have hkey : x.1 = key := by simpa using List.find?_some hfind
      rw [← hkey]
      exact hcs x (List.mem_of_find?_eq_some hfind)

theorem storeCache_sound (hcs : CachesSound U deps cs) {c : List Ent}
    (hc : ∀ e ∈ c, EntSound U (deps key) e) : CachesSound U deps (storeCache cs key c) := by
  unfold storeCache
  split
  · intro x hx
    obtain ⟨y, hy, rfl⟩ := List.mem_map.mp hx
    split
    · exact hc
    · exact hcs y hy
  · intro x hx
    rcases List.mem_append.mp hx with hold | hnew
    · exact hcs x hold
    · obtain rfl := List.mem_singleton.mp hnew
      exact hc

include hU ha in
/-- A call answers right and keeps the caches right. -/
theorem b9StateFor_sound (hcs : CachesSound U deps cs) :
    Right a (deps key) next (b9StateFor a key (deps key) next cs).1 ∧
      CachesSound U deps (b9StateFor a key (deps key) next cs).2 := by
  unfold b9StateFor
  split
  · next hactive =>
      refine ⟨⟨fun v hv => ?_, fun hv => (Option.some_ne_none _ hv).elim⟩, hcs⟩
      rw [uncached, if_pos hactive]
      exact hv
  · next hstart =>
      have hcache := @cacheFor_sound U deps cs key hcs
      generalize cacheFor cs key = c at *
      dsimp only
      -- where the call starts and the entries that are left
      have horigin : StartsAt a (deps key) next
            ((c.map (startFrom a (deps key) next)).getD (((deps key).period, .defined, 0), [])).1 ∧
          ∀ c', (c.map fun _ => ((c.map (startFrom a (deps key) next)).getD
              (((deps key).period, .defined, 0), [])).2) = some c' →
            ∀ e ∈ c', EntSound U (deps key) e := by
        cases c with
        | none => exact ⟨startsAt_genesis, by simp⟩
        | some c =>
            obtain ⟨hat, hleft⟩ := @startFrom_sound U a ha (deps key) next c (hcache c rfl)
            refine ⟨hat, fun c' hc' => ?_⟩
            obtain rfl := Option.some.inj hc'
            exact hleft
      generalize (c.map (startFrom a (deps key) next)).getD (((deps key).period, .defined, 0), []) =
        origin at *
      obtain ⟨⟨b, state, since⟩, left⟩ := origin
      obtain ⟨⟨j, rfl, hlow, hst⟩, hsound⟩ := horigin
      have hwalked : Walked U a (deps key) next
          (if state.terminal then (some (state, since), c.map fun _ => left)
            else walk a (deps key) next (next + 1) ((j + 1) * (deps key).period) state since
              (c.map fun _ => left)) := by
        split
        · next hterm =>
            apply walked_of_some hsound
            exact stateAfter_terminal hst hterm
              ((Nat.le_div_iff_mul_le (deps key).period_pos).mpr hlow)
        · next hterm => exact walked_walk hU ha hst (by simpa using hterm) hlow (by omega) hsound
      dsimp only at hwalked ⊢
      refine ⟨⟨fun v hv => ?_, fun hv => ?_⟩, ?_⟩
      · rw [uncached, if_neg hstart]
        exact hwalked.some_eq v hv
      · rw [uncached, if_neg hstart]
        exact hwalked.none_eq hv
      · revert hwalked
        generalize (if state.terminal then (some (state, since), c.map fun _ => left)
            else walk a (deps key) next (next + 1) ((j + 1) * (deps key).period) state since
              (c.map fun _ => left)) = r
        intro hwalked
        cases hr : r.2 with
        | none => exact hcs
        | some c' => exact storeCache_sound hcs (hwalked.sound c' hr)

end Sound

/-- The headers of all the archives of a run. -/
def HeaderOf (requests : List Request) (x : List UInt8) : Prop :=
  ∃ a key next, Request.query a key next ∈ requests ∧ x ∈ a.chain

theorem serve_sound {deps : Nat → Dep} {U : List UInt8 → Prop}
    (hU : ∀ x y, U x → U y → hashOf x = hashOf y → x = y) {requests : List Request}
    (hall : ∀ x, HeaderOf requests x → U x) {cs : Caches} (hcs : CachesSound U deps cs) :
    ∀ r ∈ serve deps cs requests, Right r.archive (deps r.key) r.next r.value := by
  induction requests generalizing cs with
  | nil => simp [serve]
  | cons q rest ih =>
      have hrest : ∀ x, HeaderOf rest x → U x := by
        rintro x ⟨a, key, next, hq, hx⟩
        exact hall x ⟨a, key, next, List.mem_cons_of_mem _ hq, hx⟩
      cases q with
      | reset =>
          apply ih hrest
          intro c hc
          obtain ⟨x, -, rfl⟩ := List.mem_map.mp hc
          simp
      | query a key next =>
          have ha : ∀ x ∈ a.chain, U x := fun x hx => hall x ⟨a, key, next, List.mem_cons_self, hx⟩
          obtain ⟨hright, hkeep⟩ := @b9StateFor_sound U hU a ha next deps cs key hcs
          intro r hr
          rcases List.mem_cons.mp hr with rfl | hlater
          · exact hright
          · exact ih hrest hkeep r hlater

/-- Two headers of the run with one hash. -/
def Collision (requests : List Request) : Prop :=
  ∃ x y, HeaderOf requests x ∧ HeaderOf requests y ∧ x ≠ y ∧ hashOf x = hashOf y

/-- Whatever the archive became between the calls, every answer is the one the recursion gives
on the chain of that call, unless the run holds a collision of the hash. -/
theorem b9StateFor_as_uncached (deps : Nat → Dep) (requests : List Request) :
    Collision requests ∨
      ∀ r ∈ serve deps [] requests, Right r.archive (deps r.key) r.next r.value := by
  by_cases hcollision : Collision requests
  · exact .inl hcollision
  · right
    apply @serve_sound deps (HeaderOf requests) _ requests (fun _ hx => hx) [] (by simp [CachesSound])
    intro x y hx hy hxy
    by_contra hne
    exact hcollision ⟨x, y, hx, hy, hne, hxy⟩

end BitcoinMachineCode.Chain.Deployments
