import BitcoinMachineCode.Chain.Chainwork
import Mathlib.Data.List.Sort

/-!
# Judging a candidate branch

`reorg_analyze` from `daemon/reorg.c`: a run of headers is checked by itself,
attached to the local chain, checked against the header rules of its own
branch, walked to the fork point and weighed.  What it says about the fork and
the rules holds for every candidate.  The weight of the local side is the last
chainwork record, which understates it where a block above the fork was pruned
or unreadable when its record was due.
-/

namespace BitcoinMachineCode.Chain

open BitcoinMachineCode.Foundation
open BitcoinMachineCode.Consensus (PowSwitches powExpectedBits hdrTime rd32le)

/-! ## Header rules -/

def hdrMaxFutureBlockTime : Int := 7200

def hdrMaxTimewarp : Int := 600

def hdrDiffAdjInterval : Nat := 2016

inductive HdrReject where
  | timeTooOld
  | timeTooNew
  | badVersion
  | timewarpAttack
  deriving DecidableEq

def HdrReject.reason : HdrReject → String
  | .timeTooOld => "time-too-old"
  | .timeTooNew => "time-too-new"
  | .badVersion => "bad-version"
  | .timewarpAttack => "time-timewarp-attack"

/-- `nVersion` is Core's `int32_t`. -/
def hdrVersion (hdr : Bytes 80) : Int := (rd32le hdr.1).toInt32.toInt

/-- `hdr_contextual_ok`; `none` when the header passes. -/
def hdrContextualOk (height : Nat) (hdr : Bytes 80) (prevMtp : Nat) (now : Int)
    (flags : UInt64) (bip34 : Nat) : Option HdrReject :=
  let ntime := (hdrTime hdr.1).toNat
  let ver := hdrVersion hdr
  if prevMtp ≠ 0 ∧ ntime ≤ prevMtp then some .timeTooOld
  else if now ≠ 0 ∧ (ntime : Int) > now + hdrMaxFutureBlockTime then
    some .timeTooNew
  else if ver < 2 ∧ bip34 ≤ height then some .badVersion
  else if ver < 3 ∧ (flags >>> 2) &&& 1 = 1 then some .badVersion
  else if ver < 4 ∧ (flags >>> 9) &&& 1 = 1 then some .badVersion
  else none

/-- `hdr_timewarp_ok` -/
def hdrTimewarpOk (height : Nat) (hdr prevHdr : Bytes 80) (enforceBip94 : Bool) :
    Option HdrReject :=
  if !enforceBip94 || height == 0 || height % hdrDiffAdjInterval != 0 then none
  else if ((hdrTime hdr.1).toNat : Int) <
      (hdrTime prevHdr.1).toNat - hdrMaxTimewarp then some .timewarpAttack
  else none

/-- `pow_check_bits` -/
def powCheckBits (height : Nat) (hdr : Bytes 80)
    (get : Nat → Option (Bytes 80)) (sw : PowSwitches) (powLimitBits : UInt32) :
    Int :=
  if height = 0 then 1
  else
    let want := powExpectedBits height (hdrTime hdr.1).toNat
      (fun h => (get h).map Subtype.val) sw powLimitBits
    if want = 0 then -1
    else if Consensus.hdrBits hdr.1 = want then 1 else 0

/-- The heights of the window: at most eleven, ending at `h`. -/
def mtpWindow (h : Nat) : List Nat := (List.range (min 11 (h + 1))).map (h - ·)

/-- `rg_mtp_at`: the median of the window's times, if all of it can be read. -/
def mtpAt (get : Nat → Option (Bytes 80)) (h : Nat) : Option Nat :=
  ((mtpWindow h).mapM get).map fun hdrs =>
    let times := (hdrs.map fun hdr => (hdrTime hdr.1).toNat).insertionSort (· ≤ ·)
    times.getD (times.length / 2) 0

/-! ## The analysis -/

def reorgScanBack : Nat := 100

/-- What the daemon injects: the hash and proof-of-work checks, the operator's
invalid set, the armed rules with the clock and script flags they need, the
minimum work and whether a chainwork record can be written. -/
structure ReorgEnv where
  blockHash : Bytes 80 → Bytes 32
  powCheck : Bytes 80 → Bool
  invalid : Bytes 32 → Bool
  powRules : Option (PowSwitches × UInt32)
  hdrRules : Option Nat
  bip94 : Bool
  now : Int
  scriptFlags : Nat → Bytes 32 → UInt64
  meetsMinimum : BitVec 128 → Bool
  appendOk : Nat → Bool

/-- The headers of a peer's answer, in chain order, and the locator it was
asked with. -/
structure Cand where
  hdrs : List (Bytes 80)
  loc : List (Bytes 32 × Nat)

structure Fork where
  baseHeight : Nat
  forkHeight : Nat
  firstNew : Nat
  ourWork : BitVec 128
  candWork : BitVec 128
  deriving DecidableEq

inductive Verdict where
  | rejected
  | noFork
  | lighter (f : Fork)
  | heavier (f : Fork)
  deriving DecidableEq

/-- The return code. -/
def Verdict.rc : Verdict → Int
  | .rejected => -1
  | .noFork => 0
  | .lighter _ => 1
  | .heavier _ => 2

section Analyze

variable (env : ReorgEnv)

def linkedRun : List (Bytes 80) → Bool
  | x :: y :: rest => hdrPrev y == env.blockHash x && linkedRun (y :: rest)
  | _ => true

def headersChainValid (c : Cand) : Bool :=
  c.hdrs.all env.powCheck && linkedRun env c.hdrs

/-- `rg_hdr_at`: above the attach point the candidate's own headers, at or
below it the archive's. -/
def rgHdrAt (a : Archive) (c : Cand) (base h : Nat) : Option (Bytes 80) :=
  if base < h then c.hdrs[h - base - 1]?
  else
    match a.blocks[h]? with
    | none => none
    | some b => if b.data = .stored then some b.hdr else none

/-- Where the first header attaches: a locator entry, or a block within
`REORG_SCAN_BACK` of the tip. -/
def baseHeight (a : Archive) (c : Cand) (first : Bytes 80) : Option Nat :=
  match c.loc.find? fun p => p.1 = hdrPrev first with
  | some p => some p.2
  | none =>
      let tip := a.blocks.length - 1
      ((List.range (min (reorgScanBack + 1) a.blocks.length)).map (tip - ·)).find?
        fun h => a.ourHashAt h = some (hdrPrev first)

def powRulesOk (a : Archive) (c : Cand) (base : Nat) : Bool :=
  match env.powRules with
  | none => true
  | some (sw, limit) => c.hdrs.zipIdx.all fun p =>
      powCheckBits (base + 1 + p.2) p.1 (rgHdrAt a c base) sw limit == 1

/-- One header under the contextual rules; an unreadable parent window
refuses. -/
def hdrRulesOkAt (a : Archive) (c : Cand) (base bip34 i : Nat) (hdr : Bytes 80) :
    Bool :=
  let h := base + 1 + i
  let get := rgHdrAt a c base
  match mtpAt get (h - 1), get (h - 1) with
  | some mtp, some parent =>
      (hdrContextualOk h hdr mtp env.now (env.scriptFlags h (env.blockHash hdr))
        bip34).isNone && (hdrTimewarpOk h hdr parent env.bip94).isNone
  | _, _ => false

def hdrRulesOk (a : Archive) (c : Cand) (base : Nat) : Bool :=
  match env.hdrRules with
  | none => true
  | some bip34 => c.hdrs.zipIdx.all fun p => hdrRulesOkAt env a c base bip34 p.2 p.1

/-- The walk along both chains: how many of the hashes agree. -/
def forkWalk (a : Archive) (h : Nat) : List (Bytes 32) → Nat
  | [] => 0
  | x :: xs => if a.ourHashAt (h + 1) = some x then forkWalk a (h + 1) xs + 1 else 0

/-- The two branches above `base + i`, where they part, on the scales. -/
def weigh (a : Archive) (c : Cand) (base i : Nat) : Verdict :=
  match c.hdrs[i]? with
  | none => .noFork
  | some new =>
      if a.blocks.length - 1 ≤ base + i then .noFork
      else if a.ourHashAt (base + i) ≠ some (hdrPrev new) then .rejected
      else
        match a.chainwork[base + i]? with
        | none => .rejected
        | some start =>
            let cand := ((c.hdrs.drop i).map fun hdr =>
              blockWork (hdrBits hdr)).foldl chainworkAdd start
            let f : Fork := ⟨base, base + i, i, a.chainworkTip, cand⟩
            if chainworkCmp cand a.chainworkTip > 0 then
              if env.meetsMinimum cand then .heavier f else .lighter f
            else .lighter f

/-- The analysis from the point where the local totals are up to date. -/
def classify (a : Archive) (c : Cand) : Verdict :=
  match c.hdrs.head? with
  | none => .noFork
  | some first =>
      if a.blocks = [] then .noFork
      else
        match baseHeight a c first with
        | none => .rejected
        | some base =>
            if powRulesOk env a c base && hdrRulesOk env a c base then
              weigh env a c base (forkWalk a base (c.hdrs.map env.blockHash))
            else .rejected

def reorgAnalyze (a : Archive) (c : Cand) : Archive × Verdict :=
  if c.hdrs = [] then (a, .noFork)
  else if c.hdrs.any fun hdr => env.invalid (env.blockHash hdr) then (a, .noFork)
  else if !a.cwOpen then (a, .rejected)
  else if !headersChainValid env c then (a, .rejected)
  else
    let synced := a.reorgChainworkSync env.appendOk
    if synced.2 then (synced.1, classify env synced.1 c)
    else (synced.1, .rejected)

end Analyze

/-! ## What a verdict says -/

/-- The archive is a chain: each record's hash is its header's, and each header
names the block below it. -/
structure Archive.Linked (blockHash : Bytes 80 → Bytes 32) (a : Archive) :
    Prop where
  hash_eq : ∀ (h : Nat) (b : StoredBlock), a.blocks[h]? = some b →
    b.hash = blockHash b.hdr
  prev_eq : ∀ (h : Nat) (b b' : StoredBlock), a.blocks[h]? = some b → a.blocks[h + 1]? = some b' →
    hdrPrev b'.hdr = b.hash

/-- No two headers of the two chains collide. -/
def NoCollision (env : ReorgEnv) (a : Archive) (c : Cand) : Prop :=
  ∀ x ∈ a.blocks.map StoredBlock.hdr ++ c.hdrs,
    ∀ y ∈ a.blocks.map StoredBlock.hdr ++ c.hdrs,
      env.blockHash x = env.blockHash y → x = y

/-- The total work of a run of headers, as a number. -/
def totalWork (hdrs : List (Bytes 80)) : Nat :=
  (hdrs.map fun hdr => blockProof (hdrBits hdr)).sum

/-- Above `fork` the chainwork records are those of the blocks: a block with a
record was recorded with its own work, a block without one can be read, and no
record is left over above the tip. -/
structure WorkKnown (a : Archive) (fork : Nat) : Prop where
  bounded : a.chainwork.length ≤ a.blocks.length
  fits : ∀ h b, fork < h → a.blocks[h]? = some b →
    blockProof (hdrBits b.hdr) < 2 ^ 128
  recorded : ∀ h b r, fork < h → a.blocks[h]? = some b →
    a.chainwork[h]? = some r →
    r = chainworkAdd ((a.chainwork.take h).getLast?.getD 0)
      (blockWork (hdrBits b.hdr))
  readable : ∀ h b, fork < h → a.chainwork.length ≤ h →
    a.blocks[h]? = some b → b.data = .stored

/-- The candidate's headers pass the armed rules where they stand, and the
ancestors the rules read are those of the candidate's branch. -/
structure RulesPass (env : ReorgEnv) (a : Archive) (c : Cand) (base : Nat) :
    Prop where
  pow : ∀ sw limit, env.powRules = some (sw, limit) → ∀ i hdr,
    c.hdrs[i]? = some hdr →
      powCheckBits (base + 1 + i) hdr (rgHdrAt a c base) sw limit = 1
  contextual : ∀ bip34, env.hdrRules = some bip34 → ∀ i hdr,
    c.hdrs[i]? = some hdr → ∃ mtp parent,
      mtpAt (rgHdrAt a c base) (base + i) = some mtp ∧
      rgHdrAt a c base (base + i) = some parent ∧
      hdrContextualOk (base + 1 + i) hdr mtp env.now
        (env.scriptFlags (base + 1 + i) (env.blockHash hdr)) bip34 = none ∧
      hdrTimewarpOk (base + 1 + i) hdr parent env.bip94 = none
  ownBranch : ∀ h x y, rgHdrAt a c base h = some x →
    rgHdrAt a c base (h + 1) = some y → hdrPrev y = env.blockHash x

/-- The candidate links to the local chain at the fork, agrees with it up to
there and at no height above it. -/
structure LinksAt (env : ReorgEnv) (a : Archive) (c : Cand) (f : Fork) :
    Prop where
  height : f.forkHeight = f.baseHeight + f.firstNew
  below_tip : f.forkHeight + 1 < a.blocks.length
  attaches : ∃ b new, a.blocks[f.forkHeight]? = some b ∧
    c.hdrs[f.firstNew]? = some new ∧ hdrPrev new = b.hash
  run : ∀ i x y, c.hdrs[i]? = some x → c.hdrs[i + 1]? = some y →
    hdrPrev y = env.blockHash x
  shared : ∀ i < f.firstNew, ∃ b x,
    a.blocks[f.baseHeight + 1 + i]? = some b ∧ c.hdrs[i]? = some x ∧
      b.hash = env.blockHash x
  highest : ∀ i b x, f.firstNew ≤ i →
    a.blocks[f.baseHeight + 1 + i]? = some b → c.hdrs[i]? = some x →
    b.hash ≠ env.blockHash x

section Proofs

variable {env : ReorgEnv} {a : Archive} {c : Cand} {f : Fork}

theorem linkedRun_getElem {hdrs : List (Bytes 80)} (hrun : linkedRun env hdrs = true)
    {i : Nat} {x y : Bytes 80} (hx : hdrs[i]? = some x)
    (hy : hdrs[i + 1]? = some y) : hdrPrev y = env.blockHash x := by
  induction hdrs generalizing i with
  | nil => simp at hx
  | cons u rest ih =>
      cases rest with
      | nil => simp at hy
      | cons v rest =>
          simp only [linkedRun, Bool.and_eq_true, beq_iff_eq] at hrun
          cases i with
          | zero =>
              simp only [List.getElem?_cons_zero, List.getElem?_cons_succ,
                Option.some.injEq] at hx hy
              rw [← hx, ← hy]
              exact hrun.1
          | succ i => exact ih hrun.2 hx hy

/-- The walk stops at the first hash that differs. -/
theorem forkWalk_spec (a : Archive) (h : Nat) (hashes : List (Bytes 32)) :
    (∀ k < forkWalk a h hashes, ∃ x, hashes[k]? = some x ∧
      a.ourHashAt (h + 1 + k) = some x) ∧
    ∀ x, hashes[forkWalk a h hashes]? = some x →
      a.ourHashAt (h + 1 + forkWalk a h hashes) ≠ some x := by
  induction hashes generalizing h with
  | nil => simp [forkWalk]
  | cons y ys ih =>
      obtain ⟨hagree, hstop⟩ := ih (h + 1)
      by_cases hy : a.ourHashAt (h + 1) = some y
      · rw [forkWalk, if_pos hy]
        refine ⟨fun k hk => ?_, fun x hx => ?_⟩
        · cases k with
          | zero => exact ⟨y, rfl, hy⟩
          | succ k =>
              obtain ⟨x, hx, hour⟩ := hagree k (by omega)
              refine ⟨x, hx, ?_⟩
              rw [show h + 1 + (k + 1) = h + 1 + 1 + k by omega]
              exact hour
        · rw [show h + 1 + (forkWalk a (h + 1) ys + 1) =
            h + 1 + 1 + forkWalk a (h + 1) ys by omega]
          exact hstop x hx
      · rw [forkWalk, if_neg hy]
        refine ⟨fun k hk => absurd hk (by omega), fun x hx => ?_⟩
        rw [List.getElem?_cons_zero, Option.some.injEq] at hx
        rw [← hx]
        exact hy

theorem ourHashAt_some {h : Nat} {x : Bytes 32} (hx : a.ourHashAt h = some x) :
    ∃ b, a.blocks[h]? = some b ∧ b.hash = x := by
  simpa [Archive.ourHashAt] using hx

/-- Everything a verdict of `heavier` was reached through. -/
structure Heavier (env : ReorgEnv) (a : Archive) (c : Cand) (f : Fork) :
    Prop where
  walk : f.firstNew = forkWalk a f.baseHeight (c.hdrs.map env.blockHash)
  height : f.forkHeight = f.baseHeight + f.firstNew
  below_tip : f.forkHeight < a.blocks.length - 1
  powRules : powRulesOk env a c f.baseHeight = true
  hdrRules : hdrRulesOk env a c f.baseHeight = true
  attaches : ∃ new, c.hdrs[f.firstNew]? = some new ∧
    a.ourHashAt f.forkHeight = some (hdrPrev new)
  weight : ∃ start, a.chainwork[f.forkHeight]? = some start ∧
    f.candWork = ((c.hdrs.drop f.firstNew).map fun hdr =>
      blockWork (hdrBits hdr)).foldl chainworkAdd start
  ours : f.ourWork = a.chainworkTip
  more : f.ourWork < f.candWork

theorem weigh_heavier {base i : Nat} (h : weigh env a c base i = .heavier f) :
    f.baseHeight = base ∧ f.firstNew = i ∧ f.forkHeight = base + i ∧
    base + i < a.blocks.length - 1 ∧
    (∃ new, c.hdrs[i]? = some new ∧ a.ourHashAt (base + i) = some (hdrPrev new)) ∧
    (∃ start, a.chainwork[base + i]? = some start ∧
      f.candWork = ((c.hdrs.drop i).map fun hdr =>
        blockWork (hdrBits hdr)).foldl chainworkAdd start) ∧
    f.ourWork = a.chainworkTip ∧ f.ourWork < f.candWork := by
  rw [weigh] at h
  cases hnew : c.hdrs[i]? with
  | none => simp [hnew] at h
  | some new =>
      simp only [hnew] at h
      split_ifs at h with htip hattach
      cases hstart : a.chainwork[base + i]? with
      | none => simp [hstart] at h
      | some start =>
          simp only [hstart] at h
          split_ifs at h with hcmp hmin
          cases h
          refine ⟨rfl, rfl, rfl, by omega, ⟨new, rfl, by simpa using hattach⟩,
            ⟨start, rfl, rfl⟩, rfl, ?_⟩
          exact HdrTree.not_chainworkCmp_le.mp (not_le.mpr hcmp)

theorem classify_heavier (h : classify env a c = .heavier f) :
    Heavier env a c f := by
  rw [classify] at h
  cases hfirst : c.hdrs.head? with
  | none => simp [hfirst] at h
  | some first =>
      simp only [hfirst] at h
      split_ifs at h with hempty
      cases hbase : baseHeight a c first with
      | none => simp [hbase] at h
      | some base =>
          simp only [hbase] at h
          split_ifs at h with hrules
          obtain ⟨hb, hi, hfork, htip, hnew, hstart, hour, hmore⟩ :=
            weigh_heavier h
          rw [Bool.and_eq_true] at hrules
          rw [← hi] at hnew hstart htip hfork
          rw [← hb] at hi hnew hstart htip hfork hrules
          rw [← hfork] at hnew hstart htip
          exact ⟨hi, hfork, htip, hrules.1, hrules.2, hnew, hstart, hour, hmore⟩

theorem Heavier.linksAt (hv : Heavier env a c f)
    (hrun : linkedRun env c.hdrs = true) (hlinked : a.Linked env.blockHash)
    (hfree : NoCollision env a c) : LinksAt env a c f := by
  obtain ⟨hagree, hstop⟩ :=
    forkWalk_spec a f.baseHeight (c.hdrs.map env.blockHash)
  rw [← hv.walk] at hagree hstop
  have hlinks : ∀ i x y, c.hdrs[i]? = some x → c.hdrs[i + 1]? = some y →
      hdrPrev y = env.blockHash x := fun i x y => linkedRun_getElem hrun
  refine ⟨hv.height, ?_, ?_, hlinks, ?_, ?_⟩
  · have := hv.below_tip
    omega
  · obtain ⟨new, hnew, hhash⟩ := hv.attaches
    obtain ⟨b, hb, hprev⟩ := ourHashAt_some hhash
    exact ⟨b, new, hb, hnew, hprev.symm⟩
  · intro i hi
    obtain ⟨x, hx, hour⟩ := hagree i hi
    rw [List.getElem?_map, Option.map_eq_some_iff] at hx
    obtain ⟨hdr, hhdr, rfl⟩ := hx
    obtain ⟨b, hb, hhash⟩ := ourHashAt_some hour
    exact ⟨b, hdr, hb, hhdr, hhash⟩
  · intro i b x hi hb hx hsame
    obtain ⟨j, rfl⟩ := Nat.exists_eq_add_of_le hi
    induction j generalizing b x with
    | zero =>
        refine hstop (env.blockHash x) ?_ ?_
        · rw [Nat.add_zero] at hx
          rw [List.getElem?_map, hx, Option.map_some]
        · have hb' : a.blocks[f.baseHeight + 1 + f.firstNew]? = some b := hb
          rw [Archive.ourHashAt, hb', Option.map_some, hsame]
    | succ j ih =>
        -- equal blocks have equal parents, so the chains would agree below too
        have hbx : b.hdr = x := by
          refine hfree _ (List.mem_append_left _ (List.mem_map_of_mem
            (List.mem_of_getElem? hb))) _ (List.mem_append_right _
            (List.mem_of_getElem? hx)) ?_
          rw [← hlinked.hash_eq _ b hb, hsame]
        obtain ⟨x', hx'⟩ : ∃ x', c.hdrs[f.firstNew + j]? = some x' := by
          obtain ⟨hlt, -⟩ := List.getElem?_eq_some_iff.mp hx
          exact ⟨_, List.getElem?_eq_getElem (by omega)⟩
        obtain ⟨b', hb'⟩ : ∃ b',
            a.blocks[f.baseHeight + 1 + (f.firstNew + j)]? = some b' := by
          obtain ⟨hlt, -⟩ := List.getElem?_eq_some_iff.mp hb
          exact ⟨_, List.getElem?_eq_getElem (by omega)⟩
        have hprev := hlinked.prev_eq _ b' b hb' hb
        rw [hbx, hlinks _ x' x hx' hx] at hprev
        exact ih b' x' hprev.symm (Nat.le_add_right _ _) hb' hx'

/-- The header the candidate's branch attaches to is the archive's. -/
theorem Heavier.base_hash (hv : Heavier env a c f)
    (hlinked : a.Linked env.blockHash) (hfree : NoCollision env a c)
    {first : Bytes 80} (hfirst : c.hdrs[0]? = some first) {b : StoredBlock}
    (hb : a.blocks[f.baseHeight]? = some b) : hdrPrev first = b.hash := by
  obtain ⟨hagree, -⟩ := forkWalk_spec a f.baseHeight (c.hdrs.map env.blockHash)
  rw [← hv.walk] at hagree
  rcases Nat.eq_zero_or_pos f.firstNew with hzero | hpos
  · obtain ⟨new, hnew, hhash⟩ := hv.attaches
    rw [hzero, hfirst, Option.some.injEq] at hnew
    rw [hv.height, hzero, Nat.add_zero, Archive.ourHashAt, hb, Option.map_some,
      Option.some.injEq] at hhash
    rw [hnew, hhash]
  · obtain ⟨x, hx, hour⟩ := hagree 0 hpos
    rw [List.getElem?_map, hfirst, Option.map_some, Option.some.injEq] at hx
    obtain ⟨b', hb', hhash⟩ := ourHashAt_some hour
    rw [Nat.add_zero] at hb'
    have hsame : b'.hdr = first := by
      refine hfree _ (List.mem_append_left _ (List.mem_map_of_mem
        (List.mem_of_getElem? hb'))) _ (List.mem_append_right _
        (List.mem_of_getElem? hfirst)) ?_
      rw [← hlinked.hash_eq _ b' hb', hhash, hx]
    rw [← hsame]
    exact hlinked.prev_eq _ b b' hb hb'

theorem rgHdrAt_above {base h : Nat} (hh : base < h) :
    rgHdrAt a c base h = c.hdrs[h - base - 1]? := by
  rw [rgHdrAt, if_pos hh]

theorem rgHdrAt_below {base h : Nat} {x : Bytes 80} (hh : h ≤ base)
    (hx : rgHdrAt a c base h = some x) :
    ∃ b, a.blocks[h]? = some b ∧ b.hdr = x := by
  rw [rgHdrAt, if_neg (by omega)] at hx
  cases hb : a.blocks[h]? with
  | none => simp [hb] at hx
  | some b =>
      simp only [hb] at hx
      split at hx
      · exact ⟨b, rfl, Option.some.inj hx⟩
      · cases hx

theorem Heavier.ownBranch (hv : Heavier env a c f)
    (hrun : linkedRun env c.hdrs = true) (hlinked : a.Linked env.blockHash)
    (hfree : NoCollision env a c) {h : Nat} {x y : Bytes 80}
    (hx : rgHdrAt a c f.baseHeight h = some x)
    (hy : rgHdrAt a c f.baseHeight (h + 1) = some y) :
    hdrPrev y = env.blockHash x := by
  rcases Nat.lt_trichotomy h f.baseHeight with hlt | heq | hgt
  · obtain ⟨b, hb, rfl⟩ := rgHdrAt_below hlt.le hx
    obtain ⟨b', hb', rfl⟩ := rgHdrAt_below hlt hy
    rw [hlinked.prev_eq h b b' hb hb', hlinked.hash_eq h b hb]
  · subst heq
    obtain ⟨b, hb, rfl⟩ := rgHdrAt_below le_rfl hx
    rw [rgHdrAt_above (by omega), Nat.add_sub_cancel_left] at hy
    rw [hv.base_hash hlinked hfree hy hb, hlinked.hash_eq _ b hb]
  · rw [rgHdrAt_above hgt] at hx
    rw [rgHdrAt_above (by omega),
      show h + 1 - f.baseHeight - 1 = h - f.baseHeight - 1 + 1 by omega] at hy
    exact linkedRun_getElem hrun hx hy

theorem Heavier.rulesPass (hv : Heavier env a c f)
    (hrun : linkedRun env c.hdrs = true) (hlinked : a.Linked env.blockHash)
    (hfree : NoCollision env a c) : RulesPass env a c f.baseHeight := by
  refine ⟨fun sw limit harmed i hdr hi => ?_, fun bip34 harmed i hdr hi => ?_,
    fun h x y hx hy => hv.ownBranch hrun hlinked hfree hx hy⟩
  · have hall := hv.powRules
    simp only [powRulesOk, harmed, List.all_eq_true] at hall
    have hone := hall (hdr, i) (List.mem_zipIdx_iff_getElem?.mpr hi)
    simpa using hone
  · have hall := hv.hdrRules
    simp only [hdrRulesOk, harmed, List.all_eq_true] at hall
    have hone := hall (hdr, i) (List.mem_zipIdx_iff_getElem?.mpr hi)
    simp only [hdrRulesOkAt,
      show f.baseHeight + 1 + i - 1 = f.baseHeight + i by omega] at hone
    split at hone
    · rename_i mtp parent hmtp hparent
      simp only [Bool.and_eq_true, Option.isNone_iff_eq_none] at hone
      exact ⟨mtp, parent, hmtp, hparent, hone.1, hone.2⟩
    · cases hone

/-! ## The weight of the local side -/

/-- Where the work above the fork is known, the synced records reach the tip and
the last one is the record at the fork plus the work of the blocks above. -/
theorem chainworkTip_of_known {fork : Nat} {recs : List (BitVec 128)}
    {start : BitVec 128} (hknown : WorkKnown a fork)
    (hfill : Archive.chainworkFill env.appendOk
      (a.blocks.drop a.chainwork.length) a.chainwork = (recs, true))
    (hstart : recs[fork]? = some start) :
    recs.getLast?.getD 0 = ((a.blocks.drop (fork + 1)).map fun b =>
      blockWork (hdrBits b.hdr)).foldl chainworkAdd start := by
  obtain ⟨k, hk, hlen, hold, hnew, hstop⟩ := Archive.chainworkFill_spec hfill
  rw [List.length_drop] at hk
  obtain ⟨hfork, -⟩ := List.getElem?_eq_some_iff.mp hstart
  have hbounded := hknown.bounded
  have htip : recs.length = a.blocks.length := by
    by_contra hshort
    have hlt : a.chainwork.length + k < a.blocks.length := by omega
    have hdata := hknown.readable _ _ (by omega) (Nat.le_add_right _ k)
      (List.getElem?_eq_getElem hlt)
    have hunread := hstop (a.blocks[a.chainwork.length + k]) (by
      rw [List.getElem?_drop, List.getElem?_eq_getElem hlt])
    rw [hdata] at hunread
    cases hunread
  refine Archive.getLast_records hstart ?_ ?_
  · rw [List.length_map, List.length_drop]
    omega
  · intro j w hw
    rw [List.getElem?_map, List.getElem?_drop, Option.map_eq_some_iff] at hw
    obtain ⟨b, hb, rfl⟩ := hw
    by_cases hrec : fork + 1 + j < a.chainwork.length
    · -- recorded before the sync
      have hget := List.getElem?_eq_getElem hrec
      have hsame : recs.take (fork + 1 + j) =
          a.chainwork.take (fork + 1 + j) := by
        apply List.ext_getElem?
        intro i
        by_cases hi : i < fork + 1 + j
        · rw [List.getElem?_take_of_lt hi, List.getElem?_take_of_lt hi,
            hold i (by omega)]
        · rw [List.getElem?_take_eq_none (by omega),
            List.getElem?_take_eq_none (by omega)]
      rw [hold _ hrec, hsame, hget,
        hknown.recorded _ b _ (by omega) hb hget]
    · -- filled in by the sync, from a block that can be read
      obtain ⟨hlt, -⟩ := List.getElem?_eq_some_iff.mp hb
      obtain ⟨b', w, hb', hw, hval⟩ :=
        hnew (fork + 1 + j - a.chainwork.length) (by omega)
      rw [List.getElem?_drop, show a.chainwork.length +
        (fork + 1 + j - a.chainwork.length) = fork + 1 + j by omega, hb,
        Option.some.injEq] at hb'
      subst hb'
      have hdata := hknown.readable _ b (by omega) (by omega) hb
      rw [Archive.recordedWork, hdata] at hw
      cases hw
      rw [show a.chainwork.length + (fork + 1 + j - a.chainwork.length) =
        fork + 1 + j by omega] at hval
      exact hval

theorem sum_blockWork_le (hdrs : List (Bytes 80)) :
    ((hdrs.map fun hdr => blockWork (hdrBits hdr)).map BitVec.toNat).sum ≤
      totalWork hdrs := by
  induction hdrs with
  | nil => simp [totalWork]
  | cons hdr hdrs ih =>
      simp only [totalWork, List.map_cons, List.sum_cons] at ih ⊢
      exact Nat.add_le_add (blockWork_le _) ih

theorem sum_blockWork_eq (blocks : List StoredBlock)
    (hfits : ∀ b ∈ blocks, blockProof (hdrBits b.hdr) < 2 ^ 128) :
    ((blocks.map fun b => blockWork (hdrBits b.hdr)).map BitVec.toNat).sum =
      totalWork (blocks.map StoredBlock.hdr) := by
  induction blocks with
  | nil => rfl
  | cons b blocks ih =>
      have hb := hfits b List.mem_cons_self
      have hrest := ih fun b' hb' => hfits b' (List.mem_cons_of_mem _ hb')
      simp only [totalWork, List.map_cons, List.sum_cons] at hrest ⊢
      rw [hrest, blockWork_toNat, Nat.mod_eq_of_lt hb]

theorem totalWork_lt_of_weight {fork : Nat} {start cand : BitVec 128}
    (hknown : WorkKnown a fork) (hdrs : List (Bytes 80))
    (hcand : cand = (hdrs.map fun hdr =>
      blockWork (hdrBits hdr)).foldl chainworkAdd start)
    (hlt : ((a.blocks.drop (fork + 1)).map fun b =>
      blockWork (hdrBits b.hdr)).foldl chainworkAdd start < cand) :
    totalWork ((a.blocks.drop (fork + 1)).map StoredBlock.hdr) <
      totalWork hdrs := by
  have hours := sum_blockWork_eq (a.blocks.drop (fork + 1)) (by
    intro b hb
    obtain ⟨j, hj⟩ := List.mem_iff_getElem?.mp hb
    rw [List.getElem?_drop] at hj
    exact hknown.fits _ b (by omega) hj)
  have htheirs := sum_blockWork_le hdrs
  rw [hcand, BitVec.lt_def, foldl_chainworkAdd_toNat, foldl_chainworkAdd_toNat,
    hours] at hlt
  omega

end Proofs

/-- A reorganisation is called for only by a run that links to the local chain
at the fork reported, parts from it there, and passes the armed rules in its own
branch; and where the work above the fork is known, only by a heavier one. -/
theorem reorgAnalyze_heavier (env : ReorgEnv) (a : Archive) (c : Cand) (f : Fork)
    (h : (reorgAnalyze env a c).2 = .heavier f)
    (hlinked : a.Linked env.blockHash) (hfree : NoCollision env a c) :
    LinksAt env a c f ∧ RulesPass env a c f.baseHeight ∧
      (WorkKnown a f.forkHeight →
        totalWork ((a.blocks.drop (f.forkHeight + 1)).map StoredBlock.hdr) <
          totalWork (c.hdrs.drop f.firstNew)) := by
  rw [reorgAnalyze] at h
  split_ifs at h with hnil hinvalid hopen hvalid
  dsimp only at h
  split_ifs at h with hsync
  have hv := classify_heavier h
  have hrun : linkedRun env c.hdrs = true := by
    have hboth : headersChainValid env c = true := by simpa using hvalid
    rw [headersChainValid, Bool.and_eq_true] at hboth
    exact hboth.2
  -- the sync changed the records only
  have hlinked' : (a.reorgChainworkSync env.appendOk).1.Linked env.blockHash :=
    ⟨hlinked.hash_eq, hlinked.prev_eq⟩
  have hlinks := hv.linksAt hrun hlinked' hfree
  have hrules := hv.rulesPass hrun hlinked' hfree
  refine ⟨⟨hlinks.height, hlinks.below_tip, hlinks.attaches, hlinks.run,
    hlinks.shared, hlinks.highest⟩,
    ⟨hrules.pow, hrules.contextual, hrules.ownBranch⟩, fun hknown => ?_⟩
  obtain ⟨start, hstart, hcand⟩ := hv.weight
  have hfill : Archive.chainworkFill env.appendOk
      (a.blocks.drop a.chainwork.length) a.chainwork =
        ((a.reorgChainworkSync env.appendOk).1.chainwork, true) :=
    Prod.ext rfl hsync
  have htip := chainworkTip_of_known hknown hfill hstart
  have hmore := hv.more
  rw [hv.ours, Archive.chainworkTip, htip] at hmore
  exact totalWork_lt_of_weight hknown _ hcand hmore

/-! ## A pruned block above the fork -/

/-- A version-4 header with a time and the regression-test bits. -/
def wireHdr (prev : Bytes 32) (root time : Nat) : Bytes 80 :=
  ⟨leBytes 4 4 ++ (prev.1 ++ (leBytes 32 root ++ (leBytes 4 time ++
    (leBytes 4 0x207fffff ++ leBytes 4 0)))), by simp [prev.2]⟩

theorem rootField_le : 36 + 32 ≤ 80 := by omega

/-- The rules of the regression-test chain, armed, with the merkle root field
in the place of the double SHA-256. -/
def regtestEnv : ReorgEnv where
  blockHash hdr := hdr.slice 36 32 rootField_le
  powCheck hdr := decide (leVal (hdr.slice 36 32 rootField_le).1 ≤
    compactToTarget (hdrBits hdr))
  invalid _ := false
  powRules := some (⟨true, true, false⟩, 0x207fffff)
  hdrRules := some 1
  bip94 := false
  now := 2000
  scriptFlags _ _ := 0xFFFF
  meetsMinimum _ := true
  appendOk _ := true

def genesisHdr : Bytes 80 := wireHdr (Bytes.ofList 32 []) 1 1000

/-- Headers over genesis, told apart by their merkle root. -/
def childHdr (root : Nat) : Bytes 80 :=
  wireHdr (regtestEnv.blockHash genesisHdr) root 1001

def storedAs (hdr : Bytes 80) (data : BlockData) : StoredBlock :=
  ⟨regtestEnv.blockHash hdr, hdr, data⟩

/-- Genesis and one block over it, whose chainwork record is due. -/
def shortArchive (data : BlockData) : Archive :=
  ⟨[storedAs genesisHdr .stored, storedAs (childHdr 2) data],
    [blockWork 0x207fffff], true⟩

/-- Another block over genesis, and one more over that. -/
def forkCand (n : Nat) : Cand :=
  ⟨[childHdr 3, wireHdr (regtestEnv.blockHash (childHdr 3)) 4 1002].take n,
    [(regtestEnv.blockHash genesisHdr, 0)]⟩

theorem shortArchive_linked (data : BlockData) :
    (shortArchive data).Linked regtestEnv.blockHash := by
  constructor
  · intro h b hb
    match h with
    | 0 | 1 =>
        cases hb
        rfl
    | h + 2 => cases hb
  · intro h b b' hb hb'
    match h with
    | 0 =>
        cases hb
        cases hb'
        change hdrPrev (childHdr 2) = regtestEnv.blockHash genesisHdr
        decide
    | h + 1 => cases hb'

theorem shortArchive_workKnown : WorkKnown (shortArchive .stored) 0 := by
  refine ⟨by decide, ?_, ?_, ?_⟩
  · intro h b _ hb
    match h with
    | 0 | 1 =>
        cases hb
        decide
    | h + 2 => cases hb
  · intro h b r hpos _ hr
    match h with
    | 0 => omega
    | h + 1 => cases hr
  · intro h b hpos _ hb
    match h with
    | 0 => omega
    | 1 =>
        cases hb
        rfl
    | h + 2 => cases hb

/-- Two blocks against one that can be read. -/
theorem stored_block_outweighed :
    LinksAt regtestEnv (shortArchive .stored) (forkCand 2) ⟨0, 0, 0, 4, 6⟩ ∧
      RulesPass regtestEnv (shortArchive .stored) (forkCand 2) 0 ∧
      totalWork [childHdr 2] < totalWork (forkCand 2).hdrs := by
  have hheavier := reorgAnalyze_heavier regtestEnv (shortArchive .stored)
    (forkCand 2) ⟨0, 0, 0, 4, 6⟩ (by decide)
    (shortArchive_linked .stored) (by unfold NoCollision; decide)
  exact ⟨hheavier.1, hheavier.2.1, hheavier.2.2 shortArchive_workKnown⟩

/-- The local block was pruned before its record was written, so it weighs
nothing: one block of the same work replaces it. -/
theorem pruned_block_outweighed : ∃ f,
    (reorgAnalyze regtestEnv (shortArchive .pruned) (forkCand 1)).2 =
      .heavier f ∧
    ¬ totalWork (((shortArchive .pruned).blocks.drop (f.forkHeight + 1)).map
        StoredBlock.hdr) < totalWork ((forkCand 1).hdrs.drop f.firstNew) :=
  ⟨⟨0, 0, 0, 2, 4⟩, by decide, by decide⟩

end BitcoinMachineCode.Chain
