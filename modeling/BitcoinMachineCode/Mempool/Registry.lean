import BitcoinMachineCode.Mempool.Replacement
import BitcoinMachineCode.Consensus.PowSchedule

/-!
# The registry and its totals

What a node of `bitcoin_mempool_policy.c` stores besides its links: its size and
fee, the totals over its ancestors and those over its descendants.  Admission adds
to the totals along the links, `decr_ancestors` takes off along the links that are
left, and `mpol_recompute_anc` counts again.  The operations are those on the pool
with the totals carried along.
-/

namespace BitcoinMachineCode.Mempool

open BitcoinMachineCode.Foundation BitcoinMachineCode.Storage

/-! ## Nodes with totals -/

/-- `slots` are the parents as recorded at admission; a slot counts while the node
is still linked to that parent. -/
structure Figures where
  size : Nat
  fee : Nat
  slots : List Txid
  ancCnt : Nat
  ancBytes : Nat
  descCnt : Nat
  descBytes : Nat
  descFee : Nat

structure Registry where
  pool : Pool
  figures : Txid → Figures

def parentsOf (pool : Pool) (txid : Txid) : List Txid :=
  ((findNode pool txid).map Node.parents).getD []

def txVersion (r : Rtx) : UInt32 := Consensus.rd32le r.bytes

/-- The walk up along the links from the nodes of `start`.  Each node is pushed at
most once; the fixed stacks hold more than a cluster has. -/
def upWalk (links : Txid → List Txid) (n : Nat) (start : List Txid) : List Txid :=
  (worklist links n n start.reverse start).getD start

/-! ## Taking off and counting again -/

def Figures.less (f g : Figures) : Figures :=
  { f with
    descCnt := f.descCnt - 1
    descBytes := f.descBytes - g.size
    descFee := f.descFee - g.fee }

def Figures.more (f : Figures) (size fee : Nat) : Figures :=
  { f with
    descCnt := f.descCnt + 1
    descBytes := f.descBytes + size
    descFee := f.descFee + fee }

def decrAncestorsMax : Nat := 2 ^ 20

/-- `decr_ancestors` along these links. -/
def decrAncestors (links : Txid → List Txid) (n : Nat) (figures : Txid → Figures)
    (txid : Txid) : Txid → Figures :=
  if decrAncestorsMax < n then figures
  else
    let ancestors := upWalk links n (links txid)
    fun a => if a ∈ ancestors then (figures a).less (figures txid) else figures a

def mpolAncSeenMax : Nat := 128

def saturatedCount : Nat := 0xFFFFFFFF

/-- `mpol_recompute_anc` -/
def recomputeAnc (pool : Pool) (figures : Txid → Figures) (txid : Txid) : Figures :=
  let f := figures txid
  match search (parentsOf pool) mpolAncSeenMax (parentsOf pool txid) with
  | none => { f with ancCnt := saturatedCount, ancBytes := saturatedCount }
  | some ancestors =>
      { f with
        ancCnt := 1 + ancestors.length
        ancBytes := f.size + (ancestors.map fun a => (figures a).size).sum }

/-- `mpol_recompute_anc_all`: the nodes that were admitted with parents. -/
def recomputeAncAll (pool : Pool) (figures : Txid → Figures) : Txid → Figures :=
  fun x =>
    if (findNode pool x).isSome ∧ (figures x).slots ≠ [] then recomputeAnc pool figures x
    else figures x

namespace Registry

/-! ## Removals -/

/-- `remove_node`, where the node is there. -/
def removeNode (reg : Registry) (txid : Txid) : Registry :=
  let pool := Mempool.removeNode reg.pool txid
  if (findNode reg.pool txid).isSome then
    let figures := decrAncestors (parentsOf reg.pool) reg.pool.length reg.figures txid
    ⟨pool, if children reg.pool txid = [] then figures else recomputeAncAll pool figures⟩
  else ⟨pool, reg.figures⟩

def removeNodes (reg : Registry) (txids : List Txid) : Registry :=
  txids.foldl removeNode reg

/-- The calls of `remove_node` that `mpool_policy_remove_package` makes, in order. -/
def packageOrder (pool : Pool) (txid : Txid) : List Txid :=
  match findNode pool txid with
  | none => []
  | some _ => ((collectDescendantTxids pool txid).getD []) ++ [txid]

/-- `mpool_policy_remove_package` -/
def removePackage (reg : Registry) (txid : Txid) : Registry :=
  reg.removeNodes (packageOrder reg.pool txid)

def mpolInlineParents : Nat := 8

/-- The links while marked nodes leave: those that left before have given back the
block with their further parents. -/
def linksLeft (reg : Registry) (released : List Txid) (x : Txid) : List Txid :=
  if x ∈ released then
    (parentsOf reg.pool x).filter (· ∈ (reg.figures x).slots.take mpolInlineParents)
  else parentsOf reg.pool x

/-- The bookkeeping of `mpol_remove_marked`: the totals above each node that leaves,
in the order of the node table. -/
def decrMarked (reg : Registry) : List Txid → List Txid → (Txid → Figures) → Txid → Figures
  | _, [], figures => figures
  | released, x :: xs, figures =>
      decrMarked reg (released ++ [x]) xs
        (decrAncestors (reg.linksLeft released) reg.pool.length figures x)

/-- `mpol_remove_marked`; `order` lists the marked nodes as the node table has them. -/
def removeMarked (reg : Registry) (order : List Txid) (leaves : Txid → Bool) : Registry :=
  let pool := keepNodes reg.pool fun x => !leaves x
  let figures := reg.decrMarked [] order reg.figures
  let orphaned := reg.pool.any fun n => !leaves n.txid && n.parents.any leaves
  ⟨pool, if orphaned then recomputeAncAll pool figures else figures⟩

/-- `mpool_policy_block_connect` -/
def blockConnect (reg : Registry) (order : List Txid) (block : List Tx) : Registry :=
  reg.removeMarked order (block.tail.foldl (markTx reg.pool) Marks.none).leaves

/-! ## The insert -/

/-- The node, with totals its ancestors had before any eviction, and one more
descendant for those it has now. -/
def insert (reg : Registry) (r : Rtx) (size fee ancCnt ancBytes : Nat) : Registry :=
  let parents := collectParents reg.pool r.tx.inputs
  let ancestors := upWalk (parentsOf reg.pool) reg.pool.length parents
  ⟨reg.pool ++ [⟨r, parents⟩], fun x =>
    if x = r.tx.txid then ⟨size, fee, parents, ancCnt, ancBytes, 1, size, fee⟩
    else if x ∈ ancestors then (reg.figures x).more size fee
    else reg.figures x⟩

end Registry

/-! ## The TRUC rules -/

def trucVersion : UInt32 := 3

def trucMaxVsize : Nat := 10000

def trucChildMaxVsize : Nat := 1000

def trucAncestorLimit : Nat := 2

def trucDescendantLimit : Nat := 2

def isTruc (r : Rtx) : Bool := txVersion r == trucVersion

/-- The sizes and the rate the rules are run with. -/
structure Rates where
  vsize : Rtx → Nat
  incrementalFee : Nat

/-- An entry that leaves is a child of this parent. -/
def childReplaced (pool : Pool) (evict : List Txid) (parent : Txid) : Bool :=
  evict.any fun e => parent ∈ parentsOf pool e

/-- The sibling in the one shape that may be evicted. -/
def evictableSibling (reg : Registry) (parent : Txid) : Option Txid :=
  if (reg.figures parent).descCnt ≠ 2 then none
  else
    match collectDescendantTxids reg.pool parent with
    | some [sibling] => if (reg.figures sibling).ancCnt = 2 then some sibling else none
    | _ => none

/-- The rules on one parent of a version 3 transaction. -/
def trucParentVerdict (rates : Rates) (coins : Outpoint → Option UInt64) (reg : Registry)
    (r : Rtx) (evict : List Txid) (parent : Txid) : TrucVerdict :=
  if trucAncestorLimit < (reg.figures parent).ancCnt + 1 then .refuse "TRUC-violation"
  else if trucChildMaxVsize < rates.vsize r then .refuse "TRUC-violation"
  else if (reg.figures parent).descCnt + 1 ≤ trucDescendantLimit ∨
      childReplaced reg.pool evict parent then .ok
  else
    match evictableSibling reg parent with
    | none => .refuse "TRUC-violation"
    | some sibling =>
        -- a full eviction set is refused before the fee is looked at
        if mpolMaxEvict ≤ evict.length then .sibling
        else
          match feeRule (txFee coins reg.pool r)
              (removedFees (fun x => (reg.figures x).fee) (evict ++ [sibling]))
              (feeAtRate rates.incrementalFee (rates.vsize r)) with
          | some _ => .refuse "insufficient fee (including sibling eviction)"
          | none => .sibling

/-- The TRUC rules for a transaction outside a package. -/
def trucVerdict (rates : Rates) (coins : Outpoint → Option UInt64) (reg : Registry)
    (r : Rtx) (evict : List Txid) : TrucVerdict :=
  let parents := collectParents reg.pool r.tx.inputs
  if parents.any fun p => (findNode reg.pool p).any fun n => isTruc r != isTruc n.rtx then
    .refuse "TRUC-violation"
  else if !isTruc r then .ok
  else if trucMaxVsize < rates.vsize r then .refuse "TRUC-violation"
  else
    match parents with
    | [] => .ok
    | parent :: others =>
        if trucAncestorLimit < others.length + 1 + 1 then .refuse "TRUC-violation"
        else trucParentVerdict rates coins reg r evict parent

/-! ## Admission -/

/-- The policy with the rules that read the totals and the stored fees. -/
def Policy.onRegistry {σ : Type} (P : Policy σ) (rates : Rates)
    (coins : Outpoint → Option UInt64) (reg : Registry) : Policy σ :=
  { P.withRbf ⟨fun _ x => (reg.figures x).fee, rates.vsize, rates.incrementalFee⟩ coins with
    truc := fun _ _ r evict => trucVerdict rates coins reg r evict }

namespace Registry

section Admission

variable {σ : Type} (P : Policy σ) (rates : Rates)

/-- `storeAndTrim` with the totals. -/
def storeAndTrim (m : σ) (r : Rtx) (add : Registry → Registry) :
    Nat → Registry → Option String × Registry
  | 0, reg => if P.storeFull m reg.pool r then (some "mempool full", reg) else (none, add reg)
  | fuel + 1, reg =>
      if !P.storeFull m reg.pool r then (none, add reg)
      else
        match (P.worstChunk m reg.pool r).filter fun txid => (findNode reg.pool txid).isSome with
        | [] => (some "mempool full", reg)
        | chunk =>
            let reg' := chunk.foldl removePackage reg
            if (collectParents reg'.pool r.tx.inputs).length <
                (collectParents reg.pool r.tx.inputs).length then (some "mempool full", reg')
            else storeAndTrim m r add fuel reg'

/-- `mpol_add_core` with `commit` set; the newcomer's own totals are those from before
the evictions. -/
def mpolAddCore (coins : Outpoint → Option UInt64) (m : σ) (reg : Registry) (r : Rtx) :
    Option String × Registry :=
  match admissionChecks (P.onRegistry rates coins reg) coins m reg.pool r with
  | .error reason => (some reason, reg)
  | .ok evict =>
      let ancestors := upWalk (parentsOf reg.pool) reg.pool.length
        (collectParents reg.pool r.tx.inputs)
      let size := rates.vsize r
      let fee := txFee coins reg.pool r
      let ancBytes := size + (ancestors.map fun a => (reg.figures a).size).sum
      let reg' := reg.removeNodes evict
      if (collectParents reg'.pool r.tx.inputs).length <
          (collectParents reg.pool r.tx.inputs).length then (some "mempool full", reg')
      else
        storeAndTrim (P.onRegistry rates coins reg) m r
          (fun now => now.insert r size fee (1 + ancestors.length) ancBytes) reg'.pool.length reg'

end Admission

/-! ## The pool underneath -/

@[simp] theorem pool_removeNode (reg : Registry) (txid : Txid) :
    (reg.removeNode txid).pool = Mempool.removeNode reg.pool txid := by
  unfold removeNode
  simp only
  split
  · rfl
  · rfl

@[simp] theorem pool_removeNodes (reg : Registry) (txids : List Txid) :
    (reg.removeNodes txids).pool = Mempool.removeNodes reg.pool txids := by
  induction txids generalizing reg with
  | nil => rfl
  | cons x xs ih =>
      change ((reg.removeNode x).removeNodes xs).pool = _
      rw [ih, pool_removeNode]
      rfl

@[simp] theorem pool_removePackage (reg : Registry) (txid : Txid) :
    (reg.removePackage txid).pool = Mempool.removePackage reg.pool txid := by
  rw [removePackage, pool_removeNodes]
  unfold packageOrder Mempool.removePackage
  cases findNode reg.pool txid with
  | none => rfl
  | some n =>
      cases collectDescendantTxids reg.pool txid with
      | none => rfl
      | some ds =>
          simp only [Option.getD_some, Mempool.removeNodes, List.foldl_append, List.foldl_cons,
            List.foldl_nil]

theorem pool_removePackages (reg : Registry) (txids : List Txid) :
    (txids.foldl removePackage reg).pool = txids.foldl Mempool.removePackage reg.pool := by
  induction txids generalizing reg with
  | nil => rfl
  | cons x xs ih =>
      rw [List.foldl_cons, List.foldl_cons, ih, pool_removePackage]

@[simp] theorem pool_blockConnect (reg : Registry) (order : List Txid) (block : List Tx) :
    (reg.blockConnect order block).pool = mpoolPolicyBlockConnect reg.pool block := rfl

theorem pool_storeAndTrim {σ : Type} (P : Policy σ) (m : σ) (r : Rtx)
    {add : Registry → Registry}
    (hadd : ∀ reg, (add reg).pool = reg.pool ++ [⟨r, collectParents reg.pool r.tx.inputs⟩])
    (fuel : Nat) (reg : Registry) :
    (storeAndTrim P m r add fuel reg).1 = (Mempool.storeAndTrim P m r fuel reg.pool).1 ∧
      (storeAndTrim P m r add fuel reg).2.pool =
        (Mempool.storeAndTrim P m r fuel reg.pool).2 := by
  induction fuel generalizing reg with
  | zero =>
      unfold storeAndTrim Mempool.storeAndTrim
      split
      · exact ⟨rfl, rfl⟩
      · exact ⟨rfl, hadd reg⟩
  | succ fuel ih =>
      unfold storeAndTrim Mempool.storeAndTrim
      split
      · exact ⟨rfl, hadd reg⟩
      · cases (P.worstChunk m reg.pool r).filter fun txid => (findNode reg.pool txid).isSome with
        | nil => exact ⟨rfl, rfl⟩
        | cons x xs =>
            simp only [pool_removePackages]
            split
            · exact ⟨rfl, pool_removePackages _ _⟩
            · rw [← pool_removePackages]
              exact ih _

/-- The registry's admission is the pool's, under the rules the totals give. -/
theorem pool_mpolAddCore {σ : Type} (P : Policy σ) (rates : Rates)
    (coins : Outpoint → Option UInt64) (m : σ) (reg : Registry) (r : Rtx) :
    (mpolAddCore P rates coins m reg r).2.pool =
      (Mempool.mpolAddCore (P.onRegistry rates coins reg) coins m reg.pool r).2 := by
  unfold mpolAddCore Mempool.mpolAddCore
  cases admissionChecks (P.onRegistry rates coins reg) coins m reg.pool r with
  | error reason => rfl
  | ok evict =>
      simp only [pool_removeNodes]
      split
      · exact pool_removeNodes _ _
      · rw [← pool_removeNodes]
        refine (pool_storeAndTrim (P.onRegistry rates coins reg) m r ?_ _ _).2
        intro now
        rfl

end Registry

/-! ## Reachable registries -/

/-- The marked nodes, each once. -/
def Registry.Lists (reg : Registry) (order : List Txid) (leaves : Txid → Bool) : Prop :=
  order.Nodup ∧ ∀ x, x ∈ order ↔ x ∈ reg.pool.map Node.txid ∧ leaves x = true

/-- The registries that offers with the rules on, package removals, removals of single
confirmed entries and block connections lead to, whatever the policy and the coins. -/
inductive RegReach : Registry → Prop where
  | empty (figures : Txid → Figures) : RegReach ⟨[], figures⟩
  | add {reg : Registry} {σ : Type} (P : Policy σ) (rates : Rates)
      (coins : Outpoint → Option UInt64) (m : σ) (r : Rtx) :
      RegReach reg → RegReach (reg.mpolAddCore P rates coins m r).2
  | removePackage {reg : Registry} (txid : Txid) : RegReach reg → RegReach (reg.removePackage txid)
  | removeConfirmed {reg : Registry} (txid : Txid) : RegReach reg → RegReach (reg.removeNode txid)
  | blockConnect {reg : Registry} (order : List Txid) (block : List Tx) :
      reg.Lists order (block.tail.foldl (markTx reg.pool) Marks.none).leaves →
      RegReach reg → RegReach (reg.blockConnect order block)

theorem RegReach.poolReach {reg : Registry} (h : RegReach reg) : PoolReach reg.pool := by
  induction h with
  | empty figures => exact .empty
  | add P rates coins m r _ ih =>
      rw [Registry.pool_mpolAddCore]
      exact ih.add _ coins m r
  | removePackage txid _ ih =>
      rw [Registry.pool_removePackage]
      exact ih.removePackage txid
  | removeConfirmed txid _ ih =>
      rw [Registry.pool_removeNode]
      exact ih.removeConfirmed txid
  | blockConnect order block _ _ ih => exact ih.blockConnect block

end BitcoinMachineCode.Mempool
