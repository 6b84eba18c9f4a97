import Mathlib
import BitcoinMachineCode.Foundation.Worklist
import BitcoinMachineCode.Storage.Coins

/-!
# Admission to the memory pool

`mpol_add_core` of `bitcoin_mempool_policy.c` over the pool as a list of nodes,
each with its transaction and the parents it was linked to.  The order of the
checks, the eviction set, the trimming and the links are the source's; what it
computes from fees, sizes and scripts is a policy the pool is run with.
-/

namespace BitcoinMachineCode.Mempool

open BitcoinMachineCode.Foundation BitcoinMachineCode.Storage

/-! ## The pool -/

/-- A transaction and the bytes it was read from. -/
structure Rtx where
  tx : Tx
  bytes : List UInt8

/-- A node: the transaction and the in-pool parents it is linked to. -/
structure Node where
  rtx : Rtx
  parents : List Txid

def Node.txid (n : Node) : Txid := n.rtx.tx.txid

def Node.inputs (n : Node) : List Outpoint := n.rtx.tx.inputs

abbrev Pool := List Node

def findNode (pool : Pool) (txid : Txid) : Option Node := pool.find? (·.txid = txid)

/-- `find_outreg`: the value of an output of a pool transaction. -/
def findOutreg (pool : Pool) (o : Outpoint) : Option UInt64 :=
  (findNode pool o.txid).bind fun n => (n.rtx.tx.outputs[o.index.toNat]?).map TxOut.value

/-- `find_claim`: the transaction that spends the outpoint. -/
def findClaim (pool : Pool) (o : Outpoint) : Option Txid :=
  (pool.find? (o ∈ ·.inputs)).map Node.txid

def children (pool : Pool) (txid : Txid) : List Txid :=
  (pool.filter (txid ∈ ·.parents)).map Node.txid

def mpolPkgMax : Nat := 128

/-- `collect_descendant_txids`, `none` past `MPOL_PKG_MAX`. -/
def collectDescendantTxids (pool : Pool) (txid : Txid) : Option (List Txid) :=
  (search (children pool) mpolPkgMax [txid]).map List.tail

/-- `mpol_collect_parents`, before the cap: each in-pool parent once. -/
def collectParents (pool : Pool) (inputs : List Outpoint) : List Txid :=
  unseen [] ((inputs.map Outpoint.txid).filter fun txid => (findNode pool txid).isSome)

/-- `remove_node`: the node leaves, and so do the links to it. -/
def removeNode (pool : Pool) (txid : Txid) : Pool :=
  (pool.filter (·.txid ≠ txid)).map fun n =>
    { n with parents := n.parents.filter (· ≠ txid) }

def removeNodes (pool : Pool) (txids : List Txid) : Pool := txids.foldl removeNode pool

/-- `mpool_policy_remove_package` -/
def removePackage (pool : Pool) (txid : Txid) : Pool :=
  match findNode pool txid with
  | none => pool
  | some _ =>
      match collectDescendantTxids pool txid with
      -- past the bound only the transaction itself goes
      | none => removeNode pool txid
      | some descendants => removeNode (removeNodes pool descendants) txid

/-! ## The policy -/

inductive TrucVerdict where
  | ok
  | refuse (reason : String)
  /-- the one child of the one parent is to make room -/
  | sibling

/-- The rules that read fees, sizes, scripts, locks and the room left; `σ` is what
the policy state remembers besides the nodes. -/
structure Policy (σ : Type) where
  standardChecks : Rtx → Option String
  /-- ephemeral dust and the fee floors -/
  feeFloors : σ → Pool → Rtx → UInt64 → Option String
  /-- the conflicts lie in too many clusters -/
  manyClusters : σ → Pool → List Txid → Bool
  /-- BIP125's fee rules over the eviction set -/
  paysForRbf : σ → Pool → Rtx → List Txid → Option String
  /-- room in the node table, finality and sequence locks -/
  limits : σ → Pool → Rtx → Option String
  /-- room for the links to the parents -/
  linkRoom : σ → Pool → Rtx → Bool
  clusterCount : Nat
  /-- the virtual size of the cluster it joins is within the limit -/
  clusterSize : σ → Pool → Rtx → List Txid → Bool
  truc : σ → Pool → Rtx → List Txid → TrucVerdict
  /-- the feerate diagram, and room for the claims, the outputs and the bytes -/
  commitChecks : σ → Pool → Rtx → List Txid → Option String
  /-- `mpool_put` finds the store full, dead bytes reclaimed -/
  storeFull : σ → Pool → Rtx → Bool
  /-- the chunk `worst_chunk` names, none where the newcomer pays no more than it -/
  worstChunk : σ → Pool → Rtx → List Txid
  /-- `mpool_policy_state_init` -/
  reset : σ → σ
  /-- what an offer leaves behind, from the pool before and after -/
  remember : σ → Pool → Rtx → Pool → σ

structure PolState (σ : Type) where
  memory : σ
  pool : Pool

/-! ## The checks -/

def mpolMaxIn : Nat := 2048

def mpolMaxEvict : Nat := 6400

def mpolMaxParents : Nat := 63

def clusterLimit : Nat := 64

/-- The value of the inputs: the pool's outputs first, then the confirmed set. -/
def resolveInputs (coins : Outpoint → Option UInt64) (pool : Pool) :
    List Outpoint → Option UInt64
  | [] => some 0
  | o :: os =>
      match (findOutreg pool o).or (coins o) with
      | none => none
      | some v => (resolveInputs coins pool os).map (v + ·)

def conflicts (pool : Pool) (inputs : List Outpoint) : List Txid :=
  unseen [] (inputs.filterMap (findClaim pool))

/-- The descendants not in the set yet join it. -/
def evictDescendants : List Txid → List Txid → Option (List Txid)
  | evict, [] => some evict
  | evict, d :: ds =>
      if d ∈ evict then evictDescendants evict ds
      else if mpolMaxEvict ≤ evict.length then none
      else evictDescendants (evict ++ [d]) ds

/-- The conflicts and their descendants, `none` past a bound. -/
def evictSet (pool : Pool) : List Txid → List Txid → Option (List Txid)
  | evict, [] => some evict
  | evict, c :: cs =>
      if mpolMaxEvict ≤ evict.length then none
      else
        match collectDescendantTxids pool c with
        | none => none
        | some ds =>
            match evictDescendants (evict ++ [c]) ds with
            | none => none
            | some evict' => evictSet pool evict' cs

/-- Parents and children that stay. -/
def neighbours (pool : Pool) (evict : List Txid) (txid : Txid) : List Txid :=
  ((((findNode pool txid).map Node.parents).getD []) ++ children pool txid).filter (· ∉ evict)

/-- The cluster a newcomer with these parents joins, itself left out. -/
def clusterOf (pool : Pool) (evict parents : List Txid) : Option (List Txid) :=
  search (neighbours pool evict) clusterLimit (parents.filter (· ∉ evict))

/-- The conflict stage: the eviction set, or the reason to refuse. -/
def replacementChecks {σ : Type} (P : Policy σ) (m : σ) (pool : Pool) (r : Rtx) :
    Except String (List Txid) :=
  match conflicts pool r.tx.inputs with
  | [] => .ok []
  | c :: cs =>
      if P.manyClusters m pool (c :: cs) then .error "too many potential replacements"
      else
        match evictSet pool [] (c :: cs) with
        | none => .error "too many potential replacements"
        | some evict =>
            if r.tx.inputs.any (fun o => o.txid ∈ evict) then
              .error "bad-txns-spends-conflicting-tx"
            else
              match P.paysForRbf m pool r evict with
              | some reason => .error reason
              | none => .ok evict

/-- The limits on the cluster joined. -/
def clusterChecks {σ : Type} (P : Policy σ) (m : σ) (pool : Pool) (r : Rtx)
    (evict : List Txid) : Option String :=
  let parents := collectParents pool r.tx.inputs
  if mpolMaxParents < parents.length then some "too-large-cluster"
  else if !P.linkRoom m pool r then some "too-long-mempool-chain"
  else
    match clusterOf pool evict parents with
    | none => some "too-large-cluster"
    | some cluster =>
        -- a newcomer without parents is held to the size alone
        if (parents ≠ [] ∧ P.clusterCount < cluster.length + 1) ∨
            !P.clusterSize m pool r cluster then some "too-large-cluster"
        else none

/-- The TRUC stage: a sibling may join the eviction set. -/
def trucChecks {σ : Type} (P : Policy σ) (m : σ) (pool : Pool) (r : Rtx)
    (evict : List Txid) : Except String (List Txid) :=
  match P.truc m pool r evict with
  | .ok => .ok evict
  | .refuse reason => .error reason
  | .sibling =>
      match collectParents pool r.tx.inputs with
      | [parent] =>
          -- a parent with an ancestor of its own is one generation too many
          if ((findNode pool parent).map Node.parents).getD [] ≠ [] then .error "TRUC-violation"
          else
            match collectDescendantTxids pool parent with
            | some [sibling] =>
                if mpolMaxEvict ≤ evict.length then
                  .error "too many potential replacements (including sibling eviction)"
                else .ok (evict ++ [sibling])
            | _ => .error "TRUC-violation"
      | _ => .error "TRUC-violation"

/-- Everything before the commit: the set to evict, or the reason to refuse. -/
def admissionChecks {σ : Type} (P : Policy σ) (coins : Outpoint → Option UInt64) (m : σ)
    (pool : Pool) (r : Rtx) : Except String (List Txid) :=
  if r.tx.inputs = [] ∨ mpolMaxIn < r.tx.inputs.length ∨ r.tx.outputs = [] then
    .error "malformed transaction"
  else if r.tx.inputs.head? = some nullOutpoint then .error "coinbase"
  else
    match P.standardChecks r with
    | some reason => .error reason
    | none =>
        if (findNode pool r.tx.txid).isSome then .error "txn-already-in-mempool"
        else
          match resolveInputs coins pool r.tx.inputs with
          | none => .error "bad-txns-inputs-missingorspent"
          | some sumIn =>
              let sumOut := (r.tx.outputs.map TxOut.value).sum
              if sumIn < sumOut then .error "bad-txns-in-belowout"
              else
                match P.feeFloors m pool r (sumIn - sumOut) with
                | some reason => .error reason
                | none => do
                    let evict ← replacementChecks P m pool r
                    match P.limits m pool r with
                    | some reason => .error reason
                    | none =>
                        match clusterChecks P m pool r evict with
                        | some reason => .error reason
                        | none => do
                            let evict ← trucChecks P m pool r evict
                            match P.commitChecks m pool r evict with
                            | some reason => .error reason
                            | none => .ok evict

/-! ## The commit -/

/-- Stores the newcomer, trimming while the store is full: the reason to refuse, if
any, and the pool.  What was evicted stays evicted either way. -/
def storeAndTrim {σ : Type} (P : Policy σ) (m : σ) (r : Rtx) : Nat → Pool → Option String × Pool
  | 0, pool =>
      -- an empty pool has no chunk to give
      if P.storeFull m pool r then (some "mempool full", pool)
      else (none, pool ++ [⟨r, collectParents pool r.tx.inputs⟩])
  | fuel + 1, pool =>
      if !P.storeFull m pool r then (none, pool ++ [⟨r, collectParents pool r.tx.inputs⟩])
      else
        match (P.worstChunk m pool r).filter fun txid => (findNode pool txid).isSome with
        | [] => (some "mempool full", pool)
        | chunk =>
            let pool' := chunk.foldl removePackage pool
            -- the trim may not take a parent of the newcomer
            if (collectParents pool' r.tx.inputs).length <
                (collectParents pool r.tx.inputs).length then (some "mempool full", pool')
            else storeAndTrim P m r fuel pool'

/-- `mpol_add_core` with `commit` set -/
def mpolAddCore {σ : Type} (P : Policy σ) (coins : Outpoint → Option UInt64) (m : σ)
    (pool : Pool) (r : Rtx) : Option String × Pool :=
  match admissionChecks P coins m pool r with
  | .error reason => (some reason, pool)
  | .ok evict =>
      let pool' := removeNodes pool evict
      if (collectParents pool' r.tx.inputs).length <
          (collectParents pool r.tx.inputs).length then (some "mempool full", pool')
      else storeAndTrim P m r pool'.length pool'

/-- `mpool_policy_add`: `none` is its 1. -/
def mpoolPolicyAdd {σ : Type} (P : Policy σ) (coins : Outpoint → Option UInt64)
    (s : PolState σ) (r : Rtx) : Option String × PolState σ :=
  let result := mpolAddCore P coins s.memory s.pool r
  (result.1, ⟨P.remember s.memory s.pool r result.2, result.2⟩)

/-! ## Nodes and links -/

theorem findNode_isSome {pool : Pool} {txid : Txid} :
    (findNode pool txid).isSome ↔ txid ∈ pool.map Node.txid := by
  simp [findNode]

theorem findNode_eq_some {pool : Pool} {txid : Txid} {n : Node}
    (h : findNode pool txid = some n) : n ∈ pool ∧ n.txid = txid :=
  ⟨List.mem_of_find?_eq_some h, by simpa using List.find?_some h⟩

theorem node_eq_of_txid_eq {pool : Pool} (h : (pool.map Node.txid).Nodup) {n n' : Node}
    (hn : n ∈ pool) (hn' : n' ∈ pool) (heq : n.txid = n'.txid) : n = n' :=
  List.inj_on_of_nodup_map h hn hn' heq

theorem findNode_of_mem {pool : Pool} (h : (pool.map Node.txid).Nodup) {n : Node}
    (hn : n ∈ pool) : findNode pool n.txid = some n := by
  obtain ⟨n', hn'⟩ := Option.isSome_iff_exists.mp
    (findNode_isSome.mpr (List.mem_map_of_mem (f := Node.txid) hn))
  obtain ⟨hmem, htxid⟩ := findNode_eq_some hn'
  rw [hn', node_eq_of_txid_eq h hmem hn htxid]

theorem mem_children {pool : Pool} {txid child : Txid} :
    child ∈ children pool txid ↔ ∃ n ∈ pool, txid ∈ n.parents ∧ n.txid = child := by
  simp [children, and_assoc]

theorem mem_collectParents {pool : Pool} {inputs : List Outpoint} {txid : Txid} :
    txid ∈ collectParents pool inputs ↔
      (∃ o ∈ inputs, o.txid = txid) ∧ txid ∈ pool.map Node.txid := by
  rw [collectParents, mem_unseen, List.mem_filter, findNode_isSome]
  simp

theorem nodup_collectParents (pool : Pool) (inputs : List Outpoint) :
    (collectParents pool inputs).Nodup := nodup_unseen _ _

theorem findOutreg_isSome {pool : Pool} {o : Outpoint} (h : (findOutreg pool o).isSome) :
    ∃ n ∈ pool, n.txid = o.txid ∧ o.index.toNat < n.rtx.tx.outputs.length := by
  unfold findOutreg at h
  cases hn : findNode pool o.txid with
  | none => simp [hn] at h
  | some n =>
      obtain ⟨hmem, htxid⟩ := findNode_eq_some hn
      refine ⟨n, hmem, htxid, ?_⟩
      simpa [hn] using h

theorem resolveInputs_isSome {coins : Outpoint → Option UInt64} {pool : Pool}
    {inputs : List Outpoint} {v : UInt64} (h : resolveInputs coins pool inputs = some v) :
    ∀ o ∈ inputs, (findOutreg pool o).isSome ∨ (coins o).isSome := by
  induction inputs generalizing v with
  | nil => exact fun o ho => absurd ho List.not_mem_nil
  | cons o os ih =>
      unfold resolveInputs at h
      split at h
      · cases h
      next w hw =>
      obtain ⟨rest, hrest, -⟩ := Option.map_eq_some_iff.mp h
      intro o' ho'
      rcases List.mem_cons.mp ho' with rfl | ho'
      · cases hout : findOutreg pool o' with
        | some x => exact .inl rfl
        | none =>
            rw [hout, Option.none_or] at hw
            exact .inr (hw ▸ rfl)
      · exact ih hrest o' ho'

/-! ## The eviction set -/

theorem evictDescendants_eq_some {evict ds evict' : List Txid}
    (h : evictDescendants evict ds = some evict') :
    ∀ x, x ∈ evict' ↔ x ∈ evict ∨ x ∈ ds := by
  induction ds generalizing evict with
  | nil =>
      obtain rfl := Option.some.inj h
      simp
  | cons d ds ih =>
      unfold evictDescendants at h
      split at h
      · next hd =>
          intro x
          rw [ih h x]
          grind
      · split at h
        · cases h
        · intro x
          rw [ih h x]
          grind

theorem collectDescendantTxids_eq_some {pool : Pool} {txid : Txid} {ds : List Txid}
    (h : collectDescendantTxids pool txid = some ds) :
    ClosedUnder (children pool) (txid :: ds) := by
  obtain ⟨found, hfound, rfl⟩ := Option.map_eq_some_iff.mp h
  obtain ⟨rest, rfl⟩ := search_prefixed hfound
  exact search_closed hfound

theorem evictSet_eq_some {pool : Pool} {evict cs evict' : List Txid}
    (hclosed : ClosedUnder (children pool) evict) (h : evictSet pool evict cs = some evict') :
    ClosedUnder (children pool) evict' ∧ ∀ x, x ∈ evict ∨ x ∈ cs → x ∈ evict' := by
  induction cs generalizing evict with
  | nil =>
      obtain rfl := Option.some.inj h
      exact ⟨hclosed, fun x hx => hx.resolve_right List.not_mem_nil⟩
  | cons c cs ih =>
      unfold evictSet at h
      split at h
      · cases h
      split at h
      · cases h
      next ds hds =>
      split at h
      · cases h
      next more hmore =>
      have hmem := evictDescendants_eq_some hmore
      have hpackage := collectDescendantTxids_eq_some hds
      obtain ⟨hclosed', hsub⟩ := ih (fun a ha b hb => by
        rw [hmem] at ha ⊢
        rcases ha with ha | ha
        · rcases List.mem_append.mp ha with ha | ha
          · exact .inl (List.mem_append_left _ (hclosed a ha b hb))
          · obtain rfl := List.mem_singleton.mp ha
            have := hpackage a List.mem_cons_self b hb
            grind
        · have := hpackage a (List.mem_cons_of_mem _ ha) b hb
          grind) h
      refine ⟨hclosed', fun x hx => hsub x ?_⟩
      rw [hmem]
      grind

end BitcoinMachineCode.Mempool
