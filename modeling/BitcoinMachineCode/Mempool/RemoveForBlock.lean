import BitcoinMachineCode.Mempool.Reconcile

/-!
# Connecting a block

`mpool_policy_block_connect`: the block's transactions are marked to leave alone,
those that conflict with them to leave with their descendants, and one compaction
removes what is marked.  The block's inputs come from `parse_tx`, which has the
admission path's bound on their number.
-/

namespace BitcoinMachineCode.Mempool

open BitcoinMachineCode.Foundation BitcoinMachineCode.Storage

/-! ## Marks -/

/-- Level 1 and level 2 of `g_rm_mark`, and `g_rm_reseed`. -/
structure Marks where
  confirmed : List Txid
  conflicted : List Txid
  reseed : Bool

def Marks.none : Marks := ⟨[], [], false⟩

/-- A confirmed node leaves alone, also where a conflict had marked it. -/
def markConfirmed (pool : Pool) (m : Marks) (txid : Txid) : Marks :=
  if (findNode pool txid).isSome then
    ⟨txid :: m.confirmed, m.conflicted.filter (· ≠ txid), m.reseed || txid ∈ m.conflicted⟩
  else m

/-- The walk down from the nodes on the stack.  Each node is pushed at most once, so
the size of the registry bounds it. -/
def markWalk (pool : Pool) (stack seen : List Txid) : List Txid :=
  (worklist (children pool) pool.length pool.length stack seen).getD seen

/-- `mpol_mark_with_descendants` -/
def markWithDescendants (pool : Pool) (m : Marks) (root : Txid) : Marks :=
  if root ∈ m.conflicted then m
  else
    let marked := m.conflicted ++ [root]
    let stack := if m.reseed then ((pool.map Node.txid).filter (· ∈ marked)).reverse else [root]
    let conflicted := markWalk pool stack marked
    ⟨m.confirmed.filter (· ∉ conflicted), conflicted, false⟩

/-- `parse_tx`, as far as a well-formed transaction can fail it. -/
def parseTx (t : Tx) : Option (List Outpoint) :=
  if t.inputs = [] ∨ mpolMaxIn < t.inputs.length ∨ t.outputs = [] then none else some t.inputs

/-- The claimer of an outpoint the block spends, unless it is the very transaction. -/
def markConflict (pool : Pool) (t : Tx) (m : Marks) (o : Outpoint) : Marks :=
  match findClaim pool o with
  | none => m
  | some claimer => if claimer = t.txid then m else markWithDescendants pool m claimer

def markTx (pool : Pool) (m : Marks) (t : Tx) : Marks :=
  ((parseTx t).getD []).foldl (markConflict pool t) (markConfirmed pool m t.txid)

def Marks.leaves (m : Marks) (txid : Txid) : Bool :=
  txid ∈ m.confirmed || txid ∈ m.conflicted

/-- `mpool_policy_block_connect`; the coinbase is not looked at. -/
def mpoolPolicyBlockConnect (pool : Pool) (block : List Tx) : Pool :=
  let m := block.tail.foldl (markTx pool) Marks.none
  keepNodes pool fun txid => !m.leaves txid

/-! ## Descent -/

/-- The second descends from the first, or is it. -/
def Descends (pool : Pool) : Txid → Txid → Prop :=
  Relation.ReflTransGen fun a b => b ∈ children pool a

theorem Descends.mem_of_closed {pool : Pool} {s : List Txid}
    (hs : ClosedUnder (children pool) s) {a b : Txid} (h : Descends pool a b) (ha : a ∈ s) :
    b ∈ s := by
  induction h with
  | refl => exact ha
  | tail _ hlast ih => exact hs _ ih _ hlast

theorem children_subset_pool {pool : Pool} {a b : Txid} (h : b ∈ children pool a) :
    b ∈ pool.map Node.txid := by
  obtain ⟨n, hn, -, rfl⟩ := mem_children.mp h
  exact List.mem_map_of_mem hn

/-- What the walk finds: it is closed, holds the start, and is reached from it. -/
theorem markWalk_spec {pool : Pool} {stack seen : List Txid}
    (hfront : Frontier (children pool) stack seen) (hseen : ∀ x ∈ seen, x ∈ pool.map Node.txid)
    (hnodup : seen.Nodup) (hlen : stack.length ≤ seen.length) :
    ClosedUnder (children pool) (markWalk pool stack seen) ∧
      (∀ x ∈ seen, x ∈ markWalk pool stack seen) ∧
      (∀ x ∈ markWalk pool stack seen, ∃ a ∈ seen, Descends pool a x) ∧
      (markWalk pool stack seen).Nodup ∧
      ∀ x ∈ markWalk pool stack seen, x ∈ pool.map Node.txid := by
  obtain ⟨found, hfound, hclosed, hsub, hreached, hfoundNodup, hin⟩ :=
    @exists_worklist _ _ (children pool) pool.length pool.length (pool.map Node.txid).toFinset
      (fun a _ b hb => List.mem_toFinset.mpr (children_subset_pool hb))
      ((List.toFinset_card_le _).trans (by rw [List.length_map])) stack seen hfront
      (fun a ha => List.mem_toFinset.mpr (hseen a ha)) hnodup (by omega)
  have heq : markWalk pool stack seen = found := by rw [markWalk, hfound, Option.getD_some]
  rw [heq]
  exact ⟨hclosed, hsub, hreached, hfoundNodup, fun x hx => List.mem_toFinset.mp (hin x hx)⟩

/-! ## What is marked -/

theorem Marks.leaves_iff {m : Marks} {x : Txid} :
    m.leaves x = true ↔ x ∈ m.confirmed ∨ x ∈ m.conflicted := by
  simp [Marks.leaves]

/-- The marks for the confirmed nodes `Conf` and the conflicting ones `Root`.  Level 2
is closed unless a node was taken out of it. -/
structure MarkedFor (pool : Pool) (Conf Root : Txid → Prop) (m : Marks) : Prop where
  nodup : m.conflicted.Nodup
  subset : ∀ x ∈ m.conflicted, x ∈ pool.map Node.txid
  closed : m.reseed = false → ClosedUnder (children pool) m.conflicted
  ofConf : ∀ x ∈ m.confirmed, Conf x
  ofRoot : ∀ x ∈ m.conflicted, ∃ root, Root root ∧ Descends pool root x
  confirmed : ∀ x, Conf x → m.leaves x = true
  conflicts : ∀ root, Root root → ∀ x, Descends pool root x → m.leaves x = true
  settled : ∀ a ∈ m.conflicted, ∀ x, Descends pool a x → m.leaves x = true

namespace MarkedFor

variable {pool : Pool} {Conf Root : Txid → Prop} {m : Marks}

theorem none : MarkedFor pool (fun _ => False) (fun _ => False) Marks.none where
  nodup := List.nodup_nil
  subset _ hx := absurd hx List.not_mem_nil
  closed _ _ hx := absurd hx List.not_mem_nil
  ofConf _ hx := absurd hx List.not_mem_nil
  ofRoot _ hx := absurd hx List.not_mem_nil
  confirmed _ := False.elim
  conflicts _ := False.elim
  settled _ hx := absurd hx List.not_mem_nil

theorem congr (h : MarkedFor pool Conf Root m) {Conf' Root' : Txid → Prop}
    (hconf : ∀ x, Conf x ↔ Conf' x) (hroot : ∀ x, Root x ↔ Root' x) :
    MarkedFor pool Conf' Root' m := by
  obtain rfl : Conf = Conf' := funext fun x => propext (hconf x)
  obtain rfl : Root = Root' := funext fun x => propext (hroot x)
  exact h

theorem markConfirmed (h : MarkedFor pool Conf Root m) (txid : Txid) :
    MarkedFor pool (fun x => Conf x ∨ (x = txid ∧ x ∈ pool.map Node.txid)) Root
      (markConfirmed pool m txid) := by
  unfold Mempool.markConfirmed
  split
  · next hin =>
      have hmem := findNode_isSome.mp hin
      -- who leaves: those who did, and the transaction itself
      have hleaves : ∀ x, Marks.leaves ⟨txid :: m.confirmed, m.conflicted.filter (· ≠ txid),
          m.reseed || txid ∈ m.conflicted⟩ x = true ↔ m.leaves x = true ∨ x = txid := by
        intro x
        rw [Marks.leaves_iff, Marks.leaves_iff, List.mem_cons, List.mem_filter]
        by_cases hx : x = txid
        · simp [hx]
        · simp [hx]
      refine ⟨h.nodup.filter _, fun x hx => h.subset x (List.mem_filter.mp hx).1, ?_, ?_,
        fun x hx => h.ofRoot x (List.mem_filter.mp hx).1, ?_, ?_, ?_⟩
      · intro hreseed
        obtain ⟨hold, hnot⟩ := Bool.or_eq_false_iff.mp hreseed
        have hnot' : txid ∉ m.conflicted := by simpa using hnot
        have hsame : m.conflicted.filter (· ≠ txid) = m.conflicted :=
          List.filter_eq_self.mpr fun x hx =>
            decide_eq_true fun heq => hnot' (heq ▸ hx)
        change ClosedUnder (children pool) (m.conflicted.filter (· ≠ txid))
        rw [hsame]
        exact h.closed hold
      · intro x hx
        rcases List.mem_cons.mp hx with rfl | hx
        · exact .inr ⟨rfl, hmem⟩
        · exact .inl (h.ofConf x hx)
      · rintro x (hc | ⟨rfl, -⟩)
        · exact (hleaves x).mpr (.inl (h.confirmed x hc))
        · exact (hleaves x).mpr (.inr rfl)
      · exact fun root hroot x hx => (hleaves x).mpr (.inl (h.conflicts root hroot x hx))
      · exact fun a ha x hx =>
          (hleaves x).mpr (.inl (h.settled a (List.mem_filter.mp ha).1 x hx))
  · next hout =>
      refine h.congr (fun x => ⟨.inl, ?_⟩) fun _ => Iff.rfl
      rintro (hc | ⟨rfl, hmem⟩)
      · exact hc
      · exact absurd (findNode_isSome.mpr hmem) hout

theorem markWithDescendants (hpool : (pool.map Node.txid).Nodup)
    (h : MarkedFor pool Conf Root m) {root : Txid}
    (hroot : root ∈ pool.map Node.txid) :
    MarkedFor pool Conf (fun x => Root x ∨ x = root) (markWithDescendants pool m root) := by
  unfold Mempool.markWithDescendants
  split
  · next hin =>
      refine ⟨h.nodup, h.subset, h.closed, h.ofConf, fun x hx => ?_, h.confirmed, ?_, h.settled⟩
      · obtain ⟨r, hr, hrx⟩ := h.ofRoot x hx
        exact ⟨r, .inl hr, hrx⟩
      · rintro r (hr | rfl) x hx
        · exact h.conflicts r hr x hx
        · exact h.settled r hin x hx
  · next hout =>
      have hnodup : (m.conflicted ++ [root]).Nodup := by
        refine List.nodup_append.mpr ⟨h.nodup, List.nodup_singleton _, fun a ha b hb hab => ?_⟩
        obtain rfl := List.mem_singleton.mp hb
        exact hout (hab ▸ ha)
      have hsub : ∀ x ∈ m.conflicted ++ [root], x ∈ pool.map Node.txid := by
        intro x hx
        rcases List.mem_append.mp hx with hx | hx
        · exact h.subset x hx
        · obtain rfl := List.mem_singleton.mp hx
          exact hroot
      -- with a reseed everything at level 2 is on the stack, without one the rest is closed
      have hfront : ∀ stack : List Txid, stack = (if m.reseed then
          ((pool.map Node.txid).filter (· ∈ m.conflicted ++ [root])).reverse else [root]) →
          Frontier (children pool) stack (m.conflicted ++ [root]) := by
        rintro stack rfl
        split
        · refine ⟨fun a ha => ?_, fun a ha hnot => absurd ?_ hnot⟩
          · have := (List.mem_filter.mp (List.mem_reverse.mp ha)).2
            exact of_decide_eq_true this
          · exact List.mem_reverse.mpr (List.mem_filter.mpr ⟨hsub a ha, decide_eq_true ha⟩)
        · next hreseed =>
            have hclosed := h.closed (by simpa using hreseed)
            refine ⟨fun a ha => ?_, fun a ha hnot b hb => ?_⟩
            · exact List.mem_append_right _ ha
            · rcases List.mem_append.mp ha with ha | ha
              · exact List.mem_append_left _ (hclosed a ha b hb)
              · exact absurd ha hnot
      have hlen : ∀ stack : List Txid, stack = (if m.reseed then
          ((pool.map Node.txid).filter (· ∈ m.conflicted ++ [root])).reverse else [root]) →
          stack.length ≤ (m.conflicted ++ [root]).length := by
        rintro stack rfl
        split
        · rw [List.length_reverse]
          refine List.Subperm.length_le (List.subperm_of_subset (hpool.filter _) fun a ha => ?_)
          exact of_decide_eq_true (List.mem_filter.mp ha).2
        · rw [List.length_append]
          exact Nat.le_add_left _ _
      obtain ⟨hclosed, hkeeps, hreached, hnodup', hsub'⟩ :=
        markWalk_spec (hfront _ rfl) hsub hnodup (hlen _ rfl)
      simp only
      generalize markWalk pool _ (m.conflicted ++ [root]) = found at hclosed hkeeps hreached hnodup' hsub'
      have hleaves : ∀ x, Marks.leaves ⟨m.confirmed.filter (· ∉ found), found, false⟩ x = true ↔
          m.leaves x = true ∨ x ∈ found := by
        intro x
        rw [Marks.leaves_iff, Marks.leaves_iff, List.mem_filter]
        by_cases hx : x ∈ found
        · simp [hx]
        · have hnot : x ∉ m.conflicted := fun hin => hx (hkeeps x (List.mem_append_left _ hin))
          simp [hx, hnot]
      have hrootIn : root ∈ found := hkeeps root (List.mem_append_right _ List.mem_cons_self)
      refine ⟨hnodup', hsub', fun _ => hclosed,
        fun x hx => h.ofConf x (List.mem_filter.mp hx).1, fun x hx => ?_, ?_, ?_, ?_⟩
      · obtain ⟨a, ha, hax⟩ := hreached x hx
        rcases List.mem_append.mp ha with ha | ha
        · obtain ⟨r, hr, hra⟩ := h.ofRoot a ha
          exact ⟨r, .inl hr, hra.trans hax⟩
        · obtain rfl := List.mem_singleton.mp ha
          exact ⟨a, .inr rfl, hax⟩
      · exact fun x hx => (hleaves x).mpr (.inl (h.confirmed x hx))
      · rintro r (hr | rfl) x hx
        · exact (hleaves x).mpr (.inl (h.conflicts r hr x hx))
        · exact (hleaves x).mpr (.inr (hx.mem_of_closed hclosed hrootIn))
      · exact fun a ha x hx => (hleaves x).mpr (.inr (hx.mem_of_closed hclosed ha))

theorem markConflicts (hpool : (pool.map Node.txid).Nodup) (h : MarkedFor pool Conf Root m)
    (t : Tx) (inputs : List Outpoint) :
    MarkedFor pool Conf
      (fun x => Root x ∨ ∃ o ∈ inputs, findClaim pool o = some x ∧ x ≠ t.txid)
      (inputs.foldl (markConflict pool t) m) := by
  induction inputs generalizing Root m with
  | nil => exact h.congr (fun _ => Iff.rfl) fun x => by simp
  | cons o inputs ih =>
      have hone : MarkedFor pool Conf
          (fun x => Root x ∨ (findClaim pool o = some x ∧ x ≠ t.txid))
          (markConflict pool t m o) := by
        unfold markConflict
        cases hclaim : findClaim pool o with
        | none => exact h.congr (fun _ => Iff.rfl) fun x => by simp
        | some claimer =>
            have hin : claimer ∈ pool.map Node.txid := by
              obtain ⟨n, hn, rfl, -⟩ := exists_of_findClaim hclaim
              exact List.mem_map_of_mem hn
            simp only
            split
            · next hself =>
                refine h.congr (fun _ => Iff.rfl) fun x => ⟨.inl, ?_⟩
                rintro (hr | ⟨hx, hne⟩)
                · exact hr
                · exact absurd ((Option.some.inj hx).symm.trans hself) hne
            · next hother =>
                refine (h.markWithDescendants hpool hin).congr (fun _ => Iff.rfl) fun x => ?_
                constructor
                · rintro (hr | rfl)
                  · exact .inl hr
                  · exact .inr ⟨rfl, hother⟩
                · rintro (hr | ⟨hx, -⟩)
                  · exact .inl hr
                  · exact .inr (Option.some.inj hx).symm
      refine (ih hone).congr (fun _ => Iff.rfl) fun x => ?_
      simp only [List.exists_mem_cons_iff, or_assoc]

end MarkedFor

/-- The entries that claim an outpoint of a transaction whose inputs could be read. -/
def FoundConflict (pool : Pool) (block : List Tx) (x : Txid) : Prop :=
  ∃ t ∈ block, ∃ o ∈ (parseTx t).getD [], findClaim pool o = some x ∧ x ≠ t.txid

theorem markedFor_block {pool : Pool} (hpool : (pool.map Node.txid).Nodup) (block : List Tx) :
    MarkedFor pool (fun x => (∃ t ∈ block, t.txid = x) ∧ x ∈ pool.map Node.txid)
      (FoundConflict pool block) (block.foldl (markTx pool) Marks.none) := by
  induction block using List.reverseRecOn with
  | nil => exact MarkedFor.none.congr (fun x => by simp) fun x => by simp [FoundConflict]
  | append_singleton block t ih =>
      rw [List.foldl_append, List.foldl_cons, List.foldl_nil]
      refine ((ih.markConfirmed t.txid).markConflicts hpool t ((parseTx t).getD [])).congr
        (fun x => ?_) fun x => ?_
      · constructor
        · rintro (⟨⟨t', ht', rfl⟩, hx⟩ | ⟨rfl, hx⟩)
          · exact ⟨⟨t', List.mem_append_left _ ht', rfl⟩, hx⟩
          · exact ⟨⟨t, List.mem_append_right _ List.mem_cons_self, rfl⟩, hx⟩
        · rintro ⟨⟨t', ht', rfl⟩, hx⟩
          rcases List.mem_append.mp ht' with ht' | ht'
          · exact .inl ⟨⟨t', ht', rfl⟩, hx⟩
          · obtain rfl := List.mem_singleton.mp ht'
            exact .inr ⟨rfl, hx⟩
      · constructor
        · rintro (⟨t', ht', hfound⟩ | hfound)
          · exact ⟨t', List.mem_append_left _ ht', hfound⟩
          · exact ⟨t, List.mem_append_right _ List.mem_cons_self, hfound⟩
        · rintro ⟨t', ht', hfound⟩
          rcases List.mem_append.mp ht' with ht' | ht'
          · exact .inl ⟨t', ht', hfound⟩
          · obtain rfl := List.mem_singleton.mp ht'
            exact .inr hfound

/-- Who survives: those that are not in the block and descend from no conflict found. -/
theorem mem_mpoolPolicyBlockConnect {pool : Pool} (hpool : (pool.map Node.txid).Nodup)
    {block : List Tx} {x : Txid} :
    x ∈ (mpoolPolicyBlockConnect pool block).map Node.txid ↔
      x ∈ pool.map Node.txid ∧ (∀ t ∈ block.tail, t.txid ≠ x) ∧
        ∀ root, FoundConflict pool block.tail root → ¬ Descends pool root x := by
  have hmarked := markedFor_block hpool block.tail
  generalize hm : block.tail.foldl (markTx pool) Marks.none = m at hmarked
  have hkeep : x ∈ (mpoolPolicyBlockConnect pool block).map Node.txid ↔
      x ∈ pool.map Node.txid ∧ ¬ m.leaves x = true := by
    unfold mpoolPolicyBlockConnect
    simp only [hm, keepNodes, List.map_map, List.mem_map, List.mem_filter, Function.comp_def,
      Bool.not_eq_true', Bool.not_eq_true]
    constructor
    · rintro ⟨n, ⟨hn, hstay⟩, rfl⟩
      exact ⟨⟨n, hn, rfl⟩, hstay⟩
    · rintro ⟨⟨n, hn, rfl⟩, hstay⟩
      exact ⟨n, ⟨hn, hstay⟩, rfl⟩
  rw [hkeep]
  refine and_congr_right fun hx => ⟨fun hstay => ⟨?_, ?_⟩, ?_⟩
  · exact fun t ht heq => hstay (hmarked.confirmed x ⟨⟨t, ht, heq⟩, hx⟩)
  · exact fun root hroot hdesc => hstay (hmarked.conflicts root hroot x hdesc)
  · rintro ⟨hblock, hroots⟩ hleave
    rcases Marks.leaves_iff.mp hleave with hc | hc
    · obtain ⟨⟨t, ht, heq⟩, -⟩ := hmarked.ofConf x hc
      exact hblock t ht heq
    · obtain ⟨root, hroot, hdesc⟩ := hmarked.ofRoot x hc
      exact hroots root hroot hdesc

/-! ## Reachable pools -/

/-- The pools that offers under any policy and any coins, package removals, single
removals and block connections lead to. -/
inductive PoolReach : Pool → Prop where
  | empty : PoolReach []
  | add {pool : Pool} {σ : Type} (P : Policy σ) (coins : Outpoint → Option UInt64) (m : σ)
      (r : Rtx) : PoolReach pool → PoolReach (mpolAddCore P coins m pool r).2
  | removePackage {pool : Pool} (txid : Txid) :
      PoolReach pool → PoolReach (Mempool.removePackage pool txid)
  | removeConfirmed {pool : Pool} (txid : Txid) :
      PoolReach pool → PoolReach (removeNode pool txid)
  | blockConnect {pool : Pool} (block : List Tx) :
      PoolReach pool → PoolReach (mpoolPolicyBlockConnect pool block)

theorem PoolReach.coherent {pool : Pool} (h : PoolReach pool) : Coherent anyChain pool := by
  induction h with
  | empty => exact Coherent.nil _
  | add P coins m r _ ih => exact coherent_mpolAddCore P m (fun _ _ => rfl) ih nofun
  | removePackage txid _ ih => exact (kept_removePackage ih txid).coherent _ ih
  | removeConfirmed txid _ ih => exact coherent_keepNodes ih _
  | blockConnect block _ ih => exact coherent_keepNodes ih _

/-! ## The block's conflicts -/

/-- What a valid block is to the pool: its transactions have inputs and outputs, spend
every outpoint once, and are the pool's where the id is the same. -/
structure ConnectedBlock (pool : Pool) (block : List Tx) : Prop where
  shaped : ∀ t ∈ block.tail, t.inputs ≠ [] ∧ t.outputs ≠ []
  once : ∀ t ∈ block.tail, ∀ t' ∈ block.tail, t.txid ≠ t'.txid → ∀ o ∈ t.inputs, o ∉ t'.inputs
  same : ∀ n ∈ pool, ∀ t ∈ block.tail, n.txid = t.txid → n.inputs = t.inputs

/-- The entry is not of the block, and spends what one of these transactions spends. -/
def ConflictsWith (block txs : List Tx) (n : Node) : Prop :=
  (∀ t ∈ block.tail, t.txid ≠ n.txid) ∧ ∃ t ∈ txs, ∃ o ∈ t.inputs, o ∈ n.inputs

/-- The pool holds the entries that are not in the block, spend nothing it spends and
descend from no entry that conflicts with it. -/
structure Reconciled (pool : Pool) (block : List Tx) (pool' : Pool) : Prop where
  survivors : ∀ n ∈ pool, n.txid ∈ pool'.map Node.txid ↔
    (∀ t ∈ block.tail, t.txid ≠ n.txid) ∧ (∀ t ∈ block.tail, ∀ o ∈ t.inputs, o ∉ n.inputs) ∧
      ∀ n' ∈ pool, ConflictsWith block block.tail n' → ¬ Descends pool n'.txid n.txid
  former : ∀ n' ∈ pool', ∃ n ∈ pool, n.rtx = n'.rtx
  unspent : ∀ n ∈ pool', ∀ t ∈ block.tail, ∀ o ∈ t.inputs, o ∉ n.inputs

/-- The transactions whose inputs `parse_tx` has room for. -/
def readableTxs (block : List Tx) : List Tx :=
  block.tail.filter fun t => t.inputs.length ≤ mpolMaxIn

theorem foundConflict_iff {pool : Pool} {block : List Tx} (h : Coherent anyChain pool)
    (hb : ConnectedBlock pool block) {x : Txid} :
    FoundConflict pool block.tail x ↔
      ∃ n ∈ pool, n.txid = x ∧ ConflictsWith block (readableTxs block) n := by
  constructor
  · rintro ⟨t, ht, o, ho, hclaim, hne⟩
    obtain ⟨n, hn, rfl, hon⟩ := exists_of_findClaim hclaim
    have hread : t.inputs.length ≤ mpolMaxIn ∧ o ∈ t.inputs := by
      unfold parseTx at ho
      split at ho
      · cases ho
      · next hok => exact ⟨by omega, ho⟩
    refine ⟨n, hn, rfl, fun t' ht' heq => ?_, t,
      List.mem_filter.mpr ⟨ht, decide_eq_true hread.1⟩, o, hread.2, hon⟩
    -- an entry of the block shares no outpoint with another transaction of it
    rw [hb.same n hn t' ht' heq.symm] at hon
    exact hb.once t ht t' ht' (fun hsame => hne (heq ▸ hsame.symm)) o hread.2 hon
  · rintro ⟨n, hn, rfl, hout, t, ht, o, ho, hon⟩
    obtain ⟨htail, hlen⟩ := List.mem_filter.mp ht
    have hparse : parseTx t = some t.inputs := by
      obtain ⟨hin, hout⟩ := hb.shaped t htail
      rw [parseTx, if_neg]
      rintro (hnil | hbig | hnil)
      · exact hin hnil
      · exact absurd (of_decide_eq_true hlen) (by omega)
      · exact hout hnil
    refine ⟨t, htail, o, by rw [hparse]; exact ho, findClaim_eq_some h hn hon, ?_⟩
    exact fun heq => hout t htail heq.symm

theorem former_mpoolPolicyBlockConnect {pool : Pool} {block : List Tx} {n' : Node}
    (h : n' ∈ mpoolPolicyBlockConnect pool block) : ∃ n ∈ pool, n.rtx = n'.rtx := by
  obtain ⟨n, hn, -, rfl⟩ := mem_keepNodes.mp h
  exact ⟨n, hn, rfl⟩

/-- The pool is reconciled exactly when every conflict can be read off a transaction
`parse_tx` takes, or descends from one that can. -/
theorem mpoolPolicyBlockConnect_reconciled_iff {pool : Pool} {block : List Tx}
    (h : PoolReach pool) (hb : ConnectedBlock pool block) :
    Reconciled pool block (mpoolPolicyBlockConnect pool block) ↔
      ∀ n ∈ pool, ConflictsWith block block.tail n →
        ∃ n' ∈ pool, ConflictsWith block (readableTxs block) n' ∧
          Descends pool n'.txid n.txid := by
  have hcoh := h.coherent
  have hmem : ∀ n ∈ pool, n.txid ∈ (mpoolPolicyBlockConnect pool block).map Node.txid ↔
      (∀ t ∈ block.tail, t.txid ≠ n.txid) ∧ ∀ n' ∈ pool,
        ConflictsWith block (readableTxs block) n' → ¬ Descends pool n'.txid n.txid := by
    intro n hn
    rw [mem_mpoolPolicyBlockConnect hcoh.nodup, and_iff_right (List.mem_map_of_mem hn)]
    refine and_congr_right fun _ => ⟨fun hroots n' hn' hconf => ?_, fun hroots root hroot => ?_⟩
    · exact hroots n'.txid ((foundConflict_iff hcoh hb).mpr ⟨n', hn', rfl, hconf⟩)
    · obtain ⟨n', hn', rfl, hconf⟩ := (foundConflict_iff hcoh hb).mp hroot
      exact hroots n' hn' hconf
  constructor
  · intro hrec n hn hconf
    by_contra hnone
    push Not at hnone
    exact ((hrec.survivors n hn).mp ((hmem n hn).mpr ⟨hconf.1, hnone⟩)).2.2 n hn hconf .refl
  · intro hread
    have hsurvive : ∀ n ∈ pool, n.txid ∈ (mpoolPolicyBlockConnect pool block).map Node.txid →
        ∀ n' ∈ pool, ConflictsWith block block.tail n' → ¬ Descends pool n'.txid n.txid := by
      intro n hn hstay n' hn' hconf hdesc
      obtain ⟨n'', hn'', hconf', hdesc'⟩ := hread n' hn' hconf
      exact ((hmem n hn).mp hstay).2 n'' hn'' hconf' (hdesc'.trans hdesc)
    have hspends : ∀ n ∈ pool, n.txid ∈ (mpoolPolicyBlockConnect pool block).map Node.txid →
        ∀ t ∈ block.tail, ∀ o ∈ t.inputs, o ∉ n.inputs := by
      intro n hn hstay t ht o ho hon
      exact hsurvive n hn hstay n hn ⟨((hmem n hn).mp hstay).1, t, ht, o, ho, hon⟩ .refl
    refine ⟨fun n hn => ⟨fun hstay => ?_, ?_⟩, fun n' hn' => former_mpoolPolicyBlockConnect hn',
      fun n' hn' => ?_⟩
    · exact ⟨((hmem n hn).mp hstay).1, hspends n hn hstay, hsurvive n hn hstay⟩
    · rintro ⟨hout, -, hdesc⟩
      refine (hmem n hn).mpr ⟨hout, fun n' hn' hconf => hdesc n' hn' ⟨hconf.1, ?_⟩⟩
      obtain ⟨t, ht, hshared⟩ := hconf.2
      exact ⟨t, (List.mem_filter.mp ht).1, hshared⟩
    · obtain ⟨n, hn, hr⟩ := former_mpoolPolicyBlockConnect hn'
      have htxid : n'.txid = n.txid := by rw [Node.txid, Node.txid, hr]
      rw [Node.inputs, ← hr]
      exact hspends n hn (htxid ▸ List.mem_map_of_mem hn')

/-! A pool of one entry, and a block that spends its coin with `n` others. -/

def loneNode : Node := ⟨sampleRtx 3 [⟨sampleTxid 1, 0⟩] [999000], []⟩

def spenderInputs (n : Nat) : List Outpoint :=
  (List.range (n + 1)).map fun i => ⟨sampleTxid 1, UInt32.ofNat i⟩

def spenderBlock (n : Nat) : List Tx :=
  [⟨sampleTxid 2, [nullOutpoint], []⟩, ⟨sampleTxid 5, spenderInputs n, [⟨1, []⟩]⟩]

theorem poolReach_loneNode : PoolReach [loneNode] := by
  have hadd : (mpolAddCore samplePolicy sampleChain.coins () [] loneNode.rtx).2 = [loneNode] := rfl
  exact hadd ▸ PoolReach.empty.add samplePolicy sampleChain.coins () loneNode.rtx

theorem mem_spenderInputs (n : Nat) : ⟨sampleTxid 1, 0⟩ ∈ spenderInputs n :=
  List.mem_map.mpr ⟨0, List.mem_range.mpr (Nat.succ_pos n), rfl⟩

theorem loneNode_not_in_block (n : Nat) :
    ∀ t ∈ (spenderBlock n).tail, t.txid ≠ loneNode.txid := by
  intro t ht
  obtain rfl := List.mem_singleton.mp ht
  exact (by decide : sampleTxid 5 ≠ sampleTxid 3)

theorem connectedBlock_spender (n : Nat) : ConnectedBlock [loneNode] (spenderBlock n) where
  shaped t ht := by
    obtain rfl := List.mem_singleton.mp ht
    exact ⟨List.ne_nil_of_mem (mem_spenderInputs n), by simp⟩
  once t ht t' ht' hne := by
    obtain rfl := List.mem_singleton.mp ht
    obtain rfl := List.mem_singleton.mp ht'
    exact absurd rfl hne
  same n' hn' t ht heq := by
    obtain rfl := List.mem_singleton.mp hn'
    exact absurd heq.symm (loneNode_not_in_block n t ht)

theorem conflictsWith_spender {n : Nat} {txs : List Tx}
    (htxs : ⟨sampleTxid 5, spenderInputs n, [⟨1, []⟩]⟩ ∈ txs) :
    ConflictsWith (spenderBlock n) txs loneNode :=
  ⟨loneNode_not_in_block n, _, htxs, _, mem_spenderInputs n, List.mem_cons_self⟩

theorem mpoolPolicyBlockConnect_reconciled_spender :
    Reconciled [loneNode] (spenderBlock 1) (mpoolPolicyBlockConnect [loneNode] (spenderBlock 1)) := by
  refine (mpoolPolicyBlockConnect_reconciled_iff poolReach_loneNode
    (connectedBlock_spender 1)).mpr fun n hn hconf => ?_
  obtain rfl := List.mem_singleton.mp hn
  refine ⟨loneNode, hn, conflictsWith_spender ?_, .refl⟩
  exact List.mem_filter.mpr ⟨List.mem_cons_self, rfl⟩

theorem parseTx_spender {n : Nat} (h : mpolMaxIn ≤ n) :
    parseTx ⟨sampleTxid 5, spenderInputs n, [⟨1, []⟩]⟩ = none := by
  have hlen : (spenderInputs n).length = n + 1 := by
    rw [spenderInputs, List.length_map, List.length_range]
  rw [parseTx, if_pos]
  right
  left
  rw [hlen]
  omega

theorem loneNode_survives {n : Nat} (h : mpolMaxIn ≤ n) :
    loneNode.txid ∈ (mpoolPolicyBlockConnect [loneNode] (spenderBlock n)).map Node.txid := by
  refine (mem_mpoolPolicyBlockConnect poolReach_loneNode.coherent.nodup).mpr
    ⟨List.mem_cons_self, loneNode_not_in_block n, ?_⟩
  rintro root ⟨t, ht, o, ho, -⟩
  obtain rfl := List.mem_singleton.mp ht
  rw [parseTx_spender h] at ho
  cases ho

theorem not_reconciled_spender {n : Nat} (h : mpolMaxIn ≤ n) :
    ¬ Reconciled [loneNode] (spenderBlock n)
      (mpoolPolicyBlockConnect [loneNode] (spenderBlock n)) := by
  intro hrec
  obtain ⟨-, hspends, -⟩ := (hrec.survivors loneNode List.mem_cons_self).mp (loneNode_survives h)
  exact hspends _ List.mem_cons_self _ (mem_spenderInputs n) List.mem_cons_self

/-- With 2049 inputs the conflict is not seen. -/
theorem not_reconciled_of_large :
    ¬ ∀ (pool : Pool) (block : List Tx), PoolReach pool → ConnectedBlock pool block →
      Reconciled pool block (mpoolPolicyBlockConnect pool block) := by
  intro hclaim
  exact not_reconciled_spender (Nat.le_refl mpolMaxIn)
    (hclaim _ _ poolReach_loneNode (connectedBlock_spender mpolMaxIn))

end BitcoinMachineCode.Mempool
