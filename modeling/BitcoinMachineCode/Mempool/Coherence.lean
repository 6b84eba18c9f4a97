import BitcoinMachineCode.Mempool.Admission

/-!
# The pool against the chain

What admission keeps true of the pool, whatever the policy answers: every input is
a coin or the output of a linked parent, no two nodes spend one outpoint, nothing
confirmed is in the pool, and no descendant walk runs into its bound.
-/

namespace BitcoinMachineCode.Mempool

open BitcoinMachineCode.Foundation BitcoinMachineCode.Storage

/-- The chain admission runs against: its transactions and its coin set.  What one
of them spends is no coin, and was created on the same chain. -/
structure NewChain where
  confirmed : List Tx
  coins : Outpoint → Option UInt64
  spent : ∀ t ∈ confirmed, ∀ o ∈ t.inputs, coins o = none
  parented : ∀ t ∈ confirmed, t.inputs ≠ [nullOutpoint] → ∀ o ∈ t.inputs,
    ∃ p ∈ confirmed, p.txid = o.txid

structure Coherent (c : NewChain) (pool : Pool) : Prop where
  nodup : (pool.map Node.txid).Nodup
  resolved : ∀ n ∈ pool, ∀ o ∈ n.inputs, (c.coins o).isSome ∨
    ∃ p ∈ pool, p.txid = o.txid ∧ o.index.toNat < p.rtx.tx.outputs.length ∧ p.txid ∈ n.parents
  exclusive : ∀ n ∈ pool, ∀ n' ∈ pool, n.txid ≠ n'.txid → ∀ o ∈ n.inputs, o ∉ n'.inputs
  unconfirmed : ∀ n ∈ pool, ∀ t ∈ c.confirmed, n.txid ≠ t.txid
  linked : ∀ n ∈ pool, ∀ p ∈ n.parents, p ∈ pool.map Node.txid
  irreflexive : ∀ n ∈ pool, n.txid ∉ n.parents
  /-- one more than the walk of the cluster may find -/
  bounded : ∀ n ∈ pool, ∃ s : Finset Txid, n.txid ∈ s ∧ s.card ≤ clusterLimit + 1 ∧
    ∀ a ∈ s, ∀ b ∈ children pool a, b ∈ s

theorem Coherent.nil (c : NewChain) : Coherent c [] :=
  ⟨List.nodup_nil, nofun, nofun, nofun, nofun, nofun, nofun⟩

/-! ## Removals -/

def keepNodes (pool : Pool) (keep : Txid → Bool) : Pool :=
  (pool.filter (keep ·.txid)).map fun n => { n with parents := n.parents.filter keep }

theorem keepNodes_keepNodes (pool : Pool) (keep keep' : Txid → Bool) :
    keepNodes (keepNodes pool keep) keep' = keepNodes pool fun x => keep x && keep' x := by
  simp only [keepNodes, List.filter_map, List.map_map, List.filter_filter, Function.comp_def,
    Node.txid, Bool.and_comm]

theorem keepNodes_all (pool : Pool) : keepNodes pool (fun _ => true) = pool := by
  simp [keepNodes]

theorem removeNode_eq (pool : Pool) (txid : Txid) :
    removeNode pool txid = keepNodes pool (· ≠ txid) := rfl

theorem removeNodes_eq (pool : Pool) (txids : List Txid) :
    removeNodes pool txids = keepNodes pool (· ∉ txids) := by
  induction txids generalizing pool with
  | nil =>
      simp only [removeNodes, List.foldl_nil, List.not_mem_nil, not_false_eq_true, decide_true]
      exact (keepNodes_all pool).symm
  | cons x xs ih =>
      change removeNodes (removeNode pool x) xs = _
      rw [ih, removeNode_eq, keepNodes_keepNodes]
      congr 1
      funext y
      simp [List.mem_cons, not_or]

theorem mem_keepNodes {pool : Pool} {keep : Txid → Bool} {n : Node} :
    n ∈ keepNodes pool keep ↔
      ∃ n₀ ∈ pool, keep n₀.txid ∧ n = { n₀ with parents := n₀.parents.filter keep } := by
  simp only [keepNodes, List.mem_map, List.mem_filter, and_assoc]
  constructor
  · rintro ⟨n₀, hmem, hkeep, rfl⟩
    exact ⟨n₀, hmem, hkeep, rfl⟩
  · rintro ⟨n₀, hmem, hkeep, rfl⟩
    exact ⟨n₀, hmem, hkeep, rfl⟩

/-- What is left of a pool: its nodes, with fewer links, and coherent if it was. -/
structure Kept (pool pool' : Pool) : Prop where
  node : ∀ n' ∈ pool', ∃ n ∈ pool, n.rtx = n'.rtx ∧ ∀ p ∈ n'.parents, p ∈ n.parents
  coherent : ∀ c, Coherent c pool → Coherent c pool'

theorem Kept.refl (pool : Pool) : Kept pool pool :=
  ⟨fun n hn => ⟨n, hn, rfl, fun _ hp => hp⟩, fun _ h => h⟩

theorem Kept.trans {a b d : Pool} (h : Kept a b) (h' : Kept b d) : Kept a d where
  node n'' hn'' := by
    obtain ⟨n', hn', hr', hp'⟩ := h'.node n'' hn''
    obtain ⟨n, hn, hr, hp⟩ := h.node n' hn'
    exact ⟨n, hn, hr.trans hr', fun p hmem => hp p (hp' p hmem)⟩
  coherent c hc := h'.coherent c (h.coherent c hc)

theorem Kept.txid_mem {pool pool' : Pool} (h : Kept pool pool') {x : Txid}
    (hx : x ∈ pool'.map Node.txid) : x ∈ pool.map Node.txid := by
  obtain ⟨n', hn', rfl⟩ := List.mem_map.mp hx
  obtain ⟨n, hn, hr, -⟩ := h.node n' hn'
  exact List.mem_map.mpr ⟨n, hn, by rw [Node.txid, Node.txid, hr]⟩

theorem Kept.children_subset {pool pool' : Pool} (h : Kept pool pool') {a b : Txid}
    (hb : b ∈ children pool' a) : b ∈ children pool a := by
  obtain ⟨n', hn', hpar, rfl⟩ := mem_children.mp hb
  obtain ⟨n, hn, hr, hp⟩ := h.node n' hn'
  exact mem_children.mpr ⟨n, hn, hp a hpar, by rw [Node.txid, Node.txid, hr]⟩

/-- Removing a set that takes the children with their parents. -/
theorem kept_of_closed {pool : Pool} {gone : List Txid}
    (hgone : ClosedUnder (children pool) gone) : Kept pool (keepNodes pool (· ∉ gone)) := by
  have hnode : ∀ n' ∈ keepNodes pool (· ∉ gone), ∃ n ∈ pool, n.txid ∉ gone ∧
      n' = { n with parents := n.parents.filter (· ∉ gone) } := by
    intro n' hn'
    obtain ⟨n, hn, hkeep, heq⟩ := mem_keepNodes.mp hn'
    exact ⟨n, hn, by simpa using hkeep, heq⟩
  have hstay : ∀ n ∈ pool, n.txid ∉ gone →
      { n with parents := n.parents.filter (· ∉ gone) } ∈ keepNodes pool (· ∉ gone) :=
    fun n hn hkeep => mem_keepNodes.mpr ⟨n, hn, by simpa using hkeep, rfl⟩
  -- a node that stays keeps its parents
  have hparents : ∀ n ∈ pool, n.txid ∉ gone → ∀ p ∈ n.parents, p ∉ gone :=
    fun n hn hkeep p hp hmem => hkeep (hgone p hmem n.txid (mem_children.mpr ⟨n, hn, hp, rfl⟩))
  have hkept : ∀ n' ∈ keepNodes pool (· ∉ gone), ∃ n ∈ pool, n.rtx = n'.rtx ∧
      ∀ p ∈ n'.parents, p ∈ n.parents := by
    intro n' hn'
    obtain ⟨n, hn, -, rfl⟩ := hnode n' hn'
    exact ⟨n, hn, rfl, fun p hp => (List.mem_filter.mp hp).1⟩
  refine ⟨hkept, fun c h => ⟨?_, ?_, ?_, ?_, ?_, ?_, ?_⟩⟩
  · have hsub : (keepNodes pool (· ∉ gone)).map Node.txid =
        (pool.filter (fun n => decide (n.txid ∉ gone))).map Node.txid := by
      simp [keepNodes, Function.comp_def, Node.txid]
    rw [hsub]
    exact h.nodup.sublist (List.filter_sublist.map _)
  · intro n' hn' o ho
    obtain ⟨n, hn, hkeep, rfl⟩ := hnode n' hn'
    rcases h.resolved n hn o ho with hcoin | ⟨p, hp, htxid, hindex, hlink⟩
    · exact .inl hcoin
    · have hstays := hparents n hn hkeep p.txid hlink
      exact .inr ⟨_, hstay p hp hstays, htxid, hindex,
        List.mem_filter.mpr ⟨hlink, decide_eq_true hstays⟩⟩
  · intro n hn n' hn' hne
    obtain ⟨m, hm, -, rfl⟩ := hnode n hn
    obtain ⟨m', hm', -, rfl⟩ := hnode n' hn'
    exact h.exclusive m hm m' hm' hne
  · intro n hn
    obtain ⟨m, hm, -, rfl⟩ := hnode n hn
    exact h.unconfirmed m hm
  · intro n hn p hp
    obtain ⟨m, hm, hkeep, rfl⟩ := hnode n hn
    obtain ⟨hlink, -⟩ := List.mem_filter.mp hp
    obtain ⟨q, hq, rfl⟩ := List.mem_map.mp (h.linked m hm p hlink)
    exact List.mem_map.mpr ⟨_, hstay q hq (hparents m hm hkeep q.txid hlink), rfl⟩
  · intro n hn hself
    obtain ⟨m, hm, -, rfl⟩ := hnode n hn
    exact h.irreflexive m hm (List.mem_filter.mp hself).1
  · intro n hn
    obtain ⟨m, hm, -, rfl⟩ := hnode n hn
    obtain ⟨s, hmem, hcard, hclosed⟩ := h.bounded m hm
    refine ⟨s, hmem, hcard, fun a ha b hb => hclosed a ha b ?_⟩
    obtain ⟨n', hn', hpar, rfl⟩ := mem_children.mp hb
    obtain ⟨m', hm', hr, hp⟩ := hkept n' hn'
    exact mem_children.mpr ⟨m', hm', hp a hpar, by rw [Node.txid, Node.txid, hr]⟩

theorem kept_removeNodes {pool : Pool} {evict : List Txid}
    (h : ClosedUnder (children pool) evict) : Kept pool (removeNodes pool evict) :=
  removeNodes_eq pool evict ▸ kept_of_closed h

theorem not_mem_removeNodes {pool : Pool} {evict : List Txid} {x : Txid} (hx : x ∈ evict) :
    x ∉ (removeNodes pool evict).map Node.txid := by
  rw [removeNodes_eq]
  intro hmem
  obtain ⟨n', hn', rfl⟩ := List.mem_map.mp hmem
  obtain ⟨n, -, hkeep, rfl⟩ := mem_keepNodes.mp hn'
  exact (of_decide_eq_true hkeep) hx

/-- The descendant walk of a coherent pool stays within its bound, so a package leaves
whole. -/
theorem Coherent.exists_descendants {c : NewChain} {pool : Pool} (h : Coherent c pool) {n : Node}
    (hn : n ∈ pool) : ∃ ds, collectDescendantTxids pool n.txid = some ds := by
  obtain ⟨s, hs, hcard, hclosed⟩ := h.bounded n hn
  have hsome : (search (children pool) mpolPkgMax [n.txid]).isSome = true := by
    refine search_isSome hclosed (hcard.trans (by decide)) ?_ (List.nodup_singleton _)
    intro a ha
    obtain rfl := List.mem_singleton.mp ha
    exact hs
  obtain ⟨found, hfound⟩ := Option.isSome_iff_exists.mp hsome
  refine ⟨found.tail, ?_⟩
  rw [collectDescendantTxids, hfound]
  rfl

theorem kept_removePackage {c : NewChain} {pool : Pool} (h : Coherent c pool) (txid : Txid) :
    Kept pool (removePackage pool txid) := by
  unfold removePackage
  cases hn : findNode pool txid with
  | none => exact Kept.refl pool
  | some n =>
      obtain ⟨hmem, rfl⟩ := findNode_eq_some hn
      obtain ⟨ds, hds⟩ := h.exists_descendants hmem
      have hkept := kept_of_closed (collectDescendantTxids_eq_some hds)
      have heq : removeNode (removeNodes pool ds) n.txid =
          keepNodes pool (· ∉ n.txid :: ds) := by
        rw [removeNode_eq, removeNodes_eq, keepNodes_keepNodes]
        congr 1
        funext y
        simp [List.mem_cons, not_or, Bool.and_comm]
      rw [hds]
      change Kept pool (removeNode (removeNodes pool ds) n.txid)
      rw [heq]
      exact hkept

theorem kept_removePackages {c : NewChain} {pool : Pool} (h : Coherent c pool)
    (txids : List Txid) : Kept pool (txids.foldl removePackage pool) := by
  induction txids generalizing pool with
  | nil => exact Kept.refl pool
  | cons x xs ih =>
      have hfirst := kept_removePackage h x
      exact hfirst.trans (ih (hfirst.coherent c h))

/-! ## What the checks establish -/

/-- What is known of a transaction the checks let through. -/
structure Admitted (c : NewChain) (pool : Pool) (r : Rtx) (evict : List Txid) : Prop where
  inputs_ne : r.tx.inputs ≠ []
  head_ne : r.tx.inputs.head? ≠ some nullOutpoint
  fresh : r.tx.txid ∉ pool.map Node.txid
  resolved : ∀ o ∈ r.tx.inputs, (findOutreg pool o).isSome ∨ (c.coins o).isSome
  conflicting : ∀ n ∈ pool, ∀ o ∈ n.inputs, o ∈ r.tx.inputs → n.txid ∈ evict
  closed : ClosedUnder (children pool) evict
  cluster : ∃ cluster : List Txid, cluster.length ≤ clusterLimit ∧
    (∀ p ∈ collectParents pool r.tx.inputs, p ∉ evict → p ∈ cluster) ∧
    ClosedUnder (neighbours pool evict) cluster

theorem findClaim_eq_some {c : NewChain} {pool : Pool} (h : Coherent c pool) {n : Node}
    (hn : n ∈ pool) {o : Outpoint} (ho : o ∈ n.inputs) : findClaim pool o = some n.txid := by
  unfold findClaim
  cases hfind : pool.find? (o ∈ ·.inputs) with
  | none => exact absurd ho (by simpa using List.find?_eq_none.mp hfind n hn)
  | some n' =>
      have hn' := List.mem_of_find?_eq_some hfind
      have ho' : o ∈ n'.inputs := by simpa using List.find?_some hfind
      by_contra hne
      exact h.exclusive n hn n' hn' (fun heq => hne (congrArg some heq.symm)) o ho ho'

theorem exists_of_findClaim {pool : Pool} {o : Outpoint} {x : Txid}
    (h : findClaim pool o = some x) : ∃ n ∈ pool, n.txid = x ∧ o ∈ n.inputs := by
  obtain ⟨n, hn, rfl⟩ := Option.map_eq_some_iff.mp h
  exact ⟨n, List.mem_of_find?_eq_some hn, rfl, by simpa using List.find?_some hn⟩

theorem mem_conflicts {c : NewChain} {pool : Pool} (h : Coherent c pool) {inputs : List Outpoint}
    {n : Node} (hn : n ∈ pool) {o : Outpoint} (ho : o ∈ n.inputs) (hin : o ∈ inputs) :
    n.txid ∈ conflicts pool inputs := by
  rw [conflicts, mem_unseen, List.mem_filterMap]
  exact ⟨⟨o, hin, findClaim_eq_some h hn ho⟩, List.not_mem_nil⟩

theorem replacementChecks_ok {σ : Type} {P : Policy σ} {c : NewChain} {m : σ} {pool : Pool}
    {r : Rtx} {evict : List Txid} (h : Coherent c pool)
    (hok : replacementChecks P m pool r = .ok evict) :
    ClosedUnder (children pool) evict ∧
      ∀ n ∈ pool, ∀ o ∈ n.inputs, o ∈ r.tx.inputs → n.txid ∈ evict := by
  unfold replacementChecks at hok
  cases hconf : conflicts pool r.tx.inputs with
  | nil =>
      rw [hconf] at hok
      obtain rfl := Except.ok.inj hok
      refine ⟨fun a ha => absurd ha List.not_mem_nil, fun n hn o ho hin => ?_⟩
      exact hconf ▸ mem_conflicts h hn ho hin
  | cons x xs =>
      simp only [hconf] at hok
      split at hok
      · cases hok
      split at hok
      · cases hok
      next found hfound =>
      split at hok
      · cases hok
      split at hok
      · cases hok
      obtain rfl := Except.ok.inj hok
      obtain ⟨hclosed, hsub⟩ := evictSet_eq_some (fun a ha => absurd ha List.not_mem_nil) hfound
      exact ⟨hclosed, fun n hn o ho hin =>
        hsub _ (.inr (hconf ▸ mem_conflicts h hn ho hin))⟩

theorem clusterChecks_none {σ : Type} {P : Policy σ} {m : σ} {pool : Pool} {r : Rtx}
    {evict : List Txid} (h : clusterChecks P m pool r evict = none) :
    ∃ cluster : List Txid, cluster.length ≤ clusterLimit ∧
      (∀ p ∈ collectParents pool r.tx.inputs, p ∉ evict → p ∈ cluster) ∧
      ClosedUnder (neighbours pool evict) cluster := by
  unfold clusterChecks at h
  simp only at h
  split at h
  · cases h
  split at h
  · cases h
  split at h
  · cases h
  next cluster hcluster =>
  have hstart := (nodup_collectParents pool r.tx.inputs).filter (fun p => decide (p ∉ evict))
  refine ⟨cluster, (search_nodup hstart hcluster).2, fun p hp hout => ?_, search_closed hcluster⟩
  exact (search_prefixed hcluster).subset
    (List.mem_filter.mpr ⟨hp, decide_eq_true hout⟩)

/-- The sibling has no child: its only parent's one descendant is itself. -/
theorem trucChecks_ok {σ : Type} {P : Policy σ} {c : NewChain} {m : σ} {pool : Pool}
    {r : Rtx} {evict evict' : List Txid} (h : Coherent c pool)
    (hclosed : ClosedUnder (children pool) evict)
    (hok : trucChecks P m pool r evict = .ok evict') :
    ClosedUnder (children pool) evict' ∧ ∀ x ∈ evict, x ∈ evict' := by
  unfold trucChecks at hok
  split at hok
  · obtain rfl := Except.ok.inj hok
    exact ⟨hclosed, fun _ hx => hx⟩
  · cases hok
  split at hok
  · next parent hparents =>
      split at hok
      · cases hok
      next hroot =>
      split at hok
      · next sibling hsibling =>
          split at hok
          · cases hok
          obtain rfl := Except.ok.inj hok
          refine ⟨fun a ha b hb => ?_, fun x hx => List.mem_append_left _ hx⟩
          rcases List.mem_append.mp ha with ha | ha
          · exact List.mem_append_left _ (hclosed a ha b hb)
          obtain rfl := List.mem_singleton.mp ha
          have hmem := collectDescendantTxids_eq_some hsibling a
            (List.mem_cons_of_mem _ List.mem_cons_self) b hb
          rcases List.mem_cons.mp hmem with rfl | hmem
          · -- the parent has no parent in the pool
            obtain ⟨n, hn, hlink, rfl⟩ := mem_children.mp hb
            rw [findNode_of_mem h.nodup hn] at hroot
            have hnone : n.parents = [] := by simpa using hroot
            rw [hnone] at hlink
            exact absurd hlink List.not_mem_nil
          · exact List.mem_append_right _ hmem
      · cases hok
  · cases hok

theorem neighbours_mono {pool : Pool} {evict evict' : List Txid}
    (h : ∀ x ∈ evict, x ∈ evict') {a b : Txid} (hb : b ∈ neighbours pool evict' a) :
    b ∈ neighbours pool evict a := by
  obtain ⟨hmem, hout⟩ := List.mem_filter.mp hb
  exact List.mem_filter.mpr ⟨hmem, decide_eq_true fun hin =>
    (of_decide_eq_true hout) (h b hin)⟩

/-- The stages an admitted transaction has been through. -/
theorem admissionChecks_ok {σ : Type} {P : Policy σ} {coins : Outpoint → Option UInt64} {m : σ}
    {pool : Pool} {r : Rtx} {evict : List Txid}
    (hok : admissionChecks P coins m pool r = .ok evict) :
    r.tx.inputs ≠ [] ∧ r.tx.inputs.head? ≠ some nullOutpoint ∧
      r.tx.txid ∉ pool.map Node.txid ∧
      (∀ o ∈ r.tx.inputs, (findOutreg pool o).isSome ∨ (coins o).isSome) ∧
      ∃ evict₀, replacementChecks P m pool r = .ok evict₀ ∧
        clusterChecks P m pool r evict₀ = none ∧ trucChecks P m pool r evict₀ = .ok evict := by
  unfold admissionChecks at hok
  split at hok
  · cases hok
  next hshape =>
  split at hok
  · cases hok
  next hhead =>
  split at hok
  · cases hok
  split at hok
  · cases hok
  next hfresh =>
  split at hok
  · cases hok
  next sumIn hsum =>
  simp only at hok
  split at hok
  · cases hok
  split at hok
  · cases hok
  refine ⟨fun hnil => hshape (.inl hnil), hhead, fun hmem => hfresh (findNode_isSome.mpr hmem),
    resolveInputs_isSome hsum, ?_⟩
  cases hrep : replacementChecks P m pool r with
  | error reason =>
      rw [hrep] at hok
      cases hok
  | ok evict₀ =>
      simp only [hrep, bind, Except.bind] at hok
      split at hok
      · cases hok
      split at hok
      · cases hok
      next hcluster =>
      cases htruc : trucChecks P m pool r evict₀ with
      | error reason =>
          rw [htruc] at hok
          cases hok
      | ok evict₁ =>
          simp only [htruc] at hok
          split at hok
          · cases hok
          obtain rfl := Except.ok.inj hok
          exact ⟨evict₀, rfl, hcluster, htruc⟩

theorem admitted_of_checks {σ : Type} {P : Policy σ} {c : NewChain} {m : σ} {pool : Pool}
    {r : Rtx} {evict : List Txid} {coins : Outpoint → Option UInt64}
    (hcoins : ∀ o, (coins o).isSome → (c.coins o).isSome) (h : Coherent c pool)
    (hok : admissionChecks P coins m pool r = .ok evict) : Admitted c pool r evict := by
  obtain ⟨hne, hhead, hfresh, hresolved, evict₀, hrep, hcluster, htruc⟩ := admissionChecks_ok hok
  obtain ⟨hclosed, hconf⟩ := replacementChecks_ok h hrep
  obtain ⟨hclosed', hsub⟩ := trucChecks_ok h hclosed htruc
  obtain ⟨cluster, hlen, hstart, hcl⟩ := clusterChecks_none hcluster
  exact {
    inputs_ne := hne
    head_ne := hhead
    fresh := hfresh
    resolved := fun o ho => (hresolved o ho).imp_right (hcoins o)
    conflicting := fun n hn o ho hin => hsub _ (hconf n hn o ho hin)
    closed := hclosed'
    cluster := ⟨cluster, hlen, fun p hp hout => hstart p hp fun hin => hout (hsub p hin),
      fun a ha b hb => hcl a ha b (neighbours_mono hsub hb)⟩ }

/-! ## The newcomer -/

theorem mem_children_append {pool : Pool} {n : Node} {a b : Txid} :
    b ∈ children (pool ++ [n]) a ↔ b ∈ children pool a ∨ (a ∈ n.parents ∧ n.txid = b) := by
  simp [mem_children, or_and_right, exists_or]

section Store

variable {c : NewChain} {pool pool' : Pool} {r : Rtx} {evict : List Txid}

theorem Admitted.parent_of_outreg (hadm : Admitted c pool r evict) {o : Outpoint}
    (ho : o ∈ r.tx.inputs) :
    (c.coins o).isSome ∨ ∃ n ∈ pool, n.txid = o.txid ∧
      o.index.toNat < n.rtx.tx.outputs.length ∧ n.txid ∈ collectParents pool r.tx.inputs := by
  rcases hadm.resolved o ho with hout | hcoin
  · obtain ⟨n, hn, htxid, hindex⟩ := findOutreg_isSome hout
    exact .inr ⟨n, hn, htxid, hindex,
      mem_collectParents.mpr ⟨⟨o, ho, htxid.symm⟩, List.mem_map_of_mem hn⟩⟩
  · exact .inl hcoin

/-- A confirmed transaction is refused: its inputs are spent, and by descent along
the chain nothing of it is in the pool to resolve them. -/
theorem Admitted.unconfirmed (h : Coherent c pool) (hadm : Admitted c pool r evict)
    (hids : ∀ t ∈ c.confirmed, r.tx.txid = t.txid → r.tx.inputs = t.inputs) :
    ∀ t ∈ c.confirmed, r.tx.txid ≠ t.txid := by
  intro t ht heq
  have hin := hids t ht heq
  obtain ⟨o, os, hos⟩ := List.exists_cons_of_ne_nil hadm.inputs_ne
  have ho : o ∈ r.tx.inputs := hos ▸ List.mem_cons_self
  have hnotnull : t.inputs ≠ [nullOutpoint] := by
    intro hnull
    apply hadm.head_ne
    rw [hin, hnull]
    rfl
  rcases hadm.parent_of_outreg ho with hcoin | ⟨n, hn, htxid, -, -⟩
  · rw [c.spent t ht o (hin ▸ ho)] at hcoin
    cases hcoin
  · obtain ⟨p, hp, hpo⟩ := c.parented t ht hnotnull o (hin ▸ ho)
    exact h.unconfirmed n hn p hp (htxid.trans hpo.symm)

theorem Kept.mem_of_txid (hkept : Kept pool pool') (h : (pool.map Node.txid).Nodup) {n : Node}
    (hn : n ∈ pool) (hmem : n.txid ∈ pool'.map Node.txid) :
    ∃ n' ∈ pool', n'.rtx = n.rtx := by
  obtain ⟨n', hn', htxid⟩ := List.mem_map.mp hmem
  obtain ⟨n₀, hn₀, hr, -⟩ := hkept.node n' hn'
  have heq : n₀ = n := node_eq_of_txid_eq h hn₀ hn (by rw [Node.txid, hr]; exact htxid)
  exact ⟨n', hn', by rw [← hr, heq]⟩

/-- The newcomer joins one cluster: the sets of the others lose nothing but what
lies in it. -/
theorem Admitted.bounded (h : Coherent c pool) (hadm : Admitted c pool r evict)
    (hkept : Kept pool pool') (hgone : ∀ x ∈ evict, x ∉ pool'.map Node.txid) :
    ∀ n ∈ pool' ++ [⟨r, collectParents pool' r.tx.inputs⟩],
      ∃ s : Finset Txid, n.txid ∈ s ∧ s.card ≤ clusterLimit + 1 ∧
        ∀ a ∈ s, ∀ b ∈ children (pool' ++ [⟨r, collectParents pool' r.tx.inputs⟩]) a, b ∈ s := by
  obtain ⟨cluster, hlen, hstart, hcluster⟩ := hadm.cluster
  have h' := hkept.coherent c h
  have hfresh : r.tx.txid ∉ pool'.map Node.txid := fun hmem => hadm.fresh (hkept.txid_mem hmem)
  have hstays : ∀ x ∈ pool'.map Node.txid, x ∉ evict := fun x hx hin => hgone x hin hx
  -- the newcomer's links lie in the cluster
  have hlinks : ∀ x ∈ collectParents pool' r.tx.inputs, x ∈ cluster := by
    intro x hx
    obtain ⟨hin, hmem⟩ := mem_collectParents.mp hx
    exact hstart x (mem_collectParents.mpr ⟨hin, hkept.txid_mem hmem⟩) (hstays x hmem)
  -- nothing is linked to the newcomer yet
  have hchildless : ∀ b, b ∉ children pool' r.tx.txid := by
    intro b hb
    obtain ⟨n, hn, hlink, -⟩ := mem_children.mp hb
    exact hfresh (h'.linked n hn _ hlink)
  have hchild : ∀ {a b : Txid}, b ∈ children pool' a → b ∈ pool'.map Node.txid := by
    intro a b hb
    obtain ⟨n, hn, -, rfl⟩ := mem_children.mp hb
    exact List.mem_map_of_mem hn
  have hdown : ∀ a ∈ cluster, ∀ b ∈ children pool' a, b ∈ cluster := by
    intro a ha b hb
    refine hcluster a ha b (List.mem_filter.mpr ⟨List.mem_append_right _ ?_, ?_⟩)
    · exact hkept.children_subset hb
    · exact decide_eq_true (hstays b (hchild hb))
  have hup : ∀ a ∈ pool'.map Node.txid, ∀ b ∈ children pool' a, b ∈ cluster → a ∈ cluster := by
    intro a ha b hb hin
    refine hcluster b hin a (List.mem_filter.mpr ⟨List.mem_append_left _ ?_, ?_⟩)
    · obtain ⟨n, hn, hlink, rfl⟩ := mem_children.mp (hkept.children_subset hb)
      rw [findNode_of_mem h.nodup hn]
      exact hlink
    · exact decide_eq_true (hstays a ha)
  intro n hn
  by_cases hin : n.txid ∈ cluster
  · refine ⟨insert r.tx.txid cluster.toFinset, ?_, ?_, fun a ha b hb => ?_⟩
    · exact Finset.mem_insert_of_mem (List.mem_toFinset.mpr hin)
    · exact (Finset.card_insert_le _ _).trans
        (Nat.succ_le_succ ((List.toFinset_card_le cluster).trans hlen))
    · rw [Finset.mem_insert, List.mem_toFinset] at ha ⊢
      rcases mem_children_append.mp hb with hb | ⟨-, rfl⟩
      · rcases ha with rfl | ha
        · exact absurd hb (hchildless b)
        · exact .inr (hdown a ha b hb)
      · exact .inl rfl
  · rcases List.mem_append.mp hn with hold | hnew
    · obtain ⟨s, hmem, hcard, hclosed⟩ := h'.bounded n hold
      refine ⟨s.filter fun x => x ∉ cluster ∧ x ∈ pool'.map Node.txid, ?_, ?_, ?_⟩
      · exact Finset.mem_filter.mpr ⟨hmem, hin, List.mem_map_of_mem hold⟩
      · exact (Finset.card_filter_le _ _).trans hcard
      · intro a ha b hb
        obtain ⟨has, hout, hpool⟩ := Finset.mem_filter.mp ha
        rcases mem_children_append.mp hb with hb | ⟨hlink, -⟩
        · exact Finset.mem_filter.mpr ⟨hclosed a has b hb,
            fun hbin => hout (hup a hpool b hb hbin), hchild hb⟩
        · exact absurd (hlinks a hlink) hout
    · obtain rfl := List.mem_singleton.mp hnew
      refine ⟨{r.tx.txid}, Finset.mem_singleton_self _, by simp [clusterLimit], ?_⟩
      intro a ha b hb
      obtain rfl := Finset.mem_singleton.mp ha
      rcases mem_children_append.mp hb with hb | ⟨hlink, -⟩
      · exact absurd hb (hchildless b)
      · exact absurd (mem_collectParents.mp hlink).2 hfresh

theorem Coherent.store (h : Coherent c pool) (hadm : Admitted c pool r evict)
    (hids : ∀ t ∈ c.confirmed, r.tx.txid = t.txid → r.tx.inputs = t.inputs)
    (hkept : Kept pool pool') (hgone : ∀ x ∈ evict, x ∉ pool'.map Node.txid)
    (hparents : ∀ x ∈ collectParents pool r.tx.inputs, x ∈ pool'.map Node.txid) :
    Coherent c (pool' ++ [⟨r, collectParents pool' r.tx.inputs⟩]) := by
  have h' := hkept.coherent c h
  have hfresh : r.tx.txid ∉ pool'.map Node.txid := fun hmem => hadm.fresh (hkept.txid_mem hmem)
  have hapart : ∀ n ∈ pool', ∀ o ∈ n.inputs, o ∉ r.tx.inputs := by
    intro n hn o ho hin
    obtain ⟨n₀, hn₀, hr, -⟩ := hkept.node n hn
    have hevict := hadm.conflicting n₀ hn₀ o (by rw [Node.inputs, hr]; exact ho) hin
    exact hgone _ hevict (by rw [Node.txid, hr]; exact List.mem_map_of_mem (f := Node.txid) hn)
  refine ⟨?_, ?_, ?_, ?_, ?_, ?_, hadm.bounded h hkept hgone⟩
  · rw [List.map_append]
    refine List.nodup_append.mpr ⟨h'.nodup, List.nodup_singleton _, fun a ha b hb hab => ?_⟩
    obtain rfl := List.mem_singleton.mp hb
    rw [hab] at ha
    exact hfresh ha
  · intro n hn o ho
    rcases List.mem_append.mp hn with hold | hnew
    · rcases h'.resolved n hold o ho with hcoin | ⟨p, hp, hrest⟩
      · exact .inl hcoin
      · exact .inr ⟨p, List.mem_append_left _ hp, hrest⟩
    · obtain rfl := List.mem_singleton.mp hnew
      rcases hadm.parent_of_outreg ho with hcoin | ⟨p, hp, htxid, hindex, hparent⟩
      · exact .inl hcoin
      · have hstays := hparents p.txid hparent
        obtain ⟨p', hp', hr⟩ := hkept.mem_of_txid h.nodup hp hstays
        have htxid' : p'.txid = p.txid := by rw [Node.txid, Node.txid, hr]
        refine .inr ⟨p', List.mem_append_left _ hp', htxid'.trans htxid, by rw [hr]; exact hindex,
          ?_⟩
        rw [htxid']
        exact mem_collectParents.mpr ⟨(mem_collectParents.mp hparent).1, hstays⟩
  · intro n hn n' hn' hne o ho
    rcases List.mem_append.mp hn with hold | hnew
    · rcases List.mem_append.mp hn' with hold' | hnew'
      · exact h'.exclusive n hold n' hold' hne o ho
      · obtain rfl := List.mem_singleton.mp hnew'
        exact hapart n hold o ho
    · obtain rfl := List.mem_singleton.mp hnew
      rcases List.mem_append.mp hn' with hold' | hnew'
      · exact fun hin => hapart n' hold' o hin ho
      · obtain rfl := List.mem_singleton.mp hnew'
        exact absurd rfl hne
  · intro n hn
    rcases List.mem_append.mp hn with hold | hnew
    · exact h'.unconfirmed n hold
    · obtain rfl := List.mem_singleton.mp hnew
      exact hadm.unconfirmed h hids
  · intro n hn p hp
    rw [List.map_append]
    rcases List.mem_append.mp hn with hold | hnew
    · exact List.mem_append_left _ (h'.linked n hold p hp)
    · obtain rfl := List.mem_singleton.mp hnew
      exact List.mem_append_left _ (mem_collectParents.mp hp).2
  · intro n hn hself
    rcases List.mem_append.mp hn with hold | hnew
    · exact h'.irreflexive n hold hself
    · obtain rfl := List.mem_singleton.mp hnew
      exact hfresh (mem_collectParents.mp hself).2

theorem collectParents_stay {inputs : List Outpoint}
    (hfewer : ∀ x ∈ pool'.map Node.txid, x ∈ pool.map Node.txid)
    (hlen : ¬ (collectParents pool' inputs).length < (collectParents pool inputs).length) :
    ∀ x ∈ collectParents pool inputs, x ∈ collectParents pool' inputs := by
  have hsub : collectParents pool' inputs ⊆ collectParents pool inputs := by
    intro x hx
    obtain ⟨hin, hmem⟩ := mem_collectParents.mp hx
    exact mem_collectParents.mpr ⟨hin, hfewer x hmem⟩
  have hperm := (List.subperm_of_subset (nodup_collectParents pool' inputs) hsub)
    |>.perm_of_length_le (by omega)
  exact fun x hx => hperm.mem_iff.mpr hx

theorem Kept.parents_stay (hkept : Kept pool pool') {inputs : List Outpoint}
    (hlen : ¬ (collectParents pool' inputs).length < (collectParents pool inputs).length) :
    ∀ x ∈ collectParents pool inputs, x ∈ pool'.map Node.txid := fun x hx =>
  (mem_collectParents.mp (collectParents_stay (fun _ => hkept.txid_mem) hlen x hx)).2

/-- The newcomer stored over what is left of the pool, its parents among it. -/
def StoredOver (r : Rtx) (pool final : Pool) : Prop :=
  ∃ pool', Kept pool pool' ∧
    (∀ x ∈ collectParents pool r.tx.inputs, x ∈ pool'.map Node.txid) ∧
    final = pool' ++ [⟨r, collectParents pool' r.tx.inputs⟩]

theorem StoredOver.kept {mid final : Pool} (hkept : Kept pool mid)
    (hparents : ∀ x ∈ collectParents pool r.tx.inputs, x ∈ mid.map Node.txid)
    (h : StoredOver r mid final) : StoredOver r pool final := by
  obtain ⟨pool', hkept', hstay, rfl⟩ := h
  refine ⟨pool', hkept.trans hkept', fun x hx => hstay x ?_, rfl⟩
  exact mem_collectParents.mpr ⟨(mem_collectParents.mp hx).1, hparents x hx⟩

theorem StoredOver.refl (r : Rtx) (pool : Pool) :
    StoredOver r pool (pool ++ [⟨r, collectParents pool r.tx.inputs⟩]) :=
  ⟨pool, Kept.refl pool, fun _ hx => (mem_collectParents.mp hx).2, rfl⟩

theorem storeAndTrim_cases {σ : Type} (P : Policy σ) (m : σ) (fuel : Nat)
    (h : Coherent c pool) :
    (∃ reason, (storeAndTrim P m r fuel pool).1 = some reason ∧
        Kept pool (storeAndTrim P m r fuel pool).2) ∨
      ((storeAndTrim P m r fuel pool).1 = none ∧
        StoredOver r pool (storeAndTrim P m r fuel pool).2) := by
  induction fuel generalizing pool with
  | zero =>
      unfold storeAndTrim
      split
      · exact .inl ⟨_, rfl, Kept.refl pool⟩
      · exact .inr ⟨rfl, StoredOver.refl r pool⟩
  | succ fuel ih =>
      unfold storeAndTrim
      split
      · exact .inr ⟨rfl, StoredOver.refl r pool⟩
      split
      · exact .inl ⟨_, rfl, Kept.refl pool⟩
      have hkept := kept_removePackages h
        ((P.worstChunk m pool r).filter fun txid => (findNode pool txid).isSome)
      simp only
      split
      · exact .inl ⟨_, rfl, hkept⟩
      next hlen =>
      rcases ih (hkept.coherent c h) with ⟨reason, hreason, hrest⟩ | ⟨hnone, hstored⟩
      · exact .inl ⟨reason, hreason, hkept.trans hrest⟩
      · exact .inr ⟨hnone, hstored.kept hkept (hkept.parents_stay hlen)⟩

/-- One offer: refused, it can only evict; admitted, the checks hold and the
transaction is stored over what they leave. -/
theorem mpolAddCore_cases {σ : Type} (P : Policy σ) (m : σ) (r : Rtx)
    {coins : Outpoint → Option UInt64} (hcoins : ∀ o, (coins o).isSome → (c.coins o).isSome)
    (h : Coherent c pool) :
    (∃ reason, (mpolAddCore P coins m pool r).1 = some reason ∧
        Kept pool (mpolAddCore P coins m pool r).2) ∨
      ((mpolAddCore P coins m pool r).1 = none ∧ ∃ evict pool', Admitted c pool r evict ∧
        Kept pool pool' ∧ (∀ x ∈ evict, x ∉ pool'.map Node.txid) ∧
        (∀ x ∈ collectParents pool r.tx.inputs, x ∈ pool'.map Node.txid) ∧
        (mpolAddCore P coins m pool r).2 =
          pool' ++ [⟨r, collectParents pool' r.tx.inputs⟩]) := by
  unfold mpolAddCore
  split
  · exact .inl ⟨_, rfl, Kept.refl pool⟩
  next evict hok =>
  have hadm := admitted_of_checks hcoins h hok
  have hkept := kept_removeNodes hadm.closed
  simp only
  split
  · exact .inl ⟨_, rfl, hkept⟩
  next hlen =>
  have hstay := hkept.parents_stay hlen
  rcases storeAndTrim_cases P m (r := r) (removeNodes pool evict).length (hkept.coherent c h) with
    ⟨reason, hreason, hrest⟩ | ⟨hnone, hstored⟩
  · exact .inl ⟨reason, hreason, hkept.trans hrest⟩
  · obtain ⟨pool', hkept', hparents, hfinal⟩ := hstored
    refine .inr ⟨hnone, evict, pool', hadm, hkept.trans hkept', fun x hx hmem => ?_,
      fun x hx => ?_, hfinal⟩
    · exact not_mem_removeNodes hx (hkept'.txid_mem hmem)
    · exact hparents x (mem_collectParents.mpr ⟨(mem_collectParents.mp hx).1, hstay x hx⟩)

theorem coherent_mpolAddCore {σ : Type} (P : Policy σ) (m : σ)
    {coins : Outpoint → Option UInt64} (hcoins : ∀ o, (coins o).isSome → (c.coins o).isSome)
    (h : Coherent c pool)
    (hids : ∀ t ∈ c.confirmed, r.tx.txid = t.txid → r.tx.inputs = t.inputs) :
    Coherent c (mpolAddCore P coins m pool r).2 := by
  rcases mpolAddCore_cases P m r hcoins h with ⟨reason, -, hkept⟩ |
    ⟨-, evict, pool', hadm, hkept, hgone, hparents, heq⟩
  · exact hkept.coherent c h
  · rw [heq]
    exact h.store hadm hids hkept hgone hparents

end Store

/-! ## Without a chain -/

/-- The chain on which every outpoint is a coin: coherence with it is what is left of
coherence when the chain is not looked at. -/
def anyChain : NewChain where
  confirmed := []
  coins := fun _ => some 0
  spent := nofun
  parented := nofun

theorem coherent_keepNodes {pool : Pool} (h : Coherent anyChain pool) (keep : Txid → Bool) :
    Coherent anyChain (keepNodes pool keep) := by
  have hnode : ∀ n' ∈ keepNodes pool keep, ∃ n ∈ pool, keep n.txid ∧
      n' = { n with parents := n.parents.filter keep } := fun n' hn' => mem_keepNodes.mp hn'
  refine ⟨?_, fun _ _ _ _ => .inl rfl, ?_, nofun, ?_, ?_, ?_⟩
  · have hsub : (keepNodes pool keep).map Node.txid =
        (pool.filter (fun n => keep n.txid)).map Node.txid := by
      simp [keepNodes, Function.comp_def, Node.txid]
    rw [hsub]
    exact h.nodup.sublist (List.filter_sublist.map _)
  · intro n hn n' hn' hne
    obtain ⟨m, hm, -, rfl⟩ := hnode n hn
    obtain ⟨m', hm', -, rfl⟩ := hnode n' hn'
    exact h.exclusive m hm m' hm' hne
  · intro n hn p hp
    obtain ⟨m, hm, -, rfl⟩ := hnode n hn
    obtain ⟨hlink, hstays⟩ := List.mem_filter.mp hp
    obtain ⟨q, hq, rfl⟩ := List.mem_map.mp (h.linked m hm p hlink)
    exact List.mem_map.mpr ⟨_, mem_keepNodes.mpr ⟨q, hq, hstays, rfl⟩, rfl⟩
  · intro n hn hself
    obtain ⟨m, hm, -, rfl⟩ := hnode n hn
    exact h.irreflexive m hm (List.mem_filter.mp hself).1
  · intro n hn
    obtain ⟨m, hm, -, rfl⟩ := hnode n hn
    obtain ⟨s, hmem, hcard, hclosed⟩ := h.bounded m hm
    refine ⟨s, hmem, hcard, fun a ha b hb => hclosed a ha b ?_⟩
    obtain ⟨n', hn', hpar, rfl⟩ := mem_children.mp hb
    obtain ⟨m', hm', -, rfl⟩ := hnode n' hn'
    exact mem_children.mpr ⟨m', hm', (List.mem_filter.mp hpar).1, rfl⟩

end BitcoinMachineCode.Mempool
