import BitcoinMachineCode.Mempool.Truc

/-!
# When the totals are exact

The totals over the ancestors are counted again whenever a survivor loses a parent,
and stay exact.  Those over the descendants are taken off one node at a time along
the links that are left, so they stay exact where every node that leaves is still
linked below its surviving ancestors when its turn comes.
-/

namespace BitcoinMachineCode.Mempool

open BitcoinMachineCode.Foundation BitcoinMachineCode.Storage

/-! ## The totals -/

/-- The totals over the ancestors `s`. -/
structure Figures.SumsUp (f : Figures) (size : Txid → Nat) (s : Finset Txid) : Prop where
  count : f.ancCnt = 1 + s.card
  bytes : f.ancBytes = f.size + ∑ a ∈ s, size a

/-- The totals over the descendants `s`. -/
structure Figures.SumsDown (f : Figures) (size fee : Txid → Nat) (s : Finset Txid) : Prop where
  count : f.descCnt = 1 + s.card
  bytes : f.descBytes = f.size + ∑ y ∈ s, size y
  fees : f.descFee = f.fee + ∑ y ∈ s, fee y

def sizeIn (figures : Txid → Figures) (x : Txid) : Nat := (figures x).size

def feeIn (figures : Txid → Figures) (x : Txid) : Nat := (figures x).fee

/-- Every entry's totals are those of its ancestors and its descendants. -/
structure ExactTotals (reg : Registry) : Prop where
  up : ∀ x ∈ reg.pool.map Node.txid,
    (reg.figures x).SumsUp (sizeIn reg.figures) (ancestors reg.pool x)
  down : ∀ a ∈ reg.pool.map Node.txid,
    (reg.figures a).SumsDown (sizeIn reg.figures) (feeIn reg.figures) (descendants reg.pool a)

/-! ## What the operations leave alone -/

/-- Alike but for the totals over the descendants. -/
structure SameUp (f g : Figures) : Prop where
  size : f.size = g.size
  fee : f.fee = g.fee
  slots : f.slots = g.slots
  ancCnt : f.ancCnt = g.ancCnt
  ancBytes : f.ancBytes = g.ancBytes

theorem SameUp.refl (f : Figures) : SameUp f f := ⟨rfl, rfl, rfl, rfl, rfl⟩

theorem SameUp.trans {f g h : Figures} (hfg : SameUp f g) (hgh : SameUp g h) : SameUp f h :=
  ⟨hfg.size.trans hgh.size, hfg.fee.trans hgh.fee, hfg.slots.trans hgh.slots,
    hfg.ancCnt.trans hgh.ancCnt, hfg.ancBytes.trans hgh.ancBytes⟩

theorem sameUp_decrAncestors (links : Txid → List Txid) (n : Nat) (figures : Txid → Figures)
    (x a : Txid) : SameUp (decrAncestors links n figures x a) (figures a) := by
  unfold decrAncestors
  split
  · exact SameUp.refl _
  · simp only
    split
    · exact ⟨rfl, rfl, rfl, rfl, rfl⟩
    · exact SameUp.refl _

theorem sameUp_decrMarked (reg : Registry) (released order : List Txid)
    (figures : Txid → Figures) (x : Txid) :
    SameUp (reg.decrMarked released order figures x) (figures x) := by
  induction order generalizing released figures with
  | nil => exact SameUp.refl _
  | cons y ys ih => exact (ih _ _).trans (sameUp_decrAncestors _ _ _ _ _)

/-- Alike but for the totals over the ancestors. -/
structure SameDown (f g : Figures) : Prop where
  size : f.size = g.size
  fee : f.fee = g.fee
  slots : f.slots = g.slots
  descCnt : f.descCnt = g.descCnt
  descBytes : f.descBytes = g.descBytes
  descFee : f.descFee = g.descFee

theorem sameDown_recomputeAncAll (pool : Pool) (figures : Txid → Figures) (x : Txid) :
    SameDown (recomputeAncAll pool figures x) (figures x) := by
  rcases recomputeAncAll_cases pool figures x with heq | heq
  · rw [heq]
    exact ⟨rfl, rfl, rfl, rfl, rfl, rfl⟩
  · rw [heq]
    unfold recomputeAnc
    simp only
    split
    · exact ⟨rfl, rfl, rfl, rfl, rfl, rfl⟩
    · exact ⟨rfl, rfl, rfl, rfl, rfl, rfl⟩

/-! ## Counting again -/

theorem mem_parents_above {pool : Pool} (h : WellLinked pool) {x a : Txid}
    (ha : a ∈ parentsOf pool x) : Above pool a x :=
  .single ((mem_parentsOf h.nodup).mp ha)

/-- A node with at most `mpolAncSeenMax` ancestors is counted exactly. -/
theorem recomputeAnc_sumsUp {pool : Pool} (h : WellLinked pool) (figures : Txid → Figures)
    {x : Txid} (hfew : (ancestors pool x).card ≤ mpolAncSeenMax) :
    (recomputeAnc pool figures x).SumsUp (sizeIn figures) (ancestors pool x) := by
  have hclosed : ∀ a ∈ ancestors pool x, ∀ b ∈ parentsOf pool a, b ∈ ancestors pool x := by
    intro a ha b hb
    rw [mem_ancestors h.linked] at ha ⊢
    exact (mem_parents_above h hb).trans ha
  have hstart : ∀ a ∈ parentsOf pool x, a ∈ ancestors pool x := by
    intro a ha
    rw [mem_ancestors h.linked]
    exact mem_parents_above h ha
  obtain ⟨found, hfound⟩ := Option.isSome_iff_exists.mp
    (search_isSome hclosed hfew hstart (h.someLinks.nodup x))
  have hset : found.toFinset = ancestors pool x := by
    ext a
    rw [List.mem_toFinset]
    constructor
    · exact search_reached (P := fun a => a ∈ ancestors pool x) hclosed hstart hfound a
    · intro ha
      have habove := (mem_ancestors h.linked).mp ha
      have hin : ∀ b ∈ parentsOf pool x, b ∈ found := fun b hb =>
        (search_prefixed hfound).subset hb
      have hup := search_closed hfound
      clear ha
      induction habove using Relation.TransGen.head_induction_on with
      | single hlast => exact hin _ ((mem_parentsOf h.nodup).mpr hlast)
      | head hfirst _ ih => exact hup _ ih _ ((mem_parentsOf h.nodup).mpr hfirst)
  have hnodup := (search_nodup (h.someLinks.nodup x) hfound).1
  have hlen : found.length = (ancestors pool x).card := by
    rw [← hset, List.toFinset_card_of_nodup hnodup]
  have hsum : (found.map (sizeIn figures)).sum = ∑ a ∈ ancestors pool x, sizeIn figures a := by
    rw [← hset, List.sum_toFinset _ hnodup]
  unfold recomputeAnc
  rw [hfound]
  exact ⟨by rw [← hlen], by rw [← hsum]; rfl⟩

/-! ## The ancestors -/

/-- The ancestor totals are exact; a node linked to a parent was admitted with one, and
no node has more ancestors than a cluster has entries. -/
structure UpExact (reg : Registry) : Prop where
  up : ∀ x ∈ reg.pool.map Node.txid,
    (reg.figures x).SumsUp (sizeIn reg.figures) (ancestors reg.pool x)
  slots : ∀ n ∈ reg.pool, n.parents ≠ [] → (reg.figures n.txid).slots ≠ []
  few : ∀ x, (ancestors reg.pool x).card ≤ clusterLimit

/-- A removal that takes no parent from a survivor leaves its ancestors as they are. -/
theorem above_keepNodes_iff {pool : Pool} {keep : Txid → Bool}
    (hkeep : ∀ n ∈ pool, keep n.txid = true → ∀ p ∈ n.parents, keep p = true) {a x : Txid}
    (hx : keep x = true) : Above (keepNodes pool keep) a x ↔ Above pool a x := by
  constructor
  · exact (fewer_keepNodes pool keep).above
  · intro h
    have hstep : ∀ {b c : Txid}, keep c = true → c ∈ children pool b →
        c ∈ children (keepNodes pool keep) b ∧ keep b = true := by
      intro b c hc hlast
      obtain ⟨n, hn, hpar, rfl⟩ := mem_children.mp hlast
      have hb := hkeep n hn hc b hpar
      refine ⟨mem_children.mpr ⟨_, mem_keepNodes.mpr ⟨n, hn, hc, rfl⟩, ?_, rfl⟩, hb⟩
      exact List.mem_filter.mpr ⟨hpar, hb⟩
    induction h with
    | single hlast => exact .single (hstep hx hlast).1
    | tail _ hlast ih =>
        obtain ⟨hchild, hb⟩ := hstep hx hlast
        exact (ih hb).tail hchild

theorem UpExact.of_removed {reg : Registry} (h : UpExact reg) {pool' : Pool}
    (hfewer : Fewer reg.pool pool') (hlinks : WellLinked pool')
    {figures : Txid → Figures} (hsame : ∀ x, SameUp (figures x) (reg.figures x)) (again : Prop)
    [Decidable again]
    (honce : ¬ again → ∀ x ∈ pool'.map Node.txid, ancestors pool' x = ancestors reg.pool x) :
    UpExact ⟨pool', if again then recomputeAncAll pool' figures else figures⟩ := by
  have hsize : sizeIn figures = sizeIn reg.figures := funext fun x => (hsame x).size
  have hslots : ∀ n ∈ pool', n.parents ≠ [] → (figures n.txid).slots ≠ [] := by
    intro n' hn' hne
    obtain ⟨n, hn, hr, hsub⟩ := hfewer n' hn'
    obtain ⟨p, hp⟩ := List.exists_mem_of_ne_nil _ hne
    have hold := h.slots n hn (List.ne_nil_of_mem (hsub p hp))
    rw [Node.txid, hr] at hold
    rw [(hsame _).slots]
    exact hold
  have hfew : ∀ x, (ancestors pool' x).card ≤ clusterLimit := fun x =>
    (Finset.card_le_card (hfewer.ancestors_subset x)).trans (h.few x)
  have hold : ∀ x ∈ pool'.map Node.txid,
      (figures x).SumsUp (sizeIn figures) (ancestors reg.pool x) := by
    intro x hx
    have hup := h.up x (hfewer.txid_mem hx)
    refine ⟨(hsame x).ancCnt.trans hup.count, ?_⟩
    rw [(hsame x).ancBytes, (hsame x).size, hsize]
    exact hup.bytes
  by_cases hagain : again
  · simp only [if_pos hagain]
    have hsize' : sizeIn (recomputeAncAll pool' figures) = sizeIn figures :=
      funext fun x => (sameDown_recomputeAncAll pool' figures x).size
    refine ⟨fun x hx => ?_, fun n hn hne => ?_, hfew⟩
    · rw [hsize']
      simp only [recomputeAncAll]
      split
      · exact recomputeAnc_sumsUp hlinks figures ((hfew x).trans (by decide))
      · next hnot =>
          -- admitted without parents: it has had no ancestor since
          have hnil : (figures x).slots = [] := by
            by_contra hne
            exact hnot ⟨findNode_isSome.mpr hx, hne⟩
          have hnone : ∀ s : Finset Txid, (∀ a ∈ s, Above reg.pool a x) → s = ∅ := by
            intro s hs
            refine Finset.eq_empty_of_forall_notMem fun a ha => ?_
            obtain ⟨b, hb⟩ : ∃ b, x ∈ children reg.pool b := by
              cases hs a ha with
              | single hlast => exact ⟨_, hlast⟩
              | tail _ hlast => exact ⟨_, hlast⟩
            obtain ⟨n, hn, hpar, rfl⟩ := mem_children.mp hb
            refine h.slots n hn (List.ne_nil_of_mem hpar) ?_
            rw [← (hsame _).slots]
            exact hnil
          have hold := hold x hx
          rw [hnone _ fun a ha => above_of_mem_ancestors ha] at hold
          rw [hnone (ancestors pool' x) fun a ha => hfewer.above (above_of_mem_ancestors ha)]
          exact hold
    · rw [(sameDown_recomputeAncAll pool' figures n.txid).slots]
      exact hslots n hn hne
  · simp only [if_neg hagain]
    refine ⟨fun x hx => ?_, hslots, hfew⟩
    simp only
    rw [honce hagain x hx]
    exact hold x hx

theorem ancestors_keepNodes {pool : Pool} (hwell : WellLinked pool) {keep : Txid → Bool}
    (hkeep : ∀ n ∈ pool, keep n.txid = true → ∀ p ∈ n.parents, keep p = true) {x : Txid}
    (hx : keep x = true) : ancestors (keepNodes pool keep) x = ancestors pool x := by
  ext a
  rw [mem_ancestors (hwell.keepNodes keep).linked, mem_ancestors hwell.linked,
    above_keepNodes_iff hkeep hx]

theorem UpExact.removeNode {reg : Registry} (h : UpExact reg) (hwell : WellLinked reg.pool)
    (x : Txid) : UpExact (reg.removeNode x) := by
  have hfewer := fewer_removeNode reg.pool x
  have honce : children reg.pool x = [] →
      ∀ y ∈ (Mempool.removeNode reg.pool x).map Node.txid,
        ancestors (Mempool.removeNode reg.pool x) y = ancestors reg.pool y := by
    intro hnone y hy
    refine ancestors_keepNodes hwell (fun n hn _ p hp => ?_)
      (decide_eq_true (mem_removeNode_txid.mp hy).2)
    refine decide_eq_true fun heq => ?_
    have hchild := mem_children.mpr ⟨n, hn, heq ▸ hp, rfl⟩
    rw [hnone] at hchild
    exact absurd hchild List.not_mem_nil
  unfold Registry.removeNode
  simp only
  split
  · have hup := h.of_removed hfewer (hwell.removeNode x)
      (sameUp_decrAncestors (parentsOf reg.pool) reg.pool.length reg.figures x)
      (children reg.pool x ≠ []) (fun hnot => honce (not_not.mp hnot))
    simpa [ite_not] using hup
  · next habsent =>
      have hnone : children reg.pool x = [] := by
        refine List.eq_nil_iff_forall_not_mem.mpr fun y hy => ?_
        obtain ⟨n, hn, hpar, -⟩ := mem_children.mp hy
        exact habsent (findNode_isSome.mpr (hwell.linked n hn x hpar))
      have hup := h.of_removed hfewer (hwell.removeNode x) (fun _ => SameUp.refl _) False
        (fun _ => honce hnone)
      simpa using hup

theorem UpExact.removeNodes {reg : Registry} (h : UpExact reg) (hwell : WellLinked reg.pool)
    (xs : List Txid) : UpExact (reg.removeNodes xs) := by
  induction xs generalizing reg with
  | nil => exact h
  | cons x xs ih =>
      refine ih (h.removeNode hwell x) ?_
      rw [Registry.pool_removeNode]
      exact hwell.removeNode x

theorem UpExact.removeMarked {reg : Registry} (h : UpExact reg) (hwell : WellLinked reg.pool)
    (order : List Txid) (leaves : Txid → Bool) : UpExact (reg.removeMarked order leaves) := by
  refine h.of_removed (fewer_keepNodes _ _) (hwell.keepNodes _)
    (sameUp_decrMarked reg [] order reg.figures) _ ?_
  intro hnone x hx
  refine ancestors_keepNodes hwell (fun n hn hstay p hp => ?_) (mem_keepNodes_txid.mp hx).2
  by_contra hleave
  refine hnone (List.any_eq_true.mpr ⟨n, hn, ?_⟩)
  rw [hstay, Bool.true_and]
  exact List.any_eq_true.mpr ⟨p, hp, by simpa using hleave⟩

/-! ## The newcomer's ancestors -/

theorem mem_upWalk_iff {pool : Pool} (h : WellLinked pool) {start : List Txid}
    (hstart : start.Nodup) (hin : ∀ x ∈ start, x ∈ pool.map Node.txid) {a : Txid} :
    a ∈ upWalk (parentsOf pool) pool.length start ↔ ∃ p ∈ start, Above pool a p ∨ a = p := by
  constructor
  · intro ha
    obtain ⟨-, -, hreached, -⟩ := upWalk_spec h.linked h.someLinks hstart hin
    obtain ⟨p, hp, hpath⟩ := hreached a ha
    refine ⟨p, hp, ?_⟩
    rcases Relation.reflTransGen_iff_eq_or_transGen.mp hpath with heq | hpath
    · exact .inr heq
    · obtain ⟨q, hq, hrest⟩ := Relation.TransGen.head'_iff.mp hpath
      exact .inl (h.someLinks.above hq hrest)
  · rintro ⟨p, hp, hap⟩
    exact mem_upWalk_of_above h hstart hin hp hap

/-- The ancestors a newcomer has over the pool. -/
theorem ancestors_append_self {pool : Pool} (h : WellLinked pool) {n : Node}
    (hfresh : n.txid ∉ pool.map Node.txid) (hparents : ∀ p ∈ n.parents, p ∈ pool.map Node.txid)
    (honce : n.parents.Nodup) :
    ancestors (pool ++ [n]) n.txid =
      (upWalk (parentsOf pool) pool.length n.parents).toFinset := by
  have hlinks := (h.append hfresh hparents honce).linked
  ext a
  rw [mem_ancestors hlinks, above_append_iff hfresh h.linked hparents, List.mem_toFinset,
    mem_upWalk_iff h honce hparents]
  constructor
  · rintro (hin | ⟨-, hup⟩)
    · exact absurd hin.right_mem hfresh
    · exact hup
  · exact fun hup => .inr ⟨rfl, hup⟩

theorem ancestors_append_old {pool : Pool} (h : WellLinked pool) {n : Node}
    (hfresh : n.txid ∉ pool.map Node.txid) (hparents : ∀ p ∈ n.parents, p ∈ pool.map Node.txid)
    (honce : n.parents.Nodup) {x : Txid} (hx : x ≠ n.txid) :
    ancestors (pool ++ [n]) x = ancestors pool x := by
  ext a
  rw [mem_ancestors (h.append hfresh hparents honce).linked, mem_ancestors h.linked,
    above_append_iff hfresh h.linked hparents]
  exact ⟨fun ha => ha.resolve_right fun hbad => hx hbad.1, .inl⟩

theorem figures_insert_old {reg : Registry} {r : Rtx} {size fee ancCnt ancBytes : Nat} {x : Txid}
    (hx : x ≠ r.tx.txid) :
    SameUp ((reg.insert r size fee ancCnt ancBytes).figures x) (reg.figures x) := by
  simp only [Registry.insert, hx, if_false]
  split
  · exact ⟨rfl, rfl, rfl, rfl, rfl⟩
  · exact SameUp.refl _

theorem figures_insert_self {reg : Registry} {r : Rtx} {size fee ancCnt ancBytes : Nat} :
    (reg.insert r size fee ancCnt ancBytes).figures r.tx.txid =
      ⟨size, fee, collectParents reg.pool r.tx.inputs, ancCnt, ancBytes, 1, size, fee⟩ := by
  simp only [Registry.insert, if_true]

/-- The newcomer's walk, made before the evictions or after them. -/
theorem UpExact.insert {reg : Registry} (h : UpExact reg) (hwell : WellLinked reg.pool) {r : Rtx}
    (hfresh : r.tx.txid ∉ reg.pool.map Node.txid) {size fee ancCnt ancBytes : Nat}
    {walk : List Txid} (hnodup : walk.Nodup)
    (hwalk : walk.toFinset = ancestors (reg.insert r size fee ancCnt ancBytes).pool r.tx.txid)
    (hfew : walk.length ≤ clusterLimit) (hcount : ancCnt = 1 + walk.length)
    (hbytes : ancBytes = size + (walk.map (sizeIn reg.figures)).sum) :
    UpExact (reg.insert r size fee ancCnt ancBytes) := by
  have hlinks : WellLinked (reg.insert r size fee ancCnt ancBytes).pool :=
    hwell.insert hfresh _ _ _ _
  have hancestors : ∀ {x}, x ≠ r.tx.txid →
      ancestors (reg.insert r size fee ancCnt ancBytes).pool x = ancestors reg.pool x := fun hx =>
    ancestors_append_old hwell (n := ⟨r, collectParents reg.pool r.tx.inputs⟩) hfresh
      collectParents_mem (nodup_collectParents _ _) hx
  have hold : ∀ {x}, x ∈ (reg.insert r size fee ancCnt ancBytes).pool.map Node.txid →
      x ≠ r.tx.txid → x ∈ reg.pool.map Node.txid := by
    intro x hx hne
    rcases List.mem_append.mp (by rwa [← List.map_append]) with hx | hx
    · exact hx
    · exact absurd (List.mem_singleton.mp hx) hne
  have hsum : ∀ s : Finset Txid, r.tx.txid ∉ s →
      ∑ a ∈ s, sizeIn (reg.insert r size fee ancCnt ancBytes).figures a =
        ∑ a ∈ s, sizeIn reg.figures a := by
    intro s hs
    refine Finset.sum_congr rfl fun a ha => ?_
    exact (figures_insert_old fun heq => hs (heq ▸ ha)).size
  have hlen : walk.length = (ancestors (reg.insert r size fee ancCnt ancBytes).pool
      r.tx.txid).card := by
    rw [← hwalk, List.toFinset_card_of_nodup hnodup]
  refine ⟨fun x hx => ?_, fun n hn hne => ?_, fun x => ?_⟩
  · by_cases hself : x = r.tx.txid
    · subst hself
      rw [figures_insert_self]
      refine ⟨hcount.trans (by rw [hlen]), ?_⟩
      rw [hsum _ fun hin => hlinks.acyclic.irrefl _ (above_of_mem_ancestors hin)]
      refine hbytes.trans ?_
      rw [← List.sum_toFinset _ hnodup, hwalk]
    · have hup := h.up x (hold hx hself)
      have hsame : SameUp ((reg.insert r size fee ancCnt ancBytes).figures x) (reg.figures x) :=
        figures_insert_old hself
      rw [hancestors hself]
      refine ⟨hsame.ancCnt.trans hup.count, ?_⟩
      rw [hsame.ancBytes, hsame.size, hsum, hup.bytes]
      exact fun hin => hfresh ((above_of_mem_ancestors hin).left_mem hwell.linked)
  · by_cases hself : n.txid = r.tx.txid
    · rw [hself, figures_insert_self]
      rcases List.mem_append.mp hn with hold | hnew
      · exact absurd (hself ▸ List.mem_map_of_mem hold) hfresh
      · obtain rfl := List.mem_singleton.mp hnew
        exact hne
    · rw [(figures_insert_old hself).slots]
      rcases List.mem_append.mp hn with hold | hnew
      · exact h.slots n hold hne
      · obtain rfl := List.mem_singleton.mp hnew
        exact absurd rfl hself
  · by_cases hself : x = r.tx.txid
    · rw [hself, ← hlen]
      exact hfew
    · rw [hancestors hself]
      exact h.few x

/-! ## Taking off -/

theorem Figures.SumsDown.less {f g : Figures} {size fee : Txid → Nat} {s : Finset Txid}
    (h : f.SumsDown size fee s) {x : Txid} (hx : x ∈ s) (hsize : g.size = size x)
    (hfee : g.fee = fee x) : (f.less g).SumsDown size fee (s.erase x) := by
  have hpos := Finset.card_pos.mpr ⟨x, hx⟩
  have hsizes := Finset.add_sum_erase s size hx
  have hfees := Finset.add_sum_erase s fee hx
  constructor
  · simp only [Figures.less, h.count, Finset.card_erase_of_mem hx]
    omega
  · simp only [Figures.less, h.bytes, hsize]
    omega
  · simp only [Figures.less, h.fees, hfee]
    omega

theorem Figures.SumsDown.decrAncestors {links : Txid → List Txid} {n : Nat}
    {figures : Txid → Figures} {x a : Txid} {s : Finset Txid}
    (h : (figures a).SumsDown (sizeIn figures) (feeIn figures) s) {taken : Prop} [Decidable taken]
    (htaken : taken ↔ n ≤ decrAncestorsMax ∧ a ∈ upWalk links n (links x)) (hin : taken → x ∈ s) :
    (decrAncestors links n figures x a).SumsDown (sizeIn figures) (feeIn figures)
      (if taken then s.erase x else s) := by
  unfold Mempool.decrAncestors
  split
  · next hlong =>
      have hnot : ¬ taken := fun ht => absurd (htaken.mp ht).1 (by omega)
      rw [if_neg hnot]
      exact h
  · next hshort =>
      simp only
      by_cases hwalk : a ∈ upWalk links n (links x)
      · have ht : taken := htaken.mpr ⟨by omega, hwalk⟩
        rw [if_pos hwalk, if_pos ht]
        exact h.less (hin ht) rfl rfl
      · have hnot : ¬ taken := fun ht => hwalk (htaken.mp ht).2
        rw [if_neg hwalk, if_neg hnot]
        exact h

/-- `y` is taken off the totals of `a` when its turn comes: the links left still lead
there. -/
def TakenBelow (pool : Pool) (xs : List Txid) (a y : Txid) : Prop :=
  ∃ pre post, xs = pre ++ y :: post ∧ (removeNodes pool pre).length ≤ decrAncestorsMax ∧
    Above (removeNodes pool pre) a y

theorem takenBelow_cons {pool : Pool} {x : Txid} {xs : List Txid} {a y : Txid} :
    TakenBelow pool (x :: xs) a y ↔
      (y = x ∧ pool.length ≤ decrAncestorsMax ∧ Above pool a x) ∨
        TakenBelow (removeNode pool x) xs a y := by
  constructor
  · rintro ⟨pre, post, heq, hlen, habove⟩
    cases pre with
    | nil =>
        obtain ⟨rfl, rfl⟩ := List.cons.inj heq
        exact .inl ⟨rfl, hlen, habove⟩
    | cons z pre =>
        obtain ⟨rfl, rfl⟩ := List.cons.inj heq
        exact .inr ⟨pre, post, rfl, hlen, habove⟩
  · rintro (⟨rfl, hlen, habove⟩ | ⟨pre, post, rfl, hlen, habove⟩)
    · exact ⟨[], xs, rfl, hlen, habove⟩
    · exact ⟨x :: pre, post, rfl, hlen, habove⟩

theorem Registry.sameRecord_removeNode (reg : Registry) (x y : Txid) :
    ((reg.removeNode x).figures y).size = (reg.figures y).size ∧
      ((reg.removeNode x).figures y).fee = (reg.figures y).fee := by
  have hdecr := sameUp_decrAncestors (parentsOf reg.pool) reg.pool.length reg.figures x y
  unfold Registry.removeNode
  simp only
  split
  · simp only
    split
    · exact ⟨hdecr.size, hdecr.fee⟩
    · have hagain := sameDown_recomputeAncAll (Mempool.removeNode reg.pool x)
        (decrAncestors (parentsOf reg.pool) reg.pool.length reg.figures x) y
      exact ⟨hagain.size.trans hdecr.size, hagain.fee.trans hdecr.fee⟩
  · exact ⟨rfl, rfl⟩

theorem Figures.SumsDown.congr {f g : Figures} {size fee : Txid → Nat} {s : Finset Txid}
    (h : f.SumsDown size fee s) (hsame : SameDown g f) : g.SumsDown size fee s :=
  ⟨hsame.descCnt.trans h.count, by rw [hsame.descBytes, hsame.size, h.bytes],
    by rw [hsame.descFee, hsame.fee, h.fees]⟩

open Classical in
theorem Registry.sumsDown_removeNode {reg : Registry} (hwell : WellLinked reg.pool) {x a : Txid}
    {s : Finset Txid} (hsub : descendants reg.pool a ⊆ s)
    (h : (reg.figures a).SumsDown (sizeIn reg.figures) (feeIn reg.figures) s) :
    ((reg.removeNode x).figures a).SumsDown (sizeIn reg.figures) (feeIn reg.figures)
      (s.filter fun y => ¬ (y = x ∧ reg.pool.length ≤ decrAncestorsMax ∧ Above reg.pool a x)) := by
  have htaken : (reg.pool.length ≤ decrAncestorsMax ∧ Above reg.pool a x) ↔
      reg.pool.length ≤ decrAncestorsMax ∧
        a ∈ upWalk (parentsOf reg.pool) reg.pool.length (parentsOf reg.pool x) := by
    rw [mem_upWalk_parents hwell]
  have hstep := h.decrAncestors htaken fun ht => hsub (mem_descendants.mpr ht.2)
  have hset : (if reg.pool.length ≤ decrAncestorsMax ∧ Above reg.pool a x then s.erase x else s) =
      s.filter fun y =>
        ¬ (y = x ∧ reg.pool.length ≤ decrAncestorsMax ∧ Above reg.pool a x) := by
    ext y
    split
    · next ht => simp [ht, Finset.mem_erase, and_comm]
    · next ht => simp [ht]
  rw [hset] at hstep
  unfold Registry.removeNode
  simp only
  split
  · simp only
    split
    · exact hstep
    · exact hstep.congr (sameDown_recomputeAncAll _ _ _)
  · next habsent =>
      have hnot : ¬ Above reg.pool a x := fun habove =>
        habsent (findNode_isSome.mpr habove.right_mem)
      have hall : (s.filter fun y =>
          ¬ (y = x ∧ reg.pool.length ≤ decrAncestorsMax ∧ Above reg.pool a x)) = s :=
        Finset.filter_true_of_mem fun y _ hbad => hnot hbad.2.2
      rw [hall]
      exact h

open Classical in
/-- After a batch the totals are over what was below and has not been taken off. -/
theorem Registry.sumsDown_removeNodes {reg : Registry} (hwell : WellLinked reg.pool)
    (xs : List Txid) {a : Txid} {s : Finset Txid} (hsub : descendants reg.pool a ⊆ s)
    (h : (reg.figures a).SumsDown (sizeIn reg.figures) (feeIn reg.figures) s) :
    ((reg.removeNodes xs).figures a).SumsDown (sizeIn reg.figures) (feeIn reg.figures)
      (s.filter fun y => ¬ TakenBelow reg.pool xs a y) := by
  induction xs generalizing reg s with
  | nil =>
      have hall : (s.filter fun y => ¬ TakenBelow reg.pool [] a y) = s := by
        refine Finset.filter_true_of_mem fun y _ => ?_
        rintro ⟨pre, post, heq, -⟩
        cases pre with
        | nil => cases heq
        | cons z pre => cases heq
      rw [hall]
      exact h
  | cons x xs ih =>
      have hstep := Registry.sumsDown_removeNode hwell (x := x) hsub h
      have hsize : sizeIn (reg.removeNode x).figures = sizeIn reg.figures :=
        funext fun y => (reg.sameRecord_removeNode x y).1
      have hfee : feeIn (reg.removeNode x).figures = feeIn reg.figures :=
        funext fun y => (reg.sameRecord_removeNode x y).2
      have hlinks : WellLinked (reg.removeNode x).pool := by
        rw [Registry.pool_removeNode]
        exact hwell.removeNode x
      rw [← hsize, ← hfee] at hstep ⊢
      have hrest := ih hlinks (fun y hy => ?_) hstep
      · have hset : (s.filter fun y => ¬ TakenBelow reg.pool (x :: xs) a y) =
            s.filter fun y =>
              ¬ (y = x ∧ reg.pool.length ≤ decrAncestorsMax ∧ Above reg.pool a x) ∧
                ¬ TakenBelow (Mempool.removeNode reg.pool x) xs a y := by
          refine Finset.filter_congr fun y _ => ?_
          rw [takenBelow_cons, not_or]
        rw [Finset.filter_filter, Registry.pool_removeNode] at hrest
        rw [hset]
        exact hrest
      · rw [Registry.pool_removeNode] at hy
        have hbelow := mem_descendants.mp hy
        refine Finset.mem_filter.mpr ⟨hsub ?_, ?_⟩
        · exact mem_descendants.mpr ((fewer_removeNode reg.pool x).above hbelow)
        · rintro ⟨rfl, -⟩
          exact (mem_removeNode_txid.mp hbelow.right_mem).2 rfl

/-! ## Clean removals -/

def DownExact (reg : Registry) : Prop :=
  ∀ a ∈ reg.pool.map Node.txid,
    (reg.figures a).SumsDown (sizeIn reg.figures) (feeIn reg.figures) (descendants reg.pool a)

/-- Whatever is below an entry that stays is below it still, or was when its turn came. -/
def CleanBatch (pool : Pool) (xs : List Txid) : Prop :=
  ∀ a ∈ (removeNodes pool xs).map Node.txid, ∀ y, Above pool a y →
    Above (removeNodes pool xs) a y ∨ TakenBelow pool xs a y

theorem Figures.SumsDown.subset_iff {f : Figures} {size fee : Txid → Nat} {s t : Finset Txid}
    (h : f.SumsDown size fee s) (hsub : t ⊆ s) : f.SumsDown size fee t ↔ s ⊆ t := by
  constructor
  · intro ht
    have hcard : s.card ≤ t.card := by
      have := h.count.symm.trans ht.count
      omega
    exact (Finset.eq_of_subset_of_card_le hsub hcard).ge
  · intro hback
    rw [hsub.antisymm hback]
    exact h

theorem Registry.sameRecord_removeNodes (reg : Registry) (xs : List Txid) :
    sizeIn (reg.removeNodes xs).figures = sizeIn reg.figures ∧
      feeIn (reg.removeNodes xs).figures = feeIn reg.figures := by
  induction xs generalizing reg with
  | nil => exact ⟨rfl, rfl⟩
  | cons x xs ih =>
      obtain ⟨hsize, hfee⟩ := ih (reg.removeNode x)
      exact ⟨hsize.trans (funext fun y => (reg.sameRecord_removeNode x y).1),
        hfee.trans (funext fun y => (reg.sameRecord_removeNode x y).2)⟩

/-- A batch leaves the totals exact if and only if it is clean. -/
theorem downExact_removeNodes_iff {reg : Registry} (hwell : WellLinked reg.pool)
    (h : DownExact reg) (xs : List Txid) :
    DownExact (reg.removeNodes xs) ↔ CleanBatch reg.pool xs := by
  classical
  obtain ⟨hsize, hfee⟩ := reg.sameRecord_removeNodes xs
  have hfewer := fewer_removeNodes reg.pool xs
  unfold DownExact CleanBatch
  rw [hsize, hfee, Registry.pool_removeNodes]
  refine forall₂_congr fun a ha => ?_
  have hsums := Registry.sumsDown_removeNodes hwell xs (Finset.Subset.refl _)
    (h a (hfewer.txid_mem ha))
  have hsub : descendants (removeNodes reg.pool xs) a ⊆
      (descendants reg.pool a).filter fun y => ¬ TakenBelow reg.pool xs a y := by
    intro y hy
    refine Finset.mem_filter.mpr ⟨hfewer.descendants_subset a hy, ?_⟩
    rintro ⟨pre, post, rfl, -⟩
    exact not_mem_removeNodes (List.mem_append_right _ List.mem_cons_self)
      (mem_descendants.mp hy).right_mem
  rw [hsums.subset_iff hsub]
  refine forall_congr' fun y => ?_
  rw [Finset.mem_filter, mem_descendants, mem_descendants]
  constructor
  · intro hclean hy
    by_cases htaken : TakenBelow reg.pool xs a y
    · exact .inr htaken
    · exact .inl (hclean ⟨hy, htaken⟩)
  · rintro hclean ⟨hy, htaken⟩
    exact (hclean hy).resolve_right htaken

/-! ## Clean block connections -/

/-- `y` is taken off the totals of `a` when its turn comes in the pass over the marked
nodes. -/
def TakenMarked (reg : Registry) (released order : List Txid) (a y : Txid) : Prop :=
  ∃ pre post, order = pre ++ y :: post ∧ reg.pool.length ≤ decrAncestorsMax ∧
    Relation.TransGen (fun u v => v ∈ reg.linksLeft (released ++ pre) u) y a

theorem takenMarked_cons {reg : Registry} {released : List Txid} {x : Txid} {xs : List Txid}
    {a y : Txid} :
    TakenMarked reg released (x :: xs) a y ↔
      (y = x ∧ reg.pool.length ≤ decrAncestorsMax ∧
        Relation.TransGen (fun u v => v ∈ reg.linksLeft released u) x a) ∨
      TakenMarked reg (released ++ [x]) xs a y := by
  constructor
  · rintro ⟨pre, post, heq, hlen, hpath⟩
    cases pre with
    | nil =>
        obtain ⟨rfl, rfl⟩ := List.cons.inj heq
        rw [List.append_nil] at hpath
        exact .inl ⟨rfl, hlen, hpath⟩
    | cons z pre =>
        obtain ⟨rfl, rfl⟩ := List.cons.inj heq
        refine .inr ⟨pre, post, rfl, hlen, ?_⟩
        rwa [List.append_assoc]
  · rintro (⟨rfl, hlen, hpath⟩ | ⟨pre, post, rfl, hlen, hpath⟩)
    · refine ⟨[], xs, rfl, hlen, ?_⟩
      rwa [List.append_nil]
    · refine ⟨x :: pre, post, rfl, hlen, ?_⟩
      rwa [List.append_assoc] at hpath

theorem mem_upWalk_links {pool : Pool} (h : WellLinked pool) {links : Txid → List Txid}
    (hlinks : SomeLinks pool links) {x a : Txid} :
    a ∈ upWalk links pool.length (links x) ↔
      Relation.TransGen (fun u v => v ∈ links u) x a := by
  obtain ⟨hclosed, hsub, hreached, -⟩ := upWalk_spec h.linked hlinks (hlinks.nodup x)
    (fun b hb => h.links_mem hlinks hb)
  constructor
  · intro ha
    obtain ⟨b, hb, hpath⟩ := hreached a ha
    exact Relation.TransGen.head' hb hpath
  · intro hpath
    induction hpath with
    | single hlast => exact hsub _ hlast
    | tail _ hlast ih => exact hclosed _ ih _ hlast

theorem SomeLinks.above_of_path {pool : Pool} {links : Txid → List Txid}
    (h : SomeLinks pool links) {x a : Txid}
    (hpath : Relation.TransGen (fun u v => v ∈ links u) x a) : Above pool a x := by
  obtain ⟨b, hb, hrest⟩ := Relation.TransGen.head'_iff.mp hpath
  exact h.above hb hrest

open Classical in
theorem Registry.sumsDown_decrMarked {reg : Registry} (hwell : WellLinked reg.pool)
    {released order : List Txid} (hnodup : (released ++ order).Nodup) {figures : Txid → Figures}
    {a : Txid} {s : Finset Txid}
    (hleft : ∀ y, Above reg.pool a y → y ∉ released → y ∈ s)
    (h : (figures a).SumsDown (sizeIn figures) (feeIn figures) s) :
    (reg.decrMarked released order figures a).SumsDown (sizeIn figures) (feeIn figures)
      (s.filter fun y => ¬ TakenMarked reg released order a y) := by
  induction order generalizing released figures s with
  | nil =>
      have hall : (s.filter fun y => ¬ TakenMarked reg released [] a y) = s := by
        refine Finset.filter_true_of_mem fun y _ => ?_
        rintro ⟨pre, post, heq, -⟩
        cases pre with
        | nil => cases heq
        | cons z pre => cases heq
      rw [hall]
      exact h
  | cons x xs ih =>
      have hlinks := hwell.linksLeft released
      have hx : x ∉ released := fun hin =>
        (List.nodup_append.mp hnodup).2.2 x hin x List.mem_cons_self rfl
      have htaken : (reg.pool.length ≤ decrAncestorsMax ∧
          Relation.TransGen (fun u v => v ∈ reg.linksLeft released u) x a) ↔
          reg.pool.length ≤ decrAncestorsMax ∧
            a ∈ upWalk (reg.linksLeft released) reg.pool.length (reg.linksLeft released x) := by
        rw [mem_upWalk_links hwell hlinks]
      have hstep := h.decrAncestors htaken fun ht => hleft x (hlinks.above_of_path ht.2) hx
      have hsame := sameUp_decrAncestors (reg.linksLeft released) reg.pool.length figures x
      have hsize : sizeIn (decrAncestors (reg.linksLeft released) reg.pool.length figures x) =
          sizeIn figures := funext fun y => (hsame y).size
      have hfee : feeIn (decrAncestors (reg.linksLeft released) reg.pool.length figures x) =
          feeIn figures := funext fun y => (hsame y).fee
      rw [← hsize, ← hfee] at hstep ⊢
      have hnodup' : ((released ++ [x]) ++ xs).Nodup := by simpa using hnodup
      have hrest := ih hnodup' (fun y hy hout => ?_) hstep
      · have hset : (s.filter fun y => ¬ TakenMarked reg released (x :: xs) a y) =
            ((if reg.pool.length ≤ decrAncestorsMax ∧
                Relation.TransGen (fun u v => v ∈ reg.linksLeft released u) x a then s.erase x
              else s).filter fun y => ¬ TakenMarked reg (released ++ [x]) xs a y) := by
          ext y
          rw [Finset.mem_filter, Finset.mem_filter, takenMarked_cons, not_or]
          split
          · next ht =>
              rw [Finset.mem_erase]
              simp [ht]
              tauto
          · next ht => simp [ht]
        rw [hset]
        exact hrest
      · have hne : y ≠ x := by
          rintro rfl
          exact hout (List.mem_append_right _ List.mem_cons_self)
        have hin : y ∈ s := hleft y hy fun hin => hout (List.mem_append_left _ hin)
        split
        · exact Finset.mem_erase.mpr ⟨hne, hin⟩
        · exact hin

/-- What `CleanBatch` is for the marked nodes of a block connection. -/
def CleanMarked (reg : Registry) (order : List Txid) (leaves : Txid → Bool) : Prop :=
  ∀ a ∈ (keepNodes reg.pool fun x => !leaves x).map Node.txid, ∀ y, Above reg.pool a y →
    Above (keepNodes reg.pool fun x => !leaves x) a y ∨ TakenMarked reg [] order a y

theorem downExact_removeMarked_iff {reg : Registry} (hwell : WellLinked reg.pool)
    (h : DownExact reg) {order : List Txid} {leaves : Txid → Bool}
    (hlists : reg.Lists order leaves) :
    DownExact (reg.removeMarked order leaves) ↔ CleanMarked reg order leaves := by
  classical
  have hfewer := fewer_keepNodes reg.pool fun x => !leaves x
  have hsame := sameUp_decrMarked reg [] order reg.figures
  -- counting the ancestors again changes nothing below
  have hdown : ∀ a, SameDown ((reg.removeMarked order leaves).figures a)
      (reg.decrMarked [] order reg.figures a) := by
    intro a
    unfold Registry.removeMarked
    simp only
    split
    · exact sameDown_recomputeAncAll _ _ _
    · exact ⟨rfl, rfl, rfl, rfl, rfl, rfl⟩
  have hsize : sizeIn (reg.removeMarked order leaves).figures = sizeIn reg.figures :=
    funext fun a => (hdown a).size.trans (hsame a).size
  have hfee : feeIn (reg.removeMarked order leaves).figures = feeIn reg.figures :=
    funext fun a => (hdown a).fee.trans (hsame a).fee
  unfold DownExact CleanMarked
  rw [hsize, hfee]
  refine forall₂_congr fun a ha => ?_
  have hleft : ∀ y, Above reg.pool a y → y ∉ ([] : List Txid) → y ∈ descendants reg.pool a :=
    fun y hy _ => mem_descendants.mpr hy
  have hnodup : ([] ++ order).Nodup := hlists.1
  have hsums := (Registry.sumsDown_decrMarked hwell hnodup hleft
    (h a (hfewer.txid_mem ha))).congr (hdown a)
  have hsub : descendants (keepNodes reg.pool fun x => !leaves x) a ⊆
      (descendants reg.pool a).filter fun y => ¬ TakenMarked reg [] order a y := by
    intro y hy
    refine Finset.mem_filter.mpr ⟨hfewer.descendants_subset a hy, ?_⟩
    rintro ⟨pre, post, heq, -⟩
    have hin : y ∈ order := heq ▸ List.mem_append_right _ List.mem_cons_self
    have hstay := (mem_keepNodes_txid.mp (mem_descendants.mp hy).right_mem).2
    rw [((hlists.2 y).mp hin).2] at hstay
    cases hstay
  change (((reg.removeMarked order leaves).figures a).SumsDown (sizeIn reg.figures)
    (feeIn reg.figures) (descendants (keepNodes reg.pool fun x => !leaves x) a)) ↔ _
  rw [hsums.subset_iff hsub]
  refine forall_congr' fun y => ?_
  rw [Finset.mem_filter, mem_descendants, mem_descendants]
  constructor
  · intro hclean hy
    by_cases htaken : TakenMarked reg [] order a y
    · exact .inr htaken
    · exact .inl (hclean ⟨hy, htaken⟩)
  · rintro hclean ⟨hy, htaken⟩
    exact (hclean hy).resolve_right htaken

/-! ## The newcomer's totals -/

theorem Figures.SumsDown.more {f : Figures} {size fee : Txid → Nat} {s : Finset Txid}
    (h : f.SumsDown size fee s) {x : Txid} (hx : x ∉ s) :
    (f.more (size x) (fee x)).SumsDown size fee (insert x s) := by
  constructor
  · simp only [Figures.more, h.count, Finset.card_insert_of_notMem hx]
    omega
  · simp only [Figures.more, h.bytes, Finset.sum_insert hx]
    omega
  · simp only [Figures.more, h.fees, Finset.sum_insert hx]
    omega

theorem Figures.SumsDown.reweigh {f : Figures} {size fee size' fee' : Txid → Nat}
    {s : Finset Txid} (h : f.SumsDown size fee s) (hsize : ∀ y ∈ s, size' y = size y)
    (hfee : ∀ y ∈ s, fee' y = fee y) : f.SumsDown size' fee' s :=
  ⟨h.count, by rw [h.bytes, Finset.sum_congr rfl hsize],
    by rw [h.fees, Finset.sum_congr rfl hfee]⟩

theorem DownExact.insert {reg : Registry} (h : DownExact reg) (hwell : WellLinked reg.pool)
    {r : Rtx} (hfresh : r.tx.txid ∉ reg.pool.map Node.txid) (size fee ancCnt ancBytes : Nat) :
    DownExact (reg.insert r size fee ancCnt ancBytes) := by
  have habove : ∀ {a x}, Above (reg.insert r size fee ancCnt ancBytes).pool a x ↔
      Above reg.pool a x ∨ (x = r.tx.txid ∧ ∃ p ∈ collectParents reg.pool r.tx.inputs,
        Above reg.pool a p ∨ a = p) :=
    above_append_iff hfresh hwell.linked collectParents_mem
  have hself : (reg.insert r size fee ancCnt ancBytes).figures r.tx.txid =
      ⟨size, fee, collectParents reg.pool r.tx.inputs, ancCnt, ancBytes, 1, size, fee⟩ :=
    figures_insert_self
  intro a ha
  by_cases heq : a = r.tx.txid
  · have hnone : descendants (reg.insert r size fee ancCnt ancBytes).pool a = ∅ := by
      rw [heq]
      exact descendants_append_self (n := ⟨r, collectParents reg.pool r.tx.inputs⟩) hfresh
        hwell.linked collectParents_mem
    rw [hnone, heq, hself]
    exact ⟨rfl, rfl, rfl⟩
  · have hold : a ∈ reg.pool.map Node.txid := by
      rcases List.mem_append.mp (by rwa [← List.map_append]) with hx | hx
      · exact hx
      · exact absurd (List.mem_singleton.mp hx) heq
    have hout : r.tx.txid ∉ descendants reg.pool a := fun hin =>
      hfresh (mem_descendants.mp hin).right_mem
    have hsame : ∀ x ∈ descendants reg.pool a, SameUp
        ((reg.insert r size fee ancCnt ancBytes).figures x) (reg.figures x) :=
      fun x hx => figures_insert_old fun hbad => hout (hbad ▸ hx)
    have hsums := (h a hold).reweigh (fun x hx => (hsame x hx).size) fun x hx => (hsame x hx).fee
    change (reg.figures a).SumsDown (sizeIn (reg.insert r size fee ancCnt ancBytes).figures)
      (feeIn (reg.insert r size fee ancCnt ancBytes).figures) _ at hsums
    by_cases hup : a ∈ upWalk (parentsOf reg.pool) reg.pool.length
        (collectParents reg.pool r.tx.inputs)
    · have hset : descendants (reg.insert r size fee ancCnt ancBytes).pool a =
          Insert.insert r.tx.txid (descendants reg.pool a) := by
        have hanc := ancestors_append_self hwell (n := ⟨r, collectParents reg.pool r.tx.inputs⟩)
          hfresh collectParents_mem (nodup_collectParents _ _)
        have hbelow : Above (reg.insert r size fee ancCnt ancBytes).pool a r.tx.txid :=
          above_of_mem_ancestors (hanc ▸ List.mem_toFinset.mpr hup)
        ext y
        rw [Finset.mem_insert, mem_descendants, mem_descendants]
        constructor
        · intro hy
          rcases habove.mp hy with hin | ⟨hyr, -⟩
          · exact .inr hin
          · exact .inl hyr
        · rintro (rfl | hin)
          · exact hbelow
          · exact habove.mpr (.inl hin)
      have hfig : (reg.insert r size fee ancCnt ancBytes).figures a =
          (reg.figures a).more size fee := by
        simp only [Registry.insert, heq, if_false, hup, if_true]
      have hsize : sizeIn (reg.insert r size fee ancCnt ancBytes).figures r.tx.txid = size := by
        rw [sizeIn, hself]
      have hfee : feeIn (reg.insert r size fee ancCnt ancBytes).figures r.tx.txid = fee := by
        rw [feeIn, hself]
      have hmore := hsums.more hout
      rw [hsize, hfee] at hmore
      rw [hfig, hset]
      exact hmore
    · have hset : descendants (reg.insert r size fee ancCnt ancBytes).pool a =
          descendants reg.pool a := by
        ext y
        rw [mem_descendants, mem_descendants]
        refine ⟨fun hy => (habove.mp hy).resolve_right ?_, fun hy => habove.mpr (.inl hy)⟩
        rintro ⟨-, p, hp, hin⟩
        exact hup (mem_upWalk_of_above hwell (nodup_collectParents _ _) collectParents_mem hp hin)
      have hfig : (reg.insert r size fee ancCnt ancBytes).figures a = reg.figures a := by
        simp only [Registry.insert, heq, if_false, hup]
      rw [hset, hfig]
      exact hsums

/-! ## Offers -/

theorem packageOrder_closed {c : NewChain} {pool : Pool} (h : Coherent c pool) (txid : Txid) :
    ClosedUnder (children pool) (Registry.packageOrder pool txid) := by
  unfold Registry.packageOrder
  cases hn : findNode pool txid with
  | none => exact closedUnder_nil
  | some n =>
      obtain ⟨hmem, rfl⟩ := findNode_eq_some hn
      obtain ⟨ds, hds⟩ := h.exists_descendants hmem
      have hclosed := collectDescendantTxids_eq_some hds
      simp only [hds, Option.getD_some]
      intro a ha b hb
      have hmem : ∀ {y}, y ∈ ds ++ [n.txid] ↔ y ∈ n.txid :: ds := by
        intro y
        simp [or_comm]
      exact hmem.mpr (hclosed a (hmem.mp ha) b hb)

theorem closed_append {pool : Pool} {xs ys : List Txid} (hxs : ClosedUnder (children pool) xs)
    (hys : ClosedUnder (children (removeNodes pool xs)) ys) :
    ClosedUnder (children pool) (xs ++ ys) := by
  intro a ha b hb
  by_cases hbx : b ∈ xs
  · exact List.mem_append_left _ hbx
  have hax : a ∉ xs := fun hin => hbx (hxs a hin b hb)
  refine List.mem_append_right _ (hys a ((List.mem_append.mp ha).resolve_left hax) b ?_)
  obtain ⟨n, hn, hpar, rfl⟩ := mem_children.mp hb
  rw [removeNodes_eq]
  exact mem_children.mpr ⟨_, mem_keepNodes.mpr ⟨n, hn, decide_eq_true hbx, rfl⟩,
    List.mem_filter.mpr ⟨hpar, decide_eq_true hax⟩, rfl⟩

theorem removeNodes_packagesOrder (pool : Pool) (txids : List Txid) :
    removeNodes pool (packagesOrder pool txids) = txids.foldl removePackage pool := by
  have heq := Registry.removePackages_eq ⟨pool, fun _ => ⟨0, 0, [], 0, 0, 0, 0, 0⟩⟩ txids
  rw [← Registry.pool_removePackages ⟨pool, fun _ => ⟨0, 0, [], 0, 0, 0, 0, 0⟩⟩, heq,
    Registry.pool_removeNodes]

theorem packagesOrder_closed {c : NewChain} {pool : Pool} (h : Coherent c pool)
    (txids : List Txid) : ClosedUnder (children pool) (packagesOrder pool txids) := by
  induction txids generalizing pool with
  | nil => exact closedUnder_nil
  | cons x xs ih =>
      refine closed_append (packageOrder_closed h x) ?_
      have hone : removeNodes pool (Registry.packageOrder pool x) = removePackage pool x := by
        have hfold := removeNodes_packagesOrder pool [x]
        simpa [packagesOrder] using hfold
      rw [hone]
      exact ih ((kept_removePackage h x).coherent c h)

theorem trimOrder_closed {c : NewChain} {σ : Type} (P : Policy σ) (m : σ) (r : Rtx) (fuel : Nat)
    {pool : Pool} (h : Coherent c pool) :
    ClosedUnder (children pool) (trimOrder P m r fuel pool) := by
  induction fuel generalizing pool with
  | zero => exact closedUnder_nil
  | succ fuel ih =>
      unfold trimOrder
      split
      · exact closedUnder_nil
      split
      · exact closedUnder_nil
      · refine closed_append (packagesOrder_closed h _) ?_
        rw [removeNodes_packagesOrder]
        split
        · exact closedUnder_nil
        · exact ih ((kept_removePackages h _).coherent c h)

theorem offerOrder_closed {c : NewChain} {σ : Type} (P : Policy σ) (rates : Rates)
    {coins : Outpoint → Option UInt64} (hcoins : ∀ o, (coins o).isSome → (c.coins o).isSome)
    (m : σ) {reg : Registry} (h : Coherent c reg.pool) (r : Rtx) :
    ClosedUnder (children reg.pool) (offerOrder P rates coins m reg r) := by
  unfold offerOrder
  split
  · exact closedUnder_nil
  · next evict hok =>
      have hclosed := (admitted_of_checks hcoins h hok).closed
      refine closed_append hclosed ?_
      split
      · exact closedUnder_nil
      · exact trimOrder_closed _ _ _ _ ((kept_removeNodes hclosed).coherent c h)

/-- The ancestors of an entry of the cluster that is not evicted are in it too. -/
theorem Admitted.cluster_above {c : NewChain} {pool : Pool} {r : Rtx} {evict cluster : List Txid}
    (hadm : Admitted c pool r evict) (hwell : WellLinked pool)
    (hclosed : ClosedUnder (neighbours pool evict) cluster) {a p : Txid} (hp : p ∈ cluster)
    (hout : p ∉ evict) (h : Above pool a p) : a ∈ cluster ∧ a ∉ evict := by
  have hstep : ∀ {b d : Txid}, d ∈ children pool b → d ∈ cluster ∧ d ∉ evict →
      b ∈ cluster ∧ b ∉ evict := by
    rintro b d hlast ⟨hd, hdout⟩
    have hbout : b ∉ evict := fun hin => hdout (hadm.closed b hin d hlast)
    refine ⟨hclosed d hd b (List.mem_filter.mpr ⟨List.mem_append_left _ ?_, ?_⟩), hbout⟩
    · exact (mem_parentsOf hwell.nodup).mpr hlast
    · exact decide_eq_true hbout
  induction h using Relation.TransGen.head_induction_on with
  | single hlast => exact hstep hlast ⟨hp, hout⟩
  | head hfirst _ ih => exact hstep hfirst ih

theorem UpExact.mpolAddCore {reg : Registry} (h : UpExact reg) (hwell : WellLinked reg.pool)
    (hcoh : Coherent anyChain reg.pool) {σ : Type} (P : Policy σ) (rates : Rates)
    (coins : Outpoint → Option UInt64) (m : σ) (r : Rtx) :
    UpExact (reg.mpolAddCore P rates coins m r).2 := by
  rcases reg.mpolAddCore_shape P rates coins m r with hxs | ⟨evict, xs, hok, horder, hstay, heq⟩
  · rw [hxs]
    exact h.removeNodes hwell _
  have hadm := admitted_of_checks (fun _ _ => rfl) hcoh hok
  have hclosed : ClosedUnder (children reg.pool) (offerOrder P rates coins m reg r) :=
    offerOrder_closed P rates (fun _ _ => rfl) m hcoh r
  rw [horder] at hclosed
  have hfewer := reg.fewer_removeNodes (evict ++ xs)
  have hfresh : r.tx.txid ∉ (reg.removeNodes (evict ++ xs)).pool.map Node.txid :=
    fun hin => hadm.fresh (hfewer.txid_mem hin)
  have hlinks : WellLinked (reg.removeNodes (evict ++ xs)).pool := by
    rw [Registry.pool_removeNodes]
    exact hwell.removeNodes _
  -- what stays keeps its parents, so the newcomer's ancestors are those found before
  have hparents : ∀ {p}, p ∈ collectParents (reg.removeNodes (evict ++ xs)).pool r.tx.inputs ↔
      p ∈ collectParents reg.pool r.tx.inputs := by
    intro p
    refine ⟨fun hp => ?_, hstay p⟩
    obtain ⟨hin, hmem⟩ := mem_collectParents.mp hp
    exact mem_collectParents.mpr ⟨hin, hfewer.txid_mem hmem⟩
  have hstays : ∀ p ∈ collectParents reg.pool r.tx.inputs, p ∉ evict ++ xs := by
    intro p hp hin
    have hmem := collectParents_mem p (hstay p hp)
    rw [Registry.pool_removeNodes] at hmem
    exact not_mem_removeNodes hin hmem
  have hsame : ∀ p ∈ collectParents reg.pool r.tx.inputs, ∀ a,
      Above (reg.removeNodes (evict ++ xs)).pool a p ↔ Above reg.pool a p := by
    intro p hp a
    rw [Registry.pool_removeNodes, removeNodes_eq]
    refine above_keepNodes_iff (fun n hn hkeep q hq => ?_) (decide_eq_true (hstays p hp))
    refine decide_eq_true fun hin => of_decide_eq_true hkeep ?_
    exact hclosed q hin n.txid (mem_children.mpr ⟨n, hn, hq, rfl⟩)
  have hwalk : (upWalk (parentsOf reg.pool) reg.pool.length
      (collectParents reg.pool r.tx.inputs)).toFinset =
      ancestors ((reg.removeNodes (evict ++ xs)).pool ++
        [⟨r, collectParents (reg.removeNodes (evict ++ xs)).pool r.tx.inputs⟩]) r.tx.txid := by
    have hself := ancestors_append_self hlinks
      (n := ⟨r, collectParents (reg.removeNodes (evict ++ xs)).pool r.tx.inputs⟩) hfresh
      collectParents_mem (nodup_collectParents _ _)
    refine Eq.trans ?_ hself.symm
    ext a
    rw [List.mem_toFinset, List.mem_toFinset,
      mem_upWalk_iff hwell (nodup_collectParents _ _) collectParents_mem,
      mem_upWalk_iff hlinks (nodup_collectParents _ _) collectParents_mem]
    constructor
    · rintro ⟨p, hp, hap⟩
      exact ⟨p, hparents.mpr hp, hap.imp_left (hsame p hp a).mpr⟩
    · rintro ⟨p, hp, hap⟩
      exact ⟨p, hparents.mp hp, hap.imp_left (hsame p (hparents.mp hp) a).mp⟩
  have hnodup := (upWalk_spec hwell.linked hwell.someLinks
    (nodup_collectParents reg.pool r.tx.inputs) collectParents_mem).2.2.2
  have hfew : (upWalk (parentsOf reg.pool) reg.pool.length
      (collectParents reg.pool r.tx.inputs)).length ≤ clusterLimit := by
    obtain ⟨cluster, hlen, hstart, hcluster⟩ := hadm.cluster
    refine (List.subperm_of_subset hnodup fun a ha => ?_).length_le.trans hlen
    obtain ⟨p, hp, hap⟩ :=
      (mem_upWalk_iff hwell (nodup_collectParents _ _) collectParents_mem).mp ha
    have hout : p ∉ evict := fun hin => hstays p hp (List.mem_append_left _ hin)
    rcases hap with hap | rfl
    · exact (hadm.cluster_above hwell hcluster (hstart p hp hout) hout hap).1
    · exact hstart a hp hout
  rw [heq]
  refine (h.removeNodes hwell (evict ++ xs)).insert hlinks hfresh hnodup hwalk hfew rfl ?_
  rw [(reg.sameRecord_removeNodes (evict ++ xs)).1]
  rfl

/-! ## Clean runs -/

/-- The runs in which every removal is clean. -/
inductive CleanReach : Registry → Prop where
  | empty (figures : Txid → Figures) : CleanReach ⟨[], figures⟩
  | add {reg : Registry} {σ : Type} (P : Policy σ) (rates : Rates)
      (coins : Outpoint → Option UInt64) (m : σ) (r : Rtx) :
      CleanBatch reg.pool (offerOrder P rates coins m reg r) →
      CleanReach reg → CleanReach (reg.mpolAddCore P rates coins m r).2
  | removePackage {reg : Registry} (txid : Txid) :
      CleanBatch reg.pool (Registry.packageOrder reg.pool txid) →
      CleanReach reg → CleanReach (reg.removePackage txid)
  | removeConfirmed {reg : Registry} (txid : Txid) :
      CleanBatch reg.pool [txid] → CleanReach reg → CleanReach (reg.removeNode txid)
  | blockConnect {reg : Registry} (order : List Txid) (block : List Tx) :
      reg.Lists order (block.tail.foldl (markTx reg.pool) Marks.none).leaves →
      CleanMarked reg order (block.tail.foldl (markTx reg.pool) Marks.none).leaves →
      CleanReach reg → CleanReach (reg.blockConnect order block)

theorem CleanReach.regReach {reg : Registry} (h : CleanReach reg) : RegReach reg := by
  induction h with
  | empty figures => exact .empty figures
  | add P rates coins m r _ _ ih => exact ih.add P rates coins m r
  | removePackage txid _ _ ih => exact ih.removePackage txid
  | removeConfirmed txid _ _ ih => exact ih.removeConfirmed txid
  | blockConnect order block hlists _ _ ih => exact ih.blockConnect order block hlists

theorem RegReach.upExact {reg : Registry} (h : RegReach reg) : UpExact reg := by
  induction h with
  | empty figures => exact ⟨nofun, nofun, fun x => by simp [ancestors]⟩
  | add P rates coins m r hreach ih =>
      exact ih.mpolAddCore hreach.counted.2 hreach.poolReach.coherent P rates coins m r
  | removePackage txid hreach ih => exact ih.removeNodes hreach.counted.2 _
  | removeConfirmed txid hreach ih => exact ih.removeNode hreach.counted.2 txid
  | blockConnect order block _ hreach ih => exact ih.removeMarked hreach.counted.2 _ _

theorem DownExact.mpolAddCore {reg : Registry} (h : DownExact reg) (hwell : WellLinked reg.pool)
    {σ : Type} {P : Policy σ} {rates : Rates} {coins : Outpoint → Option UInt64} {m : σ} {r : Rtx}
    (hclean : CleanBatch reg.pool (offerOrder P rates coins m reg r)) :
    DownExact (reg.mpolAddCore P rates coins m r).2 := by
  have hbatch := (downExact_removeNodes_iff hwell h _).mpr hclean
  rcases reg.mpolAddCore_shape P rates coins m r with hxs | ⟨evict, xs, hok, horder, -, heq⟩
  · rw [hxs]
    exact hbatch
  · rw [horder] at hbatch
    rw [heq]
    refine hbatch.insert ?_ (fun hin => ?_) _ _ _ _
    · rw [Registry.pool_removeNodes]
      exact hwell.removeNodes _
    · exact (admissionChecks_ok hok).2.2.1 ((reg.fewer_removeNodes _).txid_mem hin)

theorem CleanReach.downExact {reg : Registry} (h : CleanReach reg) : DownExact reg := by
  induction h with
  | empty figures => exact nofun
  | add P rates coins m r hclean hreach ih =>
      exact ih.mpolAddCore hreach.regReach.counted.2 hclean
  | removePackage txid hclean hreach ih =>
      exact (downExact_removeNodes_iff hreach.regReach.counted.2 ih _).mpr hclean
  | removeConfirmed txid hclean hreach ih =>
      exact (downExact_removeNodes_iff hreach.regReach.counted.2 ih [txid]).mpr hclean
  | blockConnect order block hlists hclean hreach ih =>
      exact (downExact_removeMarked_iff hreach.regReach.counted.2 ih hlists).mpr hclean

theorem cleanBatch_nil (pool : Pool) : CleanBatch pool [] := fun _ _ _ hy => .inl hy

/-- An entry without children leaves cleanly. -/
theorem cleanBatch_leaf {pool : Pool} {x : Txid} (hleaf : children pool x = [])
    (hlen : pool.length ≤ decrAncestorsMax) : CleanBatch pool [x] := by
  intro a _ y hy
  by_cases hyx : y = x
  · subst hyx
    exact .inr ⟨[], [], rfl, hlen, hy⟩
  · refine .inl ((above_keepNodes_iff (fun n hn _ p hp => ?_) (decide_eq_true hyx)).mpr hy)
    refine decide_eq_true fun hpx => ?_
    have hchild := mem_children.mpr ⟨n, hn, hpx ▸ hp, rfl⟩
    rw [hleaf] at hchild
    exact absurd hchild List.not_mem_nil

/-- Four transactions, each spending the one before. -/
def line : Nat → Registry
  | 0 => emptyRegistry.offer (sampleRtx 20 [⟨sampleTxid 1, 0⟩] [999000])
  | n + 1 => (line n).offer
      (sampleRtx (21 + n) [⟨sampleTxid (20 + n), 0⟩] [UInt64.ofNat (998000 - 1000 * n)])

theorem cleanReach_line : CleanReach (line 3) := by
  have hoffer : ∀ {reg : Registry} (r : Rtx),
      offerOrder samplePolicy trucRates sampleChain.coins () reg r = [] →
      CleanReach reg → CleanReach (reg.offer r) := by
    intro reg r hnone hreach
    refine .add samplePolicy trucRates sampleChain.coins () r ?_ hreach
    rw [hnone]
    exact cleanBatch_nil _
  exact hoffer _ (by decide) (hoffer _ (by decide) (hoffer _ (by decide)
    (hoffer _ (by decide) (.empty _))))

end BitcoinMachineCode.Mempool
