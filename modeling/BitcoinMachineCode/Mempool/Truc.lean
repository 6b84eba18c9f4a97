import BitcoinMachineCode.Mempool.Tallies

/-!
# The TRUC topology

The rules are checked once, at admission, against stored totals and an eviction set
that is applied afterwards.  As no total is ever too low, a parent that shows no room
to spare has none, and the shape they ask for holds of every reachable pool.
-/

namespace BitcoinMachineCode.Mempool

open BitcoinMachineCode.Foundation BitcoinMachineCode.Storage

/-- At most one ancestor and one descendant for a version 3 entry, and no link between
version 3 and another version. -/
structure TrucShape (pool : Pool) : Prop where
  same : ∀ n ∈ pool, ∀ p ∈ pool, p.txid ∈ n.parents → isTruc n.rtx = isTruc p.rtx
  up : ∀ n ∈ pool, isTruc n.rtx → (ancestors pool n.txid).card ≤ 1
  down : ∀ n ∈ pool, isTruc n.rtx → (descendants pool n.txid).card ≤ 1

theorem TrucShape.nil : TrucShape [] := ⟨nofun, nofun, nofun⟩

theorem Fewer.descendants_subset {pool pool' : Pool} (h : Fewer pool pool') (a : Txid) :
    descendants pool' a ⊆ descendants pool a :=
  fun _ hx => mem_descendants.mpr (h.above (mem_descendants.mp hx))

theorem Fewer.ancestors_subset {pool pool' : Pool} (h : Fewer pool pool') (x : Txid) :
    ancestors pool' x ⊆ ancestors pool x := by
  intro a ha
  simp only [ancestors, Finset.mem_filter, List.mem_toFinset] at ha ⊢
  exact ⟨h.txid_mem ha.1, h.above ha.2⟩

theorem TrucShape.fewer {pool pool' : Pool} (h : TrucShape pool) (hfewer : Fewer pool pool') :
    TrucShape pool' where
  same n' hn' p' hp' hlink := by
    obtain ⟨n, hn, hr, hsub⟩ := hfewer n' hn'
    obtain ⟨p, hp, hrp, -⟩ := hfewer p' hp'
    have htxid : p.txid = p'.txid := by rw [Node.txid, Node.txid, hrp]
    rw [← hr, ← hrp]
    exact h.same n hn p hp (htxid ▸ hsub _ hlink)
  up n' hn' hv3 := by
    obtain ⟨n, hn, hr, -⟩ := hfewer n' hn'
    have hcard := h.up n hn (hr ▸ hv3)
    rw [Node.txid, hr] at hcard
    exact (Finset.card_le_card (hfewer.ancestors_subset _)).trans hcard
  down n' hn' hv3 := by
    obtain ⟨n, hn, hr, -⟩ := hfewer n' hn'
    have hcard := h.down n hn (hr ▸ hv3)
    rw [Node.txid, hr] at hcard
    exact (Finset.card_le_card (hfewer.descendants_subset _)).trans hcard

/-- The version is the same all along a line of descent. -/
theorem TrucShape.same_above {pool : Pool} (h : TrucShape pool) (hwell : WellLinked pool)
    {a b : Node} (ha : a ∈ pool) (hb : b ∈ pool) (hab : Above pool a.txid b.txid) :
    isTruc b.rtx = isTruc a.rtx := by
  have hgen : ∀ x, Above pool a.txid x → ∀ n ∈ pool, n.txid = x → isTruc n.rtx = isTruc a.rtx := by
    intro x hx
    have hstep : ∀ {y z : Txid}, z ∈ children pool y → ∀ n ∈ pool, n.txid = z →
        ∀ m ∈ pool, m.txid = y → isTruc n.rtx = isTruc m.rtx := by
      intro y z hz n hn hnz m hm hmy
      obtain ⟨n', hn', hlink, hn'z⟩ := mem_children.mp hz
      obtain rfl := node_eq_of_txid_eq hwell.nodup hn hn' (hnz.trans hn'z.symm)
      exact h.same n hn m hm (hmy ▸ hlink)
    induction hx with
    | single hlast => exact fun n hn hnz => hstep hlast n hn hnz a ha rfl
    | @tail y z hay hlast ih =>
        intro n hn hnz
        obtain ⟨m, hm, hmy⟩ := List.mem_map.mp (Above.right_mem hay)
        exact (hstep hlast n hn hnz m hm hmy).trans (ih m hm hmy)
  exact hgen b.txid hab b hb rfl

/-! ## What the rules leave -/

/-- What the rules have to see to, for a newcomer over the pool `now` that is left. -/
structure TrucFits (now : Pool) (r : Rtx) : Prop where
  same : ∀ p ∈ now, p.txid ∈ collectParents now r.tx.inputs → isTruc r = isTruc p.rtx
  one : isTruc r → (collectParents now r.tx.inputs).length ≤ 1
  top : isTruc r → ∀ p ∈ collectParents now r.tx.inputs, ancestors now p = ∅
  childless : isTruc r → ∀ p ∈ collectParents now r.tx.inputs, descendants now p = ∅

theorem TrucShape.store {now : Pool} {r : Rtx} (h : TrucShape now) (hwell : WellLinked now)
    (hfresh : r.tx.txid ∉ now.map Node.txid) (hfits : TrucFits now r) :
    TrucShape (now ++ [⟨r, collectParents now r.tx.inputs⟩]) := by
  have habove : ∀ {a x}, Above (now ++ [⟨r, collectParents now r.tx.inputs⟩]) a x ↔
      Above now a x ∨ (x = r.tx.txid ∧ ∃ p ∈ collectParents now r.tx.inputs,
        Above now a p ∨ a = p) :=
    above_append_iff hfresh hwell.linked collectParents_mem
  have hlinked : ∀ n ∈ now ++ [⟨r, collectParents now r.tx.inputs⟩], ∀ p ∈ n.parents,
      p ∈ now.map Node.txid := by
    intro n hn p hp
    rcases List.mem_append.mp hn with hold | hnew
    · exact hwell.linked n hold p hp
    · obtain rfl := List.mem_singleton.mp hnew
      exact collectParents_mem p hp
  constructor
  · intro n hn p hp hlink
    rcases List.mem_append.mp hp with hpold | hpnew
    · rcases List.mem_append.mp hn with hold | hnew
      · exact h.same n hold p hpold hlink
      · obtain rfl := List.mem_singleton.mp hnew
        exact hfits.same p hpold hlink
    · obtain rfl := List.mem_singleton.mp hpnew
      exact absurd (hlinked n hn _ hlink) hfresh
  · intro n hn hv3
    rcases List.mem_append.mp hn with hold | hnew
    · have hsub : ancestors (now ++ [⟨r, collectParents now r.tx.inputs⟩]) n.txid ⊆
          ancestors now n.txid := by
        intro a ha
        rw [mem_ancestors hwell.linked]
        refine (habove.mp (above_of_mem_ancestors ha)).resolve_right fun hbad => ?_
        exact hfresh (hbad.1 ▸ List.mem_map_of_mem hold)
      exact (Finset.card_le_card hsub).trans (h.up n hold hv3)
    · obtain rfl := List.mem_singleton.mp hnew
      have hsub : ancestors (now ++ [⟨r, collectParents now r.tx.inputs⟩]) r.tx.txid ⊆
          (collectParents now r.tx.inputs).toFinset := by
        intro a ha
        rw [List.mem_toFinset]
        rcases habove.mp (above_of_mem_ancestors ha) with hin | ⟨-, p, hp, hin | rfl⟩
        · exact absurd hin.right_mem hfresh
        · have hmem := (mem_ancestors hwell.linked).mpr hin
          rw [hfits.top hv3 p hp] at hmem
          exact absurd hmem (Finset.notMem_empty a)
        · exact hp
      exact (Finset.card_le_card hsub).trans
        ((List.toFinset_card_le _).trans (hfits.one hv3))
  · intro n hn hv3
    rcases List.mem_append.mp hn with hold | hnew
    · by_cases hup : ∃ p ∈ collectParents now r.tx.inputs, Above now n.txid p ∨ n.txid = p
      · -- the newcomer comes below this entry, and nothing else is there
        obtain ⟨p, hp, hnp⟩ := hup
        obtain ⟨m, hm, hmp⟩ := List.mem_map.mp (collectParents_mem p hp)
        have hrv3 : isTruc r = true := by
          rw [hfits.same m hm (hmp ▸ hp)]
          rcases hnp with hnp | hnp
          · rw [h.same_above hwell hold hm (hmp ▸ hnp)]
            exact hv3
          · obtain rfl := node_eq_of_txid_eq hwell.nodup hold hm (hnp.trans hmp.symm)
            exact hv3
        have heq : n.txid = p := by
          refine hnp.resolve_left fun hin => ?_
          have hmem := (mem_ancestors hwell.linked).mpr hin
          rw [hfits.top hrv3 p hp] at hmem
          exact absurd hmem (Finset.notMem_empty _)
        have hsub : descendants (now ++ [⟨r, collectParents now r.tx.inputs⟩]) n.txid ⊆
            {r.tx.txid} := by
          intro x hx
          rcases habove.mp (mem_descendants.mp hx) with hin | ⟨hself, -⟩
          · have hmem := mem_descendants.mpr hin
            rw [heq, hfits.childless hrv3 p hp] at hmem
            exact absurd hmem (Finset.notMem_empty x)
          · exact Finset.mem_singleton.mpr hself
        exact Finset.card_le_card hsub
      · have hsub : descendants (now ++ [⟨r, collectParents now r.tx.inputs⟩]) n.txid ⊆
            descendants now n.txid := by
          intro x hx
          rw [mem_descendants]
          exact (habove.mp (mem_descendants.mp hx)).resolve_right fun hbad => hup hbad.2
        exact (Finset.card_le_card hsub).trans (h.down n hold hv3)
    · obtain rfl := List.mem_singleton.mp hnew
      have hnone : descendants (now ++ [⟨r, collectParents now r.tx.inputs⟩]) r.tx.txid = ∅ :=
        descendants_append_self (n := ⟨r, collectParents now r.tx.inputs⟩) hfresh hwell.linked
          collectParents_mem
      change (descendants _ r.tx.txid).card ≤ 1
      rw [hnone]
      exact Nat.zero_le 1

/-! ## What the rules check -/

section Rules

variable {σ : Type} {P : Policy σ} {rates : Rates} {coins : Outpoint → Option UInt64} {m : σ}
  {reg : Registry} {r : Rtx} {evict₀ evict : List Txid}

theorem trucVerdict_inherits (h : ∀ reason, trucVerdict rates coins reg r evict₀ ≠ .refuse reason) :
    ∀ p ∈ collectParents reg.pool r.tx.inputs, ∀ n, findNode reg.pool p = some n →
      isTruc r = isTruc n.rtx := by
  intro p hp n hn
  by_contra hne
  refine h "TRUC-violation" ?_
  unfold trucVerdict
  simp only
  rw [if_pos]
  refine List.any_eq_true.mpr ⟨p, hp, ?_⟩
  rw [hn]
  exact bne_iff_ne.mpr hne

/-- A version 3 newcomer that passes has no parent, or one without ancestors that shows
room for a child, loses one, or is to lose one. -/
theorem trucVerdict_parent (h : ∀ reason, trucVerdict rates coins reg r evict₀ ≠ .refuse reason)
    (hv3 : isTruc r = true) :
    collectParents reg.pool r.tx.inputs = [] ∨
      ∃ parent, collectParents reg.pool r.tx.inputs = [parent] ∧
        (reg.figures parent).ancCnt ≤ 1 ∧
        ((reg.figures parent).descCnt ≤ 1 ∨ childReplaced reg.pool evict₀ parent = true ∨
          trucVerdict rates coins reg r evict₀ = .sibling) := by
  unfold trucVerdict at h ⊢
  simp only [hv3, Bool.not_true] at h ⊢
  split at h
  · exact absurd rfl (h _)
  simp only [Bool.false_eq_true, if_false] at h ⊢
  split at h
  · exact absurd rfl (h _)
  next hother hsize =>
  rw [if_neg hother, if_neg hsize]
  cases hpar : collectParents reg.pool r.tx.inputs with
  | nil => exact .inl rfl
  | cons parent others =>
      rw [hpar] at h
      simp only at h ⊢
      split at h
      · exact absurd rfl (h _)
      next hone =>
      rw [if_neg hone]
      have hnil : others = [] := by
        cases others with
        | nil => rfl
        | cons x xs =>
            simp only [trucAncestorLimit, List.length_cons] at hone
            omega
      subst hnil
      refine .inr ⟨parent, rfl, ?_⟩
      unfold trucParentVerdict at h ⊢
      split at h
      · exact absurd rfl (h _)
      next hanc =>
      split at h
      · exact absurd rfl (h _)
      next hbig =>
      rw [if_neg hanc, if_neg hbig]
      simp only [trucAncestorLimit] at hanc
      refine ⟨by omega, ?_⟩
      split at h
      · next hroom =>
          rcases hroom with hroom | hroom
          · simp only [trucDescendantLimit] at hroom
            exact .inl (by omega)
          · exact .inr (.inl hroom)
      next hroom =>
      rw [if_neg hroom]
      split at h
      · exact absurd rfl (h _)
      next sibling hsib =>
      split at h
      · next hfull => exact .inr (.inr (by simp only [if_pos hfull]))
      next hfull =>
      split at h
      · exact absurd rfl (h _)
      next hfee => exact .inr (.inr (by simp only [if_neg hfull]))

theorem trucChecks_not_refused {Q : Policy σ} {pool : Pool}
    (h : trucChecks Q m pool r evict₀ = .ok evict) : ∀ reason, Q.truc m pool r evict₀ ≠ .refuse reason := by
  intro reason hbad
  unfold trucChecks at h
  rw [hbad] at h
  cases h

/-- A sibling that is to go is the only entry below the parent, and joins the set. -/
theorem trucChecks_sibling {Q : Policy σ} {pool : Pool} {parent : Txid}
    (h : trucChecks Q m pool r evict₀ = .ok evict) (hsib : Q.truc m pool r evict₀ = .sibling)
    (hparent : collectParents pool r.tx.inputs = [parent]) :
    ∃ sibling, collectDescendantTxids pool parent = some [sibling] ∧ sibling ∈ evict := by
  unfold trucChecks at h
  simp only [hsib, hparent] at h
  split at h
  · cases h
  split at h
  · next sibling hdesc =>
      split at h
      · cases h
      obtain rfl := Except.ok.inj h
      exact ⟨sibling, hdesc, List.mem_append_right _ List.mem_cons_self⟩
  · cases h

/-- What the rules see of the pool is what is left of it after the evictions: the one
parent has lost its child. -/
theorem childless_of_checks (hcounted : Counted reg) (hwell : WellLinked reg.pool)
    (hshape : TrucShape reg.pool) (hv3 : isTruc r = true)
    (hok : trucChecks (P.onRegistry rates coins reg) m reg.pool r evict₀ = .ok evict)
    {parent : Txid} (hparent : collectParents reg.pool r.tx.inputs = [parent])
    (hroom : (reg.figures parent).descCnt ≤ 1 ∨ childReplaced reg.pool evict₀ parent = true ∨
      trucVerdict rates coins reg r evict₀ = .sibling) :
    descendants reg.pool parent ⊆ evict.toFinset := by
  have hmem : parent ∈ collectParents reg.pool r.tx.inputs := hparent ▸ List.mem_cons_self
  have hin : parent ∈ reg.pool.map Node.txid := collectParents_mem parent hmem
  rcases hroom with hfew | hreplaced | hsib
  · have hcard := hcounted.desc parent hin
    have hnone : descendants reg.pool parent = ∅ := Finset.card_eq_zero.mp (by omega)
    rw [hnone]
    exact Finset.empty_subset _
  · -- the entry that leaves is the one descendant a version 3 entry can have
    obtain ⟨e, he, hlink⟩ := List.any_eq_true.mp hreplaced
    have hbelow : e ∈ descendants reg.pool parent :=
      mem_descendants.mpr (.single ((mem_parentsOf hwell.nodup).mp (decide_eq_true_iff.mp hlink)))
    obtain ⟨n, hn, rfl⟩ := List.mem_map.mp hin
    have hnv3 : isTruc n.rtx = true := by
      rw [← trucVerdict_inherits (trucChecks_not_refused hok) n.txid hmem n
        (findNode_of_mem hwell.nodup hn)]
      exact hv3
    obtain ⟨sibling, hsibling⟩ := trucChecks_ok_eq hok
    intro x hx
    rw [Finset.card_le_one.mp (hshape.down n hn hnv3) x hx e hbelow, List.mem_toFinset, hsibling]
    exact List.mem_append_left _ he
  · obtain ⟨sibling, hdesc, hgone⟩ := trucChecks_sibling hok hsib hparent
    intro x hx
    have hclosed := collectDescendantTxids_eq_some hdesc
    have hx' : x ∈ [parent, sibling] := by
      have habove := mem_descendants.mp hx
      have hstep : ∀ {y : Txid}, Above reg.pool parent y → y ∈ [parent, sibling] := by
        intro y hy
        induction hy with
        | single hlast => exact hclosed parent List.mem_cons_self _ hlast
        | tail _ hlast ih => exact hclosed _ ih _ hlast
      exact hstep habove
    rw [List.mem_toFinset]
    rcases List.mem_cons.mp hx' with rfl | hx'
    · exact absurd (mem_descendants.mp hx) (hwell.acyclic.irrefl x)
    · rw [List.mem_singleton.mp hx']
      exact hgone

theorem trucFits_of_checks {now : Pool} (hcounted : Counted reg) (hwell : WellLinked reg.pool)
    (hshape : TrucShape reg.pool)
    (hok : trucChecks (P.onRegistry rates coins reg) m reg.pool r evict₀ = .ok evict)
    (hfewer : Fewer reg.pool now) (hgone : ∀ x ∈ evict, x ∉ now.map Node.txid) :
    TrucFits now r := by
  have hpass : ∀ reason, trucVerdict rates coins reg r evict₀ ≠ .refuse reason :=
    trucChecks_not_refused hok
  have hparents : ∀ p ∈ collectParents now r.tx.inputs,
      p ∈ collectParents reg.pool r.tx.inputs := by
    intro p hp
    obtain ⟨hin, hmem⟩ := mem_collectParents.mp hp
    exact mem_collectParents.mpr ⟨hin, hfewer.txid_mem hmem⟩
  constructor
  · intro p' hp' hlink
    obtain ⟨p, hp, hr, -⟩ := hfewer p' hp'
    have htxid : p.txid = p'.txid := by rw [Node.txid, Node.txid, hr]
    rw [← hr]
    exact trucVerdict_inherits hpass p.txid (htxid ▸ hparents _ hlink) p
      (findNode_of_mem hwell.nodup hp)
  · intro hv3
    have hsub : (collectParents now r.tx.inputs).length ≤
        (collectParents reg.pool r.tx.inputs).length :=
      (List.subperm_of_subset (nodup_collectParents _ _) hparents).length_le
    rcases trucVerdict_parent hpass hv3 with hnone | ⟨parent, hparent, -⟩
    · rw [hnone] at hsub
      exact hsub.trans (Nat.zero_le 1)
    · rw [hparent] at hsub
      exact hsub
  · intro hv3 p hp
    have hold := hparents p hp
    rcases trucVerdict_parent hpass hv3 with hnone | ⟨parent, hparent, hanc, -⟩
    · rw [hnone] at hold
      exact absurd hold List.not_mem_nil
    · rw [hparent] at hold
      obtain rfl := List.mem_singleton.mp hold
      refine Finset.eq_empty_of_forall_notMem fun a ha => ?_
      have habove := above_of_mem_ancestors (hfewer.ancestors_subset p ha)
      have hcnt := hcounted.anc p habove.right_mem ⟨a, habove⟩
      omega
  · intro hv3 p hp
    have hold := hparents p hp
    rcases trucVerdict_parent hpass hv3 with hnone | ⟨parent, hparent, -, hroom⟩
    · rw [hnone] at hold
      exact absurd hold List.not_mem_nil
    · rw [hparent] at hold
      obtain rfl := List.mem_singleton.mp hold
      have hleft := childless_of_checks hcounted hwell hshape hv3 hok hparent hroom
      refine Finset.eq_empty_of_forall_notMem fun x hx => ?_
      have hx' := hleft (hfewer.descendants_subset p hx)
      exact hgone x (List.mem_toFinset.mp hx') (mem_descendants.mp hx).right_mem

end Rules

/-! ## Reachable pools -/

theorem TrucShape.mpolAddCore {reg : Registry} (h : TrucShape reg.pool) (hcounted : Counted reg)
    (hwell : WellLinked reg.pool) {σ : Type} (P : Policy σ) (rates : Rates)
    (coins : Outpoint → Option UInt64) (m : σ) (r : Rtx) :
    TrucShape (reg.mpolAddCore P rates coins m r).2.pool := by
  rcases reg.mpolAddCore_shape P rates coins m r with hxs | ⟨evict, xs, hok, -, -, heq⟩
  · rw [hxs, Registry.pool_removeNodes]
    exact h.fewer (fewer_removeNodes _ _)
  · obtain ⟨-, -, hfresh, -, evict₀, -, -, htruc⟩ := admissionChecks_ok hok
    have hfewer := reg.fewer_removeNodes (evict ++ xs)
    have hgone : ∀ x ∈ evict, x ∉ (reg.removeNodes (evict ++ xs)).pool.map Node.txid := by
      intro x hx
      rw [Registry.pool_removeNodes]
      exact not_mem_removeNodes (List.mem_append_left _ hx)
    have hlinks : WellLinked (reg.removeNodes (evict ++ xs)).pool :=
      (hcounted.removeNodes hwell (evict ++ xs)).2
    rw [heq]
    exact (h.fewer hfewer).store hlinks (fun hin => hfresh (hfewer.txid_mem hin))
      (trucFits_of_checks hcounted hwell h htruc hfewer hgone)

/-- Every reachable pool has the shape the rules ask for. -/
theorem trucShape_of_reach {reg : Registry} (h : RegReach reg) : TrucShape reg.pool := by
  induction h with
  | empty figures => exact TrucShape.nil
  | add P rates coins m r hreach ih =>
      obtain ⟨hcounted, hwell⟩ := hreach.counted
      exact ih.mpolAddCore hcounted hwell P rates coins m r
  | removePackage txid _ ih =>
      rw [Registry.removePackage, Registry.pool_removeNodes]
      exact ih.fewer (fewer_removeNodes _ _)
  | removeConfirmed txid _ ih =>
      rw [Registry.pool_removeNode]
      exact ih.fewer (fewer_removeNode _ _)
  | blockConnect order block _ _ ih => exact ih.fewer (fewer_keepNodes _ _)

/-! A parent, its child, and a sibling that takes the child's place. -/

def trucRtx (n : Nat) (inputs : List Outpoint) (values : List UInt64) : Rtx :=
  { sampleRtx n inputs values with bytes := [3, 0, 0, 0] }

def trucRates : Rates := ⟨fun _ => 100, 1000⟩

def Registry.offer (reg : Registry) (r : Rtx) : Registry :=
  (reg.mpolAddCore samplePolicy trucRates sampleChain.coins () r).2

def emptyRegistry : Registry := ⟨[], fun _ => ⟨0, 0, [], 0, 0, 0, 0, 0⟩⟩

def trucFamily : Registry :=
  ((emptyRegistry.offer (trucRtx 20 [⟨sampleTxid 1, 0⟩] [400000, 500000])).offer
    (trucRtx 21 [⟨sampleTxid 20, 0⟩] [399900])).offer
      (trucRtx 22 [⟨sampleTxid 20, 1⟩] [499000])

theorem regReach_trucFamily : RegReach trucFamily :=
  (((RegReach.empty _).add samplePolicy trucRates sampleChain.coins () _).add
    samplePolicy trucRates sampleChain.coins () _).add samplePolicy trucRates sampleChain.coins () _

theorem trucShape_family :
    trucFamily.pool.map (fun n => (isTruc n.rtx, n.txid, n.parents)) =
        [(true, sampleTxid 20, []), (true, sampleTxid 22, [sampleTxid 20])] ∧
      TrucShape trucFamily.pool :=
  ⟨by decide, trucShape_of_reach regReach_trucFamily⟩

end BitcoinMachineCode.Mempool
