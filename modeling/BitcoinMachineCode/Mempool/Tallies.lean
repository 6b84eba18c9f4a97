import BitcoinMachineCode.Mempool.Registry
import Mathlib.Algebra.Order.BigOperators.Group.List
import Mathlib.Algebra.Order.BigOperators.Group.Finset

/-!
# What the totals count

The ancestors and descendants of an entry along the links, and what the totals of the
registry have to do with them.  A total is never too low: what is added is added for
every ancestor, and what is taken off is taken off for ancestors only.
-/

namespace BitcoinMachineCode.Mempool

open BitcoinMachineCode.Foundation BitcoinMachineCode.Storage

/-! ## Ancestors and descendants -/

/-- The first is an ancestor of the second. -/
def Above (pool : Pool) : Txid → Txid → Prop :=
  Relation.TransGen fun a b => b ∈ children pool a

open Classical in
noncomputable def descendants (pool : Pool) (a : Txid) : Finset Txid :=
  (pool.map Node.txid).toFinset.filter (Above pool a)

open Classical in
noncomputable def ancestors (pool : Pool) (x : Txid) : Finset Txid :=
  (pool.map Node.txid).toFinset.filter (Above pool · x)

/-- Links lead down in some ranking of the entries. -/
def Acyclic (pool : Pool) : Prop :=
  ∃ rank : Txid → Nat, ∀ n ∈ pool, ∀ p ∈ n.parents, rank p < rank n.txid

/-- Some of the nodes, with some of their links. -/
def Fewer (pool pool' : Pool) : Prop :=
  ∀ n' ∈ pool', ∃ n ∈ pool, n.rtx = n'.rtx ∧ ∀ p ∈ n'.parents, p ∈ n.parents

theorem Above.right_mem {pool : Pool} {a x : Txid} (h : Above pool a x) :
    x ∈ pool.map Node.txid := by
  cases h with
  | single hlast => exact children_subset_pool hlast
  | tail _ hlast => exact children_subset_pool hlast

theorem Above.left_mem {pool : Pool}
    (hlinked : ∀ n ∈ pool, ∀ p ∈ n.parents, p ∈ pool.map Node.txid) {a x : Txid}
    (h : Above pool a x) : a ∈ pool.map Node.txid := by
  have hfirst : ∀ {b}, b ∈ children pool a → a ∈ pool.map Node.txid := by
    intro b hb
    obtain ⟨n, hn, hpar, -⟩ := mem_children.mp hb
    exact hlinked n hn a hpar
  induction h with
  | single hlast => exact hfirst hlast
  | tail _ _ ih => exact ih

theorem mem_descendants {pool : Pool} {a x : Txid} :
    x ∈ descendants pool a ↔ Above pool a x := by
  simp only [descendants, Finset.mem_filter, List.mem_toFinset]
  exact ⟨fun h => h.2, fun h => ⟨h.right_mem, h⟩⟩

theorem above_of_mem_ancestors {pool : Pool} {a x : Txid} (h : a ∈ ancestors pool x) :
    Above pool a x := by
  simp only [ancestors, Finset.mem_filter] at h
  exact h.2

theorem mem_ancestors {pool : Pool}
    (hlinked : ∀ n ∈ pool, ∀ p ∈ n.parents, p ∈ pool.map Node.txid) {a x : Txid} :
    a ∈ ancestors pool x ↔ Above pool a x := by
  simp only [ancestors, Finset.mem_filter, List.mem_toFinset]
  exact ⟨fun h => h.2, fun h => ⟨h.left_mem hlinked, h⟩⟩

theorem Acyclic.irrefl {pool : Pool} (h : Acyclic pool) (x : Txid) : ¬ Above pool x x := by
  obtain ⟨rank, hrank⟩ := h
  have hlt : ∀ {a b}, Above pool a b → rank a < rank b := by
    intro a b hab
    have hstep : ∀ {a b}, b ∈ children pool a → rank a < rank b := by
      intro a b hb
      obtain ⟨n, hn, hpar, rfl⟩ := mem_children.mp hb
      exact hrank n hn a hpar
    induction hab with
    | single hlast => exact hstep hlast
    | tail _ hlast ih => exact ih.trans (hstep hlast)
  exact fun hself => Nat.lt_irrefl _ (hlt hself)

theorem Fewer.children {pool pool' : Pool} (h : Fewer pool pool') {a b : Txid}
    (hb : b ∈ children pool' a) : b ∈ children pool a := by
  obtain ⟨n', hn', hpar, rfl⟩ := mem_children.mp hb
  obtain ⟨n, hn, hr, hp⟩ := h n' hn'
  exact mem_children.mpr ⟨n, hn, hp a hpar, by rw [Node.txid, Node.txid, hr]⟩

theorem Fewer.above {pool pool' : Pool} (h : Fewer pool pool') {a b : Txid}
    (hab : Above pool' a b) : Above pool a b :=
  Relation.TransGen.mono (fun _ _ hc => h.children hc) _ _ hab

theorem Fewer.txid_mem {pool pool' : Pool} (h : Fewer pool pool') {x : Txid}
    (hx : x ∈ pool'.map Node.txid) : x ∈ pool.map Node.txid := by
  obtain ⟨n', hn', rfl⟩ := List.mem_map.mp hx
  obtain ⟨n, hn, hr, -⟩ := h n' hn'
  exact List.mem_map.mpr ⟨n, hn, by rw [Node.txid, Node.txid, hr]⟩

theorem Fewer.acyclic {pool pool' : Pool} (h : Fewer pool pool') (hac : Acyclic pool) :
    Acyclic pool' := by
  obtain ⟨rank, hrank⟩ := hac
  refine ⟨rank, fun n' hn' p hp => ?_⟩
  obtain ⟨n, hn, hr, hsub⟩ := h n' hn'
  have hlt := hrank n hn p (hsub p hp)
  rwa [Node.txid, hr] at hlt

theorem fewer_keepNodes (pool : Pool) (keep : Txid → Bool) : Fewer pool (keepNodes pool keep) := by
  intro n' hn'
  obtain ⟨n, hn, -, rfl⟩ := mem_keepNodes.mp hn'
  exact ⟨n, hn, rfl, fun p hp => (List.mem_filter.mp hp).1⟩

theorem fewer_removeNode (pool : Pool) (x : Txid) : Fewer pool (removeNode pool x) :=
  fewer_keepNodes pool _

theorem fewer_removeNodes (pool : Pool) (xs : List Txid) : Fewer pool (removeNodes pool xs) := by
  rw [removeNodes_eq]
  exact fewer_keepNodes pool _

theorem mem_keepNodes_txid {pool : Pool} {keep : Txid → Bool} {x : Txid} :
    x ∈ (keepNodes pool keep).map Node.txid ↔ x ∈ pool.map Node.txid ∧ keep x = true := by
  constructor
  · intro hx
    obtain ⟨n', hn', rfl⟩ := List.mem_map.mp hx
    obtain ⟨n, hn, hkeep, rfl⟩ := mem_keepNodes.mp hn'
    exact ⟨List.mem_map.mpr ⟨n, hn, rfl⟩, hkeep⟩
  · rintro ⟨hx, hkeep⟩
    obtain ⟨n, hn, rfl⟩ := List.mem_map.mp hx
    exact List.mem_map.mpr ⟨_, mem_keepNodes.mpr ⟨n, hn, hkeep, rfl⟩, rfl⟩

theorem mem_removeNode_txid {pool : Pool} {x y : Txid} :
    y ∈ (removeNode pool x).map Node.txid ↔ y ∈ pool.map Node.txid ∧ y ≠ x := by
  rw [removeNode_eq, mem_keepNodes_txid, decide_eq_true_iff]

/-! ## Walks -/

theorem mem_parentsOf {pool : Pool} (hnodup : (pool.map Node.txid).Nodup) {a x : Txid} :
    a ∈ parentsOf pool x ↔ x ∈ children pool a := by
  rw [mem_children]
  constructor
  · intro ha
    unfold parentsOf at ha
    cases hn : findNode pool x with
    | none => simp [hn] at ha
    | some n =>
        obtain ⟨hmem, htxid⟩ := findNode_eq_some hn
        exact ⟨n, hmem, by simpa [hn] using ha, htxid⟩
  · rintro ⟨n, hn, ha, rfl⟩
    rw [parentsOf, findNode_of_mem hnodup hn]
    exact ha

/-- Links that are some of the pool's. -/
structure SomeLinks (pool : Pool) (links : Txid → List Txid) : Prop where
  nodup : ∀ x, (links x).Nodup
  parents : ∀ x, ∀ a ∈ links x, x ∈ children pool a

theorem SomeLinks.above {pool : Pool} {links : Txid → List Txid} (h : SomeLinks pool links)
    {x a b : Txid} (ha : a ∈ links x)
    (hb : Relation.ReflTransGen (fun y z => z ∈ links y) a b) : Above pool b x := by
  induction hb with
  | refl => exact .single (h.parents x a ha)
  | tail _ hlast ih => exact Relation.TransGen.head (h.parents _ _ hlast) ih

/-- Everything the walk up from `start` finds, in a pool whose links stay within it. -/
theorem upWalk_spec {pool : Pool} {links : Txid → List Txid} {start : List Txid}
    (hlinked : ∀ n ∈ pool, ∀ p ∈ n.parents, p ∈ pool.map Node.txid)
    (hlinks : SomeLinks pool links) (hstart : start.Nodup)
    (hin : ∀ x ∈ start, x ∈ pool.map Node.txid) :
    ClosedUnder links (upWalk links pool.length start) ∧
      (∀ x ∈ start, x ∈ upWalk links pool.length start) ∧
      (∀ b ∈ upWalk links pool.length start, ∃ a ∈ start,
        Relation.ReflTransGen (fun y z => z ∈ links y) a b) ∧
      (upWalk links pool.length start).Nodup := by
  obtain ⟨found, hfound, hclosed, hsub, hreached, hnodup, -⟩ :=
    @exists_worklist _ _ links pool.length pool.length (pool.map Node.txid).toFinset
      (fun a _ b hb => by
        obtain ⟨n, hn, hpar, -⟩ := mem_children.mp (hlinks.parents a b hb)
        exact List.mem_toFinset.mpr (hlinked n hn b hpar))
      ((List.toFinset_card_le _).trans (by rw [List.length_map])) start.reverse start
      (Frontier.start start) (fun a ha => List.mem_toFinset.mpr (hin a ha)) hstart
      (by rw [List.length_reverse, Nat.add_comm])
  have heq : upWalk links pool.length start = found := by
    rw [upWalk, hfound, Option.getD_some]
  rw [heq]
  exact ⟨hclosed, hsub, hreached, hnodup⟩

/-! ## Well-linked pools -/

structure WellLinked (pool : Pool) : Prop where
  nodup : (pool.map Node.txid).Nodup
  linked : ∀ n ∈ pool, ∀ p ∈ n.parents, p ∈ pool.map Node.txid
  once : ∀ n ∈ pool, n.parents.Nodup
  acyclic : Acyclic pool

theorem WellLinked.nil : WellLinked [] :=
  ⟨List.nodup_nil, nofun, nofun, fun _ => 0, nofun⟩

theorem WellLinked.keepNodes {pool : Pool} (h : WellLinked pool) (keep : Txid → Bool) :
    WellLinked (keepNodes pool keep) where
  nodup := by
    have hmap : (Mempool.keepNodes pool keep).map Node.txid =
        (pool.filter (keep ·.txid)).map Node.txid := by
      simp [Mempool.keepNodes, Function.comp_def, Node.txid]
    rw [hmap]
    exact (List.filter_sublist.map _).nodup h.nodup
  linked := by
    intro n' hn' p hp
    obtain ⟨n, hn, -, rfl⟩ := mem_keepNodes.mp hn'
    obtain ⟨hp, hkeep⟩ := List.mem_filter.mp hp
    exact mem_keepNodes_txid.mpr ⟨h.linked n hn p hp, hkeep⟩
  once := by
    intro n' hn'
    obtain ⟨n, hn, -, rfl⟩ := mem_keepNodes.mp hn'
    exact (h.once n hn).filter _
  acyclic := (fewer_keepNodes pool keep).acyclic h.acyclic

theorem WellLinked.removeNode {pool : Pool} (h : WellLinked pool) (x : Txid) :
    WellLinked (removeNode pool x) := h.keepNodes _

theorem WellLinked.removeNodes {pool : Pool} (h : WellLinked pool) (xs : List Txid) :
    WellLinked (removeNodes pool xs) := by
  rw [removeNodes_eq]
  exact h.keepNodes _

/-- A new entry at the end, linked to entries that are there. -/
theorem WellLinked.append {pool : Pool} (h : WellLinked pool) {n : Node}
    (hfresh : n.txid ∉ pool.map Node.txid)
    (hparents : ∀ p ∈ n.parents, p ∈ pool.map Node.txid) (honce : n.parents.Nodup) :
    WellLinked (pool ++ [n]) where
  nodup := by
    rw [List.map_append, List.map_singleton]
    exact List.nodup_append.mpr ⟨h.nodup, List.nodup_singleton _, fun a ha b hb hab => by
      rw [List.mem_singleton.mp hb] at hab
      exact hfresh (hab ▸ ha)⟩
  linked := by
    intro n' hn' p hp
    rw [List.map_append, List.mem_append]
    rcases List.mem_append.mp hn' with hn' | hn'
    · exact .inl (h.linked n' hn' p hp)
    · obtain rfl := List.mem_singleton.mp hn'
      exact .inl (hparents p hp)
  once := by
    intro n' hn'
    rcases List.mem_append.mp hn' with hn' | hn'
    · exact h.once n' hn'
    · obtain rfl := List.mem_singleton.mp hn'
      exact honce
  acyclic := by
    obtain ⟨rank, hrank⟩ := h.acyclic
    -- the newcomer goes above everything its parents are ranked at
    refine ⟨fun x => if x = n.txid then (n.parents.map rank).sum + 1 else rank x, ?_⟩
    intro n' hn' p hp
    rcases List.mem_append.mp hn' with hn' | hn'
    · have hself : n'.txid ≠ n.txid := fun heq =>
        hfresh (heq ▸ List.mem_map.mpr ⟨n', hn', rfl⟩)
      have hpar : p ≠ n.txid := fun heq => hfresh (heq ▸ h.linked n' hn' p hp)
      simp only [hself, hpar, if_false]
      exact hrank n' hn' p hp
    · obtain rfl := List.mem_singleton.mp hn'
      have hpar : p ≠ n'.txid := fun heq => hfresh (heq ▸ hparents p hp)
      simp only [hpar, if_false, if_true]
      have hle : rank p ≤ (n'.parents.map rank).sum :=
        List.single_le_sum (fun _ _ => Nat.zero_le _) _ (List.mem_map_of_mem hp)
      omega

theorem WellLinked.someLinks {pool : Pool} (h : WellLinked pool) :
    SomeLinks pool (parentsOf pool) where
  nodup x := by
    unfold parentsOf
    cases hn : findNode pool x with
    | none => exact List.nodup_nil
    | some n => exact h.once n (findNode_eq_some hn).1
  parents x a ha := (mem_parentsOf h.nodup).mp ha

theorem WellLinked.links_mem {pool : Pool} (h : WellLinked pool) {links : Txid → List Txid}
    (hlinks : SomeLinks pool links) {x a : Txid} (ha : a ∈ links x) :
    a ∈ pool.map Node.txid := by
  obtain ⟨n, hn, hpar, -⟩ := mem_children.mp (hlinks.parents x a ha)
  exact h.linked n hn a hpar

/-- The walk from the links of `x` finds ancestors of `x`. -/
theorem above_of_mem_upWalk {pool : Pool} (h : WellLinked pool) {links : Txid → List Txid}
    (hlinks : SomeLinks pool links) {x a : Txid}
    (ha : a ∈ upWalk links pool.length (links x)) : Above pool a x := by
  obtain ⟨-, -, hreached, -⟩ := upWalk_spec h.linked hlinks (hlinks.nodup x)
    (fun b hb => h.links_mem hlinks hb)
  obtain ⟨b, hb, hpath⟩ := hreached a ha
  exact hlinks.above hb hpath

/-- Along all the links it finds every ancestor of the entries it starts from. -/
theorem mem_upWalk_of_above {pool : Pool} (h : WellLinked pool) {start : List Txid}
    (hstart : start.Nodup) (hin : ∀ x ∈ start, x ∈ pool.map Node.txid) {a b : Txid}
    (hb : b ∈ start) (hab : Above pool a b ∨ a = b) :
    a ∈ upWalk (parentsOf pool) pool.length start := by
  obtain ⟨hclosed, hsub, -, -⟩ := upWalk_spec h.linked h.someLinks hstart hin
  rcases hab with hab | rfl
  · induction hab using Relation.TransGen.head_induction_on with
    | single hlast => exact hclosed b (hsub b hb) _ ((mem_parentsOf h.nodup).mpr hlast)
    | head hfirst _ ih => exact hclosed _ ih _ ((mem_parentsOf h.nodup).mpr hfirst)
  · exact hsub a hb

theorem mem_upWalk_parents {pool : Pool} (h : WellLinked pool) {x a : Txid} :
    a ∈ upWalk (parentsOf pool) pool.length (parentsOf pool x) ↔ Above pool a x := by
  constructor
  · exact above_of_mem_upWalk h h.someLinks
  · intro ha
    have hmem : ∀ {b}, x ∈ children pool b → b ∈ parentsOf pool x :=
      fun hb => (mem_parentsOf h.nodup).mpr hb
    cases ha with
    | single hlast =>
        exact mem_upWalk_of_above h (h.someLinks.nodup x)
          (fun b hb => h.links_mem h.someLinks hb) (hmem hlast) (.inr rfl)
    | tail hbefore hlast =>
        exact mem_upWalk_of_above h (h.someLinks.nodup x)
          (fun b hb => h.links_mem h.someLinks hb) (hmem hlast) (.inl hbefore)

/-! ## Never too low -/

/-- A node with an ancestor counts two at least, and the descendants are all counted. -/
structure Counted (reg : Registry) : Prop where
  anc : ∀ x ∈ reg.pool.map Node.txid, (∃ a, Above reg.pool a x) → 2 ≤ (reg.figures x).ancCnt
  desc : ∀ a ∈ reg.pool.map Node.txid,
    1 + (descendants reg.pool a).card ≤ (reg.figures a).descCnt

theorem decrAncestors_cases {pool : Pool} (h : WellLinked pool) {links : Txid → List Txid}
    (hlinks : SomeLinks pool links) (figures : Txid → Figures) (x a : Txid) :
    decrAncestors links pool.length figures x a = figures a ∨
      (Above pool a x ∧
        decrAncestors links pool.length figures x a = (figures a).less (figures x)) := by
  unfold decrAncestors
  split
  · exact .inl rfl
  · simp only
    split
    · next hin => exact .inr ⟨above_of_mem_upWalk h hlinks hin, rfl⟩
    · exact .inl rfl

@[simp] theorem ancCnt_decrAncestors (links : Txid → List Txid) (n : Nat)
    (figures : Txid → Figures) (x a : Txid) :
    (decrAncestors links n figures x a).ancCnt = (figures a).ancCnt := by
  unfold decrAncestors
  split
  · rfl
  · simp only
    split
    · rfl
    · rfl

/-- What is still counted when `gone` has been taken off. -/
theorem descCnt_decrAncestors {pool : Pool} (h : WellLinked pool) {links : Txid → List Txid}
    (hlinks : SomeLinks pool links) {figures : Txid → Figures} {gone : Finset Txid} {x a : Txid}
    (hx : x ∉ gone) (hcnt : 1 + (descendants pool a \ gone).card ≤ (figures a).descCnt) :
    1 + (descendants pool a \ insert x gone).card ≤
      (decrAncestors links pool.length figures x a).descCnt := by
  have hsub : descendants pool a \ insert x gone ⊆ descendants pool a \ gone :=
    Finset.sdiff_subset_sdiff (Finset.Subset.refl _) (Finset.subset_insert _ _)
  rcases decrAncestors_cases h hlinks figures x a with heq | ⟨habove, heq⟩
  · rw [heq]
    have := Finset.card_le_card hsub
    omega
  · rw [heq]
    have hin : x ∈ descendants pool a \ gone :=
      Finset.mem_sdiff.mpr ⟨mem_descendants.mpr habove, hx⟩
    have hout : x ∉ descendants pool a \ insert x gone := by simp
    have hlt := Finset.card_lt_card ⟨hsub, fun hback => hout (hback hin)⟩
    simp only [Figures.less]
    omega

theorem two_le_recomputeAnc {pool : Pool} (h : WellLinked pool) (figures : Txid → Figures)
    {x : Txid} (hx : ∃ a, Above pool a x) : 2 ≤ (recomputeAnc pool figures x).ancCnt := by
  obtain ⟨a, ha⟩ := hx
  have hparent : ∃ p, p ∈ parentsOf pool x := by
    cases ha with
    | single hlast => exact ⟨_, (mem_parentsOf h.nodup).mpr hlast⟩
    | tail _ hlast => exact ⟨_, (mem_parentsOf h.nodup).mpr hlast⟩
  obtain ⟨p, hp⟩ := hparent
  unfold recomputeAnc
  simp only
  split
  · change 2 ≤ saturatedCount
    decide
  · next found hfound =>
      have hmem : p ∈ found := (search_prefixed hfound).subset hp
      have := List.length_pos_of_mem hmem
      simp only
      omega

theorem recomputeAncAll_cases (pool : Pool) (figures : Txid → Figures) (x : Txid) :
    recomputeAncAll pool figures x = figures x ∨
      recomputeAncAll pool figures x = recomputeAnc pool figures x := by
  unfold recomputeAncAll
  split
  · exact .inr rfl
  · exact .inl rfl

@[simp] theorem descCnt_recomputeAncAll (pool : Pool) (figures : Txid → Figures) (x : Txid) :
    (recomputeAncAll pool figures x).descCnt = (figures x).descCnt := by
  rcases recomputeAncAll_cases pool figures x with heq | heq
  · rw [heq]
  · rw [heq]
    unfold recomputeAnc
    simp only
    split
    · rfl
    · rfl

theorem two_le_recomputeAncAll {pool : Pool} (h : WellLinked pool) {figures : Txid → Figures}
    {x : Txid} (hx : ∃ a, Above pool a x) (hcnt : 2 ≤ (figures x).ancCnt) :
    2 ≤ (recomputeAncAll pool figures x).ancCnt := by
  rcases recomputeAncAll_cases pool figures x with heq | heq
  · rw [heq]
    exact hcnt
  · rw [heq]
    exact two_le_recomputeAnc h figures hx

/-- The totals after some entries have left and been taken off, counted again or not. -/
theorem Counted.of_removed {reg : Registry} (h : Counted reg) {pool' : Pool}
    (hfewer : Fewer reg.pool pool') (hlinks : WellLinked pool') {gone : Finset Txid}
    (hgone : ∀ x ∈ pool'.map Node.txid, x ∉ gone) {figures : Txid → Figures}
    (hanc : ∀ x, (figures x).ancCnt = (reg.figures x).ancCnt)
    (hdesc : ∀ a ∈ pool'.map Node.txid,
      1 + (descendants reg.pool a \ gone).card ≤ (figures a).descCnt) (again : Prop)
    [Decidable again] :
    Counted ⟨pool', if again then recomputeAncAll pool' figures else figures⟩ where
  anc := by
    rintro x hx ⟨a, ha⟩
    have hold : 2 ≤ (figures x).ancCnt := by
      rw [hanc]
      exact h.anc x (hfewer.txid_mem hx) ⟨a, hfewer.above ha⟩
    simp only
    split
    · exact two_le_recomputeAncAll hlinks ⟨a, ha⟩ hold
    · exact hold
  desc := by
    intro a ha
    have hsub : descendants pool' a ⊆ descendants reg.pool a \ gone := by
      intro x hx
      have hx := mem_descendants.mp hx
      exact Finset.mem_sdiff.mpr
        ⟨mem_descendants.mpr (hfewer.above hx), hgone x hx.right_mem⟩
    have hcard := Finset.card_le_card hsub
    have hold := hdesc a ha
    simp only
    split
    · rw [descCnt_recomputeAncAll]
      omega
    · omega

theorem Counted.removeNode {reg : Registry} (h : Counted reg) (hwell : WellLinked reg.pool)
    (x : Txid) : Counted (reg.removeNode x) := by
  have hfewer := fewer_removeNode reg.pool x
  have hgone : ∀ y ∈ (Mempool.removeNode reg.pool x).map Node.txid, y ∉ ({x} : Finset Txid) :=
    fun y hy => by simpa using (mem_removeNode_txid.mp hy).2
  unfold Registry.removeNode
  simp only
  split
  · have hdesc : ∀ a ∈ (Mempool.removeNode reg.pool x).map Node.txid,
        1 + (descendants reg.pool a \ {x}).card ≤
          (decrAncestors (parentsOf reg.pool) reg.pool.length reg.figures x a).descCnt := by
      intro a ha
      have hold := h.desc a (hfewer.txid_mem ha)
      refine descCnt_decrAncestors hwell hwell.someLinks (Finset.notMem_empty x) ?_
      simpa using hold
    have hc := h.of_removed hfewer (hwell.removeNode x) hgone
      (ancCnt_decrAncestors (parentsOf reg.pool) reg.pool.length reg.figures x) hdesc
      (children reg.pool x ≠ [])
    simpa [ite_not] using hc
  · have hc := h.of_removed hfewer (hwell.removeNode x) hgone (fun _ => rfl)
      (fun a ha => ?_) False
    · simpa using hc
    · have hold := h.desc a (hfewer.txid_mem ha)
      have hsub := Finset.card_le_card
        (Finset.sdiff_subset (s := descendants reg.pool a) (t := {x}))
      omega

theorem Counted.removeNodes {reg : Registry} (h : Counted reg) (hwell : WellLinked reg.pool)
    (xs : List Txid) : Counted (reg.removeNodes xs) ∧ WellLinked (reg.removeNodes xs).pool := by
  induction xs generalizing reg with
  | nil => exact ⟨h, hwell⟩
  | cons x xs ih =>
      refine ih (h.removeNode hwell x) ?_
      rw [Registry.pool_removeNode]
      exact hwell.removeNode x

theorem WellLinked.linksLeft {reg : Registry} (h : WellLinked reg.pool) (released : List Txid) :
    SomeLinks reg.pool (reg.linksLeft released) where
  nodup x := by
    unfold Registry.linksLeft
    split
    · exact (h.someLinks.nodup x).filter _
    · exact h.someLinks.nodup x
  parents x a ha := by
    unfold Registry.linksLeft at ha
    split at ha
    · exact (mem_parentsOf h.nodup).mp (List.mem_filter.mp ha).1
    · exact (mem_parentsOf h.nodup).mp ha

@[simp] theorem ancCnt_decrMarked (reg : Registry) (released order : List Txid)
    (figures : Txid → Figures) (x : Txid) :
    (reg.decrMarked released order figures x).ancCnt = (figures x).ancCnt := by
  induction order generalizing released figures with
  | nil => rfl
  | cons y ys ih =>
      unfold Registry.decrMarked
      rw [ih, ancCnt_decrAncestors]

theorem descCnt_decrMarked {reg : Registry} (hwell : WellLinked reg.pool)
    {released order : List Txid} (hnodup : (released ++ order).Nodup)
    {figures : Txid → Figures} {a : Txid}
    (hdesc : 1 + (descendants reg.pool a \ released.toFinset).card ≤ (figures a).descCnt) :
    1 + (descendants reg.pool a \ (released ++ order).toFinset).card ≤
      (reg.decrMarked released order figures a).descCnt := by
  induction order generalizing released figures with
  | nil =>
      rw [List.append_nil]
      exact hdesc
  | cons x xs ih =>
      have happ : released ++ x :: xs = (released ++ [x]) ++ xs := by simp
      have hx : x ∉ released.toFinset := by
        rw [List.mem_toFinset]
        exact fun hin => (List.nodup_append.mp hnodup).2.2 x hin x List.mem_cons_self rfl
      have hset : (released ++ [x]).toFinset = insert x released.toFinset := by
        ext y
        simp
      rw [happ] at hnodup ⊢
      refine ih hnodup ?_
      rw [hset]
      exact descCnt_decrAncestors hwell (hwell.linksLeft released) hx hdesc

theorem Counted.removeMarked {reg : Registry} (h : Counted reg) (hwell : WellLinked reg.pool)
    {order : List Txid} {leaves : Txid → Bool} (hlists : reg.Lists order leaves) :
    Counted (reg.removeMarked order leaves) := by
  have hfewer := fewer_keepNodes reg.pool fun x => !leaves x
  have hgone : ∀ x ∈ (keepNodes reg.pool fun x => !leaves x).map Node.txid,
      x ∉ order.toFinset := by
    intro x hx
    have hstay := (mem_keepNodes_txid.mp hx).2
    rw [List.mem_toFinset, hlists.2]
    rintro ⟨-, hleave⟩
    simp [hleave] at hstay
  refine h.of_removed hfewer (hwell.keepNodes _) hgone
    (ancCnt_decrMarked reg [] order reg.figures) ?_ _
  intro a ha
  have hold := h.desc a (hfewer.txid_mem ha)
  have hnodup : ([] ++ order).Nodup := hlists.1
  exact descCnt_decrMarked hwell hnodup (by simpa using hold)

/-! ## The newcomer -/

theorem above_append_iff {pool : Pool} {n : Node} (hfresh : n.txid ∉ pool.map Node.txid)
    (hlinked : ∀ n ∈ pool, ∀ p ∈ n.parents, p ∈ pool.map Node.txid)
    (hparents : ∀ p ∈ n.parents, p ∈ pool.map Node.txid) {a x : Txid} :
    Above (pool ++ [n]) a x ↔
      Above pool a x ∨ (x = n.txid ∧ ∃ p ∈ n.parents, Above pool a p ∨ a = p) := by
  constructor
  · intro h
    induction h with
    | single hlast =>
        rcases mem_children_append.mp hlast with hlast | ⟨hpar, rfl⟩
        · exact .inl (.single hlast)
        · exact .inr ⟨rfl, a, hpar, .inr rfl⟩
    | @tail b c _ hlast ih =>
        have hb : b ≠ n.txid := by
          rintro rfl
          rcases mem_children_append.mp hlast with hlast | ⟨hpar, -⟩
          · obtain ⟨n', hn', hpar, -⟩ := mem_children.mp hlast
            exact hfresh (hlinked n' hn' _ hpar)
          · exact hfresh (hparents _ hpar)
        have hab : Above pool a b := ih.resolve_right fun hbad => hb hbad.1
        rcases mem_children_append.mp hlast with hlast | ⟨hpar, rfl⟩
        · exact .inl (hab.tail hlast)
        · exact .inr ⟨rfl, b, hpar, .inl hab⟩
  · have hmono : ∀ {b c}, Above pool b c → Above (pool ++ [n]) b c :=
      fun hbc => Relation.TransGen.mono (fun _ _ hc => mem_children_append.mpr (.inl hc)) _ _ hbc
    rintro (h | ⟨rfl, p, hp, h | rfl⟩)
    · exact hmono h
    · exact (hmono h).tail (mem_children_append.mpr (.inr ⟨hp, rfl⟩))
    · exact .single (mem_children_append.mpr (.inr ⟨hp, rfl⟩))

/-- Nothing is below a newcomer. -/
theorem descendants_append_self {pool : Pool} {n : Node} (hfresh : n.txid ∉ pool.map Node.txid)
    (hlinked : ∀ n ∈ pool, ∀ p ∈ n.parents, p ∈ pool.map Node.txid)
    (hparents : ∀ p ∈ n.parents, p ∈ pool.map Node.txid) :
    descendants (pool ++ [n]) n.txid = ∅ := by
  refine Finset.eq_empty_of_forall_notMem fun x hx => ?_
  rcases (above_append_iff hfresh hlinked hparents).mp (mem_descendants.mp hx) with
    hin | ⟨-, p, hp, hin | heq⟩
  · exact hfresh (hin.left_mem hlinked)
  · exact hfresh (hin.left_mem hlinked)
  · exact hfresh (heq ▸ hparents p hp)

theorem collectParents_mem {pool : Pool} {inputs : List Outpoint} :
    ∀ p ∈ collectParents pool inputs, p ∈ pool.map Node.txid :=
  fun _ hp => (mem_collectParents.mp hp).2

theorem WellLinked.insert {reg : Registry} (h : WellLinked reg.pool) {r : Rtx}
    (hfresh : r.tx.txid ∉ reg.pool.map Node.txid) (size fee ancCnt ancBytes : Nat) :
    WellLinked (reg.insert r size fee ancCnt ancBytes).pool :=
  h.append hfresh collectParents_mem (nodup_collectParents _ _)

theorem Counted.insert {reg : Registry} (h : Counted reg) (hwell : WellLinked reg.pool) {r : Rtx}
    (hfresh : r.tx.txid ∉ reg.pool.map Node.txid) {size fee ancCnt ancBytes : Nat}
    (hanc : collectParents reg.pool r.tx.inputs ≠ [] → 2 ≤ ancCnt) :
    Counted (reg.insert r size fee ancCnt ancBytes) := by
  have habove : ∀ {a x}, Above (reg.insert r size fee ancCnt ancBytes).pool a x ↔
      Above reg.pool a x ∨ (x = r.tx.txid ∧ ∃ p ∈ collectParents reg.pool r.tx.inputs,
        Above reg.pool a p ∨ a = p) :=
    above_append_iff hfresh hwell.linked collectParents_mem
  have hold : ∀ {x}, x ∈ (reg.insert r size fee ancCnt ancBytes).pool.map Node.txid →
      x ≠ r.tx.txid → x ∈ reg.pool.map Node.txid := by
    intro x hx hne
    rcases List.mem_append.mp (by rwa [← List.map_append]) with hx | hx
    · exact hx
    · exact absurd (List.mem_singleton.mp hx) hne
  constructor
  · rintro x hx ⟨a, ha⟩
    by_cases hself : x = r.tx.txid
    · rcases habove.mp ha with hin | ⟨-, p, hp, -⟩
      · exact absurd (hself ▸ hin.right_mem) hfresh
      · simp only [Registry.insert, hself, if_true]
        exact hanc (List.ne_nil_of_mem hp)
    · have hin : Above reg.pool a x := (habove.mp ha).resolve_right fun hbad => hself hbad.1
      have hcnt := h.anc x (hold hx hself) ⟨a, hin⟩
      simp only [Registry.insert, hself, if_false]
      split
      · exact hcnt
      · exact hcnt
  · intro a ha
    by_cases hself : a = r.tx.txid
    · have hnone : descendants (reg.insert r size fee ancCnt ancBytes).pool a = ∅ := by
        rw [hself]
        exact descendants_append_self (n := ⟨r, collectParents reg.pool r.tx.inputs⟩) hfresh
          hwell.linked collectParents_mem
      rw [hnone]
      simp [Registry.insert, hself]
    · have hcnt := h.desc a (hold ha hself)
      simp only [Registry.insert, hself, if_false]
      split
      · -- one of the ancestors: the newcomer at most is new below it
        have hsub : descendants (reg.insert r size fee ancCnt ancBytes).pool a ⊆
            Insert.insert r.tx.txid (descendants reg.pool a) := by
          intro x hx
          rw [Finset.mem_insert, mem_descendants]
          rcases habove.mp (mem_descendants.mp hx) with hin | ⟨heq, -⟩
          · exact .inr hin
          · exact .inl heq
        have hcard := (Finset.card_le_card hsub).trans (Finset.card_insert_le _ _)
        simp only [Figures.more]
        change 1 + (descendants (reg.insert r size fee ancCnt ancBytes).pool a).card ≤ _
        omega
      · next hnot =>
          have hsub : descendants (reg.insert r size fee ancCnt ancBytes).pool a ⊆
              descendants reg.pool a := by
            intro x hx
            rw [mem_descendants]
            refine (habove.mp (mem_descendants.mp hx)).resolve_right ?_
            rintro ⟨-, p, hp, hin⟩
            exact hnot (mem_upWalk_of_above hwell (nodup_collectParents _ _)
              collectParents_mem hp hin)
          have hcard := Finset.card_le_card hsub
          change 1 + (descendants (reg.insert r size fee ancCnt ancBytes).pool a).card ≤ _
          omega

/-! ## Reachable registries -/

theorem Registry.removeNodes_append (reg : Registry) (xs ys : List Txid) :
    reg.removeNodes (xs ++ ys) = (reg.removeNodes xs).removeNodes ys := by
  simp [Registry.removeNodes]

/-- The nodes that leave when packages are removed one after the other, in order. -/
def packagesOrder : Pool → List Txid → List Txid
  | _, [] => []
  | pool, x :: xs => Registry.packageOrder pool x ++ packagesOrder (removePackage pool x) xs

/-- The nodes the trimming takes, in order. -/
def trimOrder {σ : Type} (P : Policy σ) (m : σ) (r : Rtx) : Nat → Pool → List Txid
  | 0, _ => []
  | fuel + 1, pool =>
      if !P.storeFull m pool r then []
      else
        match (P.worstChunk m pool r).filter fun txid => (findNode pool txid).isSome with
        | [] => []
        | chunk =>
            let pool' := chunk.foldl removePackage pool
            packagesOrder pool chunk ++
              if (collectParents pool' r.tx.inputs).length <
                  (collectParents pool r.tx.inputs).length then []
              else trimOrder P m r fuel pool'

/-- The nodes an offer removes, in order. -/
def offerOrder {σ : Type} (P : Policy σ) (rates : Rates) (coins : Outpoint → Option UInt64)
    (m : σ) (reg : Registry) (r : Rtx) : List Txid :=
  match admissionChecks (P.onRegistry rates coins reg) coins m reg.pool r with
  | .error _ => []
  | .ok evict =>
      let pool' := removeNodes reg.pool evict
      evict ++
        if (collectParents pool' r.tx.inputs).length <
            (collectParents reg.pool r.tx.inputs).length then []
        else trimOrder (P.onRegistry rates coins reg) m r pool'.length pool'

theorem Registry.removePackages_eq (reg : Registry) (txids : List Txid) :
    txids.foldl Registry.removePackage reg = reg.removeNodes (packagesOrder reg.pool txids) := by
  induction txids generalizing reg with
  | nil => rfl
  | cons x txids ih =>
      rw [List.foldl_cons, ih, Registry.pool_removePackage, Registry.removePackage,
        ← Registry.removeNodes_append]
      rfl

theorem Fewer.trans {a b d : Pool} (h : Fewer a b) (h' : Fewer b d) : Fewer a d := by
  intro n'' hn''
  obtain ⟨n', hn', hr', hp'⟩ := h' n'' hn''
  obtain ⟨n, hn, hr, hp⟩ := h n' hn'
  exact ⟨n, hn, hr.trans hr', fun p hmem => hp p (hp' p hmem)⟩

theorem Registry.fewer_removeNodes (reg : Registry) (xs : List Txid) :
    Fewer reg.pool (reg.removeNodes xs).pool := by
  rw [Registry.pool_removeNodes]
  exact Mempool.fewer_removeNodes _ _

/-- The trimming removes the nodes of `trimOrder`; where the newcomer is stored, its
parents are all still there. -/
theorem Registry.storeAndTrim_shape {σ : Type} (P : Policy σ) (m : σ) (r : Rtx)
    (add : Registry → Registry) (fuel : Nat) (reg : Registry) :
    (Registry.storeAndTrim P m r add fuel reg).2 =
        reg.removeNodes (trimOrder P m r fuel reg.pool) ∨
      ((Registry.storeAndTrim P m r add fuel reg).2 =
          add (reg.removeNodes (trimOrder P m r fuel reg.pool)) ∧
        ∀ x ∈ collectParents reg.pool r.tx.inputs,
          x ∈ collectParents (reg.removeNodes (trimOrder P m r fuel reg.pool)).pool
            r.tx.inputs) := by
  induction fuel generalizing reg with
  | zero =>
      unfold Registry.storeAndTrim trimOrder
      split
      · exact .inl rfl
      · exact .inr ⟨rfl, fun _ hx => hx⟩
  | succ fuel ih =>
      unfold Registry.storeAndTrim trimOrder
      split
      · exact .inr ⟨rfl, fun _ hx => hx⟩
      · cases hchunk : (P.worstChunk m reg.pool r).filter
            fun txid => (findNode reg.pool txid).isSome with
        | nil => exact .inl rfl
        | cons x xs =>
            simp only [Registry.pool_removePackages]
            split
            · rw [List.append_nil, Registry.removePackages_eq]
              exact .inl rfl
            · next hlen =>
                have hfewer := reg.fewer_removeNodes (packagesOrder reg.pool (x :: xs))
                rw [← Registry.removePackages_eq, Registry.pool_removePackages] at hfewer
                have hstay := collectParents_stay (fun _ => hfewer.txid_mem) hlen
                have hrest := ih ((x :: xs).foldl Registry.removePackage reg)
                rw [Registry.pool_removePackages] at hrest
                rw [Registry.removeNodes_append, ← Registry.removePackages_eq]
                rcases hrest with hrest | ⟨hrest, hparents⟩
                · exact .inl hrest
                · exact .inr ⟨hrest, fun y hy => hparents y (hstay y hy)⟩

/-- An offer removes the nodes of `offerOrder`, and may then insert the newcomer, with
its parents all there. -/
theorem Registry.mpolAddCore_shape {σ : Type} (P : Policy σ) (rates : Rates)
    (coins : Outpoint → Option UInt64) (m : σ) (reg : Registry) (r : Rtx) :
    (reg.mpolAddCore P rates coins m r).2 =
        reg.removeNodes (offerOrder P rates coins m reg r) ∨
      ∃ evict xs,
        admissionChecks (P.onRegistry rates coins reg) coins m reg.pool r = .ok evict ∧
        offerOrder P rates coins m reg r = evict ++ xs ∧
        (∀ x ∈ collectParents reg.pool r.tx.inputs,
          x ∈ collectParents (reg.removeNodes (evict ++ xs)).pool r.tx.inputs) ∧
        (reg.mpolAddCore P rates coins m r).2 =
          (reg.removeNodes (evict ++ xs)).insert r (rates.vsize r) (txFee coins reg.pool r)
            (1 + (upWalk (parentsOf reg.pool) reg.pool.length
              (collectParents reg.pool r.tx.inputs)).length)
            (rates.vsize r + ((upWalk (parentsOf reg.pool) reg.pool.length
              (collectParents reg.pool r.tx.inputs)).map fun a => (reg.figures a).size).sum) := by
  unfold Registry.mpolAddCore offerOrder
  cases hok : admissionChecks (P.onRegistry rates coins reg) coins m reg.pool r with
  | error reason => exact .inl rfl
  | ok evict =>
      simp only [Registry.pool_removeNodes]
      split
      · rw [List.append_nil]
        exact .inl rfl
      · next hlen =>
          have hstay := collectParents_stay
            (fun _ => (Mempool.fewer_removeNodes reg.pool evict).txid_mem) hlen
          have hshape := Registry.storeAndTrim_shape (P.onRegistry rates coins reg) m r
            (fun now => now.insert r (rates.vsize r) (txFee coins reg.pool r)
              (1 + (upWalk (parentsOf reg.pool) reg.pool.length
                (collectParents reg.pool r.tx.inputs)).length)
              (rates.vsize r + ((upWalk (parentsOf reg.pool) reg.pool.length
                (collectParents reg.pool r.tx.inputs)).map fun a => (reg.figures a).size).sum))
            (Mempool.removeNodes reg.pool evict).length (reg.removeNodes evict)
          rw [← Registry.removeNodes_append, Registry.pool_removeNodes] at hshape
          rcases hshape with hshape | ⟨hshape, hparents⟩
          · exact .inl hshape
          · refine .inr ⟨evict, _, rfl, rfl, fun x hx => ?_, hshape⟩
            rw [← Registry.pool_removeNodes]
            exact hparents x (hstay x hx)

theorem Counted.mpolAddCore {reg : Registry} (h : Counted reg) (hwell : WellLinked reg.pool)
    {σ : Type} (P : Policy σ) (rates : Rates) (coins : Outpoint → Option UInt64) (m : σ) (r : Rtx) :
    Counted (reg.mpolAddCore P rates coins m r).2 ∧
      WellLinked (reg.mpolAddCore P rates coins m r).2.pool := by
  rcases reg.mpolAddCore_shape P rates coins m r with hxs | ⟨evict, xs, hok, -, -, heq⟩
  · rw [hxs]
    exact h.removeNodes hwell _
  · obtain ⟨hcounted, hlinks⟩ := h.removeNodes hwell (evict ++ xs)
    have hfewer := reg.fewer_removeNodes (evict ++ xs)
    have hfresh : r.tx.txid ∉ (reg.removeNodes (evict ++ xs)).pool.map Node.txid :=
      fun hin => (admissionChecks_ok hok).2.2.1 (hfewer.txid_mem hin)
    rw [heq]
    refine ⟨hcounted.insert hlinks hfresh fun hne => ?_, hlinks.insert hfresh _ _ _ _⟩
    obtain ⟨p, hp⟩ := List.exists_mem_of_ne_nil _ hne
    obtain ⟨hin, hmem⟩ := mem_collectParents.mp hp
    have hp' : p ∈ collectParents reg.pool r.tx.inputs :=
      mem_collectParents.mpr ⟨hin, hfewer.txid_mem hmem⟩
    have := List.length_pos_of_mem (mem_upWalk_of_above hwell (nodup_collectParents _ _)
      collectParents_mem hp' (.inr rfl))
    omega

/-- In every reachable registry the totals are never too low. -/
theorem RegReach.counted {reg : Registry} (h : RegReach reg) :
    Counted reg ∧ WellLinked reg.pool := by
  induction h with
  | empty figures => exact ⟨⟨nofun, nofun⟩, WellLinked.nil⟩
  | add P rates coins m r _ ih => exact ih.1.mpolAddCore ih.2 P rates coins m r
  | removePackage txid _ ih => exact ih.1.removeNodes ih.2 _
  | removeConfirmed txid _ ih => exact ih.1.removeNodes ih.2 [txid]
  | blockConnect order block hlists _ ih =>
      exact ⟨ih.1.removeMarked ih.2 hlists, ih.2.keepNodes _⟩

end BitcoinMachineCode.Mempool
