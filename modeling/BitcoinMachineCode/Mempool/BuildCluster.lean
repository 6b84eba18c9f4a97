import BitcoinMachineCode.Mempool.Cluster
import BitcoinMachineCode.Foundation.RowClosure
import Mathlib.Data.Set.Card

/-!
# Finding a cluster

`mpc_build_cluster`: from one transaction of the pool along the links to parents and to
children, breadth first and up to 64 members, then the ancestors of each by passes over the
masks and the descendants as their transpose.  The passes settle for every graph, so that a
cycle among the parents is not noticed.
-/

namespace BitcoinMachineCode.Mempool

open Foundation

variable {Txid : Type*} [DecidableEq Txid]

structure MpcEntry (Txid : Type*) where
  fee : Nat
  weight : Nat
  parents : List Txid
  children : List Txid

/-- How the walk ends early. -/
inductive WalkStop (Txid : Type*) where
  | absent
  | truncated (txid : List Txid)

/-- The members in the order found, the masks over their positions. -/
structure MpcCluster (Txid : Type*) where
  txid : List Txid
  fee : Fin txid.length → Nat
  weight : Fin txid.length → Nat
  ancestors : Fin txid.length → Finset (Fin txid.length)
  descendants : Fin txid.length → Finset (Fin txid.length)

/-- Failure is the return value -1; a truncated cluster is returned with 0 and its flag. -/
inductive BuildResult (Txid : Type*) where
  | failed
  | truncated (txid : List Txid)
  | built (cl : MpcCluster Txid)

def mpcFind (txid : List Txid) (id : Txid) : Option (Fin txid.length) :=
  (List.finRange txid.length).find? fun i => decide (txid.get i = id)

/-- A link of the member at the head of the queue. -/
def addLink (txid : List Txid) (id : Txid) : Except (WalkStop Txid) (List Txid) :=
  if (mpcFind txid id).isSome then .ok txid
  else if mpcMaxCluster ≤ txid.length then .error (.truncated txid)
  else .ok (txid ++ [id])

def visit (look : Txid → Option (MpcEntry Txid)) (txid : List Txid) (head : Nat) :
    Except (WalkStop Txid) (List Txid) :=
  match txid[head]? with
  | none => .ok txid
  | some id =>
      match look id with
      | none => .error .absent
      | some e => (e.parents ++ e.children).foldlM addLink txid

/-- The walk over the queue, which never holds more members than the limit. -/
def walk (look : Txid → Option (MpcEntry Txid)) (seed : Txid) :
    Except (WalkStop Txid) (List Txid) :=
  (List.range mpcMaxCluster).foldlM (visit look) [seed]

def directParents (look : Txid → Option (MpcEntry Txid)) (txid : List Txid)
    (i : Fin txid.length) : Finset (Fin txid.length) :=
  match look (txid.get i) with
  | none => ∅
  | some e => (e.parents.filterMap (mpcFind txid)).toFinset

def entryFee (look : Txid → Option (MpcEntry Txid)) (id : Txid) : Nat :=
  (look id).elim 0 MpcEntry.fee

def entryWeight (look : Txid → Option (MpcEntry Txid)) (id : Txid) : Nat :=
  (look id).elim 0 MpcEntry.weight

/-- The members with their ancestors, and the descendants as the transpose. -/
def transposed (look : Txid → Option (MpcEntry Txid)) (txid : List Txid)
    (ancestors : Fin txid.length → Finset (Fin txid.length)) : MpcCluster Txid where
  txid := txid
  fee i := entryFee look (txid.get i)
  weight i := entryWeight look (txid.get i)
  ancestors := ancestors
  descendants i := insert i (Finset.univ.filter fun j => i ∈ ancestors j)

def mpcBuildCluster (look : Txid → Option (MpcEntry Txid)) (seed : Txid) : BuildResult Txid :=
  match look seed with
  | none => .failed
  | some _ =>
      match walk look seed with
      | .error .absent => .failed
      | .error (.truncated txid) => .truncated txid
      | .ok txid =>
          if txid.all fun id => (look id).isSome then
            match rowPasses (directParents look txid) (List.finRange txid.length)
                (txid.length + 1) (fun i => {i}) with
            | none => .failed
            | some ancestors => .built (transposed look txid ancestors)
          else .failed

/-! ## Components -/

section Component

variable (look : Txid → Option (MpcEntry Txid))

def ParentOf (x p : Txid) : Prop := ∃ e, look x = some e ∧ p ∈ e.parents

/-- The links of an entry lead to entries, which have the link back. -/
structure Consistent : Prop where
  parent : ∀ x e, look x = some e → ∀ p ∈ e.parents, ∃ f, look p = some f ∧ x ∈ f.children
  child : ∀ x e, look x = some e → ∀ c ∈ e.children, ∃ f, look c = some f ∧ x ∈ f.parents

def component (seed : Txid) : Set Txid := {x | Relation.EqvGen (ParentOf look) seed x}

def Cyclic (seed : Txid) : Prop :=
  ∃ x ∈ component look seed, Relation.TransGen (ParentOf look) x x

/-- The component with each member once, and the masks of its ancestors and descendants. -/
structure IsComponent (seed : Txid) (cl : MpcCluster Txid) : Prop where
  nodup : cl.txid.Nodup
  members : ∀ x, x ∈ cl.txid ↔ x ∈ component look seed
  entry : ∀ i, ∃ e, look (cl.txid.get i) = some e ∧ cl.fee i = e.fee ∧ cl.weight i = e.weight
  ancestors : ∀ i j, j ∈ cl.ancestors i ↔
    Relation.ReflTransGen (ParentOf look) (cl.txid.get i) (cl.txid.get j)
  descendants : ∀ i j, j ∈ cl.descendants i ↔ i ∈ cl.ancestors j

/-- A cluster that is cut short is said to be, one with a cycle is refused, and any other
is the component. -/
def BuildsComponent (seed : Txid) : Prop :=
  match mpcBuildCluster look seed with
  | .truncated _ => mpcMaxCluster < (component look seed).encard
  | .built cl => IsComponent look seed cl ∧ ¬ Cyclic look seed
  | .failed => Cyclic look seed

end Component

variable {look : Txid → Option (MpcEntry Txid)} {seed : Txid} {txid : List Txid}

omit [DecidableEq Txid] in
theorem Consistent.linked (h : Consistent look) {x : Txid} {e : MpcEntry Txid}
    (hx : look x = some e) (y : Txid) :
    y ∈ e.parents ++ e.children ↔ ParentOf look x y ∨ ParentOf look y x := by
  rw [List.mem_append]
  refine or_congr ⟨fun hy => ⟨e, hx, hy⟩, ?_⟩ ⟨fun hy => ?_, ?_⟩
  · rintro ⟨e', hx', hy⟩
    rwa [Option.some.inj (hx.symm.trans hx')]
  · exact h.child x e hx y hy
  · rintro ⟨f, hy, hmem⟩
    obtain ⟨e', hx', hback⟩ := h.parent y f hy x hmem
    rwa [Option.some.inj (hx.symm.trans hx')]

omit [DecidableEq Txid] in
theorem Consistent.present (h : Consistent look) {x y : Txid}
    (hxy : Relation.EqvGen (ParentOf look) x y) : (look x).isSome ↔ (look y).isSome := by
  induction hxy with
  | rel x y hstep =>
      obtain ⟨e, hx, hmem⟩ := hstep
      obtain ⟨f, hy, -⟩ := h.parent x e hx y hmem
      rw [hx, hy]
      exact Iff.rfl
  | refl x => exact Iff.rfl
  | symm x y _ ih => exact ih.symm
  | trans x y z _ _ ihxy ihyz => exact ihxy.trans ihyz

omit [DecidableEq Txid] in
theorem component_linked {x y : Txid} (hx : x ∈ component look seed)
    (h : ParentOf look x y ∨ ParentOf look y x) : y ∈ component look seed := by
  refine Relation.EqvGen.trans _ _ _ hx ?_
  rcases h with h | h
  · exact .rel _ _ h
  · exact .symm _ _ (.rel _ _ h)

omit [DecidableEq Txid] in
/-- What holds the seed and every link of its members holds the component. -/
theorem component_subset {s : Set Txid} (hseed : seed ∈ s)
    (hlink : ∀ x ∈ s, ∀ y, ParentOf look x y ∨ ParentOf look y x → y ∈ s) :
    component look seed ⊆ s := by
  have hiff : ∀ x y, Relation.EqvGen (ParentOf look) x y → (x ∈ s ↔ y ∈ s) := by
    intro x y hxy
    induction hxy with
    | rel x y hstep =>
        exact ⟨fun hx => hlink x hx y (.inl hstep), fun hy => hlink y hy x (.inr hstep)⟩
    | refl x => exact Iff.rfl
    | symm x y _ ih => exact ih.symm
    | trans x y z _ _ ihxy ihyz => exact ihxy.trans ihyz
  exact fun x hx => (hiff seed x hx).mp hseed

/-! ## The walk -/

theorem mpcFind_isSome {txid : List Txid} {id : Txid} : (mpcFind txid id).isSome ↔ id ∈ txid := by
  unfold mpcFind
  rw [List.find?_isSome, List.mem_iff_get]
  simp

theorem mpcFind_eq_some {txid : List Txid} (hnodup : txid.Nodup) {id : Txid}
    {i : Fin txid.length} : mpcFind txid id = some i ↔ txid.get i = id := by
  constructor
  · intro h
    have := List.find?_some h
    exact of_decide_eq_true this
  · rintro rfl
    have hsome : (mpcFind txid (txid.get i)).isSome := mpcFind_isSome.mpr (List.get_mem _ _)
    obtain ⟨j, hj⟩ := Option.isSome_iff_exists.mp hsome
    have hsame : txid.get j = txid.get i := by
      have := List.find?_some hj
      exact of_decide_eq_true this
    rw [hj, List.nodup_iff_injective_get.mp hnodup hsame]

/-- Members found so far. -/
structure Found (s : Set Txid) (txid : List Txid) : Prop where
  nodup : txid.Nodup
  length : txid.length ≤ mpcMaxCluster
  mem : ∀ x ∈ txid, x ∈ s

omit [DecidableEq Txid] in
/-- One more than a full list is too many. -/
theorem Found.lt_encard {s : Set Txid} {txid : List Txid} (h : Found s txid)
    (hfull : mpcMaxCluster ≤ txid.length) {x : Txid} (hx : x ∈ s) (hnew : x ∉ txid) :
    (mpcMaxCluster : ℕ∞) < s.encard := by
  classical
  have hsub : ((insert x txid.toFinset : Finset Txid) : Set Txid) ⊆ s := by
    intro y hy
    rcases Finset.mem_insert.mp (Finset.mem_coe.mp hy) with rfl | hy
    · exact hx
    · exact h.mem y (List.mem_toFinset.mp hy)
  have hcard : (insert x txid.toFinset).card = txid.length + 1 := by
    rw [Finset.card_insert_of_notMem (fun hmem => hnew (List.mem_toFinset.mp hmem)),
      List.toFinset_card_of_nodup h.nodup]
  refine lt_of_lt_of_le ?_ (Set.encard_le_encard hsub)
  rw [Set.encard_coe_eq_coe_finsetCard, hcard]
  exact_mod_cast Nat.lt_succ_of_le hfull

/-- The walk goes on with a list of which `P` holds, or has met too many members of `s`. -/
def GoesOn (s : Set Txid) (P : List Txid → Prop) : Except (WalkStop Txid) (List Txid) → Prop
  | .ok txid => P txid
  | .error (.truncated _) => (mpcMaxCluster : ℕ∞) < s.encard
  | .error .absent => False

omit [DecidableEq Txid] in
theorem GoesOn.bind {s : Set Txid} {P Q : List Txid → Prop}
    {r : Except (WalkStop Txid) (List Txid)} {f : List Txid → Except (WalkStop Txid) (List Txid)}
    (h : GoesOn s P r) (hf : ∀ txid, P txid → GoesOn s Q (f txid)) : GoesOn s Q (r >>= f) := by
  cases r with
  | ok txid => exact hf txid h
  | error stop =>
      cases stop with
      | absent => exact h.elim
      | truncated txid => exact h

theorem goesOn_addLink {s : Set Txid} {txid : List Txid} (h : Found s txid) {y : Txid}
    (hy : y ∈ s) : GoesOn s (fun t => Found s t ∧ txid <+: t ∧ y ∈ t) (addLink txid y) := by
  unfold addLink
  by_cases hold : y ∈ txid
  · rw [if_pos (mpcFind_isSome.mpr hold)]
    exact ⟨h, List.prefix_rfl, hold⟩
  · rw [if_neg fun hfind => hold (mpcFind_isSome.mp hfind)]
    split
    · next hfull => exact h.lt_encard hfull hy hold
    · next hroom =>
        refine ⟨⟨?_, ?_, fun x hx => ?_⟩, List.prefix_append _ _, by simp⟩
        · refine List.nodup_append.mpr ⟨h.nodup, List.nodup_singleton y, fun a ha b hb => ?_⟩
          rw [List.mem_singleton.mp hb]
          rintro rfl
          exact hold ha
        · rw [List.length_append, List.length_singleton]
          omega
        · rcases List.mem_append.mp hx with hx | hx
          · exact h.mem x hx
          · rwa [List.mem_singleton.mp hx]

theorem goesOn_addLinks {s : Set Txid} {txid links : List Txid} (h : Found s txid)
    (hlinks : ∀ y ∈ links, y ∈ s) :
    GoesOn s (fun t => Found s t ∧ txid <+: t ∧ ∀ y ∈ links, y ∈ t)
      (links.foldlM addLink txid) := by
  induction links generalizing txid with
  | nil => exact ⟨h, List.prefix_rfl, nofun⟩
  | cons y links ih =>
      rw [List.foldlM_cons]
      refine (goesOn_addLink h (hlinks y List.mem_cons_self)).bind ?_
      rintro mid ⟨hmid, hpre, hy⟩
      have hrest := ih hmid fun z hz => hlinks z (List.mem_cons_of_mem _ hz)
      rw [← bind_pure (links.foldlM addLink mid)]
      refine hrest.bind ?_
      rintro t ⟨ht, hpre', hall⟩
      refine ⟨ht, hpre.trans hpre', fun z hz => ?_⟩
      rcases List.mem_cons.mp hz with rfl | hz
      · exact hpre'.subset hy
      · exact hall z hz

/-- The first `heads` members have all their links among the members. -/
structure Walked (look : Txid → Option (MpcEntry Txid)) (seed : Txid) (heads : Nat)
    (txid : List Txid) : Prop where
  found : Found (component look seed) txid
  seed : seed ∈ txid
  expanded : ∀ i < heads, ∀ x, txid[i]? = some x →
    ∀ y, ParentOf look x y ∨ ParentOf look y x → y ∈ txid

theorem goesOn_visit (h : Consistent look) (hseed : (look seed).isSome) {heads : Nat}
    {txid : List Txid} (hw : Walked look seed heads txid) :
    GoesOn (component look seed) (Walked look seed (heads + 1)) (visit look txid heads) := by
  unfold visit
  cases hhead : txid[heads]? with
  | none =>
      refine ⟨hw.found, hw.seed, fun i hi x hx => ?_⟩
      rcases Nat.lt_succ_iff_lt_or_eq.mp hi with hi | rfl
      · exact hw.expanded i hi x hx
      · rw [hhead] at hx
        cases hx
  | some id =>
      have hmem : id ∈ component look seed :=
        hw.found.mem id (List.mem_of_getElem? hhead)
      obtain ⟨e, he⟩ := Option.isSome_iff_exists.mp ((h.present hmem).mp hseed)
      have hlinks : ∀ y ∈ e.parents ++ e.children, y ∈ component look seed := fun y hy =>
        component_linked hmem ((h.linked he y).mp hy)
      simp only [he]
      rw [← bind_pure ((e.parents ++ e.children).foldlM addLink txid)]
      refine (goesOn_addLinks hw.found hlinks).bind ?_
      rintro t ⟨ht, hpre, hall⟩
      refine ⟨ht, hpre.subset hw.seed, fun i hi x hx y hy => ?_⟩
      rcases Nat.lt_succ_iff_lt_or_eq.mp hi with hi | rfl
      · -- the members before the head were expanded already
        have hlen : i < txid.length := by
          have := (List.getElem?_eq_some_iff.mp hhead).1
          omega
        have hold : txid[i]? = some x := by
          obtain ⟨rest, rfl⟩ := hpre
          rwa [List.getElem?_append_left hlen] at hx
        exact hpre.subset (hw.expanded i hi x hold y hy)
      · have hsame : x = id := by
          obtain ⟨rest, rfl⟩ := hpre
          rw [List.getElem?_append_left (List.getElem?_eq_some_iff.mp hhead).1, hhead] at hx
          exact (Option.some.inj hx).symm
        subst hsame
        exact hall y ((h.linked he y).mpr hy)

theorem goesOn_walk (h : Consistent look) (hseed : (look seed).isSome) (heads : Nat) :
    GoesOn (component look seed) (Walked look seed heads)
      ((List.range heads).foldlM (visit look) [seed]) := by
  induction heads with
  | zero =>
      have hone : [seed].length ≤ mpcMaxCluster := Nat.le_of_ble_eq_true rfl
      refine ⟨⟨List.nodup_singleton _, hone, fun x hx => ?_⟩, List.mem_singleton_self _, nofun⟩
      rw [List.mem_singleton.mp hx]
      exact .refl _
  | succ heads ih =>
      rw [List.range_succ, List.foldlM_append]
      refine ih.bind fun txid hw => ?_
      rw [List.foldlM_cons, ← bind_pure (visit look txid heads)]
      simp only [List.foldlM_nil, bind_pure]
      exact goesOn_visit h hseed hw

omit [DecidableEq Txid] in
/-- A walk that is not cut short finds the component. -/
theorem Walked.mem_iff {txid : List Txid} (h : Walked look seed mpcMaxCluster txid) (x : Txid) :
    x ∈ txid ↔ x ∈ component look seed := by
  refine ⟨h.found.mem x, fun hx => ?_⟩
  refine component_subset (s := {y | y ∈ txid}) h.seed (fun y hy z hz => ?_) hx
  obtain ⟨i, hi, heq⟩ := List.mem_iff_getElem.mp hy
  refine h.expanded i (lt_of_lt_of_le hi h.found.length) y ?_ z hz
  rw [List.getElem?_eq_getElem hi, heq]

/-! ## The masks -/

theorem mem_directParents {txid : List Txid} (hnodup : txid.Nodup) {i j : Fin txid.length} :
    j ∈ directParents look txid i ↔ ParentOf look (txid.get i) (txid.get j) := by
  unfold directParents ParentOf
  cases look (txid.get i) with
  | none => simp
  | some e =>
      simp only [List.mem_toFinset, List.mem_filterMap, mpcFind_eq_some hnodup]
      simp

/-- Paths between members run over members. -/
theorem reached_iff {txid : List Txid} (hnodup : txid.Nodup)
    (hclosed : ∀ x ∈ txid, ∀ y, ParentOf look x y → y ∈ txid) (i j : Fin txid.length) :
    Relation.ReflTransGen (fun a b => b ∈ directParents look txid a) i j ↔
      Relation.ReflTransGen (ParentOf look) (txid.get i) (txid.get j) := by
  constructor
  · intro hpath
    induction hpath with
    | refl => exact .refl
    | tail _ hlast ih => exact ih.tail ((mem_directParents hnodup).mp hlast)
  · intro hpath
    have hall : ∀ y, Relation.ReflTransGen (ParentOf look) (txid.get i) y →
        ∃ k, txid.get k = y ∧
          Relation.ReflTransGen (fun a b => b ∈ directParents look txid a) i k := by
      intro y hy
      induction hy with
      | refl => exact ⟨i, rfl, .refl⟩
      | @tail y z _ hlast ih =>
          obtain ⟨k, rfl, hk⟩ := ih
          obtain ⟨l, rfl⟩ := List.mem_iff_get.mp (hclosed _ (List.get_mem _ _) z hlast)
          exact ⟨l, rfl, hk.tail ((mem_directParents hnodup).mpr hlast)⟩
    obtain ⟨k, hk, hreach⟩ := hall _ hpath
    rwa [List.nodup_iff_injective_get.mp hnodup hk] at hreach

omit [DecidableEq Txid] in
theorem entry_of_present {id : Txid} (h : (look id).isSome) :
    ∃ e, look id = some e ∧ entryFee look id = e.fee ∧ entryWeight look id = e.weight := by
  obtain ⟨e, he⟩ := Option.isSome_iff_exists.mp h
  refine ⟨e, he, ?_, ?_⟩
  · rw [entryFee, he]
    rfl
  · rw [entryWeight, he]
    rfl

theorem mem_insert_transpose {n : Nat} {rows : Fin n → Finset (Fin n)} (hself : ∀ i, i ∈ rows i)
    (i j : Fin n) : j ∈ insert i (Finset.univ.filter fun j => i ∈ rows j) ↔ i ∈ rows j := by
  rw [Finset.mem_insert, Finset.mem_filter]
  constructor
  · rintro (rfl | ⟨-, hi⟩)
    · exact hself j
    · exact hi
  · exact fun hi => .inr ⟨Finset.mem_univ j, hi⟩

/-- The masks of a whole component settle, with or without a cycle. -/
theorem Walked.isComponent (hw : Walked look seed mpcMaxCluster txid)
    (hpresent : ∀ x ∈ txid, (look x).isSome) :
    ∃ rows, rowPasses (directParents look txid) (List.finRange txid.length) (txid.length + 1)
        (fun i => {i}) = some rows ∧ IsComponent look seed (transposed look txid rows) := by
  have hclosed : ∀ x ∈ txid, ∀ y, ParentOf look x y → y ∈ txid := fun x hx y hy =>
    (hw.mem_iff y).mpr (component_linked (hw.found.mem x hx) (.inl hy))
  obtain ⟨rows, hrows, hmem⟩ :=
    rowPasses_closure (directParents look txid) (List.mem_finRange (n := txid.length))
  rw [Fintype.card_fin] at hrows
  refine ⟨rows, hrows, hw.found.nodup, hw.mem_iff, fun i => ?_, fun i j => ?_, fun i j => ?_⟩
  · exact entry_of_present (hpresent _ (List.get_mem _ _))
  · exact (hmem i j).trans (reached_iff hw.found.nodup hclosed i j)
  · exact mem_insert_transpose (fun i => (hmem i i).mpr .refl) i j

theorem Walked.encard_le (hw : Walked look seed mpcMaxCluster txid) :
    (component look seed).encard ≤ (mpcMaxCluster : ℕ∞) := by
  have hsame : component look seed = (txid.toFinset : Set Txid) := by
    ext x
    rw [← hw.mem_iff, Finset.mem_coe, List.mem_toFinset]
  rw [hsame, Set.encard_coe_eq_coe_finsetCard, List.toFinset_card_of_nodup hw.found.nodup]
  exact_mod_cast hw.found.length

theorem mpcBuildCluster_spec (h : Consistent look) (hseed : (look seed).isSome) :
    ((∃ txid, mpcBuildCluster look seed = .truncated txid) ∧
      (mpcMaxCluster : ℕ∞) < (component look seed).encard) ∨
    ((∃ cl, mpcBuildCluster look seed = .built cl ∧ IsComponent look seed cl) ∧
      (component look seed).encard ≤ (mpcMaxCluster : ℕ∞)) := by
  obtain ⟨e, he⟩ := Option.isSome_iff_exists.mp hseed
  have hwalk : GoesOn (component look seed) (Walked look seed mpcMaxCluster) (walk look seed) :=
    goesOn_walk h hseed mpcMaxCluster
  unfold mpcBuildCluster
  simp only [he]
  cases hresult : walk look seed with
  | error stop =>
      rw [hresult] at hwalk
      cases stop with
      | absent => exact hwalk.elim
      | truncated txid => exact .inl ⟨⟨txid, rfl⟩, hwalk⟩
  | ok txid =>
      rw [hresult] at hwalk
      have hw : Walked look seed mpcMaxCluster txid := hwalk
      have hpresent : ∀ x ∈ txid, (look x).isSome := fun x hx =>
        (h.present (hw.found.mem x hx)).mp hseed
      obtain ⟨rows, hrows, hcomponent⟩ := hw.isComponent hpresent
      have hall : txid.all (fun id => (look id).isSome) = true := List.all_eq_true.mpr hpresent
      refine .inr ⟨⟨transposed look txid rows, ?_, hcomponent⟩, hw.encard_le⟩
      simp only [hall, if_true, hrows]

theorem not_buildsComponent_of_cyclic (h : Consistent look) (hseed : (look seed).isSome)
    (hfew : (component look seed).encard ≤ (mpcMaxCluster : ℕ∞)) (hcyclic : Cyclic look seed) :
    ¬ BuildsComponent look seed := by
  unfold BuildsComponent
  rcases mpcBuildCluster_spec h hseed with ⟨-, hmany⟩ | ⟨⟨cl, heq, -⟩, -⟩
  · exact absurd hfew (not_le.mpr hmany)
  · rw [heq]
    exact fun hbuilds => hbuilds.2 hcyclic

/-- The function does what it is for exactly when the component outgrows the limit or its
parents have no cycle: it never refuses one that has. -/
theorem buildsComponent_iff (look : Txid → Option (MpcEntry Txid)) (seed : Txid)
    (hlook : Consistent look) (hseed : (look seed).isSome) :
    BuildsComponent look seed ↔
      (mpcMaxCluster : ℕ∞) < (component look seed).encard ∨ ¬ Cyclic look seed := by
  constructor
  · intro hbuilds
    by_contra hnot
    push Not at hnot
    exact not_buildsComponent_of_cyclic hlook hseed hnot.1 hnot.2 hbuilds
  · intro hcond
    unfold BuildsComponent
    rcases mpcBuildCluster_spec hlook hseed with ⟨⟨txid, heq⟩, hmany⟩ | ⟨⟨cl, heq, hcl⟩, hfew⟩
    · rw [heq]
      exact hmany
    · rw [heq]
      exact ⟨hcl, hcond.resolve_left (not_lt.mpr hfew)⟩

/-- A parent and its child. -/
def pairPool : Nat → Option (MpcEntry Nat)
  | 0 => some ⟨1, 1, [], [1]⟩
  | 1 => some ⟨1, 1, [0], []⟩
  | _ => none

theorem parentOf_pairPool {x p : Nat} (h : ParentOf pairPool x p) : x = 1 ∧ p = 0 := by
  obtain ⟨e, he, hp⟩ := h
  match x with
  | 0 =>
      obtain rfl := Option.some.inj he
      exact absurd hp List.not_mem_nil
  | 1 =>
      obtain rfl := Option.some.inj he
      exact ⟨rfl, List.mem_singleton.mp hp⟩
  | n + 2 => cases he

theorem consistent_pairPool : Consistent pairPool where
  parent x e he p hp := by
    obtain ⟨rfl, rfl⟩ := parentOf_pairPool ⟨e, he, hp⟩
    exact ⟨_, rfl, List.mem_singleton_self 1⟩
  child x e he c hc := by
    match x with
    | 0 =>
        obtain rfl := Option.some.inj he
        obtain rfl := List.mem_singleton.mp hc
        exact ⟨_, rfl, List.mem_singleton_self 0⟩
    | 1 =>
        obtain rfl := Option.some.inj he
        exact absurd hc List.not_mem_nil
    | n + 2 => cases he

theorem buildsComponent_pair :
    Consistent pairPool ∧ (pairPool 0).isSome ∧ BuildsComponent pairPool 0 := by
  refine ⟨consistent_pairPool, rfl,
    (buildsComponent_iff pairPool 0 consistent_pairPool rfl).mpr (.inr ?_)⟩
  rintro ⟨x, -, hpath⟩
  have hends : ∀ {x y}, Relation.TransGen (ParentOf pairPool) x y → x = 1 ∧ y = 0 := by
    intro x y hxy
    induction hxy with
    | single h => exact parentOf_pairPool h
    | tail _ h ih => exact ⟨ih.1, (parentOf_pairPool h).2⟩
  obtain ⟨h1, h0⟩ := hends hpath
  omega

/-- Two entries that are each the other's parent. -/
def loopPool : Nat → Option (MpcEntry Nat)
  | 0 => some ⟨1, 1, [1], [1]⟩
  | 1 => some ⟨1, 1, [0], [0]⟩
  | _ => none

theorem loopPool_links {x y : Nat} {e : MpcEntry Nat} (he : loopPool x = some e)
    (hy : y ∈ e.parents ∨ y ∈ e.children) :
    ∃ f, loopPool y = some f ∧ x ∈ f.parents ∧ x ∈ f.children := by
  match x with
  | 0 =>
      obtain rfl := Option.some.inj he
      obtain rfl : y = 1 := by simpa using hy
      exact ⟨_, rfl, List.mem_singleton_self 0, List.mem_singleton_self 0⟩
  | 1 =>
      obtain rfl := Option.some.inj he
      obtain rfl : y = 0 := by simpa using hy
      exact ⟨_, rfl, List.mem_singleton_self 1, List.mem_singleton_self 1⟩
  | n + 2 => cases he

theorem consistent_loopPool : Consistent loopPool where
  parent x e he p hp := by
    obtain ⟨f, hf, -, hback⟩ := loopPool_links he (.inl hp)
    exact ⟨f, hf, hback⟩
  child x e he c hc := by
    obtain ⟨f, hf, hback, -⟩ := loopPool_links he (.inr hc)
    exact ⟨f, hf, hback⟩

theorem not_buildsComponent_loop :
    Consistent loopPool ∧ (loopPool 0).isSome ∧ ¬ BuildsComponent loopPool 0 := by
  refine ⟨consistent_loopPool, rfl,
    not_buildsComponent_of_cyclic consistent_loopPool rfl ?_ ⟨0, .refl 0, ?_⟩⟩
  · have hsub : component loopPool 0 ⊆ (({0, 1} : Finset Nat) : Set Nat) := by
      intro x hx
      have hsome := (consistent_loopPool.present hx).mp rfl
      match x with
      | 0 => simp
      | 1 => simp
      | n + 2 => cases hsome
    refine (Set.encard_le_encard hsub).trans ?_
    rw [Set.encard_coe_eq_coe_finsetCard]
    exact_mod_cast (by decide : ({0, 1} : Finset Nat).card ≤ mpcMaxCluster)
  · exact .tail (.single ⟨_, rfl, List.mem_singleton_self 1⟩)
      ⟨_, rfl, List.mem_singleton_self 0⟩

end BitcoinMachineCode.Mempool
