import BitcoinMachineCode.Mempool.PostLinearize
import BitcoinMachineCode.Mempool.ChunkDiagram
import BitcoinMachineCode.Foundation.TightGroups

/-!
# Orders that a pass makes optimal

Where no transaction has two children the groups of a forward pass are tight: a new
transaction takes in whole groups, all of them its ancestors, so a part without it is made
of parts of groups with lower feerates.  A backward pass does the same for transactions
with one parent, with the dependencies turned around and the fees negated.
-/

namespace BitcoinMachineCode.Mempool

open Foundation Segment

variable {cl : Cluster} {backward : Bool}

/-! ## One pass keeps the order and the diagram -/

theorem mem_descendants_iff {u v : Fin cl.n} : u ∈ cl.descendants v ↔ v ∈ cl.ancestors u := by
  unfold Cluster.descendants
  simp

/-- The order in which a pass takes the members. -/
def passInput (backward : Bool) (lin : List (Fin cl.n)) : List (Fin cl.n) :=
  if backward then lin.reverse else lin

theorem passInput_pairwise (backward : Bool) {lin : List (Fin cl.n)}
    (h : Topological cl.ancestors Finset.univ lin) :
    (passInput backward lin).Pairwise fun u v => v ∉ passLinks cl backward u := by
  have hpair := (topological_iff.mp h).2.2
  cases backward with
  | false => exact hpair
  | true =>
      refine List.pairwise_reverse.mpr (hpair.imp fun {u v} hnot hlink => ?_)
      exact hnot (mem_descendants_iff.mp hlink)

theorem passInput_nodup (backward : Bool) {lin : List (Fin cl.n)} (h : lin.Nodup) :
    (passInput backward lin).Nodup := by
  cases backward with
  | false => exact h
  | true => exact List.nodup_reverse.mpr h

theorem mpcOnePass_eq (lin : List (Fin cl.n)) :
    mpcOnePass cl lin backward =
      passInput backward (placedIn (passGroups cl backward (passInput backward lin))) := by
  cases backward with
  | false => rfl
  | true => rfl

theorem passInput_perm (backward : Bool) (lin : List (Fin cl.n)) : (passInput backward lin).Perm lin := by
  cases backward with
  | false => exact List.Perm.refl _
  | true => exact List.reverse_perm lin

/-- The orders of the groups, in the order of the result. -/
def groupOrders (backward : Bool) (groups : List (PassGroup cl.n)) : List (List (Fin cl.n)) :=
  if backward then groups.map fun g => g.idx.reverse else groups.reverse.map PassGroup.idx

theorem groupOrders_flatten (groups : List (PassGroup cl.n)) :
    (groupOrders backward groups).flatten = passInput backward (placedIn groups) := by
  cases backward with
  | false => exact List.flatMap_def.symm
  | true =>
      induction groups with
      | nil => rfl
      | cons g groups ih =>
          simp only [groupOrders, passInput, if_true, List.map_cons, List.flatten_cons,
            placedIn_cons, List.reverse_append] at ih ⊢
          rw [ih]

theorem nodup_idx {groups : List (PassGroup cl.n)} (h : (placedIn groups).Nodup)
    {g : PassGroup cl.n} (hg : g ∈ groups) : g.idx.Nodup := by
  unfold placedIn at h
  exact (List.nodup_flatMap.mp h).1 g (List.mem_reverse.mpr hg)

theorem PassGroup.Sound.segment_eq {g : PassGroup cl.n} (hg : g.Sound) (hnodup : g.idx.Nodup) :
    g.segment = Foundation.segment cl.fee cl.weight g.idx.toFinset := by
  unfold PassGroup.segment Foundation.segment
  rw [hg.fee, hg.weight, List.sum_toFinset _ hnodup, List.sum_toFinset _ hnodup]

theorem segments_groupOrders {groups : List (PassGroup cl.n)} (hsound : ∀ g ∈ groups, g.Sound)
    (hnodup : (placedIn groups).Nodup) :
    ((groupOrders backward groups).map List.toFinset).map
      (Foundation.segment cl.fee cl.weight) = lineUp cl backward groups [] := by
  have hseg : ∀ g ∈ groups, Foundation.segment cl.fee cl.weight g.idx.toFinset = g.segment :=
    fun g hg => ((hsound g hg).segment_eq (nodup_idx hnodup hg)).symm
  unfold groupOrders lineUp
  cases backward with
  | false =>
      simp only [Bool.false_eq_true, if_false, List.map_map, List.map_nil, List.append_nil]
      exact List.map_congr_left fun g hg => hseg g (List.mem_reverse.mp hg)
  | true =>
      simp only [if_true, List.map_map, List.reverse_nil, List.map_nil, List.nil_append]
      refine List.map_congr_left fun g hg => ?_
      simp only [Function.comp_apply, List.toFinset_reverse]
      exact hseg g hg

/-- What the groups draw is no higher than what their members do. -/
theorem peak_groups_le (r : ℚ) {groups : List (PassGroup cl.n)} (hsound : ∀ g ∈ groups, g.Sound)
    (hnodup : (placedIn groups).Nodup) :
    peak r (lineUp cl backward groups []) ≤
      peak r ((passInput backward (placedIn groups)).map (single cl.fee cl.weight)) := by
  rw [← segments_groupOrders hsound hnodup, ← groupOrders_flatten]
  refine peak_parts_le r ?_
  rw [groupOrders_flatten]
  exact passInput_nodup backward hnodup

theorem lineUp_nil (lin : List (Fin cl.n)) :
    lineUp cl backward [] (passInput backward lin) = lin.map (single cl.fee cl.weight) := by
  unfold lineUp passInput
  cases backward with
  | false => simp
  | true => simp

/-- A pass leaves a topological order of the same members and a diagram as high. -/
theorem mpcOnePass_spec (backward : Bool) (h : Small cl) (hw : ∀ i, 0 < cl.weight i) {lin : List (Fin cl.n)}
    (hlin : Topological cl.ancestors Finset.univ lin) :
    Topological cl.ancestors Finset.univ (mpcOnePass cl lin backward) ∧
      (mpcOnePass cl lin backward).Perm lin ∧
      ∀ r, peak r (lin.map (single cl.fee cl.weight)) ≤
        peak r ((mpcOnePass cl lin backward).map (single cl.fee cl.weight)) := by
  have hinput := passInput_nodup backward hlin.nodup
  obtain ⟨hsound, hperm, hpair, hpeak⟩ :=
    passGroups_spec h hw hinput (passInput_pairwise backward hlin)
  rw [mpcOnePass_eq]
  have hnodup := hperm.nodup_iff.mpr hinput
  have hsame := (passInput_perm backward (placedIn (passGroups cl backward
    (passInput backward lin)))).trans (hperm.trans (passInput_perm backward lin))
  refine ⟨topological_iff.mpr ⟨passInput_nodup backward hnodup, ?_, ?_⟩, hsame, fun r => ?_⟩
  · rw [List.toFinset_eq_of_perm _ _ hsame, hlin.toFinset]
  · cases backward with
    | false => exact hpair
    | true =>
        refine List.pairwise_reverse.mpr (hpair.imp fun {u v} hnot hup => ?_)
        exact hnot (mem_descendants_iff.mpr hup)
  · have hle := hpeak r
    rw [lineUp_nil] at hle
    exact hle.trans (peak_groups_le r hsound hnodup)

/-! ## Tight groups -/

/-- What a member gains in a pass: the backward one looks for what is cheap. -/
def passGain (cl : Cluster) (backward : Bool) (i : Fin cl.n) : ℚ :=
  if backward then -(cl.fee i : ℚ) else cl.fee i

def passLoad (cl : Cluster) (backward : Bool) (S : Finset (Fin cl.n)) : Segment :=
  load (passGain cl backward) (fun i => (cl.weight i : ℚ)) S

theorem PassGroup.Sound.load_eq {g : PassGroup cl.n} (hg : g.Sound) (hnodup : g.idx.Nodup) :
    passLoad cl backward g.members =
      ⟨if backward then -g.segment.rise else g.segment.rise, g.segment.run⟩ := by
  have hfee : (g.fee : ℚ) = ∑ i ∈ g.members, (cl.fee i : ℚ) := by
    rw [hg.fee, hg.members, ← List.sum_toFinset _ hnodup]
    push_cast
    rfl
  have hweight : (g.weight : ℚ) = ∑ i ∈ g.members, (cl.weight i : ℚ) := by
    rw [hg.weight, hg.members, ← List.sum_toFinset _ hnodup]
    push_cast
    rfl
  unfold passLoad load passGain PassGroup.segment
  cases backward with
  | false => simp only [Bool.false_eq_true, if_false, hfee, hweight]
  | true => simp only [if_true, Finset.sum_neg_distrib, hfee, hweight]

/-- A group overtakes one that it is steeper than. -/
theorem passOvertakes_iff_below (h : Small cl) (hw : ∀ i, 0 < cl.weight i) {P C : PassGroup cl.n}
    (hP : P.Sound) (hC : C.Sound) (hnodup : (P.idx ++ C.idx).Nodup) :
    passOvertakes backward P C = true ↔
      Below (passLoad cl backward P.members) (passLoad cl backward C.members) := by
  obtain ⟨hPnodup, hCnodup, -⟩ := List.nodup_append.mp hnodup
  rw [passOvertakes_iff h hw hP hC hnodup, hP.load_eq hPnodup, hC.load_eq hCnodup]
  cases backward with
  | false => exact Iff.rfl
  | true =>
      unfold Below
      simp only [if_true]
      constructor
      · intro hlt
        linarith
      · intro hlt
        linarith

/-- Groups whose slopes fall towards the top, each of them tight and above one of its members. -/
structure Arranged (cl : Cluster) (backward : Bool) (groups : List (PassGroup cl.n)) : Prop where
  falls : groups.Pairwise fun P Q =>
    ¬ Below (passLoad cl backward Q.members) (passLoad cl backward P.members)
  tight : ∀ g ∈ groups,
    Tight (passLinks cl backward) (passGain cl backward) (fun i => (cl.weight i : ℚ)) g.members
  rooted : ∀ g ∈ groups, ∃ root ∈ g.members, g.members ⊆ passLinks cl backward root

/-- The group of `i` on its way down: all of it above `i`, and no part without `i` is
steeper than the group or than one of those below. -/
structure Sinking (cl : Cluster) (backward : Bool) (i : Fin cl.n) (below : List (PassGroup cl.n))
    (C : PassGroup cl.n) : Prop where
  mem : i ∈ C.members
  links : C.members ⊆ passLinks cl backward i
  self : Topped (passLinks cl backward) (passGain cl backward) (fun i => (cl.weight i : ℚ)) i
    C.members (passLoad cl backward C.members)
  below : ∀ P ∈ below, Topped (passLinks cl backward) (passGain cl backward)
    (fun i => (cl.weight i : ℚ)) i C.members (passLoad cl backward P.members)

theorem PassGroup.Sound.members_nonempty {g : PassGroup cl.n} (hg : g.Sound) :
    g.members.Nonempty := by
  rw [hg.members]
  exact List.toFinset_nonempty_iff g.idx |>.mpr hg.nonempty

theorem disjoint_members {P C : PassGroup cl.n} (hP : P.Sound) (hC : C.Sound)
    (hnodup : (P.idx ++ C.idx).Nodup) : Disjoint P.members C.members := by
  rw [hP.members, hC.members]
  refine Finset.disjoint_left.mpr fun v hv hv' => ?_
  exact (List.nodup_append.mp hnodup).2.2 v (List.mem_toFinset.mp hv) v
    (List.mem_toFinset.mp hv') rfl

section Settle

variable (hw : ∀ i, 0 < cl.weight i)

include hw

theorem passWeight_pos : ∀ i, (0 : ℚ) < cl.weight i := fun i => Nat.cast_pos.mpr (hw i)

theorem run_passLoad_pos {S : Finset (Fin cl.n)} (hS : S.Nonempty) :
    0 < (passLoad cl backward S).run := run_load_pos (passWeight_pos hw) hS

theorem Sinking.merge {i : Fin cl.n} {below : List (PassGroup cl.n)} {P C : PassGroup cl.n}
    (hP : P.Sound) (hC : C.Sound) (hbelow : ∀ g ∈ below, g.Sound)
    (hnodup : (P.idx ++ C.idx).Nodup) (harr : Arranged cl backward (P :: below))
    (hs : Sinking cl backward i (P :: below) C)
    (hlt : Below (passLoad cl backward P.members) (passLoad cl backward C.members))
    (hup : P.members ⊆ passLinks cl backward i) :
    Sinking cl backward i below
      ⟨P.idx ++ C.idx, P.members ∪ C.members, u64 (P.fee + C.fee), u64 (P.weight + C.weight)⟩ := by
  have hdisj := disjoint_members hP hC hnodup
  have hPne := hP.members_nonempty
  have hsum : passLoad cl backward (P.members ∪ C.members) =
      passLoad cl backward P.members + passLoad cl backward C.members := load_union hdisj
  have hPtight := harr.tight P List.mem_cons_self
  have hPfalls := (List.pairwise_cons.mp harr.falls).1
  have hunion : 0 < (passLoad cl backward (P.members ∪ C.members)).run :=
    run_passLoad_pos hw (hPne.mono Finset.subset_union_left)
  have hjoin : ¬ Below (passLoad cl backward (P.members ∪ C.members))
      (passLoad cl backward P.members) := by
    rw [hsum]
    exact join_not_below hlt
  refine ⟨Finset.mem_union_right _ hs.mem, Finset.union_subset hup hs.links, ?_, fun Q hQ => ?_⟩
  · refine Topped.join (passWeight_pos hw) hdisj hPne hunion hPtight hjoin ?_
    exact (hs.below P List.mem_cons_self).mono (passWeight_pos hw) (run_passLoad_pos hw hPne)
      hunion hjoin
  · exact Topped.join (passWeight_pos hw) hdisj hPne
      (run_passLoad_pos hw (hbelow Q hQ).members_nonempty) hPtight (hPfalls Q hQ)
      (hs.below Q (List.mem_cons_of_mem _ hQ))

omit hw in
/-- No group of the result is less steep than all that went in. -/
theorem settle_not_below (h : Small cl) {x : Segment} {below : List (PassGroup cl.n)}
    {C : PassGroup cl.n} (hbelow : ∀ g ∈ below, g.Sound) (hC : C.Sound)
    (hnodup : (placedIn below ++ C.idx).Nodup)
    (hx : ∀ g ∈ below, ¬ Below (passLoad cl backward g.members) x)
    (hCx : ¬ Below (passLoad cl backward C.members) x) :
    ∀ g ∈ settle cl backward below C, ¬ Below (passLoad cl backward g.members) x := by
  induction below generalizing C with
  | nil =>
      intro g hg
      rw [List.mem_singleton.mp hg]
      exact hCx
  | cons P below ih =>
      have hP := hbelow P List.mem_cons_self
      have hrest : ∀ g ∈ below, g.Sound := fun g hg => hbelow g (List.mem_cons_of_mem _ hg)
      have hxrest : ∀ g ∈ below, ¬ Below (passLoad cl backward g.members) x := fun g hg =>
        hx g (List.mem_cons_of_mem _ hg)
      rw [placedIn_cons, List.append_assoc] at hnodup
      unfold settle
      split
      · split
        · have hboth := (List.nodup_append.mp hnodup).2.1
          refine ih hrest (hP.merge h hC hboth) hnodup hxrest ?_
          have hsum : passLoad cl backward (P.members ∪ C.members) =
              passLoad cl backward P.members + passLoad cl backward C.members :=
            load_union (disjoint_members hP hC hboth)
          simp only [hsum]
          exact add_not_below (hx P List.mem_cons_self) hCx
        · have hless : (placedIn below ++ C.idx).Nodup := hnodup.sublist
            ((List.append_sublist_append_left _).mpr (List.sublist_append_right _ _))
          intro g hg
          rcases List.mem_cons.mp hg with rfl | hg
          · exact hx g List.mem_cons_self
          · exact ih hrest hC hless hxrest hCx g hg
      · intro g hg
        rcases List.mem_cons.mp hg with rfl | hg
        · exact hCx
        · exact hx g hg

theorem settle_arranged (h : Small cl) {i : Fin cl.n} {below : List (PassGroup cl.n)}
    {C : PassGroup cl.n} (hbelow : ∀ g ∈ below, g.Sound) (hC : C.Sound)
    (hnodup : (placedIn below ++ C.idx).Nodup) (harr : Arranged cl backward below)
    (hs : Sinking cl backward i below C)
    (htrans : ∀ {u v}, u ∈ passLinks cl backward i → v ∈ passLinks cl backward u →
      v ∈ passLinks cl backward i)
    (hwhole : ∀ P ∈ below, ∀ v ∈ P.members, v ∈ passLinks cl backward i →
      P.members ⊆ passLinks cl backward i) :
    Arranged cl backward (settle cl backward below C) := by
  induction below generalizing C with
  | nil =>
      refine ⟨List.pairwise_singleton _ _, fun g hg => ?_, fun g hg => ?_⟩
      · rw [List.mem_singleton.mp hg]
        exact tight_of_topped hs.links hs.self
      · rw [List.mem_singleton.mp hg]
        exact ⟨i, hs.mem, hs.links⟩
  | cons P below ih =>
      have hP := hbelow P List.mem_cons_self
      have hrest : ∀ g ∈ below, g.Sound := fun g hg => hbelow g (List.mem_cons_of_mem _ hg)
      obtain ⟨hPfalls, hfalls⟩ := List.pairwise_cons.mp harr.falls
      have harr' : Arranged cl backward below :=
        ⟨hfalls, fun g hg => harr.tight g (List.mem_cons_of_mem _ hg),
          fun g hg => harr.rooted g (List.mem_cons_of_mem _ hg)⟩
      have hwhole' : ∀ Q ∈ below, ∀ v ∈ Q.members, v ∈ passLinks cl backward i →
          Q.members ⊆ passLinks cl backward i := fun Q hQ => hwhole Q (List.mem_cons_of_mem _ hQ)
      rw [placedIn_cons, List.append_assoc] at hnodup
      have hboth := (List.nodup_append.mp hnodup).2.1
      have hiff : passOvertakes backward P C = true ↔ _ := passOvertakes_iff_below h hw hP hC hboth
      unfold settle
      split
      · next hovertakes =>
          have hlt := hiff.mp hovertakes
          split
          · next hdepends =>
              -- the group above holds something `i` depends on, so `i` depends on all of it
              obtain ⟨k, hk, hlink⟩ := List.any_eq_true.mp hdepends
              obtain ⟨v, hv⟩ := of_decide_eq_true hlink
              obtain ⟨hvk, hvP⟩ := Finset.mem_inter.mp hv
              have hki : k ∈ passLinks cl backward i :=
                hs.links (by rw [hC.members]; exact List.mem_toFinset.mpr hk)
              have hup := hwhole P List.mem_cons_self v hvP (htrans hki hvk)
              exact ih hrest (hP.merge h hC hboth) hnodup harr'
                (hs.merge hw hP hC hrest hboth harr hlt hup) hwhole'
          · have hless : (placedIn below ++ C.idx).Nodup := hnodup.sublist
              ((List.append_sublist_append_left _).mpr (List.sublist_append_right _ _))
            have hs' : Sinking cl backward i below C :=
              ⟨hs.mem, hs.links, hs.self, fun Q hQ => hs.below Q (List.mem_cons_of_mem _ hQ)⟩
            have hnext := ih hrest hC hless harr' hs' hwhole'
            have hbound : ∀ g ∈ settle cl backward below C,
                ¬ Below (passLoad cl backward g.members) (passLoad cl backward P.members) :=
              settle_not_below h hrest hC hless hPfalls (not_lt.mpr hlt.le)
            refine ⟨List.pairwise_cons.mpr ⟨hbound, hnext.falls⟩, fun g hg => ?_, fun g hg => ?_⟩
            · rcases List.mem_cons.mp hg with rfl | hg
              · exact harr.tight g List.mem_cons_self
              · exact hnext.tight g hg
            · rcases List.mem_cons.mp hg with rfl | hg
              · exact harr.rooted g List.mem_cons_self
              · exact hnext.rooted g hg
      · next hstays =>
          have hnot := fun hlt => hstays (hiff.mpr hlt)
          refine ⟨List.pairwise_cons.mpr ⟨fun Q hQ => ?_, harr.falls⟩, fun g hg => ?_,
            fun g hg => ?_⟩
          · rcases List.mem_cons.mp hQ with rfl | hQ
            · exact hnot
            · exact not_below_of_le (run_passLoad_pos hw hP.members_nonempty)
                (run_passLoad_pos hw hC.members_nonempty).le
                (run_passLoad_pos hw (hrest Q hQ).members_nonempty) (hPfalls Q hQ) hnot
          · rcases List.mem_cons.mp hg with rfl | hg
            · exact tight_of_topped hs.links hs.self
            · exact harr.tight g hg
          · rcases List.mem_cons.mp hg with rfl | hg
            · exact ⟨i, hs.mem, hs.links⟩
            · exact harr.rooted g hg

end Settle

/-! ## The groups of a pass -/

/-- Links are an order, and what a member links to links its members up in a chain. -/
structure Branching (cl : Cluster) (backward : Bool) : Prop where
  refl : ∀ i, i ∈ passLinks cl backward i
  trans : ∀ {u v i}, u ∈ passLinks cl backward i → v ∈ passLinks cl backward u →
    v ∈ passLinks cl backward i
  chain : ∀ {p a b}, p ∈ passLinks cl backward a → p ∈ passLinks cl backward b →
    a ∈ passLinks cl backward b ∨ b ∈ passLinks cl backward a

theorem sinking_memberGroup (hrefl : ∀ i, i ∈ passLinks cl backward i) (i : Fin cl.n)
    (below : List (PassGroup cl.n)) : Sinking cl backward i below (memberGroup cl i) := by
  have hnone : ∀ x, Topped (passLinks cl backward) (passGain cl backward)
      (fun i => (cl.weight i : ℚ)) i (memberGroup cl i).members x := by
    intro x T hT hi
    have hnil : T = ∅ := by
      refine Finset.eq_empty_of_forall_notMem fun v hv => hi ?_
      rwa [← Finset.mem_singleton.mp (hT.1 hv)]
    subst hnil
    unfold Below load
    simp
  exact ⟨Finset.mem_singleton_self i, Finset.singleton_subset_iff.mpr (hrefl i), hnone _,
    fun P _ => hnone _⟩

theorem passGroups_arranged (h : Small cl) (hw : ∀ i, 0 < cl.weight i)
    (htree : Branching cl backward) {input : List (Fin cl.n)} (hnodup : input.Nodup)
    (hpair : input.Pairwise fun u v => v ∉ passLinks cl backward u) :
    Arranged cl backward (passGroups cl backward input) := by
  have hfold : ∀ (rest done : List (Fin cl.n)), (done ++ rest).Nodup →
      ((done ++ rest).Pairwise fun u v => v ∉ passLinks cl backward u) →
      Arranged cl backward (passGroups cl backward done) →
      Arranged cl backward (passGroups cl backward (done ++ rest)) := by
    intro rest
    induction rest with
    | nil =>
        intro done _ _ harr
        rwa [List.append_nil]
    | cons i rest ih =>
        intro done hnodup hpair harr
        have hsplit : done ++ i :: rest = (done ++ [i]) ++ rest := by simp
        rw [hsplit] at hnodup hpair ⊢
        refine ih _ hnodup hpair ?_
        obtain ⟨hfront, -⟩ := List.nodup_append.mp hnodup
        have hfrontpair := (List.pairwise_append.mp hpair).1
        obtain ⟨hdone, -, hnew⟩ := List.nodup_append.mp hfront
        obtain ⟨hdonepair, -, hlinks⟩ := List.pairwise_append.mp hfrontpair
        obtain ⟨hsound, hperm, -, -⟩ := passGroups_spec h hw hdone hdonepair
        have hplaced : (placedIn (passGroups cl backward done) ++ (memberGroup cl i).idx).Nodup :=
          (hperm.append_right [i]).nodup_iff.mpr hfront
        have hstep : passGroups cl backward (done ++ [i]) =
            settle cl backward (passGroups cl backward done) (memberGroup cl i) := by
          unfold passGroups
          rw [List.foldl_append]
          rfl
        rw [hstep]
        refine settle_arranged hw h hsound (sound_memberGroup i) hplaced harr
          (sinking_memberGroup htree.refl i _) htree.trans fun P hP v hv hvi => ?_
        obtain ⟨root, hroot, hup⟩ := harr.rooted P hP
        have hrootdone : root ∈ done := by
          refine hperm.mem_iff.mp (List.mem_flatMap.mpr ⟨P, List.mem_reverse.mpr hP, ?_⟩)
          rw [(hsound P hP).members] at hroot
          exact List.mem_toFinset.mp hroot
        -- the root stands before `i` and cannot depend on it
        have hlink : root ∈ passLinks cl backward i :=
          (htree.chain (hup hv) hvi).resolve_right
            (hlinks root hrootdone i (List.mem_singleton_self i))
        exact fun u hu => htree.trans hlink (hup hu)
  exact hfold input [] hnodup hpair ⟨List.Pairwise.nil, nofun, nofun⟩

/-! ## The best diagram -/

theorem load_eq_segment (S : Finset (Fin cl.n)) :
    load (fun i => (cl.fee i : ℚ)) (fun i => (cl.weight i : ℚ)) S =
      Foundation.segment cl.fee cl.weight S := by
  unfold load Foundation.segment
  push_cast
  rfl

theorem Arranged.tight_ancestors {groups : List (PassGroup cl.n)}
    (harr : Arranged cl backward groups) {g : PassGroup cl.n} (hg : g ∈ groups) :
    Tight cl.ancestors (fun i => (cl.fee i : ℚ)) (fun i => (cl.weight i : ℚ)) g.members := by
  have htight := harr.tight g hg
  cases backward with
  | false => exact htight
  | true => exact tight_transpose (fun _ _ => mem_descendants_iff) htight

/-- In the order of the result the slopes fall. -/
theorem Arranged.falling {groups : List (PassGroup cl.n)} (harr : Arranged cl backward groups)
    (hsound : ∀ g ∈ groups, g.Sound) (hnodup : (placedIn groups).Nodup) :
    Falling (lineUp cl backward groups []) := by
  have hload : ∀ g ∈ groups, passLoad cl backward g.members =
      ⟨if backward then -g.segment.rise else g.segment.rise, g.segment.run⟩ := fun g hg =>
    (hsound g hg).load_eq (nodup_idx hnodup hg)
  unfold lineUp Falling
  cases backward with
  | false =>
      simp only [Bool.false_eq_true, if_false, List.map_nil, List.append_nil]
      rw [List.pairwise_map, List.pairwise_reverse]
      refine harr.falls.imp_of_mem fun {P Q} hP hQ hnot => ?_
      rw [hload P hP, hload Q hQ] at hnot
      exact hnot
  | true =>
      simp only [if_true, List.reverse_nil, List.map_nil, List.nil_append]
      rw [List.pairwise_map]
      refine harr.falls.imp_of_mem fun {P Q} hP hQ hnot => ?_
      rw [hload P hP, hload Q hQ] at hnot
      unfold Below at *
      simp only [if_true] at hnot
      intro hlt
      exact hnot (by linarith)

theorem toFinset_mem_groupOrders {groups : List (PassGroup cl.n)}
    (hsound : ∀ g ∈ groups, g.Sound) {G : Finset (Fin cl.n)}
    (hG : G ∈ (groupOrders backward groups).map List.toFinset) :
    ∃ g ∈ groups, G = g.members := by
  obtain ⟨order, horder, rfl⟩ := List.mem_map.mp hG
  unfold groupOrders at horder
  cases backward with
  | false =>
      obtain ⟨g, hg, rfl⟩ := List.mem_map.mp horder
      have hg := List.mem_reverse.mp hg
      exact ⟨g, hg, (hsound g hg).members.symm⟩
  | true =>
      obtain ⟨g, hg, rfl⟩ := List.mem_map.mp horder
      exact ⟨g, hg, by rw [List.toFinset_reverse, (hsound g hg).members]⟩

/-- Where the links branch one way only, a pass leaves an order with the highest peaks. -/
theorem isPeak_mpcOnePass (h : Small cl) (hw : ∀ i, 0 < cl.weight i)
    (htree : Branching cl backward) {lin : List (Fin cl.n)}
    (hlin : Topological cl.ancestors Finset.univ lin) (r : ℚ) :
    IsPeak cl.ancestors Finset.univ cl.fee cl.weight r
      (peak r ((mpcOnePass cl lin backward).map (single cl.fee cl.weight))) := by
  obtain ⟨htop, -, -⟩ := mpcOnePass_spec backward h hw hlin
  refine ⟨fun T hT => ?_, htop.exists_peak_eq r⟩
  have hinput := passInput_nodup backward hlin.nodup
  have hpair := passInput_pairwise backward hlin
  obtain ⟨hsound, hperm, -, -⟩ := passGroups_spec h hw hinput hpair
  have harr := passGroups_arranged h hw htree hinput hpair
  have hnodup := hperm.nodup_iff.mpr hinput
  rw [mpcOnePass_eq]
  generalize passGroups cl backward (passInput backward lin) = groups at *
  have hflat : (groupOrders backward groups).flatten = passInput backward (placedIn groups) :=
    groupOrders_flatten groups
  have hmembers : ∀ G ∈ (groupOrders backward groups).map List.toFinset,
      ∃ g ∈ groups, G = g.members := fun G hG => toFinset_mem_groupOrders hsound hG
  have hloads : ((groupOrders backward groups).map List.toFinset).map
      (load (fun i => (cl.fee i : ℚ)) fun i => (cl.weight i : ℚ)) = lineUp cl backward groups [] := by
    rw [← segments_groupOrders hsound hnodup]
    exact List.map_congr_left fun G _ => load_eq_segment G
  refine le_trans ?_ (peak_groups_le r hsound hnodup)
  rw [← load_eq_segment, ← hloads]
  refine above_le_peak (passWeight_pos hw) (fun G hG => ?_) ?_ (fun G hG => ?_) (fun v _ => ?_)
    (fun G _ => Finset.subset_univ G) ?_ hT r
  · obtain ⟨g, hg, rfl⟩ := hmembers G hG
    exact (hsound g hg).members_nonempty
  · have hdisj := (List.nodup_flatten.mp (hflat ▸ passInput_nodup backward hnodup)).2
    refine List.pairwise_map.mpr (hdisj.imp fun {l m} hlm => ?_)
    exact Finset.disjoint_left.mpr fun v hv hv' =>
      hlm (List.mem_toFinset.mp hv) (List.mem_toFinset.mp hv')
  · obtain ⟨g, hg, rfl⟩ := hmembers G hG
    exact harr.tight_ancestors hg
  · have hv : v ∈ (groupOrders backward groups).flatten := by
      rw [hflat, (passInput_perm backward _).mem_iff, hperm.mem_iff,
        (passInput_perm backward _).mem_iff, ← List.mem_toFinset, hlin.toFinset]
      exact Finset.mem_univ v
    obtain ⟨order, horder, hv⟩ := List.mem_flatten.mp hv
    exact ⟨order.toFinset, List.mem_map_of_mem horder, List.mem_toFinset.mpr hv⟩
  · rw [hloads]
    exact harr.falling hsound hnodup

/-! ## Both passes -/

section Parents

variable {parent : Fin cl.n → Fin cl.n → Prop}
  (hclosure : ∀ i j, j ∈ cl.ancestors i ↔ Relation.ReflTransGen parent i j)

include hclosure

theorem branching_of_one_child (hone : ∀ p c c', parent c p → parent c' p → c = c') :
    Branching cl false where
  refl i := (hclosure i i).mpr .refl
  trans hu hv := (hclosure _ _).mpr (((hclosure _ _).mp hu).trans ((hclosure _ _).mp hv))
  chain {p a b} ha hb := by
    have hunique : Relator.RightUnique (Function.swap parent) := fun p c c' hc hc' =>
      hone p c c' hc hc'
    have hdown : ∀ i, p ∈ cl.ancestors i → Relation.ReflTransGen (Function.swap parent) p i :=
      fun i hi => Relation.reflTransGen_swap.mpr ((hclosure i p).mp hi)
    rcases Relation.ReflTransGen.total_of_right_unique hunique (hdown a ha) (hdown b hb) with h | h
    · exact .inl ((hclosure b a).mpr (Relation.reflTransGen_swap.mp h))
    · exact .inr ((hclosure a b).mpr (Relation.reflTransGen_swap.mp h))

theorem branching_of_one_parent (hone : ∀ c p p', parent c p → parent c p' → p = p') :
    Branching cl true where
  refl i := mem_descendants_iff.mpr ((hclosure i i).mpr .refl)
  trans hu hv := by
    refine mem_descendants_iff.mpr ((hclosure _ _).mpr ?_)
    exact ((hclosure _ _).mp (mem_descendants_iff.mp hv)).trans
      ((hclosure _ _).mp (mem_descendants_iff.mp hu))
  chain {p a b} ha hb := by
    have hunique : Relator.RightUnique parent := fun c p p' hp hp' => hone c p p' hp hp'
    rcases Relation.ReflTransGen.total_of_right_unique hunique
      ((hclosure p a).mp (mem_descendants_iff.mp ha)) ((hclosure p b).mp (mem_descendants_iff.mp hb)) with
      h | h
    · exact .inl (mem_descendants_iff.mpr ((hclosure a b).mpr h))
    · exact .inr (mem_descendants_iff.mpr ((hclosure b a).mpr h))

end Parents

theorem diagramAt_le_of_peak (h : Small cl) (hw : ∀ i, 0 < cl.weight i) {a b : List (Fin cl.n)}
    {ca cb : List (Chunk cl.n)} (ha : mpcChunkLinearization cl a = some ca)
    (hb : mpcChunkLinearization cl b = some cb)
    (hpeak : ∀ r, peak r (a.map (single cl.fee cl.weight)) ≤
      peak r (b.map (single cl.fee cl.weight))) {x : ℝ} (hx : 0 ≤ x) :
    diagramAt ca x ≤ diagramAt cb x := by
  obtain ⟨hfwd, -, -, hpeaka⟩ := chunks_spec h hw ha
  obtain ⟨hfwd', hfall, hrise, hpeakb⟩ := chunks_spec h hw hb
  refine (heightAt_le_iff hfwd hfwd').mpr (fun y hy => ?_) x hx
  refine height_le_of_peak_le hfwd hfwd' hfall hrise (fun r _ => ?_) hy
  rw [hpeaka, hpeakb]
  exact hpeak r

theorem chunked_of_topological (h : Small cl) (hw : ∀ i, 0 < cl.weight i)
    {lin : List (Fin cl.n)} (hlin : Topological cl.ancestors Finset.univ lin) :
    ∃ chunks, mpcChunkLinearization cl lin = some chunks := by
  obtain ⟨chunks, hchunks, -⟩ :=
    mpcChunkLinearization_spec h hw hlin.nodup (length_of_topological hlin)
  exact ⟨chunks, hchunks⟩

/-- `mpc_post_linearize` succeeds on every topological order and leaves one of the same
members whose diagram is nowhere lower; where no transaction has two children, or none has
two parents, no topological order has a diagram that is higher anywhere. -/
theorem mpcPostLinearize_improves (cl : Cluster) (parent : Fin cl.n → Fin cl.n → Prop)
    (hclosure : ∀ i j, j ∈ cl.ancestors i ↔ Relation.ReflTransGen parent i j)
    (hw : ∀ i, 0 < cl.weight i) (hsmall : Small cl) (lin : List (Fin cl.n))
    (hlin : mpcIsTopological cl lin = true) :
    ∃ improved before after, mpcPostLinearize cl lin = (improved, true) ∧
      mpcIsTopological cl improved = true ∧ improved.Perm lin ∧
      mpcChunkLinearization cl lin = some before ∧
      mpcChunkLinearization cl improved = some after ∧
      (∀ x : ℝ, 0 ≤ x → diagramAt before x ≤ diagramAt after x) ∧
      ((∀ p c c', parent c p → parent c' p → c = c') ∨
          (∀ c p p', parent c p → parent c p' → p = p') →
        ∀ other : List (Fin cl.n), mpcIsTopological cl other = true →
          ∃ chunks, mpcChunkLinearization cl other = some chunks ∧
            ∀ x : ℝ, 0 ≤ x → diagramAt chunks x ≤ diagramAt after x) := by
  have htop := mpcIsTopological_iff.mp hlin
  obtain ⟨hmid, hmidperm, hmidpeak⟩ := mpcOnePass_spec true hsmall hw htop
  obtain ⟨hend, hendperm, hendpeak⟩ := mpcOnePass_spec false hsmall hw hmid
  have hsuccess := mpcIsTopological_iff.mpr hend
  obtain ⟨before, hbefore⟩ := chunked_of_topological hsmall hw htop
  obtain ⟨after, hafter⟩ := chunked_of_topological hsmall hw hend
  refine ⟨mpcOnePass cl (mpcOnePass cl lin true) false, before, after, ?_, hsuccess,
    hendperm.trans hmidperm, hbefore, hafter, fun x hx => ?_, fun hone other hother => ?_⟩
  · unfold mpcPostLinearize
    rw [if_pos hlin]
    simp only [hsuccess]
  · exact diagramAt_le_of_peak hsmall hw hbefore hafter
      (fun r => (hmidpeak r).trans (hendpeak r)) hx
  · have hother' := mpcIsTopological_iff.mp hother
    obtain ⟨chunks, hchunks⟩ := chunked_of_topological hsmall hw hother'
    refine ⟨chunks, hchunks, fun x hx => ?_⟩
    refine diagramAt_le_of_peak hsmall hw hchunks hafter (fun r => ?_) hx
    have hpeak : IsPeak cl.ancestors Finset.univ cl.fee cl.weight r
        (peak r ((mpcOnePass cl (mpcOnePass cl lin true) false).map
          (single cl.fee cl.weight))) := by
      rcases hone with hchild | hparent
      · exact isPeak_mpcOnePass hsmall hw (branching_of_one_child hclosure hchild) hmid r
      · exact (isPeak_mpcOnePass hsmall hw (branching_of_one_parent hclosure hparent) htop r).of_le
          hend (hendpeak r)
    obtain ⟨T, hT, heq⟩ := hother'.exists_peak_eq (a := cl.fee) (b := cl.weight) r
    rw [← heq]
    exact hpeak.le T hT

theorem mpcPostLinearize_improves_sample :
    ∃ improved before after, mpcPostLinearize sampleCluster sampleOrder = (improved, true) ∧
      mpcIsTopological sampleCluster improved = true ∧ improved.Perm sampleOrder ∧
      mpcChunkLinearization sampleCluster sampleOrder = some before ∧
      mpcChunkLinearization sampleCluster improved = some after ∧
      (∀ x : ℝ, 0 ≤ x → diagramAt before x ≤ diagramAt after x) ∧
      ∀ other : List (Fin sampleCluster.n), mpcIsTopological sampleCluster other = true →
        ∃ chunks, mpcChunkLinearization sampleCluster other = some chunks ∧
          ∀ x : ℝ, 0 ≤ x → diagramAt chunks x ≤ diagramAt after x := by
  obtain ⟨improved, before, after, heq, htop, hperm, hbefore, hafter, hle, hbest⟩ :=
    mpcPostLinearize_improves sampleCluster sampleParent mem_sampleAncestors_iff (by decide)
      ⟨by decide, by decide, by decide⟩ sampleOrder (by decide)
  refine ⟨improved, before, after, heq, htop, hperm, hbefore, hafter, hle, hbest (.inl ?_)⟩
  intro p c c' hc hc'
  exact hc.1.trans hc'.1.symm

end BitcoinMachineCode.Mempool
