import BitcoinMachineCode.Mempool.Linearize

/-!
# Improving an order

`mpc_post_linearize`: a pass from the back and one from the front, each of which moves a
group ahead of one with a lower feerate or joins the two where one depends on the other.
The order stays topological and no pass lowers the diagram.
-/

namespace BitcoinMachineCode.Mempool

open Foundation

/-- The transpose of the ancestors, as every caller fills it in. -/
def Cluster.descendants (cl : Cluster) (a : Fin cl.n) : Finset (Fin cl.n) :=
  Finset.univ.filter fun b => a ∈ cl.ancestors b

structure PassGroup (n : Nat) where
  idx : List (Fin n)
  members : Finset (Fin n)
  fee : Nat
  weight : Nat

/-- What a member must not be moved ahead of. -/
def passLinks (cl : Cluster) (backward : Bool) (i : Fin cl.n) : Finset (Fin cl.n) :=
  if backward then cl.descendants i else cl.ancestors i

def passOvertakes {n : Nat} (backward : Bool) (P C : PassGroup n) : Bool :=
  let cmp := mpcFeerateCmp P.fee P.weight C.fee C.weight
  if backward then decide (0 < cmp) else decide (cmp < 0)

def passDepends (cl : Cluster) (backward : Bool) (P C : PassGroup cl.n) : Bool :=
  C.idx.any fun i => decide ((passLinks cl backward i ∩ P.members).Nonempty)

/-- The new group on top of the others, the topmost first. -/
def settle (cl : Cluster) (backward : Bool) :
    List (PassGroup cl.n) → PassGroup cl.n → List (PassGroup cl.n)
  | [], C => [C]
  | P :: below, C =>
      if passOvertakes backward P C then
        if passDepends cl backward P C then
          settle cl backward below
            ⟨P.idx ++ C.idx, P.members ∪ C.members, u64 (P.fee + C.fee), u64 (P.weight + C.weight)⟩
        else P :: settle cl backward below C
      else C :: P :: below

def memberGroup (cl : Cluster) (i : Fin cl.n) : PassGroup cl.n :=
  ⟨[i], {i}, cl.fee i, cl.weight i⟩

def passGroups (cl : Cluster) (backward : Bool) (input : List (Fin cl.n)) :
    List (PassGroup cl.n) :=
  input.foldl (fun g i => settle cl backward g (memberGroup cl i)) []

/-- What the groups hold, from the bottom. -/
def placedIn {n : Nat} (groups : List (PassGroup n)) : List (Fin n) :=
  groups.reverse.flatMap PassGroup.idx

def mpcOnePass (cl : Cluster) (lin : List (Fin cl.n)) (backward : Bool) : List (Fin cl.n) :=
  if backward then (placedIn (passGroups cl true lin.reverse)).reverse
  else placedIn (passGroups cl false lin)

/-- The order it leaves, and whether it returns 0. -/
def mpcPostLinearize (cl : Cluster) (lin : List (Fin cl.n)) : List (Fin cl.n) × Bool :=
  if mpcIsTopological cl lin then
    let improved := mpcOnePass cl (mpcOnePass cl lin true) false
    (improved, mpcIsTopological cl improved)
  else (lin, false)

variable {cl : Cluster} {backward : Bool}

/-! ## The groups -/

structure PassGroup.Sound (g : PassGroup cl.n) : Prop where
  nonempty : g.idx ≠ []
  members : g.members = g.idx.toFinset
  fee : g.fee = (g.idx.map cl.fee).sum
  weight : g.weight = (g.idx.map cl.weight).sum

theorem sound_memberGroup (i : Fin cl.n) : (memberGroup cl i).Sound :=
  ⟨List.cons_ne_nil _ _, rfl, by simp [memberGroup], by simp [memberGroup]⟩

@[simp] theorem placedIn_cons {n : Nat} (g : PassGroup n) (groups : List (PassGroup n)) :
    placedIn (g :: groups) = placedIn groups ++ g.idx := by
  simp [placedIn]

theorem sum_map_le_total (f : Fin cl.n → Nat) {l : List (Fin cl.n)} (hl : l.Nodup) :
    (l.map f).sum ≤ ∑ i, f i := by
  rw [← List.sum_toFinset f hl]
  exact sum_le_total f _

theorem PassGroup.Sound.merge (h : Small cl) {P C : PassGroup cl.n} (hP : P.Sound) (hC : C.Sound)
    (hnodup : (P.idx ++ C.idx).Nodup) :
    (⟨P.idx ++ C.idx, P.members ∪ C.members, u64 (P.fee + C.fee), u64 (P.weight + C.weight)⟩ :
      PassGroup cl.n).Sound := by
  have hfee : P.fee + C.fee = ((P.idx ++ C.idx).map cl.fee).sum := by
    rw [hP.fee, hC.fee, List.map_append, List.sum_append]
  have hweight : P.weight + C.weight = ((P.idx ++ C.idx).map cl.weight).sum := by
    rw [hP.weight, hC.weight, List.map_append, List.sum_append]
  refine ⟨fun hnil => hP.nonempty (List.append_eq_nil_iff.mp hnil).1, ?_, ?_, ?_⟩
  · rw [hP.members, hC.members, List.toFinset_append]
  · rw [hfee]
    exact u64_of_lt (lt_of_le_of_lt (sum_map_le_total _ hnodup) h.fee)
  · rw [hweight]
    exact u64_of_lt (lt_of_le_of_lt (sum_map_le_total _ hnodup) h.weight)

theorem settle_sound (h : Small cl) {below : List (PassGroup cl.n)} {C : PassGroup cl.n}
    (hbelow : ∀ g ∈ below, g.Sound) (hC : C.Sound) (hnodup : (placedIn below ++ C.idx).Nodup) :
    (∀ g ∈ settle cl backward below C, g.Sound) ∧
      (placedIn (settle cl backward below C)).Perm (placedIn below ++ C.idx) := by
  induction below generalizing C with
  | nil =>
      refine ⟨fun g hg => ?_, ?_⟩
      · rw [List.mem_singleton.mp hg]
        exact hC
      · simp [settle, placedIn]
  | cons P below ih =>
      have hP := hbelow P List.mem_cons_self
      have hrest : ∀ g ∈ below, g.Sound := fun g hg => hbelow g (List.mem_cons_of_mem _ hg)
      rw [placedIn_cons, List.append_assoc] at hnodup
      unfold settle
      split
      · split
        · have hboth := (List.nodup_append.mp hnodup).2.1
          obtain ⟨hsound, hperm⟩ := ih hrest (hP.merge h hC hboth) hnodup
          refine ⟨hsound, hperm.trans ?_⟩
          rw [placedIn_cons, List.append_assoc]
        · have hless : (placedIn below ++ C.idx).Nodup := by
            refine hnodup.sublist ?_
            exact (List.append_sublist_append_left _).mpr (List.sublist_append_right _ _)
          obtain ⟨hsound, hperm⟩ := ih hrest hC hless
          refine ⟨fun g hg => ?_, ?_⟩
          · rcases List.mem_cons.mp hg with rfl | hg
            · exact hP
            · exact hsound g hg
          · rw [placedIn_cons, placedIn_cons]
            refine (hperm.append_right P.idx).trans ?_
            rw [List.append_assoc, List.append_assoc]
            exact List.perm_append_comm.append_left _
      · refine ⟨fun g hg => ?_, ?_⟩
        · rcases List.mem_cons.mp hg with rfl | hg
          · exact hC
          · exact hbelow g hg
        · rw [placedIn_cons, placedIn_cons]

/-- Nothing stands ahead of what it depends on. -/
theorem settle_pairwise (h : Small cl) {below : List (PassGroup cl.n)} {C : PassGroup cl.n}
    (hbelow : ∀ g ∈ below, g.Sound) (hC : C.Sound) (hnodup : (placedIn below ++ C.idx).Nodup)
    (hpair : (placedIn below ++ C.idx).Pairwise fun u v => v ∉ passLinks cl backward u) :
    (placedIn (settle cl backward below C)).Pairwise fun u v => v ∉ passLinks cl backward u := by
  induction below generalizing C with
  | nil => simpa [settle, placedIn] using hpair
  | cons P below ih =>
      have hP := hbelow P List.mem_cons_self
      have hrest : ∀ g ∈ below, g.Sound := fun g hg => hbelow g (List.mem_cons_of_mem _ hg)
      rw [placedIn_cons, List.append_assoc] at hnodup hpair
      unfold settle
      split
      · split
        · exact ih hrest (hP.merge h hC (List.nodup_append.mp hnodup).2.1) hnodup hpair
        · next hfree =>
            have hsub : (placedIn below ++ C.idx).Sublist (placedIn below ++ (P.idx ++ C.idx)) :=
              (List.append_sublist_append_left _).mpr (List.sublist_append_right _ _)
            have hsettled := ih hrest hC (hnodup.sublist hsub) (hpair.sublist hsub)
            have hperm : (placedIn (settle cl backward below C)).Perm _ :=
              (settle_sound h hrest hC (hnodup.sublist hsub)).2
            rw [List.pairwise_append] at hpair
            rw [placedIn_cons]
            refine List.pairwise_append.mpr
              ⟨hsettled, (List.pairwise_append.mp hpair.2.1).1, fun u hu v hv => ?_⟩
            rcases List.mem_append.mp (hperm.mem_iff.mp hu) with hu | hu
            · exact hpair.2.2 u hu v (List.mem_append_left _ hv)
            · -- the group that moves ahead does not depend on the one it passes
              intro hlink
              refine hfree (List.any_eq_true.mpr ⟨u, hu, decide_eq_true ⟨v, ?_⟩⟩)
              rw [hP.members]
              exact Finset.mem_inter.mpr ⟨hlink, List.mem_toFinset.mpr hv⟩
      · simpa only [placedIn_cons, List.append_assoc] using hpair

/-! ## The diagram of the groups -/

def PassGroup.segment {n : Nat} (g : PassGroup n) : Segment := ⟨g.fee, g.weight⟩

theorem PassGroup.Sound.run_pos (hw : ∀ i, 0 < cl.weight i) {g : PassGroup cl.n} (hg : g.Sound) :
    0 < g.weight := by
  rw [hg.weight]
  cases hidx : g.idx with
  | nil => exact absurd hidx hg.nonempty
  | cons i idx =>
      have := hw i
      simp only [List.map_cons, List.sum_cons]
      omega

theorem passOvertakes_iff (h : Small cl) (hw : ∀ i, 0 < cl.weight i) {P C : PassGroup cl.n}
    (hP : P.Sound) (hC : C.Sound) (hnodup : (P.idx ++ C.idx).Nodup) :
    passOvertakes backward P C = true ↔
      if backward then Segment.Below C.segment P.segment
      else Segment.Below P.segment C.segment := by
  obtain ⟨hPnodup, hCnodup, -⟩ := List.nodup_append.mp hnodup
  have hPfee : P.fee ≤ ∑ i, cl.fee i := hP.fee ▸ sum_map_le_total _ hPnodup
  have hCfee : C.fee ≤ ∑ i, cl.fee i := hC.fee ▸ sum_map_le_total _ hCnodup
  have hPweight : P.weight ≤ ∑ i, cl.weight i := hP.weight ▸ sum_map_le_total _ hPnodup
  have hCweight : C.weight ≤ ∑ i, cl.weight i := hC.weight ▸ sum_map_le_total _ hCnodup
  have hl := h.mul_lt hPfee hCweight
  have hr := h.mul_lt hCfee hPweight
  unfold passOvertakes
  cases backward with
  | false =>
      simp only [Bool.false_eq_true, if_false, decide_eq_true_eq, Segment.Below, PassGroup.segment]
      rw [mpcFeerateCmp_neg_iff (hP.run_pos hw) (hC.run_pos hw) hl hr]
      norm_cast
  | true =>
      simp only [if_true, decide_eq_true_eq, Segment.Below, PassGroup.segment]
      rw [mpcFeerateCmp_pos_iff (hP.run_pos hw) (hC.run_pos hw) hl hr]
      norm_cast

theorem merge_segment (h : Small cl) {P C : PassGroup cl.n} (hP : P.Sound) (hC : C.Sound)
    (hnodup : (P.idx ++ C.idx).Nodup) :
    (⟨P.idx ++ C.idx, P.members ∪ C.members, u64 (P.fee + C.fee), u64 (P.weight + C.weight)⟩ :
      PassGroup cl.n).segment = P.segment + C.segment := by
  have hmerge := hP.merge h hC hnodup
  have hfee : u64 (P.fee + C.fee) = ((P.idx ++ C.idx).map cl.fee).sum := hmerge.fee
  have hweight : u64 (P.weight + C.weight) = ((P.idx ++ C.idx).map cl.weight).sum := hmerge.weight
  rw [List.map_append, List.sum_append, ← hP.fee, ← hC.fee] at hfee
  rw [List.map_append, List.sum_append, ← hP.weight, ← hC.weight] at hweight
  unfold PassGroup.segment
  rw [hfee, hweight]
  push_cast
  rfl

section Diagram

variable (h : Small cl) (hw : ∀ i, 0 < cl.weight i)

include h hw

theorem peak_settle_forward (r : ℚ) {below : List (PassGroup cl.n)} {C : PassGroup cl.n}
    (hbelow : ∀ g ∈ below, g.Sound) (hC : C.Sound) (hnodup : (placedIn below ++ C.idx).Nodup)
    (q : List Segment) :
    peak r (below.reverse.map PassGroup.segment ++ C.segment :: q) ≤
      peak r ((settle cl false below C).reverse.map PassGroup.segment ++ q) := by
  induction below generalizing C q with
  | nil => exact le_rfl
  | cons P below ih =>
      have hP := hbelow P List.mem_cons_self
      have hrest : ∀ g ∈ below, g.Sound := fun g hg => hbelow g (List.mem_cons_of_mem _ hg)
      rw [placedIn_cons, List.append_assoc] at hnodup
      have hboth := (List.nodup_append.mp hnodup).2.1
      have hPpos : (0 : ℚ) < P.segment.run := Nat.cast_pos.mpr (hP.run_pos hw)
      have hCpos : (0 : ℚ) < C.segment.run := Nat.cast_pos.mpr (hC.run_pos hw)
      rw [List.reverse_cons, List.map_append, List.append_assoc]
      unfold settle
      split
      · next hovertake =>
          have hbelow := (passOvertakes_iff h hw hP hC hboth).mp hovertake
          simp only [Bool.false_eq_true, if_false] at hbelow
          split
          · refine le_trans (le_of_eq ?_) (ih hrest (hP.merge h hC hboth) hnodup q)
            rw [merge_segment h hP hC hboth]
            exact peak_append_congr r _ (peak_join r hPpos hCpos hbelow q)
          · have hless : (placedIn below ++ C.idx).Nodup := hnodup.sublist
              ((List.append_sublist_append_left _).mpr (List.sublist_append_right _ _))
            rw [List.reverse_cons, List.map_append, List.append_assoc]
            refine le_trans ?_ (ih hrest hC hless _)
            exact peak_append_mono r _ (peak_swap_le r hPpos hCpos hbelow q)
      · simp

theorem peak_settle_backward (r : ℚ) {below : List (PassGroup cl.n)} {C : PassGroup cl.n}
    (hbelow : ∀ g ∈ below, g.Sound) (hC : C.Sound) (hnodup : (placedIn below ++ C.idx).Nodup)
    (p : List Segment) :
    peak r (p ++ C.segment :: below.map PassGroup.segment) ≤
      peak r (p ++ (settle cl true below C).map PassGroup.segment) := by
  induction below generalizing C p with
  | nil => exact le_rfl
  | cons P below ih =>
      have hP := hbelow P List.mem_cons_self
      have hrest : ∀ g ∈ below, g.Sound := fun g hg => hbelow g (List.mem_cons_of_mem _ hg)
      rw [placedIn_cons, List.append_assoc] at hnodup
      have hboth := (List.nodup_append.mp hnodup).2.1
      have hPpos : (0 : ℚ) < P.segment.run := Nat.cast_pos.mpr (hP.run_pos hw)
      have hCpos : (0 : ℚ) < C.segment.run := Nat.cast_pos.mpr (hC.run_pos hw)
      rw [List.map_cons]
      unfold settle
      split
      · next hovertake =>
          have hbelow := (passOvertakes_iff h hw hP hC hboth).mp hovertake
          simp only [if_true] at hbelow
          split
          · refine le_trans (le_of_eq ?_) (ih hrest (hP.merge h hC hboth) hnodup p)
            have hsum : P.segment + C.segment = C.segment + P.segment := by
              change Segment.mk _ _ = Segment.mk _ _
              rw [add_comm P.segment.rise, add_comm P.segment.run]
            rw [merge_segment h hP hC hboth, hsum]
            exact peak_append_congr r _ (peak_join r hCpos hPpos hbelow _)
          · have hless : (placedIn below ++ C.idx).Nodup := hnodup.sublist
              ((List.append_sublist_append_left _).mpr (List.sublist_append_right _ _))
            have hmoved := ih hrest hC hless (p ++ [P.segment])
            rw [List.append_assoc, List.append_assoc] at hmoved
            refine le_trans ?_ hmoved
            exact peak_append_mono r _ (peak_swap_le r hCpos hPpos hbelow _)
      · simp

/-! ## A pass -/

/-- The groups and what is still to come, as segments in their order. -/
def lineUp (cl : Cluster) (backward : Bool) (groups : List (PassGroup cl.n))
    (rest : List (Fin cl.n)) : List Segment :=
  if backward then
    rest.reverse.map (single cl.fee cl.weight) ++ groups.map PassGroup.segment
  else groups.reverse.map PassGroup.segment ++ rest.map (single cl.fee cl.weight)

theorem peak_lineUp_le (r : ℚ) {groups : List (PassGroup cl.n)} {i : Fin cl.n}
    {rest : List (Fin cl.n)} (hgroups : ∀ g ∈ groups, g.Sound)
    (hnodup : (placedIn groups ++ [i]).Nodup) :
    peak r (lineUp cl backward groups (i :: rest)) ≤
      peak r (lineUp cl backward (settle cl backward groups (memberGroup cl i)) rest) := by
  have hsound : (memberGroup cl i).Sound := sound_memberGroup i
  cases backward with
  | true =>
      have hstep := peak_settle_backward h hw r hgroups hsound hnodup
        (rest.reverse.map (single cl.fee cl.weight))
      unfold lineUp
      rw [if_pos rfl, if_pos rfl, List.reverse_cons, List.map_append, List.append_assoc]
      exact hstep
  | false =>
      have hstep := peak_settle_forward h hw r hgroups hsound hnodup
        (rest.map (single cl.fee cl.weight))
      unfold lineUp
      exact hstep

/-- What a whole pass keeps of the order it is given. -/
theorem passGroups_spec {input : List (Fin cl.n)} (hnodup : input.Nodup)
    (hpair : input.Pairwise fun u v => v ∉ passLinks cl backward u) :
    (∀ g ∈ passGroups cl backward input, g.Sound) ∧
      (placedIn (passGroups cl backward input)).Perm input ∧
      ((placedIn (passGroups cl backward input)).Pairwise
        fun u v => v ∉ passLinks cl backward u) ∧
      ∀ r, peak r (lineUp cl backward [] input) ≤
        peak r (lineUp cl backward (passGroups cl backward input) []) := by
  have hfold : ∀ (rest : List (Fin cl.n)) (groups : List (PassGroup cl.n)),
      (∀ g ∈ groups, g.Sound) → (placedIn groups ++ rest).Nodup →
      ((placedIn groups ++ rest).Pairwise fun u v => v ∉ passLinks cl backward u) →
      let final := rest.foldl (fun g i => settle cl backward g (memberGroup cl i)) groups
      (∀ g ∈ final, g.Sound) ∧ (placedIn final).Perm (placedIn groups ++ rest) ∧
        ((placedIn final).Pairwise fun u v => v ∉ passLinks cl backward u) ∧
        ∀ r, peak r (lineUp cl backward groups rest) ≤ peak r (lineUp cl backward final []) := by
    intro rest
    induction rest with
    | nil =>
        intro groups hgroups hnodup hpair
        rw [List.append_nil] at hnodup hpair
        exact ⟨hgroups, by simp, hpair, fun r => le_rfl⟩
    | cons i rest ih =>
        intro groups hgroups hnodup hpair
        have hsplit : placedIn groups ++ i :: rest = (placedIn groups ++ [i]) ++ rest := by simp
        rw [hsplit] at hnodup hpair
        have hi : (memberGroup cl i).Sound := sound_memberGroup i
        have hfront := (List.nodup_append.mp hnodup).1
        obtain ⟨hsound, hperm⟩ : (∀ g ∈ settle cl backward groups (memberGroup cl i), g.Sound) ∧
            (placedIn (settle cl backward groups (memberGroup cl i))).Perm _ :=
          settle_sound h hgroups hi hfront
        have hnext := settle_pairwise h hgroups hi hfront (List.pairwise_append.mp hpair).1
        have hperm' : (placedIn (settle cl backward groups (memberGroup cl i)) ++ rest).Perm
            ((placedIn groups ++ [i]) ++ rest) := hperm.append_right rest
        have hpair' : (placedIn (settle cl backward groups (memberGroup cl i)) ++ rest).Pairwise
            fun u v => v ∉ passLinks cl backward u := by
          refine List.pairwise_append.mpr
            ⟨hnext, (List.pairwise_append.mp hpair).2.1, fun u hu v hv => ?_⟩
          exact (List.pairwise_append.mp hpair).2.2 u (hperm.mem_iff.mp hu) v hv
        obtain ⟨hs, hp, hpw, hpk⟩ := ih _ hsound (hperm'.nodup_iff.mpr hnodup) hpair'
        rw [hsplit]
        exact ⟨hs, hp.trans hperm', hpw, fun r =>
          (peak_lineUp_le h hw r hgroups hfront).trans (hpk r)⟩
  exact hfold input [] nofun hnodup hpair

end Diagram

end BitcoinMachineCode.Mempool
