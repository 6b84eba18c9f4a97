import BitcoinMachineCode.Mempool.Cluster
import Mathlib.Data.Finset.Max

/-!
# The optimal order

The set cut off in each round is the ancestor-closed one of the highest feerate: the
rounds of the ratio end because no closed set is better, and there are never more of them
than members, since from one cut to the next the set shrinks.
-/

namespace BitcoinMachineCode.Mempool

open Foundation Vertex

variable {cl : Cluster} {rem : Finset (Fin cl.n)}

/-! ## One cut -/

theorem nodup_vertices (n : Nat) : (vertices n).Nodup := by
  unfold vertices
  refine List.nodup_append.mpr ⟨?_, by simp, ?_⟩
  · refine (List.nodup_finRange n).map fun i j h => ?_
    exact Vertex.member.inj h
  · intro x hx y hy
    obtain ⟨i, -, rfl⟩ := List.mem_map.mp hx
    rintro rfl
    simp at hy

theorem mem_vertices {n : Nat} (x : Vertex (Fin n)) : x ∈ vertices n := by
  unfold vertices
  cases x with
  | member v => exact List.mem_append_left _ (List.mem_map_of_mem (List.mem_finRange v))
  | source => simp
  | sink => simp

/-- Both searches of `mpc_max_closure` end, with the heaviest closed set and its weight. -/
theorem mpcMaxClosure_spec (cl : Cluster) (rem : Finset (Fin cl.n)) (p : Fin cl.n → Int) :
    ∃ S, mpcMaxClosure cl rem p = some (S, ∑ v ∈ S, p v) ∧ Heaviest cl.ancestors rem p S := by
  have hpos : 0 ≤ positive rem p := positive_nonneg
  have hinf : 0 < positive rem p + 1 := Int.lt_add_one_of_le hpos
  have hstart : Residual (closureCap cl.ancestors rem p (positive rem p + 1))
      (closureCap cl.ancestors rem p (positive rem p + 1)) source sink 0 :=
    Residual.start fun x y => closureCap_nonneg hinf.le x y
  have hfuel : positive rem p < 0 + ((positive rem p).toNat + 1 : Nat) := by
    push_cast
    omega
  have hst : (source : Vertex (Fin cl.n)) ≠ sink := nofun
  obtain ⟨cap, flow, heq, hres, hend⟩ := maxFlow_spec (nodup_vertices cl.n) mem_vertices hst hinf
    (fun _ _ h => flow_le_positive h) hstart hfuel hfuel
  obtain ⟨hheavy, hvalue⟩ := heaviest_reached (nodup_vertices cl.n) mem_vertices hres hend
  refine ⟨reached (levels (openArc cap) (vertices cl.n) source), ?_, hheavy⟩
  unfold mpcMaxClosure
  simp only
  rw [heq, hvalue]
  rfl

/-- The searches of `mpc_max_closure` end, and it returns the largest weight of a closed part
of `rem` and the least part that has it. -/
theorem mpcMaxClosure_largest (cl : Cluster) (rem : Finset (Fin cl.n)) (p : Fin cl.n → Int) :
    ∃ set val, mpcMaxClosure cl rem p = some (set, val) ∧
      IsGreatest {x | ∃ T, Closed cl.ancestors rem T ∧ ∑ v ∈ T, p v = x} val ∧
      IsLeast {T | Closed cl.ancestors rem T ∧ ∑ v ∈ T, p v = val} set := by
  obtain ⟨S, heq, hheavy⟩ := mpcMaxClosure_spec cl rem p
  refine ⟨S, ∑ v ∈ S, p v, heq, ⟨⟨S, hheavy.closed, rfl⟩, ?_⟩, ⟨hheavy.closed, rfl⟩, ?_⟩
  · rintro x ⟨T, hT, rfl⟩
    exact hheavy.le T hT
  · rintro T ⟨hT, hsame⟩
    exact hheavy.least T hT hsame

/-! ## The best feerate -/

/-- The ancestors of a member in an acyclic cluster. -/
structure Ordered (up : Fin cl.n → Finset (Fin cl.n)) : Prop where
  refl : ∀ v, v ∈ up v
  trans : ∀ {v u w}, u ∈ up v → w ∈ up u → w ∈ up v
  antisymm : ∀ {v u}, u ∈ up v → v ∈ up u → u = v

/-- A closed set with its own totals. -/
structure Best.Sound (rem : Finset (Fin cl.n)) (best : Best cl.n) : Prop where
  closed : Closed cl.ancestors rem best.set
  fee : best.fee = ∑ i ∈ best.set, cl.fee i
  weight : best.weight = ∑ i ∈ best.set, cl.weight i

theorem sound_of_closed (h : Small cl) {set : Finset (Fin cl.n)}
    (hset : Closed cl.ancestors rem set) :
    Best.Sound rem ⟨set, (mpcSetTotals cl set).1, (mpcSetTotals cl set).2⟩ := by
  rw [h.setTotals]
  exact ⟨hset, rfl, rfl⟩

theorem closed_ancestors (hord : Ordered cl.ancestors) (i : Fin cl.n) :
    Closed cl.ancestors rem (cl.ancestors i ∩ rem) := by
  refine ⟨Finset.inter_subset_right, fun v hv u hu hrem => ?_⟩
  exact Finset.mem_inter.mpr ⟨hord.trans (Finset.mem_inter.mp hv).1 hu, hrem⟩

theorem bestAncestorStep_spec (h : Small cl) (hord : Ordered cl.ancestors) {best : Best cl.n}
    (hbest : best.Sound rem) (i : Fin cl.n) :
    ∃ best', bestAncestorStep cl rem best i = some best' ∧ best'.Sound rem ∧
      (best.set.Nonempty ∨ i ∈ rem → best'.set.Nonempty) := by
  unfold bestAncestorStep
  split
  · next hout => exact ⟨best, rfl, hbest, fun hne => hne.resolve_right hout⟩
  · next hin =>
      rw [not_not] at hin
      have hself : i ∈ cl.ancestors i ∩ rem := Finset.mem_inter.mpr ⟨hord.refl i, hin⟩
      simp only [not_true_eq_false, hself, if_false]
      split
      · exact ⟨_, rfl, sound_of_closed h (closed_ancestors hord i), fun _ => ⟨i, hself⟩⟩
      · next hkeep =>
          push Not at hkeep
          exact ⟨best, rfl, hbest, fun _ => hkeep.1⟩

theorem bestAncestorSet_spec (h : Small cl) (hord : Ordered cl.ancestors) (hrem : rem.Nonempty) :
    ∃ best, bestAncestorSet cl rem = some best ∧ best.Sound rem ∧ best.set.Nonempty := by
  have hfold : ∀ (is : List (Fin cl.n)) (best : Best cl.n), best.Sound rem →
      ∃ best', is.foldlM (bestAncestorStep cl rem) best = some best' ∧ best'.Sound rem ∧
        ((best.set.Nonempty ∨ ∃ i ∈ is, i ∈ rem) → best'.set.Nonempty) := by
    intro is
    induction is with
    | nil =>
        intro best hbest
        refine ⟨best, rfl, hbest, fun hne => ?_⟩
        rcases hne with hne | ⟨i, hi, -⟩
        · exact hne
        · exact absurd hi List.not_mem_nil
    | cons i is ih =>
        intro best hbest
        obtain ⟨mid, heq, hmid, hne⟩ := bestAncestorStep_spec h hord hbest i
        obtain ⟨best', heq', hbest', hne'⟩ := ih mid hmid
        refine ⟨best', ?_, hbest', fun hor => hne' ?_⟩
        · rw [List.foldlM_cons, heq]
          exact heq'
        · rcases hor with hset | ⟨j, hj, hjrem⟩
          · exact .inl (hne (.inl hset))
          · rcases List.mem_cons.mp hj with rfl | hj
            · exact .inl (hne (.inr hjrem))
            · exact .inr ⟨j, hj, hjrem⟩
  obtain ⟨best, heq, hbest, hne⟩ := hfold (List.finRange cl.n) ⟨∅, 0, 0⟩
    ⟨closed_empty, rfl, rfl⟩
  obtain ⟨i, hi⟩ := hrem
  exact ⟨best, heq, hbest, hne (.inr ⟨i, List.mem_finRange i, hi⟩)⟩

/-- In range the excess of a member is its surplus over the ratio of the set. -/
theorem excessAt_eq (h : Small cl) {best : Best cl.n} (hbest : best.Sound rem) {v : Fin cl.n}
    (hv : v ∈ rem) :
    excessAt cl rem best v = surplus cl.fee cl.weight best.fee best.weight v := by
  have hfee : best.fee ≤ ∑ i, cl.fee i := by
    rw [hbest.fee]
    exact sum_le_total _ _
  have hweight : best.weight ≤ ∑ i, cl.weight i := by
    rw [hbest.weight]
    exact sum_le_total _ _
  have hfeeV : cl.fee v ≤ ∑ i, cl.fee i := Finset.single_le_sum (by simp) (Finset.mem_univ v)
  have hweightV : cl.weight v ≤ ∑ i, cl.weight i :=
    Finset.single_le_sum (by simp) (Finset.mem_univ v)
  have hl := h.mul_lt hfeeV hweight
  have hr := h.mul_lt hfee hweightV
  unfold excessAt surplus
  rw [if_pos hv, i128_mul hl, i128_mul hr, ← Int.natCast_mul, ← Int.natCast_mul]
  exact i128_of_lt (by omega) (by omega)

theorem mpcMaxClosure_excess (h : Small cl) {best : Best cl.n} (hbest : best.Sound rem) :
    ∃ S, mpcMaxClosure cl rem (excessAt cl rem best) =
        some (S, ∑ v ∈ S, surplus cl.fee cl.weight best.fee best.weight v) ∧
      Heaviest cl.ancestors rem (surplus cl.fee cl.weight best.fee best.weight) S := by
  obtain ⟨S, heq, hheavy⟩ := mpcMaxClosure_spec cl rem (excessAt cl rem best)
  have hsum : ∀ T, Closed cl.ancestors rem T → ∑ v ∈ T, excessAt cl rem best v =
      ∑ v ∈ T, surplus cl.fee cl.weight best.fee best.weight v := fun T hT =>
    Finset.sum_congr rfl fun v hv => excessAt_eq h hbest (hT.1 hv)
  rw [hsum S hheavy.closed] at heq
  refine ⟨S, heq, hheavy.closed, fun T hT => ?_, fun T hT hsame => ?_⟩
  · rw [← hsum T hT, ← hsum S hheavy.closed]
    exact hheavy.le T hT
  · refine hheavy.least T hT ?_
    rw [hsum T hT, hsum S hheavy.closed]
    exact hsame

/-- The set was found by a cut over a lesser ratio. -/
def Best.Found (rem : Finset (Fin cl.n)) (best : Best cl.n) : Prop :=
  ∃ F W, Heaviest cl.ancestors rem (surplus cl.fee cl.weight F W) best.set ∧
    0 < ∑ v ∈ best.set, surplus cl.fee cl.weight F W v

/-- The cut at the set finds nothing above its ratio, which is where the rounds stop. -/
def Best.Final (rem : Finset (Fin cl.n)) (best : Best cl.n) : Prop :=
  ∃ s val, mpcMaxClosure cl rem (excessAt cl rem best) = some (s, val) ∧ val ≤ 0

/-- The rounds end before their number does, with a set of the highest feerate. -/
theorem dinkelbach_spec (h : Small cl) (hw : ∀ i, 0 < cl.weight i) {rounds : Nat}
    {best : Best cl.n} (hbest : best.Sound rem) (hne : best.set.Nonempty)
    (hrounds : cl.n + 1 < rounds ∨ (best.Found rem ∧ best.set.card < rounds)) :
    ∃ k best', k < rounds ∧ dinkelbach cl rem k best = some best' ∧
      dinkelbach cl rem rounds best = some best' ∧ best'.Final rem ∧
      BestRatio cl.ancestors rem cl.fee cl.weight best'.set := by
  induction rounds generalizing best with
  | zero => omega
  | succ rounds ih =>
      have hweight : 0 < best.weight := by
        rw [hbest.weight]
        exact Finset.sum_pos (fun i _ => hw i) hne
      obtain ⟨S, heq, hheavy⟩ := mpcMaxClosure_excess h hbest
      by_cases hend : ∑ v ∈ S, surplus cl.fee cl.weight best.fee best.weight v ≤ 0 ∨ S = ∅
      · have hle : ∑ v ∈ S, surplus cl.fee cl.weight best.fee best.weight v ≤ 0 := by
          rcases hend with hle | rfl
          · exact hle
          · simp
        refine ⟨0, best, Nat.succ_pos _, rfl, ?_, ⟨S, _, heq, hle⟩, ?_⟩
        · unfold dinkelbach
          rw [if_neg hweight.ne', heq]
          exact if_pos hend
        · refine bestRatio_of_surplus hbest.closed hne fun T hT => ?_
          rw [← hbest.fee, ← hbest.weight]
          exact (hheavy.le T hT).trans hle
      · have hmore := hend
        push Not at hmore
        have hSne := hmore.2
        have hS := sound_of_closed h hheavy.closed
        have hSweight : 0 < ∑ v ∈ S, cl.weight v := Finset.sum_pos (fun i _ => hw i) hSne
        have hfee : best.fee ≤ ∑ i, cl.fee i := by
          rw [hbest.fee]
          exact sum_le_total _ _
        have hle : best.weight ≤ ∑ i, cl.weight i := by
          rw [hbest.weight]
          exact sum_le_total _ _
        have hcmp := mpcFeerateCmp_pos_iff hSweight hweight
          (h.mul_lt (sum_le_total cl.fee S) hle) (h.mul_lt hfee (sum_le_total cl.weight S))
        have hgain := hmore.1
        rw [sum_surplus] at hgain
        have hhigher : best.fee * ∑ v ∈ S, cl.weight v < (∑ v ∈ S, cl.fee v) * best.weight := by
          have : ((best.fee * ∑ v ∈ S, cl.weight v : Nat) : Int) <
              ((∑ v ∈ S, cl.fee v) * best.weight : Nat) := by
            push_cast
            push_cast at hgain
            linarith
          exact_mod_cast this
        have hguard : ¬ mpcFeerateCmp (mpcSetTotals cl S).1 (mpcSetTotals cl S).2 best.fee
            best.weight ≤ 0 := by
          rw [h.setTotals]
          exact not_le.mpr (hcmp.mpr hhigher)
        have hstep : ∀ m, dinkelbach cl rem (m + 1) best =
            dinkelbach cl rem m ⟨S, (mpcSetTotals cl S).1, (mpcSetTotals cl S).2⟩ := by
          intro m
          rw [dinkelbach, if_neg hweight.ne', heq]
          simp only
          rw [if_neg hend, if_neg hguard]
        -- from one cut to the next the set shrinks
        have hcount : S.card < rounds := by
          rcases hrounds with hfirst | ⟨⟨F, W, hlast, hpos⟩, hcard⟩
          · have : S.card ≤ cl.n := by simpa using Finset.card_le_univ S
            omega
          · have hgrow := hmore.1
            rw [hbest.fee, hbest.weight] at hheavy hgrow
            have hsub := heaviest_ssubset (fun v _ => hw v) hlast hpos hheavy hgrow
            have := Finset.card_lt_card hsub
            omega
        obtain ⟨k, best', hk, hshort, hfull, hfinal, hratio⟩ :=
          ih hS hSne (.inr ⟨⟨best.fee, best.weight, hheavy, hmore.1⟩, hcount⟩)
        refine ⟨k + 1, best', Nat.succ_lt_succ hk, ?_, ?_, hfinal, hratio⟩
        · rw [hstep, hshort]
        · rw [hstep, hfull]

/-! ## Placing a set -/

/-- Something to do has nothing to do above it. -/
theorem exists_first (hord : Ordered cl.ancestors) {todo : Finset (Fin cl.n)}
    (hne : todo.Nonempty) : ∃ i ∈ todo, ∀ u ∈ cl.ancestors i, u ∈ todo → u = i := by
  obtain ⟨i, hi, hmin⟩ := Finset.exists_min_image todo (fun i => (cl.ancestors i).card) hne
  refine ⟨i, hi, fun u hu htodo => ?_⟩
  by_contra hne'
  have hsub : cl.ancestors u ⊂ cl.ancestors i := by
    refine Finset.ssubset_iff_subset_ne.mpr ⟨fun w hw => hord.trans hu hw, fun heq => ?_⟩
    exact hne' (hord.antisymm hu (heq ▸ hord.refl i))
  have := Finset.card_lt_card hsub
  have := hmin u htodo
  omega

theorem nextPlaced_spec (hord : Ordered cl.ancestors) {best placed todo : Finset (Fin cl.n)}
    (hall : best = placed ∪ todo) (hne : todo.Nonempty) :
    ∃ i, nextPlaced cl best placed todo = some i ∧ i ∈ todo ∧
      ∀ u ∈ cl.ancestors i, u ∈ best → u ≠ i → u ∈ placed := by
  have hsome : (nextPlaced cl best placed todo).isSome := by
    obtain ⟨i, hi, hfirst⟩ := exists_first hord hne
    refine List.find?_isSome.mpr ⟨i, List.mem_finRange i, ?_⟩
    rw [Bool.and_eq_true, decide_eq_true_eq, decide_eq_true_eq]
    refine ⟨hi, fun u hu => ?_⟩
    obtain ⟨hui, hu⟩ := Finset.mem_erase.mp hu
    obtain ⟨hanc, hbest⟩ := Finset.mem_inter.mp hu
    rw [hall] at hbest
    rcases Finset.mem_union.mp hbest with hplaced | htodo
    · exact hplaced
    · exact absurd (hfirst u hanc htodo) hui
  obtain ⟨i, heq⟩ := Option.isSome_iff_exists.mp hsome
  have hfound := List.find?_some heq
  rw [Bool.and_eq_true, decide_eq_true_eq, decide_eq_true_eq] at hfound
  refine ⟨i, heq, hfound.1, fun u hu hbest hui => ?_⟩
  exact hfound.2 (Finset.mem_erase.mpr ⟨hui, Finset.mem_inter.mpr ⟨hu, hbest⟩⟩)

/-- The order of what is placed so far grows into one of the whole set. -/
theorem emit_spec (hord : Ordered cl.ancestors) {best : Finset (Fin cl.n)} {k : Nat}
    {placed todo : Finset (Fin cl.n)} (lin : List (Fin cl.n)) {order : List (Fin cl.n)}
    (hall : best = placed ∪ todo)
    (hdisj : Disjoint placed todo) (hk : todo.card ≤ k) (hnodup : order.Nodup)
    (hset : order.toFinset = placed) (hafter : After cl.ancestors best [] order) :
    ∃ order', emit cl best k placed todo (lin ++ order) = some (lin ++ order') ∧
      Topological cl.ancestors best order' := by
  induction k generalizing placed todo order with
  | zero =>
      have hnil : todo = ∅ := Finset.card_eq_zero.mp (Nat.le_zero.mp hk)
      subst hnil
      rw [Finset.union_empty] at hall
      exact ⟨order, if_pos rfl, hnodup, hset.trans hall.symm, hafter⟩
  | succ k ih =>
      unfold emit
      by_cases hnil : todo = ∅
      · subst hnil
        rw [Finset.union_empty] at hall
        exact ⟨order, if_pos rfl, hnodup, hset.trans hall.symm, hafter⟩
      · obtain ⟨i, heq, hi, hready⟩ :=
          nextPlaced_spec hord hall (Finset.nonempty_iff_ne_empty.mpr hnil)
        have hiplaced : i ∉ placed := Finset.disjoint_right.mp hdisj hi
        rw [if_neg hnil, heq]
        simp only
        rw [List.append_assoc]
        refine ih ?_ ?_ ?_ ?_ ?_ (hafter.append ?_)
        · rw [hall, Finset.insert_union, ← Finset.union_insert, Finset.insert_erase hi]
        · refine Finset.disjoint_insert_left.mpr ⟨Finset.notMem_erase i todo, ?_⟩
          exact hdisj.mono_right (Finset.erase_subset i todo)
        · rw [Finset.card_erase_of_mem hi]
          omega
        · refine List.nodup_append.mpr ⟨hnodup, List.nodup_singleton i, fun x hx y hy => ?_⟩
          rintro rfl
          rw [List.mem_singleton.mp hy, ← List.mem_toFinset, hset] at hx
          exact hiplaced hx
        · rw [List.toFinset_append, hset, List.toFinset_cons, List.toFinset_nil]
          ext u
          simp
        · intro pre j post hsplit u hu hbest huj
          have hone : pre = [] ∧ j = i ∧ post = [] := by
            simpa [List.singleton_eq_append_iff] using hsplit
          obtain ⟨rfl, rfl, rfl⟩ := hone
          refine .inl (List.mem_append_right _ (List.mem_toFinset.mp ?_))
          rw [hset]
          exact hready u hu hbest huj

/-! ## The whole order -/

/-- A round of the loop: the ratio is settled within its rounds and the best set is placed. -/
theorem linearizeLoop_succ (h : Small cl) (hn : cl.n ≤ 64) (hw : ∀ i, 0 < cl.weight i)
    (hord : Ordered cl.ancestors) (hne : rem.Nonempty) :
    ∃ first best rounds, bestAncestorSet cl rem = some first ∧ first.set ≠ ∅ ∧
      rounds < 4 * mpcMaxCluster ∧ dinkelbach cl rem rounds first = some best ∧
      dinkelbach cl rem (4 * mpcMaxCluster) first = some best ∧ best.Final rem ∧
      BestRatio cl.ancestors rem cl.fee cl.weight best.set ∧
      ∀ k lin, ∃ order, Topological cl.ancestors best.set order ∧
        linearizeLoop cl (k + 1) rem lin =
          linearizeLoop cl k (rem \ best.set) (lin ++ order) := by
  obtain ⟨first, hfirst, hsound, hfirstne⟩ := bestAncestorSet_spec h hord hne
  have hrounds : cl.n + 1 < 4 * mpcMaxCluster := by
    unfold mpcMaxCluster
    omega
  obtain ⟨k, best, hk, hshort, hbest, hfinal, hratio⟩ :=
    dinkelbach_spec h hw hsound hfirstne (.inl hrounds)
  have hcard : best.set.card ≤ cl.n := by simpa using Finset.card_le_univ best.set
  have hstart : After cl.ancestors best.set [] [] := fun pre v post heq => by simp at heq
  refine ⟨first, best, k, hfirst, hfirstne.ne_empty, hk, hshort, hbest, hfinal, hratio,
    fun k lin => ?_⟩
  obtain ⟨order, hemit, horder⟩ := emit_spec hord lin (Finset.empty_union best.set).symm
    (Finset.disjoint_empty_left _) hcard List.nodup_nil rfl hstart
  rw [List.append_nil] at hemit
  refine ⟨order, horder, ?_⟩
  rw [linearizeLoop, if_neg hne.ne_empty, hfirst]
  simp only [Option.bind_eq_bind, Option.bind_some]
  rw [if_neg hfirstne.ne_empty, hbest]
  simp only [Option.bind_some]
  rw [hemit]
  rfl

theorem linearizeLoop_spec (h : Small cl) (hn : cl.n ≤ 64) (hw : ∀ i, 0 < cl.weight i)
    (hord : Ordered cl.ancestors) {k : Nat} {rem : Finset (Fin cl.n)} (hk : rem.card ≤ k)
    (lin : List (Fin cl.n)) :
    ∃ orders : List (List (Fin cl.n)),
      linearizeLoop cl k rem lin = some (lin ++ orders.flatten) ∧
        Peeled cl.ancestors cl.fee cl.weight rem (orders.map List.toFinset) ∧
          Topological cl.ancestors rem orders.flatten := by
  have hdone : ∀ {lin : List (Fin cl.n)}, ∃ orders : List (List (Fin cl.n)),
      some lin = some (lin ++ orders.flatten) ∧
        Peeled cl.ancestors cl.fee cl.weight ∅ (orders.map List.toFinset) ∧
          Topological cl.ancestors ∅ orders.flatten := fun {lin} =>
    ⟨[], by simp, Peeled.nil, List.nodup_nil, rfl, fun pre v post heq => by simp at heq⟩
  induction k generalizing rem lin with
  | zero =>
      have hnil : rem = ∅ := Finset.card_eq_zero.mp (Nat.le_zero.mp hk)
      subst hnil
      exact hdone
  | succ k ih =>
      by_cases hnil : rem = ∅
      · subst hnil
        unfold linearizeLoop
        rw [if_pos rfl]
        exact hdone
      · have hne := Finset.nonempty_iff_ne_empty.mpr hnil
        obtain ⟨-, best, -, -, -, -, -, -, -, hratio, hround⟩ := linearizeLoop_succ h hn hw hord hne
        obtain ⟨order, horder, heq⟩ := hround k lin
        have hless : (rem \ best.set).card ≤ k := by
          have := Finset.card_lt_card (Finset.sdiff_ssubset hratio.closed.1 hratio.nonempty)
          omega
        obtain ⟨orders, hloop, hpeel, htop⟩ := ih hless (lin ++ order)
        refine ⟨order :: orders, ?_, ?_, ?_⟩
        · rw [heq, hloop, List.flatten_cons, List.append_assoc]
        · rw [List.map_cons, horder.toFinset]
          exact Peeled.cons hratio hpeel
        · rw [List.flatten_cons]
          exact horder.append hratio.closed htop

theorem ordered_of_parents {parent : Fin cl.n → Fin cl.n → Prop}
    (hacyclic : ∀ i, ¬ Relation.TransGen parent i i)
    (hclosure : ∀ i j, j ∈ cl.ancestors i ↔ Relation.ReflTransGen parent i j) :
    Ordered cl.ancestors := by
  refine ⟨fun v => (hclosure v v).mpr .refl, fun hu hw => ?_, fun {v u} hu hv => ?_⟩
  · exact (hclosure _ _).mpr (((hclosure _ _).mp hu).trans ((hclosure _ _).mp hw))
  · have hup := (hclosure _ _).mp hu
    have hback := (hclosure _ _).mp hv
    rcases Relation.reflTransGen_iff_eq_or_transGen.mp hup with heq | hpath
    · exact heq
    · exact absurd (hpath.trans_left hback) (hacyclic v)

theorem length_of_topological {lin : List (Fin cl.n)}
    (h : Topological cl.ancestors Finset.univ lin) : lin.length = cl.n := by
  have := List.toFinset_card_of_nodup h.nodup
  rw [h.toFinset, Finset.card_univ, Fintype.card_fin] at this
  exact this.symm

/-- Whatever remains, the rounds of the ratio stop because the cut finds nothing above it and
not because they are used up, and the loop goes on with the closed set of the highest
feerate placed. -/
theorem linearizeLoop_best_ratio (cl : Cluster) (hn : cl.n ≤ 64)
    (parent : Fin cl.n → Fin cl.n → Prop) (hacyclic : ∀ i, ¬ Relation.TransGen parent i i)
    (hclosure : ∀ i j, j ∈ cl.ancestors i ↔ Relation.ReflTransGen parent i j)
    (hw : ∀ i, 0 < cl.weight i) (hsmall : Small cl) (rem : Finset (Fin cl.n))
    (hrem : rem.Nonempty) :
    ∃ first best rounds s val, bestAncestorSet cl rem = some first ∧ first.set ≠ ∅ ∧
      rounds < 4 * mpcMaxCluster ∧ dinkelbach cl rem rounds first = some best ∧
      mpcMaxClosure cl rem (excessAt cl rem best) = some (s, val) ∧ val ≤ 0 ∧
      dinkelbach cl rem (4 * mpcMaxCluster) first = some best ∧
      Closed cl.ancestors rem best.set ∧ best.set.Nonempty ∧
      (∀ T, Closed cl.ancestors rem T → T.Nonempty →
        (∑ i ∈ T, cl.fee i) * (∑ i ∈ best.set, cl.weight i) ≤
          (∑ i ∈ best.set, cl.fee i) * (∑ i ∈ T, cl.weight i)) ∧
      ∀ k lin, ∃ order, order.toFinset = best.set ∧
        linearizeLoop cl (k + 1) rem lin =
          linearizeLoop cl k (rem \ best.set) (lin ++ order) := by
  obtain ⟨first, best, rounds, hfirst, hne, hlt, hshort, hfull, ⟨s, val, hcut, hval⟩, hratio,
    hround⟩ := linearizeLoop_succ hsmall hn hw (ordered_of_parents hacyclic hclosure) hrem
  refine ⟨first, best, rounds, s, val, hfirst, hne, hlt, hshort, hcut, hval, hfull, hratio.closed,
    hratio.nonempty, fun T hT _ => hratio.best T hT, fun k lin => ?_⟩
  obtain ⟨order, horder, heq⟩ := hround k lin
  exact ⟨order, horder.toFinset, heq⟩

/-- The fee diagram of chunks: the fee at each weight. -/
def feeDiagram {n : Nat} (chunks : List (Chunk n)) (x : ℚ) : ℚ :=
  height (chunks.map Chunk.segment) x

/-- The order of `mpc_linearize_optimal` has all members, each after its ancestors, and no
other such order has a diagram that is higher anywhere. -/
theorem mpcLinearizeOptimal_optimal (cl : Cluster) (hn : 1 ≤ cl.n ∧ cl.n ≤ 64)
    (parent : Fin cl.n → Fin cl.n → Prop) (hacyclic : ∀ i, ¬ Relation.TransGen parent i i)
    (hclosure : ∀ i j, j ∈ cl.ancestors i ↔ Relation.ReflTransGen parent i j)
    (hw : ∀ i, 0 < cl.weight i) (hsmall : Small cl) :
    ∃ lin chunks, mpcLinearizeOptimal cl = some lin ∧ lin.Perm (List.finRange cl.n) ∧
      (∀ pre i post, lin = pre ++ i :: post → ∀ j ∈ cl.ancestors i, j ≠ i → j ∈ pre) ∧
      mpcChunkLinearization cl lin = some chunks ∧
      ∀ lin' : List (Fin cl.n), mpcIsTopological cl lin' = true →
        ∃ chunks', mpcChunkLinearization cl lin' = some chunks' ∧
          ∀ x, 0 ≤ x → feeDiagram chunks' x ≤ feeDiagram chunks x := by
  have hord := ordered_of_parents hacyclic hclosure
  have hall : (Finset.univ : Finset (Fin cl.n)).card ≤ cl.n := by simp
  obtain ⟨orders, hloop, hpeel, htop⟩ :=
    linearizeLoop_spec hsmall hn.2 hw hord hall []
  rw [List.nil_append] at hloop
  have hlen := length_of_topological htop
  obtain ⟨chunks, hchunks, hseg⟩ := mpcChunkLinearization_spec hsmall hw htop.nodup hlen
  refine ⟨orders.flatten, chunks, ?_, ?_, ?_, hchunks, fun lin' hlin' => ?_⟩
  · unfold mpcLinearizeOptimal mpcMaxCluster
    rw [if_neg (by omega), hloop]
    simp only [Option.bind_eq_bind, Option.bind_some]
    exact if_pos hlen
  · refine (List.perm_ext_iff_of_nodup htop.nodup (List.nodup_finRange _)).mpr fun i => ?_
    rw [← List.mem_toFinset, htop.toFinset]
    simp
  · intro pre i post heq j hj hne
    exact (htop.after pre i post heq j hj (Finset.mem_univ j) hne).resolve_left List.not_mem_nil
  · have htop' := mpcIsTopological_iff.mp hlin'
    obtain ⟨chunks', hchunks', hseg'⟩ :=
      mpcChunkLinearization_spec hsmall hw htop'.nodup (length_of_topological htop')
    refine ⟨chunks', hchunks', fun x hx => ?_⟩
    unfold feeDiagram
    rw [hseg, hseg']
    exact height_joined_le (fun v _ => hw v) htop (isPeak_of_peeled (fun v _ => hw v) hpeel htop)
      htop' hx

def sampleParent (i j : Fin 3) : Prop := i = 1 ∧ j = 0

def sampleAncestors (i : Fin 3) : Finset (Fin 3) := if i = 1 then {0, 1} else {i}

/-- A parent, its child and a third on its own. -/
def sampleCluster : Cluster where
  n := 3
  ancestors := sampleAncestors
  fee i := if i = 0 then 1 else if i = 1 then 10 else 3
  weight i := if i = 2 then 1 else 2

theorem sampleParent_path {i j : Fin 3} (h : Relation.TransGen sampleParent i j) :
    i = 1 ∧ j = 0 := by
  induction h with
  | single h => exact h
  | tail _ h ih => exact ⟨ih.1, h.2⟩

theorem mem_sampleAncestors_iff (i j : Fin 3) :
    j ∈ sampleAncestors i ↔ Relation.ReflTransGen sampleParent i j := by
  rw [Relation.reflTransGen_iff_eq_or_transGen]
  have hmem : j ∈ sampleAncestors i ↔ j = i ∨ (i = 1 ∧ j = 0) := by
    revert i j
    decide
  rw [hmem]
  exact or_congr_right ⟨fun h => .single h, sampleParent_path⟩

theorem sampleParent_acyclic (i : Fin 3) : ¬ Relation.TransGen sampleParent i i := by
  intro hi
  obtain ⟨h1, h0⟩ := sampleParent_path hi
  rw [h1] at h0
  exact absurd h0 (by decide)

theorem linearizeLoop_best_ratio_sample :
    ∃ first best rounds s val,
      bestAncestorSet sampleCluster Finset.univ = some first ∧ first.set ≠ ∅ ∧
      rounds < 4 * mpcMaxCluster ∧
      dinkelbach sampleCluster Finset.univ rounds first = some best ∧
      mpcMaxClosure sampleCluster Finset.univ (excessAt sampleCluster Finset.univ best) =
        some (s, val) ∧ val ≤ 0 ∧
      dinkelbach sampleCluster Finset.univ (4 * mpcMaxCluster) first = some best ∧
      Closed sampleCluster.ancestors Finset.univ best.set ∧ best.set.Nonempty ∧
      (∀ T, Closed sampleCluster.ancestors Finset.univ T → T.Nonempty →
        (∑ i ∈ T, sampleCluster.fee i) * (∑ i ∈ best.set, sampleCluster.weight i) ≤
          (∑ i ∈ best.set, sampleCluster.fee i) * (∑ i ∈ T, sampleCluster.weight i)) ∧
      ∀ k lin, ∃ order, order.toFinset = best.set ∧
        linearizeLoop sampleCluster (k + 1) Finset.univ lin =
          linearizeLoop sampleCluster k (Finset.univ \ best.set) (lin ++ order) :=
  linearizeLoop_best_ratio sampleCluster (by decide) sampleParent sampleParent_acyclic
    mem_sampleAncestors_iff (by decide) ⟨by decide, by decide, by decide⟩ Finset.univ (by decide)

theorem mpcLinearizeOptimal_optimal_sample :
    ∃ lin chunks, mpcLinearizeOptimal sampleCluster = some lin ∧
      lin.Perm (List.finRange 3) ∧
      (∀ pre i post, lin = pre ++ i :: post →
        ∀ j ∈ sampleCluster.ancestors i, j ≠ i → j ∈ pre) ∧
      mpcChunkLinearization sampleCluster lin = some chunks ∧
      ∀ lin' : List (Fin 3), mpcIsTopological sampleCluster lin' = true →
        ∃ chunks', mpcChunkLinearization sampleCluster lin' = some chunks' ∧
          ∀ x, 0 ≤ x → feeDiagram chunks' x ≤ feeDiagram chunks x :=
  mpcLinearizeOptimal_optimal sampleCluster (by decide) sampleParent sampleParent_acyclic
    mem_sampleAncestors_iff (by decide) ⟨by decide, by decide, by decide⟩

end BitcoinMachineCode.Mempool
