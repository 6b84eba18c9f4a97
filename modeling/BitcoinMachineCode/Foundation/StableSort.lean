import BitcoinMachineCode.Foundation.BackInsertion
import BitcoinMachineCode.Foundation.CountingSort

/-!
# Stable sorting

A list is the stable sort of another when it is in order and the items of every value stand in it as
they stood before.  There is one such list, the one that a stable merge sort gives.  The buckets of a
digit, each sorted and one behind the other, are sorted when the digits above are the same.
-/

namespace BitcoinMachineCode.Foundation

variable {α : Type*} (val : α → Nat)

structure StableSorted (xs ys : List α) : Prop where
  sorted : ys.Pairwise fun a b => val a ≤ val b
  stable : ∀ k, ys.filter (fun x => val x = k) = xs.filter fun x => val x = k

variable {val}

namespace StableSorted

theorem mem_iff {xs ys : List α} (h : StableSorted val xs ys) {a : α} : a ∈ ys ↔ a ∈ xs := by
  have hfilter : a ∈ ys.filter (fun x => val x = val a) ↔ a ∈ xs.filter fun x => val x = val a := by
    rw [h.stable]
  simpa using hfilter

theorem of_const {xs : List α} (h : ∀ x ∈ xs, ∀ y ∈ xs, val x = val y) : StableSorted val xs xs where
  sorted := List.pairwise_of_forall_mem_list fun x hx y hy => (h x hx y hy).le
  stable := fun _ => rfl

theorem append {xs xs' ys ys' : List α} (h : StableSorted val xs ys) (h' : StableSorted val xs' ys')
    (hle : ∀ x ∈ xs, ∀ y ∈ xs', val x ≤ val y) : StableSorted val (xs ++ xs') (ys ++ ys') where
  sorted := List.pairwise_append.mpr
    ⟨h.sorted, h'.sorted, fun x hx y hy => hle x (h.mem_iff.mp hx) y (h'.mem_iff.mp hy)⟩
  stable := fun k => by rw [List.filter_append, List.filter_append, h.stable, h'.stable]

theorem map {β : Type*} {f : β → α} {xs ys : List β} (h : StableSorted (fun b => val (f b)) xs ys) :
    StableSorted val (xs.map f) (ys.map f) where
  sorted := List.pairwise_map.mpr h.sorted
  stable := fun k => by
    simp only [List.filter_map]
    exact congrArg (List.map f) (h.stable k)

theorem congr {val' : α → Nat} {xs ys : List α} (h : StableSorted val xs ys) (heq : ∀ x ∈ xs, val' x = val x) :
    StableSorted val' xs ys where
  sorted := by
    refine h.sorted.imp_of_mem ?_
    intro x y hx hy hle
    rwa [heq x (h.mem_iff.mp hx), heq y (h.mem_iff.mp hy)]
  stable := fun k => by
    have hxs : xs.filter (fun x => val' x = k) = xs.filter fun x => val x = k :=
      List.filter_congr fun x hx => by rw [heq x hx]
    have hys : ys.filter (fun x => val' x = k) = ys.filter fun x => val x = k :=
      List.filter_congr fun x hx => by rw [heq x (h.mem_iff.mp hx)]
    rw [hxs, hys, h.stable]

theorem unique {xs ys zs : List α} (hy : StableSorted val xs ys) (hz : StableSorted val xs zs) : ys = zs := by
  have hsame : ∀ k, ys.filter (fun x => val x = k) = zs.filter fun x => val x = k :=
    fun k => (hy.stable k).trans (hz.stable k).symm
  have hsy := hy.sorted
  have hsz := hz.sorted
  clear hy hz
  induction ys generalizing zs with
  | nil =>
      cases zs with
      | nil => rfl
      | cons z zs => simpa using hsame (val z)
  | cons y ys ih =>
      cases zs with
      | nil => simpa using hsame (val y)
      | cons z zs =>
          obtain ⟨hmin, hys⟩ := List.pairwise_cons.mp hsy
          obtain ⟨hmin', hzs⟩ := List.pairwise_cons.mp hsz
          -- each head is among the items of the other list, so their values agree
          have hyz : val y ≤ val z := by
            have hz : z ∈ (y :: ys).filter fun x => val x = val z := by simp [hsame]
            rcases List.mem_cons.mp (List.mem_of_mem_filter hz) with rfl | hz
            · exact le_rfl
            · exact hmin z hz
          have hzy : val z ≤ val y := by
            have hy : y ∈ (z :: zs).filter fun x => val x = val y := by simp [← hsame]
            rcases List.mem_cons.mp (List.mem_of_mem_filter hy) with rfl | hy
            · exact le_rfl
            · exact hmin' y hy
          have hval := le_antisymm hyz hzy
          have hhead := hsame (val y)
          simp only [List.filter_cons, hval, decide_true, if_true, List.cons.injEq] at hhead
          obtain ⟨rfl, -⟩ := hhead
          have htail : ∀ k, ys.filter (fun x => val x = k) = zs.filter fun x => val x = k := by
            intro k
            have hk := hsame k
            simp only [List.filter_cons] at hk
            split at hk
            · exact (List.cons.inj hk).2
            · exact hk
          rw [ih htail hys hzs]

/-- What a stable merge sort gives. -/
theorem mergeSort (xs : List α) : StableSorted val xs (xs.mergeSort fun a b => decide (val a ≤ val b)) := by
  have htrans : ∀ a b c : α, decide (val a ≤ val b) = true → decide (val b ≤ val c) = true →
      decide (val a ≤ val c) = true := by
    simp only [decide_eq_true_eq]
    omega
  have htotal : ∀ a b : α, (decide (val a ≤ val b) || decide (val b ≤ val a)) = true := by
    simp only [Bool.or_eq_true, decide_eq_true_eq]
    omega
  constructor
  · simpa using List.pairwise_mergeSort htrans htotal xs
  · intro k
    have hconst : (xs.filter fun x => val x = k).Pairwise fun a b => decide (val a ≤ val b) = true := by
      apply List.pairwise_of_forall_mem_list
      intro x hx y hy
      have hx' : val x = k := by simpa using (List.mem_filter.mp hx).2
      have hy' : val y = k := by simpa using (List.mem_filter.mp hy).2
      simp [hx', hy']
    have hsub := List.sublist_mergeSort htrans htotal hconst List.filter_sublist
    have hsub' := hsub.filter fun x => decide (val x = k)
    rw [List.filter_filter] at hsub'
    simp only [Bool.and_self] at hsub'
    apply (hsub'.eq_of_length _).symm
    rw [← List.countP_eq_length_filter, ← List.countP_eq_length_filter]
    exact ((List.mergeSort_perm xs _).countP_eq _).symm

theorem eq_mergeSort {xs ys : List α} (h : StableSorted val xs ys) :
    ys = xs.mergeSort fun a b => decide (val a ≤ val b) :=
  h.unique (mergeSort xs)

/-- Insertion from the end is stable. -/
theorem sortBack {lt : α → α → Bool} (hlt : ∀ x y, lt x y = decide (val x < val y)) (xs : List α) :
    StableSorted val xs (sortBack lt xs) := by
  constructor
  · have hsorted := @pairwise_sortBack _ lt (by simp [hlt]; omega) (by simp [hlt]; omega) xs
    simpa [hlt] using hsorted
  · intro k
    apply filter_sortBack
    intro x y hx hy
    simp only [decide_eq_true_eq] at hx hy
    simp [hlt, hx, hy]

/-! ## Buckets -/

theorem filter_buckets {key : α → Nat} {q : α → Bool} {xs : List α} {d : Nat}
    (h : ∀ x ∈ xs, q x = true → key x = d) (m : Nat) :
    (buckets key m xs).filter q = if d < m then xs.filter q else [] := by
  induction m with
  | zero => rfl
  | succ m ih =>
      have hsucc : buckets key (m + 1) xs = buckets key m xs ++ bucket key xs m := by
        simp [buckets, List.range_succ]
      have hlast : (bucket key xs m).filter q = if d = m then xs.filter q else [] := by
        rw [bucket, List.filter_filter]
        split_ifs with heq
        · apply List.filter_congr
          intro x hx
          cases hq : q x with
          | false => simp
          | true => simp [h x hx hq, heq]
        · apply List.filter_eq_nil_iff.mpr
          intro x hx hboth
          simp only [Bool.and_eq_true, decide_eq_true_eq] at hboth
          exact heq ((h x hx hboth.1).symm.trans hboth.2)
      rw [hsucc, List.filter_append, ih, hlast]
      by_cases hlt : d < m
      · simp [hlt, hlt.ne, Nat.lt_succ_of_lt hlt]
      · by_cases heq : d = m
        · simp [heq]
        · have : ¬ d < m + 1 := by omega
          simp [hlt, heq, this]

/-- The buckets of a key that the value decides hold the items of every value in their order. -/
theorem of_buckets {key : α → Nat} {xs ys : List α} {m : Nat} (h : StableSorted val (buckets key m xs) ys)
    (hkey : ∀ x ∈ xs, ∀ y ∈ xs, val x = val y → key x = key y) (hlt : ∀ x ∈ xs, key x < m) :
    StableSorted val xs ys where
  sorted := h.sorted
  stable := fun k => by
    rw [h.stable]
    by_cases hk : ∃ x ∈ xs, val x = k
    · obtain ⟨x, hx, rfl⟩ := hk
      rw [filter_buckets (d := key x), if_pos (hlt x hx)]
      intro y hy hval
      exact hkey y hy x hx (by simpa using hval)
    · have hnone : ∀ y ∈ xs, ¬ val y = k := fun y hy hval => hk ⟨y, hy, hval⟩
      rw [filter_buckets (d := m), if_neg (lt_irrefl m)]
      · symm
        simpa using hnone
      · intro y hy hval
        exact absurd (by simpa using hval) (hnone y hy)

end StableSorted

/-! ## The most significant digit first -/

section TopDigits

variable (val) (total : Nat)

/-- `w` bits of a value of so many bits in all, behind the first `off`. -/
def topDigit (off w : Nat) (x : α) : Nat := val x / 2 ^ (total - off - w) % 2 ^ w

/-- The first `off` bits are the same everywhere. -/
def SharedTop (off : Nat) (xs : List α) : Prop :=
  ∀ x ∈ xs, ∀ y ∈ xs, val x / 2 ^ (total - off) = val y / 2 ^ (total - off)

variable {val total} {off w : Nat} {xs : List α}

theorem topDigit_lt (x : α) : topDigit val total off w x < 2 ^ w := Nat.mod_lt _ (Nat.two_pow_pos w)

theorem div_topDigit (hw : off + w ≤ total) (x : α) :
    val x / 2 ^ (total - off - w) = 2 ^ w * (val x / 2 ^ (total - off)) + topDigit val total off w x := by
  have hpow : 2 ^ (total - off) = 2 ^ (total - off - w) * 2 ^ w := by
    rw [← Nat.pow_add]
    congr 1
    omega
  rw [hpow, ← Nat.div_div_eq_div_mul, topDigit, Nat.div_add_mod]

theorem SharedTop.lt_of_topDigit_lt (h : SharedTop val total off xs) (hw : off + w ≤ total) {x y : α}
    (hx : x ∈ xs) (hy : y ∈ xs) (hlt : topDigit val total off w x < topDigit val total off w y) :
    val x < val y := by
  apply Nat.lt_of_div_lt_div (c := 2 ^ (total - off - w))
  rw [div_topDigit hw, div_topDigit hw, h x hx y hy]
  omega

theorem SharedTop.of_topDigit (h : SharedTop val total off xs) (hw : off + w ≤ total)
    (heq : ∀ x ∈ xs, ∀ y ∈ xs, topDigit val total off w x = topDigit val total off w y) :
    SharedTop val total (off + w) xs := by
  intro x hx y hy
  rw [← Nat.sub_sub, div_topDigit hw, div_topDigit hw, h x hx y hy, heq x hx y hy]

theorem SharedTop.bucket (h : SharedTop val total off xs) (hw : off + w ≤ total) (d : Nat) :
    SharedTop val total (off + w) (bucket (topDigit val total off w) xs d) := by
  have hsub : ∀ x ∈ Foundation.bucket (topDigit val total off w) xs d,
      x ∈ xs ∧ topDigit val total off w x = d := by
    intro x hx
    simpa [Foundation.bucket] using hx
  apply SharedTop.of_topDigit (fun x hx y hy => h x (hsub x hx).1 y (hsub y hy).1) hw
  intro x hx y hy
  rw [(hsub x hx).2, (hsub y hy).2]

/-- Nothing is left to compare. -/
theorem SharedTop.stableSorted (h : SharedTop val total off xs) (hoff : total ≤ off) : StableSorted val xs xs := by
  apply StableSorted.of_const
  intro x hx y hy
  have := h x hx y hy
  rwa [Nat.sub_eq_zero_of_le hoff, Nat.pow_zero, Nat.div_one, Nat.div_one] at this

end TopDigits

end BitcoinMachineCode.Foundation
