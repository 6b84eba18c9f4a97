import Mathlib.Algebra.BigOperators.Group.Finset.Basic
import Mathlib.Data.List.Pairwise
import Mathlib.Logic.Function.Basic
import Mathlib.Tactic.Linarith
import Mathlib.Tactic.Ring

/-!
# Counting sort

One pass of a radix sort as loops write it: the histogram of the keys, the running total
that turns it into the first place of each bucket, and the scatter that puts every item at
the next place of its bucket.  The pass leaves the buckets one behind the other, each in the
order the items had, so passes from the lowest digit up sort by the whole number.
-/

namespace BitcoinMachineCode.Foundation

variable {α : Type*} (key : α → Nat)

def histogram (src : Nat → α) (n : Nat) : Nat → Nat :=
  (List.range n).foldl (fun cnt i => Function.update cnt (key (src i)) (cnt (key (src i)) + 1)) fun _ => 0

def starts (m : Nat) (cnt : Nat → Nat) : Nat → Nat :=
  ((List.range m).foldl (fun s b => (Function.update s.1 b s.2, s.2 + s.1 b)) (cnt, 0)).1

/-- The loop of the scatter: the places filled and the next place of each bucket. -/
def scatterFrom (src : Nat → α) (n : Nat) (s : (Nat → α) × (Nat → Nat)) : (Nat → α) × (Nat → Nat) :=
  (List.range n).foldl
    (fun s i => (Function.update s.1 (s.2 (key (src i))) (src i),
      Function.update s.2 (key (src i)) (s.2 (key (src i)) + 1))) s

def countingPass (m : Nat) (src dst : Nat → α) (n : Nat) : Nat → α :=
  (scatterFrom key src n (dst, starts m (histogram key src n))).1

def items (src : Nat → α) (n : Nat) : List α := (List.range n).map src

def bucket (xs : List α) (b : Nat) : List α := xs.filter fun x => key x = b

def buckets (m : Nat) (xs : List α) : List α := (List.range m).flatMap (bucket key xs)

/-- The first place of a bucket. -/
def below (xs : List α) (b : Nat) : Nat := xs.countP fun x => key x < b

variable {key}

@[simp] theorem length_items (src : Nat → α) (n : Nat) : (items src n).length = n := by
  simp [items]

theorem items_succ (src : Nat → α) (n : Nat) : items src (n + 1) = items src n ++ [src n] := by
  simp [items, List.range_succ]

theorem items_initial (src : Nat → α) {i n : Nat} (h : i ≤ n) : items src i <+: items src n := by
  induction n, h using Nat.le_induction with
  | base => exact List.prefix_rfl
  | succ n hn ih =>
      rw [items_succ]
      exact ih.trans (List.prefix_append ..)

theorem bucket_snoc (xs : List α) (x : α) (b : Nat) :
    bucket key (xs ++ [x]) b = if key x = b then bucket key xs b ++ [x] else bucket key xs b := by
  by_cases h : key x = b <;> simp [bucket, h]

theorem histogram_eq (src : Nat → α) (n b : Nat) : histogram key src n b = (bucket key (items src n) b).length := by
  induction n generalizing b with
  | zero => rfl
  | succ n ih =>
      have hstep : histogram key src (n + 1) = Function.update (histogram key src n) (key (src n))
          (histogram key src n (key (src n)) + 1) := by
        simp [histogram, List.range_succ]
      rw [hstep, items_succ, bucket_snoc]
      by_cases h : key (src n) = b
      · subst h
        simp [ih]
      · simp [h, Ne.symm h, ih]

theorem below_succ (xs : List α) (b : Nat) : below key xs (b + 1) = below key xs b + (bucket key xs b).length := by
  induction xs with
  | nil => rfl
  | cons x xs ih =>
      simp only [below, bucket, List.countP_cons, List.filter_cons] at *
      rw [ih]
      rcases lt_trichotomy (key x) b with h | h | h
      · simp [h, h.ne, Nat.lt_succ_of_lt h]
        omega
      · simp [h]
        omega
      · simp [h.ne', Nat.not_lt.mpr h.le, Nat.not_lt.mpr (Nat.succ_le_of_lt h)]

variable (key) in
theorem below_mono (xs : List α) {b c : Nat} (h : b < c) :
    below key xs b + (bucket key xs b).length ≤ below key xs c := by
  induction c, h using Nat.le_induction with
  | base => rw [below_succ]
  | succ c hc ih =>
      rw [below_succ]
      omega

theorem below_all {xs : List α} {m : Nat} (h : ∀ x ∈ xs, key x < m) : below key xs m = xs.length := by
  rw [below, List.countP_eq_length]
  simpa using h

theorem starts_fold (xs : List α) (k : Nat) :
    (List.range k).foldl (fun s b => (Function.update s.1 b s.2, s.2 + s.1 b))
        ((fun b => (bucket key xs b).length), 0) =
      ((fun b => if b < k then below key xs b else (bucket key xs b).length), below key xs k) := by
  induction k with
  | zero => simp [below]
  | succ k ih =>
      rw [List.range_succ, List.foldl_append, ih, List.foldl_cons, List.foldl_nil]
      refine Prod.ext ?_ ?_
      · funext b
        by_cases h : b = k
        · subst h
          simp
        · have hlt : b < k + 1 ↔ b < k := by omega
          simp [h, hlt]
      · simp [below_succ]

theorem starts_histogram (src : Nat → α) (n : Nat) {m b : Nat} (hb : b < m) :
    starts m (histogram key src n) b = below key (items src n) b := by
  have hhist : histogram key src n = fun b => (bucket key (items src n) b).length := by
    funext b
    exact histogram_eq src n b
  rw [starts, hhist, starts_fold]
  simp [hb]

/-- After `i` items every bucket has its items at their places and its next place behind them. -/
structure Scattered (key : α → Nat) (xs : List α) (m : Nat) (ps : List α) (s : (Nat → α) × (Nat → Nat)) : Prop where
  placed : ∀ b < m, ∀ j x, (bucket key ps b)[j]? = some x → s.1 (below key xs b + j) = x
  next : ∀ b < m, s.2 b = below key xs b + (bucket key ps b).length

variable (key) in
theorem bucket_length_le {ps xs : List α} (h : ps <+: xs) (b : Nat) :
    (bucket key ps b).length ≤ (bucket key xs b).length := by
  obtain ⟨rest, rfl⟩ := h
  simp [bucket]

theorem Scattered.snoc {xs ps : List α} {m : Nat} {s : (Nat → α) × (Nat → Nat)} (h : Scattered key xs m ps s)
    {x : α} (hps : ps ++ [x] <+: xs) (hx : key x < m) :
    Scattered key xs m (ps ++ [x])
      (Function.update s.1 (s.2 (key x)) x, Function.update s.2 (key x) (s.2 (key x) + 1)) := by
  have hplace := h.next _ hx
  have hroom := bucket_length_le key hps (key x)
  rw [bucket_snoc, if_pos rfl, List.length_append, List.length_singleton] at hroom
  constructor
  · intro b hb j y hy
    have hold : ∀ y, (bucket key ps b)[j]? = some y → below key xs b + j ≠ s.2 (key x) := by
      intro y hy
      obtain ⟨hj, -⟩ := List.getElem?_eq_some_iff.mp hy
      have hle := bucket_length_le key ((List.prefix_append ps [x]).trans hps) b
      rcases lt_trichotomy b (key x) with hlt | heq | hlt
      · have := below_mono key xs hlt
        omega
      · subst heq
        omega
      · have := below_mono key xs hlt
        omega
    rw [bucket_snoc] at hy
    split at hy
    case isTrue heq =>
      subst heq
      by_cases hj : j < (bucket key ps (key x)).length
      · rw [List.getElem?_append_left hj] at hy
        simp only
        rw [Function.update_of_ne (hold y hy)]
        exact h.placed _ hb j y hy
      · obtain ⟨hj', -⟩ := List.getElem?_eq_some_iff.mp hy
        have hlast : j = (bucket key ps (key x)).length := by
          simp at hj'
          omega
        subst hlast
        simp only [List.getElem?_append_right, le_refl, Nat.sub_self] at hy
        simp only
        rw [← hplace, Function.update_self]
        simpa using hy
    case isFalse =>
      simp only
      rw [Function.update_of_ne (hold y hy)]
      exact h.placed b hb j y hy
  · intro b hb
    rw [bucket_snoc]
    by_cases heq : key x = b
    · subst heq
      simp [hplace, Nat.add_assoc]
    · simp [heq, Ne.symm heq, h.next b hb]

theorem scattered_scatterFrom {src : Nat → α} {n m : Nat} (hkeys : ∀ x ∈ items src n, key x < m)
    {s : (Nat → α) × (Nat → Nat)} (hs : ∀ b < m, s.2 b = below key (items src n) b) {i : Nat} (hi : i ≤ n) :
    Scattered key (items src n) m (items src i) (scatterFrom key src i s) := by
  induction i with
  | zero => exact ⟨by simp [items, bucket], fun b hb => by simpa [items, bucket, scatterFrom] using hs b hb⟩
  | succ i ih =>
      have hfirst := items_initial src hi
      rw [items_succ] at hfirst ⊢
      have hx : key (src i) < m := hkeys _ (hfirst.subset (by simp))
      have hstep := (ih (by omega)).snoc hfirst hx
      simpa [scatterFrom, List.range_succ] using hstep

theorem items_of_scattered {xs : List α} {m : Nat} {s : (Nat → α) × (Nat → Nat)} (h : Scattered key xs m xs s)
    {k : Nat} (hk : k ≤ m) : items s.1 (below key xs k) = (List.range k).flatMap (bucket key xs) := by
  induction k with
  | zero => simp [below, items]
  | succ k ih =>
      have hbucket : (List.range (bucket key xs k).length).map (fun j => s.1 (below key xs k + j)) =
          bucket key xs k := by
        apply List.ext_getElem?
        intro j
        by_cases hj : j < (bucket key xs k).length
        · have hget := List.getElem?_eq_getElem hj
          simp [hj, h.placed k (by omega) j _ hget]
        · simp [hj]
      rw [below_succ, items, List.range_add, List.map_append, List.map_map, List.range_succ, List.flatMap_append,
        ← ih (by omega)]
      simpa [items, Function.comp_def] using hbucket

/-- The pass leaves the buckets one behind the other. -/
theorem items_countingPass (src dst : Nat → α) {n m : Nat} (hkeys : ∀ x ∈ items src n, key x < m) :
    items (countingPass key m src dst n) n = buckets key m (items src n) := by
  have hscattered := scattered_scatterFrom hkeys
    (s := (dst, starts m (histogram key src n))) (fun b hb => starts_histogram src n hb) le_rfl
  have hitems := items_of_scattered hscattered le_rfl
  rwa [below_all hkeys, length_items] at hitems

/-! ## Sorting digit by digit -/

variable (key) in
theorem buckets_perm_filter (xs : List α) (k : Nat) :
    (buckets key k xs).Perm (xs.filter fun x => key x < k) := by
  induction k with
  | zero => simp [buckets]
  | succ k ih =>
      have hsplit : (xs.filter fun x => key x < k + 1).Perm
          ((xs.filter fun x => key x < k) ++ bucket key xs k) := by
        have hlow : (xs.filter fun x => key x < k + 1).filter (fun x => key x < k) = xs.filter fun x => key x < k := by
          rw [List.filter_filter]
          congr 1
          funext x
          simp
          omega
        have htop : (xs.filter fun x => key x < k + 1).filter (fun x => !decide (key x < k)) = bucket key xs k := by
          rw [List.filter_filter, bucket]
          congr 1
          funext x
          by_cases h : key x = k
          · simp [h]
          · simp [h]
            omega
        have hperm := (List.filter_append_perm (fun x => decide (key x < k)) (xs.filter fun x => key x < k + 1)).symm
        rwa [hlow, htop] at hperm
      have hsucc : buckets key (k + 1) xs = buckets key k xs ++ bucket key xs k := by
        simp [buckets, List.range_succ]
      rw [hsucc]
      exact (ih.append_right _).trans hsplit.symm

theorem buckets_perm {xs : List α} {m : Nat} (h : ∀ x ∈ xs, key x < m) : (buckets key m xs).Perm xs := by
  have hperm := buckets_perm_filter key xs m
  rwa [List.filter_eq_self.mpr (by simpa using h)] at hperm

theorem pairwise_buckets {R : α → α → Prop} {xs : List α} (h : xs.Pairwise R) (m : Nat) :
    (buckets key m xs).Pairwise fun x y => key x < key y ∨ key x = key y ∧ R x y := by
  rw [buckets, List.pairwise_flatMap]
  constructor
  · intro b _
    refine (h.filter _).imp_of_mem ?_
    intro x y hx hy hR
    have hkx : key x = b := by simpa using (List.mem_filter.mp hx).2
    have hky : key y = b := by simpa using (List.mem_filter.mp hy).2
    exact .inr ⟨hkx.trans hky.symm, hR⟩
  · refine List.pairwise_lt_range.imp ?_
    intro b c hbc x hx y hy
    have hkx : key x = b := by simpa [bucket] using (List.mem_filter.mp hx).2
    have hky : key y = c := by simpa [bucket] using (List.mem_filter.mp hy).2
    exact .inl (by omega)

section Digits

variable {val : α → Nat} {base : Nat}

def digit (val : α → Nat) (base k : Nat) (x : α) : Nat := val x / base ^ k % base

/-- Sorted by the lowest `k` digits. -/
def SortedTo (val : α → Nat) (base k : Nat) (xs : List α) : Prop :=
  xs.Pairwise fun x y => val x % base ^ k ≤ val y % base ^ k

theorem mod_pow_succ_digit (x : α) (k : Nat) :
    val x % base ^ (k + 1) = val x % base ^ k + base ^ k * digit val base k x := by
  rw [digit, pow_succ, Nat.mod_mul]

theorem sortedTo_zero (xs : List α) : SortedTo val base 0 xs := by
  rw [SortedTo, List.pairwise_iff_forall_sublist]
  simp [Nat.mod_one]

theorem SortedTo.buckets {xs : List α} {k : Nat} (h : SortedTo val base k xs) (hbase : 0 < base) :
    SortedTo val base (k + 1) (buckets (digit val base k) base xs) := by
  refine (pairwise_buckets h base).imp ?_
  intro x y hxy
  have hpos : 0 < base ^ k := Nat.pow_pos hbase
  have hlow := Nat.mod_lt (val x) hpos
  rw [mod_pow_succ_digit, mod_pow_succ_digit]
  rcases hxy with hlt | ⟨heq, hle⟩
  · have hmul := Nat.mul_le_mul_left (base ^ k) (Nat.succ_le_of_lt hlt)
    rw [Nat.mul_succ] at hmul
    calc val x % base ^ k + base ^ k * digit val base k x
        ≤ base ^ k * digit val base k x + base ^ k := by omega
      _ ≤ base ^ k * digit val base k y := hmul
      _ ≤ _ := Nat.le_add_left ..
  · rw [heq]
    omega

/-- A digit that is zero everywhere needs no pass. -/
theorem SortedTo.skip {xs : List α} {k : Nat} (h : SortedTo val base k xs)
    (hzero : ∀ x ∈ xs, digit val base k x = 0) : SortedTo val base (k + 1) xs := by
  refine List.Pairwise.imp_of_mem ?_ h
  intro x y hx hy hle
  simpa [mod_pow_succ_digit, hzero x hx, hzero y hy] using hle

theorem SortedTo.pairwise {xs : List α} {k : Nat} (h : SortedTo val base k xs) (hlt : ∀ x ∈ xs, val x < base ^ k) :
    xs.Pairwise fun x y => val x ≤ val y := by
  refine List.Pairwise.imp_of_mem ?_ h
  intro x y hx hy hle
  rwa [Nat.mod_eq_of_lt (hlt x hx), Nat.mod_eq_of_lt (hlt y hy)] at hle

end Digits

end BitcoinMachineCode.Foundation
