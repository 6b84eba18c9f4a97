import Mathlib.Algebra.BigOperators.Finprod
import BitcoinMachineCode.Foundation.MapSize

/-!
# Totals of maps

The total value a map holds, and lists of postings to its keys.  An inequality
that holds key by key holds of the totals.
-/

namespace BitcoinMachineCode.Foundation

variable {κ ν : Type*}

/-! ## Postings -/

section Postings

variable [DecidableEq κ]

/-- What a list of postings puts on a key. -/
def posted (l : List (κ × Nat)) (k : κ) : Nat :=
  ((l.filter fun p => p.1 = k).map Prod.snd).sum

@[simp] theorem posted_nil (k : κ) : posted ([] : List (κ × Nat)) k = 0 := rfl

theorem posted_cons (p : κ × Nat) (l : List (κ × Nat)) (k : κ) :
    posted (p :: l) k = (if p.1 = k then p.2 else 0) + posted l k := by
  rw [posted, List.filter_cons]
  split
  · simp_all [posted]
  · simp_all [posted]

theorem posted_append (l m : List (κ × Nat)) (k : κ) :
    posted (l ++ m) k = posted l k + posted m k := by
  simp [posted]

theorem posted_of_not_mem {l : List (κ × Nat)} {k : κ} (h : k ∉ l.map Prod.fst) :
    posted l k = 0 := by
  induction l with
  | nil => rfl
  | cons p l ih =>
      rw [List.map_cons, List.mem_cons, not_or] at h
      rw [posted_cons, ih h.2, if_neg (Ne.symm h.1)]

theorem le_posted_of_mem {l : List (κ × Nat)} {k : κ} {v : Nat} (h : (k, v) ∈ l) :
    v ≤ posted l k := by
  induction l with
  | nil => cases h
  | cons p l ih =>
      rw [posted_cons]
      rcases List.mem_cons.mp h with rfl | h
      · simp
      · have := ih h
        omega

theorem posted_of_nodup {l : List (κ × Nat)} (hnodup : (l.map Prod.fst).Nodup) {k : κ}
    {v : Nat} (h : (k, v) ∈ l) : posted l k = v := by
  induction l with
  | nil => cases h
  | cons p l ih =>
      rw [List.map_cons, List.nodup_cons] at hnodup
      rw [posted_cons]
      rcases List.mem_cons.mp h with rfl | h
      · simp [posted_of_not_mem hnodup.1]
      · have hne : p.1 ≠ k := fun heq => hnodup.1 (heq ▸ List.mem_map_of_mem h)
        rw [if_neg hne, ih hnodup.2 h, Nat.zero_add]

theorem posted_support_finite (l : List (κ × Nat)) : (Function.support (posted l)).Finite := by
  refine (l.map Prod.fst).finite_toSet.subset fun k hk => ?_
  by_contra hnot
  exact hk (posted_of_not_mem hnot)

theorem finsum_posted (l : List (κ × Nat)) : ∑ᶠ k, posted l k = (l.map Prod.snd).sum := by
  induction l with
  | nil => simp
  | cons p l ih =>
      have hone : (Function.support fun k => if p.1 = k then p.2 else 0).Finite := by
        refine (Set.finite_singleton p.1).subset fun k hk => ?_
        by_contra hne
        exact hk (if_neg fun heq => hne heq.symm)
      have hcons : (fun k => posted (p :: l) k) =
          fun k => (if p.1 = k then p.2 else 0) + posted l k := funext (posted_cons p l)
      rw [hcons, finsum_add_distrib hone (posted_support_finite l), ih, List.map_cons,
        List.sum_cons, finsum_eq_single _ p.1 fun k hk => if_neg (Ne.symm hk), if_pos rfl]

end Postings

/-! ## The value a map holds -/

namespace PMap

variable (value : ν → Nat)

def valueAt (m : PMap κ ν) (k : κ) : Nat := (m k).elim 0 value

noncomputable def total (m : PMap κ ν) : Nat := ∑ᶠ k, m.valueAt value k

variable {value} {m n : PMap κ ν}

theorem valueAt_support_finite (h : m.dom.Finite) :
    (Function.support (m.valueAt value)).Finite := by
  refine h.subset fun k hk hnone => hk ?_
  rw [valueAt, hnone]
  rfl

theorem total_put [DecidableEq κ] (value : ν → Nat) {m : PMap κ ν} {k : κ}
    (hfin : m.dom.Finite) (h : m k = none) (v : ν) :
    (m.put k v).total value = m.total value + value v := by
  have hm : (Function.support (m.valueAt value)).Finite := valueAt_support_finite hfin
  have hput := finsum_add_distrib hm (posted_support_finite [(k, value v)])
  rw [finsum_posted] at hput
  simp only [List.map_cons, List.map_nil, List.sum_cons, List.sum_nil, Nat.add_zero] at hput
  unfold total
  rw [← hput]
  congr 1
  funext x
  rw [valueAt, valueAt, put_apply, posted_cons, posted_nil]
  by_cases hx : x = k
  · subst hx
    simp [h]
  · simp [hx, Ne.symm hx]

theorem Enumerates.total_eq [DecidableEq κ] {value : ν → Nat} {es : List (κ × ν)}
    {m : PMap κ ν} (h : Enumerates es m) :
    m.total value = (es.map fun e => value e.2).sum := by
  have hkeys : ((es.map fun e => (e.1, value e.2)).map Prod.fst).Nodup := by
    rw [List.map_map]
    exact h.nodup
  have hposted : m.valueAt value = posted (es.map fun e => (e.1, value e.2)) := by
    funext k
    rw [valueAt]
    cases hk : m k with
    | none =>
        rw [posted_of_not_mem]
        · rfl
        · intro hmem
          rw [List.map_map] at hmem
          exact mem_dom.mp (h.mem_keys.mp hmem) hk
    | some v =>
        rw [posted_of_nodup hkeys (List.mem_map_of_mem ((h.mem_iff k v).mpr hk))]
        rfl
  unfold total
  rw [hposted, finsum_posted, List.map_map]
  rfl

/-- Debits and credits that balance at every key balance in total. -/
theorem total_add_le [DecidableEq κ] (hm : m.dom.Finite) (hn : n.dom.Finite)
    {debits credits : List (κ × Nat)}
    (h : ∀ k, n.valueAt value k + posted debits k ≤ m.valueAt value k + posted credits k) :
    n.total value + (debits.map Prod.snd).sum ≤
      m.total value + (credits.map Prod.snd).sum := by
  have hfm : (Function.support (m.valueAt value)).Finite := valueAt_support_finite hm
  have hfn : (Function.support (n.valueAt value)).Finite := valueAt_support_finite hn
  have hleft := posted_support_finite debits
  have hright := posted_support_finite credits
  rw [← finsum_posted debits, ← finsum_posted credits, total, total,
    ← finsum_add_distrib hfn hleft, ← finsum_add_distrib hfm hright]
  refine finsum_le_finsum' ?_ ?_ h
  · exact (hfn.union hleft).subset (Function.support_add _ _)
  · exact (hfm.union hright).subset (Function.support_add _ _)

/-- A map reached from another by debits and credits: at every key it holds what
these leave, or less. -/
def Balanced [DecidableEq κ] (value : ν → Nat) (m n : PMap κ ν)
    (debits credits : List (κ × Nat)) : Prop :=
  ∀ k, n.valueAt value k + posted debits k ≤ m.valueAt value k + posted credits k

namespace Balanced

variable [DecidableEq κ] {debits credits : List (κ × Nat)}

theorem refl (m : PMap κ ν) : Balanced value m m [] [] := fun _ => Nat.le_refl _

/-- Keys emptied at a price that the first map and the credits so far cover. -/
theorem spend (h : Balanced value m n debits credits) {n' : PMap κ ν} {ks : List κ}
    (price : κ → Nat) (hnodup : (debits.map Prod.fst ++ ks).Nodup)
    (hprice : ∀ k ∈ ks, price k ≤ m.valueAt value k + posted credits k)
    (hspent : ∀ k ∈ ks, n' k = none) (hkept : ∀ k, k ∉ ks → n' k = n k) :
    Balanced value m n' (debits ++ ks.map fun k => (k, price k)) credits := by
  intro k
  have hkeys : (ks.map fun k => (k, price k)).map Prod.fst = ks := by
    simp [Function.comp_def]
  rw [posted_append]
  by_cases hk : k ∈ ks
  · have hfresh : k ∉ debits.map Prod.fst := fun hmem =>
      List.disjoint_of_nodup_append hnodup hmem hk
    have hpaid : posted (ks.map fun k => (k, price k)) k = price k := by
      refine posted_of_nodup ?_ (List.mem_map_of_mem hk)
      rw [hkeys]
      exact hnodup.of_append_right
    have hzero : n'.valueAt value k = 0 := by rw [valueAt, hspent k hk]; rfl
    rw [posted_of_not_mem hfresh, hpaid, hzero]
    have := hprice k hk
    omega
  · have hnone : posted (ks.map fun k => (k, price k)) k = 0 :=
      posted_of_not_mem (by rwa [hkeys])
    have hsame : n'.valueAt value k = n.valueAt value k := by
      rw [valueAt, hkept k hk, valueAt]
    rw [hnone, hsame]
    exact h k

theorem create (h : Balanced value m n debits credits) {n' : PMap κ ν}
    {new : List (κ × Nat)}
    (hle : ∀ k, n'.valueAt value k ≤ n.valueAt value k + posted new k) :
    Balanced value m n' debits (credits ++ new) := by
  intro k
  have hold := h k
  have hnew := hle k
  rw [posted_append]
  omega

theorem total_le (h : Balanced value m n debits credits) (hm : m.dom.Finite)
    (hn : n.dom.Finite) :
    n.total value + (debits.map Prod.snd).sum ≤
      m.total value + (credits.map Prod.snd).sum := total_add_le hm hn h

end Balanced

end PMap

/-! ## Purses -/

/-- Amounts taken out and put back in turn, each taken from what is there. -/
def Covered : Nat → List (Nat × Nat) → Prop
  | _, [] => True
  | purse, p :: l => p.1 ≤ purse ∧ Covered (purse - p.1 + p.2) l

end BitcoinMachineCode.Foundation
