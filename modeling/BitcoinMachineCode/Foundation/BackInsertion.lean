import Mathlib.Data.List.DropRight
import Mathlib.Data.List.Pairwise
import Mathlib.Tactic.Common

/-!
# Insertion from the end

The insertion sort of C loops: every item moves down past the items it stands before.  Items that
neither stands before the other keep their order.
-/

namespace BitcoinMachineCode.Foundation

variable {α : Type*} (lt : α → α → Bool)

def insertBack (v : α) (xs : List α) : List α := xs.rdropWhile (lt v) ++ v :: xs.rtakeWhile (lt v)

def sortBack (xs : List α) : List α := xs.foldl (fun sorted v => insertBack lt v sorted) []

variable {lt}

theorem insertBack_perm (v : α) (xs : List α) : (insertBack lt v xs).Perm (v :: xs) := by
  have hsplit : xs.rdropWhile (lt v) ++ xs.rtakeWhile (lt v) = xs :=
    List.rdropWhile_append_rtakeWhile
  calc (insertBack lt v xs).Perm (v :: (xs.rdropWhile (lt v) ++ xs.rtakeWhile (lt v))) :=
        List.perm_middle
    _ = v :: xs := by rw [hsplit]

theorem foldl_insertBack_perm (xs sorted : List α) :
    (xs.foldl (fun sorted v => insertBack lt v sorted) sorted).Perm (sorted ++ xs) := by
  induction xs generalizing sorted with
  | nil => simp
  | cons v xs ih =>
      have hstep : (insertBack lt v sorted ++ xs).Perm (sorted ++ v :: xs) :=
        ((insertBack_perm v sorted).append_right xs).trans List.perm_middle.symm
      exact (ih _).trans hstep

theorem sortBack_perm (xs : List α) : (sortBack lt xs).Perm xs :=
  foldl_insertBack_perm xs []

theorem pairwise_insertBack (hasymm : ∀ a b, lt a b = true → lt b a = false)
    (htrans : ∀ a b c, lt b a = false → lt c b = false → lt c a = false) (v : α) {xs : List α}
    (h : xs.Pairwise fun a b => lt b a = false) :
    (insertBack lt v xs).Pairwise fun a b => lt b a = false := by
  have hsplit : xs.rdropWhile (lt v) ++ xs.rtakeWhile (lt v) = xs :=
    List.rdropWhile_append_rtakeWhile
  rw [← hsplit] at h
  obtain ⟨hfront, hback, hcross⟩ := List.pairwise_append.mp h
  -- the last item that stays in front is not after `v`, and the others are not after it
  have hv : ∀ a ∈ xs.rdropWhile (lt v), lt v a = false := by
    intro a ha
    have hne : xs.rdropWhile (lt v) ≠ [] := List.ne_nil_of_mem ha
    have hlast : lt v ((xs.rdropWhile (lt v)).getLast hne) = false := by
      simpa using List.rdropWhile_last_not (lt v) xs hne
    rw [← List.dropLast_append_getLast hne, List.mem_append, List.mem_singleton] at ha
    rcases ha with ha | ha
    · rw [← List.dropLast_append_getLast hne] at hfront
      have := (List.pairwise_append.mp hfront).2.2 a ha _ List.mem_cons_self
      exact htrans _ _ _ this hlast
    · rw [ha]
      exact hlast
  apply List.pairwise_append.mpr
  refine ⟨hfront, List.pairwise_cons.mpr ⟨?_, hback⟩, ?_⟩
  · intro b hb
    exact hasymm v b (List.mem_rtakeWhile_imp hb)
  · intro a ha b hb
    rcases List.mem_cons.mp hb with rfl | hb
    · exact hv a ha
    · exact hcross a ha b hb

theorem pairwise_sortBack (hasymm : ∀ a b, lt a b = true → lt b a = false)
    (htrans : ∀ a b c, lt b a = false → lt c b = false → lt c a = false) (xs : List α) :
    (sortBack lt xs).Pairwise fun a b => lt b a = false := by
  have h : ∀ sorted : List α, (sorted.Pairwise fun a b => lt b a = false) →
      (xs.foldl (fun sorted v => insertBack lt v sorted) sorted).Pairwise fun a b => lt b a = false := by
    induction xs with
    | nil => exact fun sorted hsorted => hsorted
    | cons v xs ih => exact fun sorted hsorted => ih _ (pairwise_insertBack hasymm htrans v hsorted)
  exact h [] List.Pairwise.nil

theorem filter_insertBack {q : α → Bool} (hq : ∀ a b, q a = true → q b = true → lt a b = false) (v : α) (xs : List α) :
    (insertBack lt v xs).filter q = (xs ++ [v]).filter q := by
  have hsplit : xs.rdropWhile (lt v) ++ xs.rtakeWhile (lt v) = xs :=
    List.rdropWhile_append_rtakeWhile
  have hback : q v = true → (xs.rtakeWhile (lt v)).filter q = [] := by
    intro hv
    apply List.filter_eq_nil_iff.mpr
    intro x hx hqx
    have := List.mem_rtakeWhile_imp hx
    rw [hq v x hv hqx] at this
    cases this
  have hfilter : xs.filter q = (xs.rdropWhile (lt v)).filter q ++ (xs.rtakeWhile (lt v)).filter q := by
    rw [← List.filter_append, hsplit]
  cases hv : q v with
  | false => simp [insertBack, hv, hfilter]
  | true => simp [insertBack, hv, hfilter, hback hv]

/-- Items of which none stands before another keep their order. -/
theorem filter_sortBack {q : α → Bool} (hq : ∀ a b, q a = true → q b = true → lt a b = false) (xs : List α) :
    (sortBack lt xs).filter q = xs.filter q := by
  have h : ∀ sorted : List α,
      (xs.foldl (fun sorted v => insertBack lt v sorted) sorted).filter q = (sorted ++ xs).filter q := by
    induction xs with
    | nil => simp
    | cons v xs ih =>
        intro sorted
        rw [List.foldl_cons, ih, List.filter_append, filter_insertBack hq, ← List.filter_append]
        simp
  exact h []

/-! ## Items of one kind at the end -/

theorem eq_filter_append {p : α → Bool} {xs : List α} (h : xs.Pairwise fun a b => p a = true → p b = true) :
    xs = xs.filter (fun x => !p x) ++ xs.filter p := by
  induction xs with
  | nil => rfl
  | cons a xs ih =>
      obtain ⟨ha, hxs⟩ := List.pairwise_cons.mp h
      cases hp : p a with
      | false =>
          conv_lhs => rw [ih hxs]
          simp [hp]
      | true =>
          have hall : ∀ x ∈ xs, p x = true := fun x hx => ha x hx hp
          rw [List.filter_eq_nil_iff.mpr, List.filter_eq_self.mpr, List.nil_append]
          · simpa [hp] using hall
          · simpa [hp] using hall

/-- Without the last `k` items, so many fewer of the kind that stands at the end. -/
theorem countP_take_of_last {p : α → Bool} {xs : List α}
    (h : xs.Pairwise fun a b => p a = true → p b = true) (k : Nat) :
    (xs.take (xs.length - k)).countP p = xs.countP p - k := by
  have hlen : xs.length = (xs.filter fun x => !p x).length + (xs.filter p).length := by
    conv_lhs => rw [eq_filter_append h, List.length_append]
  have hnone : ∀ m, ((xs.filter fun x => !p x).take m).countP p = 0 := by
    intro m
    apply List.countP_eq_zero.mpr
    intro x hx
    simpa using (List.mem_filter.mp (List.mem_of_mem_take hx)).2
  have hall : ∀ m, ((xs.filter p).take m).countP p = ((xs.filter p).take m).length := by
    intro m
    apply List.countP_eq_length.mpr
    intro x hx
    exact (List.mem_filter.mp (List.mem_of_mem_take hx)).2
  calc (xs.take (xs.length - k)).countP p
      = ((xs.filter (fun x => !p x) ++ xs.filter p).take (xs.length - k)).countP p := by
        rw [← eq_filter_append h]
    _ = min (xs.length - k - (xs.filter fun x => !p x).length) (xs.filter p).length := by
        rw [List.take_append, List.countP_append, hnone, hall, List.length_take, Nat.zero_add]
    _ = xs.countP p - k := by
        rw [List.countP_eq_length_filter]
        omega

end BitcoinMachineCode.Foundation
