import Mathlib.Data.List.Perm.Basic
import Mathlib.Data.List.Sort

/-!
# Merging any number of sorted lists

Each round takes the least head, and of several the one of the first list.  Nothing is
dropped: the result is all the lists' elements, and it is sorted where they are.
-/

namespace BitcoinMachineCode.Foundation.KWay

variable {α : Type*} (lt : α → α → Bool)

/-- The scan over the heads from list `i` on, with the best so far. -/
def leastHead : Option (Nat × α) → Nat → List (List α) → Option (Nat × α)
  | best, _, [] => best
  | best, i, [] :: ls => leastHead best (i + 1) ls
  | none, i, (a :: _) :: ls => leastHead (some (i, a)) (i + 1) ls
  | some (j, b), i, (a :: _) :: ls => leastHead (if lt a b then some (i, a) else some (j, b)) (i + 1) ls

/-- As many rounds as there are elements. -/
def mergeRounds : Nat → List (List α) → List α
  | 0, _ => []
  | n + 1, ls =>
      match leastHead lt none 0 ls with
      | none => []
      | some (i, a) => a :: mergeRounds n (ls.modify i List.tail)

def mergeAll (ls : List (List α)) : List α := mergeRounds lt ls.flatten.length ls

/-- What the merge asks of a comparison. -/
structure StrictWeak (lt : α → α → Bool) : Prop where
  asymm : ∀ a b, lt a b = true → lt b a = false
  trans : ∀ a b c, lt b a = false → lt c b = false → lt c a = false

/-- In order: nothing comes before something less. -/
def Ordered (l : List α) : Prop := l.Pairwise fun a b => lt b a = false

variable {lt}

theorem StrictWeak.irrefl (h : StrictWeak lt) (a : α) : lt a a = false := by
  by_contra ha
  rw [Bool.not_eq_false] at ha
  have hfalse := h.asymm a a ha
  rw [ha] at hfalse
  cases hfalse

theorem leastHead_eq_none {best : Option (Nat × α)} {i : Nat} {ls : List (List α)}
    (h : leastHead lt best i ls = none) : best = none ∧ ∀ l ∈ ls, l = [] := by
  fun_induction leastHead lt best i ls with
  | case1 best i => exact ⟨h, by simp⟩
  | case2 best i ls ih => simpa using ih h
  | case3 i a rest ls ih => exact absurd (ih h).1 (by simp)
  | case4 j b i a rest ls ih =>
      have hbest := (ih h).1
      split at hbest <;> cases hbest

/-- The winner is the best so far or the head of a list, and no head is less. -/
theorem leastHead_spec (hlt : StrictWeak lt)
    {best : Option (Nat × α)} {i : Nat} {ls : List (List α)} {w : Nat × α}
    (h : leastHead lt best i ls = some w) :
    (best = some w ∨ ∃ j rest, w.1 = i + j ∧ ls[j]? = some (w.2 :: rest)) ∧
      (∀ b ∈ best, lt b.2 w.2 = false) ∧ ∀ l ∈ ls, ∀ a ∈ l.head?, lt a w.2 = false := by
  fun_induction leastHead lt best i ls with
  | case1 best i =>
      subst h
      exact ⟨.inl rfl, by simp [hlt.irrefl], by simp⟩
  | case2 best i ls ih =>
      obtain ⟨hfrom, hbest, hall⟩ := ih h
      refine ⟨hfrom.imp id ?_, hbest, by simpa using hall⟩
      rintro ⟨j, rest, hw, hj⟩
      exact ⟨j + 1, rest, by omega, by simpa using hj⟩
  | case3 i a rest ls ih =>
      obtain ⟨hfrom, hbest, hall⟩ := ih h
      refine ⟨.inr ?_, by simp, ?_⟩
      · rcases hfrom with hw | ⟨j, rest', hw, hj⟩
        · cases hw
          exact ⟨0, rest, rfl, rfl⟩
        · exact ⟨j + 1, rest', by omega, by simpa using hj⟩
      · simp only [List.mem_cons, forall_eq_or_imp, List.head?_cons, Option.mem_some_iff, forall_eq']
        exact ⟨hbest (i, a) rfl, hall⟩
  | case4 j b i a rest ls ih =>
      obtain ⟨hfrom, hbest, hall⟩ := ih h
      have hboth : lt b w.2 = false ∧ lt a w.2 = false := by
        split at hbest
        case isTrue hless =>
          have ha := hbest (i, a) rfl
          exact ⟨hlt.trans w.2 a b ha (hlt.asymm a b hless), ha⟩
        case isFalse hge =>
          have hb := hbest (j, b) rfl
          exact ⟨hb, hlt.trans w.2 b a hb (by simpa using hge)⟩
      refine ⟨?_, by simpa using hboth.1, ?_⟩
      · rcases hfrom with hw | ⟨k, rest', hw, hk⟩
        · split at hw
          · cases hw
            exact .inr ⟨0, rest, rfl, rfl⟩
          · exact .inl hw
        · exact .inr ⟨k + 1, rest', by omega, by simpa using hk⟩
      · simp only [List.mem_cons, forall_eq_or_imp, List.head?_cons, Option.mem_some_iff, forall_eq']
        exact ⟨hboth.2, hall⟩

/-- Taking the head of one list out of all elements. -/
theorem flatten_modify_tail {ls : List (List α)} {i : Nat} {a : α} {rest : List α}
    (h : ls[i]? = some (a :: rest)) : ls.flatten.Perm (a :: (ls.modify i List.tail).flatten) := by
  induction ls generalizing i with
  | nil => simp at h
  | cons l ls ih =>
      cases i with
      | zero =>
          obtain rfl : l = a :: rest := by simpa using h
          simp
      | succ i =>
          have hrest := ih (i := i) (by simpa using h)
          simp only [List.flatten_cons, List.modify_succ_cons]
          exact (hrest.append_left l).trans List.perm_middle

section Sorted

variable (hlt : StrictWeak lt)

include hlt

theorem mergeRounds_perm {n : Nat} {ls : List (List α)} (h : ls.flatten.length ≤ n) :
    (mergeRounds lt n ls).Perm ls.flatten := by
  induction n generalizing ls with
  | zero =>
      have hnil : ls.flatten = [] := List.eq_nil_of_length_eq_zero (by omega)
      simp [mergeRounds, hnil]
  | succ n ih =>
      unfold mergeRounds
      split
      case h_1 hnone =>
        have hall := (leastHead_eq_none hnone).2
        have hnil : ls.flatten = [] := List.flatten_eq_nil_iff.mpr hall
        rw [hnil]
      case h_2 i a hsome =>
        obtain ⟨hfrom, -, -⟩ := leastHead_spec hlt hsome
        obtain ⟨j, rest, rfl, hj⟩ := hfrom.resolve_left nofun
        rw [Nat.zero_add]
        have hperm := flatten_modify_tail hj
        have hlen := hperm.length_eq
        simp only [List.length_cons] at hlen
        exact ((ih (by omega)).cons a).trans hperm.symm

theorem mergeAll_perm (ls : List (List α)) : (mergeAll lt ls).Perm ls.flatten :=
  mergeRounds_perm hlt le_rfl

theorem Ordered.head_le {l : List α} (h : Ordered lt l) {a b : α} (hb : b ∈ l)
    (ha : ∀ x ∈ l.head?, lt x a = false) : lt b a = false := by
  cases l with
  | nil => simp at hb
  | cons x l =>
      have hx := ha x rfl
      rcases List.mem_cons.mp hb with rfl | hb
      · exact hx
      · exact hlt.trans a x b hx ((List.pairwise_cons.mp h).1 b hb)

omit hlt in
theorem ordered_modify_tail {ls : List (List α)} (h : ∀ l ∈ ls, Ordered lt l) (i : Nat) :
    ∀ l ∈ ls.modify i List.tail, Ordered lt l := by
  intro l hl
  obtain ⟨j, hj⟩ := List.mem_iff_getElem?.mp hl
  rw [List.getElem?_modify] at hj
  obtain ⟨l', hl', rfl⟩ := Option.map_eq_some_iff.mp hj
  have hordered := h l' (List.mem_of_getElem? hl')
  split
  · exact List.Pairwise.sublist (List.tail_sublist l') hordered
  · exact hordered

theorem ordered_mergeRounds {n : Nat} {ls : List (List α)} (hn : ls.flatten.length ≤ n)
    (h : ∀ l ∈ ls, Ordered lt l) : Ordered lt (mergeRounds lt n ls) := by
  induction n generalizing ls with
  | zero => exact List.Pairwise.nil
  | succ n ih =>
      unfold mergeRounds
      split
      case h_1 => exact List.Pairwise.nil
      case h_2 i a hsome =>
        obtain ⟨hfrom, -, hleast⟩ := leastHead_spec hlt hsome
        obtain ⟨j, rest, rfl, hj⟩ := hfrom.resolve_left nofun
        simp only [Nat.zero_add]
        have hperm := flatten_modify_tail hj
        have hlen := hperm.length_eq
        simp only [List.length_cons] at hlen
        refine List.pairwise_cons.mpr ⟨?_, ih (by omega) (ordered_modify_tail h j)⟩
        intro b hb
        have hmem : b ∈ ls.flatten := by
          have hb' := (mergeRounds_perm hlt (by omega)).mem_iff.mp hb
          exact hperm.mem_iff.mpr (List.mem_cons_of_mem a hb')
        obtain ⟨l, hl, hbl⟩ := List.mem_flatten.mp hmem
        exact (h l hl).head_le hlt hbl (hleast l hl)

theorem ordered_mergeAll {ls : List (List α)} (h : ∀ l ∈ ls, Ordered lt l) : Ordered lt (mergeAll lt ls) :=
  ordered_mergeRounds hlt le_rfl h

end Sorted

end BitcoinMachineCode.Foundation.KWay
