import Mathlib

/-!
# Bounded searches

A search that keeps a stack and the list of what it has seen, and gives up where
that list outgrows a bound.  What it returns is closed and holds the start, and
it returns wherever a closed set within the bound does.
-/

namespace BitcoinMachineCode.Foundation

variable {α : Type*} [DecidableEq α]

/-- The members not seen yet, each once. -/
def unseen : List α → List α → List α
  | _, [] => []
  | seen, a :: as => if a ∈ seen then unseen seen as else a :: unseen (a :: seen) as

def worklist (next : α → List α) (cap : Nat) : Nat → List α → List α → Option (List α)
  | _, [], seen => some seen
  | 0, _ :: _, _ => none
  | fuel + 1, cur :: stack, seen =>
      let new := unseen seen (next cur)
      if cap < seen.length + new.length then none
      else worklist next cap fuel (new.reverse ++ stack) (seen ++ new)

/-- Everything reached from the start, which comes first; `none` past the bound. -/
def search (next : α → List α) (cap : Nat) (start : List α) : Option (List α) :=
  if cap < start.length then none else worklist next cap cap start.reverse start

theorem mem_unseen {a : α} {seen as : List α} : a ∈ unseen seen as ↔ a ∈ as ∧ a ∉ seen := by
  induction as generalizing seen with
  | nil => simp [unseen]
  | cons b as ih =>
      unfold unseen
      split
      · next hb =>
          rw [ih]
          grind
      · next hb =>
          rw [List.mem_cons, ih]
          grind

theorem nodup_unseen (seen as : List α) : (unseen seen as).Nodup := by
  induction as generalizing seen with
  | nil => exact List.nodup_nil
  | cons b as ih =>
      unfold unseen
      split
      · exact ih seen
      · refine List.nodup_cons.mpr ⟨fun hb => ?_, ih _⟩
        exact (mem_unseen.mp hb).2 List.mem_cons_self

theorem nodup_append_unseen {seen : List α} (h : seen.Nodup) (as : List α) :
    (seen ++ unseen seen as).Nodup :=
  List.nodup_append.mpr ⟨h, nodup_unseen seen as, fun _ ha _ hb hab =>
    (mem_unseen.mp hb).2 (hab ▸ ha)⟩

section Search

variable {next : α → List α} {cap fuel : Nat}

def ClosedUnder (next : α → List α) (s : List α) : Prop := ∀ a ∈ s, ∀ b ∈ next a, b ∈ s

omit [DecidableEq α] in
theorem closedUnder_nil {next : α → List α} : ClosedUnder next [] :=
  fun _ ha => absurd ha List.not_mem_nil

/-- What every round keeps holds at the end, with nothing left on the stack. -/
theorem worklist_invariant {I : List α → List α → Prop}
    (hround : ∀ cur stack seen, I (cur :: stack) seen →
      seen.length + (unseen seen (next cur)).length ≤ cap →
      I ((unseen seen (next cur)).reverse ++ stack) (seen ++ unseen seen (next cur)))
    {stack seen result : List α} (hI : I stack seen)
    (h : worklist next cap fuel stack seen = some result) : I [] result := by
  induction fuel generalizing stack seen with
  | zero =>
      cases stack with
      | nil =>
          obtain rfl := Option.some.inj h
          exact hI
      | cons cur stack => cases h
  | succ fuel ih =>
      cases stack with
      | nil =>
          obtain rfl := Option.some.inj h
          exact hI
      | cons cur stack =>
          unfold worklist at h
          simp only at h
          split at h
          · cases h
          · exact ih (hround cur stack seen hI (by omega)) h

/-- The stack is among the seen, and what left it has its neighbours there. -/
structure Frontier (next : α → List α) (stack seen : List α) : Prop where
  subset : ∀ a ∈ stack, a ∈ seen
  expanded : ∀ a ∈ seen, a ∉ stack → ∀ b ∈ next a, b ∈ seen

theorem Frontier.round {cur : α} {stack seen : List α} (h : Frontier next (cur :: stack) seen) :
    Frontier next ((unseen seen (next cur)).reverse ++ stack)
      (seen ++ unseen seen (next cur)) where
  subset a ha := by
    rcases List.mem_append.mp ha with ha | ha
    · exact List.mem_append_right _ (List.mem_reverse.mp ha)
    · exact List.mem_append_left _ (h.subset a (List.mem_cons_of_mem _ ha))
  expanded a ha hout b hb := by
    have hold : a ∈ seen := by
      rcases List.mem_append.mp ha with ha | ha
      · exact ha
      · exact absurd (List.mem_append_left _ (List.mem_reverse.mpr ha)) hout
    rw [List.mem_append, mem_unseen]
    by_cases hcur : a = cur
    · subst hcur
      by_cases hb' : b ∈ seen
      · exact .inl hb'
      · exact .inr ⟨hb, hb'⟩
    · refine .inl (h.expanded a hold (fun hmem => ?_) b hb)
      rcases List.mem_cons.mp hmem with heq | hmem
      · exact hcur heq
      · exact hout (List.mem_append_right _ hmem)

omit [DecidableEq α] in
theorem Frontier.start (start : List α) : Frontier next start.reverse start where
  subset _ := List.mem_reverse.mp
  expanded _ ha hout := absurd (List.mem_reverse.mpr ha) hout

/-- Inside a closed set within the bound neither the bound nor the fuel runs out. -/
theorem worklist_isSome {s : Finset α} (hclosed : ∀ a ∈ s, ∀ b ∈ next a, b ∈ s)
    (hcard : s.card ≤ cap) {stack seen : List α} (hfront : Frontier next stack seen)
    (hseen : ∀ a ∈ seen, a ∈ s) (hnodup : seen.Nodup)
    (hfuel : stack.length + cap ≤ fuel + seen.length) :
    (worklist next cap fuel stack seen).isSome = true := by
  have hle : ∀ l : List α, l.Nodup → (∀ a ∈ l, a ∈ s) → l.length ≤ cap := by
    intro l hl hls
    rw [← List.toFinset_card_of_nodup hl]
    exact (Finset.card_le_card fun a ha => hls a (List.mem_toFinset.mp ha)).trans hcard
  induction fuel generalizing stack seen with
  | zero =>
      cases stack with
      | nil => rfl
      | cons cur stack =>
          have := hle seen hnodup hseen
          simp only [List.length_cons] at hfuel
          omega
  | succ fuel ih =>
      cases stack with
      | nil => rfl
      | cons cur stack =>
          have hmem : ∀ a ∈ seen ++ unseen seen (next cur), a ∈ s := by
            intro a ha
            rcases List.mem_append.mp ha with ha | ha
            · exact hseen a ha
            · exact hclosed cur (hseen cur (hfront.subset cur List.mem_cons_self)) a
                (mem_unseen.mp ha).1
          have hnew := nodup_append_unseen hnodup (next cur)
          have hlen := hle _ hnew hmem
          rw [List.length_append] at hlen
          unfold worklist
          simp only
          rw [if_neg (by omega)]
          refine ih hfront.round hmem hnew ?_
          simp only [List.length_append, List.length_reverse, List.length_cons] at hfuel ⊢
          omega

/-- There the search ends, with a closed list of what is reached from the start. -/
theorem exists_worklist {s : Finset α} (hclosed : ∀ a ∈ s, ∀ b ∈ next a, b ∈ s)
    (hcard : s.card ≤ cap) {stack seen : List α} (hfront : Frontier next stack seen)
    (hseen : ∀ a ∈ seen, a ∈ s) (hnodup : seen.Nodup)
    (hfuel : stack.length + cap ≤ fuel + seen.length) :
    ∃ found, worklist next cap fuel stack seen = some found ∧ ClosedUnder next found ∧
      (∀ a ∈ seen, a ∈ found) ∧
      (∀ b ∈ found, ∃ a ∈ seen, Relation.ReflTransGen (fun x y => y ∈ next x) a b) ∧
      found.Nodup ∧ ∀ a ∈ found, a ∈ s := by
  obtain ⟨found, hfound⟩ := Option.isSome_iff_exists.mp
    (worklist_isSome hclosed hcard hfront hseen hnodup hfuel)
  have hinv := worklist_invariant
    (I := fun st se => Frontier next st se ∧ (∀ x ∈ seen, x ∈ se) ∧
      (∀ x ∈ se, ∃ a ∈ seen, Relation.ReflTransGen (fun x y => y ∈ next x) a x) ∧ se.Nodup ∧
      ∀ x ∈ se, x ∈ s)
    (fun cur st se hI _ => ?_) ⟨hfront, fun _ hx => hx, fun x hx => ⟨x, hx, .refl⟩, hnodup, hseen⟩
    hfound
  · exact ⟨found, hfound, fun a ha => hinv.1.expanded a ha List.not_mem_nil, hinv.2⟩
  · obtain ⟨hF, hsub, hdesc, hnd, hin⟩ := hI
    refine ⟨hF.round, fun x hx => List.mem_append_left _ (hsub x hx), ?_,
      nodup_append_unseen hnd _, ?_⟩
    · intro x hx
      rcases List.mem_append.mp hx with hx | hx
      · exact hdesc x hx
      · obtain ⟨a, ha, hreach⟩ := hdesc cur (hF.subset cur List.mem_cons_self)
        exact ⟨a, ha, hreach.tail (mem_unseen.mp hx).1⟩
    · intro x hx
      rcases List.mem_append.mp hx with hx | hx
      · exact hin x hx
      · exact hclosed cur (hin cur (hF.subset cur List.mem_cons_self)) x (mem_unseen.mp hx).1

theorem search_eq_some {start result : List α} (h : search next cap start = some result) :
    start.length ≤ cap ∧ worklist next cap cap start.reverse start = some result := by
  unfold search at h
  split at h
  · cases h
  · exact ⟨by omega, h⟩

theorem search_closed {start result : List α} (h : search next cap start = some result) :
    ClosedUnder next result := fun a ha =>
  (worklist_invariant (fun _ _ _ hI _ => hI.round) (Frontier.start start)
    (search_eq_some h).2).expanded a ha List.not_mem_nil

theorem search_prefixed {start result : List α} (h : search next cap start = some result) :
    start <+: result :=
  worklist_invariant (I := fun _ seen => start <+: seen)
    (fun _ _ _ hI _ => hI.trans (List.prefix_append _ _)) List.prefix_rfl (search_eq_some h).2

theorem search_nodup {start result : List α} (hnodup : start.Nodup)
    (h : search next cap start = some result) : result.Nodup ∧ result.length ≤ cap :=
  worklist_invariant (I := fun _ seen => seen.Nodup ∧ seen.length ≤ cap)
    (fun _ _ _ hI hle => ⟨nodup_append_unseen hI.1 _, by rwa [List.length_append]⟩)
    ⟨hnodup, (search_eq_some h).1⟩ (search_eq_some h).2

/-- What holds of the start and passes to neighbours holds of everything found. -/
theorem search_reached {P : α → Prop} (hP : ∀ a, P a → ∀ b ∈ next a, P b)
    {start result : List α} (hstart : ∀ a ∈ start, P a)
    (h : search next cap start = some result) : ∀ a ∈ result, P a := by
  refine (worklist_invariant (I := fun stack seen => Frontier next stack seen ∧ ∀ a ∈ seen, P a)
    (fun cur _ _ hI _ => ⟨hI.1.round, fun a ha => ?_⟩) ⟨Frontier.start start, hstart⟩
    (search_eq_some h).2).2
  rcases List.mem_append.mp ha with ha | ha
  · exact hI.2 a ha
  · exact hP cur (hI.2 cur (hI.1.subset cur List.mem_cons_self)) a (mem_unseen.mp ha).1

theorem search_isSome {s : Finset α} (hclosed : ∀ a ∈ s, ∀ b ∈ next a, b ∈ s)
    (hcard : s.card ≤ cap) {start : List α} (hstart : ∀ a ∈ start, a ∈ s)
    (hnodup : start.Nodup) : (search next cap start).isSome = true := by
  have hlen : start.length ≤ cap := by
    rw [← List.toFinset_card_of_nodup hnodup]
    exact (Finset.card_le_card fun a ha => hstart a (List.mem_toFinset.mp ha)).trans hcard
  unfold search
  rw [if_neg (by omega)]
  exact worklist_isSome hclosed hcard (Frontier.start start) hstart hnodup
    (by rw [List.length_reverse, Nat.add_comm])

theorem mem_search_iff {cap : Nat} {a b : α} {result : List α}
    (h : search next cap [a] = some result) :
    b ∈ result ↔ Relation.ReflTransGen (fun x y => y ∈ next x) a b := by
  constructor
  · refine search_reached (P := Relation.ReflTransGen (fun x y => y ∈ next x) a)
      (fun x hx y hy => hx.tail hy) (fun x hx => ?_) h b
    obtain rfl := List.mem_singleton.mp hx
    exact .refl
  · intro hab
    induction hab with
    | refl => exact (search_prefixed h).subset List.mem_cons_self
    | tail _ hlast ih => exact search_closed h _ ih _ hlast

end Search

/-! ## Lists that name a member twice -/

/-- What a sum over a list counts beyond its distinct members. -/
def excess (weight : α → Nat) (l : List α) : Nat :=
  (l.map weight).sum - ∑ x ∈ l.toFinset, weight x

theorem sum_toFinset_le (weight : α → Nat) (l : List α) :
    ∑ x ∈ l.toFinset, weight x ≤ (l.map weight).sum := by
  induction l with
  | nil => simp
  | cons a l ih =>
      rw [List.toFinset_cons, List.map_cons, List.sum_cons]
      by_cases ha : a ∈ l.toFinset
      · rw [Finset.insert_eq_of_mem ha]
        omega
      · rw [Finset.sum_insert ha]
        omega

theorem sum_eq_iff_excess {weight : α → Nat} {l : List α} :
    (l.map weight).sum = ∑ x ∈ l.toFinset, weight x ↔ excess weight l = 0 := by
  have hle := sum_toFinset_le weight l
  rw [excess]
  omega

theorem excess_concat (weight : α → Nat) (l : List α) (a : α) :
    excess weight (l ++ [a]) = excess weight l + if a ∈ l then weight a else 0 := by
  have hle := sum_toFinset_le weight l
  have hset : (l ++ [a]).toFinset = insert a l.toFinset := by
    ext x
    simp
  rw [excess, excess, hset, List.map_append, List.sum_append, List.map_singleton,
    List.sum_singleton]
  by_cases ha : a ∈ l
  · rw [Finset.insert_eq_of_mem (List.mem_toFinset.mpr ha), if_pos ha]
    omega
  · rw [Finset.sum_insert (fun h => ha (List.mem_toFinset.mp h)), if_neg ha]
    omega

end BitcoinMachineCode.Foundation
