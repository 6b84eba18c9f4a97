import Mathlib.Data.Finset.Union
import Mathlib.Data.Fintype.Card
import Mathlib.Logic.Relation

/-!
# Closing rows in place

A row of every vertex, closed under a relation by passes over the vertices: each row takes
in the rows of its successors, as these stand at that moment, until a pass changes nothing.
The rows become what is reached, and as many passes as there are vertices are enough for
every relation, whether or not it has cycles.
-/

namespace BitcoinMachineCode.Foundation

variable {V : Type*} [DecidableEq V] (direct : V → Finset V)

/-- A row with its successors and their rows. -/
def widened (rows : V → Finset V) (v : V) : Finset V := rows v ∪ direct v ∪ (direct v).biUnion rows

/-- The rows after one vertex, and whether any has changed so far. -/
def rowStep (s : (V → Finset V) × Bool) (v : V) : (V → Finset V) × Bool :=
  let acc := widened direct s.1 v
  if acc = s.1 v then s else (Function.update s.1 v acc, true)

def rowPass (vs : List V) (rows : V → Finset V) : (V → Finset V) × Bool :=
  vs.foldl (rowStep direct) (rows, false)

/-- Passes until one changes nothing; none when they are used up. -/
def rowPasses (vs : List V) : Nat → (V → Finset V) → Option (V → Finset V)
  | 0, _ => none
  | passes + 1, rows =>
      let next := rowPass direct vs rows
      if next.2 then rowPasses vs passes next.1 else some next.1

variable {direct} {vs : List V} {rows : V → Finset V} {s : (V → Finset V) × Bool}

/-- Everything in a row is reached from its vertex. -/
def ReachedRows (direct : V → Finset V) (rows : V → Finset V) : Prop :=
  ∀ v, ∀ u ∈ rows v, Relation.ReflTransGen (fun a b => b ∈ direct a) v u

/-- A row takes in the rows of its successors. -/
def ClosedRows (direct : V → Finset V) (rows : V → Finset V) : Prop :=
  ∀ v, widened direct rows v = rows v

theorem subset_widened (v : V) : rows v ⊆ widened direct rows v := fun _ hu =>
  Finset.mem_union_left _ (Finset.mem_union_left _ hu)

theorem widened_mono {rows' : V → Finset V} (h : ∀ v, rows v ⊆ rows' v) (v : V) :
    widened direct rows v ⊆ widened direct rows' v :=
  Finset.union_subset_union (Finset.union_subset_union (h v) subset_rfl)
    (Finset.biUnion_mono fun u _ => h u)

/-! ## One vertex -/

theorem rowStep_fst (v : V) :
    (rowStep direct s v).1 = Function.update s.1 v (widened direct s.1 v) := by
  unfold rowStep
  simp only
  split
  · next heq => rw [heq, Function.update_eq_self]
  · rfl

theorem subset_rowStep (v w : V) : s.1 w ⊆ (rowStep direct s v).1 w := by
  rw [rowStep_fst]
  by_cases hw : w = v
  · subst hw
    rw [Function.update_self]
    exact subset_widened w
  · rw [Function.update_of_ne hw]

theorem ReachedRows.widened (h : ReachedRows direct rows) {v u : V}
    (hu : u ∈ widened direct rows v) : Relation.ReflTransGen (fun a b => b ∈ direct a) v u := by
  rcases Finset.mem_union.mp hu with hu | hu
  · rcases Finset.mem_union.mp hu with hu | hu
    · exact h v u hu
    · exact .single hu
  · obtain ⟨w, hw, hu⟩ := Finset.mem_biUnion.mp hu
    exact .head hw (h w u hu)

theorem ReachedRows.rowStep (h : ReachedRows direct s.1) (v : V) :
    ReachedRows direct (rowStep direct s v).1 := by
  intro w u hu
  rw [rowStep_fst] at hu
  by_cases hw : w = v
  · subst hw
    rw [Function.update_self] at hu
    exact h.widened hu
  · rw [Function.update_of_ne hw] at hu
    exact h w u hu

/-! ## A pass -/

theorem subset_foldl (vs : List V) (w : V) : s.1 w ⊆ (vs.foldl (rowStep direct) s).1 w := by
  induction vs generalizing s with
  | nil => exact subset_rfl
  | cons v vs ih => exact (subset_rowStep v w).trans ih

theorem ReachedRows.foldl (h : ReachedRows direct s.1) :
    ReachedRows direct (vs.foldl (Foundation.rowStep direct) s).1 := by
  induction vs generalizing s with
  | nil => exact h
  | cons v vs ih => exact ih (h.rowStep v)

/-- The rows a vertex finds in its turn are those of before the pass or wider. -/
theorem widened_subset_foldl {v : V} (hv : v ∈ vs) :
    widened direct s.1 v ⊆ (vs.foldl (rowStep direct) s).1 v := by
  induction vs generalizing s with
  | nil => exact absurd hv List.not_mem_nil
  | cons w vs ih =>
      rcases List.mem_cons.mp hv with rfl | hv
      · refine subset_trans ?_ (subset_foldl vs v)
        rw [rowStep_fst, Function.update_self]
      · exact (widened_mono (subset_rowStep w) v).trans (ih hv)

theorem foldl_of_closed (h : ∀ v ∈ vs, widened direct s.1 v = s.1 v) :
    vs.foldl (rowStep direct) s = s := by
  induction vs with
  | nil => rfl
  | cons v vs ih =>
      have hstep : rowStep direct s v = s := if_pos (h v List.mem_cons_self)
      rw [List.foldl_cons, hstep]
      exact ih fun w hw => h w (List.mem_cons_of_mem _ hw)

theorem flag_foldl (h : s.2 = true) : (vs.foldl (rowStep direct) s).2 = true := by
  induction vs generalizing s with
  | nil => exact h
  | cons v vs ih =>
      refine ih ?_
      unfold rowStep
      simp only
      split
      · exact h
      · rfl

/-- A pass without a change found every row closed. -/
theorem closed_of_flag (h : (vs.foldl (rowStep direct) s).2 = false) :
    (vs.foldl (rowStep direct) s).1 = s.1 ∧ ∀ v ∈ vs, widened direct s.1 v = s.1 v := by
  induction vs with
  | nil => exact ⟨rfl, nofun⟩
  | cons v vs ih =>
      by_cases hv : widened direct s.1 v = s.1 v
      · have hstep : rowStep direct s v = s := if_pos hv
        rw [List.foldl_cons, hstep] at h ⊢
        obtain ⟨heq, hall⟩ := ih h
        refine ⟨heq, fun w hw => ?_⟩
        rcases List.mem_cons.mp hw with rfl | hw
        · exact hv
        · exact hall w hw
      · have hstep : (rowStep direct s v).2 = true := by
          unfold rowStep
          simp only
          rw [if_neg hv]
        rw [List.foldl_cons, flag_foldl hstep] at h
        cases h

/-! ## What is reached in so many steps -/

/-- What is reached from a vertex in `k` steps or fewer. -/
def within (direct : V → Finset V) : Nat → V → Finset V
  | 0, v => {v}
  | k + 1, v => within direct k v ∪ (within direct k v).biUnion direct

theorem mem_within_succ {k : Nat} {v u : V} (h : u ∈ within direct (k + 1) v) :
    u ∈ within direct k v ∨ ∃ w ∈ direct v, u ∈ within direct k w := by
  induction k generalizing u with
  | zero =>
      rcases Finset.mem_union.mp h with h | h
      · exact .inl h
      · obtain ⟨w, hw, hu⟩ := Finset.mem_biUnion.mp h
        rw [Finset.mem_singleton.mp hw] at hu
        exact .inr ⟨u, hu, Finset.mem_singleton_self u⟩
  | succ k ih =>
      rcases Finset.mem_union.mp h with h | h
      · exact .inl h
      · obtain ⟨x, hx, hu⟩ := Finset.mem_biUnion.mp h
        rcases ih hx with hx | ⟨w, hw, hx⟩
        · exact .inl (Finset.mem_union_right _ (Finset.mem_biUnion.mpr ⟨x, hx, hu⟩))
        · exact .inr ⟨w, hw, Finset.mem_union_right _ (Finset.mem_biUnion.mpr ⟨x, hx, hu⟩)⟩

theorem within_subset_widened {k : Nat} (h : ∀ v, within direct k v ⊆ rows v) (v : V) :
    within direct (k + 1) v ⊆ widened direct rows v := by
  intro u hu
  rcases mem_within_succ hu with hu | ⟨w, hw, hu⟩
  · exact subset_widened v (h v hu)
  · exact Finset.mem_union_right _ (Finset.mem_biUnion.mpr ⟨w, hw, h w hu⟩)

/-- With each step something new is reached, or nothing ever again. -/
theorem within_grows (direct : V → Finset V) (k : Nat) (v : V) :
    k < (within direct k v).card ∨ ∀ u ∈ within direct k v, direct u ⊆ within direct k v := by
  induction k with
  | zero => exact .inl Nat.one_pos
  | succ k ih =>
      have hsub : within direct k v ⊆ within direct (k + 1) v := Finset.subset_union_left
      by_cases hsame : within direct (k + 1) v = within direct k v
      · refine .inr ?_
        rw [hsame]
        intro u hu x hx
        rw [← hsame]
        exact Finset.mem_union_right _ (Finset.mem_biUnion.mpr ⟨u, hu, hx⟩)
      · refine .inl ?_
        rcases ih with hcard | hclosed
        · have := Finset.card_lt_card (Finset.ssubset_iff_subset_ne.mpr ⟨hsub, Ne.symm hsame⟩)
          omega
        · refine absurd (subset_antisymm ?_ hsub) hsame
          exact Finset.union_subset subset_rfl (Finset.biUnion_subset.mpr hclosed)

theorem self_mem_within (direct : V → Finset V) (k : Nat) (v : V) : v ∈ within direct k v := by
  induction k with
  | zero => exact Finset.mem_singleton_self v
  | succ k ih => exact Finset.mem_union_left _ ih

omit [DecidableEq V] in
theorem mem_of_reached {t : Finset V} (h : ∀ u ∈ t, direct u ⊆ t) {v u : V} (hv : v ∈ t)
    (hreach : Relation.ReflTransGen (fun a b => b ∈ direct a) v u) : u ∈ t := by
  induction hreach with
  | refl => exact hv
  | tail _ hlast ih => exact h _ ih hlast

theorem mem_within_card [Fintype V] {v u : V} {k : Nat} (hk : Fintype.card V ≤ k)
    (h : Relation.ReflTransGen (fun a b => b ∈ direct a) v u) : u ∈ within direct k v := by
  refine mem_of_reached ?_ (self_mem_within direct k v) h
  refine (within_grows direct k v).resolve_left fun hcard => ?_
  have := Finset.card_le_univ (within direct k v)
  omega

/-! ## All passes -/

/-- A closed row that holds its vertex holds all that is reached from there. -/
theorem ClosedRows.mem (h : ClosedRows direct rows) (hself : ∀ w, w ∈ rows w) {v u : V}
    (hreach : Relation.ReflTransGen (fun a b => b ∈ direct a) v u) : u ∈ rows v := by
  induction hreach using Relation.ReflTransGen.head_induction_on with
  | refl => exact hself u
  | head hstep _ ih =>
      rw [← h]
      exact Finset.mem_union_right _ (Finset.mem_biUnion.mpr ⟨_, hstep, ih⟩)

theorem rowPasses_of_flag (passes : Nat) (h : (rowPass direct vs rows).2 = false) :
    rowPasses direct vs (passes + 1) rows = some rows := by
  rw [rowPasses]
  simp only [h, Bool.false_eq_true, if_false]
  exact congrArg some (closed_of_flag h).1

/-- As many passes as vertices and one more find the rows closed, with all that is reached. -/
theorem rowPasses_reached [Fintype V] (hvs : ∀ v, v ∈ vs) {k passes : Nat}
    (hcard : Fintype.card V ≤ k + passes) (hrows : ReachedRows direct rows)
    (hwithin : ∀ v, within direct k v ⊆ rows v) :
    ∃ rows', rowPasses direct vs (passes + 1) rows = some rows' ∧
      ∀ v u, u ∈ rows' v ↔ Relation.ReflTransGen (fun a b => b ∈ direct a) v u := by
  induction passes generalizing k rows with
  | zero =>
      have hmem : ∀ v u, Relation.ReflTransGen (fun a b => b ∈ direct a) v u → u ∈ rows v :=
        fun v u hreach => hwithin v (mem_within_card (by omega) hreach)
      have hclosed : ∀ v ∈ vs, widened direct rows v = rows v := fun v _ =>
        subset_antisymm (fun u hu => hmem v u (hrows.widened hu)) (subset_widened v)
      have hflag : (rowPass direct vs rows).2 = false := by
        unfold rowPass
        rw [foldl_of_closed (s := (rows, false)) hclosed]
      exact ⟨rows, rowPasses_of_flag 0 hflag, fun v u => ⟨hrows v u, hmem v u⟩⟩
  | succ passes ih =>
      by_cases hflag : (rowPass direct vs rows).2 = true
      · rw [rowPasses]
        simp only [hflag, if_true]
        have hrows' : ReachedRows direct (rowPass direct vs rows).1 :=
          ReachedRows.foldl (s := (rows, false)) hrows
        refine ih (k := k + 1) (by omega) hrows' fun v => ?_
        have hwider : widened direct rows v ⊆ (rowPass direct vs rows).1 v :=
          widened_subset_foldl (s := (rows, false)) (hvs v)
        exact (within_subset_widened hwithin v).trans hwider
      · rw [Bool.not_eq_true] at hflag
        refine ⟨rows, rowPasses_of_flag _ hflag, fun v u => ⟨hrows v u, fun hreach => ?_⟩⟩
        exact ClosedRows.mem (fun w => (closed_of_flag hflag).2 w (hvs w))
          (fun w => hwithin w (self_mem_within direct k w)) hreach

theorem rowPasses_closure [Fintype V] (direct : V → Finset V) (hvs : ∀ v, v ∈ vs) :
    ∃ rows, rowPasses direct vs (Fintype.card V + 1) (fun v => {v}) = some rows ∧
      ∀ v u, u ∈ rows v ↔ Relation.ReflTransGen (fun a b => b ∈ direct a) v u := by
  refine rowPasses_reached hvs (k := 0) (by omega) (fun v u hu => ?_) fun v => subset_rfl
  rw [Finset.mem_singleton.mp hu]

end BitcoinMachineCode.Foundation
