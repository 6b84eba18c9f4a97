import Mathlib.Algebra.BigOperators.Group.Finset.Basic
import Mathlib.Algebra.Order.BigOperators.Group.Finset
import Mathlib.Data.Finset.Card
import Mathlib.Tactic

/-!
# Shares of a common limit

Entries that each belong to an owner.  When the entries together exceed a limit, some owner
holds more than the limit divided by the number of owners.
-/

namespace BitcoinMachineCode.Foundation

variable {α ι : Type*} [DecidableEq ι]

def owners (owner : α → ι) (entries : List α) : Finset ι := (entries.map owner).toFinset

def held (owner : α → ι) (weight : α → Nat) (entries : List α) (i : ι) : Nat :=
  ((entries.filter fun e => decide (owner e = i)).map weight).sum

variable (owner : α → ι) (weight : α → Nat)

@[simp] theorem mem_owners {entries : List α} {i : ι} :
    i ∈ owners owner entries ↔ ∃ e ∈ entries, owner e = i := by
  simp [owners]

theorem owners_perm {es fs : List α} (h : es.Perm fs) : owners owner es = owners owner fs := by
  ext i
  simp [h.mem_iff]

theorem held_perm {es fs : List α} (h : es.Perm fs) (i : ι) :
    held owner weight es i = held owner weight fs i :=
  ((h.filter _).map weight).sum_eq

theorem owners_subset {es fs : List α} (h : es.Sublist fs) :
    owners owner es ⊆ owners owner fs := by
  intro i hi
  obtain ⟨e, he, rfl⟩ := (mem_owners owner).mp hi
  exact (mem_owners owner).mpr ⟨e, h.subset he, rfl⟩

theorem held_le_of_sublist {es fs : List α} (h : es.Sublist fs) (i : ι) :
    held owner weight es i ≤ held owner weight fs i :=
  ((h.filter _).map weight).sum_le_sum (by simp)

theorem held_nil (i : ι) : held owner weight [] i = 0 := rfl

theorem held_cons (e : α) (entries : List α) (i : ι) :
    held owner weight (e :: entries) i =
      (if owner e = i then weight e else 0) + held owner weight entries i := by
  unfold held
  by_cases h : owner e = i <;> simp [h]

theorem held_eq_zero {entries : List α} {i : ι} (h : ∀ e ∈ entries, owner e ≠ i) :
    held owner weight entries i = 0 := by
  unfold held
  rw [List.filter_eq_nil_iff.mpr (by simpa using h)]
  rfl

theorem sum_held (entries : List α) (s : Finset ι) (h : owners owner entries ⊆ s) :
    ∑ i ∈ s, held owner weight entries i = (entries.map weight).sum := by
  induction entries with
  | nil => simp [held_nil]
  | cons e entries ih =>
      have hmem : owner e ∈ s := h (by simp)
      have hsub : owners owner entries ⊆ s := fun i hi => h (by
        obtain ⟨f, hf, rfl⟩ := (mem_owners owner).mp hi
        exact (mem_owners owner).mpr ⟨f, List.mem_cons_of_mem e hf, rfl⟩)
      simp only [held_cons, Finset.sum_add_distrib, ih hsub, List.map_cons, List.sum_cons]
      simp [hmem]

/-- Of the owners of entries that together exceed the limit one is over its share. -/
theorem exists_over_share (entries : List α) (limit : Nat)
    (h : limit < (entries.map weight).sum) :
    ∃ i ∈ owners owner entries,
      limit < held owner weight entries i * (owners owner entries).card := by
  by_contra hnone
  push Not at hnone
  have hsum := sum_held owner weight entries _ (Finset.Subset.refl (owners owner entries))
  have hle : (∑ i ∈ owners owner entries, held owner weight entries i) *
      (owners owner entries).card ≤ (owners owner entries).card * limit := by
    rw [Finset.sum_mul]
    calc ∑ i ∈ owners owner entries, held owner weight entries i * (owners owner entries).card
        ≤ ∑ _i ∈ owners owner entries, limit := Finset.sum_le_sum hnone
      _ = (owners owner entries).card * limit := by simp
  have hpos : 0 < (owners owner entries).card := by
    apply Finset.card_pos.mpr
    cases entries with
    | nil => simp at h
    | cons e entries => exact ⟨owner e, by simp⟩
  rw [hsum, mul_comm] at hle
  have := Nat.le_of_mul_le_mul_left hle hpos
  omega

/-! ## Runs of equal owners -/

/-- The neighbours of one owner and what they weigh, by number and by weight. -/
structure OwnerRun (ι : Type*) where
  owner : ι
  count : Nat
  weight : Nat

def runs : List α → List (OwnerRun ι)
  | [] => []
  | e :: entries =>
      match runs entries with
      | [] => [⟨owner e, 1, weight e⟩]
      | r :: more =>
          if r.owner = owner e then ⟨owner e, r.count + 1, r.weight + weight e⟩ :: more
          else ⟨owner e, 1, weight e⟩ :: r :: more

/-- The runs are the owners in ascending order, each with all that it holds. -/
structure IsRuns [LT ι] (entries : List α) (rs : List (OwnerRun ι)) : Prop where
  ascending : rs.Pairwise (fun r r' => r.owner < r'.owner)
  complete : ∀ e ∈ entries, ∃ r ∈ rs, r.owner = owner e
  sound : ∀ r ∈ rs, r.owner ∈ owners owner entries
  count_eq : ∀ r ∈ rs, r.count = held owner (fun _ => 1) entries r.owner
  weight_eq : ∀ r ∈ rs, r.weight = held owner weight entries r.owner

section Sorted

variable [LinearOrder ι]

variable {owner weight} in
/-- An entry of the first run's owner joins that run. -/
theorem IsRuns.join {e : α} {entries : List α} {r : OwnerRun ι} {more : List (OwnerRun ι)}
    (h : IsRuns owner weight entries (r :: more)) (he : r.owner = owner e) :
    IsRuns owner weight (e :: entries) (⟨owner e, r.count + 1, r.weight + weight e⟩ :: more) where
  ascending := by
    obtain ⟨hr, hmore⟩ := List.pairwise_cons.mp h.ascending
    exact List.pairwise_cons.mpr ⟨fun r' hr' => he ▸ hr r' hr', hmore⟩
  complete f hf := by
    rcases List.mem_cons.mp hf with rfl | hf
    · exact ⟨_, List.mem_cons_self, rfl⟩
    · obtain ⟨r', hr', howner⟩ := h.complete f hf
      rcases List.mem_cons.mp hr' with rfl | hr'
      · exact ⟨_, List.mem_cons_self, he ▸ howner⟩
      · exact ⟨r', List.mem_cons_of_mem _ hr', howner⟩
  sound r' hr' := by
    rcases List.mem_cons.mp hr' with rfl | hr'
    · simp
    · obtain ⟨f, hf, howner⟩ := (mem_owners owner).mp (h.sound r' (List.mem_cons_of_mem _ hr'))
      exact (mem_owners owner).mpr ⟨f, List.mem_cons_of_mem e hf, howner⟩
  count_eq r' hr' := by
    rcases List.mem_cons.mp hr' with rfl | hr'
    · have hr := h.count_eq r List.mem_cons_self
      rw [he] at hr
      simp only [held_cons, if_pos, hr, add_comm]
    · have hlt : r.owner < r'.owner := (List.pairwise_cons.mp h.ascending).1 r' hr'
      rw [held_cons, if_neg (he ▸ hlt.ne), zero_add]
      exact h.count_eq r' (List.mem_cons_of_mem _ hr')
  weight_eq r' hr' := by
    rcases List.mem_cons.mp hr' with rfl | hr'
    · have hr := h.weight_eq r List.mem_cons_self
      rw [he] at hr
      simp only [held_cons, if_pos, hr, add_comm]
    · have hlt : r.owner < r'.owner := (List.pairwise_cons.mp h.ascending).1 r' hr'
      rw [held_cons, if_neg (he ▸ hlt.ne), zero_add]
      exact h.weight_eq r' (List.mem_cons_of_mem _ hr')

variable {owner weight} in
/-- An entry of an owner before all the others makes a run of its own. -/
theorem IsRuns.start {e : α} {entries : List α} {rs : List (OwnerRun ι)}
    (h : IsRuns owner weight entries rs) (hlt : ∀ f ∈ entries, owner e < owner f) :
    IsRuns owner weight (e :: entries) (⟨owner e, 1, weight e⟩ :: rs) := by
  have hrun : ∀ r ∈ rs, owner e < r.owner := fun r hr => by
    obtain ⟨f, hf, howner⟩ := (mem_owners owner).mp (h.sound r hr)
    exact howner ▸ hlt f hf
  have hzero : ∀ w : α → Nat, held owner w entries (owner e) = 0 := fun w =>
    held_eq_zero owner w fun f hf => (hlt f hf).ne'
  constructor
  · exact List.pairwise_cons.mpr ⟨hrun, h.ascending⟩
  · intro f hf
    rcases List.mem_cons.mp hf with rfl | hf
    · exact ⟨_, List.mem_cons_self, rfl⟩
    · obtain ⟨r, hr, howner⟩ := h.complete f hf
      exact ⟨r, List.mem_cons_of_mem _ hr, howner⟩
  · intro r hr
    rcases List.mem_cons.mp hr with rfl | hr
    · simp
    · obtain ⟨f, hf, howner⟩ := (mem_owners owner).mp (h.sound r hr)
      exact (mem_owners owner).mpr ⟨f, List.mem_cons_of_mem e hf, howner⟩
  · intro r hr
    rcases List.mem_cons.mp hr with rfl | hr
    · rw [held_cons, if_pos rfl, hzero]
    · rw [held_cons, if_neg (hrun r hr).ne, zero_add]
      exact h.count_eq r hr
  · intro r hr
    rcases List.mem_cons.mp hr with rfl | hr
    · rw [held_cons, if_pos rfl, hzero, add_zero]
    · rw [held_cons, if_neg (hrun r hr).ne, zero_add]
      exact h.weight_eq r hr

theorem isRuns_runs {entries : List α}
    (h : entries.Pairwise (fun e f => owner e ≤ owner f)) :
    IsRuns owner weight entries (runs owner weight entries) := by
  induction entries with
  | nil => exact ⟨.nil, nofun, nofun, nofun, nofun⟩
  | cons e entries ih =>
      obtain ⟨hle, hrest⟩ := List.pairwise_cons.mp h
      have hruns := ih hrest
      unfold runs
      split
      next hnil =>
        rw [hnil] at hruns
        refine hruns.start fun f hf => ?_
        obtain ⟨r, hr, -⟩ := hruns.complete f hf
        cases hr
      next r more hcons =>
        rw [hcons] at hruns
        split_ifs with hr
        · exact hruns.join hr
        · refine hruns.start fun f hf => lt_of_le_of_ne (hle f hf) fun heq => ?_
          -- the first run is of the least owner, which is not smaller than `owner e`
          obtain ⟨g, hg, hgr⟩ := (mem_owners owner).mp (hruns.sound r List.mem_cons_self)
          obtain ⟨r', hr', howner⟩ := hruns.complete f hf
          rcases List.mem_cons.mp hr' with rfl | hr'
          · exact hr (howner.trans heq.symm)
          · have hlt := (List.pairwise_cons.mp hruns.ascending).1 r' hr'
            rw [howner, ← heq, ← hgr] at hlt
            exact absurd (hle g hg) (not_le.mpr hlt)

end Sorted

end BitcoinMachineCode.Foundation
