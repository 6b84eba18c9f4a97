import Mathlib.Data.Finset.Card
import Mathlib.Logic.Function.Basic
import Mathlib.Tactic

/-!
# Open addressing

A table of indices into an array, searched by linear probing.  Indices are only ever put in,
and the table keeps a free slot, so a search finds exactly what was put.
-/

namespace BitcoinMachineCode.Foundation

variable {κ : Type*} [DecidableEq κ] (home : κ → Nat) (m : Nat) (keyOf : Nat → κ)

/-- The search for a key from slot `i` on. -/
def probeFind (slots : Nat → Option Nat) (k : κ) : Nat → Nat → Option Nat
  | 0, _ => none
  | n + 1, i =>
      match slots i with
      | none => none
      | some v => if keyOf v = k then some v else probeFind slots k n ((i + 1) % m)

/-- An index goes into the first free slot from `i` on. -/
def probePut (slots : Nat → Option Nat) (v : Nat) : Nat → Nat → Nat → Option Nat
  | 0, _ => slots
  | n + 1, i =>
      match slots i with
      | none => Function.update slots i (some v)
      | some _ => probePut slots v n ((i + 1) % m)

/-- The indices below `count` are in the table, each within reach of its home. -/
structure Probed (slots : Nat → Option Nat) (count : Nat) : Prop where
  stored : ∀ v < count, ∃ d < m, slots ((home (keyOf v) + d) % m) = some v ∧
    ∀ e < d, slots ((home (keyOf v) + e) % m) ≠ none
  only : ∀ i v, slots i = some v → v < count
  card_le : ((Finset.range m).filter fun i => slots i ≠ none).card ≤ count
  key_inj : ∀ v < count, ∀ w < count, keyOf v = keyOf w → v = w

variable {home m keyOf} {slots : Nat → Option Nat} {count : Nat} {k : κ}

omit [DecidableEq κ] in
theorem probed_empty : Probed home m keyOf (fun _ => none) 0 :=
  ⟨nofun, nofun, by simp, nofun⟩

omit [DecidableEq κ] in
theorem Probed.congr {keyOf' : Nat → κ} (h : Probed home m keyOf slots count)
    (heq : ∀ v < count, keyOf' v = keyOf v) : Probed home m keyOf' slots count := by
  refine ⟨fun v hv => ?_, h.only, h.card_le, fun v hv w hw hvw => ?_⟩
  · rw [heq v hv]
    exact h.stored v hv
  · rw [heq v hv, heq w hw] at hvw
    exact h.key_inj v hv w hw hvw

theorem probeFind_of_stored {n d h v : Nat} (hd : d < n) (hslot : slots ((h + d) % m) = some v)
    (hkey : keyOf v = k) (hbefore : ∀ e < d, slots ((h + e) % m) ≠ none)
    (hunique : ∀ i w, slots i = some w → keyOf w = k → w = v) :
    probeFind m keyOf slots k n (h % m) = some v := by
  induction d generalizing n h with
  | zero =>
      obtain ⟨n, rfl⟩ := Nat.exists_eq_add_one_of_ne_zero (Nat.ne_of_gt hd)
      rw [Nat.add_zero] at hslot
      rw [probeFind, hslot]
      exact if_pos hkey
  | succ d ih =>
      obtain ⟨n, rfl⟩ := Nat.exists_eq_add_one_of_ne_zero (Nat.ne_of_gt (Nat.zero_lt_of_lt hd))
      obtain ⟨w, hw⟩ := Option.ne_none_iff_exists'.mp (hbefore 0 (Nat.zero_lt_succ d))
      rw [Nat.add_zero] at hw
      rw [probeFind, hw]
      dsimp only
      split
      · next hkw => rw [hunique _ w hw hkw]
      · rw [Nat.mod_add_mod]
        refine ih (by omega) ?_ fun e he => ?_
        · rw [Nat.add_assoc, Nat.add_comm 1 d]
          exact hslot
        · rw [Nat.add_assoc, Nat.add_comm 1 e]
          exact hbefore (e + 1) (by omega)

theorem probeFind_eq_some {n i v : Nat} (h : probeFind m keyOf slots k n i = some v) :
    keyOf v = k ∧ ∃ j, slots j = some v := by
  induction n generalizing i with
  | zero => cases h
  | succ n ih =>
      rw [probeFind] at h
      split at h
      · cases h
      next w hw =>
      split at h
      · next hkey =>
          obtain rfl := Option.some.inj h
          exact ⟨hkey, i, hw⟩
      · exact ih h

/-- A search finds what was put. -/
theorem Probed.find_eq_some_iff (h : Probed home m keyOf slots count) {v : Nat} :
    probeFind m keyOf slots k m (home k % m) = some v ↔ v < count ∧ keyOf v = k := by
  constructor
  · intro hfind
    obtain ⟨hkey, j, hj⟩ := probeFind_eq_some hfind
    exact ⟨h.only j v hj, hkey⟩
  · rintro ⟨hv, rfl⟩
    obtain ⟨d, hd, hslot, hbefore⟩ := h.stored v hv
    exact probeFind_of_stored hd hslot rfl hbefore fun i w hw hkey =>
      h.key_inj w (h.only i w hw) v hv hkey

omit [DecidableEq κ] in
theorem Probed.exists_free (h : Probed home m keyOf slots count) (hroom : count < m) (start : Nat) :
    ∃ d < m, slots ((start + d) % m) = none := by
  have hcard : ((Finset.range m).filter fun i => slots i ≠ none).card < (Finset.range m).card := by
    rw [Finset.card_range]
    exact h.card_le.trans_lt hroom
  obtain ⟨i, hi, hout⟩ := Finset.exists_mem_notMem_of_card_lt_card hcard
  rw [Finset.mem_range] at hi
  have hfree : slots i = none := by
    by_contra hne
    exact hout (Finset.mem_filter.mpr ⟨Finset.mem_range.mpr hi, hne⟩)
  refine ⟨(i + m - start % m) % m, Nat.mod_lt _ (by omega), ?_⟩
  have hlt := Nat.mod_lt start (show 0 < m by omega)
  have hmod : (start + (i + m - start % m) % m) % m = i := by
    rw [Nat.add_mod_mod, ← Nat.mod_add_mod, show start % m + (i + m - start % m) = i + m by omega,
      Nat.add_mod_right, Nat.mod_eq_of_lt hi]
  rw [hmod]
  exact hfree

theorem probePut_eq {n d h v : Nat} (hd : d < n) (hfree : slots ((h + d) % m) = none)
    (hbefore : ∀ e < d, slots ((h + e) % m) ≠ none) :
    probePut m slots v n (h % m) = Function.update slots ((h + d) % m) (some v) := by
  induction d generalizing n h with
  | zero =>
      obtain ⟨n, rfl⟩ := Nat.exists_eq_add_one_of_ne_zero (Nat.ne_of_gt hd)
      rw [Nat.add_zero] at hfree
      rw [probePut, hfree]
      rfl
  | succ d ih =>
      obtain ⟨n, rfl⟩ := Nat.exists_eq_add_one_of_ne_zero (Nat.ne_of_gt (Nat.zero_lt_of_lt hd))
      obtain ⟨w, hw⟩ := Option.ne_none_iff_exists'.mp (hbefore 0 (Nat.zero_lt_succ d))
      rw [Nat.add_zero] at hw
      have hstep : ∀ e, h + 1 + e = h + (e + 1) := fun e => by omega
      rw [probePut, hw]
      dsimp only
      rw [Nat.mod_add_mod, ih (by omega) (by rw [hstep]; exact hfree)
        fun e he => by rw [hstep]; exact hbefore (e + 1) (by omega), hstep]

omit [DecidableEq κ] in
/-- The next index goes in under a key that is not there. -/
theorem Probed.put (h : Probed home m keyOf slots count) (hroom : count < m)
    (hnew : ∀ v < count, keyOf v ≠ keyOf count) :
    Probed home m keyOf (probePut m slots count m (home (keyOf count) % m)) (count + 1) := by
  classical
  obtain hex := h.exists_free hroom (home (keyOf count))
  obtain ⟨hd, hfree⟩ := Nat.find_spec hex
  have hbefore : ∀ e < Nat.find hex, slots ((home (keyOf count) + e) % m) ≠ none := fun e he hnone =>
    Nat.find_min hex he ⟨he.trans hd, hnone⟩
  rw [probePut_eq hd hfree hbefore]
  generalize Nat.find hex = d at hd hfree hbefore
  generalize hi : (home (keyOf count) + d) % m = i at hfree
  have hkeep : ∀ j w, slots j = some w → Function.update slots i (some count) j = some w := by
    intro j w hj
    rw [Function.update_of_ne (fun hji => by rw [hji, hfree] at hj; cases hj)]
    exact hj
  have hocc : ∀ j, slots j ≠ none → Function.update slots i (some count) j ≠ none := by
    intro j hj
    obtain ⟨w, hw⟩ := Option.ne_none_iff_exists'.mp hj
    rw [hkeep j w hw]
    exact Option.some_ne_none w
  refine ⟨fun v hv => ?_, fun j v hj => ?_, ?_, fun v hv w hw hvw => ?_⟩
  · rcases Nat.lt_succ_iff_lt_or_eq.mp hv with hlt | rfl
    · obtain ⟨d', hd', hslot, hbefore'⟩ := h.stored v hlt
      exact ⟨d', hd', hkeep _ v hslot, fun e he => hocc _ (hbefore' e he)⟩
    · exact ⟨d, hd, by rw [hi, Function.update_self], fun e he => hocc _ (hbefore e he)⟩
  · by_cases hji : j = i
    · rw [hji, Function.update_self] at hj
      obtain rfl := Option.some.inj hj
      exact Nat.lt_succ_self _
    · rw [Function.update_of_ne hji] at hj
      exact (h.only j v hj).trans (Nat.lt_succ_self _)
  · have hsub : ((Finset.range m).filter fun j => Function.update slots i (some count) j ≠ none) ⊆
        insert i ((Finset.range m).filter fun j => slots j ≠ none) := by
      intro j hj
      rw [Finset.mem_filter] at hj
      by_cases hji : j = i
      · exact Finset.mem_insert.mpr (.inl hji)
      · rw [Function.update_of_ne hji] at hj
        exact Finset.mem_insert_of_mem (Finset.mem_filter.mpr hj)
    calc _ ≤ _ := Finset.card_le_card hsub
      _ ≤ _ := Finset.card_insert_le _ _
      _ ≤ count + 1 := Nat.succ_le_succ h.card_le
  · rcases Nat.lt_succ_iff_lt_or_eq.mp hv with hv' | rfl
    · rcases Nat.lt_succ_iff_lt_or_eq.mp hw with hw' | rfl
      · exact h.key_inj v hv' w hw' hvw
      · exact absurd hvw (hnew v hv')
    · rcases Nat.lt_succ_iff_lt_or_eq.mp hw with hw' | rfl
      · exact absurd hvw.symm (hnew w hw')
      · rfl

end BitcoinMachineCode.Foundation
