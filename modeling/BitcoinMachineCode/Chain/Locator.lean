import Mathlib
import BitcoinMachineCode.Chain.Chainwork

/-!
# The block locator

`locator_build` from `daemon/locator_build.c` and `reorg_build_locator` from
`daemon/reorg.c`: the hashes of the tip, of the two blocks below it and of
blocks twice as deep each, and the heights of the same walk.  The second walk
always agrees with the first.  A fork is met by the first entry at or below it,
at most twice as deep, exactly when it is no more than `2 ^ 30` blocks deep:
the 32 entries do not reach genesis from a higher tip.
-/

namespace BitcoinMachineCode.Chain

open BitcoinMachineCode.Foundation

def locatorMax : Nat := 32

/-- The gap of the next entry, after one more step was counted. -/
def nextStep (step transitions : Nat) : Nat :=
  if 2 ≤ transitions + 1 then step * 2 else step

/-- The loop of `locator_build` with what is left of `LOCATOR_MAX`.  `read`
gives the hash in the index record of a height, if there is one. -/
def locatorWalk (read : Nat → Option (Bytes 32)) :
    Nat → Nat → Nat → Nat → Option (List (Bytes 32))
  | 0, _, _, _ => some []
  | room + 1, height, step, transitions =>
      match read height with
      | none => none
      | some hash =>
          if height = 0 then some [hash]
          else
            (locatorWalk read room (height - step) (nextStep step transitions)
              (transitions + 1)).map (hash :: ·)

def locatorBuild (read : Nat → Option (Bytes 32)) (tip : Int) :
    Option (List (Bytes 32)) :=
  if tip < 0 then some [] else locatorWalk read locatorMax tip.toNat 1 0

/-- The heights of `reorg_build_locator`, for as many entries as there are hashes. -/
def heightWalk : Nat → Nat → Nat → Nat → List Nat
  | 0, _, _, _ => []
  | room + 1, height, step, transitions =>
      height :: if height = 0 then []
        else heightWalk room (height - step) (nextStep step transitions) (transitions + 1)

/-- The hashes with their heights, or an error: a record that cannot be read, a
walk of another length, or an entry that is not the hash at its height. -/
def reorgBuildLocator (read : Nat → Option (Bytes 32)) (tip : Int) :
    Option (List (Bytes 32 × Nat)) :=
  match locatorBuild read tip with
  | none => none
  | some loc =>
      if loc.length = 0 then some []
      else
        let heights := heightWalk loc.length tip.toNat 1 0
        if heights.length ≠ loc.length then none
        else if (loc.zip heights).all fun p => read p.2 = some p.1 then
          some (loc.zip heights)
        else none

/-! ## The two walks -/

theorem locatorWalk_eq_some {read : Nat → Option (Bytes 32)} {room height step t : Nat}
    {loc : List (Bytes 32)} (h : locatorWalk read room height step t = some loc) :
    List.Forall₂ (fun hash k => read k = some hash) loc (heightWalk room height step t) := by
  induction room generalizing height step t loc with
  | zero =>
      obtain rfl := Option.some.inj h
      exact .nil
  | succ room ih =>
      unfold locatorWalk at h
      unfold heightWalk
      cases hread : read height with
      | none =>
          rw [hread] at h
          cases h
      | some hash =>
          rw [hread] at h
          dsimp only at h
          split_ifs at h ⊢ with hzero
          · obtain rfl := Option.some.inj h
            exact .cons hread .nil
          · obtain ⟨rest, hrest, rfl⟩ := Option.map_eq_some_iff.mp h
            exact .cons hread (ih hrest)

theorem locatorWalk_isSome {read : Nat → Option (Bytes 32)} {room height step t : Nat}
    (h : ∀ k ≤ height, (read k).isSome) :
    (locatorWalk read room height step t).isSome := by
  induction room generalizing height step t with
  | zero => rfl
  | succ room ih =>
      obtain ⟨hash, hhash⟩ := Option.isSome_iff_exists.mp (h height (Nat.le_refl _))
      unfold locatorWalk
      rw [hhash]
      dsimp only
      split_ifs
      · rfl
      · rw [Option.isSome_map]
        exact ih fun k hk => h k (by omega)

theorem heightWalk_succ (room height step t : Nat) :
    heightWalk (room + 1) height step t =
      height :: if height = 0 then []
        else heightWalk room (height - step) (nextStep step t) (t + 1) := rfl

theorem heightWalk_length (room height step t : Nat) :
    heightWalk (heightWalk room height step t).length height step t =
      heightWalk room height step t := by
  induction room generalizing height step t with
  | zero => rfl
  | succ room ih =>
      rw [heightWalk_succ, List.length_cons, heightWalk_succ]
      split_ifs
      · rfl
      · rw [ih]

theorem locatorBuild_eq_some {read : Nat → Option (Bytes 32)} {tip : Int} {loc : List (Bytes 32)}
    (h : locatorBuild read tip = some loc) (hne : loc.length ≠ 0) :
    List.Forall₂ (fun hash k => read k = some hash) loc (heightWalk locatorMax tip.toNat 1 0) ∧
      heightWalk loc.length tip.toNat 1 0 = heightWalk locatorMax tip.toNat 1 0 := by
  unfold locatorBuild at h
  split_ifs at h with hneg
  · obtain rfl := Option.some.inj h
    exact absurd rfl hne
  · have hreads := locatorWalk_eq_some h
    refine ⟨hreads, ?_⟩
    rw [hreads.length_eq, heightWalk_length]

/-- The walk over the heights never disagrees with the hashes. -/
theorem reorgBuildLocator_eq (read : Nat → Option (Bytes 32)) (tip : Int) :
    reorgBuildLocator read tip =
      (locatorBuild read tip).map (·.zip (heightWalk locatorMax tip.toNat 1 0)) := by
  unfold reorgBuildLocator
  cases hloc : locatorBuild read tip with
  | none => rfl
  | some loc =>
      dsimp only
      rw [Option.map_some]
      by_cases hnil : loc.length = 0
      · rw [if_pos hnil, List.eq_nil_of_length_eq_zero hnil]
        rfl
      obtain ⟨hreads, hsame⟩ := locatorBuild_eq_some hloc hnil
      have hall : ((loc.zip (heightWalk locatorMax tip.toNat 1 0)).all
          fun p => read p.2 = some p.1) = true := by
        rw [List.all_eq_true]
        intro p hp
        exact decide_eq_true ((List.forall₂_iff_zip.mp hreads).2 hp)
      rw [if_neg hnil, hsame, if_neg (not_not.mpr hreads.length_eq.symm), if_pos hall]

/-! ## The heights -/

theorem heightWalk_falls {room height step t : Nat} (hstep : 0 < step) :
    (∀ h ∈ heightWalk room height step t, h ≤ height) ∧
      (heightWalk room height step t).Pairwise (· > ·) := by
  induction room generalizing height step t with
  | zero => exact ⟨List.forall_mem_nil _, .nil⟩
  | succ room ih =>
      unfold heightWalk
      split_ifs with hzero
      · simp
      · have hnext : 0 < nextStep step t := by
          unfold nextStep
          split_ifs <;> omega
        obtain ⟨hle, hfall⟩ := @ih (height - step) _ (t + 1) hnext
        refine ⟨List.forall_mem_cons.mpr ⟨Nat.le_refl _, fun h hh => ?_⟩,
          List.pairwise_cons.mpr ⟨fun h hh => ?_, hfall⟩⟩
        · have := hle h hh
          omega
        · have := hle h hh
          omega

theorem length_heightWalk_le (room height step t : Nat) :
    (heightWalk room height step t).length ≤ room := by
  induction room generalizing height step t with
  | zero => exact Nat.le_refl _
  | succ room ih =>
      unfold heightWalk
      rw [List.length_cons]
      split_ifs
      · exact Nat.succ_le_succ (Nat.zero_le _)
      · exact Nat.succ_le_succ (ih _ _ _)

/-- How far below the tip an entry is. -/
def entryDepth (i : Nat) : Nat := if i = 0 then 0 else 2 ^ (i - 1)

theorem entryDepth_succ (i : Nat) : entryDepth (i + 1) = entryDepth i + 2 ^ (i - 1) := by
  unfold entryDepth
  cases i with
  | zero => rfl
  | succ i =>
      simp only [Nat.add_eq_zero_iff, Nat.one_ne_zero, and_false, if_false, Nat.add_sub_cancel,
        Nat.pow_succ]
      omega

theorem entryDepth_le {i : Nat} (h : i < locatorMax) : entryDepth i ≤ 2 ^ 30 := by
  unfold locatorMax at h
  unfold entryDepth
  split_ifs
  · exact Nat.zero_le _
  · exact Nat.pow_le_pow_right (by decide) (by omega)

theorem entryDepth_succ_le (i : Nat) : entryDepth (i + 1) ≤ 2 * entryDepth i + 1 := by
  unfold entryDepth
  cases i with
  | zero => decide
  | succ i =>
      simp only [Nat.add_eq_zero_iff, Nat.one_ne_zero, and_false, if_false, Nat.add_sub_cancel,
        Nat.pow_succ]
      omega

/-- The walk from its entry `i` on. -/
theorem heightWalk_entry (room tip i : Nat) :
    heightWalk (room + 1) (tip - entryDepth i) (2 ^ (i - 1)) i =
      (tip - entryDepth i) :: if tip ≤ entryDepth i then []
        else heightWalk room (tip - entryDepth (i + 1)) (2 ^ i) (i + 1) := by
  have hstep : nextStep (2 ^ (i - 1)) i = 2 ^ i := by
    unfold nextStep
    cases i with
    | zero => rfl
    | succ i => rw [if_pos (by omega), Nat.add_sub_cancel, Nat.pow_succ]
  rw [heightWalk, hstep, Nat.sub_sub, ← entryDepth_succ]
  simp only [Nat.sub_eq_zero_iff_le]

variable {tip fork : Nat}

/-- Entry `i` and those after it, when the entries before it are above the fork. -/
theorem heightWalk_find {room i : Nat} (hdepth : tip - fork ≤ 2 ^ 30)
    (hroom : i + room = locatorMax)
    (hbefore : ∀ j, i = j + 1 → entryDepth j < tip - fork) :
    ∃ h, (heightWalk room (tip - entryDepth i) (2 ^ (i - 1)) i).find? (· ≤ fork) = some h ∧
      tip - h ≤ 2 * (tip - fork) := by
  induction room generalizing i with
  | zero =>
      have hlast : entryDepth 31 = 2 ^ 30 := rfl
      have := hbefore 31 hroom
      omega
  | succ room ih =>
      rw [heightWalk_entry, List.find?_cons]
      by_cases hle : tip - entryDepth i ≤ fork
      · rw [decide_eq_true hle]
        refine ⟨_, rfl, ?_⟩
        cases i with
        | zero =>
            change tip - (tip - 0) ≤ _
            omega
        | succ j =>
            have hlt := hbefore j rfl
            have htwice := entryDepth_succ_le j
            omega
      · rw [decide_eq_false hle, if_neg (by omega)]
        refine ih (i := i + 1) (by omega) fun j hj => ?_
        obtain rfl : i = j := by omega
        omega

theorem heightWalk_above {room i : Nat} (hdepth : 2 ^ 30 < tip - fork)
    (hroom : i + room ≤ locatorMax) :
    ∀ h ∈ heightWalk room (tip - entryDepth i) (2 ^ (i - 1)) i, fork < h := by
  induction room generalizing i with
  | zero => exact List.forall_mem_nil _
  | succ room ih =>
      have hle : entryDepth i ≤ 2 ^ 30 := entryDepth_le (by omega)
      rw [heightWalk_entry, if_neg (by omega), List.forall_mem_cons]
      exact ⟨by omega, ih (i := i + 1) (by omega)⟩

/-! ## The locator of an archive -/

/-- The locator of every archive can be built and falls from the tip.  The
first entry at or below a fork is at most twice as deep as the fork, and there
is one exactly when the fork is at most `2 ^ 30` blocks deep. -/
theorem locator_meets_fork (a : Archive) :
    ∃ loc, reorgBuildLocator a.ourHashAt ((a.blocks.length : Int) - 1) = some loc ∧
      loc.length ≤ locatorMax ∧ (∀ p ∈ loc, a.ourHashAt p.2 = some p.1) ∧
      (loc.map Prod.snd).Pairwise (· > ·) ∧
      ∀ fork < a.blocks.length,
        ((∃ p ∈ loc, p.2 ≤ fork) ↔ a.blocks.length - 1 - fork ≤ 2 ^ 30) ∧
        ∀ p, loc.find? (·.2 ≤ fork) = some p →
          a.blocks.length - 1 - p.2 ≤ 2 * (a.blocks.length - 1 - fork) := by
  have hall : ∀ k < a.blocks.length, (a.ourHashAt k).isSome := by
    intro k hk
    simp [Archive.ourHashAt, hk]
  rcases Nat.eq_zero_or_pos a.blocks.length with hnil | hpos
  · refine ⟨[], ?_, Nat.zero_le _, List.forall_mem_nil _, .nil, fun fork hfork => ?_⟩
    · rw [hnil]
      rfl
    · omega
  obtain ⟨tip, htip⟩ : ∃ tip, a.blocks.length = tip + 1 := ⟨_, (Nat.succ_pred_eq_of_pos hpos).symm⟩
  have hint : ((a.blocks.length : Int) - 1) = (tip : Int) := by omega
  have hwalk : locatorBuild a.ourHashAt (tip : Int) = locatorWalk a.ourHashAt locatorMax tip 1 0 :=
    if_neg (by omega)
  obtain ⟨hashes, hhashes⟩ := Option.isSome_iff_exists.mp
    (@locatorWalk_isSome a.ourHashAt locatorMax tip 1 0 fun k hk => hall k (by omega))
  have hreads := locatorWalk_eq_some hhashes
  have hsnd : (hashes.zip (heightWalk locatorMax tip 1 0)).map Prod.snd =
      heightWalk locatorMax tip 1 0 := List.map_snd_zip hreads.length_eq.ge
  refine ⟨hashes.zip (heightWalk locatorMax tip 1 0), ?_, ?_, ?_, ?_, fun fork hfork => ?_⟩
  · rw [hint, reorgBuildLocator_eq, hwalk, hhashes]
    rfl
  · rw [List.length_zip, hreads.length_eq, Nat.min_self]
    exact length_heightWalk_le _ _ _ _
  · exact fun p hp => (List.forall₂_iff_zip.mp hreads).2 hp
  · rw [hsnd]
    exact (heightWalk_falls Nat.one_pos).2
  · have hfind : (heightWalk locatorMax tip 1 0).find? (· ≤ fork) =
        ((hashes.zip (heightWalk locatorMax tip 1 0)).find? (·.2 ≤ fork)).map Prod.snd := by
      conv_lhs => rw [← hsnd, List.find?_map]
      rfl
    have hmem : (∃ p ∈ hashes.zip (heightWalk locatorMax tip 1 0), p.2 ≤ fork) ↔
        ∃ h ∈ heightWalk locatorMax tip 1 0, h ≤ fork := by
      conv_rhs => rw [← hsnd]
      simp only [List.mem_map, exists_exists_and_eq_and]
    rw [htip, Nat.add_sub_cancel, hmem]
    by_cases hdepth : tip - fork ≤ 2 ^ 30
    · have hfound : ∃ h, (heightWalk locatorMax tip 1 0).find? (· ≤ fork) = some h ∧
          tip - h ≤ 2 * (tip - fork) :=
        heightWalk_find (i := 0) hdepth (Nat.zero_add _) fun j hj => absurd hj (Nat.succ_ne_zero j).symm
      obtain ⟨h, hh, htwice⟩ := hfound
      have hle : h ≤ fork := by simpa using List.find?_some hh
      refine ⟨iff_of_true ⟨h, List.mem_of_find?_eq_some hh, hle⟩ hdepth, fun p hp => ?_⟩
      rw [hh, hp, Option.map_some, Option.some.injEq] at hfind
      rw [← hfind]
      exact htwice
    · have habove : ∀ h ∈ heightWalk locatorMax tip 1 0, fork < h :=
        heightWalk_above (i := 0) (by omega) (Nat.zero_add _).le
      refine ⟨iff_of_false ?_ hdepth, fun p hp => ?_⟩
      · rintro ⟨h, hmem, hle⟩
        exact absurd hle (Nat.not_le.mpr (habove h hmem))
      · have hin : p.2 ∈ heightWalk locatorMax tip 1 0 := by
          rw [← hsnd]
          exact List.mem_map_of_mem (List.mem_of_find?_eq_some hp)
        have := habove p.2 hin
        omega

end BitcoinMachineCode.Chain
