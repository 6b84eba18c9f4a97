import BitcoinMachineCode.Foundation.SubsetSearch

/-!
# Branch-and-bound coin selection

`wallet_bnb_select` of `wallet_bnb.c` looks for coins whose effective values sum to a window
above the target, and among those for the least waste.  It walks the subsets depth first,
inclusion before exclusion, and gives up after `WBNB_TOTAL_TRIES` rounds.  The null pointer
checks are left out.
-/

namespace BitcoinMachineCode.Wallet

open Foundation.SubsetSearch

def wbnbTotalTries : Nat := 100000

def wbnbMaxCoins : Nat := 128

/-- The arguments, with the coins already cut to `WBNB_MAX_COINS`. -/
structure BnbCoins where
  eff : List Nat
  /-- none for the null pointer -/
  feeDelta : Option (List Int)
  target : Nat
  costOfChange : Nat

/-- In 64 bits. -/
def wrapSigned (x : Int) : Int := x.bmod (2 ^ 64)

def subWrap (x y : Nat) : Nat := (x + 2 ^ 64 - y) % 2 ^ 64

namespace BnbCoins

def effAt (p : BnbCoins) (k : Nat) : Nat := p.eff.getD k 0

def feeAt (p : BnbCoins) (k : Nat) : Int :=
  match p.feeDelta with
  | none => 0
  | some fees => fees.getD k 0

end BnbCoins

/-- The locals of the loop; `cur` has the latest inclusion first. -/
structure Bnb where
  cur : List Nat
  best : List Nat
  bestWaste : Nat
  sum : Nat
  feeSum : Int
  remaining : Nat
  i : Nat

/-- Undo the last inclusion and take its exclusion branch; true for the end of the loop. -/
def Bnb.backtrack (p : BnbCoins) (s : Bnb) : Bnb × Bool :=
  match s.cur with
  | [] => (s, true)
  | j :: cur =>
      ({ s with
          cur := cur, sum := subWrap s.sum (p.effAt j), feeSum := wrapSigned (s.feeSum - p.feeAt j)
          remaining := (p.eff.drop (j + 1)).sum % 2 ^ 64, i := j + 1 }, false)

/-- The excess with the fee differences, a negative one as zero. -/
def Bnb.waste (p : BnbCoins) (s : Bnb) : Nat :=
  (wrapSigned (wrapSigned (subWrap s.sum p.target) + s.feeSum)).toNat

def Bnb.note (p : BnbCoins) (s : Bnb) : Bnb := { s with best := s.cur, bestWaste := s.waste p }

def Bnb.found (p : BnbCoins) (s : Bnb) : Bnb × Bool :=
  if s.waste p < s.bestWaste then
    if s.waste p = 0 then (s.note p, true) else (s.note p).backtrack p
  else s.backtrack p

def Bnb.include (p : BnbCoins) (s : Bnb) : Bnb :=
  { s with
    cur := s.i :: s.cur, sum := (s.sum + p.effAt s.i) % 2 ^ 64
    feeSum := wrapSigned (s.feeSum + p.feeAt s.i)
    remaining := subWrap s.remaining (p.effAt s.i), i := s.i + 1 }

/-- One round of the loop. -/
def Bnb.round (p : BnbCoins) (s : Bnb) : Bnb × Bool :=
  if (p.target + p.costOfChange) % 2 ^ 64 < s.sum then s.backtrack p
  else if p.target ≤ s.sum then s.found p
  else if (s.sum + s.remaining) % 2 ^ 64 < p.target then s.backtrack p
  else if p.eff.length ≤ s.i then s.backtrack p
  else (s.include p, false)

/-- The loop; true when the tries are used up. -/
def Bnb.loop (p : BnbCoins) : Nat → Bnb → Bnb × Bool
  | 0, s => (s, true)
  | k + 1, s => if (s.round p).2 then ((s.round p).1, false) else Bnb.loop p k (s.round p).1

def BnbCoins.start (p : BnbCoins) : Bnb :=
  { cur := [], best := [], bestWaste := 2 ^ 64 - 1, sum := 0, feeSum := 0
    remaining := p.eff.sum % 2 ^ 64, i := 0 }

def BnbCoins.search (p : BnbCoins) : Bnb × Bool := Bnb.loop p wbnbTotalTries p.start

def descending : List Nat → Bool
  | x :: y :: rest => decide (y ≤ x) && descending (y :: rest)
  | _ => true

/-- The result and what is left in `pick`. -/
def BnbCoins.select (p : BnbCoins) (pickcap : Nat) : Int × List Nat :=
  if descending p.eff = false then (-1, [])
  else if p.eff.sum % 2 ^ 64 < p.target then (0, [])
  else
    let s := p.search.1
    if s.best = [] ∨ s.bestWaste = 2 ^ 64 - 1 then (0, [])
    else (s.best.length, s.best.reverse.take pickcap)

def bnbCoins (eff : List Nat) (feeDelta : Option (List Int)) (target costOfChange : Nat) : BnbCoins :=
  ⟨eff.take wbnbMaxCoins, feeDelta, target, costOfChange⟩

def walletBnbSelect (eff : List Nat) (feeDelta : Option (List Int)) (target costOfChange pickcap : Nat) :
    Int × List Nat :=
  (bnbCoins eff feeDelta target costOfChange).select pickcap

/-! ## Selections -/

namespace BnbCoins

variable (p : BnbCoins)

def total (S : Finset Nat) : Nat := ∑ k ∈ S, p.effAt k

def fees (S : Finset Nat) : Int := ∑ k ∈ S, p.feeAt k

/-- The coins `S` sum to the window. -/
structure InWindow (S : Finset Nat) : Prop where
  subset : S ⊆ Finset.range p.eff.length
  target_le : p.target ≤ p.total S
  le_top : p.total S ≤ p.target + p.costOfChange

def wasteOf (S : Finset Nat) : Int := (p.total S : Int) - p.target + p.fees S

/-- Without its last coin the selection does not reach the target. -/
def LastNeeded (S : Finset Nat) : Prop :=
  ∀ m ∈ S, (∀ x ∈ S, x ≤ m) → p.total (S.erase m) < p.target

/-- What the caller promises, and that no selection weighed has a waste out of 63 bits. -/
structure Fits : Prop where
  total_lt : p.eff.sum + p.target + p.costOfChange < 2 ^ 64
  fee_nonneg : ∀ k, 0 ≤ p.feeAt k
  target_pos : 0 < p.target
  waste_lt : ∀ S, p.InWindow S → p.LastNeeded S → p.wasteOf S < 2 ^ 63

theorem total_range : p.total (Finset.range p.eff.length) = p.eff.sum := by
  have := sum_drop p.eff (Nat.zero_le _)
  rw [List.drop_zero, ← Finset.range_eq_Ico] at this
  exact this.symm

theorem total_le {S : Finset Nat} (hS : S ⊆ Finset.range p.eff.length) : p.total S ≤ p.eff.sum := by
  rw [← p.total_range]
  exact Finset.sum_le_sum_of_subset hS

theorem wasteOf_mono {S T : Finset Nat} (hfee : ∀ k, 0 ≤ p.feeAt k) (hST : S ⊆ T) :
    p.wasteOf S ≤ p.wasteOf T := by
  have htotal : p.total S ≤ p.total T := Finset.sum_le_sum_of_subset hST
  have hfees : p.fees S ≤ p.fees T :=
    Finset.sum_le_sum_of_subset_of_nonneg hST fun k _ _ => hfee k
  unfold wasteOf
  omega

end BnbCoins

theorem wrapSigned_of_range {x : Int} (h0 : 0 ≤ x) (h : x < 2 ^ 63) : wrapSigned x = x := by
  apply Int.bmod_eq_of_le <;> omega

/-! ## What the search keeps -/

/-- Every earlier stack stood below the target. -/
def Below (p : BnbCoins) : List Nat → Prop
  | [] => True
  | _ :: rest => p.total rest.toFinset < p.target ∧ Below p rest

def Bnb.Beats (p : BnbCoins) (s : Bnb) (S : Finset Nat) : Prop :=
  s.best ≠ [] ∧ (s.bestWaste : Int) ≤ p.wasteOf S

/-- The running values belong to the stack. -/
structure Bnb.Tracks (p : BnbCoins) (s : Bnb) : Prop where
  stacked : Stacked s.cur s.i
  i_le : s.i ≤ p.eff.length
  sum_eq : s.sum = p.total s.cur.toFinset
  fee_eq : s.feeSum = wrapSigned (p.fees s.cur.toFinset)
  remaining_eq : s.remaining = (p.eff.drop s.i).sum
  below : Below p s.cur

/-- The best so far is in the window with the waste noted for it. -/
def Bnb.BestNoted (p : BnbCoins) (s : Bnb) : Prop :=
  s.best = [] ∧ s.bestWaste = 2 ^ 64 - 1 ∨
    s.best.Nodup ∧ p.InWindow s.best.toFinset ∧ (s.bestWaste : Int) = p.wasteOf s.best.toFinset ∧
      s.bestWaste < 2 ^ 63

structure Bnb.Sound (p : BnbCoins) (s : Bnb) : Prop where
  tracks : s.Tracks p
  noted : s.BestNoted p
  covered : ∀ S, p.InWindow S → ¬ Pending s.cur s.i S → s.Beats p S

/-- What holds when the loop is left. -/
structure Bnb.Done (p : BnbCoins) (s : Bnb) : Prop where
  noted : s.BestNoted p
  beats : ∀ S, p.InWindow S → s.Beats p S

/-- After a round: on, or done. -/
def Kept (p : BnbCoins) (r : Bnb × Bool) : Prop :=
  if r.2 then r.1.Done p else r.1.Sound p

section Rounds

variable {p : BnbCoins} {s : Bnb}

theorem Bnb.Tracks.subset (h : s.Tracks p) : s.cur.toFinset ⊆ Finset.range p.eff.length := by
  intro x hx
  have := h.stacked.lt (List.mem_toFinset.mp hx)
  have := h.i_le
  exact Finset.mem_range.mpr (by omega)

theorem start_sound (hp : p.Fits) : p.start.Sound p := by
  have := hp.total_lt
  refine ⟨⟨trivial, Nat.zero_le _, rfl, rfl, ?_, trivial⟩, .inl ⟨rfl, rfl⟩, ?_⟩
  · exact Nat.mod_eq_of_lt (by omega)
  · intro S _ hnot
    exact absurd (pending_start S) hnot

theorem total_cons {j i : Nat} {cur : List Nat} (h : Stacked (j :: cur) i) :
    p.total (j :: cur).toFinset = p.effAt j + p.total cur.toFinset := by
  have hj : j ∉ cur.toFinset := fun hj => (h.2.lt (List.mem_toFinset.mp hj)).false
  rw [BnbCoins.total, List.toFinset_cons, Finset.sum_insert hj, BnbCoins.total]

theorem fees_cons {j i : Nat} {cur : List Nat} (h : Stacked (j :: cur) i) :
    p.fees (j :: cur).toFinset = p.feeAt j + p.fees cur.toFinset := by
  have hj : j ∉ cur.toFinset := fun hj => (h.2.lt (List.mem_toFinset.mp hj)).false
  rw [BnbCoins.fees, List.toFinset_cons, Finset.sum_insert hj, BnbCoins.fees]

theorem subWrap_of_le {x y : Nat} (h : y ≤ x) (hx : x < 2 ^ 64) : subWrap x y = x - y := by
  unfold subWrap
  omega

/-- The running values after the last inclusion is undone. -/
theorem tracks_backtrack (hp : p.Fits) (ht : s.Tracks p) {j : Nat} {cur : List Nat}
    (hcur : s.cur = j :: cur) : (s.backtrack p).1.Tracks p := by
  have hst := ht.stacked
  have hle := p.total_le ht.subset
  have hlt := hp.total_lt
  have hi := ht.i_le
  have hbelow := ht.below
  have hdrop : (p.eff.drop (j + 1)).sum ≤ p.eff.sum :=
    (List.drop_sublist (j + 1) p.eff).sum_le_sum fun _ _ => Nat.zero_le _
  rw [hcur] at hst hle hbelow
  have hsum := ht.sum_eq
  have hfee := ht.fee_eq
  rw [hcur, total_cons hst] at hsum
  rw [hcur, fees_cons hst] at hfee
  rw [total_cons hst] at hle
  simp only [Bnb.backtrack, hcur]
  refine ⟨hst.2.mono (Nat.le_succ j), hst.1.trans_le hi, ?_, ?_, ?_, hbelow.2⟩
  · dsimp only
    rw [subWrap_of_le (by omega) (by omega)]
    omega
  · dsimp only
    rw [hfee, wrapSigned, wrapSigned, Int.bmod_sub_bmod, add_sub_cancel_left, wrapSigned]
  · exact Nat.mod_eq_of_lt (by omega)

/-- Going back is right when nothing that agrees with the stack can still be better. -/
theorem kept_backtrack (hp : p.Fits) (h : s.Sound p)
    (hlost : ∀ S, p.InWindow S → Agrees s.cur s.i S → s.Beats p S) : Kept p (s.backtrack p) := by
  cases hcur : s.cur with
  | nil =>
      have hback : s.backtrack p = (s, true) := by rw [Bnb.backtrack, hcur]
      rw [hback]
      refine ⟨h.noted, fun S hS => ?_⟩
      by_cases hpending : Pending s.cur s.i S
      · rcases hpending with hagrees | hlater
        · exact hlost S hS hagrees
        · rw [hcur] at hlater
          exact hlater.elim
      · exact h.covered S hS hpending
  | cons j cur =>
      have htracks := tracks_backtrack hp h.tracks hcur
      have hon : (s.backtrack p).2 = false := by rw [Bnb.backtrack, hcur]
      rw [Kept, if_neg (by simp [hon])]
      have hkeep : (s.backtrack p).1.best = s.best ∧ (s.backtrack p).1.bestWaste = s.bestWaste := by
        simp [Bnb.backtrack, hcur]
      have hbeats : ∀ S, s.Beats p S → (s.backtrack p).1.Beats p S := by
        intro S hS
        rwa [Bnb.Beats, hkeep.1, hkeep.2]
      refine ⟨htracks, ?_, ?_⟩
      · rw [Bnb.BestNoted, hkeep.1, hkeep.2]
        exact h.noted
      · intro S hS hnot
        apply hbeats
        by_cases hagrees : Agrees s.cur s.i S
        · exact hlost S hS hagrees
        · apply h.covered S hS
          intro hpending
          apply hnot
          rw [hcur] at hpending hagrees
          simpa only [Bnb.backtrack, hcur] using hpending.back hagrees

theorem tracks_include (hp : p.Fits) (ht : s.Tracks p) (hi : s.i < p.eff.length)
    (hbelow : s.sum < p.target) : (s.include p).Tracks p := by
  have hst : Stacked (s.i :: s.cur) (s.i + 1) := ⟨Nat.lt_succ_self _, ht.stacked⟩
  have hlt := hp.total_lt
  have hdrop : (p.eff.drop s.i).sum = p.effAt s.i + (p.eff.drop (s.i + 1)).sum := by
    rw [List.drop_eq_getElem_cons hi, List.sum_cons, BnbCoins.effAt]
    simp [hi]
  have hsub : (s.i :: s.cur).toFinset ⊆ Finset.range p.eff.length := by
    rw [List.toFinset_cons]
    exact Finset.insert_subset (Finset.mem_range.mpr hi) ht.subset
  have htotal := p.total_le hsub
  have hremaining : (p.eff.drop s.i).sum ≤ p.eff.sum :=
    (List.drop_sublist s.i p.eff).sum_le_sum fun _ _ => Nat.zero_le _
  rw [total_cons hst] at htotal
  have hsum := ht.sum_eq
  refine ⟨hst, hi, ?_, ?_, ?_, ?_, ht.below⟩
  · simp only [Bnb.include]
    rw [total_cons hst, ← hsum, Nat.mod_eq_of_lt (by omega), add_comm]
  · simp only [Bnb.include]
    rw [fees_cons hst, ht.fee_eq, wrapSigned, wrapSigned, Int.bmod_add_bmod, add_comm, wrapSigned]
  · simp only [Bnb.include]
    rw [ht.remaining_eq, subWrap_of_le (by omega) (by omega)]
    omega
  · rw [← hsum]
    exact hbelow

theorem sound_include (hp : p.Fits) (h : s.Sound p) (hi : s.i < p.eff.length)
    (hbelow : s.sum < p.target) : (s.include p).Sound p := by
  refine ⟨tracks_include hp h.tracks hi hbelow, h.noted, fun S hS hnot => ?_⟩
  apply h.covered S hS
  intro hpending
  exact hnot (hpending.descend h.tracks.stacked)

/-- A stack in the window needs its last coin. -/
theorem lastNeeded_cur (hp : p.Fits) (ht : s.Tracks p) (hreach : p.target ≤ s.sum) :
    s.cur ≠ [] ∧ p.LastNeeded s.cur.toFinset := by
  have hpos := hp.target_pos
  have hst := ht.stacked
  have hbelow := ht.below
  rw [ht.sum_eq] at hreach
  cases hcur : s.cur with
  | nil =>
      rw [hcur] at hreach
      simp [BnbCoins.total] at hreach
      omega
  | cons j cur =>
      rw [hcur] at hst hbelow
      refine ⟨by simp, fun m hm hmax => ?_⟩
      have hj : j ∉ cur.toFinset := fun hj => (hst.2.lt (List.mem_toFinset.mp hj)).false
      have hjm : j ≤ m := hmax j (by simp)
      rw [List.toFinset_cons] at hm ⊢
      obtain rfl : m = j := by
        rcases Finset.mem_insert.mp hm with rfl | hmem
        · rfl
        · have := hst.2.lt (List.mem_toFinset.mp hmem)
          omega
      rw [Finset.erase_insert hj]
      exact hbelow.1

theorem waste_eq (hp : p.Fits) (ht : s.Tracks p) (hwindow : p.InWindow s.cur.toFinset)
    (hneeded : p.LastNeeded s.cur.toFinset) :
    (s.waste p : Int) = p.wasteOf s.cur.toFinset ∧ s.waste p < 2 ^ 63 := by
  have hlt := hp.total_lt
  have hwaste := hp.waste_lt _ hwindow hneeded
  have hfees : 0 ≤ p.fees s.cur.toFinset := Finset.sum_nonneg fun k _ => hp.fee_nonneg k
  have hlow := hwindow.target_le
  have hhigh := hwindow.le_top
  have htotal := p.total_le hwindow.subset
  unfold BnbCoins.wasteOf at hwaste ⊢
  have hexcess : subWrap s.sum p.target = p.total s.cur.toFinset - p.target := by
    rw [ht.sum_eq, subWrap_of_le hlow (by omega)]
  have hinner : wrapSigned (subWrap s.sum p.target : Nat) =
      (p.total s.cur.toFinset : Int) - p.target := by
    rw [wrapSigned_of_range (by omega) (by omega)]
    omega
  rw [Bnb.waste, hinner, ht.fee_eq, wrapSigned_of_range hfees (by omega),
    wrapSigned_of_range (by omega) (by omega)]
  omega

theorem kept_found (hp : p.Fits) (h : s.Sound p) (hreach : p.target ≤ s.sum)
    (htop : s.sum ≤ p.target + p.costOfChange) : Kept p (s.found p) := by
  have hsum := h.tracks.sum_eq
  have hwindow : p.InWindow s.cur.toFinset := ⟨h.tracks.subset, by omega, by omega⟩
  obtain ⟨hne, hneeded⟩ := lastNeeded_cur hp h.tracks hreach
  obtain ⟨hwaste, hwastelt⟩ := waste_eq hp h.tracks hwindow hneeded
  -- whatever agrees with the stack has its coins and wastes no less
  have hagrees : ∀ S, Agrees s.cur s.i S → (s.waste p : Int) ≤ p.wasteOf S := by
    intro S hS
    rw [hwaste]
    exact p.wasteOf_mono hp.fee_nonneg (hS.subset h.tracks.stacked)
  rw [Bnb.found, Bnb.note]
  generalize s.waste p = w at *
  split
  · next hbetter =>
      have hnoted : s.cur.Nodup ∧ p.InWindow s.cur.toFinset ∧
          (w : Int) = p.wasteOf s.cur.toFinset ∧ w < 2 ^ 63 :=
        ⟨h.tracks.stacked.nodup, hwindow, hwaste, hwastelt⟩
      split
      · next hzero =>
          refine ⟨.inr hnoted, fun S hS => ⟨hne, ?_⟩⟩
          have hlow := hS.target_le
          have hfees : 0 ≤ p.fees S := Finset.sum_nonneg fun k _ => hp.fee_nonneg k
          simp only [hzero, BnbCoins.wasteOf]
          omega
      · apply kept_backtrack hp
        · refine ⟨⟨h.tracks.stacked, h.tracks.i_le, hsum, h.tracks.fee_eq, h.tracks.remaining_eq,
            h.tracks.below⟩, .inr hnoted, fun S hS hnot => ⟨hne, ?_⟩⟩
          have hbest := (h.covered S hS hnot).2
          dsimp only
          omega
        · intro S _ hS
          exact ⟨hne, hagrees S hS⟩
  · next hworse =>
      apply kept_backtrack hp h
      intro S _ hS
      refine ⟨?_, ?_⟩
      · intro hnil
        rcases h.noted with ⟨-, hmax⟩ | ⟨-, hnoted, -⟩
        · omega
        · have hempty := hnoted.target_le
          rw [hnil] at hempty
          simp [BnbCoins.total] at hempty
          have := hp.target_pos
          omega
      · have := hagrees S hS
        omega

theorem kept_round (hp : p.Fits) (h : s.Sound p) : Kept p (s.round p) := by
  have hlt := hp.total_lt
  have hsum := h.tracks.sum_eq
  have hst := h.tracks.stacked
  have hle := p.total_le h.tracks.subset
  have hdrop := sum_drop p.eff h.tracks.i_le
  have hremaining := h.tracks.remaining_eq
  have hrem : s.sum + s.remaining < 2 ^ 64 := by
    have hparts := hst.sum_add_le h.tracks.i_le (fun k => Nat.zero_le (p.effAt k))
    have hwhole := p.total_range
    simp only [BnbCoins.total, BnbCoins.effAt] at *
    omega
  unfold Bnb.round
  rw [Nat.mod_eq_of_lt (by omega), Nat.mod_eq_of_lt hrem]
  split
  · next hover =>
      apply kept_backtrack hp h
      intro S hS hagrees
      have hmore : p.total s.cur.toFinset ≤ p.total S := hagrees.le_sum hst fun k => Nat.zero_le _
      have := hS.le_top
      omega
  split
  · next hreach => exact kept_found hp h hreach (by omega)
  split
  · next hshort =>
      apply kept_backtrack hp h
      intro S hS hagrees
      have hmost := hagrees.sum_le hst hS.subset (fun k => Nat.zero_le (p.effAt k))
      have := hS.target_le
      simp only [BnbCoins.total, BnbCoins.effAt] at *
      omega
  split
  · next hend =>
      apply kept_backtrack hp h
      intro S hS hagrees
      have hmost := hagrees.sum_le hst hS.subset (fun k => Nat.zero_le (p.effAt k))
      have := hS.target_le
      rw [Finset.Ico_eq_empty_of_le hend, Finset.sum_empty] at hmost
      simp only [BnbCoins.total] at *
      omega
  · exact sound_include hp h (by omega) (by omega)

theorem loop_done (hp : p.Fits) {k : Nat} (h : s.Sound p) (hended : (s.loop p k).2 = false) :
    (s.loop p k).1.Done p := by
  induction k generalizing s with
  | zero => cases hended
  | succ k ih =>
      have hkept := kept_round hp h
      rw [Bnb.loop] at hended ⊢
      unfold Kept at hkept
      split at hkept
      · next hstop =>
          rw [if_pos hstop]
          exact hkept
      · next hon =>
          rw [if_neg hon] at hended ⊢
          exact ih hkept hended

end Rounds

/-! ## The selection -/

theorem descending_of_pairwise {eff : List Nat} (h : eff.Pairwise (· ≥ ·)) : descending eff = true := by
  induction eff using descending.induct with
  | case1 x y rest ih =>
      have hrest := List.pairwise_cons.mp h
      simp only [descending, ih hrest.2, Bool.and_true, decide_eq_true_eq]
      exact hrest.1 y (by simp)
  | case2 eff hshort => rw [descending.eq_def]; split <;> simp_all

/-- Nothing is returned exactly when no selection sums to the window; otherwise the coins
returned do, at the least waste. -/
def SelectAsClaimed (p : BnbCoins) (r : Int × List Nat) : Prop :=
  (r.1 = 0 ↔ ¬ ∃ S, p.InWindow S) ∧
    ((∃ S, p.InWindow S) → r.1 = r.2.length ∧ r.2.Nodup ∧ p.InWindow r.2.toFinset ∧
      ∀ S, p.InWindow S → p.wasteOf r.2.toFinset ≤ p.wasteOf S)

theorem select_of_fits {p : BnbCoins} (hp : p.Fits) (hdesc : p.eff.Pairwise (· ≥ ·)) {pickcap : Nat}
    (hcap : p.eff.length ≤ pickcap) (hended : p.search.2 = false) :
    SelectAsClaimed p (p.select pickcap) := by
  have hlt := hp.total_lt
  have hpos := hp.target_pos
  have hdone : p.search.1.Done p := loop_done hp (start_sound hp) hended
  rw [BnbCoins.select, if_neg (by simp [descending_of_pairwise hdesc]), Nat.mod_eq_of_lt (by omega)]
  split
  · next hshort =>
      have hnone : ¬ ∃ S, p.InWindow S := by
        rintro ⟨S, hS⟩
        have := p.total_le hS.subset
        have := hS.target_le
        omega
      exact ⟨by simp [hnone], fun h => absurd h hnone⟩
  dsimp only
  generalize p.search.1 = s at *
  rcases hdone.noted with ⟨hnil, -⟩ | ⟨hnodup, hwindow, hwaste, hwastelt⟩
  · have hnone : ¬ ∃ S, p.InWindow S := by
      rintro ⟨S, hS⟩
      exact (hdone.beats S hS).1 hnil
    rw [if_pos (.inl hnil)]
    exact ⟨by simp [hnone], fun h => absurd h hnone⟩
  · have hne : s.best ≠ [] := (hdone.beats _ hwindow).1
    have hlen : s.best.length ≤ p.eff.length := by
      rw [← List.toFinset_card_of_nodup hnodup, ← Finset.card_range p.eff.length]
      exact Finset.card_le_card hwindow.subset
    have htake : s.best.reverse.take pickcap = s.best.reverse :=
      List.take_of_length_le (by rw [List.length_reverse]; omega)
    rw [if_neg (by rintro (h | h) <;> [exact hne h; omega]), htake]
    refine ⟨?_, fun _ => ⟨by simp, List.nodup_reverse.mpr hnodup, by simpa using hwindow, ?_⟩⟩
    · constructor
      · intro hzero
        exact absurd (List.length_eq_zero_iff.mp (Int.natCast_eq_zero.mp hzero)) hne
      · intro hnone
        exact absurd ⟨_, hwindow⟩ hnone
    · intro S hS
      have := (hdone.beats S hS).2
      simp only [List.toFinset_reverse]
      omega

/-- Two coins whose fee differences sum to 2^63. -/
def dearCoins : BnbCoins := bnbCoins [10, 10, 5, 5] (some [2 ^ 62, 2 ^ 62, 0, 0]) 20 0

end BitcoinMachineCode.Wallet
