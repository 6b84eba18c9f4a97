import Mathlib
import BitcoinMachineCode.Mempool.RemoveForBlock

/-!
# The price of a replacement

The conflict stage of `mpol_add_core` with its fee sum: what a replacement has to
pay, what it removes and when it is refused for its fee.
-/

namespace BitcoinMachineCode.Mempool

open BitcoinMachineCode.Foundation BitcoinMachineCode.Storage

/-! ## The fee rule -/

/-- What the rule reads besides the graph: the fees the nodes were admitted with, the
virtual size of the newcomer and the incremental rate. -/
structure RbfFees (σ : Type) where
  nodeFee : σ → Txid → Nat
  vsize : Rtx → Nat
  incrementalFee : Nat

/-- `fee_at_rate`: rounded up. -/
def feeAtRate (rate vsize : Nat) : Nat := (rate * vsize + 999) / 1000

/-- The fee of the newcomer. -/
def txFee (coins : Outpoint → Option UInt64) (pool : Pool) (r : Rtx) : Nat :=
  match resolveInputs coins pool r.tx.inputs with
  | none => 0
  | some sumIn => (sumIn - (r.tx.outputs.map TxOut.value).sum).toNat

/-- Rules 3 and 4. -/
def feeRule (fee removed need : Nat) : Option String :=
  if fee < removed then some "insufficient fee"
  else if fee - removed < need then some "insufficient fee"
  else none

/-- The fees of the descendants are added as they join the set. -/
def evictDescendantsFees (fee : Txid → Nat) :
    List Txid × Nat → List Txid → Option (List Txid × Nat)
  | st, [] => some st
  | st, d :: ds =>
      if d ∈ st.1 then evictDescendantsFees fee st ds
      else if mpolMaxEvict ≤ st.1.length then none
      else evictDescendantsFees fee (st.1 ++ [d], st.2 + fee d) ds

/-- The loop over the conflicts, with `removed_fees`: a conflict joins the set and the
sum whether or not it is there. -/
def evictSetFees (pool : Pool) (fee : Txid → Nat) :
    List Txid × Nat → List Txid → Option (List Txid × Nat)
  | st, [] => some st
  | st, c :: cs =>
      if mpolMaxEvict ≤ st.1.length then none
      else
        match collectDescendantTxids pool c with
        | none => none
        | some ds =>
            match evictDescendantsFees fee (st.1 ++ [c], st.2 + fee c) ds with
            | none => none
            | some st' => evictSetFees pool fee st' cs

def removedFees (fee : Txid → Nat) (evict : List Txid) : Nat := (evict.map fee).sum

/-- The policy with the rule in its place. -/
def Policy.withRbf {σ : Type} (P : Policy σ) (F : RbfFees σ)
    (coins : Outpoint → Option UInt64) : Policy σ :=
  { P with
    paysForRbf := fun m pool r evict =>
      feeRule (txFee coins pool r) (removedFees (F.nodeFee m) evict)
        (feeAtRate F.incrementalFee (F.vsize r)) }

theorem feeRule_eq_some_iff {fee removed need : Nat} :
    feeRule fee removed need = some "insufficient fee" ↔ fee < removed + need := by
  unfold feeRule
  split
  · simp only [true_iff]
    omega
  · split
    · simp only [true_iff]
      omega
    · simp only [reduceCtorEq, false_iff]
      omega

theorem feeRule_eq_none_or (fee removed need : Nat) :
    feeRule fee removed need = none ∨ feeRule fee removed need = some "insufficient fee" := by
  unfold feeRule
  split
  · exact .inr rfl
  · split
    · exact .inr rfl
    · exact .inl rfl

theorem removedFees_concat (fee : Txid → Nat) (evict : List Txid) (x : Txid) :
    removedFees fee (evict ++ [x]) = removedFees fee evict + fee x := by
  simp [removedFees]

theorem evictDescendantsFees_eq (fee : Txid → Nat) (evict ds : List Txid) :
    evictDescendantsFees fee (evict, removedFees fee evict) ds =
      (evictDescendants evict ds).map fun e => (e, removedFees fee e) := by
  induction ds generalizing evict with
  | nil => rfl
  | cons d ds ih =>
      unfold evictDescendantsFees evictDescendants
      split
      · exact ih evict
      · split
        · rfl
        · rw [← removedFees_concat]
          exact ih (evict ++ [d])

/-- The sum the loop carries is the sum over the set as it was built. -/
theorem evictSetFees_eq (pool : Pool) (fee : Txid → Nat) (evict cs : List Txid) :
    evictSetFees pool fee (evict, removedFees fee evict) cs =
      (evictSet pool evict cs).map fun e => (e, removedFees fee e) := by
  induction cs generalizing evict with
  | nil => rfl
  | cons c cs ih =>
      unfold evictSetFees evictSet
      split
      · rfl
      cases collectDescendantTxids pool c with
      | none => rfl
      | some ds =>
          simp only
          rw [← removedFees_concat, evictDescendantsFees_eq]
          cases evictDescendants (evict ++ [c]) ds with
          | none => rfl
          | some evict' => exact ih evict'

/-! ## The set -/

theorem mem_collectDescendantTxids {pool : Pool} {c : Txid} {ds : List Txid}
    (h : collectDescendantTxids pool c = some ds) {x : Txid} :
    x ∈ c :: ds ↔ Descends pool c x := by
  obtain ⟨found, hfound, rfl⟩ := Option.map_eq_some_iff.mp h
  obtain ⟨rest, rfl⟩ := search_prefixed hfound
  exact mem_search_iff hfound

theorem excess_evictDescendants (fee : Txid → Nat) {evict ds evict' : List Txid}
    (h : evictDescendants evict ds = some evict') : excess fee evict' = excess fee evict := by
  induction ds generalizing evict with
  | nil =>
      obtain rfl := Option.some.inj h
      rfl
  | cons d ds ih =>
      unfold evictDescendants at h
      split at h
      · exact ih h
      · next hd =>
          split at h
          · cases h
          · rw [ih h, excess_concat, if_neg hd, Nat.add_zero]

/-- The conflicts so far and their descendants are in the set; a conflict among them
already is counted twice. -/
theorem evictSet_spec {pool : Pool} (fee : Txid → Nat) {done cs evict evict' : List Txid}
    (hmem : ∀ x, x ∈ evict ↔ ∃ c ∈ done, Descends pool c x)
    (h : evictSet pool evict cs = some evict') :
    (∀ x, x ∈ evict' ↔ ∃ c ∈ done ++ cs, Descends pool c x) ∧
      excess fee evict ≤ excess fee evict' ∧
      (excess fee evict' = excess fee evict ↔ ∀ before c after, cs = before ++ c :: after →
        (∃ c' ∈ done ++ before, Descends pool c' c) → fee c = 0) := by
  induction cs generalizing done evict with
  | nil =>
      obtain rfl := Option.some.inj h
      refine ⟨by simpa using hmem, Nat.le_refl _, iff_of_true rfl ?_⟩
      intro before c after hnil
      simp at hnil
  | cons c cs ih =>
      unfold evictSet at h
      split at h
      · cases h
      split at h
      · cases h
      next ds hds =>
      split at h
      · cases h
      next more hmore =>
      have hone : ∀ x, x ∈ more ↔ ∃ c' ∈ done ++ [c], Descends pool c' x := by
        intro x
        rw [evictDescendants_eq_some hmore, List.mem_append, hmem, List.mem_singleton]
        have hdesc : x = c ∨ x ∈ ds ↔ Descends pool c x := by
          rw [← mem_collectDescendantTxids hds, List.mem_cons]
        simp only [List.mem_append, List.mem_singleton, or_and_right, exists_or, exists_eq_left,
          or_assoc, hdesc]
      obtain ⟨hall, hle, hiff⟩ := ih hone h
      have hexcess : excess fee more =
          excess fee evict + if c ∈ evict then fee c else 0 := by
        rw [excess_evictDescendants fee hmore, excess_concat]
      refine ⟨by simpa using hall, by omega, ?_⟩
      constructor
      · intro heq before c' after hsplit hseen
        cases before with
        | nil =>
            obtain ⟨rfl, rfl⟩ := List.cons.inj hsplit
            rw [List.append_nil] at hseen
            rw [if_pos ((hmem c).mpr hseen)] at hexcess
            omega
        | cons b before =>
            obtain ⟨rfl, hcs⟩ := List.cons.inj hsplit
            refine hiff.mp (by omega) before c' after hcs ?_
            simpa using hseen
      · intro hzero
        have hfirst : (if c ∈ evict then fee c else 0) = 0 := by
          split
          · next hin => exact hzero [] c cs rfl (by simpa using (hmem c).mp hin)
          · rfl
        have hrest := hiff.mpr fun before c' after hsplit hseen =>
          hzero (c :: before) c' after (by rw [hsplit]; rfl) (by simpa using hseen)
        omega

/-- The direct conflicts of a transaction and all their descendants. -/
def Replaced (pool : Pool) (r : Rtx) (x : Txid) : Prop :=
  ∃ n ∈ pool, (∃ o ∈ r.tx.inputs, o ∈ n.inputs) ∧ Descends pool n.txid x

theorem replaced_iff {c : NewChain} {pool : Pool} (h : Coherent c pool) {r : Rtx} {x : Txid} :
    Replaced pool r x ↔ ∃ y ∈ conflicts pool r.tx.inputs, Descends pool y x := by
  constructor
  · rintro ⟨n, hn, ⟨o, ho, hon⟩, hdesc⟩
    exact ⟨n.txid, mem_conflicts h hn hon ho, hdesc⟩
  · rintro ⟨y, hy, hdesc⟩
    rw [conflicts, mem_unseen, List.mem_filterMap] at hy
    obtain ⟨⟨o, ho, hclaim⟩, -⟩ := hy
    obtain ⟨n, hn, rfl, hon⟩ := exists_of_findClaim hclaim
    exact ⟨n, hn, ⟨o, ho, hon⟩, hdesc⟩

/-- The set the conflict loop builds, or `none` past a bound. -/
def replacedSet (pool : Pool) (r : Rtx) : Option (List Txid) :=
  evictSet pool [] (conflicts pool r.tx.inputs)

theorem mem_replacedSet {c : NewChain} {pool : Pool} (h : Coherent c pool) {r : Rtx}
    {evict : List Txid} (hevict : replacedSet pool r = some evict) {x : Txid} :
    x ∈ evict ↔ Replaced pool r x := by
  have hnone : ∀ y, y ∈ ([] : List Txid) ↔ ∃ z ∈ ([] : List Txid), Descends pool z y := by simp
  rw [replaced_iff h]
  exact (evictSet_spec (fun _ => 0) hnone hevict).1 x

/-- A conflict found later than one it descends from, which it pays for twice. -/
def LateDescendant (pool : Pool) (r : Rtx) (c : Txid) : Prop :=
  ∃ before after, conflicts pool r.tx.inputs = before ++ c :: after ∧
    ∃ c' ∈ before, Descends pool c' c

theorem removedFees_eq_iff {c : NewChain} {pool : Pool} (h : Coherent c pool) {r : Rtx}
    {evict : List Txid} (hevict : replacedSet pool r = some evict) (fee : Txid → Nat)
    {S : Finset Txid} (hS : ∀ x, x ∈ S ↔ Replaced pool r x) :
    removedFees fee evict = ∑ x ∈ S, fee x ↔
      ∀ c, LateDescendant pool r c → fee c = 0 := by
  have hnone : ∀ y, y ∈ ([] : List Txid) ↔ ∃ z ∈ ([] : List Txid), Descends pool z y := by simp
  have hset : evict.toFinset = S := by
    ext x
    rw [List.mem_toFinset, mem_replacedSet h hevict, hS]
  obtain ⟨-, -, hiff⟩ := evictSet_spec fee hnone hevict
  rw [removedFees, ← hset, sum_eq_iff_excess]
  refine hiff.trans ⟨?_, ?_⟩
  · rintro hall x ⟨before, after, hsplit, hseen⟩
    exact hall before x after hsplit hseen
  · intro hall before x after hsplit hseen
    exact hall x ⟨before, after, hsplit, hseen⟩

/-! ## Refusal and removal -/

section Priced

variable {σ : Type} (P : Policy σ) (F : RbfFees σ) (coins : Outpoint → Option UInt64) (m : σ)

/-- The checks before the fee rule: not too many clusters, the set within its bounds,
and nothing spent that it removes. -/
def ReachesFeeRule (pool : Pool) (r : Rtx) : Prop :=
  P.manyClusters m pool (conflicts pool r.tx.inputs) = false ∧
    ∃ evict, replacedSet pool r = some evict ∧ ∀ o ∈ r.tx.inputs, o.txid ∉ evict

theorem replacementChecks_eq {pool : Pool} {r : Rtx} {evict : List Txid}
    (hne : conflicts pool r.tx.inputs ≠ []) (hevict : replacedSet pool r = some evict) :
    replacementChecks (P.withRbf F coins) m pool r =
      if P.manyClusters m pool (conflicts pool r.tx.inputs) then
        .error "too many potential replacements"
      else if r.tx.inputs.any (fun o => o.txid ∈ evict) then
        .error "bad-txns-spends-conflicting-tx"
      else
        match feeRule (txFee coins pool r) (removedFees (F.nodeFee m) evict)
            (feeAtRate F.incrementalFee (F.vsize r)) with
        | some reason => .error reason
        | none => .ok evict := by
  unfold replacedSet at hevict
  unfold replacementChecks
  cases hconf : conflicts pool r.tx.inputs with
  | nil => exact absurd hconf hne
  | cons c cs =>
      rw [hconf] at hevict
      simp only [hevict]
      rfl

/-- Refused for its fee: the checks before are passed and it does not pay enough. -/
theorem replacementChecks_insufficient_iff {pool : Pool} {r : Rtx}
    (hne : conflicts pool r.tx.inputs ≠ []) :
    replacementChecks (P.withRbf F coins) m pool r = .error "insufficient fee" ↔
      P.manyClusters m pool (conflicts pool r.tx.inputs) = false ∧
        ∃ evict, replacedSet pool r = some evict ∧ (∀ o ∈ r.tx.inputs, o.txid ∉ evict) ∧
          txFee coins pool r < removedFees (F.nodeFee m) evict +
            feeAtRate F.incrementalFee (F.vsize r) := by
  cases hevict : replacedSet pool r with
  | none =>
      refine iff_of_false (fun hbad => ?_) (by simp)
      unfold replacedSet at hevict
      unfold replacementChecks at hbad
      cases hconf : conflicts pool r.tx.inputs with
      | nil => exact hne hconf
      | cons c cs =>
          rw [hconf] at hevict
          simp only [hconf, hevict] at hbad
          split at hbad
          · exact absurd (Except.error.inj hbad) (by decide)
          · exact absurd (Except.error.inj hbad) (by decide)
  | some evict =>
      rw [replacementChecks_eq P F coins m hne hevict]
      simp only [Option.some.injEq, exists_eq_left']
      split
      · next hmany =>
          refine iff_of_false (fun hbad => ?_) (by simp [hmany])
          exact absurd (Except.error.inj hbad) (by decide)
      · next hmany =>
          have hmany' : P.manyClusters m pool (conflicts pool r.tx.inputs) = false := by
            simpa using hmany
          rw [and_iff_right hmany']
          split
          · next hspends =>
              refine iff_of_false (fun hbad => ?_) fun hgood => ?_
              · exact absurd (Except.error.inj hbad) (by decide)
              · obtain ⟨o, ho, hin⟩ := List.any_eq_true.mp hspends
                exact hgood.1 o ho (of_decide_eq_true hin)
          · next hspends =>
              have hapart : ∀ o ∈ r.tx.inputs, o.txid ∉ evict := fun o ho hin =>
                hspends (List.any_eq_true.mpr ⟨o, ho, decide_eq_true hin⟩)
              rw [and_iff_right hapart, ← feeRule_eq_some_iff]
              rcases feeRule_eq_none_or (txFee coins pool r) (removedFees (F.nodeFee m) evict)
                (feeAtRate F.incrementalFee (F.vsize r)) with hrule | hrule
              · simp [hrule]
              · simp [hrule]

theorem replacementChecks_ok_eq {pool : Pool} {r : Rtx} {evict : List Txid}
    (hne : conflicts pool r.tx.inputs ≠ [])
    (hok : replacementChecks (P.withRbf F coins) m pool r = .ok evict) :
    replacedSet pool r = some evict := by
  unfold replacementChecks at hok
  unfold replacedSet
  cases hconf : conflicts pool r.tx.inputs with
  | nil => exact absurd hconf hne
  | cons c cs =>
      simp only [hconf] at hok
      split at hok
      · cases hok
      split at hok
      · cases hok
      next found hfound =>
      split at hok
      · cases hok
      split at hok
      · cases hok
      obtain rfl := Except.ok.inj hok
      exact hfound

theorem trucChecks_ok_eq {P : Policy σ} {m : σ} {pool : Pool} {r : Rtx} {evict evict' : List Txid}
    (hok : trucChecks P m pool r evict = .ok evict') :
    ∃ sibling : Option Txid, evict' = evict ++ sibling.toList := by
  unfold trucChecks at hok
  split at hok
  · obtain rfl := Except.ok.inj hok
    exact ⟨none, (List.append_nil _).symm⟩
  · cases hok
  split at hok
  · split at hok
    · cases hok
    split at hok
    · split at hok
      · cases hok
      next sibling _ _ =>
      obtain rfl := Except.ok.inj hok
      exact ⟨some sibling, rfl⟩
    · cases hok
  · cases hok

/-- What a replacement must pay, when it is refused for that, and what goes when it is
accepted: `S` are the entries it replaces.  A trim for room comes after. -/
structure PricedOnce (pool : Pool) (r : Rtx) (S : Finset Txid) : Prop where
  fees : ∀ evict, replacedSet pool r = some evict →
    removedFees (F.nodeFee m) evict = ∑ x ∈ S, F.nodeFee m x
  refused : replacementChecks (P.withRbf F coins) m pool r = .error "insufficient fee" ↔
    ReachesFeeRule P m pool r ∧ txFee coins pool r <
      ∑ x ∈ S, F.nodeFee m x + feeAtRate F.incrementalFee (F.vsize r)
  removed : ∀ pool', mpolAddCore (P.withRbf F coins) coins m pool r = (none, pool') →
    ∃ sibling : Option Txid,
      let left := keepNodes pool fun x => x ∉ S ∧ sibling ≠ some x
      storeAndTrim (P.withRbf F coins) m r left.length left = (none, pool')

theorem mpolAddCore_removes {pool : Pool} (h : Coherent anyChain pool) {r : Rtx}
    (hne : conflicts pool r.tx.inputs ≠ []) {S : Finset Txid}
    (hS : ∀ x, x ∈ S ↔ Replaced pool r x) {pool' : Pool}
    (hadd : mpolAddCore (P.withRbf F coins) coins m pool r = (none, pool')) :
    ∃ sibling : Option Txid,
      let left := keepNodes pool fun x => x ∉ S ∧ sibling ≠ some x
      storeAndTrim (P.withRbf F coins) m r left.length left = (none, pool') := by
  unfold mpolAddCore at hadd
  split at hadd
  · cases hadd
  next evict hok =>
  obtain ⟨-, -, -, -, evict₀, hrep, -, htruc⟩ := admissionChecks_ok hok
  have hevict := replacementChecks_ok_eq P F coins m hne hrep
  obtain ⟨sibling, rfl⟩ := trucChecks_ok_eq htruc
  have hleft : removeNodes pool (evict₀ ++ sibling.toList) =
      keepNodes pool fun x => x ∉ S ∧ sibling ≠ some x := by
    rw [removeNodes_eq]
    congr 1
    funext x
    refine decide_eq_decide.mpr ?_
    rw [List.mem_append, mem_replacedSet h hevict, ← hS, Option.mem_toList, not_or]
  simp only at hadd
  split at hadd
  · cases hadd
  rw [hleft] at hadd
  exact ⟨sibling, hadd⟩

/-- The replaced entries are each paid for once exactly when no conflict that pays a fee
is found after one it descends from. -/
theorem pricedOnce_iff {pool : Pool} (h : PoolReach pool) {r : Rtx}
    (hne : conflicts pool r.tx.inputs ≠ []) {S : Finset Txid}
    (hS : ∀ x, x ∈ S ↔ Replaced pool r x) :
    PricedOnce P F coins m pool r S ↔
      replacedSet pool r = none ∨ ∀ c, LateDescendant pool r c → F.nodeFee m c = 0 := by
  have hcoh := h.coherent
  have hremoved := fun pool' (hadd : mpolAddCore (P.withRbf F coins) coins m pool r =
    (none, pool')) => mpolAddCore_removes P F coins m hcoh hne hS hadd
  have hinsufficient := replacementChecks_insufficient_iff P F coins m hne
  cases hevict : replacedSet pool r with
  | none =>
      refine iff_of_true ⟨fun _ hsome => ?_, ?_, hremoved⟩ (.inl rfl)
      · rw [hevict] at hsome
        cases hsome
      · rw [hinsufficient, hevict]
        simp [ReachesFeeRule, hevict]
  | some evict =>
      have hfees := removedFees_eq_iff hcoh hevict (F.nodeFee m) hS
      constructor
      · intro hpriced
        exact .inr (hfees.mp (hpriced.fees evict hevict))
      · rintro (hnone | hlate)
        · cases hnone
        · have hsum := hfees.mpr hlate
          refine ⟨fun e he => ?_, ?_, hremoved⟩
          · rw [hevict] at he
            obtain rfl := Option.some.inj he
            exact hsum
          · rw [hinsufficient, hevict]
            simp only [ReachesFeeRule, hevict, Option.some.injEq, exists_eq_left', hsum, and_assoc]

end Priced

/-! A parent and a child that spends a coin of its own, and their replacements. -/

def familyParent : Rtx := sampleRtx 20 [⟨sampleTxid 1, 0⟩] [999900]

def familyChild : Rtx := sampleRtx 21 [⟨sampleTxid 20, 0⟩, ⟨sampleTxid 1, 1⟩] [1999800]

def familyPool : Pool := [⟨familyParent, []⟩, ⟨familyChild, [sampleTxid 20]⟩]

theorem poolReach_family : PoolReach familyPool := by
  have hadd : (mpolAddCore samplePolicy sampleChain.coins ()
      (mpolAddCore samplePolicy sampleChain.coins () [] familyParent).2 familyChild).2 =
      familyPool := rfl
  exact hadd ▸ (PoolReach.empty.add samplePolicy sampleChain.coins () familyParent).add
    samplePolicy sampleChain.coins () familyChild

/-- Spends the coins of both, or of the parent alone. -/
def familyReplacement (both : Bool) : Rtx :=
  sampleRtx 22 (⟨sampleTxid 1, 0⟩ :: if both then [⟨sampleTxid 1, 1⟩] else []) [999000]

def familyFees : RbfFees Unit := ⟨fun _ _ => 100, fun _ => 100, 1000⟩

def familySet : Finset Txid := [sampleTxid 20, sampleTxid 21].toFinset

theorem replacedSet_family (both : Bool) :
    replacedSet familyPool (familyReplacement both) =
      some ([sampleTxid 20, sampleTxid 21] ++ if both then [sampleTxid 21] else []) := by
  cases both <;> rfl

theorem mem_familySet (both : Bool) (x : Txid) :
    x ∈ familySet ↔ Replaced familyPool (familyReplacement both) x := by
  rw [← mem_replacedSet poolReach_family.coherent (replacedSet_family both), familySet,
    List.mem_toFinset]
  cases both <;> simp

theorem pricedOnce_family_parent :
    PricedOnce samplePolicy familyFees sampleChain.coins () familyPool (familyReplacement false)
      familySet := by
  refine (pricedOnce_iff samplePolicy familyFees sampleChain.coins () poolReach_family (by decide)
    (mem_familySet false)).mpr (.inr ?_)
  rintro c ⟨before, after, hsplit, c', hc', -⟩
  have hone : conflicts familyPool (familyReplacement false).tx.inputs = [sampleTxid 20] := rfl
  rw [hone] at hsplit
  cases before with
  | nil => cases hc'
  | cons b before => simp at hsplit

/-- The child is found after its parent, and is paid for twice. -/
theorem not_pricedOnce_family :
    ¬ ∀ (pool : Pool) (r : Rtx) (S : Finset Txid), PoolReach pool →
      conflicts pool r.tx.inputs ≠ [] → (∀ x, x ∈ S ↔ Replaced pool r x) →
      PricedOnce samplePolicy familyFees sampleChain.coins () pool r S := by
  intro hclaim
  have hpriced := hclaim familyPool (familyReplacement true) familySet poolReach_family
    (by decide) (mem_familySet true)
  have hsum := hpriced.fees _ (replacedSet_family true)
  exact absurd hsum (by decide)

end BitcoinMachineCode.Mempool
