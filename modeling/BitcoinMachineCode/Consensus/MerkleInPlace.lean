import BitcoinMachineCode.Consensus.BlockBytes
import BitcoinMachineCode.Consensus.Sha256

/-!
# The merkle root in place

`merkle_root` of `bitcoin_hash.asm` over the buffer it is given: each level is
written over the front of the one below, a stage of sixteen pairs at a time, and
the mutation flag is collected on the way.  The positions count nodes of 32 bytes.
-/

namespace BitcoinMachineCode.Consensus

open BitcoinMachineCode.Foundation

section InPlace

variable (sha256d : List UInt8 → Bytes 32)

def mkStage : Nat := 16

/-- `MK_CONCAT`: the node and its sibling, or the node twice where it has none. -/
def mkConcat (mem : List (Bytes 32)) (n r : Nat) : (Bytes 32 × Bytes 32) × Bool :=
  let left := mem.getD r zero32
  if r + 1 < n then
    let right := mem.getD (r + 1) zero32
    ((left, right), decide (left = right))
  else ((left, left), false)

/-- `.fill`: pairs from position `r` on, until the stage or the level is full. -/
def fillStage (mem : List (Bytes 32)) (n : Nat) : Nat → Nat → List (Bytes 32 × Bytes 32) × Bool
  | 0, _ => ([], false)
  | slots + 1, r =>
      let pair := mkConcat mem n r
      if n ≤ r + 2 then ([pair.1], pair.2)
      else
        let rest := fillStage mem n slots (r + 2)
        (pair.1 :: rest.1, pair.2 || rest.2)

def overwrite {α : Type} (mem : List α) (w : Nat) (vals : List α) : List α :=
  mem.take w ++ (vals ++ mem.drop (w + vals.length))

/-- `.batch` and `.flush`: stage after stage, from position `r` to position `w`. -/
def reduceLevel (n : Nat) : Nat → List (Bytes 32) → Nat → Nat → List (Bytes 32) × Bool
  | 0, mem, _, _ => (mem, false)
  | fuel + 1, mem, r, w =>
      let stage := fillStage mem n mkStage r
      let mem' := overwrite mem w (stage.1.map fun p => merkleNode sha256d p.1 p.2)
      if r + 2 * stage.1.length < n then
        let rest := reduceLevel n fuel mem' (r + 2 * stage.1.length) (w + stage.1.length)
        (rest.1, stage.2 || rest.2)
      else (mem', stage.2)

/-- `.next_level`: the first cell of what is left, and the flag. -/
def reduceLevels : Nat → List (Bytes 32) → Nat → Option (Bytes 32) × Bool
  | 0, mem, _ => (mem.head?, false)
  | fuel + 1, mem, n =>
      if n ≤ 1 then (mem.head?, false)
      else
        let level := reduceLevel sha256d n n mem 0 0
        let rest := reduceLevels fuel level.1 ((n + 1) / 2)
        (rest.1, level.2 || rest.2)

/-- `merkle_root` over the first `n` nodes of the buffer. -/
def merkleRootInPlace (mem : List (Bytes 32)) (n : Nat) : Option (Bytes 32) × Bool :=
  reduceLevels sha256d n mem n

/-! ## The stage -/

variable {sha256d}

/-- What of the level has not been read. -/
def unread (mem : List (Bytes 32)) (n r : Nat) : List (Bytes 32) := (mem.drop r).take (n - r)

theorem length_unread {mem : List (Bytes 32)} {n r : Nat} (hn : n ≤ mem.length) :
    (unread mem n r).length = n - r := by
  rw [unread, List.length_take, List.length_drop]
  omega

theorem unread_succ {mem : List (Bytes 32)} {n r : Nat} (hn : n ≤ mem.length) (hr : r < n) :
    unread mem n r = mem.getD r zero32 :: unread mem n (r + 1) := by
  obtain ⟨k, hk⟩ : ∃ k, n - r = k + 1 := ⟨n - r - 1, by omega⟩
  have hrest : n - (r + 1) = k := by omega
  rw [unread, unread, hk, hrest, List.drop_eq_getElem_cons (show r < mem.length by omega),
    List.take_succ_cons, List.getD_eq_getElem?_getD,
    List.getElem?_eq_getElem (show r < mem.length by omega), Option.getD_some]

theorem unread_self (mem : List (Bytes 32)) (n : Nat) : unread mem n n = [] := by
  rw [unread, Nat.sub_self, List.take_zero]

theorem fillStage_eq {mem : List (Bytes 32)} {n : Nat} (hn : n ≤ mem.length) (slots : Nat)
    {r : Nat} (hr : r < n) :
    (fillStage mem n slots r).1 = (levelPairs (unread mem n r)).take slots ∧
      (fillStage mem n slots r).2 = equalSiblings ((unread mem n r).take (2 * slots)) := by
  induction slots generalizing r with
  | zero => exact ⟨rfl, rfl⟩
  | succ slots ih =>
      have htwo : 2 * (slots + 1) = 2 * slots + 1 + 1 := by omega
      rw [unread_succ hn hr, htwo]
      unfold fillStage mkConcat
      simp only
      by_cases hlast : r + 1 < n
      · rw [if_pos hlast, unread_succ hn hlast]
        simp only [levelPairs, List.take_succ_cons, equalSiblings]
        by_cases hdone : n ≤ r + 2
        · obtain rfl : n = r + 2 := by omega
          rw [if_pos le_rfl, unread_self]
          exact ⟨by simp [levelPairs], by simp [equalSiblings]⟩
        · rw [if_neg hdone]
          obtain ⟨hpairs, hflag⟩ := ih (show r + 2 < n by omega)
          exact ⟨congrArg (_ :: ·) hpairs, congrArg (_ || ·) hflag⟩
      · obtain rfl : n = r + 1 := by omega
        rw [if_neg hlast, if_pos (by omega), unread_self]
        exact ⟨by simp [levelPairs], by simp [equalSiblings]⟩

theorem levelPairs_split {δ : Type*} (slots : Nat) (l : List δ) :
    levelPairs l = (levelPairs l).take slots ++ levelPairs (l.drop (2 * slots)) := by
  induction slots generalizing l with
  | zero => simp
  | succ slots ih =>
      have htwo : 2 * (slots + 1) = 2 * slots + 1 + 1 := by omega
      rw [htwo]
      match l with
      | [] => simp [levelPairs]
      | [a] => simp [levelPairs]
      | a :: b :: rest =>
          rw [levelPairs, List.take_succ_cons, List.drop_succ_cons, List.drop_succ_cons,
            List.cons_append, ← ih rest]

theorem equalSiblings_split {δ : Type*} [DecidableEq δ] (slots : Nat) (l : List δ) :
    equalSiblings l =
      (equalSiblings (l.take (2 * slots)) || equalSiblings (l.drop (2 * slots))) := by
  induction slots generalizing l with
  | zero => simp [equalSiblings]
  | succ slots ih =>
      have htwo : 2 * (slots + 1) = 2 * slots + 1 + 1 := by omega
      rw [htwo]
      cases l with
      | nil => simp [equalSiblings]
      | cons a l =>
          cases l with
          | nil => simp [equalSiblings]
          | cons b rest =>
              rw [List.take_succ_cons, List.take_succ_cons, List.drop_succ_cons,
                List.drop_succ_cons, equalSiblings, equalSiblings, ih rest, Bool.or_assoc]

/-! ## The level -/

theorem drop_overwrite {α : Type} {mem vals : List α} {w j : Nat}
    (hlen : w + vals.length ≤ mem.length) (hj : w + vals.length ≤ j) :
    (overwrite mem w vals).drop j = mem.drop j := by
  have htake : (mem.take w).length = w := by
    rw [List.length_take]
    omega
  rw [overwrite, List.drop_append, List.drop_of_length_le (by omega), List.nil_append, htake,
    List.drop_append, List.drop_of_length_le (by omega), List.nil_append, List.drop_drop]
  congr 1
  omega

theorem length_overwrite {α : Type} {mem vals : List α} {w : Nat}
    (hlen : w + vals.length ≤ mem.length) : (overwrite mem w vals).length = mem.length := by
  simp only [overwrite, List.length_append, List.length_take, List.length_drop]
  omega

theorem overwrite_overwrite {α : Type} (mem vals vals' : List α) (w : Nat)
    (hlen : w + vals.length + vals'.length ≤ mem.length) :
    overwrite (overwrite mem w vals) (w + vals.length) vals' = overwrite mem w (vals ++ vals') := by
  have htake : (overwrite mem w vals).take (w + vals.length) = mem.take w ++ vals := by
    have hlength : (mem.take w ++ vals).length = w + vals.length := by
      rw [List.length_append, List.length_take]
      omega
    rw [overwrite, ← List.append_assoc, List.take_append_of_le_length hlength.ge,
      List.take_of_length_le hlength.le]
  rw [overwrite, htake, drop_overwrite (by omega) (by omega), overwrite, List.length_append,
    List.append_assoc, List.append_assoc, Nat.add_assoc]

/-- The write position is half the read position, so nothing unread is overwritten. -/
theorem reduceLevel_eq {n : Nat} (fuel : Nat) {mem : List (Bytes 32)} {r w : Nat}
    (hn : n ≤ mem.length) (hr : r < n) (hw : r = 2 * w) (hfuel : n - r ≤ fuel) :
    reduceLevel sha256d n fuel mem r w =
      (overwrite mem w (merkleLevel (merkleNode sha256d) (unread mem n r)),
        equalSiblings (unread mem n r)) := by
  induction fuel generalizing mem r w with
  | zero => omega
  | succ fuel ih =>
      obtain ⟨hpairs, hflag⟩ := fillStage_eq hn mkStage hr
      have hlevel := length_levelPairs (unread mem n r)
      rw [length_unread hn] at hlevel
      have hstage : ((levelPairs (unread mem n r)).take mkStage).length =
          min mkStage ((n - r + 1) / 2) := by
        rw [List.length_take, hlevel]
      unfold reduceLevel
      simp only [hpairs, hflag]
      split
      · next hmore =>
          rw [hstage] at hmore
          have hfull : ((levelPairs (unread mem n r)).take mkStage).length = mkStage := by
            rw [hstage]
            omega
          obtain ⟨vals, hvals⟩ : ∃ vals, vals = ((levelPairs (unread mem n r)).take mkStage).map
              fun p => merkleNode sha256d p.1 p.2 := ⟨_, rfl⟩
          have hlen : vals.length = mkStage := by rw [hvals, List.length_map, hfull]
          have hread : unread (overwrite mem w vals) n (r + 2 * mkStage) =
              (unread mem n r).drop (2 * mkStage) := by
            rw [unread, drop_overwrite (by omega) (by omega), unread, List.drop_take,
              List.drop_drop]
            congr 1
          have hrest := @ih (overwrite mem w vals) (r + 2 * mkStage) (w + mkStage)
            (by rw [length_overwrite (by omega)]; exact hn) (by omega) (by omega)
            (by
              have hpos : 0 < mkStage := by decide
              omega)
          rw [hread] at hrest
          rw [← hvals, hfull, hrest]
          refine Prod.ext ?_ (equalSiblings_split mkStage (unread mem n r)).symm
          have hjoin := overwrite_overwrite mem vals
            (merkleLevel (merkleNode sha256d) ((unread mem n r).drop (2 * mkStage))) w (by
              rw [hlen, length_merkleLevel, List.length_drop, length_unread hn]
              omega)
          rw [hlen] at hjoin
          change overwrite (overwrite mem w vals) (w + mkStage) _ = _
          rw [hjoin, hvals, merkleLevel, merkleLevel, ← List.map_append, ← levelPairs_split]
      · next hdone =>
          rw [hstage] at hdone
          have hall : (n - r + 1) / 2 ≤ mkStage := by omega
          rw [List.take_of_length_le (by omega), List.take_of_length_le (by
            rw [length_unread hn]
            omega)]
          rfl

theorem treeTop_short {δ : Type*} {node : δ → δ → δ} (fuel : Nat) {l : List δ}
    (h : l.length ≤ 1) : treeTop node fuel l = l := by
  cases fuel with
  | zero => rfl
  | succ fuel => rw [treeTop, if_pos h]

theorem treeMutated_short {δ : Type*} [DecidableEq δ] {node : δ → δ → δ} (fuel : Nat)
    {l : List δ} (h : l.length ≤ 1) : treeMutated node fuel l = false := by
  cases fuel with
  | zero => rfl
  | succ fuel => rw [treeMutated, if_pos h]

theorem reduceLevels_eq (fuel : Nat) {mem : List (Bytes 32)} {n : Nat} (hn : n ≤ mem.length)
    (hfuel : n ≤ fuel) :
    reduceLevels sha256d fuel mem n =
      ((treeTop (merkleNode sha256d) fuel (mem.take n) ++ mem.drop n).head?,
        treeMutated (merkleNode sha256d) fuel (mem.take n)) := by
  have hlen : (mem.take n).length = n := by
    rw [List.length_take]
    omega
  induction fuel generalizing mem n with
  | zero =>
      rw [treeTop_short 0 (by omega), treeMutated_short 0 (by omega), List.take_append_drop]
      rfl
  | succ fuel ih =>
      by_cases hshort : n ≤ 1
      · rw [treeTop_short _ (by omega), treeMutated_short _ (by omega), List.take_append_drop,
          reduceLevels, if_pos hshort]
      · have hfirst : unread mem n 0 = mem.take n := rfl
        have hlevel : reduceLevel sha256d n n mem 0 0 = _ :=
          reduceLevel_eq n hn (show 0 < n by omega) (show 0 = 2 * 0 from rfl) (Nat.sub_le n 0)
        rw [hfirst, overwrite, List.take_zero, List.nil_append, Nat.zero_add] at hlevel
        have habove : (merkleLevel (merkleNode sha256d) (mem.take n)).length = (n + 1) / 2 := by
          rw [length_merkleLevel, hlen]
        have htake : (merkleLevel (merkleNode sha256d) (mem.take n) ++ mem.drop (merkleLevel
            (merkleNode sha256d) (mem.take n)).length).take ((n + 1) / 2) =
              merkleLevel (merkleNode sha256d) (mem.take n) := List.take_left' habove
        have hrest := @ih (merkleLevel (merkleNode sha256d) (mem.take n) ++
          mem.drop (merkleLevel (merkleNode sha256d) (mem.take n)).length) ((n + 1) / 2)
          (by
            rw [List.length_append]
            omega) (by omega) (by rw [htake, habove])
        rw [htake] at hrest
        have hone : (treeTop (merkleNode sha256d) fuel
            (merkleLevel (merkleNode sha256d) (mem.take n))).length = 1 :=
          length_treeTop (by omega) (List.ne_nil_of_length_pos (by omega))
        obtain ⟨top, htop⟩ := List.length_eq_one_iff.mp hone
        rw [reduceLevels, if_neg hshort, hlevel, treeTop, treeMutated, hlen, if_neg hshort,
          if_neg hshort]
        simp only [hrest, htop]
        rfl

theorem merkleRootInPlace_append (l tail : List (Bytes 32)) :
    merkleRootInPlace sha256d (l ++ tail) l.length =
      ((treeTop (merkleNode sha256d) l.length l ++ tail).head?,
        treeMutated (merkleNode sha256d) l.length l) := by
  have h : reduceLevels sha256d l.length (l ++ tail) l.length = _ :=
    reduceLevels_eq l.length (by rw [List.length_append]; omega) le_rfl
  rwa [List.take_left' rfl, List.drop_left' rfl] at h

theorem merkleRootInPlace_self (l : List (Bytes 32)) :
    merkleRootInPlace sha256d l l.length =
      ((treeTop (merkleNode sha256d) l.length l).head?,
        treeMutated (merkleNode sha256d) l.length l) := by
  have h : merkleRootInPlace sha256d (l ++ []) l.length = _ := merkleRootInPlace_append l []
  rwa [List.append_nil, List.append_nil] at h

/-! ## One root, one list -/

/-- The nodes a level is made of are hashes of pairs. -/
theorem exists_pair_of_reached {δ : Type*} {node : δ → δ → δ} {l m : List δ}
    (h : Relation.ReflTransGen (LevelAbove node) l m) (hm : m ≠ []) (hne : l ≠ m) :
    ∃ x ∈ m, ∃ p ∈ treePairs node l.length l, x = node p.1 p.2 := by
  rcases Relation.ReflTransGen.cases_tail h with heq | ⟨k, hk, hlen, rfl⟩
  · exact absurd heq.symm hne
  · obtain ⟨x, xs, hx⟩ := List.exists_cons_of_ne_nil hm
    have hmem : x ∈ merkleLevel node k := hx ▸ List.mem_cons_self
    obtain ⟨p, hp, rfl⟩ := List.mem_map.mp hmem
    exact ⟨_, hmem, p, levelPairs_mem_treePairs le_rfl hk hlen p hp, rfl⟩

theorem treeTop_eq_of_head {δ : Type*} {node : δ → δ → δ} {l l' : List δ} (hl : l ≠ [])
    (hl' : l' ≠ [])
    (h : (treeTop node l.length l).head? = (treeTop node l'.length l').head?) :
    treeTop node l.length l = treeTop node l'.length l' := by
  have hone : (treeTop node l.length l).length = 1 := length_treeTop le_rfl hl
  have hone' : (treeTop node l'.length l').length = 1 := length_treeTop le_rfl hl'
  obtain ⟨a, ha⟩ := List.length_eq_one_iff.mp hone
  obtain ⟨b, hb⟩ := List.length_eq_one_iff.mp hone'
  rw [ha, hb] at h ⊢
  obtain rfl : a = b := by simpa using h
  rfl

variable (sha256d) in
/-- Two lists of leaves that no pair of theirs hashes to, under one root and unflagged,
are one list; and the buffer holds what the tree says, whatever stands behind the
leaves. -/
theorem merkleRootInPlace_unique {l l' : List (Bytes 32)} (hl : l ≠ []) (hl' : l' ≠ [])
    (hinj : Set.InjOn (fun p : Bytes 32 × Bytes 32 => merkleNode sha256d p.1 p.2)
      {p | p ∈ treePairs (merkleNode sha256d) l.length l ∨
        p ∈ treePairs (merkleNode sha256d) l'.length l'})
    (hleaves : ∀ x, x ∈ l ∨ x ∈ l' → ∀ p, p ∈ treePairs (merkleNode sha256d) l.length l ∨
      p ∈ treePairs (merkleNode sha256d) l'.length l' → x ≠ merkleNode sha256d p.1 p.2)
    (hroot : (merkleRootInPlace sha256d l l.length).1 =
      (merkleRootInPlace sha256d l' l'.length).1)
    (hflag : (merkleRootInPlace sha256d l l.length).2 = false)
    (hflag' : (merkleRootInPlace sha256d l' l'.length).2 = false) :
    l = l' ∧ ∀ leaves tail : List (Bytes 32),
      merkleRootInPlace sha256d (leaves ++ tail) leaves.length =
        ((treeTop (merkleNode sha256d) leaves.length leaves ++ tail).head?,
          treeMutated (merkleNode sha256d) leaves.length leaves) := by
  refine ⟨?_, merkleRootInPlace_append⟩
  rw [merkleRootInPlace_self] at hflag
  rw [merkleRootInPlace_self] at hflag'
  rw [merkleRootInPlace_self, merkleRootInPlace_self] at hroot
  have htop := treeTop_eq_of_head hl hl' hroot
  by_contra hne
  rcases reached_or_reached le_rfl le_rfl hflag hflag' hinj htop with hreach | hreach
  · obtain ⟨x, hx, p, hp, heq⟩ := exists_pair_of_reached hreach hl' hne
    exact hleaves x (.inr hx) p (.inl hp) heq
  · obtain ⟨x, hx, p, hp, heq⟩ := exists_pair_of_reached hreach hl (Ne.symm hne)
    exact hleaves x (.inl hx) p (.inr hp) heq

end InPlace

/-! ## A sample tree -/

def sampleLeaves : List (Bytes 32) :=
  [⟨leBytes 32 1, length_leBytes 32 1⟩, ⟨leBytes 32 2, length_leBytes 32 2⟩]

theorem merkleRootInPlace_unique_sample :
    sampleLeaves ≠ [] ∧ (merkleRootInPlace Consensus.sha256d sampleLeaves 2).2 = false ∧
      merkleRootInPlace Consensus.sha256d (sampleLeaves ++ [zero32]) 2 =
        ((treeTop (merkleNode Consensus.sha256d) 2 sampleLeaves ++ [zero32]).head?,
          treeMutated (merkleNode Consensus.sha256d) 2 sampleLeaves) := by
  have hne : sampleLeaves ≠ [] := by decide
  have hflag : (merkleRootInPlace Consensus.sha256d sampleLeaves 2).2 = false := by
    decide
  have hpairs : ∀ p, p ∈ treePairs (merkleNode Consensus.sha256d) 2 sampleLeaves ∨
      p ∈ treePairs (merkleNode Consensus.sha256d) 2 sampleLeaves →
        p ∈ treePairs (merkleNode Consensus.sha256d) 2 sampleLeaves := fun p hp => hp.elim id id
  have hnode : ∀ x ∈ sampleLeaves, ∀ p ∈ treePairs (merkleNode Consensus.sha256d) 2 sampleLeaves,
      x ≠ merkleNode Consensus.sha256d p.1 p.2 := by
    set_option maxRecDepth 4000 in
    decide
  have hone : ∀ p ∈ treePairs (merkleNode Consensus.sha256d) 2 sampleLeaves,
      ∀ q ∈ treePairs (merkleNode Consensus.sha256d) 2 sampleLeaves, p = q := by decide
  exact ⟨hne, hflag, (merkleRootInPlace_unique Consensus.sha256d hne hne
    (fun p hp q hq _ => hone p (hpairs p hp) q (hpairs q hq))
    (fun x hx p hp => hnode x (hx.elim id id) p (hpairs p hp)) rfl hflag hflag).2 _ _⟩

end BitcoinMachineCode.Consensus
