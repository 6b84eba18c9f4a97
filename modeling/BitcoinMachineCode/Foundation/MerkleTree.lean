import Mathlib.Data.Set.Function
import Mathlib.Logic.Relation

/-!
# Merkle trees over a list

A level is made of the pairs of the one below, the last node of an odd level
paired with itself.  Nothing marks the leaves, so a root can be read at two
depths: two lists under one root, neither with equal siblings, are levels of one
tree.
-/

namespace BitcoinMachineCode.Foundation

variable {δ : Type*}

/-- Neighbours, and the last node of an odd level with itself. -/
def levelPairs : List δ → List (δ × δ)
  | [] => []
  | [a] => [(a, a)]
  | a :: b :: rest => (a, b) :: levelPairs rest

def merkleLevel (node : δ → δ → δ) (l : List δ) : List δ :=
  (levelPairs l).map fun p => node p.1 p.2

/-- Two nodes with a place each in the level are the same. -/
def equalSiblings [DecidableEq δ] : List δ → Bool
  | a :: b :: rest => decide (a = b) || equalSiblings rest
  | _ => false

/-- The last level; as much fuel as nodes is enough. -/
def treeTop (node : δ → δ → δ) : Nat → List δ → List δ
  | 0, l => l
  | fuel + 1, l => if l.length ≤ 1 then l else treeTop node fuel (merkleLevel node l)

def treeMutated [DecidableEq δ] (node : δ → δ → δ) : Nat → List δ → Bool
  | 0, _ => false
  | fuel + 1, l =>
      if l.length ≤ 1 then false
      else equalSiblings l || treeMutated node fuel (merkleLevel node l)

/-- Every pair that is hashed on the way up. -/
def treePairs (node : δ → δ → δ) : Nat → List δ → List (δ × δ)
  | 0, _ => []
  | fuel + 1, l =>
      if l.length ≤ 1 then []
      else levelPairs l ++ treePairs node fuel (merkleLevel node l)

theorem length_levelPairs (l : List δ) : (levelPairs l).length = (l.length + 1) / 2 := by
  induction l using levelPairs.induct with
  | case1 => simp [levelPairs]
  | case2 a => simp [levelPairs]
  | case3 a b rest ih =>
      simp only [levelPairs, List.length_cons, ih]
      omega

theorem fst_mem_of_mem_levelPairs {l : List δ} {p : δ × δ} (h : p ∈ levelPairs l) : p.1 ∈ l := by
  induction l using levelPairs.induct with
  | case1 => cases h
  | case2 a =>
      obtain rfl : p = (a, a) := by simpa [levelPairs] using h
      exact List.mem_cons_self
  | case3 a b rest ih =>
      rcases List.mem_cons.mp h with rfl | h
      · exact List.mem_cons_self
      · exact List.mem_cons_of_mem _ (List.mem_cons_of_mem _ (ih h))

theorem length_merkleLevel (node : δ → δ → δ) (l : List δ) :
    (merkleLevel node l).length = (l.length + 1) / 2 := by
  rw [merkleLevel, List.length_map, length_levelPairs]

theorem levelPairs_injective [DecidableEq δ] {l l' : List δ} (h : levelPairs l = levelPairs l')
    (hl : equalSiblings l = false) (hl' : equalSiblings l' = false) : l = l' := by
  induction l using levelPairs.induct generalizing l' with
  | case1 =>
      have := congrArg List.length h
      rw [length_levelPairs, length_levelPairs, List.length_nil] at this
      exact (List.length_eq_zero_iff.mp (by omega)).symm
  | case2 a =>
      match l', h with
      | [b], h => simpa [levelPairs] using h
      | b :: c :: [], h =>
          obtain ⟨rfl, rfl⟩ : a = b ∧ a = c := by simpa [levelPairs] using h
          simp [equalSiblings] at hl'
      | b :: c :: d :: rest, h =>
          have := congrArg List.length h
          rw [length_levelPairs, length_levelPairs] at this
          simp only [List.length_cons, List.length_nil] at this
          omega
  | case3 a b rest ih =>
      match l', h with
      | [c], h =>
          simp only [levelPairs, List.cons.injEq, Prod.mk.injEq] at h
          obtain ⟨⟨rfl, rfl⟩, -⟩ := h
          simp [equalSiblings] at hl
      | c :: d :: rest', h =>
          simp only [levelPairs, List.cons.injEq, Prod.mk.injEq] at h
          simp only [equalSiblings, Bool.or_eq_false_iff] at hl hl'
          rw [h.1.1, h.1.2, ih h.2 hl.2 hl'.2]

theorem levelPairs_injective_of_length {l l' : List δ} (h : levelPairs l = levelPairs l')
    (hlen : l.length = l'.length) : l = l' := by
  induction l using levelPairs.induct generalizing l' with
  | case1 => exact (List.length_eq_zero_iff.mp hlen.symm).symm
  | case2 a =>
      obtain ⟨b, rfl⟩ := List.length_eq_one_iff.mp hlen.symm
      simpa [levelPairs] using h
  | case3 a b rest ih =>
      match l', hlen with
      | c :: d :: rest', hlen =>
          simp only [levelPairs, List.cons.injEq, Prod.mk.injEq] at h
          simp only [List.length_cons, Nat.add_right_cancel_iff] at hlen
          rw [h.1.1, h.1.2, ih h.2 hlen]

/-! ## Two lists under one root -/

/-- A level and the one above it, below the root. -/
def LevelAbove (node : δ → δ → δ) (l m : List δ) : Prop :=
  2 ≤ l.length ∧ m = merkleLevel node l

section Roots

variable {node : δ → δ → δ}

theorem treeTop_reached (fuel : Nat) (l : List δ) :
    Relation.ReflTransGen (LevelAbove node) l (treeTop node fuel l) := by
  induction fuel generalizing l with
  | zero => exact .refl
  | succ fuel ih =>
      rw [treeTop]
      split
      · exact .refl
      · next hlen => exact .head ⟨by omega, rfl⟩ (ih _)

theorem eq_of_map_eq {α β : Type*} {f : α → β} {s : Set α} (hinj : Set.InjOn f s)
    {ps qs : List α} (hps : ∀ p ∈ ps, p ∈ s) (hqs : ∀ q ∈ qs, q ∈ s)
    (h : ps.map f = qs.map f) : ps = qs := by
  induction ps generalizing qs with
  | nil => exact (List.map_eq_nil_iff.mp h.symm).symm
  | cons p ps ih =>
      obtain ⟨q, qs, rfl, hq, htail⟩ := List.map_eq_cons_iff.mp h.symm
      have hfirst : q = p := hinj (hqs q List.mem_cons_self) (hps p List.mem_cons_self) hq
      have hrest := ih (fun x hx => hps x (List.mem_cons_of_mem _ hx))
        (fun x hx => hqs x (List.mem_cons_of_mem _ hx)) htail.symm
      rw [hfirst, hrest]

theorem length_treeTop {fuel : Nat} {l : List δ} (hfuel : l.length ≤ fuel) (hne : l ≠ []) :
    (treeTop node fuel l).length = 1 := by
  have hpos := List.length_pos_iff.mpr hne
  induction fuel generalizing l with
  | zero => omega
  | succ n ih =>
      rw [treeTop]
      split
      · omega
      · have hlen := length_merkleLevel node l
        exact ih (by omega) (List.ne_nil_of_length_pos (by omega)) (by omega)

/-- The pairs of every level between a list and the root are hashed on its way up. -/
theorem levelPairs_mem_treePairs {fuel : Nat} {l m : List δ} (hfuel : l.length ≤ fuel)
    (h : Relation.ReflTransGen (LevelAbove node) l m) (hm : 2 ≤ m.length) :
    ∀ p ∈ levelPairs m, p ∈ treePairs node fuel l := by
  induction h using Relation.ReflTransGen.head_induction_on generalizing fuel with
  | refl =>
      obtain ⟨n, rfl⟩ : ∃ n, fuel = n + 1 := ⟨fuel - 1, by omega⟩
      intro p hp
      rw [treePairs, if_neg (by omega)]
      exact List.mem_append_left _ hp
  | head hstep _ ih =>
      obtain ⟨hlen, rfl⟩ := hstep
      obtain ⟨n, rfl⟩ : ∃ n, fuel = n + 1 := ⟨fuel - 1, by omega⟩
      intro p hp
      rw [treePairs, if_neg (by omega)]
      exact List.mem_append_right _ (ih (by rw [length_merkleLevel]; omega) p hp)

theorem equalSiblings_of_treeMutated [DecidableEq δ] {fuel : Nat} {l m : List δ}
    (hfuel : l.length ≤ fuel) (hclean : treeMutated node fuel l = false)
    (h : Relation.ReflTransGen (LevelAbove node) l m) : equalSiblings m = false := by
  induction h using Relation.ReflTransGen.head_induction_on generalizing fuel with
  | refl =>
      match m, fuel, hfuel, hclean with
      | [], _, _, _ => rfl
      | [_], _, _, _ => rfl
      | a :: b :: rest, n + 1, _, hclean =>
          rw [treeMutated, if_neg (by simp)] at hclean
          exact (Bool.or_eq_false_iff.mp hclean).1
  | head hstep _ ih =>
      obtain ⟨hlen, rfl⟩ := hstep
      obtain ⟨n, rfl⟩ : ∃ n, fuel = n + 1 := ⟨fuel - 1, by omega⟩
      rw [treeMutated, if_neg (by omega)] at hclean
      exact ih (by rw [length_merkleLevel]; omega) (Bool.or_eq_false_iff.mp hclean).2

theorem eq_of_merkleLevel_eq [DecidableEq δ] {fuel fuel' : Nat} {l l' m m' : List δ}
    (hfuel : l.length ≤ fuel) (hfuel' : l'.length ≤ fuel')
    (hclean : treeMutated node fuel l = false) (hclean' : treeMutated node fuel' l' = false)
    (hinj : Set.InjOn (fun p : δ × δ => node p.1 p.2)
      {p | p ∈ treePairs node fuel l ∨ p ∈ treePairs node fuel' l'})
    (hm : Relation.ReflTransGen (LevelAbove node) l m) (hlen : 2 ≤ m.length)
    (hm' : Relation.ReflTransGen (LevelAbove node) l' m') (hlen' : 2 ≤ m'.length)
    (h : merkleLevel node m = merkleLevel node m') : m = m' := by
  refine levelPairs_injective ?_ (equalSiblings_of_treeMutated hfuel hclean hm)
    (equalSiblings_of_treeMutated hfuel' hclean' hm')
  exact eq_of_map_eq hinj (fun p hp => .inl (levelPairs_mem_treePairs hfuel hm hlen p hp))
    (fun p hp => .inr (levelPairs_mem_treePairs hfuel' hm' hlen' p hp)) h

/-- Two lists under one root with no equal siblings: one is a level of the
other's tree. -/
theorem reached_or_reached [DecidableEq δ] {fuel fuel' : Nat} {l l' : List δ}
    (hfuel : l.length ≤ fuel) (hfuel' : l'.length ≤ fuel')
    (hclean : treeMutated node fuel l = false) (hclean' : treeMutated node fuel' l' = false)
    (hinj : Set.InjOn (fun p : δ × δ => node p.1 p.2)
      {p | p ∈ treePairs node fuel l ∨ p ∈ treePairs node fuel' l'})
    (htop : treeTop node fuel l = treeTop node fuel' l') :
    Relation.ReflTransGen (LevelAbove node) l l' ∨
      Relation.ReflTransGen (LevelAbove node) l' l := by
  induction fuel generalizing l l' fuel' with
  | zero =>
      rw [treeTop] at htop
      exact .inr (htop ▸ treeTop_reached fuel' l')
  | succ n ih =>
      by_cases hshort : l.length ≤ 1
      · rw [treeTop, if_pos hshort] at htop
        exact .inr (htop ▸ treeTop_reached fuel' l')
      by_cases hshort' : l'.length ≤ 1
      · have hself : treeTop node fuel' l' = l' := by
          cases fuel' with
          | zero => rfl
          | succ n' => rw [treeTop, if_pos hshort']
        exact .inl (hself ▸ htop ▸ treeTop_reached (n + 1) l)
      -- both have a level above them: compare those first
      obtain ⟨n', rfl⟩ : ∃ n', fuel' = n' + 1 := ⟨fuel' - 1, by omega⟩
      have hclean₁ := hclean
      have hclean₁' := hclean'
      rw [treeMutated, if_neg hshort, Bool.or_eq_false_iff] at hclean₁
      rw [treeMutated, if_neg hshort', Bool.or_eq_false_iff] at hclean₁'
      have htop₁ := htop
      rw [treeTop, treeTop, if_neg hshort, if_neg hshort'] at htop₁
      have hinj₁ : Set.InjOn (fun p : δ × δ => node p.1 p.2)
          {p | p ∈ treePairs node n (merkleLevel node l) ∨
            p ∈ treePairs node n' (merkleLevel node l')} := by
        refine hinj.mono fun p hp => ?_
        rw [Set.mem_ofPred_eq, treePairs, treePairs, if_neg hshort, if_neg hshort']
        exact hp.imp (List.mem_append_right _) (List.mem_append_right _)
      have hsame := @eq_of_merkleLevel_eq δ node _ (n + 1) (n' + 1) l l'
      have habove : LevelAbove node l (merkleLevel node l) := ⟨by omega, rfl⟩
      have habove' : LevelAbove node l' (merkleLevel node l') := ⟨by omega, rfl⟩
      rcases ih (by rw [length_merkleLevel]; omega) (by rw [length_merkleLevel]; omega)
        hclean₁.2 hclean₁'.2 hinj₁ htop₁ with hreach | hreach
      · rcases Relation.ReflTransGen.cases_tail hreach with heq | ⟨m, hm, hlen, hlevel⟩
        · exact .inl (hsame hfuel hfuel' hclean hclean' hinj .refl habove.1 .refl habove'.1
            heq.symm ▸ .refl)
        · have hmem : Relation.ReflTransGen (LevelAbove node) l m := .head habove hm
          exact .inl (hsame hfuel hfuel' hclean hclean' hinj hmem hlen .refl habove'.1
            hlevel.symm ▸ hmem)
      · rcases Relation.ReflTransGen.cases_tail hreach with heq | ⟨m, hm, hlen, hlevel⟩
        · exact .inl (hsame hfuel hfuel' hclean hclean' hinj .refl habove.1 .refl habove'.1
            heq ▸ .refl)
        · have hmem : Relation.ReflTransGen (LevelAbove node) l' m := .head habove' hm
          exact .inr (hsame hfuel hfuel' hclean hclean' hinj .refl habove.1 hmem hlen
            hlevel ▸ hmem)

/-- Under one root, as many leaves are the same leaves. -/
theorem eq_of_treeTop_eq {fuel : Nat} {l l' : List δ} (hfuel : l.length ≤ fuel)
    (hlen : l.length = l'.length)
    (hinj : Set.InjOn (fun p : δ × δ => node p.1 p.2)
      {p | p ∈ treePairs node fuel l ∨ p ∈ treePairs node fuel l'})
    (htop : treeTop node fuel l = treeTop node fuel l') : l = l' := by
  induction fuel generalizing l l' with
  | zero => exact htop
  | succ n ih =>
      rw [treeTop, treeTop, ← hlen] at htop
      by_cases hshort : l.length ≤ 1
      · rwa [if_pos hshort, if_pos hshort] at htop
      · rw [if_neg hshort, if_neg hshort] at htop
        rw [treePairs, treePairs, ← hlen, if_neg hshort, if_neg hshort] at hinj
        have hlevel : merkleLevel node l = merkleLevel node l' := by
          refine ih (by rw [length_merkleLevel]; omega)
            (by rw [length_merkleLevel, length_merkleLevel, hlen]) (hinj.mono fun p hp => ?_) htop
          exact hp.imp (List.mem_append_right _) (List.mem_append_right _)
        refine levelPairs_injective_of_length (eq_of_map_eq hinj ?_ ?_ hlevel) hlen
        · exact fun p hp => .inl (List.mem_append_left _ hp)
        · exact fun p hp => .inr (List.mem_append_left _ hp)

end Roots

end BitcoinMachineCode.Foundation
