import BitcoinMachineCode.Foundation.BackShift
import Mathlib.Data.Finset.Card
import Mathlib.Tactic.Cases

/-!
# Open addressing without deletion

Entries go into the first free slot from their home, a key as often as it is put.  While a
slot is free every search ends, and it finds the entry that was put first under its key.
-/

namespace BitcoinMachineCode.Foundation.Hashing

variable {σ κ : Type*} (H : Hashing σ κ)

/-- The first free slot among `n` from `i` on. -/
def freeFrom (slots : Nat → σ) : Nat → Nat → Option Nat
  | 0, _ => none
  | n + 1, i => if H.live (slots i) then freeFrom slots n ((i + 1) % H.size) else some i

variable [DecidableEq κ]

/-- The table after the entries have been put into it in this order. -/
structure Lists (slots : Nat → σ) (es : List σ) : Prop where
  found : ∀ k e, es.find? (H.keyOf · = k) = some e →
    ∃ d < H.size, slots ((H.home k + d) % H.size) = e ∧ H.live e = true ∧
      ∀ c < d, H.live (slots ((H.home k + c) % H.size)) = true ∧
        H.keyOf (slots ((H.home k + c) % H.size)) ≠ k
  only : ∀ p < H.size, H.live (slots p) = true → slots p ∈ es
  card_le : ((Finset.range H.size).filter fun p => H.live (slots p) = true).card ≤ es.length

variable {H} {slots : Nat → σ} {es : List σ} {k : κ} {i p : Nat}

theorem lists_nil (h : ∀ p < H.size, H.live (slots p) = false) : H.Lists slots [] := by
  refine ⟨nofun, fun p hp hlive => ?_, ?_⟩
  · rw [h p hp] at hlive
    cases hlive
  · rw [Finset.card_eq_zero.mpr]
    · exact Nat.zero_le _
    · refine Finset.filter_eq_empty_iff.mpr fun p hp => ?_
      rw [h p (Finset.mem_range.mp hp)]
      exact Bool.false_ne_true

theorem Lists.exists_free (h : H.Lists slots es) (hroom : es.length < H.size) {start : Nat}
    (hstart : start < H.size) :
    ∃ d < H.size, H.live (slots ((start + d) % H.size)) = false := by
  have hcard : ((Finset.range H.size).filter fun p => H.live (slots p) = true).card <
      (Finset.range H.size).card := by
    rw [Finset.card_range]
    exact h.card_le.trans_lt hroom
  obtain ⟨p, hp, hout⟩ := Finset.exists_mem_notMem_of_card_lt_card hcard
  rw [Finset.mem_range] at hp
  refine ⟨circleDist H.size start p, circleDist_lt (by omega), ?_⟩
  rw [add_circleDist hstart hp]
  by_contra hlive
  rw [Bool.not_eq_false] at hlive
  exact hout (Finset.mem_filter.mpr ⟨Finset.mem_range.mpr hp, hlive⟩)

omit [DecidableEq κ] in
theorem freeFrom_eq {n d h : Nat} (hh : h < H.size) (hd : d < n)
    (hfree : H.live (slots ((h + d) % H.size)) = false)
    (hbefore : ∀ c < d, H.live (slots ((h + c) % H.size)) = true) :
    H.freeFrom slots n h = some ((h + d) % H.size) := by
  induction d generalizing n h with
  | zero =>
      obtain ⟨n, rfl⟩ := Nat.exists_eq_add_one_of_ne_zero (Nat.ne_of_gt hd)
      have hzero : (h + 0) % H.size = h := Nat.mod_eq_of_lt hh
      rw [hzero] at hfree ⊢
      unfold freeFrom
      rw [hfree]
      rfl
  | succ d ih =>
      obtain ⟨n, rfl⟩ := Nat.exists_eq_add_one_of_ne_zero (Nat.ne_of_gt (Nat.zero_lt_of_lt hd))
      have hshift : ∀ c, ((h + 1) % H.size + c) % H.size = (h + (c + 1)) % H.size := fun c => by
        rw [Nat.mod_add_mod, Nat.add_assoc, Nat.add_comm 1 c]
      have hlive := hbefore 0 (Nat.zero_lt_succ d)
      rw [Nat.add_zero, Nat.mod_eq_of_lt hh] at hlive
      unfold freeFrom
      rw [if_pos hlive, ih (Nat.mod_lt _ (by omega)) (by omega) (by rw [hshift]; exact hfree)
        fun c hc => by rw [hshift]; exact hbefore (c + 1) (by omega), hshift]

/-- A search goes on as long as it meets entries of other keys. -/
theorem probeFrom_skip {n d h : Nat} (hh : h < H.size) (hd : d ≤ n)
    (hbefore : ∀ c < d, H.live (slots ((h + c) % H.size)) = true ∧
      H.keyOf (slots ((h + c) % H.size)) ≠ k) :
    H.probeFrom slots k n h = H.probeFrom slots k (n - d) ((h + d) % H.size) := by
  induction d generalizing n h with
  | zero => rw [Nat.add_zero, Nat.mod_eq_of_lt hh, Nat.sub_zero]
  | succ d ih =>
      obtain ⟨n, rfl⟩ := Nat.exists_eq_add_one_of_ne_zero (Nat.ne_of_gt (Nat.zero_lt_of_lt hd))
      have hshift : ∀ c, ((h + 1) % H.size + c) % H.size = (h + (c + 1)) % H.size := fun c => by
        rw [Nat.mod_add_mod, Nat.add_assoc, Nat.add_comm 1 c]
      obtain ⟨hlive, hkey⟩ := hbefore 0 (Nat.zero_lt_succ d)
      rw [Nat.add_zero, Nat.mod_eq_of_lt hh] at hlive hkey
      conv_lhs => unfold probeFrom
      rw [if_pos hlive, if_neg hkey, ih (Nat.mod_lt _ (by omega)) (by omega)
        fun c hc => by rw [hshift]; exact hbefore (c + 1) (by omega), hshift, Nat.add_sub_add_right]

/-- While a slot is free, a search ends at the entry put first under the key, or at a free
slot if there is none. -/
theorem Lists.probe_cases (h : H.Lists slots es) (hroom : es.length < H.size) (k : κ) :
    (∃ e i, es.find? (H.keyOf · = k) = some e ∧ H.probe slots k = .hit i ∧ i < H.size ∧ slots i = e) ∨
    (∃ d < H.size, es.find? (H.keyOf · = k) = none ∧
      H.probe slots k = .free ((H.home k + d) % H.size) ∧
      H.live (slots ((H.home k + d) % H.size)) = false ∧
      ∀ c < d, H.live (slots ((H.home k + c) % H.size)) = true) := by
  have hhome := H.home_lt k
  cases hfind : es.find? (H.keyOf · = k) with
  | some e =>
      obtain ⟨d, hd, hslot, hlive, hbefore⟩ := h.found k e hfind
      have hkey : H.keyOf e = k := by simpa using List.find?_some hfind
      refine .inl ⟨e, (H.home k + d) % H.size, rfl, ?_, Nat.mod_lt _ (by omega), hslot⟩
      unfold probe
      rw [probeFrom_skip hhome hd.le hbefore]
      obtain ⟨n, hn⟩ := Nat.exists_eq_add_one_of_ne_zero (show H.size - d ≠ 0 by omega)
      rw [hn]
      unfold probeFrom
      rw [hslot, if_pos hlive, if_pos hkey]
  | none =>
      have hnone : ∀ p < H.size, H.live (slots p) = true → H.keyOf (slots p) ≠ k := by
        intro p hp hlive
        simpa using List.find?_eq_none.mp hfind _ (h.only p hp hlive)
      refine .inr ?_
      rcases @probeFrom_spec _ _ H slots k _ H.size _ hhome with
        ⟨d, hd, -, hlive, hkey⟩ | ⟨d, hd, heq, hfree, hbefore⟩ | ⟨-, hall⟩
      · exact absurd hkey (hnone _ (Nat.mod_lt _ (by omega)) hlive)
      · exact ⟨d, hd, rfl, heq, hfree, fun c hc => (hbefore c hc).1⟩
      · obtain ⟨d, hd, hfree⟩ := h.exists_free hroom hhome
        rw [(hall d hd).1] at hfree
        cases hfree

/-- One more entry, in the first free slot from its home. -/
theorem Lists.snoc (h : H.Lists slots es) {s : σ} (hkey : H.keyOf s = k) (hlive : H.live s = true)
    {d : Nat} (hd : d < H.size) (hfree : H.live (slots ((H.home k + d) % H.size)) = false)
    (hbefore : ∀ c < d, H.live (slots ((H.home k + c) % H.size)) = true) :
    H.Lists (Function.update slots ((H.home k + d) % H.size) s) (es ++ [s]) := by
  subst hkey
  have hhome := H.home_lt (H.keyOf s)
  generalize hi : (H.home (H.keyOf s) + d) % H.size = i at hfree ⊢
  have hkeep : ∀ q, H.live (slots q) = true → Function.update slots i s q = slots q := by
    intro q hq
    refine Function.update_of_ne (fun hqi => ?_) ..
    rw [hqi, hfree] at hq
    cases hq
  refine ⟨fun k e hfind => ?_, fun p hp hp' => ?_, ?_⟩
  · rw [List.find?_append] at hfind
    cases hold : es.find? (H.keyOf · = k) with
    | some e' =>
        rw [hold] at hfind
        obtain rfl : e' = e := Option.some.inj hfind
        obtain ⟨c, hc, hslot, hlive', hbefore'⟩ := h.found k e' hold
        refine ⟨c, hc, ?_, hlive', fun b hb => ?_⟩
        · rw [hkeep _ (by rw [hslot]; exact hlive'), hslot]
        · rw [hkeep _ (hbefore' b hb).1]
          exact hbefore' b hb
    | none =>
        rw [hold, Option.none_or] at hfind
        have hmem : e ∈ [s] := List.mem_of_find?_eq_some hfind
        obtain rfl := List.mem_singleton.mp hmem
        have hkey : H.keyOf e = k := by simpa using List.find?_some hfind
        subst hkey
        refine ⟨d, hd, ?_, hlive, fun c hc => ?_⟩
        · rw [hi, Function.update_self]
        · have hc' := hbefore c hc
          rw [hkeep _ hc']
          refine ⟨hc', ?_⟩
          simpa using List.find?_eq_none.mp hold _ (h.only _ (Nat.mod_lt _ (by omega)) hc')
  · by_cases hpi : p = i
    · rw [hpi, Function.update_self]
      exact List.mem_append_right _ (List.mem_singleton_self s)
    · rw [Function.update_of_ne hpi] at hp' ⊢
      exact List.mem_append_left _ (h.only p hp hp')
  · have hsub : ((Finset.range H.size).filter fun p => H.live (Function.update slots i s p) = true) ⊆
        insert i ((Finset.range H.size).filter fun p => H.live (slots p) = true) := by
      intro p hp
      rw [Finset.mem_filter] at hp
      by_cases hpi : p = i
      · exact Finset.mem_insert.mpr (.inl hpi)
      · rw [Function.update_of_ne hpi] at hp
        exact Finset.mem_insert_of_mem (Finset.mem_filter.mpr hp)
    calc _ ≤ _ := Finset.card_le_card hsub
      _ ≤ _ := Finset.card_insert_le _ _
      _ ≤ (es ++ [s]).length := by
          rw [List.length_append]
          exact Nat.succ_le_succ h.card_le

/-- While a slot is free the loop for it ends. -/
theorem Lists.put (h : H.Lists slots es) (hroom : es.length < H.size) {s : σ} (hkey : H.keyOf s = k)
    (hlive : H.live s = true) :
    ∃ i, H.freeFrom slots H.size (H.home k) = some i ∧
      H.Lists (Function.update slots i s) (es ++ [s]) := by
  classical
  have hex := h.exists_free hroom (H.home_lt k)
  obtain ⟨hd, hfree⟩ := Nat.find_spec hex
  have hbefore : ∀ c < Nat.find hex, H.live (slots ((H.home k + c) % H.size)) = true := by
    intro c hc
    by_contra hnot
    rw [Bool.not_eq_true] at hnot
    exact Nat.find_min hex hc ⟨hc.trans hd, hnot⟩
  exact ⟨_, freeFrom_eq (H.home_lt k) hd hfree hbefore, h.snoc hkey hlive hd hfree hbefore⟩

end BitcoinMachineCode.Foundation.Hashing
