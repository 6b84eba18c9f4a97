import Mathlib.Data.List.Forall2
import Mathlib.Data.List.NodupEquivFin

/-!
# Matching two lists in order

A scan of the second list that takes each match of the next item of the first finds an
assignment that keeps the order, whenever there is one.
-/

namespace BitcoinMachineCode.Foundation

open List

variable {α β : Type*} {R : α → β → Prop}

/-- The items of the first list go to items of the second, in order and none twice. -/
def Matched (R : α → β → Prop) (l : List α) (m : List β) : Prop :=
  ∃ f : Fin l.length → Fin m.length, StrictMono f ∧ ∀ i, R (l.get i) (m.get (f i))

theorem matched_iff_sublistForall₂ {l : List α} {m : List β} :
    Matched R l m ↔ SublistForall₂ R l m := by
  rw [sublistForall₂_iff]
  constructor
  · rintro ⟨f, hf, hR⟩
    refine ⟨(List.finRange l.length).map fun i => m.get (f i), ?_, ?_⟩
    · rw [forall₂_iff_get]
      refine ⟨by simp, fun i hi hi' => ?_⟩
      simpa using hR ⟨i, hi⟩
    · rw [sublist_iff_exists_fin_orderEmbedding_get_eq]
      refine ⟨(Fin.castOrderIso (by simp)).toOrderEmbedding.trans (OrderEmbedding.ofStrictMono f hf),
        fun i => ?_⟩
      simp only [List.get_eq_getElem, List.getElem_map, List.getElem_finRange]
      rfl
  · rintro ⟨t, hR, hsub⟩
    obtain ⟨f, hf⟩ := sublist_iff_exists_fin_orderEmbedding_get_eq.mp hsub
    have hlen : l.length = t.length := hR.length_eq
    refine ⟨fun i => f (Fin.cast hlen i), fun i j hij => f.strictMono hij, fun i => ?_⟩
    rw [← hf]
    exact hR.get i.2 (Fin.cast hlen i).2

theorem sublistForall₂_cons_iff {a : α} {b : β} {l : List α} {m : List β} (hab : R a b) :
    SublistForall₂ R (a :: l) (b :: m) ↔ SublistForall₂ R l m := by
  constructor
  · intro h
    cases h with
    | cons _ h => exact h
    | cons_right h =>
        obtain ⟨t, ht, hsub⟩ := sublistForall₂_iff.mp h
        cases ht with
        | cons _ ht => exact sublistForall₂_iff.mpr ⟨_, ht, (sublist_cons_self _ _).trans hsub⟩
  · exact SublistForall₂.cons hab

theorem sublistForall₂_cons_iff_of_not {a : α} {b : β} {l : List α} {m : List β} (hab : ¬ R a b) :
    SublistForall₂ R (a :: l) (b :: m) ↔ SublistForall₂ R (a :: l) m := by
  constructor
  · intro h
    cases h with
    | cons h _ => exact absurd h hab
    | cons_right h => exact h
  · exact SublistForall₂.cons_right

theorem SublistForall₂.length_le {l : List α} {m : List β} (h : SublistForall₂ R l m) :
    l.length ≤ m.length := by
  obtain ⟨t, ht, hsub⟩ := sublistForall₂_iff.mp h
  rw [ht.length_eq]
  exact hsub.length_le

theorem sublistForall₂_reverse {l : List α} {m : List β} :
    SublistForall₂ R l.reverse m.reverse ↔ SublistForall₂ R l m := by
  have hrev : ∀ {l : List α} {m : List β}, SublistForall₂ R l m →
      SublistForall₂ R l.reverse m.reverse := by
    intro l m h
    obtain ⟨t, ht, hsub⟩ := sublistForall₂_iff.mp h
    exact sublistForall₂_iff.mpr ⟨t.reverse, rel_reverse ht, hsub.reverse⟩
  refine ⟨fun h => ?_, hrev⟩
  have := hrev h
  rwa [reverse_reverse, reverse_reverse] at this

end BitcoinMachineCode.Foundation
