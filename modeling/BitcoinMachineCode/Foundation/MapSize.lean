import Mathlib.Data.Set.Card
import BitcoinMachineCode.Foundation.SortedRuns

/-!
# Sizes of maps

The number of keys a map holds, lists that enumerate a map, and the maps that
stacks of finite layers and merged runs hold.
-/

namespace BitcoinMachineCode.Foundation

namespace PMap

variable {κ ν : Type*}

def dom (m : PMap κ ν) : Set κ := {k | m k ≠ none}

noncomputable def size (m : PMap κ ν) : Nat := m.dom.ncard

theorem mem_dom {m : PMap κ ν} {k : κ} : k ∈ m.dom ↔ m k ≠ none := Iff.rfl

section Updates

variable [DecidableEq κ] {m : PMap κ ν} {k : κ}

theorem dom_put (v : ν) : (m.put k v).dom = insert k m.dom := by
  ext x
  rw [mem_dom, put_apply, Set.mem_insert_iff, mem_dom]
  split <;> simp_all

theorem dom_del : (m.del k).dom = m.dom \ {k} := by
  ext x
  rw [mem_dom, del_apply, Set.mem_sdiff, mem_dom, Set.mem_singleton_iff]
  split <;> simp_all

theorem size_put (hfin : m.dom.Finite) (h : m k = none) (v : ν) :
    (m.put k v).size = m.size + 1 := by
  rw [size, dom_put, Set.ncard_insert_of_notMem (by simpa [mem_dom] using h) hfin]
  rfl

theorem size_del (h : m k ≠ none) : (m.del k).size = m.size - 1 := by
  rw [size, dom_del, Set.ncard_sdiff_singleton_of_mem (mem_dom.mpr h)]
  rfl

end Updates

/-- A list with every entry of a map, each key once. -/
structure Enumerates (es : List (κ × ν)) (m : PMap κ ν) : Prop where
  nodup : (es.map Prod.fst).Nodup
  mem_iff : ∀ k v, (k, v) ∈ es ↔ m k = some v

namespace Enumerates

variable {es fs : List (κ × ν)} {m n : PMap κ ν}

theorem mem_keys (h : Enumerates es m) {k : κ} : k ∈ es.map Prod.fst ↔ k ∈ m.dom := by
  rw [mem_dom, Option.ne_none_iff_exists']
  constructor
  · intro hk
    obtain ⟨⟨x, v⟩, hmem, rfl⟩ := List.mem_map.mp hk
    exact ⟨v, (h.mem_iff x v).mp hmem⟩
  · rintro ⟨v, hv⟩
    exact List.mem_map_of_mem ((h.mem_iff k v).mpr hv)

theorem size_eq (h : Enumerates es m) : m.size = es.length := by
  classical
  have hdom : m.dom = ((es.map Prod.fst).toFinset : Set κ) := by
    ext k
    rw [← h.mem_keys, Finset.mem_coe, List.mem_toFinset]
  rw [size, hdom, Set.ncard_coe_finset, List.toFinset_card_of_nodup h.nodup, List.length_map]

/-- Two maps that share no key. -/
theorem append (h : Enumerates es m) (h' : Enumerates fs n)
    (hdisj : ∀ k, m k ≠ none → n k = none) :
    Enumerates (es ++ fs) fun k => (m k).or (n k) where
  nodup := by
    rw [List.map_append]
    refine List.nodup_append.mpr ⟨h.nodup, h'.nodup, ?_⟩
    rintro k hk _ hk' rfl
    exact mem_dom.mp (h'.mem_keys.mp hk') (hdisj k (h.mem_keys.mp hk))
  mem_iff k v := by
    rw [List.mem_append, h.mem_iff, h'.mem_iff]
    cases hm : m k with
    | none => simp
    | some w =>
        have := hdisj k (by simp [hm])
        simp [this]

end Enumerates

end PMap

/-! ## Stacks of finite layers -/

variable {κ ν : Type*}

/-- The keys a layer answers. -/
def answered (l : Layer κ ν) : Set κ := {k | l k ≠ none}

theorem finite_dom_stackMap {ls : List (Layer κ ν)} (h : ∀ l ∈ ls, (answered l).Finite) :
    (stackMap ls).dom.Finite := by
  induction ls with
  | nil => simp [PMap.dom, stackMap]
  | cons l ls ih =>
      refine ((h l List.mem_cons_self).union
        (ih fun x hx => h x (List.mem_cons_of_mem _ hx))).subset ?_
      intro k hk
      rw [PMap.mem_dom, stackMap_cons] at hk
      cases hl : l k with
      | none =>
          rw [hl] at hk
          exact Or.inr hk
      | some v =>
          refine Or.inl fun hnone => ?_
          rw [hl] at hnone
          cases hnone

/-! ## Records of distinct keys -/

/-- What is left of a record for the keys that count: its value. -/
def liveRecord (counts : κ → Bool) (r : Record κ ν) : Option (κ × ν) :=
  if counts r.1 then r.2.map fun v => (r.1, v) else none

theorem liveRecord_eq_some {counts : κ → Bool} {r : Record κ ν} {e : κ × ν} :
    liveRecord counts r = some e ↔ counts e.1 = true ∧ r = (e.1, some e.2) := by
  obtain ⟨k, v⟩ := r
  obtain ⟨x, w⟩ := e
  rw [liveRecord]
  split
  · next hk =>
      simp only [Option.map_eq_some_iff, Prod.mk.injEq]
      constructor
      · rintro ⟨u, rfl, rfl, rfl⟩
        exact ⟨hk, rfl, rfl⟩
      · rintro ⟨-, rfl, rfl⟩
        exact ⟨w, rfl, rfl, rfl⟩
  · next hk =>
      simp only [reduceCtorEq, Prod.mk.injEq, false_iff, not_and]
      rintro hx rfl
      exact absurd hx hk

variable [LinearOrder κ]

theorem enumerates_liveRecord {recs : List (Record κ ν)}
    (hlt : recs.Pairwise fun a b => a.1 < b.1) (counts : κ → Bool) :
    PMap.Enumerates (recs.filterMap (liveRecord counts))
      fun k => if counts k then (findKey k recs).join else none where
  nodup := by
    have hpair : (recs.filterMap (liveRecord counts)).Pairwise fun a b => a.1 < b.1 := by
      refine List.Pairwise.filterMap _ ?_ hlt
      rintro a b hab e he f hf
      obtain ⟨-, rfl⟩ := liveRecord_eq_some.mp he
      obtain ⟨-, rfl⟩ := liveRecord_eq_some.mp hf
      exact hab
    exact List.Pairwise.map _ (fun a b hab => hab.ne) hpair
  mem_iff k v := by
    have hs : InKeyOrder recs := hlt.imp Or.inl
    rw [List.mem_filterMap]
    constructor
    · rintro ⟨r, hr, he⟩
      obtain ⟨hk, rfl⟩ := liveRecord_eq_some.mp he
      rw [if_pos hk, (findKey_eq_some_iff hs).mpr hr]
      rfl
    · intro h
      split at h
      · next hk =>
          obtain hfind : findKey k recs = some (some v) := by
            rcases hf : findKey k recs with _ | _ | w
            all_goals simp_all
          exact ⟨(k, some v), (findKey_eq_some_iff hs).mp hfind,
            liveRecord_eq_some.mpr ⟨hk, rfl⟩⟩
      · cases h

theorem isSome_of_mem_mergeLoop {fuel : Nat} {slots : List (List (Record κ ν))}
    {r : Record κ ν} (h : r ∈ mergeLoop false fuel slots) : r.2.isSome := by
  induction fuel generalizing slots with
  | zero => cases h
  | succ fuel ih =>
      cases hw : winner slots with
      | none =>
          rw [mergeLoop_done hw] at h
          cases h
      | some w =>
          simp only [mergeLoop, hw, Bool.or_false] at h
          split at h
          · next hpush =>
              rcases List.mem_cons.mp h with rfl | h
              · exact hpush
              · exact ih h
          · exact ih h

namespace Run

theorem answered_find_finite (run : Run κ ν) : (answered run.find).Finite := by
  refine (run.recs.map Prod.fst).finite_toSet.subset ?_
  intro k hk
  obtain ⟨v, hv⟩ := Option.ne_none_iff_exists'.mp hk
  have hmem : (k, v) ∈ run.recs := (findKey_eq_some_iff run.inOrder).mp hv
  exact List.mem_map.mpr ⟨(k, v), hmem, rfl⟩

theorem pairwise_lt_merge (keepDels : Bool) (runs : List (Run κ ν)) :
    (merge keepDels runs).recs.Pairwise fun a b => a.1 < b.1 :=
  pairwise_lt_mergeLoop (inKeyOrder_recs runs)

/-- A merge that drops deletions holds one record for each key of its inputs. -/
theorem length_merge (runs : List (Run κ ν)) :
    (merge false runs).recs.length = (stackMap (layers runs)).size := by
  have henum := enumerates_liveRecord (pairwise_lt_merge false runs) fun _ => true
  have hmap : (fun k => if true then ((merge false runs).find k).join else none) =
      stackMap (layers runs) := by
    funext k
    rw [find_merge, if_pos rfl]
    rcases h : overlay (layers runs) k with _ | _ | v
    all_goals simp [stackMap, h, kept, Option.filter]
  have hlen : ((merge false runs).recs.filterMap (liveRecord fun _ => true)).length =
      (merge false runs).recs.length := by
    rw [List.filterMap_length_eq_length]
    intro r hr
    simpa [liveRecord] using isSome_of_mem_mergeLoop hr
  rw [← hlen, ← hmap]
  exact henum.size_eq.symm

end Run

end BitcoinMachineCode.Foundation
