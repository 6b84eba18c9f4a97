import Mathlib.Data.List.Nodup
import Mathlib.Tactic

/-!
# Keeping the first entry of each key

Slots are read one after the other; an empty one and one whose key was read before are
skipped.  The entries kept stand where their slots stand exactly if no skipped slot comes
before a kept one.
-/

namespace BitcoinMachineCode.Foundation

variable {α κ : Type*} [DecidableEq κ] (key : α → κ)

def keepFirst : List α → List (Option α) → List α
  | acc, [] => acc
  | acc, none :: slots => keepFirst acc slots
  | acc, some r :: slots =>
      if key r ∈ acc.map key then keepFirst acc slots else keepFirst (acc ++ [r]) slots

/-- The slot is empty, or an earlier one has its key. -/
def Skipped (slots : List (Option α)) (i : Nat) : Prop :=
  ∀ r, slots[i]? = some (some r) → ∃ j < i, ∃ q, slots[j]? = some (some q) ∧ key q = key r

/-- No skipped slot stands before one that is kept. -/
def Tidy (slots : List (Option α)) : Prop :=
  ∀ i j, i < j → Skipped key slots i → Skipped key slots j

variable {key}

@[simp] theorem keepFirst_nil (acc : List α) : keepFirst key acc [] = acc := rfl

@[simp] theorem keepFirst_none (acc : List α) (slots : List (Option α)) :
    keepFirst key acc (none :: slots) = keepFirst key acc slots := rfl

theorem keepFirst_some (acc : List α) (r : α) (slots : List (Option α)) :
    keepFirst key acc (some r :: slots) =
      if key r ∈ acc.map key then keepFirst key acc slots else keepFirst key (acc ++ [r]) slots := rfl

theorem keepFirst_append (acc : List α) (slots more : List (Option α)) :
    keepFirst key acc (slots ++ more) = keepFirst key (keepFirst key acc slots) more := by
  induction slots generalizing acc with
  | nil => rfl
  | cons slot slots ih =>
      cases slot with
      | none => exact ih acc
      | some r =>
          simp only [List.cons_append, keepFirst_some]
          split_ifs
          · exact ih acc
          · exact ih _

theorem keepFirst_spec (acc : List α) (slots : List (Option α)) :
    ∃ more, keepFirst key acc slots = acc ++ more ∧ more.length ≤ slots.length := by
  induction slots generalizing acc with
  | nil => exact ⟨[], by simp, le_rfl⟩
  | cons slot slots ih =>
      have hskip : ∃ more, keepFirst key acc slots = acc ++ more ∧
          more.length ≤ (slot :: slots).length := by
        obtain ⟨more, heq, hlen⟩ := ih acc
        exact ⟨more, heq, hlen.trans (Nat.le_succ _)⟩
      cases slot with
      | none => exact hskip
      | some r =>
          rw [keepFirst_some]
          split_ifs
          · exact hskip
          · obtain ⟨more, heq, hlen⟩ := ih (acc ++ [r])
            exact ⟨r :: more, by simp [heq], by simpa using hlen⟩

theorem nodup_keepFirst {acc : List α} (slots : List (Option α)) (h : (acc.map key).Nodup) :
    ((keepFirst key acc slots).map key).Nodup := by
  induction slots generalizing acc with
  | nil => exact h
  | cons slot slots ih =>
      cases slot with
      | none => exact ih h
      | some r =>
          rw [keepFirst_some]
          split_ifs with hr
          · exact ih h
          · refine ih ?_
            rw [List.map_append, List.map_singleton, List.nodup_append]
            refine ⟨h, by simp, fun k hk k' hk' heq => hr ?_⟩
            obtain rfl := List.mem_singleton.mp hk'
            exact heq ▸ hk

theorem keepFirst_map_some {acc rs : List α} (h : ((acc ++ rs).map key).Nodup) :
    keepFirst key acc (rs.map some) = acc ++ rs := by
  induction rs generalizing acc with
  | nil => simp
  | cons r rs ih =>
      have hr : key r ∉ acc.map key := by
        rw [List.map_append, List.nodup_append] at h
        exact fun hmem => h.2.2 _ hmem (key r) (by simp) rfl
      rw [List.map_cons, keepFirst_some, if_neg hr, ih (by simpa using h)]
      simp

theorem keepFirst_eq_self_iff {acc : List α} {slots : List (Option α)} :
    keepFirst key acc slots = acc ↔ ∀ r, some r ∈ slots → key r ∈ acc.map key := by
  induction slots with
  | nil => simp
  | cons slot slots ih =>
      cases slot with
      | none => simpa using ih
      | some r =>
          rw [keepFirst_some]
          split_ifs with hr
          · rw [ih]
            constructor
            · rintro h q hq
              rcases List.mem_cons.mp hq with hq | hq
              · obtain rfl := Option.some_injective _ hq
                exact hr
              · exact h q hq
            · exact fun h q hq => h q (List.mem_cons_of_mem _ hq)
          · constructor
            · intro heq
              obtain ⟨more, hmore, -⟩ : ∃ more, keepFirst key (acc ++ [r]) slots =
                acc ++ [r] ++ more ∧ more.length ≤ slots.length := keepFirst_spec _ _
              rw [hmore] at heq
              have := congrArg List.length heq
              simp at this
            · exact fun h => absurd (h r List.mem_cons_self) hr

theorem mem_keys_keepFirst {acc : List α} {slots : List (Option α)} {k : κ} :
    k ∈ (keepFirst key acc slots).map key ↔
      k ∈ acc.map key ∨ ∃ r, some r ∈ slots ∧ key r = k := by
  induction slots generalizing acc with
  | nil => simp
  | cons slot slots ih =>
      cases slot with
      | none => simp [ih]
      | some r =>
          rw [keepFirst_some]
          split_ifs with hr
          · rw [ih]
            constructor
            · rintro (h | ⟨q, hq, rfl⟩)
              · exact .inl h
              · exact .inr ⟨q, List.mem_cons_of_mem _ hq, rfl⟩
            · rintro (h | ⟨q, hq, rfl⟩)
              · exact .inl h
              · rcases List.mem_cons.mp hq with hq | hq
                · obtain rfl := Option.some_injective _ hq
                  exact .inl hr
                · exact .inr ⟨q, hq, rfl⟩
          · rw [ih]
            simp only [List.map_append, List.map_cons, List.map_nil, List.mem_append,
              List.mem_cons, List.not_mem_nil, or_false, Option.some.injEq]
            constructor
            · rintro ((h | rfl) | ⟨q, hq, rfl⟩)
              · exact .inl h
              · exact .inr ⟨r, .inl rfl, rfl⟩
              · exact .inr ⟨q, .inr hq, rfl⟩
            · rintro (h | ⟨q, rfl | hq, rfl⟩)
              · exact .inl (.inl h)
              · exact .inl (.inr rfl)
              · exact .inr ⟨q, hq, rfl⟩

theorem length_keepFirst_le (slots : List (Option α)) :
    (keepFirst key [] slots).length ≤ slots.length := by
  obtain ⟨more, heq, hlen⟩ : ∃ more, keepFirst key [] slots = [] ++ more ∧
    more.length ≤ slots.length := keepFirst_spec _ _
  rw [heq]
  simpa using hlen

omit [DecidableEq κ] in
theorem skipped_append_iff {slots : List (Option α)} (slot : Option α) {i : Nat}
    (hi : i < slots.length) : Skipped key (slots ++ [slot]) i ↔ Skipped key slots i := by
  have hsame : ∀ j ≤ i, (slots ++ [slot])[j]? = slots[j]? := fun j hj =>
    List.getElem?_append_left (hj.trans_lt hi)
  unfold Skipped
  rw [hsame i le_rfl]
  refine forall₂_congr fun r _ => exists_congr fun j => and_congr_right fun hj => ?_
  rw [hsame j hj.le]

omit [DecidableEq κ] in
theorem Tidy.init {slots : List (Option α)} {slot : Option α}
    (h : Tidy key (slots ++ [slot])) : Tidy key slots := by
  intro i j hij hi
  by_cases hj : j < slots.length
  · exact (skipped_append_iff slot hj).mp
      (h i j hij ((skipped_append_iff slot (hij.trans hj)).mpr hi))
  · intro r hr
    rw [List.getElem?_eq_none (by omega)] at hr
    cases hr

/-- The last slot is skipped exactly if nothing is kept of it. -/
theorem skipped_last_iff {slots : List (Option α)} {slot : Option α} :
    Skipped key (slots ++ [slot]) slots.length ↔
      keepFirst key [] (slots ++ [slot]) = keepFirst key [] slots := by
  rw [keepFirst_append, keepFirst_eq_self_iff]
  have hlast : (slots ++ [slot])[slots.length]? = some slot := by simp
  unfold Skipped
  rw [hlast]
  simp only [List.mem_singleton, mem_keys_keepFirst, List.map_nil, List.not_mem_nil, false_or,
    Option.some.injEq]
  refine forall_congr' fun r => ?_
  rw [eq_comm]
  refine forall_congr' fun _ => ?_
  constructor
  · rintro ⟨j, hj, q, hq, hkey⟩
    rw [List.getElem?_append_left hj] at hq
    exact ⟨q, List.mem_of_getElem? hq, hkey⟩
  · rintro ⟨q, hq, hkey⟩
    obtain ⟨j, hj, hget⟩ := List.mem_iff_getElem.mp hq
    refine ⟨j, hj, q, ?_, hkey⟩
    rw [List.getElem?_append_left hj, List.getElem?_eq_getElem hj, hget]

/-- Where the entries kept are the first slots, all further slots are skipped. -/
theorem skipped_past_kept {slots : List (Option α)}
    (h : slots.take (keepFirst key [] slots).length = (keepFirst key [] slots).map some) {j : Nat}
    (hj : (keepFirst key [] slots).length ≤ j) : Skipped key slots j := by
  intro r hr
  have hnodup : ((keepFirst key [] slots).map key).Nodup := nodup_keepFirst slots (by simp)
  have hrest : keepFirst key (keepFirst key [] slots)
      (slots.drop (keepFirst key [] slots).length) = keepFirst key [] slots := by
    have hsplit : keepFirst key [] (slots.take (keepFirst key [] slots).length ++
        slots.drop (keepFirst key [] slots).length) = _ := keepFirst_append _ _ _
    rw [List.take_append_drop, h, keepFirst_map_some (by simpa using hnodup)] at hsplit
    exact hsplit.symm
  have hmem : some r ∈ slots.drop (keepFirst key [] slots).length := by
    apply List.mem_of_getElem? (i := j - (keepFirst key [] slots).length)
    rw [List.getElem?_drop, Nat.add_sub_cancel' hj, hr]
  obtain ⟨q, hq, hkey⟩ := List.mem_map.mp (keepFirst_eq_self_iff.mp hrest r hmem)
  obtain ⟨i, hi, hget⟩ := List.mem_iff_getElem.mp hq
  refine ⟨i, hi.trans_le hj, q, ?_, hkey⟩
  have hslot := congrArg (·[i]?) h
  simpa [List.getElem?_take_of_lt hi, List.getElem?_eq_getElem hi, hget] using hslot

theorem Tidy.take_kept {slots : List (Option α)} (h : Tidy key slots) :
    slots.take (keepFirst key [] slots).length = (keepFirst key [] slots).map some := by
  induction slots using List.reverseRecOn with
  | nil => simp
  | append_singleton slots slot ih =>
      have hkept := ih h.init
      by_cases hlast : Skipped key (slots ++ [slot]) slots.length
      · rw [skipped_last_iff.mp hlast, List.take_append_of_le_length (length_keepFirst_le slots)]
        exact hkept
      · -- the last slot is kept, so none before it is skipped
        have hlen : (keepFirst key [] slots).length = slots.length := by
          refine le_antisymm (length_keepFirst_le slots) (not_lt.mp fun hlt => hlast ?_)
          exact h _ _ hlt ((skipped_append_iff slot hlt).mpr (skipped_past_kept hkept le_rfl))
        rw [hlen, List.take_length] at hkept
        cases slot with
        | none => exact absurd (fun r hr => by simp at hr) hlast
        | some r =>
            have hfresh : key r ∉ (keepFirst key [] slots).map key := fun hmem =>
              hlast (skipped_last_iff.mpr (by rw [keepFirst_append, keepFirst_some, if_pos hmem]; rfl))
            have hnext : keepFirst key [] (slots ++ [some r]) = keepFirst key [] slots ++ [r] := by
              rw [keepFirst_append, keepFirst_some, if_neg hfresh]
              rfl
            rw [hnext, List.take_of_length_le (by simp [hlen]), List.map_append, ← hkept]
            rfl

theorem tidy_of_take_kept {slots : List (Option α)}
    (h : slots.take (keepFirst key [] slots).length = (keepFirst key [] slots).map some) :
    Tidy key slots := by
  intro i j hij hi
  by_cases him : (keepFirst key [] slots).length ≤ i
  · exact skipped_past_kept h (him.trans hij.le)
  · -- a slot among the kept ones is not skipped: the keys kept are distinct
    have hlt := not_le.mp him
    have hslot : ∀ n (hn : n < (keepFirst key [] slots).length),
        slots[n]? = some (some (keepFirst key [] slots)[n]) := fun n hn => by
      have := congrArg (·[n]?) h
      simpa [List.getElem?_take_of_lt hn, List.getElem?_eq_getElem hn] using this
    obtain ⟨n, hn, q, hq, hkey⟩ := hi _ (hslot i hlt)
    rw [hslot n (hn.trans hlt), Option.some.injEq, Option.some.injEq] at hq
    have hnodup : ((keepFirst key [] slots).map key).Nodup := nodup_keepFirst slots (by simp)
    have heq := (List.nodup_iff_getElem?_ne_getElem?.mp hnodup) n i hn (by simpa using hlt)
    rw [List.getElem?_map, List.getElem?_map, List.getElem?_eq_getElem (hn.trans hlt),
      List.getElem?_eq_getElem hlt, hq] at heq
    exact absurd (congrArg some hkey) heq

theorem tidy_iff {slots : List (Option α)} :
    Tidy key slots ↔
      slots.take (keepFirst key [] slots).length = (keepFirst key [] slots).map some :=
  ⟨Tidy.take_kept, tidy_of_take_kept⟩

/-- Where every slot is kept, the slots are what is kept. -/
theorem slots_eq_of_all_kept (acc : List α) (slots : List (Option α))
    (h : acc.length + slots.length ≤ (keepFirst key acc slots).length) :
    ∃ rs, keepFirst key acc slots = acc ++ rs ∧ slots = rs.map some := by
  induction slots generalizing acc with
  | nil => exact ⟨[], by simp, rfl⟩
  | cons slot slots ih =>
      have hskip : (keepFirst key acc slots).length ≤ acc.length + slots.length := by
        obtain ⟨more, heq, hlen⟩ : ∃ more, keepFirst key acc slots = acc ++ more ∧
          more.length ≤ slots.length := keepFirst_spec _ _
        rw [heq, List.length_append]
        omega
      cases slot with
      | none =>
          simp only [keepFirst_none, List.length_cons] at h
          omega
      | some r =>
          simp only [keepFirst_some, List.length_cons] at h ⊢
          split_ifs at h ⊢
          · omega
          · obtain ⟨rs, heq, hslots⟩ := ih (acc ++ [r]) (by simp; omega)
            exact ⟨r :: rs, by simp [heq], by simp [hslots]⟩

/-- Of untidy slots, the first as many as are kept are not all kept. -/
theorem length_keepFirst_take_lt {slots : List (Option α)} (h : ¬ Tidy key slots) :
    (keepFirst key [] (slots.take (keepFirst key [] slots).length)).length <
      (keepFirst key [] slots).length := by
  by_contra hge
  apply h
  apply tidy_of_take_kept
  have hle : (keepFirst key [] slots).length ≤ slots.length := length_keepFirst_le slots
  obtain ⟨rs, heq, htake⟩ : ∃ rs, keepFirst key [] (slots.take (keepFirst key [] slots).length) =
      [] ++ rs ∧ slots.take (keepFirst key [] slots).length = rs.map some := by
    apply slots_eq_of_all_kept
    simp only [List.length_nil, List.length_take]
    omega
  obtain ⟨more, hmore, -⟩ : ∃ more, keepFirst key rs
      (slots.drop (keepFirst key [] slots).length) = rs ++ more ∧ _ := keepFirst_spec _ _
  have hall : keepFirst key [] slots = rs ++ more := by
    have hsplit : keepFirst key [] (slots.take (keepFirst key [] slots).length ++
        slots.drop (keepFirst key [] slots).length) = _ := keepFirst_append _ _ _
    rw [List.take_append_drop, heq, List.nil_append, hmore] at hsplit
    exact hsplit
  have hlen := congrArg List.length htake
  have hlen' := congrArg List.length hall
  simp only [List.length_take, List.length_map, List.length_append] at hlen hlen'
  have hnil : more = [] := List.length_eq_zero_iff.mp (by omega)
  rw [hnil, List.append_nil] at hall
  rw [htake, hall]

end BitcoinMachineCode.Foundation
