import Mathlib
import BitcoinMachineCode.Foundation.PartialMap

/-!
# Sorted runs and stacks of layers

A layer answers a key with a value, with a deletion, or not at all; a stack of
layers answers with its newest layer that does.  A run is a layer kept as a
list of records sorted by key, and a k-way merge of runs answers as the stack
of its inputs.
-/

namespace BitcoinMachineCode.Foundation

variable {κ ν : Type*}

/-- What a source says of a key: a value, a deletion (`some none`), nothing. -/
abbrev Layer (κ ν : Type*) : Type _ := κ → Option (Option ν)

/-! ## Stacks of layers, newest first -/

def overlay (ls : List (Layer κ ν)) (k : κ) : Option (Option ν) :=
  ls.findSome? fun l => l k

/-- The map a stack holds: a deletion and silence both mean absent. -/
def stackMap (ls : List (Layer κ ν)) : PMap κ ν := fun k => (overlay ls k).join

@[simp] theorem overlay_nil (k : κ) : overlay ([] : List (Layer κ ν)) k = none := rfl

theorem overlay_cons (l : Layer κ ν) (ls : List (Layer κ ν)) (k : κ) :
    overlay (l :: ls) k = (l k).or (overlay ls k) := by
  simp only [overlay, List.findSome?_cons]
  cases l k <;> rfl

theorem overlay_append (ls ms : List (Layer κ ν)) (k : κ) :
    overlay (ls ++ ms) k = (overlay ls k).or (overlay ms k) :=
  List.findSome?_append

theorem stackMap_cons (l : Layer κ ν) (ls : List (Layer κ ν)) (k : κ) :
    stackMap (l :: ls) k = (l k).elim (stackMap ls k) id := by
  simp only [stackMap, overlay_cons]
  cases l k <;> rfl

/-- Layers that answer alike may stand for each other anywhere in a stack. -/
theorem stackMap_congr {mid mid' : List (Layer κ ν)}
    (h : ∀ k, overlay mid k = overlay mid' k) (top bottom : List (Layer κ ν)) :
    stackMap (top ++ mid ++ bottom) = stackMap (top ++ mid' ++ bottom) := by
  funext k
  simp only [stackMap, overlay_append, h k]

/-- At the bottom of a stack a deletion may be forgotten. -/
theorem stackMap_bottom {mid mid' : List (Layer κ ν)}
    (h : ∀ k, (overlay mid k).join = (overlay mid' k).join)
    (top : List (Layer κ ν)) : stackMap (top ++ mid) = stackMap (top ++ mid') := by
  funext k
  simp only [stackMap, overlay_append]
  cases overlay top k with
  | none => exact h k
  | some v => rfl

/-- A silent layer may be left out. -/
theorem stackMap_silent {l : Layer κ ν} (h : ∀ k, l k = none)
    (top bottom : List (Layer κ ν)) :
    stackMap (top ++ l :: bottom) = stackMap (top ++ bottom) := by
  funext k
  simp only [stackMap, overlay_append, overlay_cons, h k, Option.none_or]

/-! ## Records in key order -/

variable [LinearOrder κ]

abbrev Record (κ ν : Type*) : Type _ := κ × Option ν

/-- Sorted by key; copies of one record may follow each other. -/
def InKeyOrder (recs : List (Record κ ν)) : Prop :=
  recs.Pairwise fun a b => a.1 < b.1 ∨ a = b

theorem InKeyOrder.le_of_mem {r : Record κ ν} {rs : List (Record κ ν)}
    (h : InKeyOrder (r :: rs)) : ∀ x ∈ r :: rs, r.1 ≤ x.1 := by
  intro x hx
  rcases List.mem_cons.mp hx with rfl | hx
  · exact le_rfl
  · rcases (List.pairwise_cons.mp h).1 x hx with hlt | rfl
    · exact hlt.le
    · exact le_rfl

/-- The scan of a run: past the smaller keys, and no further than the key. -/
def findKey (k : κ) : List (Record κ ν) → Option (Option ν)
  | [] => none
  | r :: rs =>
      if r.1 < k then findKey k rs else if r.1 = k then some r.2 else none

@[simp] theorem findKey_nil (k : κ) : findKey k ([] : List (Record κ ν)) = none := rfl

theorem findKey_cons (k : κ) (r : Record κ ν) (rs : List (Record κ ν)) :
    findKey k (r :: rs) = if r.1 < k then findKey k rs else if r.1 = k then some r.2 else none := rfl

theorem findKey_of_forall_lt {k : κ} {recs : List (Record κ ν)}
    (h : ∀ r ∈ recs, k < r.1) : findKey k recs = none := by
  cases recs with
  | nil => rfl
  | cons r rs =>
      have hr := h r List.mem_cons_self
      rw [findKey_cons, if_neg (not_lt.mpr hr.le), if_neg hr.ne']

theorem findKey_eq_some_iff {recs : List (Record κ ν)} (hs : InKeyOrder recs)
    {k : κ} {v : Option ν} : findKey k recs = some v ↔ (k, v) ∈ recs := by
  induction recs with
  | nil => simp
  | cons r rs ih =>
      obtain ⟨hhead, htail⟩ := List.pairwise_cons.mp hs
      rw [findKey_cons, List.mem_cons]
      split
      · next hlt =>
          rw [ih htail]
          constructor
          · exact Or.inr
          · rintro (rfl | hmem)
            · exact absurd hlt (lt_irrefl _)
            · exact hmem
      · next hge =>
          have hin : (k, v) ∈ rs → (k, v) = r := by
            intro hmem
            rcases hhead _ hmem with hlt | heq
            · exact absurd hlt hge
            · exact heq.symm
          split
          · next heq =>
              subst heq
              rw [Option.some.injEq]
              constructor
              · rintro rfl
                exact Or.inl rfl
              · rintro (h | h)
                · rw [← h]
                · rw [← hin h]
          · next hne =>
              simp only [reduceCtorEq, false_iff]
              rintro (rfl | h)
              · exact hne rfl
              · exact hne (by rw [← hin h])

/-! ## The streaming merge -/

/-- One slot of the search for the next record: an equal key goes to the later
slot. -/
def pick (best : Option (Record κ ν)) (slot : List (Record κ ν)) :
    Option (Record κ ν) :=
  match slot, best with
  | [], best => best
  | r :: _, none => some r
  | r :: _, some b => if r.1 ≤ b.1 then some r else some b

/-- The record the merge emits next: the least key at the head of a slot. -/
def winner (slots : List (List (Record κ ν))) : Option (Record κ ν) :=
  slots.foldl pick none

/-- Every slot walks past all its copies of the emitted key. -/
def advance (k : κ) (slots : List (List (Record κ ν))) :
    List (List (Record κ ν)) :=
  slots.map fun slot => slot.dropWhile fun r => r.1 = k

def recordCount (slots : List (List (Record κ ν))) : Nat :=
  (slots.map List.length).sum

def mergeLoop (keepDels : Bool) :
    Nat → List (List (Record κ ν)) → List (Record κ ν)
  | 0, _ => []
  | fuel + 1, slots =>
      match winner slots with
      | none => []
      | some w =>
          let rest := mergeLoop keepDels fuel (advance w.1 slots)
          if w.2.isSome || keepDels then w :: rest else rest

/-- What the output of a merge keeps of an answer. -/
def kept (keepDels : Bool) (v : Option (Option ν)) : Option (Option ν) :=
  v.filter fun x => x.isSome || keepDels

def slotLayers (slots : List (List (Record κ ν))) : List (Layer κ ν) :=
  slots.reverse.map fun slot k => findKey k slot

theorem slotLayers_concat (slots : List (List (Record κ ν)))
    (slot : List (Record κ ν)) :
    slotLayers (slots ++ [slot]) = (fun k => findKey k slot) :: slotLayers slots := by
  simp [slotLayers]

theorem winner_concat (slots : List (List (Record κ ν)))
    (slot : List (Record κ ν)) :
    winner (slots ++ [slot]) = pick (winner slots) slot := by
  rw [winner, List.foldl_append]
  rfl

theorem winner_eq_none {slots : List (List (Record κ ν))}
    (h : winner slots = none) : ∀ slot ∈ slots, slot = [] := by
  induction slots using List.reverseRecOn with
  | nil => simp
  | append_singleton slots slot ih =>
      rw [winner_concat] at h
      cases slot with
      | nil =>
          intro s hs
          rcases List.mem_append.mp hs with hs | hs
          · exact ih h s hs
          · simpa using hs
      | cons r rs =>
          cases hw : winner slots with
          | none => simp [hw, pick] at h
          | some b =>
              simp only [hw, pick] at h
              split at h <;> cases h

/-- The winner's key is the least of all, and its record is the stack's answer
there. -/
theorem winner_spec {slots : List (List (Record κ ν))} {w : Record κ ν}
    (hs : ∀ slot ∈ slots, InKeyOrder slot) (h : winner slots = some w) :
    (∀ slot ∈ slots, ∀ r ∈ slot, w.1 ≤ r.1) ∧
      overlay (slotLayers slots) w.1 = some w.2 := by
  induction slots using List.reverseRecOn generalizing w with
  | nil => cases h
  | append_singleton slots slot ih =>
      have hsl : ∀ s ∈ slots, InKeyOrder s := fun s hm =>
        hs s (List.mem_append_left _ hm)
      have hso : InKeyOrder slot := hs slot (by simp)
      rw [winner_concat] at h
      rw [slotLayers_concat, overlay_cons]
      cases slot with
      | nil =>
          obtain ⟨hle, hov⟩ := ih hsl h
          refine ⟨?_, by simpa using hov⟩
          intro s hm
          rcases List.mem_append.mp hm with hm | hm
          · exact hle s hm
          · simp [List.mem_singleton.mp hm]
      | cons r rs =>
          have hfirst := hso.le_of_mem
          cases hw : winner slots with
          | none =>
              have hempty := winner_eq_none hw
              obtain rfl : r = w := by simpa [hw, pick] using h
              refine ⟨?_, by simp [findKey_cons]⟩
              intro s hm
              rcases List.mem_append.mp hm with hm | hm
              · simp [hempty s hm]
              · rwa [List.mem_singleton.mp hm]
          | some b =>
              obtain ⟨hle, hov⟩ := ih hsl hw
              simp only [hw, pick] at h
              split at h
              · next hrb =>
                  obtain rfl := Option.some.inj h
                  refine ⟨?_, by simp [findKey_cons]⟩
                  intro s hm x hx
                  rcases List.mem_append.mp hm with hm | hm
                  · exact hrb.trans (hle s hm x hx)
                  · exact hfirst x (by rwa [List.mem_singleton.mp hm] at hx)
              · next hrb =>
                  obtain rfl := Option.some.inj h
                  have hlt : b.1 < r.1 := not_le.mp hrb
                  refine ⟨?_, ?_⟩
                  · intro s hm x hx
                    rcases List.mem_append.mp hm with hm | hm
                    · exact hle s hm x hx
                    · rw [List.mem_singleton.mp hm] at hx
                      exact hlt.le.trans (hfirst x hx)
                  · rw [findKey_of_forall_lt
                      (fun x hx => hlt.trans_le (hfirst x hx))]
                    exact hov

theorem winner_head {slots : List (List (Record κ ν))} {w : Record κ ν}
    (h : winner slots = some w) : ∃ slot ∈ slots, slot.head? = some w := by
  induction slots using List.reverseRecOn with
  | nil => cases h
  | append_singleton slots slot ih =>
      have hkeep : winner slots = some w →
          ∃ s ∈ slots ++ [slot], s.head? = some w := by
        intro hw
        obtain ⟨s, hs, hhead⟩ := ih hw
        exact ⟨s, List.mem_append_left _ hs, hhead⟩
      rw [winner_concat] at h
      cases slot with
      | nil => exact hkeep h
      | cons r rs =>
          have hthis : r = w → ∃ s ∈ slots ++ [r :: rs], s.head? = some w :=
            fun hr => ⟨r :: rs, by simp, by simp [hr]⟩
          cases hw : winner slots with
          | none => exact hthis (by simpa [hw, pick] using h)
          | some b =>
              simp only [hw, pick] at h
              split at h
              · exact hthis (Option.some.inj h)
              · exact hkeep (hw.trans h)

/-! ### One round of the merge -/

theorem inKeyOrder_dropWhile {slot : List (Record κ ν)} (hs : InKeyOrder slot)
    (p : Record κ ν → Bool) : InKeyOrder (slot.dropWhile p) :=
  hs.sublist (List.dropWhile_sublist p)

theorem findKey_dropWhile {slot : List (Record κ ν)} {w k : κ} (hwk : w < k) :
    findKey k (slot.dropWhile fun r => r.1 = w) = findKey k slot := by
  induction slot with
  | nil => rfl
  | cons r rs ih =>
      by_cases hr : r.1 = w
      · rw [List.dropWhile_cons_of_pos (by simpa using hr), ih, findKey_cons,
          if_pos (hr ▸ hwk)]
      · rw [List.dropWhile_cons_of_neg (by simpa using hr)]

theorem lt_of_mem_dropWhile {slot : List (Record κ ν)} {w : κ}
    (hs : InKeyOrder slot) (hle : ∀ r ∈ slot, w ≤ r.1) :
    ∀ r ∈ slot.dropWhile (fun r => r.1 = w), w < r.1 := by
  induction slot with
  | nil => simp
  | cons r rs ih =>
      obtain ⟨-, htail⟩ := List.pairwise_cons.mp hs
      by_cases hr : r.1 = w
      · rw [List.dropWhile_cons_of_pos (by simpa using hr)]
        exact ih htail fun x hx => hle x (List.mem_cons_of_mem _ hx)
      · rw [List.dropWhile_cons_of_neg (by simpa using hr)]
        have hwr : w < r.1 := lt_of_le_of_ne (hle r List.mem_cons_self) (Ne.symm hr)
        exact fun x hx => hwr.trans_le (hs.le_of_mem x hx)

theorem slotLayers_advance (w : κ) (slots : List (List (Record κ ν))) :
    slotLayers (advance w slots) =
      slots.reverse.map fun slot k =>
        findKey k (slot.dropWhile fun r => r.1 = w) := by
  simp [slotLayers, advance, List.map_reverse, Function.comp_def]

theorem overlay_advance {slots : List (List (Record κ ν))} {w k : κ} (hwk : w < k) :
    overlay (slotLayers (advance w slots)) k = overlay (slotLayers slots) k := by
  rw [slotLayers_advance]
  simp only [slotLayers, overlay, List.findSome?_map, Function.comp_def,
    findKey_dropWhile hwk]

theorem overlay_of_forall_lt {slots : List (List (Record κ ν))} {k : κ}
    (h : ∀ slot ∈ slots, ∀ r ∈ slot, k < r.1) :
    overlay (slotLayers slots) k = none := by
  rw [overlay, List.findSome?_eq_none_iff]
  intro l hl
  obtain ⟨slot, hslot, rfl⟩ := List.mem_map.mp hl
  exact findKey_of_forall_lt (h slot (List.mem_reverse.mp hslot))

theorem lt_of_mem_advance {slots : List (List (Record κ ν))} {w : κ}
    (hs : ∀ slot ∈ slots, InKeyOrder slot)
    (hle : ∀ slot ∈ slots, ∀ r ∈ slot, w ≤ r.1) :
    ∀ slot ∈ advance w slots, ∀ r ∈ slot, w < r.1 := by
  intro slot hmem
  obtain ⟨s, hsl, rfl⟩ := List.mem_map.mp hmem
  exact lt_of_mem_dropWhile (hs s hsl) (hle s hsl)

theorem recordCount_advance_le (w : κ) (slots : List (List (Record κ ν))) :
    recordCount (advance w slots) ≤ recordCount slots := by
  induction slots with
  | nil => exact le_rfl
  | cons slot slots ih =>
      have hslot := (List.dropWhile_sublist (l := slot) fun r => decide (r.1 = w)).length_le
      simp only [recordCount, advance, List.map_cons, List.sum_cons] at ih ⊢
      omega

theorem recordCount_advance_lt {slots : List (List (Record κ ν))} {w : Record κ ν}
    (hmem : ∃ slot ∈ slots, slot.head? = some w) :
    recordCount (advance w.1 slots) < recordCount slots := by
  induction slots with
  | nil => simp at hmem
  | cons slot slots ih =>
      have hslot := (List.dropWhile_sublist (l := slot) fun r => decide (r.1 = w.1)).length_le
      have hslots := recordCount_advance_le w.1 slots
      obtain ⟨s, hs, hw⟩ := hmem
      simp only [recordCount, advance, List.map_cons, List.sum_cons] at ih hslots ⊢
      rcases List.mem_cons.mp hs with rfl | hs
      · cases s with
        | nil => cases hw
        | cons r rs =>
            obtain rfl : r = w := by simpa using hw
            have hrest := (List.dropWhile_sublist (l := rs)
              fun x => decide (x.1 = r.1)).length_le
            rw [List.dropWhile_cons_of_pos (by simp), List.length_cons]
            omega
      · have := ih ⟨s, hs, hw⟩
        omega

theorem inKeyOrder_advance {slots : List (List (Record κ ν))} (w : κ)
    (hs : ∀ slot ∈ slots, InKeyOrder slot) :
    ∀ slot ∈ advance w slots, InKeyOrder slot := by
  intro slot hmem
  obtain ⟨s, hsl, rfl⟩ := List.mem_map.mp hmem
  exact inKeyOrder_dropWhile (hs s hsl) _

/-! ### The whole merge -/

theorem mergeLoop_done {keepDels : Bool} {fuel : Nat}
    {slots : List (List (Record κ ν))} (h : winner slots = none) :
    mergeLoop keepDels fuel slots = [] := by
  cases fuel with
  | zero => rfl
  | succ fuel => rw [mergeLoop, h]

theorem mergeLoop_next {keepDels : Bool} {fuel : Nat} {slots : List (List (Record κ ν))}
    {w : Record κ ν} (h : winner slots = some w) :
    mergeLoop keepDels (fuel + 1) slots =
      if w.2.isSome || keepDels then w :: mergeLoop keepDels fuel (advance w.1 slots)
      else mergeLoop keepDels fuel (advance w.1 slots) := by
  simp only [mergeLoop, h]

theorem winner_eq_none_of_recordCount {slots : List (List (Record κ ν))}
    (h : recordCount slots = 0) : winner slots = none := by
  cases hw : winner slots with
  | none => rfl
  | some w =>
      have := recordCount_advance_lt (winner_head hw)
      omega

theorem findKey_cons_of_lt {k : κ} {r : Record κ ν} {rs : List (Record κ ν)}
    (h : r.1 < k) : findKey k (r :: rs) = findKey k rs := by
  rw [findKey_cons, if_pos h]

/-- A merge answers as the stack of its slots, the later slots newer. -/
theorem findKey_mergeLoop {keepDels : Bool} {fuel : Nat}
    {slots : List (List (Record κ ν))} (hs : ∀ slot ∈ slots, InKeyOrder slot)
    (hfuel : recordCount slots ≤ fuel) (k : κ) :
    findKey k (mergeLoop keepDels fuel slots) =
      kept keepDels (overlay (slotLayers slots) k) := by
  induction fuel generalizing slots with
  | zero =>
      have hw := winner_eq_none_of_recordCount (Nat.le_zero.mp hfuel)
      have hempty := winner_eq_none hw
      rw [overlay_of_forall_lt fun slot hslot r hr => by simp [hempty slot hslot] at hr]
      rfl
  | succ fuel ih =>
      cases hw : winner slots with
      | none =>
          have hempty := winner_eq_none hw
          rw [mergeLoop_done hw,
            overlay_of_forall_lt fun slot hslot r hr => by simp [hempty slot hslot] at hr]
          rfl
      | some w =>
          obtain ⟨hle, hov⟩ := winner_spec hs hw
          have hcount := recordCount_advance_lt (winner_head hw)
          have hpast := lt_of_mem_advance hs hle
          have hrest := ih (inKeyOrder_advance w.1 hs) (by omega)
          rw [mergeLoop_next hw]
          rcases lt_trichotomy k w.1 with hk | rfl | hk
          · -- a key below the winner's is in no slot
            rw [overlay_of_forall_lt fun slot hm r hr => hk.trans_le (hle slot hm r hr)]
            rw [overlay_of_forall_lt fun slot hm r hr => hk.trans (hpast slot hm r hr)]
              at hrest
            split
            · rw [findKey_cons, if_neg (not_lt.mpr hk.le), if_neg hk.ne']
              rfl
            · exact hrest
          · -- the winner's own key: emitted, or dropped with nothing left of it
            rw [overlay_of_forall_lt hpast] at hrest
            rw [hov, kept]
            split
            · next hkeep => simp [findKey_cons, Option.filter, hkeep]
            · next hdrop =>
                rw [hrest]
                simp [kept, Option.filter, hdrop]
          · rw [overlay_advance hk] at hrest
            split
            · rw [findKey_cons_of_lt hk, hrest]
            · exact hrest

theorem length_mergeLoop_le (keepDels : Bool) (fuel : Nat) (slots : List (List (Record κ ν))) :
    (mergeLoop keepDels fuel slots).length ≤ fuel := by
  induction fuel generalizing slots with
  | zero => exact le_rfl
  | succ fuel ih =>
      cases hw : winner slots with
      | none =>
          rw [mergeLoop_done hw]
          exact Nat.zero_le _
      | some w =>
          have hrest := ih (advance w.1 slots)
          rw [mergeLoop_next hw]
          split
          · exact Nat.succ_le_succ hrest
          · omega

theorem mem_of_mem_mergeLoop {keepDels : Bool} {fuel : Nat}
    {slots : List (List (Record κ ν))} {r : Record κ ν}
    (h : r ∈ mergeLoop keepDels fuel slots) : ∃ slot ∈ slots, r ∈ slot := by
  induction fuel generalizing slots with
  | zero => cases h
  | succ fuel ih =>
      cases hw : winner slots with
      | none =>
          rw [mergeLoop_done hw] at h
          cases h
      | some w =>
          have hrest : r ∈ mergeLoop keepDels fuel (advance w.1 slots) →
              ∃ slot ∈ slots, r ∈ slot := by
            intro hr
            obtain ⟨slot, hslot, hin⟩ := ih hr
            obtain ⟨s, hs, rfl⟩ := List.mem_map.mp hslot
            exact ⟨s, hs, (List.dropWhile_sublist _).subset hin⟩
          rw [mergeLoop_next hw] at h
          split at h
          · rcases List.mem_cons.mp h with rfl | h
            · obtain ⟨slot, hslot, hhead⟩ := winner_head hw
              exact ⟨slot, hslot, List.mem_of_head? hhead⟩
            · exact hrest h
          · exact hrest h

/-- The output has each key once. -/
theorem pairwise_lt_mergeLoop {keepDels : Bool} {fuel : Nat}
    {slots : List (List (Record κ ν))} (hs : ∀ slot ∈ slots, InKeyOrder slot) :
    (mergeLoop keepDels fuel slots).Pairwise fun a b => a.1 < b.1 := by
  induction fuel generalizing slots with
  | zero => exact List.Pairwise.nil
  | succ fuel ih =>
      cases hw : winner slots with
      | none =>
          rw [mergeLoop_done hw]
          exact List.Pairwise.nil
      | some w =>
          have hrest := ih (inKeyOrder_advance w.1 hs)
          have hpast := lt_of_mem_advance hs (winner_spec hs hw).1
          rw [mergeLoop_next hw]
          split
          · refine List.pairwise_cons.mpr ⟨?_, hrest⟩
            intro r hr
            obtain ⟨slot, hslot, hin⟩ := mem_of_mem_mergeLoop hr
            exact hpast slot hslot r hin
          · exact hrest

/-! ## Runs -/

/-- Records sorted by key. -/
structure Run (κ ν : Type*) [LinearOrder κ] where
  recs : List (Record κ ν)
  inOrder : InKeyOrder recs

namespace Run

def find (run : Run κ ν) : Layer κ ν := fun k => findKey k run.recs

def layers (runs : List (Run κ ν)) : List (Layer κ ν) := runs.reverse.map find

theorem inKeyOrder_recs (runs : List (Run κ ν)) :
    ∀ slot ∈ runs.map Run.recs, InKeyOrder slot := by
  intro slot hslot
  obtain ⟨run, -, rfl⟩ := List.mem_map.mp hslot
  exact run.inOrder

/-- The merge of runs given oldest first. -/
def merge (keepDels : Bool) (runs : List (Run κ ν)) : Run κ ν where
  recs := mergeLoop keepDels (recordCount (runs.map Run.recs)) (runs.map Run.recs)
  inOrder := (pairwise_lt_mergeLoop (inKeyOrder_recs runs)).imp Or.inl

theorem find_merge (keepDels : Bool) (runs : List (Run κ ν)) (k : κ) :
    (merge keepDels runs).find k = kept keepDels (overlay (layers runs) k) := by
  rw [find, merge, findKey_mergeLoop (inKeyOrder_recs runs) le_rfl]
  simp only [slotLayers, layers, ← List.map_reverse, List.map_map]
  rfl

/-- Records sorted; where two have one key they are the same. -/
def ofRecords (recs : List (Record κ ν))
    (hfun : ∀ a ∈ recs, ∀ b ∈ recs, a.1 = b.1 → a = b) : Run κ ν where
  recs := recs.insertionSort fun a b => a.1 ≤ b.1
  inOrder := by
    have htotal : Std.Total fun a b : Record κ ν => a.1 ≤ b.1 :=
      ⟨fun a b => le_total a.1 b.1⟩
    have htrans : IsTrans (Record κ ν) fun a b => a.1 ≤ b.1 :=
      ⟨fun _ _ _ => le_trans⟩
    have hle := List.pairwise_insertionSort (fun a b : Record κ ν => a.1 ≤ b.1) recs
    have hmem : ∀ x ∈ recs.insertionSort (fun a b => a.1 ≤ b.1), x ∈ recs :=
      fun x hx => (List.mem_insertionSort _).mp hx
    refine hle.imp_of_mem fun {a b} ha hb hab => ?_
    rcases hab.lt_or_eq with hlt | heq
    · exact Or.inl hlt
    · exact Or.inr (hfun a (hmem a ha) b (hmem b hb) heq)

theorem find_ofRecords {recs : List (Record κ ν)}
    (hfun : ∀ a ∈ recs, ∀ b ∈ recs, a.1 = b.1 → a = b) {k : κ} {v : Option ν} :
    (ofRecords recs hfun).find k = some v ↔ (k, v) ∈ recs := by
  rw [find, findKey_eq_some_iff (ofRecords recs hfun).inOrder]
  exact List.mem_insertionSort _

end Run

end BitcoinMachineCode.Foundation
