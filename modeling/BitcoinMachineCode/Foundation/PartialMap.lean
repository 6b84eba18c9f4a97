import Mathlib.Logic.Function.Basic
import Mathlib.Data.List.Basic

/-!
# Partial maps

Maps from keys to optional values, with the two updates of a key-value store
and the two bulk operations an undo log makes of them: restoring recorded
entries where the key is absent, and deleting a list of keys.
-/

namespace BitcoinMachineCode.Foundation

def PMap (κ ν : Type*) : Type _ := κ → Option ν

namespace PMap

variable {κ ν : Type*} [DecidableEq κ]

def set (m : PMap κ ν) (k : κ) (v : Option ν) : PMap κ ν := Function.update m k v

def put (m : PMap κ ν) (k : κ) (v : ν) : PMap κ ν := m.set k (some v)

def del (m : PMap κ ν) (k : κ) : PMap κ ν := m.set k none

@[simp] theorem set_self (m : PMap κ ν) (k : κ) (v : Option ν) : m.set k v k = v :=
  Function.update_self ..

theorem set_of_ne (m : PMap κ ν) {k x : κ} (v : Option ν) (h : x ≠ k) :
    m.set k v x = m x := Function.update_of_ne h ..

@[simp] theorem put_self (m : PMap κ ν) (k : κ) (v : ν) : m.put k v k = some v :=
  Function.update_self ..

@[simp] theorem del_self (m : PMap κ ν) (k : κ) : m.del k k = none :=
  Function.update_self ..

theorem put_of_ne (m : PMap κ ν) {k x : κ} (v : ν) (h : x ≠ k) :
    m.put k v x = m x := Function.update_of_ne h ..

theorem del_of_ne (m : PMap κ ν) {k x : κ} (h : x ≠ k) : m.del k x = m x :=
  Function.update_of_ne h ..

theorem put_apply (m : PMap κ ν) (k x : κ) (v : ν) :
    m.put k v x = if x = k then some v else m x := Function.update_apply ..

theorem del_apply (m : PMap κ ν) (k x : κ) :
    m.del k x = if x = k then none else m x := Function.update_apply ..

theorem del_put (m : PMap κ ν) (k : κ) (v : ν) : (m.del k).put k v = m.put k v :=
  Function.update_idem ..

theorem del_of_none {m : PMap κ ν} {k : κ} (h : m k = none) : m.del k = m :=
  Function.update_eq_self_iff.mpr h.symm

/-! ## Restoring and deleting -/

/-- Put an entry back, unless its key is there. -/
def restore (m : PMap κ ν) (e : κ × ν) : PMap κ ν :=
  if (m e.1).isSome then m else m.put e.1 e.2

def restoreAll (m : PMap κ ν) (es : List (κ × ν)) : PMap κ ν :=
  es.foldl restore m

def delAll (m : PMap κ ν) (ks : List κ) : PMap κ ν := ks.foldl del m

theorem restore_apply (m : PMap κ ν) (e : κ × ν) (k : κ) :
    m.restore e k =
      match m k with
      | some v => some v
      | none => if k = e.1 then some e.2 else none := by
  by_cases hk : k = e.1
  · subst hk
    cases hm : m e.1 with
    | none => simp [restore, hm]
    | some v => simp [restore, hm]
  · have hsame : m.restore e k = m k := by
      rw [restore]
      split
      · rfl
      · exact put_of_ne m e.2 hk
    rw [hsame]
    cases m k <;> simp [hk]

theorem restoreAll_cons (m : PMap κ ν) (e : κ × ν) (es : List (κ × ν)) :
    m.restoreAll (e :: es) = (m.restore e).restoreAll es := rfl

theorem restoreAll_append (m : PMap κ ν) (es fs : List (κ × ν)) :
    m.restoreAll (es ++ fs) = (m.restoreAll es).restoreAll fs :=
  List.foldl_append

theorem delAll_cons (m : PMap κ ν) (k : κ) (ks : List κ) :
    m.delAll (k :: ks) = (m.del k).delAll ks := rfl

/-- The first recorded value of an absent key comes back; a present key keeps
its value. -/
theorem restoreAll_apply (m : PMap κ ν) (es : List (κ × ν)) (k : κ) :
    m.restoreAll es k =
      match m k with
      | some v => some v
      | none => (es.find? fun e => e.1 = k).map Prod.snd := by
  induction es generalizing m with
  | nil => cases h : m k <;> simp [restoreAll, h]
  | cons e es ih =>
      rw [restoreAll_cons, ih, restore_apply]
      cases m k with
      | some v => rfl
      | none =>
          by_cases hk : k = e.1
          · simp [hk]
          · have hne : ¬ e.1 = k := fun h => hk h.symm
            simp [hk, hne]

theorem delAll_apply (m : PMap κ ν) (ks : List κ) (k : κ) :
    m.delAll ks k = if k ∈ ks then none else m k := by
  induction ks generalizing m with
  | nil => rfl
  | cons x ks ih =>
      rw [delAll_cons, ih, del_apply]
      by_cases hmem : k ∈ ks
      · simp [hmem]
      · by_cases hk : k = x <;> simp [hk, hmem]

theorem restoreAll_of_some {m : PMap κ ν} {es : List (κ × ν)} {k : κ} {v : ν}
    (h : m k = some v) : m.restoreAll es k = some v := by
  rw [restoreAll_apply, h]

theorem restoreAll_of_forall_ne {m : PMap κ ν} {es : List (κ × ν)} {k : κ}
    (h : ∀ e ∈ es, e.1 ≠ k) : m.restoreAll es k = m k := by
  have hnone : (es.find? fun e => e.1 = k) = none := by
    rw [List.find?_eq_none]
    intro e he
    simpa using h e he
  rw [restoreAll_apply, hnone]
  cases m k <;> rfl

/-- Records that agree on a key restore that value. -/
theorem restoreAll_of_mem {m : PMap κ ν} {es : List (κ × ν)} {k : κ} {v : ν}
    (hmem : (k, v) ∈ es) (hval : ∀ e ∈ es, e.1 = k → e.2 = v)
    (habs : m k = none ∨ m k = some v) : m.restoreAll es k = some v := by
  rcases habs with habs | hsome
  · cases hfind : es.find? (fun e => e.1 = k) with
    | none =>
        rw [List.find?_eq_none] at hfind
        exact absurd (decide_eq_true rfl) (hfind (k, v) hmem)
    | some e =>
        have hin := List.mem_of_find?_eq_some hfind
        have hkey : e.1 = k := by simpa using List.find?_some hfind
        rw [restoreAll_apply, habs, hfind]
        simp [hval e hin hkey]
  · exact restoreAll_of_some hsome

/-- Restoring recorded entries and then deleting a list of keys gives back an
earlier map, when every other key either kept its value or lost it to a
record. -/
theorem restore_del_eq {m₀ m : PMap κ ν} {es : List (κ × ν)} {ks : List κ}
    (hfresh : ∀ k ∈ ks, m₀ k = none)
    (hkept : ∀ k, k ∉ ks → m k = m₀ k ∨ m k = none)
    (hrec : ∀ e ∈ es, e.1 ∉ ks → m₀ e.1 = some e.2)
    (hlost : ∀ k, k ∉ ks → m k = none → ∀ v, m₀ k = some v → (k, v) ∈ es) :
    (m.restoreAll es).delAll ks = m₀ := by
  funext k
  rw [delAll_apply]
  by_cases hk : k ∈ ks
  · rw [if_pos hk, hfresh k hk]
  · rw [if_neg hk]
    cases hm₀ : m₀ k with
    | none =>
        have hm : m k = none := by
          rcases hkept k hk with h | h
          · rw [h, hm₀]
          · exact h
        rw [restoreAll_of_forall_ne, hm]
        intro e he hek
        have := hrec e he (hek ▸ hk)
        rw [hek, hm₀] at this
        cases this
    | some v =>
        have hval : ∀ e ∈ es, e.1 = k → e.2 = v := by
          intro e he hek
          have := hrec e he (hek ▸ hk)
          rw [hek, hm₀] at this
          exact (Option.some.inj this).symm
        rcases hkept k hk with h | h
        · exact restoreAll_of_some (by rw [h, hm₀])
        · exact restoreAll_of_mem (hlost k hk h v hm₀) hval (Or.inl h)

end PMap

end BitcoinMachineCode.Foundation
