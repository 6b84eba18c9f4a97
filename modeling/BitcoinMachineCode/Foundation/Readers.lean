import Mathlib.Data.List.Basic

/-!
# Readers

A reader takes a value from the front of a list and hands back what it did not
read.  A settled reader looks at nothing beyond what it takes, so the same bytes
read the same way in front of any others.
-/

namespace BitcoinMachineCode.Foundation

def Reader (β α : Type*) : Type _ := List β → Option (α × List β)

namespace Reader

variable {β α γ : Type*}

def pure (a : α) : Reader β α := fun bs => some (a, bs)

def bind (r : Reader β α) (f : α → Reader β γ) : Reader β γ :=
  fun bs => (r bs).bind fun p => f p.1 p.2

/-- The next `n` as they stand. -/
def take (n : Nat) : Reader β (List β) := fun bs =>
  if n ≤ bs.length then some (bs.take n, bs.drop n) else none

def times (r : Reader β α) : Nat → Reader β (List α)
  | 0 => pure []
  | n + 1 => bind r fun a => bind (times r n) fun as => pure (a :: as)

/-- The value with the stretch it was read from. -/
def verbatim (r : Reader β α) : Reader β (α × List β) := fun bs =>
  (r bs).map fun p => ((p.1, bs.take (bs.length - p.2.length)), p.2)

/-! ## What a reader takes -/

/-- The reader takes exactly `used` for `a`, whatever follows. -/
def Takes (r : Reader β α) (used : List β) (a : α) : Prop :=
  ∀ tail, r (used ++ tail) = some (a, tail)

def Settled (r : Reader β α) : Prop :=
  ∀ ⦃bs a rest⦄, r bs = some (a, rest) → ∃ used, bs = used ++ rest ∧ r.Takes used a

theorem bind_eq_some {r : Reader β α} {f : α → Reader β γ} {bs rest : List β} {c : γ}
    (h : bind r f bs = some (c, rest)) :
    ∃ a mid, r bs = some (a, mid) ∧ f a mid = some (c, rest) := by
  obtain ⟨⟨a, mid⟩, hr, hf⟩ := Option.bind_eq_some_iff.mp h
  exact ⟨a, mid, hr, hf⟩

theorem times_zero_eq_some {r : Reader β α} {bs rest : List β} {l : List α}
    (h : r.times 0 bs = some (l, rest)) : l = [] ∧ rest = bs := by
  obtain ⟨rfl, rfl⟩ := by simpa [times, pure] using h
  exact ⟨rfl, rfl⟩

theorem times_succ_eq_some {r : Reader β α} {n : Nat} {bs rest : List β} {l : List α}
    (h : r.times (n + 1) bs = some (l, rest)) :
    ∃ a as mid, r bs = some (a, mid) ∧ r.times n mid = some (as, rest) ∧ l = a :: as := by
  obtain ⟨a, mid, hfirst, h⟩ := bind_eq_some h
  obtain ⟨as, mid', hmore, h⟩ := bind_eq_some h
  obtain ⟨rfl, rfl⟩ := by simpa [pure] using h
  exact ⟨a, as, mid, hfirst, hmore, rfl⟩

theorem times_add_eq_some {r : Reader β α} {n m : Nat} {bs rest : List β} {l : List α}
    (h : r.times (n + m) bs = some (l, rest)) :
    ∃ l₁ l₂ mid, r.times n bs = some (l₁, mid) ∧ r.times m mid = some (l₂, rest) ∧
      l = l₁ ++ l₂ := by
  induction n generalizing bs l with
  | zero => exact ⟨[], l, bs, rfl, Nat.zero_add m ▸ h, rfl⟩
  | succ n ih =>
      rw [Nat.succ_add] at h
      obtain ⟨a, as, mid, hfirst, hmore, rfl⟩ := times_succ_eq_some h
      obtain ⟨l₁, l₂, mid', h₁, h₂, rfl⟩ := ih hmore
      refine ⟨a :: l₁, l₂, mid', ?_, h₂, rfl⟩
      simp [times, bind, hfirst, h₁, pure]

theorem length_of_times {r : Reader β α} {n : Nat} {bs rest : List β} {l : List α}
    (h : r.times n bs = some (l, rest)) : l.length = n := by
  induction n generalizing bs l with
  | zero => rw [(times_zero_eq_some h).1, List.length_nil]
  | succ n ih =>
      obtain ⟨a, as, mid, -, hmore, rfl⟩ := times_succ_eq_some h
      rw [List.length_cons, ih hmore]

theorem take_eq_some {n : Nat} {bs a rest : List β} (h : take n bs = some (a, rest)) :
    a.length = n ∧ bs = a ++ rest := by
  unfold take at h
  split at h
  · obtain ⟨rfl, rfl⟩ := by simpa using h
    exact ⟨by simpa using by omega, (List.take_append_drop n bs).symm⟩
  · cases h

theorem takes_take {n : Nat} {a : List β} (h : a.length = n) : (take n).Takes a a := by
  intro tail
  simp [take, ← h]

theorem takes_pure (a : α) : (pure a : Reader β α).Takes [] a := fun _ => rfl

theorem Takes.bind {r : Reader β α} {f : α → Reader β γ} {used used' : List β} {a : α} {c : γ}
    (hr : r.Takes used a) (hf : (f a).Takes used' c) :
    (Reader.bind r f).Takes (used ++ used') c := by
  intro tail
  rw [Reader.bind, List.append_assoc, hr]
  exact hf tail

theorem settled_pure (a : α) : (pure a : Reader β α).Settled := by
  rintro bs _ rest h
  obtain ⟨rfl, rfl⟩ := by simpa [pure] using h
  exact ⟨[], rfl, takes_pure a⟩

theorem settled_take (n : Nat) : (take n : Reader β (List β)).Settled := by
  intro bs a rest h
  obtain ⟨hlen, hbs⟩ := take_eq_some h
  exact ⟨a, hbs, takes_take hlen⟩

theorem Settled.bind {r : Reader β α} {f : α → Reader β γ} (hr : r.Settled)
    (hf : ∀ a, (f a).Settled) : (Reader.bind r f).Settled := by
  intro bs c rest h
  obtain ⟨a, mid, hra, hfa⟩ := bind_eq_some h
  obtain ⟨used, rfl, htakes⟩ := hr hra
  obtain ⟨used', rfl, htakes'⟩ := hf a hfa
  exact ⟨used ++ used', (List.append_assoc ..).symm, htakes.bind htakes'⟩

theorem Settled.times {r : Reader β α} (hr : r.Settled) (n : Nat) : (r.times n).Settled := by
  induction n with
  | zero => exact settled_pure []
  | succ n ih => exact hr.bind fun a => ih.bind fun as => settled_pure (a :: as)

theorem Takes.verbatim {r : Reader β α} {used : List β} {a : α} (h : r.Takes used a) :
    r.verbatim.Takes used (a, used) := by
  intro tail
  simp [Reader.verbatim, h tail]

theorem Settled.verbatim {r : Reader β α} (hr : r.Settled) : r.verbatim.Settled := by
  intro bs p rest h
  obtain ⟨⟨a, rest'⟩, hread, hp⟩ := Option.map_eq_some_iff.mp h
  obtain ⟨used, rfl, htakes⟩ := hr hread
  obtain ⟨rfl, rfl⟩ := by simpa using hp
  exact ⟨used, rfl, htakes.verbatim⟩

theorem Takes.times_cons {r : Reader β α} {n : Nat} {front back : List β} {a : α} {as : List α}
    (ha : r.Takes front a) (has : (r.times n).Takes back as) :
    (r.times (n + 1)).Takes (front ++ back) (a :: as) := by
  intro tail
  simp [Reader.times, Reader.bind, Reader.pure, ha (back ++ tail), has tail]

/-- What is read a number of times can be read with its stretches. -/
theorem times_verbatim {r : Reader β α} {n : Nat} {bs rest : List β} {l : List α}
    (h : r.times n bs = some (l, rest)) : ∃ l', r.verbatim.times n bs = some (l', rest) := by
  induction n generalizing bs l with
  | zero =>
      obtain ⟨-, rfl⟩ := times_zero_eq_some h
      exact ⟨[], rfl⟩
  | succ n ih =>
      obtain ⟨a, as, mid, hfirst, hmore, -⟩ := times_succ_eq_some h
      obtain ⟨l', hl'⟩ := ih hmore
      refine ⟨(a, bs.take (bs.length - mid.length)) :: l', ?_⟩
      simp [times, bind, verbatim, pure, hfirst, hl']

/-- The stretch a verbatim read reports is the one it took. -/
theorem verbatim_eq_some {r : Reader β α} (hr : r.Settled) {bs used rest : List β} {a : α}
    (h : r.verbatim bs = some ((a, used), rest)) :
    bs = used ++ rest ∧ r.Takes used a := by
  obtain ⟨⟨a', rest'⟩, hread, hp⟩ := Option.map_eq_some_iff.mp h
  obtain ⟨used', rfl, htakes⟩ := hr hread
  obtain ⟨⟨rfl, rfl⟩, rfl⟩ := by simpa using hp
  exact ⟨rfl, htakes⟩

/-- One stretch holds one value. -/
theorem Takes.unique {r : Reader β α} {used : List β} {a a' : α} (h : r.Takes used a)
    (h' : r.Takes used a') : a = a' := by
  have := (h []).symm.trans (h' [])
  simpa using this

/-! ## Stricter readers -/

/-- Whatever the one reads, the other reads the same way. -/
def Refines (r r' : Reader β α) : Prop := ∀ ⦃bs x⦄, r bs = some x → r' bs = some x

theorem Refines.refl (r : Reader β α) : r.Refines r := fun _ _ h => h

theorem Refines.bind {r r' : Reader β α} {f f' : α → Reader β γ} (hr : r.Refines r')
    (hf : ∀ a, (f a).Refines (f' a)) : (Reader.bind r f).Refines (Reader.bind r' f') := by
  rintro bs ⟨c, rest⟩ h
  obtain ⟨a, mid, hra, hfa⟩ := bind_eq_some h
  rw [Reader.bind, hr hra]
  exact hf a hfa

theorem Refines.times {r r' : Reader β α} (hr : r.Refines r') (n : Nat) :
    (r.times n).Refines (r'.times n) := by
  induction n with
  | zero => exact .refl _
  | succ n ih => exact hr.bind fun a => ih.bind fun as => .refl _

theorem Refines.verbatim {r r' : Reader β α} (hr : r.Refines r') :
    r.verbatim.Refines r'.verbatim := by
  intro bs x h
  obtain ⟨p, hread, rfl⟩ := Option.map_eq_some_iff.mp h
  rw [Reader.verbatim, hr hread]
  rfl

end Reader

end BitcoinMachineCode.Foundation
