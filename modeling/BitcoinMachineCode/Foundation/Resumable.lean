import Mathlib.Tactic

/-!
# Resumable readers of a stream

A machine reads from a buffer that grows at its end.  It takes a turn when the buffer has
enough for one, and a turn is the same whatever comes after the bytes it needs.  What the
machine yields is then a function of the whole stream, however the stream is cut.
-/

namespace BitcoinMachineCode.Foundation

/-- One turn at the buffer: not enough bytes, a turn after which the machine goes on or
returns, or a violation. -/
inductive Turn (σ β ε : Type*) where
  | wait
  | again (s : σ) (rest : List β) (effect : Option ε)
  | done (s : σ) (rest : List β)
  | fail (s : σ) (rest : List β)

/-- The same turn with more behind what is left of the buffer. -/
def Turn.append {σ β ε : Type*} (more : List β) : Turn σ β ε → Turn σ β ε
  | .wait => .wait
  | .again s rest effect => .again s (rest ++ more) effect
  | .done s rest => .done s (rest ++ more)
  | .fail s rest => .fail s (rest ++ more)

/-- A turn that goes on or returns leaves less to read. -/
def Turn.Shrinks {σ β ε : Type*} (rank : σ → Nat) (bound : Nat) : Turn σ β ε → Prop
  | .again s rest _ => 2 * rest.length + rank s < bound
  | .done s rest => 2 * rest.length + rank s < bound
  | _ => True

/-- A turn that returns does so in a state with the property. -/
def Turn.ReturnsIn {σ β ε : Type*} (P : σ → Prop) : Turn σ β ε → Prop
  | .done s _ => P s
  | _ => True

/-- A turn that is not `wait` does not depend on what comes later.  `ready` is an item that
was read and not collected; the machine does not read on before it is. -/
structure Resumable (σ β ε μ : Type*) where
  turn : σ → List β → Turn σ β ε
  ready : σ → Option (μ × σ)
  rank : σ → Nat
  turn_append : ∀ s bs more, turn s bs ≠ .wait → turn s (bs ++ more) = (turn s bs).append more
  turn_shrinks : ∀ s bs, (turn s bs).Shrinks rank (2 * bs.length + rank s)
  turn_returns : ∀ s bs, (turn s bs).ReturnsIn fun s' => ∀ bs', turn s' bs' = .wait
  ready_waits : ∀ s m s' bs, ready s = some (m, s') → turn s bs = .wait
  ready_lt : ∀ s m s', ready s = some (m, s') → rank s' < rank s

namespace Resumable

variable {σ β ε μ : Type*} (M : Resumable σ β ε μ)

theorem again_lt {s s' : σ} {bs rest : List β} {e : Option ε}
    (h : M.turn s bs = .again s' rest e) :
    2 * rest.length + M.rank s' < 2 * bs.length + M.rank s := by
  have hlt := M.turn_shrinks s bs
  rw [h] at hlt
  exact hlt

theorem done_lt {s s' : σ} {bs rest : List β} (h : M.turn s bs = .done s' rest) :
    2 * rest.length + M.rank s' < 2 * bs.length + M.rank s := by
  have hlt := M.turn_shrinks s bs
  rw [h] at hlt
  exact hlt

/-- Turns until one is not possible, with what they set off; false for a violation. -/
def advanceFuel : Nat → σ → List β → Bool × σ × List β × List ε
  | 0, s, bs => (true, s, bs, [])
  | fuel + 1, s, bs =>
      match M.turn s bs with
      | .wait => (true, s, bs, [])
      | .done s' rest => (true, s', rest, [])
      | .fail s' rest => (false, s', rest, [])
      | .again s' rest effect =>
          let r := advanceFuel fuel s' rest
          (r.1, r.2.1, r.2.2.1, effect.toList ++ r.2.2.2)

def advance (s : σ) (bs : List β) : Bool × σ × List β × List ε :=
  M.advanceFuel (2 * bs.length + M.rank s + 1) s bs

/-- What the stream yields up to its first violation, and whether there is none. -/
def yields (s : σ) (bs : List β) : List μ × Bool :=
  match _hready : M.ready s with
  | some (m, s') => (m :: (yields s' bs).1, (yields s' bs).2)
  | none =>
      match _hturn : M.turn s bs with
      | .wait => ([], true)
      | .fail _ _ => ([], false)
      | .done s' rest => yields s' rest
      | .again s' rest _ => yields s' rest
termination_by 2 * bs.length + M.rank s
decreasing_by
  · have := M.ready_lt s _ s' _hready
    omega
  · exact M.done_lt _hturn
  · exact M.again_lt _hturn

variable {M}

theorem yields_ready {s s' : σ} {m : μ} (h : M.ready s = some (m, s')) (bs : List β) :
    M.yields s bs = (m :: (M.yields s' bs).1, (M.yields s' bs).2) := by
  rw [yields]
  split
  next m' s'' h' =>
    rw [h] at h'
    cases h'
    rfl
  next h' =>
    rw [h] at h'
    cases h'

theorem yields_wait {s : σ} {bs : List β} (hready : M.ready s = none)
    (h : M.turn s bs = .wait) : M.yields s bs = ([], true) := by
  rw [yields]
  split
  next h' => simp [hready] at h'
  next => split <;> simp_all

theorem yields_fail {s s' : σ} {bs rest : List β} (hready : M.ready s = none)
    (h : M.turn s bs = .fail s' rest) : M.yields s bs = ([], false) := by
  rw [yields]
  split
  next h' => simp [hready] at h'
  next => split <;> simp_all

theorem yields_again {s s' : σ} {bs rest : List β} {e : Option ε} (hready : M.ready s = none)
    (h : M.turn s bs = .again s' rest e) : M.yields s bs = M.yields s' rest := by
  rw [yields]
  split
  next h' => simp [hready] at h'
  next => split <;> simp_all

theorem yields_done {s s' : σ} {bs rest : List β} (hready : M.ready s = none)
    (h : M.turn s bs = .done s' rest) : M.yields s bs = M.yields s' rest := by
  rw [yields]
  split
  next h' => simp [hready] at h'
  next => split <;> simp_all

theorem ready_eq_none {s : σ} (bs : List β) (h : M.turn s bs ≠ .wait) : M.ready s = none := by
  cases hready : M.ready s with
  | none => rfl
  | some p => exact absurd (M.ready_waits s p.1 p.2 bs hready) h

/-! ## The stream and its pieces -/

/-- Turns taken early change nothing of what the stream yields, and after the last of them
no more is possible; a violation met early is the end of what the stream yields. -/
theorem advanceFuel_spec {fuel : Nat} {s : σ} {bs : List β}
    (hfuel : 2 * bs.length + M.rank s < fuel) :
    ((M.advanceFuel fuel s bs).1 = true →
      M.turn (M.advanceFuel fuel s bs).2.1 (M.advanceFuel fuel s bs).2.2.1 = .wait ∧
        ∀ more, M.yields (M.advanceFuel fuel s bs).2.1
          ((M.advanceFuel fuel s bs).2.2.1 ++ more) = M.yields s (bs ++ more)) ∧
    ((M.advanceFuel fuel s bs).1 = false → ∀ more, M.yields s (bs ++ more) = ([], false)) := by
  induction fuel generalizing s bs with
  | zero => omega
  | succ fuel ih =>
      have happend := fun more => M.turn_append s bs more
      have hready := ready_eq_none (M := M) (s := s) bs
      unfold advanceFuel
      cases hturn : M.turn s bs with
      | wait => exact ⟨fun _ => ⟨hturn, fun _ => rfl⟩, nofun⟩
      | done s' rest =>
          have hstop := M.turn_returns s bs
          rw [hturn] at happend hready hstop
          refine ⟨fun _ => ⟨hstop rest, fun more => ?_⟩, nofun⟩
          exact (yields_done (hready nofun) (happend more nofun)).symm
      | fail s' rest =>
          rw [hturn] at happend hready
          exact ⟨nofun, fun _ more => yields_fail (hready nofun) (happend more nofun)⟩
      | again s' rest e =>
          have hlt := M.again_lt hturn
          rw [hturn] at happend hready
          have heq : ∀ more, M.yields s (bs ++ more) = M.yields s' (rest ++ more) := fun more =>
            yields_again (hready nofun) (happend more nofun)
          simp only [heq]
          exact ih (by omega)

theorem turn_advance {s : σ} {bs : List β} (h : (M.advance s bs).1 = true) :
    M.turn (M.advance s bs).2.1 (M.advance s bs).2.2.1 = .wait :=
  ((advanceFuel_spec (Nat.lt_succ_self _)).1 h).1

theorem yields_advance {s : σ} {bs : List β} (h : (M.advance s bs).1 = true) (more : List β) :
    M.yields (M.advance s bs).2.1 ((M.advance s bs).2.2.1 ++ more) = M.yields s (bs ++ more) :=
  ((advanceFuel_spec (Nat.lt_succ_self _)).1 h).2 more

theorem yields_of_advance_fail {s : σ} {bs : List β} (h : (M.advance s bs).1 = false)
    (more : List β) : M.yields s (bs ++ more) = ([], false) :=
  (advanceFuel_spec (Nat.lt_succ_self _)).2 h more

theorem advance_of_fail {s s' : σ} {bs rest : List β} (h : M.turn s bs = .fail s' rest) :
    M.advance s bs = (false, s', rest, []) := by
  unfold advance advanceFuel
  rw [h]

/-- What every turn keeps holds when the machine comes to rest. -/
theorem advanceFuel_rule {P : σ → List β → List ε → Prop}
    (hagain : ∀ s bs es s' rest e, P s bs es → M.turn s bs = .again s' rest e →
      P s' rest (es ++ e.toList))
    (hdone : ∀ s bs es s' rest, P s bs es → M.turn s bs = .done s' rest → P s' rest es)
    {fuel : Nat} {s : σ} {bs : List β} (es : List ε) (h : P s bs es)
    (hok : (M.advanceFuel fuel s bs).1 = true) :
    P (M.advanceFuel fuel s bs).2.1 (M.advanceFuel fuel s bs).2.2.1
      (es ++ (M.advanceFuel fuel s bs).2.2.2) := by
  induction fuel generalizing s bs es with
  | zero => simpa [advanceFuel] using h
  | succ fuel ih =>
      unfold advanceFuel at hok ⊢
      cases hturn : M.turn s bs with
      | wait => simpa using h
      | done s' rest => simpa using hdone s bs es s' rest h hturn
      | fail s' rest => simp [hturn] at hok
      | again s' rest e =>
          rw [hturn] at hok
          have hnext := ih _ (hagain s bs es s' rest e h hturn) hok
          simpa using hnext

theorem advance_rule {P : σ → List β → List ε → Prop}
    (hagain : ∀ s bs es s' rest e, P s bs es → M.turn s bs = .again s' rest e →
      P s' rest (es ++ e.toList))
    (hdone : ∀ s bs es s' rest, P s bs es → M.turn s bs = .done s' rest → P s' rest es)
    {s : σ} {bs : List β} (h : P s bs []) (hok : (M.advance s bs).1 = true) :
    P (M.advance s bs).2.1 (M.advance s bs).2.2.1 (M.advance s bs).2.2.2 :=
  advanceFuel_rule hagain hdone [] h hok

/-- Turns that the buffer has bytes for lead to a violation. -/
inductive Violation (M : Resumable σ β ε μ) : σ → List β → Prop
  | here {s s' : σ} {bs rest : List β} : M.turn s bs = .fail s' rest → Violation M s bs
  | later {s s' : σ} {bs rest : List β} {e : Option ε} :
      M.turn s bs = .again s' rest e → Violation M s' rest → Violation M s bs

theorem violation_of_advanceFuel {fuel : Nat} {s : σ} {bs : List β}
    (h : (M.advanceFuel fuel s bs).1 = false) : Violation M s bs := by
  induction fuel generalizing s bs with
  | zero => cases h
  | succ fuel ih =>
      unfold advanceFuel at h
      split at h
      next hturn => cases h
      next s' rest hturn => cases h
      next s' rest hturn => exact .here hturn
      next s' rest e hturn => exact .later hturn (ih h)

theorem advance_of_not_violation {s : σ} {bs : List β} (h : ¬ Violation M s bs) :
    (M.advance s bs).1 = true := by
  cases hok : (M.advance s bs).1 with
  | true => rfl
  | false => exact absurd (violation_of_advanceFuel hok) h

end Resumable

end BitcoinMachineCode.Foundation
