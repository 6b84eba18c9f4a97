import Mathlib
import BitcoinMachineCode.Foundation.Digits

/-!
# One request per block across the legs

The table of `daemon/inflight.c`: a leg claims a block before it asks for it,
gives the claim up when its pass ends, and a stored block is remembered for a
while.  Every section runs under the table's lock, so a run is a sequence of
whole operations, each with the clock its caller passes.  Whatever the legs do,
a block has one live entry at most; while its claim is fresh, no other leg is
told to fetch it, and while its mark is fresh, no leg is, except where a full
table gave the entry away.
-/

namespace BitcoinMachineCode.Network

open BitcoinMachineCode.Foundation

def inflightMax : Nat := 64

theorem inflightMax_pos : 0 < inflightMax := by decide

def inflightStaleS : Int := 600

def inflightDoneS : Int := 120

structure InflightEnt where
  hash : Bytes 32
  leg : Int
  since : Int
  used : Bool
  stored : Bool

structure Inflight where
  e : Fin inflightMax → InflightEnt
  claims : Nat
  refused : Nat
  released : Nat
  refusedStored : Nat

namespace Inflight

def init : Inflight :=
  ⟨fun _ => ⟨Bytes.ofList 32 [], 0, 0, false, false⟩, 0, 0, 0, 0⟩

/-- A stored mark past `INFLIGHT_DONE_S` is free space. -/
def live (x : InflightEnt) (now : Int) : Bool :=
  x.used && !(x.stored && decide (inflightDoneS ≤ now - x.since))

def find (t : Inflight) (hash : Bytes 32) (now : Int) : Option (Fin inflightMax) :=
  (List.finRange inflightMax).find? fun i => live (t.e i) now && decide ((t.e i).hash = hash)

def oldest (t : Inflight) : Fin inflightMax :=
  ((List.finRange inflightMax).drop 1).foldl
    (fun best i => if (t.e i).since < (t.e best).since then i else best) ⟨0, inflightMax_pos⟩

/-- A free slot, else the oldest entry. -/
def slot (t : Inflight) (now : Int) : Fin inflightMax :=
  match (List.finRange inflightMax).find? fun i => !live (t.e i) now with
  | some i => i
  | none => t.oldest

def claim (t : Inflight) (hash : Bytes 32) (leg now : Int) : Bool × Inflight :=
  match t.find hash now with
  | some i =>
      if (t.e i).stored then
        (false, { t with refused := t.refused + 1, refusedStored := t.refusedStored + 1 })
      else if (t.e i).leg ≠ leg then
        if now - (t.e i).since < inflightStaleS then (false, { t with refused := t.refused + 1 })
        else
          -- the pass that held it never came back
          (true, { t with
            e := Function.update t.e i { t.e i with leg := leg, since := now }
            claims := t.claims + 1 })
      else (true, t)
  | none =>
      (true, { t with
        e := Function.update t.e (t.slot now) ⟨hash, leg, now, true, false⟩
        claims := t.claims + 1 })

def wouldAllow (t : Inflight) (hash : Bytes 32) (leg now : Int) : Bool :=
  match t.find hash now with
  | none => true
  | some i =>
      if (t.e i).stored then false
      else decide ((t.e i).leg = leg) || decide (inflightStaleS ≤ now - (t.e i).since)

def markStored (t : Inflight) (hash : Bytes 32) (now : Int) : Inflight :=
  match t.find hash now with
  | some i =>
      { t with e := Function.update t.e i { t.e i with stored := true, leg := -1, since := now } }
  | none => { t with e := Function.update t.e (t.slot now) ⟨hash, -1, now, true, true⟩ }

def forgetStored (t : Inflight) : Inflight :=
  { t with
    e := fun i =>
      if (t.e i).used && (t.e i).stored then { t.e i with used := false, stored := false }
      else t.e i }

/-- The claims for which `p` holds are given up. -/
def releaseWhere (t : Inflight) (p : InflightEnt → Bool) : Inflight :=
  { t with
    e := fun i =>
      if (t.e i).used && !(t.e i).stored && p (t.e i) then { t.e i with used := false } else t.e i
    released := t.released +
      (List.finRange inflightMax).countP fun i =>
        (t.e i).used && !(t.e i).stored && p (t.e i) }

def release (t : Inflight) (hash : Bytes 32) : Inflight :=
  t.releaseWhere fun x => decide (x.hash = hash)

def releaseLeg (t : Inflight) (leg : Int) : Inflight :=
  t.releaseWhere fun x => decide (x.leg = leg)

inductive Op where
  | claim (hash : Bytes 32) (leg : Int)
  | markStored (hash : Bytes 32)
  | forgetStored
  | release (hash : Bytes 32)
  | releaseLeg (leg : Int)

def apply (t : Inflight) (now : Int) : Op → Inflight
  | .claim hash leg => (t.claim hash leg now).2
  | .markStored hash => t.markStored hash now
  | .forgetStored => t.forgetStored
  | .release hash => t.release hash
  | .releaseLeg leg => t.releaseLeg leg

/-! ## One live entry for each block -/

/-- At `now` no two entries of a block are live. -/
def Single (t : Inflight) (now : Int) : Prop :=
  ∀ i j, live (t.e i) now → live (t.e j) now → (t.e i).hash = (t.e j).hash → i = j

theorem live_eq_true {x : InflightEnt} {now : Int} :
    live x now = true ↔ x.used = true ∧ (x.stored = true → now - x.since < inflightDoneS) := by
  simp [live, imp_iff_not_or]

theorem live_mono {x : InflightEnt} {now now' : Int} (h : now ≤ now') (hlive : live x now') :
    live x now := by
  obtain ⟨hused, hfresh⟩ := live_eq_true.mp hlive
  refine live_eq_true.mpr ⟨hused, fun hstored => ?_⟩
  have := hfresh hstored
  omega

theorem Single.later {t : Inflight} {now now' : Int} (h : t.Single now) (hle : now ≤ now') :
    t.Single now' :=
  fun i j hi hj => h i j (live_mono hle hi) (live_mono hle hj)

theorem find_eq_some {t : Inflight} {hash : Bytes 32} {now : Int} {i : Fin inflightMax}
    (h : t.find hash now = some i) : live (t.e i) now = true ∧ (t.e i).hash = hash := by
  have hat := List.find?_some h
  simpa using hat

theorem find_eq_none {t : Inflight} {hash : Bytes 32} {now : Int} (h : t.find hash now = none)
    {i : Fin inflightMax} (hlive : live (t.e i) now) : (t.e i).hash ≠ hash := by
  have hat := List.find?_eq_none.mp h i (List.mem_finRange i)
  simpa [hlive] using hat

theorem Single.find {t : Inflight} {now : Int} (h : t.Single now) {i : Fin inflightMax}
    (hlive : live (t.e i) now) : t.find (t.e i).hash now = some i := by
  cases hfind : t.find (t.e i).hash now with
  | none => exact absurd rfl (find_eq_none hfind hlive)
  | some j =>
      obtain ⟨hj, hhash⟩ := find_eq_some hfind
      rw [h j i hj hlive hhash]

theorem Single.write {t t' : Inflight} {now : Int} (h : t.Single now) {k : Fin inflightMax}
    {x : InflightEnt} (he : t'.e = Function.update t.e k x)
    (hx : ∀ j, j ≠ k → live (t.e j) now → (t.e j).hash ≠ x.hash) : t'.Single now := by
  intro i j hi hj hhash
  rw [he] at hi hj hhash
  by_cases hik : i = k
  · by_cases hjk : j = k
    · rw [hik, hjk]
    · subst hik
      rw [Function.update_self, Function.update_of_ne hjk] at hhash
      rw [Function.update_of_ne hjk] at hj
      exact absurd hhash.symm (hx j hjk hj)
  · rw [Function.update_of_ne hik] at hi hhash
    by_cases hjk : j = k
    · subst hjk
      rw [Function.update_self] at hhash
      exact absurd hhash (hx i hik hi)
    · rw [Function.update_of_ne hjk] at hj hhash
      exact h i j hi hj hhash

/-- What gives entries up and writes none. -/
theorem Single.free {t t' : Inflight} {now : Int} (h : t.Single now)
    (he : ∀ i, live (t'.e i) now → t'.e i = t.e i) : t'.Single now := by
  intro i j hi hj hhash
  have hei := he i hi
  have hej := he j hj
  rw [hei] at hi hhash
  rw [hej] at hj hhash
  exact h i j hi hj hhash

theorem releaseWhere_live {t : Inflight} {p : InflightEnt → Bool} {now : Int} {i : Fin inflightMax}
    (h : live ((t.releaseWhere p).e i) now) : (t.releaseWhere p).e i = t.e i := by
  unfold releaseWhere at h ⊢
  dsimp only at h ⊢
  split_ifs at h ⊢
  · exact absurd (live_eq_true.mp h).1 (by simp)
  · rfl

theorem forgetStored_live {t : Inflight} {now : Int} {i : Fin inflightMax}
    (h : live (t.forgetStored.e i) now) : t.forgetStored.e i = t.e i := by
  unfold forgetStored at h ⊢
  dsimp only at h ⊢
  split_ifs at h ⊢
  · exact absurd (live_eq_true.mp h).1 (by simp)
  · rfl

theorem Single.apply {t : Inflight} {now : Int} (h : t.Single now) (op : Op) :
    (t.apply now op).Single now := by
  cases op with
  | claim hash leg =>
      change (t.claim hash leg now).2.Single now
      unfold claim
      cases hfind : t.find hash now with
      | none =>
          exact h.write rfl fun j _ hj => find_eq_none hfind hj
      | some i =>
          obtain ⟨hi, hhash⟩ := find_eq_some hfind
          dsimp only
          split_ifs
          · exact h
          · exact h
          · exact h.write rfl fun j hj hlive heq => hj (h j i hlive hi heq)
          · exact h
  | markStored hash =>
      change (t.markStored hash now).Single now
      unfold markStored
      cases hfind : t.find hash now with
      | none => exact h.write rfl fun j _ hj => find_eq_none hfind hj
      | some i =>
          obtain ⟨hi, hhash⟩ := find_eq_some hfind
          exact h.write rfl fun j hj hlive heq => hj (h j i hlive hi heq)
  | forgetStored => exact h.free fun i => forgetStored_live
  | release hash =>
      change (t.releaseWhere fun x => decide (x.hash = hash)).Single now
      exact h.free fun i => releaseWhere_live
  | releaseLeg leg =>
      change (t.releaseWhere fun x => decide (x.leg = leg)).Single now
      exact h.free fun i => releaseWhere_live

/-! ## What an entry survives -/

def Full (t : Inflight) (now : Int) : Prop := ∀ i, live (t.e i) now

theorem slot_free {t : Inflight} {now : Int} (h : ¬ t.Full now) :
    live (t.e (t.slot now)) now = false := by
  unfold slot
  cases hfind : (List.finRange inflightMax).find? fun i => !live (t.e i) now with
  | some i =>
      have hat := List.find?_some hfind
      simpa using hat
  | none =>
      refine absurd (fun i => ?_) h
      have hat := List.find?_eq_none.mp hfind i (List.mem_finRange i)
      simpa using hat

/-- The operation is not meant to take the entry away at `now`: it neither
gives the entry up nor renews it, and a claim comes before the entry is stale. -/
def Leaves (x : InflightEnt) (now : Int) : Op → Prop
  | .claim hash _ => hash = x.hash → x.stored = true ∨ now - x.since < inflightStaleS
  | .markStored hash => hash ≠ x.hash
  | .forgetStored => x.stored = false
  | .release hash => x.stored = false → hash ≠ x.hash
  | .releaseLeg leg => x.stored = false → leg ≠ x.leg

theorem find_ne {t : Inflight} {hash : Bytes 32} {now : Int} {i j : Fin inflightMax}
    (hfind : t.find hash now = some j) (hne : hash ≠ (t.e i).hash) : i ≠ j := by
  rintro rfl
  exact hne (find_eq_some hfind).2.symm

theorem ne_slot {t : Inflight} {now : Int} (hfull : ¬ t.Full now) {i : Fin inflightMax}
    (hlive : live (t.e i) now) : i ≠ t.slot now := by
  intro heq
  have hfree := slot_free hfull
  rw [← heq, hlive] at hfree
  cases hfree

theorem claim_leaves {t : Inflight} {now : Int} (hs : t.Single now) {i : Fin inflightMax}
    (hlive : live (t.e i) now) (hfull : ¬ t.Full now) {hash : Bytes 32} {leg : Int}
    (hop : Leaves (t.e i) now (.claim hash leg)) : (t.claim hash leg now).2.e i = t.e i := by
  unfold claim
  cases hfind : t.find hash now with
  | none => exact Function.update_of_ne (ne_slot hfull hlive) _ _
  | some j =>
      dsimp only
      by_cases hhash : hash = (t.e i).hash
      · have hij : j = i := by
          rw [hhash, hs.find hlive, Option.some.injEq] at hfind
          exact hfind.symm
        subst hij
        split_ifs with hstored hleg hfresh
        · rfl
        · rfl
        · exact absurd ((hop hhash).resolve_left hstored) hfresh
        · rfl
      · split_ifs
        · rfl
        · rfl
        · exact Function.update_of_ne (find_ne hfind hhash) _ _
        · rfl

theorem releaseWhere_leaves {t : Inflight} {p : InflightEnt → Bool} {i : Fin inflightMax}
    (h : (t.e i).stored = false → p (t.e i) = false) : (t.releaseWhere p).e i = t.e i := by
  unfold releaseWhere
  dsimp only
  cases hstored : (t.e i).stored with
  | true => simp
  | false => simp [h hstored]

theorem apply_leaves {t : Inflight} {now : Int} (hs : t.Single now) {i : Fin inflightMax}
    (hlive : live (t.e i) now) (hfull : ¬ t.Full now) {op : Op} (hop : Leaves (t.e i) now op) :
    (t.apply now op).e i = t.e i := by
  cases op with
  | claim hash leg => exact claim_leaves hs hlive hfull hop
  | markStored hash =>
      change (t.markStored hash now).e i = _
      unfold markStored
      cases hfind : t.find hash now with
      | none => exact Function.update_of_ne (ne_slot hfull hlive) _ _
      | some j => exact Function.update_of_ne (find_ne hfind hop) _ _
  | forgetStored =>
      change (if (t.e i).used && (t.e i).stored then _ else _) = t.e i
      rw [show (t.e i).stored = false from hop, Bool.and_false]
      rfl
  | release hash =>
      change (t.releaseWhere fun x => decide (x.hash = hash)).e i = _
      refine releaseWhere_leaves fun hstored => decide_eq_false ?_
      exact (hop hstored).symm
  | releaseLeg leg =>
      change (t.releaseWhere fun x => decide (x.leg = leg)).e i = _
      refine releaseWhere_leaves fun hstored => decide_eq_false ?_
      exact (hop hstored).symm

/-! ## Runs -/

inductive Reach : Inflight → Int → Prop
  | start (now : Int) : Reach init now
  | step {t : Inflight} {now now' : Int} (h : Reach t now) (hle : now ≤ now') (op : Op) :
      Reach (t.apply now' op) now'

theorem Reach.single {t : Inflight} {now : Int} (h : Reach t now) : t.Single now := by
  induction h with
  | start now =>
      intro i j hi
      cases (live_eq_true.mp hi).1
  | step h hle op ih => exact (ih.later hle).apply op

/-- Operations with their times. -/
def run (t : Inflight) (steps : List (Int × Op)) : Inflight :=
  steps.foldl (fun t s => t.apply s.1 s.2) t

def lastTime (now : Int) (steps : List (Int × Op)) : Int :=
  steps.foldl (fun _ s => s.1) now

/-- The clock does not go back, no operation is meant to take the entry away
while it is live, and none meets a full table. -/
def Quiet (x : InflightEnt) : Int → Inflight → List (Int × Op) → Prop
  | _, _, [] => True
  | now, t, s :: rest =>
      now ≤ s.1 ∧ live x s.1 = true ∧ ¬ t.Full s.1 ∧ Leaves x s.1 s.2 ∧
        Quiet x s.1 (t.apply s.1 s.2) rest

theorem Quiet.kept {x : InflightEnt} {now : Int} {t : Inflight} {steps : List (Int × Op)}
    (h : Quiet x now t steps) (hs : t.Single now) {i : Fin inflightMax} (hi : t.e i = x) :
    (t.run steps).e i = x ∧ (t.run steps).Single (lastTime now steps) := by
  induction steps generalizing now t with
  | nil => exact ⟨hi, hs⟩
  | cons s rest ih =>
      obtain ⟨hle, hlive, hfull, hop, hrest⟩ := h
      subst hi
      have hs' := hs.later hle
      exact ih hrest (hs'.apply s.2) (apply_leaves hs' hlive hfull hop)

theorem claim_of_held {t : Inflight} {now : Int} (hs : t.Single now) {i : Fin inflightMax}
    (hlive : live (t.e i) now) (leg : Int) :
    (t.claim (t.e i).hash leg now).1 =
      (!(t.e i).stored && (decide ((t.e i).leg = leg) ||
        decide (inflightStaleS ≤ now - (t.e i).since))) := by
  unfold claim
  rw [hs.find hlive]
  dsimp only
  split_ifs with hstored hleg hfresh
  · simp [hstored]
  · simp [hleg, hfresh]
  · simp [hstored, not_lt.mp hfresh]
  · simp [hstored, not_not.mp hleg]

theorem wouldAllow_eq_claim (t : Inflight) (hash : Bytes 32) (leg now : Int) :
    t.wouldAllow hash leg now = (t.claim hash leg now).1 := by
  unfold wouldAllow claim
  cases t.find hash now with
  | none => rfl
  | some i =>
      dsimp only
      split_ifs with hstored hleg hfresh
      · rfl
      · simp [hleg, hfresh]
      · simp [not_lt.mp hfresh]
      · simp [not_not.mp hleg]

theorem claim_fresh {t : Inflight} {hash : Bytes 32} {leg now : Int}
    (h : t.find hash now = none) :
    (t.claim hash leg now).2.e (t.slot now) = ⟨hash, leg, now, true, false⟩ := by
  unfold claim
  rw [h]
  exact Function.update_self _ _ _

theorem markStored_marks (t : Inflight) (hash : Bytes 32) (now : Int) :
    ∃ i, (t.markStored hash now).e i = ⟨hash, -1, now, true, true⟩ := by
  unfold markStored
  cases hfind : t.find hash now with
  | none => exact ⟨t.slot now, Function.update_self _ _ _⟩
  | some i =>
      obtain ⟨hlive, hhash⟩ := find_eq_some hfind
      refine ⟨i, ?_⟩
      dsimp only
      rw [Function.update_self, hhash, (live_eq_true.mp hlive).1]

end Inflight

open Inflight in
/-- In every state the legs can bring the table to, a block has one live entry
at most and the question asks what the claim answers.  A new claim keeps every
other leg off the block until it is stale or given up, and a mark keeps every
leg off it until it lapses or is forgotten, unless a full table gave it away. -/
theorem inflight_one_fetch {t : Inflight} {now : Int} (h : Reach t now) :
    t.Single now ∧
      (∀ hash leg, t.wouldAllow hash leg now = (t.claim hash leg now).1) ∧
      (∀ hash leg steps now', t.find hash now = none →
        Quiet ⟨hash, leg, now, true, false⟩ now (t.claim hash leg now).2 steps →
        lastTime now steps ≤ now' → now' - now < inflightStaleS → ∀ leg' ≠ leg,
          (((t.claim hash leg now).2.run steps).claim hash leg' now').1 = false) ∧
      ∀ hash steps now',
        Quiet ⟨hash, -1, now, true, true⟩ now (t.markStored hash now) steps →
        lastTime now steps ≤ now' → now' - now < inflightDoneS → ∀ leg,
          (((t.markStored hash now).run steps).claim hash leg now').1 = false := by
  have hs := h.single
  refine ⟨hs, fun hash leg => wouldAllow_eq_claim t hash leg now, ?_, ?_⟩
  · intro hash leg steps now' hfind hquiet hlast hfresh leg' hne
    obtain ⟨hkept, hsingle⟩ := hquiet.kept (hs.apply (.claim hash leg)) (claim_fresh hfind)
    have hlive : live (((t.claim hash leg now).2.run steps).e (t.slot now)) now' := by
      rw [hkept]
      rfl
    have hanswer := claim_of_held (hsingle.later hlast) hlive leg'
    rw [hkept] at hanswer
    rw [hanswer]
    simp [hne.symm, hfresh]
  · intro hash steps now' hquiet hlast hfresh leg
    obtain ⟨i, hi⟩ := markStored_marks t hash now
    obtain ⟨hkept, hsingle⟩ := hquiet.kept (hs.apply (.markStored hash)) hi
    have hlive : live (((t.markStored hash now).run steps).e i) now' := by
      rw [hkept]
      exact live_eq_true.mpr ⟨rfl, fun _ => hfresh⟩
    have hanswer := claim_of_held (hsingle.later hlast) hlive leg
    rw [hkept] at hanswer
    exact hanswer

open Inflight in
/-- A leg claims a block, another asks ten minutes less a second later. -/
theorem inflight_one_fetch_start :
    ((Inflight.init.claim (Bytes.ofList 32 [1]) 1 0).2.claim (Bytes.ofList 32 [1]) 2 599).1 =
      false :=
  (inflight_one_fetch (.start 0)).2.2.1 (Bytes.ofList 32 [1]) 1 [] 599 (by decide) trivial
    (by decide) (by decide) 2 (by decide)

end BitcoinMachineCode.Network
