import Mathlib.Algebra.BigOperators.Group.Finset.Basic
import Mathlib.Algebra.Order.BigOperators.Group.Finset
import Mathlib.Logic.Function.Basic
import Mathlib.Tactic.Ring
import Mathlib.Tactic.SplitIfs

/-!
# Open addressing with deletion

A table searched by linear probing, without tombstones: a deletion opens a gap and pulls
back each later entry whose way from its home leads over it.  The table may be full; the
scan then goes round it more than once, and ends because every entry it moves comes closer
to its home.
-/

namespace BitcoinMachineCode.Foundation

/-! ## Distances on a circle -/

/-- The steps from `a` forward to `b`. -/
def circleDist (m a b : Nat) : Nat := (b + m - a) % m

section Circle

variable {m a b d : Nat}

theorem circle_add_eq (ha : a < m) (hd : d < m) :
    (a + d) % m = if a + d < m then a + d else a + d - m := by
  split
  · next hlt => exact Nat.mod_eq_of_lt hlt
  · next hge =>
      rw [Nat.mod_eq_sub_mod (not_lt.mp hge)]
      exact Nat.mod_eq_of_lt (by omega)

theorem circleDist_eq (ha : a < m) (hb : b < m) :
    circleDist m a b = if a ≤ b then b - a else b + m - a := by
  unfold circleDist
  split
  · next hle =>
      rw [show b + m - a = b - a + m by omega, Nat.add_mod_right]
      exact Nat.mod_eq_of_lt (by omega)
  · exact Nat.mod_eq_of_lt (by omega)

theorem circleDist_lt (hm : 0 < m) : circleDist m a b < m := Nat.mod_lt _ hm

theorem add_circleDist (ha : a < m) (hb : b < m) : (a + circleDist m a b) % m = b := by
  rw [circle_add_eq ha (circleDist_lt (by omega)), circleDist_eq ha hb]
  split_ifs <;> omega

theorem circleDist_add (ha : a < m) (hd : d < m) : circleDist m a ((a + d) % m) = d := by
  rw [circleDist_eq ha (Nat.mod_lt _ (by omega)), circle_add_eq ha hd]
  split_ifs <;> omega

theorem circleDist_self (ha : a < m) : circleDist m a a = 0 := by
  have := circleDist_add ha (show 0 < m by omega)
  rwa [Nat.add_zero, Nat.mod_eq_of_lt ha] at this

theorem circle_inj {e : Nat} (ha : a < m) (hd : d < m) (he : e < m)
    (h : (a + d) % m = (a + e) % m) : d = e := by
  have := congrArg (circleDist m a) h
  rwa [circleDist_add ha hd, circleDist_add ha he] at this

theorem eq_of_circleDist_eq_zero (ha : a < m) (hb : b < m) (h : circleDist m a b = 0) : b = a := by
  have := add_circleDist ha hb
  rw [h, Nat.add_zero, Nat.mod_eq_of_lt ha] at this
  exact this.symm

/-- Where `b` comes first on the way from `a` to `c`, the way leads over it. -/
theorem circleDist_split {c : Nat} (ha : a < m) (hb : b < m) (hc : c < m)
    (h : circleDist m a b < circleDist m a c) :
    circleDist m a c = circleDist m a b + circleDist m b c := by
  rw [circleDist_eq ha hb, circleDist_eq ha hc] at h
  rw [circleDist_eq ha hb, circleDist_eq ha hc, circleDist_eq hb hc]
  split_ifs at h ⊢ <;> omega

end Circle

/-! ## Tables -/

/-- How slots are read and cleared, and where a key belongs. -/
structure Hashing (σ κ : Type*) where
  size : Nat
  live : σ → Bool
  keyOf : σ → κ
  clear : σ → σ
  home : κ → Nat
  not_live_clear : ∀ s, live (clear s) = false
  home_lt : ∀ k, home k < size

inductive Probe where
  | hit (i : Nat)
  | free (i : Nat)
  | full
  deriving DecidableEq, Repr

namespace Hashing

variable {σ κ : Type*} (H : Hashing σ κ)

def dist (a b : Nat) : Nat := circleDist H.size a b

def homeOf (s : σ) : Nat := H.home (H.keyOf s)

/-- The search for a key, over at most `n` slots from `i` on. -/
def probeFrom [DecidableEq κ] (slots : Nat → σ) (k : κ) : Nat → Nat → Probe
  | 0, _ => .full
  | n + 1, i =>
      if H.live (slots i) then
        if H.keyOf (slots i) = k then .hit i else probeFrom slots k n ((i + 1) % H.size)
      else .free i

def probe [DecidableEq κ] (slots : Nat → σ) (k : κ) : Probe :=
  H.probeFrom slots k H.size (H.home k)

/-- The scan after a deletion, with the gap at `i` and everything up to `j` looked at. -/
def shiftBack : Nat → (Nat → σ) → Nat → Nat → Option (Nat → σ)
  | 0, _, _, _ => none
  | fuel + 1, slots, i, j =>
      let j := (j + 1) % H.size
      if H.live (slots j) then
        if H.dist (H.homeOf (slots j)) i < H.dist (H.homeOf (slots j)) j then
          shiftBack fuel
            (Function.update (Function.update slots i (slots j)) j (H.clear (slots j))) j j
        else shiftBack fuel slots i j
      else some slots

/-- The entry at `i` is deleted.  The cube of the size is fuel enough. -/
def delete (slots : Nat → σ) (i : Nat) : Option (Nat → σ) :=
  H.shiftBack (H.size ^ 3) (Function.update slots i (H.clear (slots i))) i i

/-- Every entry is found from its home, and no key stands twice. -/
structure Good (slots : Nat → σ) : Prop where
  reach : ∀ p < H.size, H.live (slots p) = true →
    ∀ d < H.dist (H.homeOf (slots p)) p, H.live (slots ((H.homeOf (slots p) + d) % H.size)) = true
  unique : ∀ p < H.size, ∀ q < H.size, H.live (slots p) = true → H.live (slots q) = true →
    H.keyOf (slots p) = H.keyOf (slots q) → p = q

/-- The entry stands somewhere in the table. -/
def Stored (slots : Nat → σ) (s : σ) : Prop :=
  H.live s = true ∧ ∃ p < H.size, slots p = s

variable {H} {slots : Nat → σ} {k : κ} {i j p : Nat}

theorem homeOf_lt (s : σ) : H.homeOf s < H.size := H.home_lt _

theorem next_eq (hi : i < H.size) (hj : j < H.size) :
    (j + 1) % H.size = (i + (H.dist i j + 1)) % H.size := by
  conv_lhs => rw [← add_circleDist hi hj, Nat.mod_add_mod, Nat.add_assoc]
  rfl

/-! ## The search -/

/-- A search that finds no entry passes no entry of its key before it stops. -/
theorem Good.not_stored (h : H.Good slots) {d : Nat} (hd : d ≤ H.size)
    (hstop : d < H.size → H.live (slots ((H.home k + d) % H.size)) = false)
    (hbefore : ∀ e < d, H.keyOf (slots ((H.home k + e) % H.size)) ≠ k) :
    ∀ s, H.Stored slots s → H.keyOf s ≠ k := by
  rintro s ⟨hlive, p, hp, rfl⟩ rfl
  have hat : (H.homeOf (slots p) + H.dist (H.homeOf (slots p)) p) % H.size = p :=
    add_circleDist (homeOf_lt _) hp
  have hlt : H.dist (H.homeOf (slots p)) p < H.size := circleDist_lt (by omega)
  rcases Nat.lt_or_ge (H.dist (H.homeOf (slots p)) p) d with hin | hout
  · refine hbefore _ hin ?_
    rw [show H.home (H.keyOf (slots p)) = H.homeOf (slots p) from rfl, hat]
  · have hfree := hstop (by omega)
    rcases Nat.lt_or_eq_of_le hout with hon | rfl
    · have hlive' := h.reach p hp hlive d hon
      rw [show H.homeOf (slots p) = H.home (H.keyOf (slots p)) from rfl, hfree] at hlive'
      cases hlive'
    · rw [show H.home (H.keyOf (slots p)) = H.homeOf (slots p) from rfl, hat, hlive] at hfree
      cases hfree

section Search

variable [DecidableEq κ]

/-- The search stops at the first slot that is free or has the key. -/
theorem probeFrom_spec {n h : Nat} (hh : h < H.size) :
    (∃ d < n, H.probeFrom slots k n h = .hit ((h + d) % H.size) ∧
      H.live (slots ((h + d) % H.size)) = true ∧ H.keyOf (slots ((h + d) % H.size)) = k) ∨
    (∃ d < n, H.probeFrom slots k n h = .free ((h + d) % H.size) ∧
      H.live (slots ((h + d) % H.size)) = false ∧
      ∀ e < d, H.live (slots ((h + e) % H.size)) = true ∧ H.keyOf (slots ((h + e) % H.size)) ≠ k) ∨
    (H.probeFrom slots k n h = .full ∧
      ∀ e < n, H.live (slots ((h + e) % H.size)) = true ∧ H.keyOf (slots ((h + e) % H.size)) ≠ k) := by
  induction n generalizing h with
  | zero => exact .inr (.inr ⟨rfl, nofun⟩)
  | succ n ih =>
      have hzero : (h + 0) % H.size = h := Nat.mod_eq_of_lt hh
      have hshift : ∀ d, ((h + 1) % H.size + d) % H.size = (h + (d + 1)) % H.size := fun d => by
        rw [Nat.mod_add_mod, Nat.add_assoc, Nat.add_comm 1 d]
      have hbefore : H.live (slots h) = true → H.keyOf (slots h) ≠ k → ∀ d : Nat,
          (∀ e < d, H.live (slots (((h + 1) % H.size + e) % H.size)) = true ∧
            H.keyOf (slots (((h + 1) % H.size + e) % H.size)) ≠ k) →
          ∀ e < d + 1, H.live (slots ((h + e) % H.size)) = true ∧
            H.keyOf (slots ((h + e) % H.size)) ≠ k := by
        intro hlive hkey d hrest e he
        cases e with
        | zero =>
            rw [hzero]
            exact ⟨hlive, hkey⟩
        | succ e =>
            rw [← hshift]
            exact hrest e (by omega)
      unfold probeFrom
      split
      · next hlive =>
          split
          · next hkey => exact .inl ⟨0, Nat.zero_lt_succ n, by rw [hzero], by rwa [hzero], by rwa [hzero]⟩
          · next hkey =>
              rcases @ih ((h + 1) % H.size) (Nat.mod_lt _ (by omega)) with
                ⟨d, hd, heq, hl, hk⟩ | ⟨d, hd, heq, hl, hrest⟩ | ⟨heq, hrest⟩
              · rw [hshift] at heq hl hk
                exact .inl ⟨d + 1, by omega, heq, hl, hk⟩
              · rw [hshift] at heq hl
                exact .inr (.inl ⟨d + 1, by omega, heq, hl, hbefore hlive hkey d hrest⟩)
              · exact .inr (.inr ⟨heq, hbefore hlive hkey n hrest⟩)
      · next hlive =>
          rw [Bool.not_eq_true] at hlive
          exact .inr (.inl ⟨0, Nat.zero_lt_succ n, by rw [hzero], by rwa [hzero], nofun⟩)

theorem lt_of_probe_hit (h : H.probe slots k = .hit i) : i < H.size := by
  have hhome := H.home_lt k
  rcases @probeFrom_spec _ _ H slots k _ H.size _ hhome with ⟨d, -, heq, -⟩ | ⟨d, -, heq, -⟩ | ⟨heq, -⟩
  · obtain rfl := Probe.hit.inj (heq.symm.trans h)
    exact Nat.mod_lt _ (by omega)
  · cases heq.symm.trans h
  · cases heq.symm.trans h

/-- What a search of the table comes to. -/
theorem Good.probe_cases (h : H.Good slots) (k : κ) :
    (∃ i < H.size, H.probe slots k = .hit i ∧ H.live (slots i) = true ∧ H.keyOf (slots i) = k) ∨
    (∃ d < H.size, H.probe slots k = .free ((H.home k + d) % H.size) ∧
      H.live (slots ((H.home k + d) % H.size)) = false ∧
      (∀ e < d, H.live (slots ((H.home k + e) % H.size)) = true) ∧
      ∀ s, H.Stored slots s → H.keyOf s ≠ k) ∨
    (H.probe slots k = .full ∧ (∀ p < H.size, H.live (slots p) = true) ∧
      ∀ s, H.Stored slots s → H.keyOf s ≠ k) := by
  have hhome := H.home_lt k
  rcases @probeFrom_spec _ _ H slots k _ H.size _ hhome with
    ⟨d, hd, heq, hlive, hkey⟩ | ⟨d, hd, heq, hfree, hbefore⟩ | ⟨heq, hbefore⟩
  · exact .inl ⟨_, Nat.mod_lt _ (by omega), heq, hlive, hkey⟩
  · exact .inr (.inl ⟨d, hd, heq, hfree, fun e he => (hbefore e he).1,
      h.not_stored hd.le (fun _ => hfree) fun e he => (hbefore e he).2⟩)
  · refine .inr (.inr ⟨heq, fun p hp => ?_,
      h.not_stored le_rfl (fun hlt => absurd hlt (lt_irrefl _)) fun e he => (hbefore e he).2⟩)
    have hlive := (hbefore (circleDist H.size (H.home k) p) (circleDist_lt (by omega))).1
    rwa [add_circleDist hhome hp] at hlive

end Search

/-- The order of a table rests on which slots are live and on their keys alone. -/
theorem Good.congr {slots' : Nat → σ} (h : H.Good slots)
    (hlive : ∀ p, H.live (slots' p) = H.live (slots p))
    (hkey : ∀ p, H.keyOf (slots' p) = H.keyOf (slots p)) : H.Good slots' := by
  refine ⟨fun p hp hp' d hd => ?_, fun p hp q hq hp' hq' heq => ?_⟩
  · unfold homeOf at hd ⊢
    rw [hkey] at hd ⊢
    rw [hlive] at hp' ⊢
    exact h.reach p hp hp' d hd
  · rw [hlive] at hp' hq'
    rw [hkey, hkey] at heq
    exact h.unique p hp q hq hp' hq' heq

/-! ## A new entry -/

theorem Stored.update_iff {s : σ} (hi : i < H.size) (hlive : H.live s = true)
    (hfree : H.live (slots i) = false) (t : σ) :
    H.Stored (Function.update slots i s) t ↔ t = s ∨ H.Stored slots t := by
  constructor
  · rintro ⟨ht, p, hp, rfl⟩
    by_cases hpi : p = i
    · exact .inl (by rw [hpi, Function.update_self])
    · rw [Function.update_of_ne hpi] at ht ⊢
      exact .inr ⟨ht, p, hp, rfl⟩
  · rintro (rfl | ⟨ht, p, hp, rfl⟩)
    · exact ⟨hlive, i, hi, Function.update_self ..⟩
    · refine ⟨ht, p, hp, Function.update_of_ne (fun hpi => ?_) ..⟩
      rw [hpi, hfree] at ht
      cases ht

/-- An entry goes into the free slot that the search for its key ends at. -/
theorem Good.insert {s : σ} (h : H.Good slots) (hkey : H.keyOf s = k) {d : Nat} (hd : d < H.size)
    (hlive : H.live s = true) (hfree : H.live (slots ((H.home k + d) % H.size)) = false)
    (hbefore : ∀ e < d, H.live (slots ((H.home k + e) % H.size)) = true)
    (hnew : ∀ t, H.Stored slots t → H.keyOf t ≠ k) :
    H.Good (Function.update slots ((H.home k + d) % H.size) s) := by
  subst hkey
  have hhome := H.homeOf_lt s
  change H.Good (Function.update slots ((H.homeOf s + d) % H.size) s)
  change H.live (slots ((H.homeOf s + d) % H.size)) = false at hfree
  generalize hi : (H.homeOf s + d) % H.size = i at hfree
  have hisize : i < H.size := by
    rw [← hi]
    exact Nat.mod_lt _ (by omega)
  have hocc : ∀ q, H.live (slots q) = true → H.live (Function.update slots i s q) = true := by
    intro q hq
    by_cases hqi : q = i
    · rw [hqi, Function.update_self]
      exact hlive
    · rwa [Function.update_of_ne hqi]
  refine ⟨fun p hp hp' e he => ?_, fun p hp q hq hp' hq' hkey => ?_⟩
  · by_cases hpi : p = i
    · subst hpi
      rw [Function.update_self] at he ⊢
      have hdist : H.dist (H.homeOf s) p = d := by
        rw [← hi]
        exact circleDist_add hhome hd
      rw [hdist] at he
      exact hocc _ (hbefore e he)
    · rw [Function.update_of_ne hpi] at hp' he ⊢
      exact hocc _ (h.reach p hp hp' e he)
  · by_cases hpi : p = i <;> by_cases hqi : q = i
    · rw [hpi, hqi]
    · rw [hpi, Function.update_self, Function.update_of_ne hqi] at hkey
      rw [Function.update_of_ne hqi] at hq'
      exact absurd hkey.symm (hnew _ ⟨hq', q, hq, rfl⟩)
    · rw [hqi, Function.update_self, Function.update_of_ne hpi] at hkey
      rw [Function.update_of_ne hpi] at hp'
      exact absurd hkey (hnew _ ⟨hp', p, hp, rfl⟩)
    · rw [Function.update_of_ne hpi] at hp' hkey
      rw [Function.update_of_ne hqi] at hq' hkey
      exact h.unique p hp q hq hp' hq' hkey

/-! ## A deletion -/

/-- The scan between two slots: only the gap may be missing on an entry's way, and it is on
the way of no entry between the gap and `j`. -/
structure Gapped (H : Hashing σ κ) (slots : Nat → σ) (i j : Nat) : Prop where
  gap_lt : i < H.size
  scan_lt : j < H.size
  free : H.live (slots i) = false
  reach : ∀ p < H.size, H.live (slots p) = true → ∀ d < H.dist (H.homeOf (slots p)) p,
    H.live (slots ((H.homeOf (slots p) + d) % H.size)) = false →
      (H.homeOf (slots p) + d) % H.size = i
  passed : ∀ p < H.size, H.live (slots p) = true → H.dist i p ≤ H.dist i j →
    H.dist (H.homeOf (slots p)) p ≤ H.dist (H.homeOf (slots p)) i
  unique : ∀ p < H.size, ∀ q < H.size, H.live (slots p) = true → H.live (slots q) = true →
    H.keyOf (slots p) = H.keyOf (slots q) → p = q

theorem Good.gapped (h : H.Good slots) (hi : i < H.size) :
    H.Gapped (Function.update slots i (H.clear (slots i))) i i := by
  have hself := Function.update_self i (H.clear (slots i)) slots
  have hlive : ∀ p, H.live (Function.update slots i (H.clear (slots i)) p) = true →
      p ≠ i ∧ Function.update slots i (H.clear (slots i)) p = slots p := by
    intro p hp
    have hpi : p ≠ i := by
      rintro rfl
      rw [hself, H.not_live_clear] at hp
      cases hp
    exact ⟨hpi, Function.update_of_ne hpi ..⟩
  refine ⟨hi, hi, by rw [hself, H.not_live_clear], fun p hp hp' d hd hfree => ?_,
    fun p hp hp' hle => ?_, fun p hp q hq hp' hq' hkey => ?_⟩
  · obtain ⟨-, heq⟩ := hlive p hp'
    rw [heq] at hp' hd hfree ⊢
    by_contra hne
    rw [Function.update_of_ne hne, h.reach p hp hp' d hd] at hfree
    cases hfree
  · rw [show H.dist i i = 0 from circleDist_self hi, Nat.le_zero] at hle
    exact absurd (eq_of_circleDist_eq_zero hi hp hle) (hlive p hp').1
  · obtain ⟨-, hpeq⟩ := hlive p hp'
    obtain ⟨-, hqeq⟩ := hlive q hq'
    rw [hpeq] at hp' hkey
    rw [hqeq] at hq' hkey
    exact h.unique p hp q hq hp' hq' hkey

/-- The way from the gap to an entry that needs it is taken up to the entry. -/
theorem Gapped.taken (h : H.Gapped slots i j) (hp : p < H.size) (hlive : H.live (slots p) = true)
    (hon : H.dist (H.homeOf (slots p)) i < H.dist (H.homeOf (slots p)) p) {t : Nat} (ht : 0 < t)
    (htp : t ≤ H.dist i p) : H.live (slots ((i + t) % H.size)) = true := by
  have hi := h.gap_lt
  have hhome := H.homeOf_lt (slots p)
  have htlt : t < H.size := htp.trans_lt (circleDist_lt (by omega))
  have hsum : H.dist (H.homeOf (slots p)) p = H.dist (H.homeOf (slots p)) i + H.dist i p :=
    circleDist_split hhome hi hp hon
  have hplace : (H.homeOf (slots p) + (H.dist (H.homeOf (slots p)) i + t)) % H.size =
      (i + t) % H.size := by
    rw [← Nat.add_assoc, ← Nat.mod_add_mod,
      show (H.homeOf (slots p) + H.dist (H.homeOf (slots p)) i) % H.size = i from
        add_circleDist hhome hi]
  rcases Nat.lt_or_eq_of_le htp with hbefore | rfl
  · by_contra hfree
    rw [Bool.not_eq_true, ← hplace] at hfree
    have hat := h.reach p hp hlive _ (by omega) hfree
    rw [hplace] at hat
    have hzero : t = 0 := circle_inj hi htlt (by omega) (by rw [hat, Nat.add_zero, Nat.mod_eq_of_lt hi])
    omega
  · rw [show (i + H.dist i p) % H.size = p from add_circleDist hi hp]
    exact hlive

/-- One step of the scan. -/
theorem Gapped.next (h : H.Gapped slots i j) :
    (H.dist i j + 1 < H.size ∧ H.dist i ((j + 1) % H.size) = H.dist i j + 1) ∨
      (H.dist i j + 1 = H.size ∧ (j + 1) % H.size = i) := by
  have hlt : H.dist i j < H.size := circleDist_lt (by have := h.gap_lt; omega)
  rw [next_eq h.gap_lt h.scan_lt]
  rcases Nat.lt_or_eq_of_le (Nat.succ_le_of_lt hlt) with hless | heq
  · exact .inl ⟨hless, circleDist_add h.gap_lt hless⟩
  · refine .inr ⟨heq, ?_⟩
    rw [show H.dist i j + 1 = H.size from heq, Nat.add_mod_right, Nat.mod_eq_of_lt h.gap_lt]

/-- At a free slot every entry is within reach again. -/
theorem Gapped.good (h : H.Gapped slots i j) (hfree : H.live (slots ((j + 1) % H.size)) = false) :
    H.Good slots := by
  refine ⟨fun p hp hlive d hd => ?_, h.unique⟩
  have hhome := H.homeOf_lt (slots p)
  by_contra hgap
  rw [Bool.not_eq_true] at hgap
  have hat := h.reach p hp hlive d hd hgap
  have hdist : H.dist (H.homeOf (slots p)) i = d := by
    rw [← hat]
    exact circleDist_add hhome (hd.trans (circleDist_lt (by omega)))
  have hon : H.dist (H.homeOf (slots p)) i < H.dist (H.homeOf (slots p)) p := by omega
  -- the entry lies behind the free slot, or it has been passed
  rcases Nat.lt_or_ge (H.dist i j) (H.dist i p) with hbehind | hpassed
  · have htaken := h.taken hp hlive hon (Nat.zero_lt_succ _) hbehind
    rw [← next_eq h.gap_lt h.scan_lt, hfree] at htaken
    cases htaken
  · have := h.passed p hp hlive hpassed
    omega

/-- An entry that does not need the gap stays. -/
theorem Gapped.stay (h : H.Gapped slots i j) (hlive : H.live (slots ((j + 1) % H.size)) = true)
    (hstay : ¬ H.dist (H.homeOf (slots ((j + 1) % H.size))) i <
      H.dist (H.homeOf (slots ((j + 1) % H.size))) ((j + 1) % H.size)) :
    H.Gapped slots i ((j + 1) % H.size) ∧
      H.size - H.dist i ((j + 1) % H.size) < H.size - H.dist i j := by
  have hsize : 0 < H.size := by have := h.gap_lt; omega
  rcases h.next with ⟨hlt, hnext⟩ | ⟨-, hround⟩
  · refine ⟨⟨h.gap_lt, Nat.mod_lt _ hsize, h.free, h.reach, fun p hp hp' hle => ?_, h.unique⟩, by omega⟩
    rcases Nat.lt_or_eq_of_le hle with hbefore | heq
    · exact h.passed p hp hp' (by omega)
    · have hpj : p = (j + 1) % H.size := by
        rw [← add_circleDist h.gap_lt hp, ← add_circleDist h.gap_lt (Nat.mod_lt (j + 1) hsize)]
        exact congrArg (fun d => (i + d) % H.size) heq
      subst hpj
      exact not_lt.mp hstay
  · rw [hround, h.free] at hlive
    cases hlive

/-- The table with the entry at `q` pulled back to `i`. -/
def pulled (H : Hashing σ κ) (slots : Nat → σ) (i q : Nat) : Nat → σ :=
  Function.update (Function.update slots i (slots q)) q (H.clear (slots q))

section Pulled

variable {q : Nat}

theorem pulled_gap (hiq : i ≠ q) : H.pulled slots i q i = slots q := by
  unfold pulled
  rw [Function.update_of_ne hiq, Function.update_self]

theorem live_pulled_source : H.live (H.pulled slots i q q) = false := by
  unfold pulled
  rw [Function.update_self]
  exact H.not_live_clear _

theorem pulled_of_ne (hpi : p ≠ i) (hpq : p ≠ q) : H.pulled slots i q p = slots p := by
  unfold pulled
  rw [Function.update_of_ne hpq, Function.update_of_ne hpi]

/-- An entry of the new table stood at `q`, or stands where it stood. -/
theorem live_pulled (hiq : i ≠ q) (hlive : H.live (H.pulled slots i q p) = true) :
    p ≠ q ∧ ((p = i ∧ H.pulled slots i q p = slots q) ∨
      (p ≠ i ∧ H.pulled slots i q p = slots p)) := by
  have hpq : p ≠ q := by
    rintro rfl
    rw [live_pulled_source] at hlive
    cases hlive
  refine ⟨hpq, ?_⟩
  by_cases hpi : p = i
  · exact .inl ⟨hpi, by rw [hpi, pulled_gap hiq]⟩
  · exact .inr ⟨hpi, pulled_of_ne hpi hpq⟩

theorem Gapped.stored_pulled (h : H.Gapped slots i j) (hq : q < H.size)
    (hlive : H.live (slots q) = true) (t : σ) :
    H.Stored (H.pulled slots i q) t ↔ H.Stored slots t := by
  have hiq : i ≠ q := by
    rintro rfl
    rw [h.free] at hlive
    cases hlive
  constructor
  · rintro ⟨ht, p, hp, rfl⟩
    refine ⟨ht, ?_⟩
    obtain ⟨-, ⟨-, heq⟩ | ⟨-, heq⟩⟩ := live_pulled hiq ht
    · exact ⟨q, hq, heq.symm⟩
    · exact ⟨p, hp, heq.symm⟩
  · rintro ⟨ht, p, hp, rfl⟩
    refine ⟨ht, ?_⟩
    by_cases hpq : p = q
    · exact ⟨i, h.gap_lt, by rw [pulled_gap hiq, hpq]⟩
    · refine ⟨p, hp, pulled_of_ne (fun hpi => ?_) hpq⟩
      rw [hpi, h.free] at ht
      cases ht

/-- The gap moves to where the entry stood. -/
theorem Gapped.move (h : H.Gapped slots i j) (hq : q < H.size) (hlive : H.live (slots q) = true)
    (hmove : H.dist (H.homeOf (slots q)) i < H.dist (H.homeOf (slots q)) q) :
    H.Gapped (H.pulled slots i q) q q := by
  have hiq : i ≠ q := by
    rintro rfl
    exact lt_irrefl _ hmove
  -- a slot that was taken is taken, but for the one the entry left
  have hfree : ∀ r, H.live (H.pulled slots i q r) = false → r = q ∨
      (r ≠ i ∧ H.live (slots r) = false) := by
    intro r hr
    by_cases hrq : r = q
    · exact .inl hrq
    · have hri : r ≠ i := by
        rintro rfl
        rw [pulled_gap hiq, hlive] at hr
        cases hr
      rw [pulled_of_ne hri hrq] at hr
      exact .inr ⟨hri, hr⟩
  refine ⟨hq, hq, live_pulled_source, fun p hp hp' d hd hgap => ?_, fun p hp hp' hle => ?_,
    fun p hp r hr hp' hr' hkey => ?_⟩
  · rcases hfree _ hgap with heq | ⟨hne, hgap⟩
    · exact heq
    · exfalso
      obtain ⟨-, ⟨rfl, heq⟩ | ⟨-, heq⟩⟩ := live_pulled hiq hp'
      · rw [heq] at hd hgap hne
        exact hne (h.reach q hq hlive d (hd.trans hmove) hgap)
      · rw [heq] at hp' hd hgap hne
        exact hne (h.reach p hp hp' d hd hgap)
  · rw [show H.dist q q = 0 from circleDist_self hq, Nat.le_zero] at hle
    exact absurd (eq_of_circleDist_eq_zero hq hp hle) (live_pulled hiq hp').1
  · obtain ⟨hpq, ⟨hpi, hpeq⟩ | ⟨hpi, hpeq⟩⟩ := live_pulled hiq hp' <;>
      obtain ⟨hrq, ⟨hri, hreq⟩ | ⟨hri, hreq⟩⟩ := live_pulled hiq hr'
    · rw [hpi, hri]
    · rw [hpeq, hreq] at hkey
      rw [hreq] at hr'
      exact absurd (h.unique q hq r hr hlive hr' hkey).symm hrq
    · rw [hpeq, hreq] at hkey
      rw [hpeq] at hp'
      exact absurd (h.unique p hp q hq hp' hlive hkey) hpq
    · rw [hpeq, hreq] at hkey
      rw [hpeq] at hp'
      rw [hreq] at hr'
      exact h.unique p hp r hr hp' hr' hkey

/-! ## The scan ends -/

def displaced (H : Hashing σ κ) (slots : Nat → σ) (p : Nat) : Nat :=
  if H.live (slots p) then H.dist (H.homeOf (slots p)) p else 0

def displacement (H : Hashing σ κ) (slots : Nat → σ) : Nat :=
  ∑ p ∈ Finset.range H.size, H.displaced slots p

theorem displacement_le (slots : Nat → σ) : H.displacement slots ≤ H.size * (H.size - 1) := by
  have hle : ∀ p ∈ Finset.range H.size, H.displaced slots p ≤ H.size - 1 := by
    intro p hp
    rw [Finset.mem_range] at hp
    unfold displaced
    split
    · exact Nat.le_sub_one_of_lt (circleDist_lt (by omega))
    · exact Nat.zero_le _
  have := Finset.sum_le_card_nsmul _ _ _ hle
  rwa [Finset.card_range, nsmul_eq_mul, Nat.cast_id] at this

/-- An entry that is pulled back comes closer to its home. -/
theorem Gapped.displacement_lt (h : H.Gapped slots i j) (hq : q < H.size)
    (hlive : H.live (slots q) = true)
    (hmove : H.dist (H.homeOf (slots q)) i < H.dist (H.homeOf (slots q)) q) :
    H.displacement (H.pulled slots i q) < H.displacement slots := by
  have hiq : i ≠ q := by
    rintro rfl
    exact lt_irrefl _ hmove
  have hmem : i ∈ Finset.range H.size := Finset.mem_range.mpr h.gap_lt
  have hmem' : q ∈ (Finset.range H.size).erase i :=
    Finset.mem_erase.mpr ⟨hiq.symm, Finset.mem_range.mpr hq⟩
  unfold displacement
  rw [← Finset.add_sum_erase _ _ hmem, ← Finset.add_sum_erase _ _ hmem',
    ← Finset.add_sum_erase _ (H.displaced slots) hmem,
    ← Finset.add_sum_erase _ (H.displaced slots) hmem']
  have hrest : ∑ x ∈ ((Finset.range H.size).erase i).erase q, H.displaced (H.pulled slots i q) x =
      ∑ x ∈ ((Finset.range H.size).erase i).erase q, H.displaced slots x := by
    refine Finset.sum_congr rfl fun x hx => ?_
    obtain ⟨hxq, hx⟩ := Finset.mem_erase.mp hx
    obtain ⟨hxi, -⟩ := Finset.mem_erase.mp hx
    unfold displaced
    rw [pulled_of_ne hxi hxq]
  have hgap : H.displaced (H.pulled slots i q) i = H.dist (H.homeOf (slots q)) i := by
    unfold displaced
    rw [pulled_gap hiq, if_pos hlive]
  have hsource : H.displaced (H.pulled slots i q) q = 0 := by
    unfold displaced
    rw [if_neg (by rw [live_pulled_source]; exact Bool.false_ne_true)]
  have hold : H.displaced slots q = H.dist (H.homeOf (slots q)) q := if_pos hlive
  rw [hrest, hgap, hsource, hold]
  omega

end Pulled

/-- The scan ends, with the entries it began with, all of them within reach. -/
theorem Gapped.shiftBack_spec {fuel : Nat} (h : H.Gapped slots i j)
    (hfuel : H.displacement slots * H.size + (H.size - H.dist i j) ≤ fuel) :
    ∃ slots', H.shiftBack fuel slots i j = some slots' ∧ H.Good slots' ∧
      ∀ t, H.Stored slots' t ↔ H.Stored slots t := by
  induction fuel generalizing slots i j with
  | zero =>
      have hlt : H.dist i j < H.size := circleDist_lt (by have := h.gap_lt; omega)
      omega
  | succ fuel ih =>
      have hsize : 0 < H.size := by have := h.gap_lt; omega
      have hq : (j + 1) % H.size < H.size := Nat.mod_lt _ hsize
      unfold shiftBack
      simp only
      split
      · next hlive =>
          split
          · next hmove =>
              have hless := h.displacement_lt hq hlive hmove
              obtain ⟨slots', heq, hgood, hstored⟩ := ih (h.move hq hlive hmove) (by
                rw [show H.dist ((j + 1) % H.size) ((j + 1) % H.size) = 0 from circleDist_self hq]
                have hmul := Nat.mul_le_mul_right H.size (Nat.succ_le_of_lt hless)
                have hlt : H.dist i j < H.size := circleDist_lt hsize
                rw [Nat.succ_mul] at hmul
                omega)
              exact ⟨slots', heq, hgood, fun t => (hstored t).trans (h.stored_pulled hq hlive t)⟩
          · next hstay =>
              obtain ⟨hgap, hcloser⟩ := h.stay hlive hstay
              exact ih hgap (by omega)
      · next hfree =>
          rw [Bool.not_eq_true] at hfree
          exact ⟨slots, rfl, h.good hfree, fun _ => Iff.rfl⟩

/-- A deletion ends, and takes the one entry out. -/
theorem Good.delete_spec (h : H.Good slots) (hi : i < H.size) (hlive : H.live (slots i) = true) :
    ∃ slots', H.delete slots i = some slots' ∧ H.Good slots' ∧
      ∀ t, H.Stored slots' t ↔ H.Stored slots t ∧ H.keyOf t ≠ H.keyOf (slots i) := by
  have hfuel : H.displacement (Function.update slots i (H.clear (slots i))) * H.size +
      (H.size - H.dist i i) ≤ H.size ^ 3 := by
    obtain ⟨n, hn⟩ := Nat.exists_eq_add_one_of_ne_zero (show H.size ≠ 0 by omega)
    have hle := Nat.mul_le_mul_right H.size
      (displacement_le (H := H) (Function.update slots i (H.clear (slots i))))
    rw [show H.dist i i = 0 from circleDist_self hi, Nat.sub_zero]
    rw [hn, Nat.add_sub_cancel] at hle
    have hexp : (n + 1) ^ 3 = (n + 1) * n * (n + 1) + (n + 1) + n * (n + 1) := by ring
    rw [hn]
    omega
  obtain ⟨slots', heq, hgood, hstored⟩ := (h.gapped hi).shiftBack_spec hfuel
  refine ⟨slots', heq, hgood, fun t => (hstored t).trans ?_⟩
  constructor
  · rintro ⟨ht, p, hp, rfl⟩
    have hpi : p ≠ i := by
      rintro rfl
      rw [Function.update_self, H.not_live_clear] at ht
      cases ht
    rw [Function.update_of_ne hpi] at ht ⊢
    exact ⟨⟨ht, p, hp, rfl⟩, fun hkey => hpi (h.unique p hp i hi ht hlive hkey)⟩
  · rintro ⟨⟨ht, p, hp, rfl⟩, hkey⟩
    have hpi : p ≠ i := by
      rintro rfl
      exact hkey rfl
    exact ⟨ht, p, hp, Function.update_of_ne hpi ..⟩

end Hashing

end BitcoinMachineCode.Foundation
