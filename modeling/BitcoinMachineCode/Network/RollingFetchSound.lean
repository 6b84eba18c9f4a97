import BitcoinMachineCode.Consensus.BlockBytes
import BitcoinMachineCode.Consensus.Sha256
import BitcoinMachineCode.Network.RollingFetch

/-!
# What the rolling chunk fetch hands over

Every parked body lies below the allocator's mark and is the block of its own place, so that
whatever goes to the sink is the block of the next height, through every call and every carry.
-/

namespace BitcoinMachineCode.Network.RollingFetch

open BitcoinMachineCode.Foundation Consensus.Sha256

variable (verify : List UInt8 → Bool) (blockHash : List UInt8 → List UInt8)

/-- A block that was checked and has the hash. -/
def Checked (hash raw : List UInt8) : Prop := verify raw = true ∧ blockHash raw = hash

/-- What is parked lies below the mark and is the block of its place. -/
structure Side.Sound (s : Side) : Prop where
  used_le : s.used ≤ sideBytes
  below : ∀ i, s.len i ≠ 0 → s.off i + s.len i ≤ s.used
  parked : ∀ i, s.len i ≠ 0 → Checked verify blockHash (s.want i) (s.body i)

/-- The side names the blocks of the first `n` headers. -/
def Side.Named (s : Side) (hst : Hst) (n : Nat) : Prop := ∀ i, i < n → (hst i).map recHash = some (s.want i)

namespace Side

variable {verify blockHash} {s t : Side}

/-- A side in which nothing is parked. -/
theorem Sound.of_idle (hused : s.used ≤ sideBytes) (hlen : ∀ i, s.len i = 0) : s.Sound verify blockHash where
  used_le := hused
  below i h := absurd (hlen i) h
  parked i h := absurd (hlen i) h

/-- The bytes depend on the memory of the block alone. -/
theorem body_congr {i : Nat} (hlen : t.len i = s.len i) (hoff : t.off i = s.off i)
    (hbuf : ∀ k, k < s.len i → t.buf (s.off i + k) = s.buf (s.off i + k)) : t.body i = s.body i := by
  simp only [body, hlen, hoff]
  apply List.map_congr_left
  intro k hk
  exact hbuf k (List.mem_range.mp hk)

/-- Dropping a parked block leaves the others. -/
theorem Sound.drop (h : s.Sound verify blockHash) (j : Nat) :
    Side.Sound verify blockHash { s with len := Function.update s.len j 0 } := by
  have keep : ∀ i, Function.update s.len j 0 i ≠ 0 → i ≠ j ∧ Function.update s.len j 0 i = s.len i := by
    intro i hi
    have hij : i ≠ j := by
      intro heq
      simp [heq] at hi
    exact ⟨hij, Function.update_of_ne hij 0 s.len⟩
  constructor
  · exact h.used_le
  · intro i hi
    have hlen := (keep i hi).2
    simp only [hlen] at hi ⊢
    exact h.below i hi
  · intro i hi
    have hlen := (keep i hi).2
    have hbody : Side.body { s with len := Function.update s.len j 0 } i = s.body i :=
      body_congr hlen rfl fun _ _ => rfl
    rw [hbody]
    simp only [hlen] at hi
    exact h.parked i hi

theorem park_eq {j : Nat} {raw : List UInt8} (h : s.park j raw = some t) :
    (s.used + raw.length) % 2 ^ 32 ≤ sideBytes ∧ t = { s with
      buf := fun a => if s.used ≤ a ∧ a < s.used + raw.length then raw.getD (a - s.used) 0 else s.buf a
      off := Function.update s.off j s.used
      len := Function.update s.len j raw.length
      used := s.used + raw.length } := by
  unfold park at h
  split at h
  · simp at h
  · next hle => exact ⟨by omega, by simpa using h.symm⟩

/-- The new body is what was parked. -/
theorem body_park {j : Nat} {raw : List UInt8} (h : s.park j raw = some t) : t.body j = raw := by
  rw [(park_eq h).2]
  apply List.ext_getElem
  · simp [body]
  · intro k hk hk'
    simp [body, hk']

/-- The bodies below the mark stay. -/
theorem body_park_of_ne {i j : Nat} {raw : List UInt8} (h : s.park j raw = some t) (hij : i ≠ j)
    (hbelow : s.off i + s.len i ≤ s.used) : t.body i = s.body i := by
  rw [(park_eq h).2]
  apply body_congr
  · exact Function.update_of_ne hij _ _
  · exact Function.update_of_ne hij _ _
  · intro k hk
    have hlow : ¬s.used ≤ s.off i + k := by omega
    simp [hlow]

/-- Parking at the mark overwrites nothing, as the lengths stay within 32 bits. -/
theorem Sound.park {j : Nat} {raw : List UInt8} (h : s.Sound verify blockHash) (hp : s.park j raw = some t)
    (hfits : raw.length + sideBytes < 2 ^ 32) (hraw : Checked verify blockHash (s.want j) raw) :
    t.Sound verify blockHash := by
  obtain ⟨hle, heq⟩ := park_eq hp
  have hused : t.used = s.used + raw.length := by rw [heq]
  have hsum : s.used + raw.length ≤ sideBytes := by
    have hsmall : s.used + raw.length < 2 ^ 32 := by
      have := h.used_le
      omega
    rwa [Nat.mod_eq_of_lt hsmall] at hle
  have hwant : t.want = s.want := by rw [heq]
  have hlen : ∀ i, i ≠ j → t.len i = s.len i := by
    intro i hij
    rw [heq]
    exact Function.update_of_ne hij _ _
  have hoff : ∀ i, i ≠ j → t.off i = s.off i := by
    intro i hij
    rw [heq]
    exact Function.update_of_ne hij _ _
  constructor
  · rwa [hused]
  · intro i hi
    by_cases hij : i = j
    · simp [heq, hij]
    · rw [hlen i hij] at hi ⊢
      rw [hoff i hij, hused]
      have := h.below i hi
      omega
  · intro i hi
    rw [hwant]
    by_cases hij : i = j
    · rw [hij, body_park hp]
      exact hraw
    · rw [hlen i hij] at hi
      rw [body_park_of_ne hp hij (h.below i hi)]
      exact h.parked i hi

/-- One header of `ibd_side_load`. -/
def loadOne (hst : Hst) (x : Side × Bool) (i : Nat) : Side × Bool :=
  if !x.2 then x
  else
    match hst i with
    | none => (x.1, false)
    | some rcd =>
        ({ x.1 with
            want := Function.update x.1.want i (recHash rcd)
            prev := Function.update x.1.prev i (recPrev rcd) }, true)

theorem load_eq (hst : Hst) : s.load hst = (List.range s.n).foldl (loadOne hst) (s, true) := rfl

theorem loadOne_frame (hst : Hst) (x : Side × Bool) (i : Nat) :
    (loadOne hst x i).1.len = x.1.len ∧ (loadOne hst x i).1.used = x.1.used := by
  unfold loadOne
  split
  · simp
  · split <;> simp

theorem loadOne_named {hst : Hst} {x : Side × Bool} {i : Nat} (hok : (loadOne hst x i).2 = true)
    (hx : x.2 = true → x.1.Named hst i) : (loadOne hst x i).1.Named hst (i + 1) := by
  have hx2 : x.2 = true := by
    by_contra hfalse
    rw [Bool.not_eq_true] at hfalse
    simp [loadOne, hfalse] at hok
  cases hrec : hst i with
  | none => simp [loadOne, hx2, hrec] at hok
  | some rcd =>
      intro j hj
      simp only [loadOne, hx2, hrec]
      by_cases hij : j = i
      · simp [hij, hrec]
      · have hlt : j < i := by omega
        simpa [hij] using hx hx2 j hlt

/-- Loading parks and drops nothing; a side that was loaded names its headers. -/
theorem loadRange_spec (hst : Hst) (n : Nat) :
    let x := (List.range n).foldl (loadOne hst) (s, true)
    x.1.len = s.len ∧ x.1.used = s.used ∧ (x.2 = true → x.1.Named hst n) := by
  induction n with
  | zero => simp [Named]
  | succ n ih =>
      obtain ⟨hlen, hused, hnamed⟩ := ih
      simp only [List.range_succ, List.foldl_append, List.foldl_cons, List.foldl_nil]
      obtain ⟨hlen', hused'⟩ := loadOne_frame hst ((List.range n).foldl (loadOne hst) (s, true)) n
      refine ⟨hlen'.trans hlen, hused'.trans hused, fun hok => ?_⟩
      exact loadOne_named hok hnamed

/-- A side reset and loaded holds nothing, and names its headers if all of them were read. -/
theorem reset_load (s : Side) (lo : Int) (n : Nat) (hst : Hst) :
    ((s.reset lo n).load hst).1.Sound verify blockHash ∧
      (((s.reset lo n).load hst).2 = true → ((s.reset lo n).load hst).1.Named hst n) := by
  obtain ⟨hlen, hused, hnamed⟩ := @loadRange_spec (s.reset lo n) hst n
  constructor
  · apply Sound.of_idle
    · rw [load_eq]
      exact hused.le.trans (Nat.zero_le _)
    · intro i
      rw [load_eq]
      exact congrFun hlen i
  · exact hnamed

end Side

namespace Call

variable {verify blockHash} (c : Call)

theorem sameHashes_named {s : Side} {k i : Nat} (h : c.sameHashes s k i = some true) :
    ∀ j, i ≤ j → j < i + k → (c.hst j).map recHash = some (s.want j) := by
  induction k generalizing i with
  | zero =>
      intro j hi hj
      omega
  | succ k ih =>
      intro j hi hj
      unfold sameHashes at h
      cases hrec : c.hst i with
      | none => simp [hrec] at h
      | some rcd =>
          simp only [hrec] at h
          split at h
          · next hwant =>
              by_cases hij : j = i
              · simp [hij, hrec, hwant]
              · exact ih h j (by omega) (by omega)
          · simp at h

/-- Whichever side the call starts with, it is sound and names the headers of the chunk. -/
theorem adopt_spec {g : Sides} (hargs : c.argsOk = true) (hg : 0 < g.sb.n → g.sb.Sound verify blockHash)
    (hok : (c.adopt g).2.2.2 = true) :
    (c.adopt g).1.Sound verify blockHash ∧ (c.adopt g).1.Named c.hst c.size := by
  have hfresh : ∀ s : Side, (c.reloaded s).2 = true →
      (c.reloaded s).1.Sound verify blockHash ∧ (c.reloaded s).1.Named c.hst c.size := by
    intro s hload
    have hspec := @Side.reset_load verify blockHash s c.lo c.size c.hst
    exact ⟨hspec.1, hspec.2 hload⟩
  unfold adopt at hok ⊢
  split
  · next hcarry =>
      rw [if_pos hcarry] at hok
      cases hsame : c.sameHashes g.sb c.size 0 with
      | none => simp [hsame] at hok
      | some b =>
          cases b with
          | false =>
              simp only [hsame] at hok ⊢
              exact hfresh g.sb hok
          | true =>
              have hn : 0 < g.sb.n := by
                simp only [argsOk, decide_eq_true_eq] at hargs
                omega
              refine ⟨hg hn, fun i hi => ?_⟩
              exact c.sameHashes_named hsame i (Nat.zero_le i) (by omega)
  · next hcarry =>
      rw [if_neg hcarry] at hok
      exact hfresh g.sa hok

theorem lookahead_sound (sb : Side) : (c.lookahead sb).1.Sound verify blockHash := by
  have hempty : (sb.reset c.loNext 0).Sound verify blockHash := by
    apply Side.Sound.of_idle
    · exact Nat.zero_le _
    · exact fun _ => rfl
  unfold lookahead
  split
  · exact hempty
  · split
    · exact (Side.reset_load sb _ _ _).1
    · exact hempty

/-- The heights of the chunk with the hashes of their headers. -/
def chunk : List (Int × Option (List UInt8)) :=
  (List.range c.size).map fun i : Nat => (c.lo + i, (c.hst i).map recHash)

/-- The first blocks of the chunk, in their order and each with a body that was checked. -/
structure Delivered (verify : List UInt8 → Bool) (blockHash : List UInt8 → List UInt8) (xs : List Handed) :
    Prop where
  inOrder : xs.map (fun x => (x.height, some x.hash)) = c.chunk.take xs.length
  checked : ∀ x ∈ xs, Checked verify blockHash x.hash x.raw

variable {c}

theorem Delivered.snoc {xs : List Handed} {hash raw : List UInt8} (h : c.Delivered verify blockHash xs)
    (hlt : xs.length < c.size) (hhash : (c.hst xs.length).map recHash = some hash)
    (hraw : Checked verify blockHash hash raw) :
    c.Delivered verify blockHash (xs ++ [⟨c.lo + xs.length, hash, raw⟩]) := by
  constructor
  · have hnext : c.chunk[xs.length]? = some (c.lo + xs.length, some hash) := by
      simp only [chunk, List.getElem?_map, List.getElem?_range hlt, Option.map_some, hhash]
    simp [List.take_add_one, h.inOrder, hnext]
  · intro x hx
    rcases List.mem_append.mp hx with hold | hnew
    · exact h.checked x hold
    · rw [List.mem_singleton.mp hnew]
      exact hraw

/-- The state between two messages. -/
structure Good (c : Call) (verify : List UInt8 → Bool) (blockHash : List UInt8 → List UInt8) (f : Fetch) :
    Prop where
  own : f.sa.Sound verify blockHash
  ahead : f.sb.Sound verify blockHash
  named : f.sa.Named c.hst c.size
  next_eq : f.next = f.handed.length
  stored_eq : f.stored = f.handed.length
  next_le : f.next ≤ c.size
  delivered : c.Delivered verify blockHash f.handed

/-- What holds after a part of the fetch, failed or not. -/
def After (c : Call) (verify : List UInt8 → Bool) (blockHash : List UInt8 → List UInt8)
    (x : Fetch × Option Fail) : Prop :=
  c.Delivered verify blockHash x.1.handed ∧ (x.2 = none → c.Good verify blockHash x.1)

theorem Good.after {f : Fetch} (h : c.Good verify blockHash f) (why : Option Fail) :
    c.After verify blockHash (f, why) :=
  ⟨h.delivered, fun _ => h⟩

theorem after_failed {f : Fetch} {why : Fail} (h : c.Delivered verify blockHash f.handed) :
    c.After verify blockHash (f, some why) :=
  ⟨h, fun hnone => by simp at hnone⟩

theorem Good.give {f : Fetch} {hash raw : List UInt8} (h : c.Good verify blockHash f) (hlt : f.next < c.size)
    (hhash : hash = f.sa.want f.next) (hraw : Checked verify blockHash hash raw) :
    c.Delivered verify blockHash (c.give f hash raw).1.handed := by
  have hnamed := h.named f.next hlt
  rw [h.next_eq, ← h.next_eq, ← hhash] at hnamed
  have hsnoc := h.delivered.snoc (h.next_eq ▸ hlt) (h.next_eq ▸ hnamed) hraw
  simpa [Call.give, h.next_eq] using hsnoc

/-- The state after the next block went to the sink. -/
theorem Good.advance {f : Fetch} {hash raw : List UInt8} (h : c.Good verify blockHash f) (hlt : f.next < c.size)
    (hhash : hash = f.sa.want f.next) (hraw : Checked verify blockHash hash raw) :
    c.Good verify blockHash { (c.give f hash raw).1 with stored := f.stored + 1, next := f.next + 1 } where
  own := h.own
  ahead := h.ahead
  named := h.named
  next_eq := by simp [Call.give, h.next_eq]
  stored_eq := by simp [Call.give, h.stored_eq]
  next_le := hlt
  delivered := h.give hlt hhash hraw

theorem drain_after {k : Nat} {f : Fetch} (h : c.Good verify blockHash f) :
    c.After verify blockHash (c.drain k f) := by
  induction k generalizing f with
  | zero => exact h.after none
  | succ k ih =>
      unfold drain
      split
      · next hnext =>
          have hraw := h.own.parked f.next hnext.2
          split
          · next f' hgive =>
              apply after_failed
              have := h.give hnext.1 rfl hraw
              rwa [hgive] at this
          · next f' hgive =>
              have hadv := h.advance hnext.1 rfl hraw
              rw [hgive] at hadv
              apply ih
              exact { hadv with own := hadv.own.drop f.next }
      · exact h.after none

theorem topUp_good {f : Fetch} (h : c.Good verify blockHash f) : c.Good verify blockHash (c.topUp f).1 where
  own := ⟨h.own.used_le, h.own.below, h.own.parked⟩
  ahead := ⟨h.ahead.used_le, h.ahead.below, h.ahead.parked⟩
  named := h.named
  next_eq := h.next_eq
  stored_eq := h.stored_eq
  next_le := h.next_le
  delivered := h.delivered

theorem place_spec {s : Side} {n start i : Nat} {hash : List UInt8} (h : place s n start hash = some i) :
    i < n ∧ start ≤ i ∧ hash = s.want i := by
  have hmem := List.mem_range.mp (List.mem_of_find?_eq_some h)
  have hsat := List.find?_some h
  simp only [decide_eq_true_eq] at hsat
  exact ⟨hmem, hsat.1, hsat.2.2⟩

theorem takeOwn_after {f : Fetch} {i : Nat} {raw : List UInt8} (h : c.Good verify blockHash f)
    (hi : i < c.size) (hwant : blockHash raw = f.sa.want i) (hverify : verify raw = true)
    (hfits : raw.length + sideBytes < 2 ^ 32) : c.After verify blockHash (c.takeOwn blockHash f i raw) := by
  unfold takeOwn
  split
  · exact h.after _
  · have harrived : c.Good verify blockHash { f with sa := { f.sa with arrived := f.sa.arrived + 1 } } :=
      { h with own := ⟨h.own.used_le, h.own.below, h.own.parked⟩ }
    dsimp only
    split
    · next hnext =>
        -- it is the one the sink waits for: what is parked behind it follows
        subst hnext
        have hraw : Checked verify blockHash (blockHash raw) raw := ⟨hverify, rfl⟩
        split
        · next f' hgive =>
            apply after_failed
            have := harrived.give hi hwant hraw
            rwa [hgive] at this
        · next f' hgive =>
            have hadv := harrived.advance hi hwant hraw
            rw [hgive] at hadv
            exact drain_after hadv
    · split
      · exact harrived.after _
      · next sa hpark =>
          have hsame : sa.want = f.sa.want := by rw [(Side.park_eq hpark).2]
          apply Good.after
          exact { harrived with
            own := harrived.own.park hpark hfits ⟨hverify, hwant⟩
            named := by
              intro j hj
              rw [hsame]
              exact h.named j hj }

theorem takeAhead_after {f : Fetch} {i : Nat} {raw : List UInt8} (h : c.Good verify blockHash f)
    (hwant : blockHash raw = f.sb.want i) (hverify : verify raw = true)
    (hfits : raw.length + sideBytes < 2 ^ 32) : c.After verify blockHash (takeAhead f i raw) := by
  unfold takeAhead
  split
  · exact h.after _
  · have harrived : c.Good verify blockHash { f with sb := { f.sb with arrived := f.sb.arrived + 1 } } :=
      { h with ahead := ⟨h.ahead.used_le, h.ahead.below, h.ahead.parked⟩ }
    dsimp only
    split
    · exact harrived.after _
    · next sb hpark =>
        apply Good.after
        exact { harrived with ahead := harrived.ahead.park hpark hfits ⟨hverify, hwant⟩ }

theorem takeBlock_after {f : Fetch} {raw : List UInt8} (h : c.Good verify blockHash f)
    (hfits : raw.length + sideBytes < 2 ^ 32) : c.After verify blockHash (c.takeBlock verify blockHash f raw) := by
  unfold takeBlock
  split
  · exact h.after _
  · next hverify =>
      have hverify : verify raw = true := by simpa using hverify
      split
      · next i hplace =>
          obtain ⟨hi, _, hwant⟩ := place_spec hplace
          exact takeOwn_after h hi hwant hverify hfits
      · split
        · next i hplace =>
            obtain ⟨_, _, hwant⟩ := place_spec hplace
            exact takeAhead_after h hwant hverify hfits
        · apply Good.after
          exact { h with }

theorem round_after {f : Fetch} (r : Nat) (h : c.Good verify blockHash f) :
    c.After verify blockHash (c.round verify blockHash r f) := by
  have htop := topUp_good h
  simp only [round]
  split
  · exact htop.after _
  · split
    · exact htop.after _
    · next m _ =>
        split
        · exact htop.after _
        · split
          · exact htop.after _
          · have := c.buflen_fits
            apply takeBlock_after htop
            omega

/-- A loop that ends well has handed over the whole chunk. -/
theorem loop_after {k r : Nat} {f : Fetch} (h : c.Good verify blockHash f) :
    c.After verify blockHash (c.loop verify blockHash k r f) ∧
      ((c.loop verify blockHash k r f).2 = none → (c.loop verify blockHash k r f).1.stored = c.size) := by
  induction k generalizing r f with
  | zero =>
      refine ⟨h.after _, fun hnone => ?_⟩
      simp only [loop] at hnone ⊢
      by_contra hne
      simp [hne] at hnone
  | succ k ih =>
      unfold loop
      split
      · have hround := round_after r h
        split
        · next f' heq =>
            rw [heq] at hround
            exact ih (hround.2 rfl)
        · next f' why heq =>
            rw [heq] at hround
            exact ⟨after_failed hround.1, fun hnone => by simp at hnone⟩
      · refine ⟨h.after _, fun hnone => ?_⟩
        by_contra hne
        simp [hne] at hnone

/-- What one call leaves: the carry is sound, and what was handed over are the first blocks of
the chunk, all of them if it succeeded. -/
structure Result (c : Call) (verify : List UInt8 → Bool) (blockHash : List UInt8 → List UInt8)
    (x : Sides × Outcome) : Prop where
  carry : 0 < x.1.sb.n → x.1.sb.Sound verify blockHash
  delivered : c.Delivered verify blockHash x.2.handed
  whole : x.2.why = none → 0 < c.nloc ∧ x.2.handed.length = c.size

theorem failed_result {sa sb : Side} {xs : List Handed} {why : Fail} (h : c.Delivered verify blockHash xs) :
    c.Result verify blockHash (failed sa sb xs why) where
  carry hn := absurd hn (Nat.lt_irrefl 0)
  delivered := h
  whole hnone := by simp [failed] at hnone

theorem delivered_nil : c.Delivered verify blockHash [] where
  inOrder := rfl
  checked x hx := by simp at hx

theorem ibdFetchChunkRolling_result {g : Sides} (hg : 0 < g.sb.n → g.sb.Sound verify blockHash) :
    c.Result verify blockHash (c.ibdFetchChunkRolling verify blockHash g) := by
  unfold ibdFetchChunkRolling
  split
  · exact failed_result delivered_nil
  · next hargs =>
      have hargs : c.argsOk = true := by simpa using hargs
      split
      · exact failed_result delivered_nil
      · split
        next sa sb stale ok hadopt =>
        split
        · exact failed_result delivered_nil
        · next hok =>
            have hok : ok = true := by simpa using hok
            have hspec := @adopt_spec verify blockHash c g hargs hg (by rw [hadopt]; exact hok)
            rw [hadopt] at hspec
            split
            next sb' ok' hlook =>
            split
            · exact failed_result delivered_nil
            · have hahead := @lookahead_sound verify blockHash c sb
              rw [hlook] at hahead
              have hstart : c.Good verify blockHash ⟨sa, sb', stale, 0, 0, []⟩ :=
                ⟨hspec.1, hahead, hspec.2, rfl, rfl, Nat.zero_le _, delivered_nil⟩
              have hdrain := @drain_after verify blockHash c c.size _ hstart
              split
              · next f why heq =>
                  rw [heq] at hdrain
                  exact failed_result hdrain.1
              · next f heq =>
                  rw [heq] at hdrain
                  have hloop := @loop_after verify blockHash c ((c.size + f.sb.n) * 8 + 256) 0 f (hdrain.2 rfl)
                  split
                  · next f' why heq' =>
                      rw [heq'] at hloop
                      exact failed_result hloop.1.1
                  · next f' heq' =>
                      rw [heq'] at hloop
                      have hgood := hloop.1.2 rfl
                      constructor
                      · exact fun _ => hgood.ahead
                      · exact hgood.delivered
                      · intro _
                        simp only [argsOk, decide_eq_true_eq] at hargs
                        exact ⟨hargs.1, hgood.stored_eq.symm.trans (hloop.2 rfl)⟩

end Call

section Runs

variable {verify blockHash}

theorem stepSides_carry {g : Sides} (a : Step) (hg : 0 < g.sb.n → g.sb.Sound verify blockHash) :
    0 < (stepSides verify blockHash g a).1.sb.n → (stepSides verify blockHash g a).1.sb.Sound verify blockHash := by
  cases a with
  | fetch c => exact (Call.ibdFetchChunkRolling_result hg).carry
  | dropCarry =>
      intro hn
      simp [stepSides] at hn

theorem stepSides_result {g : Sides} {a : Step} (hg : 0 < g.sb.n → g.sb.Sound verify blockHash)
    {x : Call × Call.Outcome} (hx : (stepSides verify blockHash g a).2 = some x) :
    ∃ t, x.1.Result verify blockHash (t, x.2) := by
  cases a with
  | fetch c =>
      simp only [stepSides, Option.some.injEq] at hx
      subst hx
      exact ⟨_, Call.ibdFetchChunkRolling_result hg⟩
  | dropCarry => simp [stepSides] at hx

theorem runSides_result {g : Sides} (steps : List Step) (hg : 0 < g.sb.n → g.sb.Sound verify blockHash)
    {x : Call × Call.Outcome} (hx : x ∈ runSides verify blockHash g steps) :
    ∃ t, x.1.Result verify blockHash (t, x.2) := by
  induction steps generalizing g with
  | nil => simp [runSides] at hx
  | cons a as ih =>
      simp only [runSides, List.mem_append, Option.mem_toList] at hx
      rcases hx with hnow | hlater
      · exact stepSides_result hg hnow
      · exact ih (stepSides_carry a hg) hlater

end Runs

/-- `block_hash` -/
def headerHash (raw : List UInt8) : List UInt8 := (Consensus.sha256d (raw.take 80)).1

/-- In every run of calls on whatever the peer sends, what a call hands to the sink are the
first blocks of its chunk in ascending order, each once and checked; all if it succeeds. -/
theorem handed_in_order (powCheck : List UInt8 → Bool) (cap : Nat) (steps : List Step) :
    ∀ x ∈ runSides (Consensus.consVerify Consensus.sha256d powCheck cap) headerHash emptySides steps,
      x.2.handed.map (fun b => (b.height, some b.hash)) = x.1.chunk.take x.2.handed.length ∧
      (∀ b ∈ x.2.handed, Consensus.consVerify Consensus.sha256d powCheck cap b.raw = true ∧
        headerHash b.raw = b.hash) ∧
      (x.2.why = none → (x.1.size : Int) = x.1.nloc ∧
        x.2.handed.map (fun b => (b.height, some b.hash)) = x.1.chunk) := by
  intro x hx
  obtain ⟨t, hresult⟩ := runSides_result steps (fun hn => absurd hn (Nat.lt_irrefl 0)) hx
  refine ⟨hresult.delivered.inOrder, hresult.delivered.checked, fun hnone => ?_⟩
  obtain ⟨hpos, hlen⟩ := hresult.whole hnone
  constructor
  · exact Int.toNat_of_nonneg hpos.le
  · rw [hresult.delivered.inOrder, hlen]
    apply List.take_of_length_le
    simp [Call.chunk]

/-- The first two blocks of the chain. -/
def block0 : List UInt8 :=
  beBytes 36 0x010000000000000000000000000000000000000000000000000000000000000000000000 ++
    beBytes 32 0x3ba3edfd7a7b12b27ac72c3e67768f617fc81bc3888a51323a9fb8aa4b1e5e4a ++
    beBytes 13 0x29ab5f49ffff001d1dac2b7c01 ++
    beBytes 41 0x01000000010000000000000000000000000000000000000000000000000000000000000000ffffffff ++
    beBytes 40 0x4d04ffff001d0104455468652054696d65732030332f4a616e2f32303039204368616e63656c6c6f ++
    beBytes 40 0x72206f6e206272696e6b206f66207365636f6e64206261696c6f757420666f722062616e6b73ffff ++
    beBytes 40 0xffff0100f2052a01000000434104678afdb0fe5548271967f1a67130b7105cd6a828e03909a67962 ++
    beBytes 40 0xe0ea1f61deb649f6bc3f4cef38c4f35504e51ec112de5c384df7ba0b8d578a4c702b6bf11d5fac00 ++
    beBytes 3 0x000000

def block1 : List UInt8 :=
  beBytes 36 0x010000006fe28c0ab6f1b372c1a6a246ae63f74f931e8365e15a089c68d6190000000000 ++
    beBytes 32 0x982051fd1e4ba744bbbe680e1fee14677ba1a3c3540bf7b1cdb606e857233e0e ++
    beBytes 13 0x61bc6649ffff001d01e3629901 ++
    beBytes 41 0x01000000010000000000000000000000000000000000000000000000000000000000000000ffffffff ++
    beBytes 40 0x0704ffff001d0104ffffffff0100f2052a0100000043410496b538e853519c726a2c91e61ec11600 ++
    beBytes 40 0xae1390813a627c66fb8be7947be63c52da7589379515d4e0a604f8141781e62294721166bf621e73 ++
    beBytes 13 0xa82cbf2342c858eeac00000000

/-- The proof of work as `pow_check` has it. -/
def samplePow (header : List UInt8) : Bool :=
  leVal (Consensus.sha256d header).1 ≤
    leVal ((header.drop 72).take 3) * 256 ^ (leVal ((header.drop 75).take 1) - 3)

/-- The record of a block in a header store. -/
def record (block : List UInt8) : List UInt8 := block.take 80 ++ headerHash block

/-- Block 0 is fetched with block 1 ahead, which comes first. -/
def callAhead : Call where
  fd := 5
  lo := 0
  nloc := 1
  loNext := 1
  nNext := 1
  cap := 16
  hst i := [record block0][i]?
  hstNext := some fun i => [record block1][i]?
  buflen := 24 <<< 20
  buflen_fits := by decide
  mapped := true
  reads r := [(⟨.block, block1⟩ : Msg), ⟨.other, []⟩, ⟨.block, block0⟩][r]?
  writes _ := true
  sinks _ := true

/-- Block 1 is carried: nothing is read. -/
def callCarried : Call where
  fd := 5
  lo := 1
  nloc := 1
  loNext := 2
  nNext := 0
  cap := 16
  hst i := [record block1][i]?
  hstNext := none
  buflen := 24 <<< 20
  buflen_fits := by decide
  mapped := true
  reads _ := none
  writes _ := true
  sinks _ := true

theorem handed_in_order_carried :
    let run := runSides (Consensus.consVerify Consensus.sha256d samplePow 100) headerHash emptySides
      [.fetch callAhead, .fetch callCarried]
    run.map (fun x => (x.2.why, x.2.handed.map fun b => (b.height, b.raw))) =
      [(none, [(0, block0)]), (none, [(1, block1)])] ∧
    ∀ x ∈ run, x.2.why = none → x.2.handed.map (fun b => (b.height, some b.hash)) = x.1.chunk := by
  constructor
  · decide +kernel
  · intro x hx hnone
    exact ((handed_in_order samplePow 100 [.fetch callAhead, .fetch callCarried] x hx).2.2 hnone).2

end BitcoinMachineCode.Network.RollingFetch
