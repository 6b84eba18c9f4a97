import BitcoinMachineCode.Consensus.BlockBytes
import BitcoinMachineCode.Consensus.Sha256
import BitcoinMachineCode.Foundation.Shares
import Mathlib.Data.List.Sort

/-!
# The orphan pool

Transactions whose parents are not there yet are parked in a table of slots, as
`daemon/tx_relay.c` has it.  Slots and bytes are limited, and each peer that has orphans
parked is entitled to an equal share of both limits: whoever uses the most loses its oldest
orphan when the newcomer does not fit.
-/

namespace BitcoinMachineCode.Network

open Foundation Consensus

def txrOrphanMax : Nat := 2048

def txrOrphanBytes : Nat := 8 <<< 20

def scratchRoom : Nat := 2000 * 81 + 8

section Table

variable (sha256d : List UInt8 → Bytes 32)

/-- `tx_txid` on what a peer sent: the witness is not read, and the locktime is the last
four bytes wherever the outputs end. -/
def relayTxid (tx : List UInt8) : Option (Bytes 32) :=
  match (readBody false).verbatim (tx.drop (if hasMarker (tx.drop 4) then 6 else 4)) with
  | none => none
  | some ((_, body), rest) =>
      if rest.length < 4 ∨ scratchRoom < body.length + 8 then none
      else some (sha256d (tx.take 4 ++ body ++ rest.drop (rest.length - 4)))

/-- A transaction with the names `txr_take_tx` gives it, who sent it, and when it is parked. -/
structure Orphan where
  tx : List UInt8
  txid : Bytes 32
  wtxid : Bytes 32
  peer : Int
  tMs : Int
  txid_eq : relayTxid sha256d tx = some txid
  wtxid_eq : wtxid = sha256d tx

structure OrphanTable where
  slots : List (Option (Orphan sha256d))
  bytes : Nat
  gen : Nat
  parkedEver : Nat
  dropped : Nat
  dropEvict : Nat

variable {sha256d}

def txrOrphanFree (t : OrphanTable sha256d) (i : Nat) (o : Orphan sha256d) :
    OrphanTable sha256d :=
  { t with gen := t.gen + 1, bytes := t.bytes - o.tx.length, slots := t.slots.set i none }

/-! ## Whom to evict -/

def parked (slots : List (Option (Orphan sha256d))) : List (Orphan sha256d) :=
  slots.filterMap id

/-- The entries that share the limits: what is parked, and the newcomer. -/
def claimants (slots : List (Option (Orphan sha256d))) (new : Orphan sha256d) :
    List (Orphan sha256d) :=
  parked slots ++ [new]

def scoreKey (r : OwnerRun Int) : Nat :=
  let kc := r.count * txrOrphanBytes
  let kb := r.weight * txrOrphanMax
  if kb < kc then kc else kb

/-- Ties go to the larger peer key. -/
def worse (best : Option (OwnerRun Int)) (r : OwnerRun Int) : Option (OwnerRun Int) :=
  match best with
  | none => some r
  | some b =>
      if scoreKey b < scoreKey r ∨ (scoreKey r = scoreKey b ∧ b.owner < r.owner) then some r
      else some b

/-- The peer with the highest score.  The sort is by peer and then by slot; no sum over a
peer's entries depends on the latter. -/
def worstRun (entries : List (Orphan sha256d)) : Option (OwnerRun Int) :=
  (runs Orphan.peer (fun o => o.tx.length)
    (entries.insertionSort fun a b => a.peer ≤ b.peer)).foldl worse none

/-- The last loop of `txr_orphan_victim` from slot `i` on. -/
def oldestFrom (peer : Int) :
    Nat → Option (Nat × Orphan sha256d) → List (Option (Orphan sha256d)) →
      Option (Nat × Orphan sha256d)
  | _, victim, [] => victim
  | i, victim, none :: slots => oldestFrom peer (i + 1) victim slots
  | i, none, some o :: slots =>
      oldestFrom peer (i + 1) (if o.peer = peer then some (i, o) else none) slots
  | i, some v, some o :: slots =>
      oldestFrom peer (i + 1) (if o.peer = peer ∧ o.tMs < v.2.tMs then some (i, o) else some v)
        slots

/-- The slot to evict and its orphan; none when the newcomer is the one to refuse. -/
def txrOrphanVictim (slots : List (Option (Orphan sha256d))) (new : Orphan sha256d) :
    Option (Nat × Orphan sha256d) :=
  match worstRun (claimants slots new) with
  | none => none
  | some worst => oldestFrom worst.owner 0 none slots

theorem oldestFrom_sound {peer : Int} {slots table : List (Option (Orphan sha256d))} {i : Nat}
    {victim : Option (Nat × Orphan sha256d)} (htable : table.drop i = slots)
    (hvictim : ∀ v ∈ victim, table[v.1]? = some (some v.2) ∧ v.2.peer = peer) :
    ∀ v ∈ oldestFrom peer i victim slots,
      table[v.1]? = some (some v.2) ∧ v.2.peer = peer := by
  induction slots generalizing i victim with
  | nil =>
      unfold oldestFrom
      exact hvictim
  | cons slot slots ih =>
      have hhere : table[i]? = some slot := by
        have := congrArg (·[0]?) htable
        simpa using this
      have hnext : table.drop (i + 1) = slots := by
        rw [← List.drop_drop, htable]
        rfl
      cases slot with
      | none =>
          unfold oldestFrom
          exact ih hnext hvictim
      | some o =>
          cases victim with
          | none =>
              unfold oldestFrom
              refine ih hnext fun v hv => ?_
              split_ifs at hv with h
              · obtain rfl := Option.mem_some_iff.mp hv
                exact ⟨hhere, h⟩
              · cases hv
          | some w =>
              unfold oldestFrom
              refine ih hnext fun v hv => ?_
              split_ifs at hv with h
              · obtain rfl := Option.mem_some_iff.mp hv
                exact ⟨hhere, h.1⟩
              · exact hvictim v hv

theorem oldestFrom_isSome {peer : Int} {slots : List (Option (Orphan sha256d))} {i : Nat}
    {victim : Option (Nat × Orphan sha256d)}
    (h : victim.isSome ∨ ∃ o ∈ parked slots, o.peer = peer) :
    (oldestFrom peer i victim slots).isSome := by
  induction slots generalizing i victim with
  | nil => simpa [oldestFrom, parked] using h
  | cons slot slots ih =>
      cases slot with
      | none =>
          unfold oldestFrom
          exact ih (by simpa [parked] using h)
      | some o =>
          cases victim with
          | none =>
              unfold oldestFrom
              apply ih
              by_cases ho : o.peer = peer
              · simp [ho]
              · simpa [parked, ho] using h
          | some w =>
              unfold oldestFrom
              apply ih
              split_ifs <;> simp

theorem worse_step (best : Option (OwnerRun Int)) (r : OwnerRun Int) :
    ∃ w, worse best r = some w ∧ (w = r ∨ best = some w) ∧ scoreKey r ≤ scoreKey w ∧
      ∀ b ∈ best, scoreKey b ≤ scoreKey w := by
  cases best with
  | none => exact ⟨r, rfl, .inl rfl, le_rfl, nofun⟩
  | some b =>
      simp only [worse, Option.mem_some_iff, forall_eq']
      split_ifs with h
      · exact ⟨r, rfl, .inl rfl, le_rfl, by omega⟩
      · exact ⟨b, rfl, .inr rfl, by omega, le_rfl⟩

theorem worse_run (best : Option (OwnerRun Int)) (rs : List (OwnerRun Int)) (h : best.isSome ∨ rs ≠ []) :
    ∃ w, rs.foldl worse best = some w ∧ (w ∈ rs ∨ best = some w) ∧
      (∀ r ∈ rs, scoreKey r ≤ scoreKey w) ∧ ∀ b ∈ best, scoreKey b ≤ scoreKey w := by
  induction rs generalizing best with
  | nil =>
      obtain ⟨b, rfl⟩ := Option.isSome_iff_exists.mp (h.resolve_right fun h => h rfl)
      exact ⟨b, rfl, .inr rfl, nofun, by simp⟩
  | cons r rs ih =>
      obtain ⟨w₁, hw₁, hfrom, hr, hbest⟩ := worse_step best r
      obtain ⟨w, hw, hmem, hall, hkeep⟩ := ih (worse best r) (.inl (by simp [hw₁]))
      have hle : scoreKey w₁ ≤ scoreKey w := hkeep w₁ hw₁
      refine ⟨w, hw, ?_, List.forall_mem_cons.mpr ⟨hr.trans hle, hall⟩,
        fun b hb => (hbest b hb).trans hle⟩
      rcases hmem with hmem | hmem
      · exact .inl (List.mem_cons_of_mem r hmem)
      · obtain rfl : w₁ = w := Option.some_injective _ (hw₁.symm.trans hmem)
        exact hfrom.imp (fun hr : w₁ = r => hr ▸ List.mem_cons_self) id

/-! ## Usage -/

def usedSlots (entries : List (Orphan sha256d)) (peer : Int) : Nat :=
  held Orphan.peer (fun _ => 1) entries peer

def usedBytes (entries : List (Orphan sha256d)) (peer : Int) : Nat :=
  held Orphan.peer (fun o => o.tx.length) entries peer

/-- The peer uses no more of either limit than the limit divided by the number of peers. -/
def WithinShare (entries : List (Orphan sha256d)) (peer : Int) : Prop :=
  usedSlots entries peer ≤ txrOrphanMax / (owners Orphan.peer entries).card ∧
  usedBytes entries peer ≤ txrOrphanBytes / (owners Orphan.peer entries).card

/-- What the score of a peer is in terms of its usage. -/
def score (entries : List (Orphan sha256d)) (peer : Int) : Nat :=
  max (usedSlots entries peer * txrOrphanBytes) (usedBytes entries peer * txrOrphanMax)

theorem worstRun_spec (entries : List (Orphan sha256d)) (h : entries ≠ []) :
    ∃ worst, worstRun entries = some worst ∧ worst.owner ∈ owners Orphan.peer entries ∧
      ∀ p ∈ owners Orphan.peer entries, score entries p ≤ score entries worst.owner := by
  have hperm := entries.perm_insertionSort fun a b => a.peer ≤ b.peer
  have hruns := isRuns_runs Orphan.peer (fun o => o.tx.length)
    (entries.pairwise_insertionSort fun a b => a.peer ≤ b.peer)
  have hkey : ∀ r ∈ runs Orphan.peer (fun o => o.tx.length)
      (entries.insertionSort fun a b => a.peer ≤ b.peer),
      scoreKey r = score entries r.owner := by
    intro r hr
    have hcount := hruns.count_eq r hr
    have hweight := hruns.weight_eq r hr
    rw [held_perm _ _ hperm] at hcount hweight
    simp only [scoreKey, score, usedSlots, usedBytes, hcount, hweight]
    split_ifs <;> omega
  have hne : runs Orphan.peer (fun o => o.tx.length)
      (entries.insertionSort fun a b => a.peer ≤ b.peer) ≠ [] := by
    obtain ⟨e, he⟩ := List.exists_mem_of_ne_nil entries h
    obtain ⟨r, hr, -⟩ := hruns.complete e (hperm.mem_iff.mpr he)
    exact List.ne_nil_of_mem hr
  obtain ⟨worst, hworst, hmem, hall, -⟩ := worse_run none _ (.inr hne)
  have hin := hmem.resolve_right (Option.some_ne_none worst).symm
  refine ⟨worst, hworst, ?_, fun p hp => ?_⟩
  · rw [← owners_perm _ hperm]
    exact hruns.sound worst hin
  · rw [← owners_perm _ hperm] at hp
    obtain ⟨e, he, rfl⟩ := (mem_owners _).mp hp
    obtain ⟨r, hr, howner⟩ := hruns.complete e he
    rw [← howner, ← hkey r hr, ← hkey worst hin]
    exact hall r hr

/-- Usage of one limit alone already makes a score. -/
theorem score_le_of_withinShare {entries : List (Orphan sha256d)} {peer : Int} {n : Nat}
    (hslots : usedSlots entries peer * n ≤ txrOrphanMax)
    (hbytes : usedBytes entries peer * n ≤ txrOrphanBytes) :
    score entries peer * n ≤ txrOrphanMax * txrOrphanBytes := by
  unfold score
  rw [← Nat.mul_max_mul_right, max_le_iff]
  constructor
  · rw [mul_right_comm]
    exact Nat.mul_le_mul_right _ hslots
  · rw [mul_right_comm, mul_comm txrOrphanMax]
    exact Nat.mul_le_mul_right _ hbytes

/-- Entries over one of the limits have a peer whose score says so. -/
theorem exists_score_over {entries : List (Orphan sha256d)}
    (h : txrOrphanMax < entries.length ∨
      txrOrphanBytes < (entries.map fun o => o.tx.length).sum) :
    ∃ p ∈ owners Orphan.peer entries,
      txrOrphanMax * txrOrphanBytes < score entries p * (owners Orphan.peer entries).card := by
  rcases h with h | h
  · obtain ⟨p, hp, hlt⟩ := exists_over_share Orphan.peer (fun _ => 1) entries txrOrphanMax
      (by simpa using h)
    refine ⟨p, hp, lt_of_lt_of_le (Nat.mul_lt_mul_of_pos_right hlt (by decide)) ?_⟩
    rw [mul_right_comm]
    exact Nat.mul_le_mul_right _ (le_max_left _ _)
  · obtain ⟨p, hp, hlt⟩ := exists_over_share Orphan.peer (fun o => o.tx.length) entries _ h
    refine ⟨p, hp, ?_⟩
    rw [mul_comm txrOrphanMax]
    refine lt_of_lt_of_le (Nat.mul_lt_mul_of_pos_right hlt (by decide)) ?_
    rw [mul_right_comm]
    exact Nat.mul_le_mul_right _ (le_max_right _ _)

/-! ## Parking -/

/-- The first free slot, if the byte budget has room as well. -/
def roomFor (t : OrphanTable sha256d) (len : Nat) : Option Nat :=
  match t.slots.findIdx? Option.isNone with
  | none => none
  | some slot => if t.bytes + len ≤ txrOrphanBytes then some slot else none

def park (t : OrphanTable sha256d) (slot : Nat) (new : Orphan sha256d) : OrphanTable sha256d :=
  { t with
    slots := t.slots.set slot (some new)
    bytes := t.bytes + new.tx.length
    parkedEver := t.parkedEver + 1 }

def drop (t : OrphanTable sha256d) : OrphanTable sha256d :=
  { t with dropped := t.dropped + 1, dropEvict := t.dropEvict + 1 }

theorem parked_set {slots : List (Option (Orphan sha256d))} {i : Nat}
    {slot : Option (Orphan sha256d)} (h : slots[i]? = some slot) :
    ∃ before after, parked slots = before ++ slot.toList ++ after ∧
      ∀ slot', parked (slots.set i slot') = before ++ slot'.toList ++ after := by
  induction slots generalizing i with
  | nil => simp at h
  | cons s slots ih =>
      have hcons : ∀ (x : Option (Orphan sha256d)) (rest),
          parked (x :: rest) = x.toList ++ parked rest := by
        intro x rest
        cases x <;> simp [parked]
      cases i with
      | zero =>
          obtain rfl : s = slot := by simpa using h
          refine ⟨[], parked slots, by simp [hcons], fun slot' => ?_⟩
          simp [hcons]
      | succ i =>
          obtain ⟨before, after, heq, hset⟩ := ih (i := i) (by simpa using h)
          refine ⟨s.toList ++ before, after, by simp [hcons, heq], fun slot' => ?_⟩
          simp [hcons, hset]

theorem txrOrphanVictim_sound {slots : List (Option (Orphan sha256d))} {new : Orphan sha256d}
    {v : Nat × Orphan sha256d} (h : txrOrphanVictim slots new = some v) :
    slots[v.1]? = some (some v.2) := by
  unfold txrOrphanVictim at h
  split at h
  · cases h
  · exact (oldestFrom_sound rfl (by simp) v h).1

theorem parked_free_lt {t : OrphanTable sha256d} {v : Nat × Orphan sha256d}
    (h : t.slots[v.1]? = some (some v.2)) :
    (parked (txrOrphanFree t v.1 v.2).slots).length < (parked t.slots).length := by
  obtain ⟨before, after, heq, hset⟩ := parked_set h
  simp [txrOrphanFree, heq, hset]

/-- The loop of `txr_orphan_add`: park the newcomer, or evict until it fits. -/
def makeRoom (new : Orphan sha256d) (t : OrphanTable sha256d) : OrphanTable sha256d :=
  match roomFor t new.tx.length with
  | some slot => park t slot new
  | none =>
      match _hvictim : txrOrphanVictim t.slots new with
      | none => drop t
      | some v => makeRoom new (drop (txrOrphanFree t v.1 v.2))
termination_by (parked t.slots).length
decreasing_by exact parked_free_lt (txrOrphanVictim_sound _hvictim)

def txrOrphanAdd (t : OrphanTable sha256d) (new : Orphan sha256d) : OrphanTable sha256d :=
  let t := { t with gen := t.gen + 1 }
  if new.tx.length = 0 ∨ txrOrphanBytes / 4 < new.tx.length then t
  else if (parked t.slots).any (fun o => decide (o.txid = new.txid)) then t
  else makeRoom new t

/-- What evictions keep, the table has when the loop comes to its end. -/
theorem makeRoom_rule {new : Orphan sha256d} {P : OrphanTable sha256d → Prop}
    (hevict : ∀ t v, P t → roomFor t new.tx.length = none →
      txrOrphanVictim t.slots new = some v → P (drop (txrOrphanFree t v.1 v.2)))
    {t : OrphanTable sha256d} (ht : P t) :
    ∃ t', P t' ∧
      ((∃ slot, roomFor t' new.tx.length = some slot ∧ makeRoom new t = park t' slot new) ∨
        (roomFor t' new.tx.length = none ∧ txrOrphanVictim t'.slots new = none ∧
          makeRoom new t = drop t')) := by
  induction hn : (parked t.slots).length using Nat.strong_induction_on generalizing t with
  | _ n ih =>
      unfold makeRoom
      split
      next slot hroom => exact ⟨t, ht, .inl ⟨slot, hroom, rfl⟩⟩
      next hroom =>
        split
        next hvictim => exact ⟨t, ht, .inr ⟨hroom, hvictim, rfl⟩⟩
        next v hvictim =>
          exact ih _ (hn ▸ parked_free_lt (txrOrphanVictim_sound hvictim))
            (hevict t v ht hroom hvictim) rfl

theorem roomFor_spec {t : OrphanTable sha256d} {len slot : Nat} (h : roomFor t len = some slot) :
    t.slots[slot]? = some none ∧ t.bytes + len ≤ txrOrphanBytes := by
  unfold roomFor at h
  split at h
  · cases h
  next i hi =>
    split_ifs at h with hbytes
    obtain rfl : i = slot := Option.some_injective _ h
    obtain ⟨hlt, hnone, -⟩ := List.findIdx?_eq_some_iff_getElem.mp hi
    exact ⟨by simpa [List.getElem?_eq_getElem hlt] using hnone, hbytes⟩

/-! ## The pool -/

structure Sound (t : OrphanTable sha256d) : Prop where
  size : t.slots.length = txrOrphanMax
  bytes_eq : t.bytes = ((parked t.slots).map fun o => o.tx.length).sum
  bytes_le : t.bytes ≤ txrOrphanBytes
  txids : ((parked t.slots).map Orphan.txid).Nodup

theorem Sound.free {t : OrphanTable sha256d} {v : Nat × Orphan sha256d} (h : Sound t)
    (hv : t.slots[v.1]? = some (some v.2)) : Sound (drop (txrOrphanFree t v.1 v.2)) := by
  obtain ⟨before, after, heq, hset⟩ := parked_set hv
  have hbytes := h.bytes_eq
  have hle := h.bytes_le
  have htxids := h.txids
  simp only [heq, Option.toList_some, List.map_append, List.sum_append, List.map_cons,
    List.map_nil, List.sum_cons, List.sum_nil] at hbytes htxids
  constructor
  · simpa [drop, txrOrphanFree] using h.size
  · simp only [drop, txrOrphanFree, hset, Option.toList_none, List.append_nil, List.map_append,
      List.sum_append]
    omega
  · simp only [drop, txrOrphanFree]
    omega
  · simp only [drop, txrOrphanFree, hset, Option.toList_none, List.append_nil, List.map_append]
    exact htxids.sublist ((List.sublist_append_left _ _).append (List.Sublist.refl _))

theorem Sound.park {t : OrphanTable sha256d} {slot : Nat} {new : Orphan sha256d} (h : Sound t)
    (hroom : roomFor t new.tx.length = some slot)
    (hnew : ∀ o ∈ parked t.slots, o.txid ≠ new.txid) : Sound (park t slot new) := by
  obtain ⟨hslot, hle⟩ := roomFor_spec hroom
  obtain ⟨before, after, heq, hset⟩ := parked_set hslot
  have hbytes := h.bytes_eq
  have htxids := h.txids
  simp only [heq, Option.toList_none, List.append_nil] at hbytes htxids hnew
  constructor
  · simpa [Network.park] using h.size
  · simp only [Network.park, hset, hbytes, Option.toList_some, List.map_append, List.sum_append,
      List.map_cons, List.map_nil, List.sum_cons, List.sum_nil]
    omega
  · exact hle
  · have hperm : (before ++ [new] ++ after).Perm (new :: (before ++ after)) := by
      simp
    simp only [Network.park, hset, Option.toList_some]
    rw [(hperm.map Orphan.txid).nodup_iff, List.map_cons, List.nodup_cons]
    refine ⟨fun hmem => ?_, htxids⟩
    obtain ⟨o, ho, htxid⟩ := List.mem_map.mp hmem
    exact hnew o ho htxid

/-- What the table is between two calls. -/
structure OrphanPool (sha256d : List UInt8 → Bytes 32) extends OrphanTable sha256d where
  sound : Sound toOrphanTable

theorem Sound.makeRoom {t : OrphanTable sha256d} {new : Orphan sha256d} (h : Sound t)
    (hnew : ∀ o ∈ parked t.slots, o.txid ≠ new.txid) : Sound (makeRoom new t) := by
  obtain ⟨t', ⟨hsound, hfresh⟩, ⟨slot, hroom, heq⟩ | ⟨-, -, heq⟩⟩ :=
    makeRoom_rule (P := fun t => Sound t ∧ ∀ o ∈ parked t.slots, o.txid ≠ new.txid)
      (fun t v ⟨hs, hf⟩ _ hv => by
        have hslot := txrOrphanVictim_sound hv
        obtain ⟨before, after, hold, hset⟩ := parked_set hslot
        refine ⟨hs.free hslot, fun o ho => hf o ?_⟩
        simp only [drop, txrOrphanFree, hset, Option.toList_none, List.append_nil] at ho
        rw [hold]
        simp only [List.mem_append] at ho ⊢
        tauto) ⟨h, hnew⟩
  · rw [heq]
    exact hsound.park hroom hfresh
  · rw [heq]
    exact ⟨hsound.size, hsound.bytes_eq, hsound.bytes_le, hsound.txids⟩

theorem Sound.add {t : OrphanTable sha256d} (h : Sound t) (new : Orphan sha256d) :
    Sound (txrOrphanAdd t new) := by
  have hgen : Sound { t with gen := t.gen + 1 } := ⟨h.size, h.bytes_eq, h.bytes_le, h.txids⟩
  unfold txrOrphanAdd
  dsimp only
  split_ifs with hlen hdup
  · exact hgen
  · exact hgen
  · exact hgen.makeRoom (by simpa using hdup)

def OrphanPool.add (pool : OrphanPool sha256d) (new : Orphan sha256d) : OrphanPool sha256d :=
  ⟨txrOrphanAdd pool.toOrphanTable new, pool.sound.add new⟩

/-! ## Fairness -/

/-- What the evictions leave: nothing of a peer within its share is gone. -/
structure EvictedFrom (t₀ : OrphanTable sha256d) (new : Orphan sha256d)
    (t : OrphanTable sha256d) : Prop where
  sound : Sound t
  sublist : (parked t.slots).Sublist (parked t₀.slots)
  keeps : ∀ o ∈ parked t₀.slots,
    WithinShare (claimants t₀.slots new) o.peer → o ∈ parked t.slots

theorem length_parked_of_full {slots : List (Option (Orphan sha256d))}
    (h : slots.findIdx? Option.isNone = none) : (parked slots).length = slots.length := by
  rw [List.findIdx?_eq_none_iff] at h
  induction slots with
  | nil => rfl
  | cons slot slots ih =>
      have hrest := ih fun s hs => h s (List.mem_cons_of_mem slot hs)
      cases slot with
      | none => simpa using h none List.mem_cons_self
      | some o => simpa [parked] using hrest

theorem claimants_over {t : OrphanTable sha256d} {new : Orphan sha256d} (h : Sound t)
    (hroom : roomFor t new.tx.length = none) :
    txrOrphanMax < (claimants t.slots new).length ∨
      txrOrphanBytes < ((claimants t.slots new).map fun o => o.tx.length).sum := by
  unfold roomFor at hroom
  split at hroom
  next hfull =>
    left
    rw [claimants, List.length_append, length_parked_of_full hfull, h.size]
    simp
  next slot hslot =>
    right
    split_ifs at hroom with hbytes
    rw [h.bytes_eq] at hbytes
    simp only [claimants, List.map_append, List.sum_append, List.map_cons, List.map_nil,
      List.sum_cons, List.sum_nil]
    omega

theorem not_over_of_withinShare {t₀ t : OrphanTable sha256d} {new : Orphan sha256d}
    (h : EvictedFrom t₀ new t) {peer : Int}
    (hshare : WithinShare (claimants t₀.slots new) peer) :
    score (claimants t.slots new) peer * (owners Orphan.peer (claimants t.slots new)).card ≤
      txrOrphanMax * txrOrphanBytes := by
  have hsub : (claimants t.slots new).Sublist (claimants t₀.slots new) :=
    h.sublist.append (List.Sublist.refl _)
  have hcard := Finset.card_le_card (owners_subset Orphan.peer hsub)
  have hslots : usedSlots (claimants t.slots new) peer ≤ usedSlots (claimants t₀.slots new) peer :=
    held_le_of_sublist _ _ hsub peer
  have hbytes : usedBytes (claimants t.slots new) peer ≤ usedBytes (claimants t₀.slots new) peer :=
    held_le_of_sublist _ _ hsub peer
  have hpos : 0 < (owners Orphan.peer (claimants t₀.slots new)).card :=
    Finset.card_pos.mpr ⟨new.peer, by simp [claimants]⟩
  apply score_le_of_withinShare
  · exact (Nat.mul_le_mul hslots hcard).trans ((Nat.le_div_iff_mul_le hpos).mp hshare.1)
  · exact (Nat.mul_le_mul hbytes hcard).trans ((Nat.le_div_iff_mul_le hpos).mp hshare.2)

/-- As long as the newcomer does not fit, there is an orphan to evict, of a peer over its
share. -/
theorem victim_over_share {t₀ t : OrphanTable sha256d} {new : Orphan sha256d}
    (h : EvictedFrom t₀ new t) (hnew : WithinShare (claimants t₀.slots new) new.peer)
    (hroom : roomFor t new.tx.length = none) :
    ∃ v, txrOrphanVictim t.slots new = some v ∧
      ¬ WithinShare (claimants t₀.slots new) v.2.peer := by
  obtain ⟨worst, hworst, hmem, hmax⟩ := worstRun_spec (claimants t.slots new)
    (by simp [claimants])
  obtain ⟨p, hp, hover⟩ := exists_score_over (claimants_over h.sound hroom)
  have hbad : ¬ WithinShare (claimants t₀.slots new) worst.owner := fun hshare => by
    have hle := not_over_of_withinShare h hshare
    have hscore := Nat.mul_le_mul_right
      (owners Orphan.peer (claimants t.slots new)).card (hmax p hp)
    omega
  have hheld : ∃ o ∈ parked t.slots, o.peer = worst.owner := by
    obtain ⟨o, ho, hpeer⟩ := (mem_owners Orphan.peer).mp hmem
    rcases List.mem_append.mp ho with ho | ho
    · exact ⟨o, ho, hpeer⟩
    · obtain rfl := List.mem_singleton.mp ho
      exact absurd (hpeer ▸ hnew) hbad
  have hsome : (oldestFrom worst.owner 0 none t.slots).isSome := oldestFrom_isSome (.inr hheld)
  obtain ⟨v, hv⟩ := Option.isSome_iff_exists.mp hsome
  refine ⟨v, ?_, ?_⟩
  · unfold txrOrphanVictim
    rw [hworst]
    exact hv
  · rw [(oldestFrom_sound rfl (by simp) v hv).2]
    exact hbad

theorem EvictedFrom.step {t₀ t : OrphanTable sha256d} {new : Orphan sha256d}
    {v : Nat × Orphan sha256d} (h : EvictedFrom t₀ new t)
    (hslot : t.slots[v.1]? = some (some v.2))
    (hover : ¬ WithinShare (claimants t₀.slots new) v.2.peer) :
    EvictedFrom t₀ new (drop (txrOrphanFree t v.1 v.2)) := by
  obtain ⟨before, after, heq, hset⟩ := parked_set hslot
  have hnow : parked (drop (txrOrphanFree t v.1 v.2)).slots = before ++ after := by
    simp [drop, txrOrphanFree, hset]
  refine ⟨h.sound.free hslot, ?_, fun o ho hshare => ?_⟩
  · refine List.Sublist.trans ?_ h.sublist
    rw [hnow, heq]
    exact (List.sublist_append_left _ _).append (List.Sublist.refl _)
  · have hstill := h.keeps o ho hshare
    rw [hnow]
    rw [heq] at hstill
    simp only [Option.toList_some, List.mem_append, List.mem_singleton] at hstill ⊢
    rcases hstill with (hb | rfl) | ha
    · exact .inl hb
    · exact absurd hshare hover
    · exact .inr ha

/-- The loop parks the newcomer and keeps what the peers within their shares have. -/
theorem makeRoom_fair {t : OrphanTable sha256d} {new : Orphan sha256d} (h : Sound t)
    (hnew : WithinShare (claimants t.slots new) new.peer) :
    new ∈ parked (makeRoom new t).slots ∧
      ∀ o ∈ parked t.slots, WithinShare (claimants t.slots new) o.peer →
        o ∈ parked (makeRoom new t).slots := by
  have hstart : EvictedFrom t new t := ⟨h, List.Sublist.refl _, fun _ ho _ => ho⟩
  obtain ⟨t', hend, ⟨slot, hroom, heq⟩ | ⟨hroom, hnone, -⟩⟩ :=
    makeRoom_rule (P := EvictedFrom t new) (fun t' v ht' hroom hv => by
      obtain ⟨w, hw, hover⟩ := victim_over_share ht' hnew hroom
      obtain rfl : w = v := Option.some_injective _ (hw.symm.trans hv)
      exact ht'.step (txrOrphanVictim_sound hv) hover) hstart
  · obtain ⟨before, after, hold, hset⟩ := parked_set (roomFor_spec hroom).1
    have hnow : parked (makeRoom new t).slots = before ++ [new] ++ after := by
      simp [heq, park, hset]
    refine ⟨by simp [hnow], fun o ho hshare => ?_⟩
    have hstill := hend.keeps o ho hshare
    rw [hold] at hstill
    rw [hnow]
    simp only [Option.toList_none, List.append_nil, List.mem_append] at hstill ⊢
    tauto
  · obtain ⟨v, hv, -⟩ := victim_over_share hend hnew hroom
    rw [hnone] at hv
    cases hv

/-- The newcomer's bytes are parked, no peer within its share lost anything, and the limits
are kept. -/
structure Fair (before : OrphanPool sha256d) (new : Orphan sha256d)
    (after : OrphanPool sha256d) : Prop where
  parked_new : ∃ o ∈ parked after.slots, o.tx = new.tx
  keeps : ∀ o ∈ parked before.slots, o.peer ≠ new.peer →
    WithinShare (claimants before.slots new) o.peer → o ∈ parked after.slots
  count_le : (parked after.slots).length ≤ txrOrphanMax
  bytes_le : ((parked after.slots).map fun o => o.tx.length).sum ≤ txrOrphanBytes

theorem OrphanPool.count_le (pool : OrphanPool sha256d) :
    (parked pool.slots).length ≤ txrOrphanMax := by
  rw [← pool.sound.size]
  exact List.length_filterMap_le _ _

theorem OrphanPool.add_eq_of_twin {pool : OrphanPool sha256d} {new o : Orphan sha256d}
    (ho : o ∈ parked pool.slots) (htxid : o.txid = new.txid) :
    parked (pool.add new).slots = parked pool.slots := by
  simp only [OrphanPool.add, txrOrphanAdd]
  split_ifs with hlen hdup
  · rfl
  · rfl
  · exact absurd (List.any_eq_true.mpr ⟨o, ho, by simpa using htxid⟩) hdup

/-- Of the parked orphans with the newcomer's txid there is only one, and with other bytes
it shuts the newcomer out. -/
theorem same_bytes_of_fair {pool : OrphanPool sha256d} {new o : Orphan sha256d}
    (hfair : Fair pool new (pool.add new)) (ho : o ∈ parked pool.slots)
    (htxid : o.txid = new.txid) : o.tx = new.tx := by
  obtain ⟨q, hq, hqtx⟩ := hfair.parked_new
  rw [OrphanPool.add_eq_of_twin ho htxid] at hq
  have hqtxid : q.txid = new.txid := by
    have heq := q.txid_eq
    rw [hqtx, new.txid_eq] at heq
    exact (Option.some_injective _ heq).symm
  obtain rfl : o = q := List.inj_on_of_nodup_map pool.sound.txids ho hq
    (htxid.trans hqtxid.symm)
  exact hqtx

theorem txrOrphanAdd_fair_iff (pool : OrphanPool sha256d) (new : Orphan sha256d)
    (hpos : 0 < new.tx.length) (hquarter : new.tx.length ≤ txrOrphanBytes / 4)
    (hshare : WithinShare (claimants pool.slots new) new.peer) :
    Fair pool new (pool.add new) ↔
      ∀ o ∈ parked pool.slots, o.txid = new.txid → o.tx = new.tx := by
  refine ⟨fun hfair o ho htxid => same_bytes_of_fair hfair ho htxid, fun hsame => ?_⟩
  have hcount := (pool.add new).count_le
  have hbytes := (pool.add new).sound.bytes_eq ▸ (pool.add new).sound.bytes_le
  by_cases hdup : ∃ o ∈ parked pool.slots, o.txid = new.txid
  · obtain ⟨o, ho, htxid⟩ := hdup
    have hstay := OrphanPool.add_eq_of_twin ho htxid
    exact ⟨⟨o, hstay ▸ ho, hsame o ho htxid⟩, fun p hp _ _ => hstay ▸ hp, hcount, hbytes⟩
  · have hlen : ¬ (new.tx.length = 0 ∨ txrOrphanBytes / 4 < new.tx.length) := by omega
    have hrun : (pool.add new).toOrphanTable =
        makeRoom new { pool.toOrphanTable with gen := pool.gen + 1 } := by
      simp only [OrphanPool.add, txrOrphanAdd, if_neg hlen]
      rw [if_neg (by simpa using hdup)]
    have hsound : Sound { pool.toOrphanTable with gen := pool.gen + 1 } :=
      ⟨pool.sound.size, pool.sound.bytes_eq, pool.sound.bytes_le, pool.sound.txids⟩
    obtain ⟨hin, hkeeps⟩ := makeRoom_fair hsound hshare
    rw [← hrun] at hin hkeeps
    exact ⟨⟨new, hin, rfl⟩, fun p hp _ hp' => hkeeps p hp hp', hcount, hbytes⟩

end Table

/-! ## Two witnesses for one transaction -/

/-- A transaction of one input and one output, with one byte of witness. -/
def signedTx (w : UInt8) : List UInt8 :=
  [2, 0, 0, 0, 0, 1, 1] ++ List.replicate 32 7 ++ [0, 0, 0, 0, 0, 255, 255, 255, 255, 1] ++
    List.replicate 9 0 ++ [1, 1, w, 0, 0, 0, 0]

def unsignedTx : List UInt8 :=
  [2, 0, 0, 0, 1] ++ List.replicate 32 7 ++ [0, 0, 0, 0, 0, 255, 255, 255, 255, 1] ++
    List.replicate 13 0

theorem relayTxid_signedTx (sha256d : List UInt8 → Bytes 32) (w : UInt8) :
    relayTxid sha256d (signedTx w) = some (sha256d unsignedTx) := rfl

def sent (peer : Int) (w : UInt8) : Orphan sha256d where
  tx := signedTx w
  txid := sha256d unsignedTx
  wtxid := sha256d (signedTx w)
  peer := peer
  tMs := 0
  txid_eq := relayTxid_signedTx sha256d w
  wtxid_eq := rfl

theorem parked_single (o : Orphan sha256d) (n : Nat) :
    parked (some o :: List.replicate n none) = [o] := by
  simp [parked]

def holding (o : Orphan sha256d) (h : o.tx.length ≤ txrOrphanBytes) : OrphanPool sha256d where
  slots := some o :: List.replicate (txrOrphanMax - 1) none
  bytes := o.tx.length
  gen := 1
  parkedEver := 1
  dropped := 0
  dropEvict := 0
  sound := by
    refine ⟨?_, ?_, h, ?_⟩
    · rw [List.length_cons, List.length_replicate]
      rfl
    · rw [parked_single]
      simp
    · rw [parked_single]
      simp

theorem signedTx_length_le (w : UInt8) : (signedTx w).length ≤ txrOrphanBytes / 4 := by
  have hlen : (signedTx w).length = 65 := rfl
  rw [hlen]
  decide

def oneParked : OrphanPool sha256d :=
  holding (sent 1 0) ((signedTx_length_le 0).trans (by decide))

theorem parked_oneParked : parked oneParked.slots = [sent 1 0] := parked_single _ _

theorem withinShare_oneParked (w : UInt8) :
    WithinShare (claimants oneParked.slots (sent 2 w)) 2 := by
  unfold claimants
  rw [parked_oneParked]
  have hpeers : owners Orphan.peer ([sent 1 0] ++ [sent 2 w]) = {1, 2} := rfl
  have hslots : usedSlots ([sent 1 0] ++ [sent 2 w]) 2 = 1 := rfl
  have hbytes : usedBytes ([sent 1 0] ++ [sent 2 w]) 2 = 65 := rfl
  rw [WithinShare, hpeers, hslots, hbytes]
  decide

theorem txrOrphanAdd_shut_out :
    ∃ (pool : OrphanPool sha256d) (new : Orphan sha256d),
      0 < new.tx.length ∧ new.tx.length ≤ txrOrphanBytes / 4 ∧
        WithinShare (claimants pool.slots new) new.peer ∧ ¬ Fair pool new (pool.add new) := by
  refine ⟨oneParked, sent 2 1, by decide, signedTx_length_le 1, withinShare_oneParked 1, ?_⟩
  intro hfair
  have hsame := same_bytes_of_fair hfair (o := sent 1 0) (by simp [parked_oneParked]) rfl
  revert hsame
  decide

theorem txrOrphanAdd_fair_same_bytes : Fair oneParked (sent 2 0) (oneParked.add (sent 2 0)) := by
  refine (txrOrphanAdd_fair_iff oneParked (sent 2 0) (by decide) (signedTx_length_le 0)
    (withinShare_oneParked 0)).mpr ?_
  intro o ho _
  rw [parked_oneParked, List.mem_singleton] at ho
  rw [ho]
  rfl

end BitcoinMachineCode.Network
