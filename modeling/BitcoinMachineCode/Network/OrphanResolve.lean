import BitcoinMachineCode.Network.OrphanParents

/-!
# Retrying orphans

When a transaction is accepted, `txr_orphan_resolve` of `daemon/tx_relay.c` tries every orphan
that names it as a parent, then those that name what that let in, and so on.  What a try
comes to is any rule of which transactions were accepted before it.
-/

namespace BitcoinMachineCode.Network

open Foundation Consensus

variable {sha256d : List UInt8 → Bytes 32}

def txrOrphanNames (o : Orphan sha256d) (parent : Bytes 32) : Bool := decide (parent ∈ txrTxParents o.tx)

/-- A try: of which slot, with what verdict, and what had been accepted before. -/
structure Judged where
  slot : Nat
  verdict : Int
  after : List (Bytes 32)

/-- The state of `txr_orphan_resolve`, with what it accepted and the tries, newest first. -/
structure Resolving (sha256d : List UInt8 → Bytes 32) where
  table : OrphanTable sha256d
  work : List (Bytes 32)
  got : Nat
  accepted : List (Bytes 32)
  log : List Judged

namespace Resolving

def last (s : Resolving sha256d) (i : Nat) : Option Judged := s.log.find? (·.slot = i)

def judge (s : Resolving sha256d) (i : Nat) (verdict : Int) : Resolving sha256d :=
  { s with log := ⟨i, verdict, s.accepted⟩ :: s.log }

/-- The orphan went in: its children are next. -/
def admitted (s : Resolving sha256d) (i : Nat) (o : Orphan sha256d) (id : Bytes 32) : Resolving sha256d :=
  { s with
    table := txrOrphanFree s.table i o
    work := if s.work.length < txrOrphanMax + 1 then s.work ++ [id] else s.work
    got := s.got + 1
    accepted := s.accepted ++ [id] }

def rejected (s : Resolving sha256d) (i : Nat) (o : Orphan sha256d) : Resolving sha256d :=
  { s with table := { txrOrphanFree s.table i o with dropped := s.table.dropped + 1 } }

end Resolving

/-- Missing inputs, or too low a fee. -/
def undecided (verdict : Int) : Prop := verdict = -25 ∨ verdict = -28

instance (verdict : Int) : Decidable (undecided verdict) := inferInstanceAs (Decidable (_ ∨ _))

section Loop

-- What `tx_accept_validate_p2p` says, by what the call accepted so far.
variable (validate : List (Bytes 32) → Bytes 32 → List UInt8 → Int)

/-- One slot of the sweep for `want`. -/
def retry (want : Bytes 32) (i : Nat) (s : Resolving sha256d) : Resolving sha256d :=
  match s.table.slots[i]? with
  | some (some o) =>
      if txrOrphanNames o want then
        match relayTxid sha256d o.tx with
        | none => (s.judge i (-26)).rejected i o
        | some id =>
            let rr := validate s.accepted id o.tx
            if rr = 1 then (s.judge i rr).admitted i o id
            else if undecided rr then s.judge i rr
            else (s.judge i rr).rejected i o
      else s
  | _ => s

/-- `n` slots from `i` on. -/
def sweep (want : Bytes 32) : Nat → Nat → Resolving sha256d → Resolving sha256d
  | _, 0, s => s
  | i, n + 1, s => sweep want (i + 1) n (retry validate want i s)

/-- The work list from `wh` on; `none` where the fuel is spent first. -/
def resolveLoop : Nat → Nat → Resolving sha256d → Option (Resolving sha256d)
  | fuel, wh, s =>
      match s.work[wh]? with
      | none => some s
      | some want =>
          match fuel with
          | 0 => none
          | fuel + 1 => resolveLoop fuel (wh + 1) (sweep validate want 0 txrOrphanMax s)

def txrOrphanResolve (fuel : Nat) (t : OrphanTable sha256d) (accepted : Bytes 32) :
    Option (Resolving sha256d) :=
  resolveLoop validate fuel 0 ⟨t, [accepted], 0, [accepted], []⟩

end Loop

/-! ## What the tries have seen -/

/-- Slot `i` is as it was and its last try, if any, was undecided and came after those of the
`seen` transactions that its orphan names; or it was emptied by a last try that was final. -/
def SlotOk (slots : List (Option (Orphan sha256d))) (s : Resolving sha256d) (seen : Bytes 32 → Prop) (i : Nat) :
    Prop :=
  (s.table.slots[i]? = slots[i]? ∧ ∀ o, slots[i]? = some (some o) →
    (∀ e, s.last i = some e → undecided e.verdict) ∧
      ∀ t, seen t → txrOrphanNames o t = true → ∃ e, s.last i = some e ∧ t ∈ e.after) ∨
  (s.table.slots[i]? = some none ∧ ∃ o, slots[i]? = some (some o) ∧ ∃ e, s.last i = some e ∧
    ¬ undecided e.verdict ∧ (e.verdict = 1 → o.txid ∈ s.accepted))

structure Progress (slots : List (Option (Orphan sha256d))) (s : Resolving sha256d) (seen : Nat → Bytes 32 → Prop) :
    Prop where
  work_eq : s.work = s.accepted
  room : s.accepted.length + (parked s.table.slots).length ≤ txrOrphanMax + 1
  known : ∀ i t, seen i t → t ∈ s.accepted
  slot : ∀ i, SlotOk slots s (seen i) i

namespace Resolving

theorem last_judge (s : Resolving sha256d) (i : Nat) (v : Int) : (s.judge i v).last i = some ⟨i, v, s.accepted⟩ := by
  simp [last, judge]

theorem last_judge_of_ne (s : Resolving sha256d) {i j : Nat} (v : Int) (h : j ≠ i) :
    (s.judge i v).last j = s.last j := by
  simp [last, judge, Ne.symm h]

end Resolving

section Steps

variable {slots : List (Option (Orphan sha256d))} {s : Resolving sha256d} {seen : Nat → Bytes 32 → Prop}
  {i : Nat} {o : Orphan sha256d}

/-- Slots other than the one tried mind nothing. -/
theorem SlotOk.frame {s' : Resolving sha256d} {P : Bytes 32 → Prop} {j : Nat} (h : SlotOk slots s P j)
    (hslot : s'.table.slots[j]? = s.table.slots[j]?) (hlast : s'.last j = s.last j)
    (haccepted : ∀ t ∈ s.accepted, t ∈ s'.accepted) : SlotOk slots s' P j := by
  rcases h with ⟨hsame, hopen⟩ | ⟨hempty, o, ho, e, he, hfinal, hin⟩
  · left
    rw [hlast, hslot]
    exact ⟨hsame, hopen⟩
  · right
    rw [hlast, hslot]
    exact ⟨hempty, o, ho, e, he, hfinal, fun h1 => haccepted _ (hin h1)⟩

/-- The orphan of a slot is the one that was there before the call. -/
theorem Progress.orphan (h : Progress slots s seen) (ho : s.table.slots[i]? = some (some o)) :
    slots[i]? = some (some o) := by
  rcases h.slot i with ⟨hsame, -⟩ | ⟨hempty, -⟩
  · rw [← hsame, ho]
  · rw [ho] at hempty
    cases hempty

theorem slots_free_of_ne {t : OrphanTable sha256d} {j : Nat} (hne : j ≠ i) :
    (txrOrphanFree t i o).slots[j]? = t.slots[j]? := by
  simp [txrOrphanFree, Ne.symm hne]

theorem slots_free_self {t : OrphanTable sha256d} (ho : t.slots[i]? = some (some o)) :
    (txrOrphanFree t i o).slots[i]? = some none := by
  obtain ⟨hlt, -⟩ := List.getElem?_eq_some_iff.mp ho
  simp [txrOrphanFree, hlt]

theorem parked_free {t : OrphanTable sha256d} (ho : t.slots[i]? = some (some o)) :
    (parked (txrOrphanFree t i o).slots).length + 1 = (parked t.slots).length := by
  obtain ⟨before, after, heq, hset⟩ := parked_set ho
  simp [txrOrphanFree, heq, hset]
  omega

/-- Also slot `i` has seen `want`. -/
def seenAt (seen : Nat → Bytes 32 → Prop) (want : Bytes 32) (i : Nat) : Nat → Bytes 32 → Prop :=
  fun j t => seen j t ∨ (j = i ∧ t = want)

/-- A try at slot `i`: what it leaves to show there. -/
theorem Progress.tried (h : Progress slots s seen) {s' : Resolving sha256d} {want : Bytes 32}
    (hwant : want ∈ s.accepted) (hwork : s'.work = s'.accepted)
    (hroom : s'.accepted.length + (parked s'.table.slots).length ≤ txrOrphanMax + 1)
    (haccepted : ∀ t ∈ s.accepted, t ∈ s'.accepted)
    (hslots : ∀ j ≠ i, s'.table.slots[j]? = s.table.slots[j]? ∧ s'.last j = s.last j)
    (hself : SlotOk slots s' (fun t => t ∈ s.accepted) i) :
    Progress slots s' (seenAt seen want i) := by
  refine ⟨hwork, hroom, ?_, ?_⟩
  · rintro j t (ht | ⟨-, rfl⟩)
    · exact haccepted t (h.known j t ht)
    · exact haccepted t hwant
  · intro j
    by_cases hj : j = i
    · subst hj
      refine hself.imp ?_ id
      rintro ⟨hsame, hopen⟩
      refine ⟨hsame, fun o ho => ⟨(hopen o ho).1, ?_⟩⟩
      rintro t (ht | ⟨-, rfl⟩) hnames
      · exact (hopen o ho).2 t (h.known j t ht) hnames
      · exact (hopen o ho).2 t hwant hnames
    · have hframe := (h.slot j).frame (hslots j hj).1 (hslots j hj).2 haccepted
      refine hframe.imp ?_ id
      rintro ⟨hsame, hopen⟩
      refine ⟨hsame, fun o ho => ⟨(hopen o ho).1, ?_⟩⟩
      rintro t (ht | ⟨hji, -⟩) hnames
      · exact (hopen o ho).2 t ht hnames
      · exact absurd hji hj

/-- A slot that has nothing to try, or an orphan that does not name `want`. -/
theorem Progress.skipped (h : Progress slots s seen) {want : Bytes 32} (hwant : want ∈ s.accepted)
    (hskip : ∀ o, s.table.slots[i]? = some (some o) → txrOrphanNames o want = false) :
    Progress slots s (seenAt seen want i) := by
  refine ⟨h.work_eq, h.room, ?_, ?_⟩
  · rintro j t (ht | ⟨-, rfl⟩)
    · exact h.known j t ht
    · exact hwant
  · intro j
    refine (h.slot j).imp ?_ id
    rintro ⟨hsame, hopen⟩
    refine ⟨hsame, fun o ho => ⟨(hopen o ho).1, ?_⟩⟩
    rintro t (ht | ⟨rfl, rfl⟩) hnames
    · exact (hopen o ho).2 t ht hnames
    · rw [hskip o (hsame.trans ho)] at hnames
      cases hnames

/-- A try that empties its slot. -/
theorem Progress.emptied (h : Progress slots s seen) {s' : Resolving sha256d} {want : Bytes 32} {v : Int}
    (hwant : want ∈ s.accepted) (ho : s.table.slots[i]? = some (some o)) (hv : ¬ undecided v)
    (htable : s'.table.slots = (txrOrphanFree s.table i o).slots) (hlog : s'.log = (s.judge i v).log)
    (hwork : s'.work = s'.accepted) (haccepted : ∀ t ∈ s.accepted, t ∈ s'.accepted)
    (hlen : s'.accepted.length ≤ s.accepted.length + 1) (hin : v = 1 → o.txid ∈ s'.accepted) :
    Progress slots s' (seenAt seen want i) := by
  have hfree := parked_free ho
  have hroom := h.room
  have hlast : ∀ j, s'.last j = (s.judge i v).last j := fun j => by simp only [Resolving.last, hlog]
  refine h.tried hwant hwork (by rw [htable]; omega) haccepted ?_ (.inr ?_)
  · intro j hj
    rw [htable, slots_free_of_ne hj, hlast, s.last_judge_of_ne v hj]
    exact ⟨rfl, rfl⟩
  · rw [htable, hlast, s.last_judge]
    exact ⟨slots_free_self ho, o, h.orphan ho, _, rfl, hv, hin⟩

variable (validate : List (Bytes 32) → Bytes 32 → List UInt8 → Int)

/-- What one slot of a sweep does. -/
theorem Progress.retry (h : Progress slots s seen) {want : Bytes 32} (hwant : want ∈ s.accepted) (i : Nat) :
    Progress slots (retry validate want i s) (seenAt seen want i) := by
  unfold Network.retry
  split
  case h_2 hempty => exact h.skipped hwant fun o ho => absurd ho (hempty o)
  case h_1 o ho =>
    split
    case isFalse hnames =>
      refine h.skipped hwant fun o' ho' => ?_
      rw [ho] at ho'
      cases ho'
      simpa using hnames
    case isTrue =>
      have hroom := h.room
      have hfree := parked_free ho
      simp only [o.txid_eq]
      split
      case isTrue hone =>
        refine h.emptied hwant ho (v := validate s.accepted o.txid o.tx) ?_ rfl rfl ?_ ?_ ?_ ?_
        · rw [hone]
          decide
        · have hlt : s.work.length < txrOrphanMax + 1 := by
            rw [h.work_eq]
            omega
          change (if s.work.length < txrOrphanMax + 1 then s.work ++ [o.txid] else s.work) = s.accepted ++ [o.txid]
          rw [if_pos hlt, h.work_eq]
        · exact fun t ht => List.mem_append_left _ ht
        · simp [Resolving.admitted, Resolving.judge]
        · exact fun _ => List.mem_append_right _ (List.mem_singleton_self _)
      case isFalse hone =>
        split
        case isTrue hundecided =>
          refine h.tried hwant h.work_eq h.room (fun t ht => ht) ?_ (.inl ?_)
          · exact fun j hj => ⟨rfl, s.last_judge_of_ne _ hj⟩
          · refine ⟨ho.trans (h.orphan ho).symm, fun o' _ => ?_⟩
            rw [s.last_judge]
            refine ⟨fun e he => ?_, fun t ht _ => ⟨_, rfl, ht⟩⟩
            obtain rfl := Option.some_inj.mp he
            exact hundecided
        case isFalse hfinal =>
          refine h.emptied hwant ho hfinal rfl rfl h.work_eq (fun t ht => ht) ?_ fun h1 => absurd h1 hone
          exact Nat.le_succ _

theorem work_retry (want : Bytes 32) (i : Nat) (s : Resolving sha256d) :
    s.work <+: (retry validate want i s).work := by
  unfold Network.retry
  split
  · split
    · split
      · exact List.prefix_rfl
      · simp only
        split_ifs
        · change s.work <+: if s.work.length < txrOrphanMax + 1 then s.work ++ [_] else s.work
          split
          · exact List.prefix_append ..
          · exact List.prefix_rfl
        · exact List.prefix_rfl
        · exact List.prefix_rfl
    · exact List.prefix_rfl
  · exact List.prefix_rfl

theorem work_sweep (want : Bytes 32) (i n : Nat) (s : Resolving sha256d) :
    s.work <+: (sweep validate want i n s).work := by
  induction n generalizing i s with
  | zero => exact List.prefix_rfl
  | succ n ih => exact (work_retry validate want i s).trans (ih (i + 1) _)

/-- A sweep from slot `i` on shows `want` to the slots it passes. -/
theorem Progress.sweep {P : Bytes 32 → Prop} {want : Bytes 32} {n : Nat} {s : Resolving sha256d}
    (h : Progress slots s fun j t => P t ∨ (j < i ∧ t = want)) (hwant : want ∈ s.accepted) :
    Progress slots (Network.sweep validate want i n s) fun j t => P t ∨ (j < i + n ∧ t = want) := by
  induction n generalizing i s with
  | zero => exact h
  | succ n ih =>
      have hretry := h.retry validate hwant i
      have hseen : seenAt (fun j t => P t ∨ (j < i ∧ t = want)) want i =
          fun j t => P t ∨ (j < i + 1 ∧ t = want) := by
        funext j t
        simp only [seenAt, eq_iff_iff]
        constructor
        · rintro ((hP | ⟨hj, ht⟩) | ⟨hj, ht⟩)
          · exact .inl hP
          · exact .inr ⟨by omega, ht⟩
          · exact .inr ⟨by omega, ht⟩
        · rintro (hP | ⟨hj, ht⟩)
          · exact .inl (.inl hP)
          · rcases Nat.lt_succ_iff_lt_or_eq.mp hj with hlt | heq
            · exact .inl (.inr ⟨hlt, ht⟩)
            · exact .inr ⟨heq, ht⟩
      rw [hseen] at hretry
      have hknown : want ∈ (Network.retry validate want i s).accepted := hretry.known i want (.inr ⟨by omega, rfl⟩)
      have hrest := ih hretry hknown
      rwa [Nat.add_assoc, Nat.add_comm 1 n] at hrest

/-- The whole of a sweep: every slot has seen `want`. -/
theorem Progress.swept {P : Bytes 32 → Prop} {want : Bytes 32} {s : Resolving sha256d}
    (h : Progress slots s fun _ t => P t) (hwant : want ∈ s.accepted) (hsize : slots.length = txrOrphanMax) :
    Progress slots (Network.sweep validate want 0 txrOrphanMax s) fun _ t => P t ∨ t = want := by
  have hstart : Progress slots s fun j t => P t ∨ (j < 0 ∧ t = want) := by simpa using h
  have hend := hstart.sweep validate (n := txrOrphanMax) hwant
  rw [Nat.zero_add] at hend
  refine ⟨hend.work_eq, hend.room, ?_, ?_⟩
  · rintro _ t (ht | rfl)
    · exact hend.known 0 t (.inl ht)
    · exact hend.known 0 t (.inr ⟨by decide, rfl⟩)
  · intro j
    refine (hend.slot j).imp ?_ id
    rintro ⟨hsame, hopen⟩
    refine ⟨hsame, fun o ho => ⟨(hopen o ho).1, ?_⟩⟩
    have hj : j < txrOrphanMax := by
      obtain ⟨hlt, -⟩ := List.getElem?_eq_some_iff.mp ho
      omega
    rintro t (ht | rfl) hnames
    · exact (hopen o ho).2 t (.inl ht) hnames
    · exact (hopen o ho).2 t (.inr ⟨hj, rfl⟩) hnames

/-- The loop ends, with everything accepted seen by every slot. -/
theorem Progress.resolveLoop {fuel wh : Nat} {s : Resolving sha256d}
    (h : Progress slots s fun _ t => t ∈ s.work.take wh) (hsize : slots.length = txrOrphanMax)
    (hfuel : txrOrphanMax + 1 ≤ fuel + wh) :
    ∃ s', Network.resolveLoop validate fuel wh s = some s' ∧ Progress slots s' fun _ t => t ∈ s'.accepted := by
  induction fuel generalizing wh s with
  | zero =>
      have hroom := h.room
      rw [← h.work_eq] at hroom
      have hdone : s.work[wh]? = none := List.getElem?_eq_none (by omega)
      rw [List.take_of_length_le (by omega), h.work_eq] at h
      exact ⟨s, by simp [Network.resolveLoop, hdone], h⟩
  | succ fuel ih =>
      cases hwant : s.work[wh]? with
      | none =>
          have hlen := List.getElem?_eq_none_iff.mp hwant
          rw [List.take_of_length_le hlen, h.work_eq] at h
          exact ⟨s, by simp [Network.resolveLoop, hwant], h⟩
      | some want =>
          have hmem : want ∈ s.accepted := by
            rw [← h.work_eq]
            exact List.mem_of_getElem? hwant
          have hswept := h.swept validate hmem hsize
          obtain ⟨hlt, -⟩ := List.getElem?_eq_some_iff.mp hwant
          have htake : (Network.sweep validate want 0 txrOrphanMax s).work.take (wh + 1) = s.work.take wh ++ [want] := by
            obtain ⟨more, hmore⟩ := work_sweep validate want 0 txrOrphanMax s
            rw [← hmore, List.take_append_of_le_length (by omega), List.take_add_one, hwant]
            rfl
          unfold Network.resolveLoop
          simp only [hwant]
          refine ih ?_ (by omega)
          simpa only [htake, List.mem_append, List.mem_singleton] using hswept

end Steps

/-! ## When the sweeps close -/

/-- The loop ends, and every orphan that spends something accepted went in, was refused for
good, or was last put off when all that it spends of what the call accepted had been
accepted. -/
def Closes (validate : List (Bytes 32) → Bytes 32 → List UInt8 → Int) (pool : OrphanPool sha256d)
    (accepted : Bytes 32) : Prop :=
  ∃ s, txrOrphanResolve validate (txrOrphanMax + 1) pool.toOrphanTable accepted = some s ∧
    ∀ i o, pool.slots[i]? = some (some o) → (∃ t ∈ s.accepted, Spends o.tx t) →
      ∃ e, s.last i = some e ∧
        ((e.verdict = 1 ∧ o.txid ∈ s.accepted ∧ s.table.slots[i]? = some none) ∨
          (e.verdict ≠ 1 ∧ ¬ undecided e.verdict ∧ s.table.slots[i]? = some none) ∨
          (undecided e.verdict ∧ ∀ t ∈ s.accepted, Spends o.tx t → t ∈ e.after))

theorem mem_parked {slots : List (Option (Orphan sha256d))} {o : Orphan sha256d} :
    o ∈ parked slots ↔ ∃ i : Nat, slots[i]? = some (some o) := by
  rw [← List.mem_iff_getElem?]
  simp [parked]

theorem closes_of_listed {pool : OrphanPool sha256d} (hlisted : ∀ o ∈ parked pool.slots, Listed o.tx)
    (validate : List (Bytes 32) → Bytes 32 → List UInt8 → Int) (accepted : Bytes 32) :
    Closes validate pool accepted := by
  have hstart : Progress pool.slots ⟨pool.toOrphanTable, [accepted], 0, [accepted], []⟩
      fun _ t => t ∈ [accepted].take 0 := by
    refine ⟨rfl, ?_, by simp, fun i => .inl ⟨rfl, fun o _ => ⟨nofun, by simp⟩⟩⟩
    have hcount := pool.count_le
    simp only [List.length_singleton]
    omega
  obtain ⟨s, hs, hend⟩ := hstart.resolveLoop validate pool.sound.size le_rfl
  refine ⟨s, hs, ?_⟩
  rintro i o ho ⟨t, ht, hspends⟩
  have hnames : ∀ t, Spends o.tx t → txrOrphanNames o t = true := by
    intro t ht
    have hmem := (listed_iff o.txid_eq).mp (hlisted o (mem_parked.mpr ⟨i, ho⟩)) t ht
    simpa [txrOrphanNames] using hmem
  rcases hend.slot i with ⟨-, hopen⟩ | ⟨hempty, o', ho', e, he, hfinal, hin⟩
  · obtain ⟨hundecided, hseen⟩ := hopen o ho
    obtain ⟨e, he, -⟩ := hseen t ht (hnames t hspends)
    refine ⟨e, he, .inr (.inr ⟨hundecided e he, fun t' ht' hspends' => ?_⟩)⟩
    obtain ⟨e', he', hafter⟩ := hseen t' ht' (hnames t' hspends')
    rw [he] at he'
    obtain rfl := Option.some_inj.mp he'
    exact hafter
  · rw [ho] at ho'
    cases ho'
    by_cases hone : e.verdict = 1
    · exact ⟨e, he, .inl ⟨hone, hin hone, hempty⟩⟩
    · exact ⟨e, he, .inr (.inl ⟨hone, hfinal, hempty⟩)⟩

theorem resolveLoop_single {validate : List (Bytes 32) → Bytes 32 → List UInt8 → Int} {s : Resolving sha256d}
    {t : Bytes 32} (fuel : Nat) (hwork : s.work = [t]) (hend : (sweep validate t 0 txrOrphanMax s).work = [t]) :
    resolveLoop validate (fuel + 1) 0 s = some (sweep validate t 0 txrOrphanMax s) := by
  have hfirst : s.work[0]? = some t := by simp [hwork]
  have hnone : (sweep validate t 0 txrOrphanMax s).work[1]? = none := by simp [hend]
  rw [resolveLoop]
  simp only [hfirst]
  rw [resolveLoop]
  simp only [Nat.zero_add, hnone]

/-- Where every try ends with missing inputs, an orphan that does not name what was accepted
is not tried. -/
theorem not_closes_of_unnamed {pool : OrphanPool sha256d} {i : Nat} {o : Orphan sha256d} {t : Bytes 32}
    (ho : pool.slots[i]? = some (some o)) (hspends : Spends o.tx t) (hnames : txrOrphanNames o t = false) :
    ¬ Closes (fun _ _ _ => -25) pool t := by
  have hretry : ∀ (s : Resolving sha256d) (j : Nat),
      s.table = pool.toOrphanTable ∧ s.accepted = [t] ∧ s.work = [t] ∧ s.last i = none →
        (retry (fun _ _ _ => -25) t j s).table = pool.toOrphanTable ∧
          (retry (fun _ _ _ => -25) t j s).accepted = [t] ∧ (retry (fun _ _ _ => -25) t j s).work = [t] ∧
            (retry (fun _ _ _ => -25) t j s).last i = none := by
    rintro s j ⟨htable, haccepted, hwork, hlast⟩
    unfold retry
    split
    case h_2 => exact ⟨htable, haccepted, hwork, hlast⟩
    case h_1 o' ho' =>
      split
      case isFalse => exact ⟨htable, haccepted, hwork, hlast⟩
      case isTrue hnames' =>
        have hji : i ≠ j := by
          rintro rfl
          rw [htable, ho] at ho'
          cases ho'
          rw [hnames] at hnames'
          cases hnames'
        simp only [o'.txid_eq]
        rw [if_neg (by decide), if_pos (by decide)]
        exact ⟨htable, haccepted, hwork, (s.last_judge_of_ne _ hji).trans hlast⟩
  have hsweep : ∀ (n j : Nat) (s : Resolving sha256d),
      s.table = pool.toOrphanTable ∧ s.accepted = [t] ∧ s.work = [t] ∧ s.last i = none →
        (sweep (fun _ _ _ => -25) t j n s).table = pool.toOrphanTable ∧
          (sweep (fun _ _ _ => -25) t j n s).accepted = [t] ∧ (sweep (fun _ _ _ => -25) t j n s).work = [t] ∧
            (sweep (fun _ _ _ => -25) t j n s).last i = none := by
    intro n
    induction n with
    | zero => exact fun _ _ h => h
    | succ n ih => exact fun j s h => ih (j + 1) _ (hretry s j h)
  rintro ⟨s, hs, hall⟩
  obtain ⟨-, haccepted, hwork, hlast⟩ := hsweep txrOrphanMax 0 ⟨pool.toOrphanTable, [t], 0, [t], []⟩
    ⟨rfl, rfl, rfl, rfl⟩
  have hend : s = sweep (fun _ _ _ => -25) t 0 txrOrphanMax ⟨pool.toOrphanTable, [t], 0, [t], []⟩ := by
    rw [txrOrphanResolve, resolveLoop_single txrOrphanMax rfl hwork] at hs
    exact (Option.some_inj.mp hs).symm
  rw [← hend] at haccepted hlast
  obtain ⟨e, he, -⟩ := hall i o ho ⟨t, by simp [haccepted], hspends⟩
  rw [hlast] at he
  cases he

/-- A pool closes, whatever is accepted and whatever the rule, just when all that its orphans
spend is listed. -/
theorem closes_iff_listed (pool : OrphanPool sha256d) :
    (∀ validate accepted, Closes validate pool accepted) ↔ ∀ o ∈ parked pool.slots, Listed o.tx := by
  refine ⟨fun hcloses o ho => ?_, fun hlisted => closes_of_listed hlisted⟩
  obtain ⟨i, hi⟩ := mem_parked.mp ho
  rw [listed_iff o.txid_eq]
  intro t hspends
  by_contra hmem
  exact not_closes_of_unnamed hi hspends (by simpa [txrOrphanNames] using hmem) (hcloses _ t)

/-! ## An input out of view -/

def prevoutOf (b : UInt8) : List UInt8 := List.replicate 32 b ++ List.replicate 4 0

/-- An input whose script has a length of five bytes. -/
def longInput (script : List UInt8) : List UInt8 :=
  prevoutOf 1 ++ ((0xfe :: leBytes 4 script.length) ++ (script ++ List.replicate 4 0xff))

def shortInput : List UInt8 := prevoutOf 2 ++ ([0] ++ ([] ++ List.replicate 4 0xff))

def noOutput : List UInt8 := List.replicate 8 0 ++ ([0] ++ [])

def twoInputs (script : List UInt8) : List UInt8 := [2] ++ (longInput script ++ (shortInput ++ []))

/-- Two inputs, the first with the long script, and an output. -/
def longTx (script : List UInt8) : List UInt8 :=
  [2, 0, 0, 0] ++ (twoInputs script ++ (([1] ++ (noOutput ++ [])) ++ List.replicate 4 0))

theorem takes_readIn {prevout front script sequence : List UInt8} (hprevout : prevout.length = 36)
    (hfront : (readVarint false true).Takes front script.length) (hsequence : sequence.length = 4) :
    (readIn false).Takes (prevout ++ (front ++ (script ++ sequence))) ⟨prevout, script, sequence⟩ := by
  intro tail
  have hscript : (readScript false).Takes (front ++ script) script := hfront.bind (Reader.takes_take rfl)
  have h₁ := Reader.takes_take hprevout (front ++ (script ++ (sequence ++ tail)))
  have h₂ := hscript (sequence ++ tail)
  have h₃ := Reader.takes_take hsequence tail
  simp only [List.append_assoc] at h₂
  simp [readIn, Reader.bind, Reader.pure, h₁, h₂, h₃]

theorem takes_shortInput : (readIn false).Takes shortInput ⟨prevoutOf 2, [], List.replicate 4 0xff⟩ :=
  takes_readIn rfl (takes_varint_small (by decide)) rfl

theorem takes_noOutput : (readOut false).Takes noOutput ⟨List.replicate 8 0, []⟩ := by
  intro tail
  rfl

section Long

variable {script : List UInt8} (hscript : script.length ≤ 65536)

include hscript

theorem takes_longInput : (readIn false).Takes (longInput script)
    ⟨prevoutOf 1, script, List.replicate 4 0xff⟩ := by
  refine takes_readIn rfl ?_ rfl
  have hvalue : leVal (leBytes 4 script.length) = script.length := by
    rw [leVal_leBytes, Nat.mod_eq_of_lt (by omega)]
  have hmax : script.length ≤ maxSize := hscript.trans (by decide)
  have hwide := @takes_varint_wide false true 0xfe (leBytes 4 script.length) (by decide) (length_leBytes ..)
    (by simp) fun _ => hvalue.trans_le hmax
  rwa [hvalue] at hwide

theorem takes_twoInputs : ((readVarint false true).bind (readIn false).verbatim.times).Takes (twoInputs script)
    [(⟨prevoutOf 1, script, List.replicate 4 0xff⟩, longInput script),
      (⟨prevoutOf 2, [], List.replicate 4 0xff⟩, shortInput)] :=
  Reader.Takes.bind (takes_varint_small (by decide))
    ((takes_longInput hscript).verbatim.times_cons (takes_shortInput.verbatim.times_cons (Reader.takes_pure [])))

theorem relayInputs_longTx : relayInputs (longTx script) = [longInput script, shortInput] := by
  have hcount : countAt (longTx script) = twoInputs script ++ (([1] ++ (noOutput ++ [])) ++ List.replicate 4 0) :=
    rfl
  have hread := takes_twoInputs hscript (([1] ++ (noOutput ++ [])) ++ List.replicate 4 0)
  rw [← hcount] at hread
  simp only [relayInputs, hread, List.map_cons, List.map_nil]

theorem relayTxid_longTx : (relayTxid Consensus.sha256d (longTx script)).isSome = true := by
  have hins : (readList false (readIn false)).Takes (twoInputs script) _ :=
    Reader.Takes.bind (takes_varint_small (by decide))
      ((takes_longInput hscript).times_cons (takes_shortInput.times_cons (Reader.takes_pure [])))
  have houts : (readList false (readOut false)).Takes ([1] ++ (noOutput ++ [])) _ :=
    Reader.Takes.bind (takes_varint_small (by decide)) (takes_noOutput.times_cons (Reader.takes_pure []))
  have hbody : (readBody false).Takes (twoInputs script ++ (([1] ++ (noOutput ++ [])) ++ [])) _ :=
    hins.bind (houts.bind (Reader.takes_pure _))
  have hread := hbody.verbatim (List.replicate 4 0)
  have hcount : countAt (longTx script) =
      twoInputs script ++ (([1] ++ (noOutput ++ [])) ++ []) ++ List.replicate 4 0 := by
    simp only [List.append_nil, List.append_assoc]
    rfl
  have hroom : (twoInputs script ++ (([1] ++ (noOutput ++ [])) ++ [])).length + 8 ≤ scratchRoom := by
    simp only [twoInputs, longInput, shortInput, noOutput, prevoutOf, scratchRoom, List.length_append,
      List.length_cons, List.length_nil, List.length_replicate, length_leBytes]
    omega
  rw [← hcount] at hread
  unfold relayTxid
  rw [← countAt, hread]
  simp only
  rw [if_neg (by simp only [List.length_replicate]; omega)]
  rfl

theorem length_longTx : (longTx script).length ≤ txrOrphanBytes := by
  have hlimit : 65536 + 200 ≤ txrOrphanBytes := by decide
  simp only [longTx, twoInputs, longInput, shortInput, noOutput, prevoutOf, List.length_append,
    List.length_cons, List.length_nil, List.length_replicate, length_leBytes]
  omega

/-- The second input is out of view behind the long script of the first. -/
theorem not_names_longTx : Bytes.ofList 32 (List.replicate 32 2) ∉ txrTxParents (longTx script) := by
  obtain ⟨txid, htxid⟩ := Option.isSome_iff_exists.mp (relayTxid_longTx hscript)
  rw [mem_txrTxParents htxid, relayInputs_longTx hscript]
  have hview : inView [longInput script, shortInput] = [longInput script] := rfl
  have hspent : spentTxid (longInput script) = Bytes.ofList 32 (List.replicate 32 1) := rfl
  rw [hview]
  simp only [List.mem_singleton, exists_eq_left, hspent]
  rintro ⟨-, heq⟩
  exact absurd heq (by decide)

end Long

/-- An orphan that spends a second transaction with its second input. -/
def longOrphan (script : List UInt8) (h : script.length ≤ 65536) : Orphan Consensus.sha256d where
  tx := longTx script
  txid := (relayTxid Consensus.sha256d (longTx script)).get (relayTxid_longTx h)
  wtxid := Consensus.sha256d (longTx script)
  peer := 1
  tMs := 0
  txid_eq := (Option.some_get _).symm
  wtxid_eq := rfl

theorem long_script_not_closed :
    ¬ ∀ (pool : OrphanPool Consensus.sha256d) (validate : List (Bytes 32) → Bytes 32 → List UInt8 → Int)
      (accepted : Bytes 32), Closes validate pool accepted := by
  intro hall
  have hscript : (List.replicate 65536 (0 : UInt8)).length ≤ 65536 := (List.length_replicate ..).le
  generalize List.replicate 65536 (0 : UInt8) = script at hscript
  have hspends : Spends (longTx script) (Bytes.ofList 32 (List.replicate 32 2)) :=
    ⟨shortInput, by simp [relayInputs_longTx hscript], rfl⟩
  have hnames : txrOrphanNames (longOrphan script hscript) (Bytes.ofList 32 (List.replicate 32 2)) = false :=
    decide_eq_false (not_names_longTx hscript)
  have hslot : (holding (longOrphan script hscript) (length_longTx hscript)).slots[0]? =
      some (some (longOrphan script hscript)) := rfl
  exact not_closes_of_unnamed hslot hspends hnames (hall _ _ _)

end BitcoinMachineCode.Network
