import BitcoinMachineCode.Storage.StatsRing

/-!
# What the coin statistics worker persists

A worker that believes its totals has folded a prefix of what was pushed since its
generation began, each record once: its place in the ring is the end of that prefix, and a
slot it reads is taken only under the stamp of its own number.  So `coinstats.dat` has the
totals at a commit marker, or it is gone.
-/

namespace BitcoinMachineCode.Storage.StatsRing

open BitcoinMachineCode.Foundation

variable {σ : Type} {add : σ → CoinRec → σ}

/-! ## Totals at a marker -/

/-- The fold of all that a generation was given before the marker. -/
def Marked (add : σ → CoinRec → σ) (gens : List (Generation σ)) (m : Entry) (t : Totals σ) : Prop :=
  ∃ g ∈ gens, ∃ pre, pre ++ [m] <+: g.log ∧ t = g.base.replay add pre

@[simp] theorem Totals.replay_append (t : Totals σ) (xs ys : List Entry) :
    t.replay add (xs ++ ys) = (t.replay add xs).replay add ys := List.foldl_append

@[simp] theorem Totals.replay_singleton (t : Totals σ) (e : Entry) : t.replay add [e] = t.apply add e := rfl

theorem Marked.note {gens : List (Generation σ)} {m : Entry} {t : Totals σ} (h : Marked add gens m t)
    (e : Entry) : Marked add (note gens e) m t := by
  obtain ⟨g, hg, pre, hpre, ht⟩ := h
  cases gens with
  | nil => simp at hg
  | cons first gs =>
      rcases List.mem_cons.mp hg with rfl | hg
      · exact ⟨_, List.mem_cons_self, pre, hpre.trans (List.prefix_append ..), ht⟩
      · exact ⟨g, List.mem_cons_of_mem _ hg, pre, hpre, ht⟩

theorem Marked.cons {gens : List (Generation σ)} {m : Entry} {t : Totals σ} (h : Marked add gens m t)
    (g : Generation σ) : Marked add (g :: gens) m t := by
  obtain ⟨g', hg, hrest⟩ := h
  exact ⟨g', List.mem_cons_of_mem _ hg, hrest⟩

/-- The totals are those of all that the last generation was given. -/
def Current (add : σ → CoinRec → σ) (gens : List (Generation σ)) (t : Totals σ) : Prop :=
  ∃ g gs, gens = g :: gs ∧ t = g.base.replay add g.log

theorem Current.note {gens : List (Generation σ)} {t : Totals σ} (h : Current add gens t) (e : Entry) :
    Current add (note gens e) (t.apply add e) := by
  obtain ⟨g, gs, rfl, ht⟩ := h
  refine ⟨_, gs, rfl, ?_⟩
  simp [ht]

theorem Current.marked {gens : List (Generation σ)} {t : Totals σ} (h : Current add gens t) (m : Entry) :
    Marked add (StatsRing.note gens m) m t := by
  obtain ⟨g, gs, rfl, ht⟩ := h
  exact ⟨_, List.mem_cons_self, g.log, List.prefix_rfl, ht⟩

/-! ## The worker's place in the ring -/

def slotsOf (es : List Entry) : Nat := (es.flatMap Entry.pieces).length

@[simp] theorem slotsOf_nil : slotsOf [] = 0 := rfl

@[simp] theorem slotsOf_cons (e : Entry) (es : List Entry) : slotsOf (e :: es) = e.pieces.length + slotsOf es := by
  simp [slotsOf]

@[simp] theorem slotsOf_append (xs ys : List Entry) : slotsOf (xs ++ ys) = slotsOf xs + slotsOf ys := by
  simp [slotsOf]

/-- From `cursor` to `head` are whole records, and they fit the ring. -/
def Ahead (cursor head : Nat) (queue : List Entry) : Prop :=
  ∃ seen rest, queue = seen ++ rest ∧ head = cursor + slotsOf seen ∧ slotsOf seen ≤ ringSlots

def Front (cursor head : Nat) (queue : List Entry) (r : Entry) : Prop :=
  ∃ seen rest, queue = r :: (seen ++ rest) ∧ head = cursor + (r.pieces.length + slotsOf seen) ∧
    r.pieces.length + slotsOf seen ≤ ringSlots

section Places

variable {cursor head : Nat} {queue : List Entry} {r : Entry}

theorem Ahead.append (h : Ahead cursor head queue) (es : List Entry) : Ahead cursor head (queue ++ es) := by
  obtain ⟨seen, rest, rfl, hrest⟩ := h
  exact ⟨seen, rest ++ es, List.append_assoc .., hrest⟩

theorem Front.append (h : Front cursor head queue r) (es : List Entry) : Front cursor head (queue ++ es) r := by
  obtain ⟨seen, rest, rfl, hrest⟩ := h
  exact ⟨seen, rest ++ es, by simp, hrest⟩

theorem Ahead.front (h : Ahead cursor head queue) (hlt : cursor < head) : ∃ r, Front cursor head queue r := by
  obtain ⟨seen, rest, rfl, hhead, hfits⟩ := h
  cases seen with
  | nil =>
      simp at hhead
      omega
  | cons r seen =>
      rw [slotsOf_cons] at hhead hfits
      exact ⟨r, seen, rest, rfl, hhead, hfits⟩

theorem Front.behind (h : Front cursor head queue r) :
    ∃ queue', queue = r :: queue' ∧ Ahead (cursor + r.pieces.length) head queue' := by
  obtain ⟨seen, rest, rfl, hhead, hfits⟩ := h
  exact ⟨seen ++ rest, rfl, seen, rest, rfl, by omega, by omega⟩

theorem Front.length_le (h : Front cursor head queue r) : r.pieces.length ≤ ringSlots := by
  obtain ⟨seen, rest, -, -, hfits⟩ := h
  omega

end Places

/-- The record in front is a coin with a long script, of which the first chunks are read. -/
structure ContOk (cursor head : Nat) (queue : List Entry) (p : Part) (c : CoinRec) : Prop where
  front : Front cursor head queue (.coin p.isAdd c)
  body : c.head <+: p.body
  slen : p.slen = c.script.length
  n : p.n = 1 + contSlots c.script.length
  chunks : p.chunks < contSlots c.script.length
  script : p.script = c.script.take (inlineBytes + bodyBytes * p.chunks)

theorem ContOk.append {cursor head : Nat} {queue : List Entry} {p : Part} {c : CoinRec}
    (h : ContOk cursor head queue p c) (es : List Entry) : ContOk cursor head (queue ++ es) p c :=
  { h with front := h.front.append es }

/-- What a worker that believes its totals has read.  What it loads counts while the slot has
the stamp. -/
def Reads (filled : Nat) (Has : Nat → Prop) (cursor head : Nat) (taken queue : List Entry) : Phase → Prop
  | .poll => True
  | .unlink _ => False
  | .check => Ahead cursor head queue
  | .kind => cursor < filled ∧ ∃ r, Front cursor head queue r
  | .slen kind => cursor < filled ∧ ∃ r p, Front cursor head queue r ∧ r.pieces[0]? = some p ∧
      (Has cursor → kind = p.kind)
  | .body kind slen bytes => cursor < filled ∧ ∃ r p, Front cursor head queue r ∧ r.pieces[0]? = some p ∧
      (Has cursor → kind = p.kind ∧ slen = p.slen ∧ Agrees p.bytes bytes)
  | .again kind slen bytes => cursor < filled ∧ bodyBytes ≤ bytes.length ∧
      ∃ r p, Front cursor head queue r ∧ r.pieces[0]? = some p ∧
        (Has cursor → kind = p.kind ∧ slen = p.slen ∧ Agrees p.bytes bytes)
  | .contReady p => ∃ c, ContOk cursor head queue p c
  | .contSlen p => cursor + p.chunks + 1 < filled ∧ ∃ c, ContOk cursor head queue p c
  | .contKind p cl => cursor + p.chunks + 1 < filled ∧ ∃ c, ContOk cursor head queue p c ∧
      (Has (cursor + p.chunks + 1) → cl = (chunk c.script p.chunks).length)
  | .contBody p cl got => cursor + p.chunks + 1 < filled ∧ got.length ≤ cl ∧ ∃ c, ContOk cursor head queue p c ∧
      (Has (cursor + p.chunks + 1) → cl = (chunk c.script p.chunks).length ∧ Agrees (chunk c.script p.chunks) got)
  | .contAgain p got => cursor + p.chunks + 1 < filled ∧ ∃ c, ContOk cursor head queue p c ∧
      (Has (cursor + p.chunks + 1) → got = chunk c.script p.chunks)
  | .rename h => Ahead cursor head queue ∧ ∃ pre, taken = pre ++ [.commit h]
  | .writeRow h => Ahead cursor head queue ∧ ∃ pre, taken = pre ++ [.row h]
  | .mark _ => Ahead cursor head queue
  | .publish _ => Ahead cursor head queue

theorem Reads.mono {filled filled' cursor head : Nat} {Has Has' : Nat → Prop} {taken queue : List Entry}
    {phase : Phase} (h : Reads filled Has cursor head taken queue phase) (hfilled : filled ≤ filled')
    (hhas : ∀ q < filled, Has' q → Has q) (es : List Entry) :
    Reads filled' Has' cursor head taken (queue ++ es) phase := by
  cases phase with
  | poll => trivial
  | unlink next => exact h
  | check => exact h.append es
  | kind =>
      obtain ⟨hlt, r, hr⟩ := h
      exact ⟨by omega, r, hr.append es⟩
  | slen kind =>
      obtain ⟨hlt, r, p, hr, hp, hload⟩ := h
      exact ⟨by omega, r, p, hr.append es, hp, fun hq => hload (hhas _ hlt hq)⟩
  | body kind slen bytes =>
      obtain ⟨hlt, r, p, hr, hp, hload⟩ := h
      exact ⟨by omega, r, p, hr.append es, hp, fun hq => hload (hhas _ hlt hq)⟩
  | again kind slen bytes =>
      obtain ⟨hlt, hlen, r, p, hr, hp, hload⟩ := h
      exact ⟨by omega, hlen, r, p, hr.append es, hp, fun hq => hload (hhas _ hlt hq)⟩
  | contReady p =>
      obtain ⟨c, hc⟩ := h
      exact ⟨c, hc.append es⟩
  | contSlen p =>
      obtain ⟨hlt, c, hc⟩ := h
      exact ⟨by omega, c, hc.append es⟩
  | contKind p cl =>
      obtain ⟨hlt, c, hc, hload⟩ := h
      exact ⟨by omega, c, hc.append es, fun hq => hload (hhas _ hlt hq)⟩
  | contBody p cl got =>
      obtain ⟨hlt, hlen, c, hc, hload⟩ := h
      exact ⟨by omega, hlen, c, hc.append es, fun hq => hload (hhas _ hlt hq)⟩
  | contAgain p got =>
      obtain ⟨hlt, c, hc, hload⟩ := h
      exact ⟨by omega, c, hc.append es, fun hq => hload (hhas _ hlt hq)⟩
  | rename height => exact ⟨h.1.append es, h.2⟩
  | writeRow height => exact ⟨h.1.append es, h.2⟩
  | mark height => exact h.append es
  | publish stop => exact h.append es

/-- The phases of a worker that has dropped its totals. -/
def Phase.Quiet : Phase → Prop
  | .unlink _ => False
  | .rename _ => False
  | .writeRow _ => False
  | _ => True

def Dropped (file : Option (Int64 × Totals σ)) : Phase → Prop
  | .unlink next => next.Quiet
  | phase => phase.Quiet ∧ file = none

theorem Dropped.file {file : Option (Int64 × Totals σ)} {phase : Phase} (h : Dropped file phase)
    (hphase : ∀ next, phase ≠ .unlink next) : file = none := by
  cases phase with
  | unlink next => exact absurd rfl (hphase next)
  | _ => exact h.2

/-! ## The invariant -/

namespace Sys

def stored (s : Sys σ) : List Piece := s.ring.flatMap Entry.pieces

def Good (s : Sys σ) (q : Nat) (cell : Cell) : Prop := ∃ p, s.stored[q]? = some p ∧ cell.Holds p

/-- The worker has folded `taken` of its generation; what it has not read yet stands last in
the generation's log and in the ring. -/
structure Follows (add : σ → CoinRec → σ) (gens : List (Generation σ)) (ring : List Entry) (filled : Nat)
    (slots : Nat → Stamped Cell) (w : Worker σ) (g : Generation σ) (taken done queue : List Entry) : Prop where
  gens : ∃ gs, gens = g :: gs
  log : g.log = taken ++ queue
  ring : ring = done ++ queue
  cursor : w.cursor = slotsOf done
  totals : w.totals = g.base.replay add taken
  reads : Reads filled (Stamped.Has ringSlots slots) w.cursor w.head taken queue w.phase

def WorkerOk (add : σ → CoinRec → σ) (s : Sys σ) (w : Worker σ) : Prop :=
  (w.valid = true ∧ ∃ g taken done queue, Follows add s.gens s.ring s.filled s.slots w g taken done queue) ∨
    (w.valid = false ∧ Dropped s.file w.phase)

def Filling (s : Sys σ) (q : Nat) (p : Piece) (rest : List Piece) : Prop :=
  q = s.filled ∧ s.stored.drop q = p :: rest

def ProducerOk (add : σ → CoinRec → σ) (s : Sys σ) : Producer → Prop
  | .idle => s.filled = s.seq
  | .dead => True
  | .wait _ => s.filled = s.seq ∧ s.ringOn = true
  | .claim _ => s.filled = s.seq ∧ s.ringOn = true
  | .clear q _ p rest => s.Filling q p rest
  | .kind q _ p rest => s.Filling q p rest ∧ (s.slots (q % ringSlots)).stamp = 0
  | .slen q _ p rest => s.Filling q p rest ∧ (s.slots (q % ringSlots)).stamp = 0 ∧ (s.slot q).kind = p.kind
  | .body q _ p rest k => s.Filling q p rest ∧ (s.slots (q % ringSlots)).stamp = 0 ∧
      (s.slot q).Holds ⟨p.kind, p.slen, p.bytes.take k⟩
  | .ready q _ p rest => s.Filling q p rest ∧ (s.slots (q % ringSlots)).stamp = 0 ∧ (s.slot q).Holds p
  | .pushed _ => s.filled = s.seq
  | .unlink => s.filled = s.seq
  | .rename h => s.filled = s.seq ∧ s.ringOn = false ∧ Marked add s.gens (.commit h) s.totals
  | .reap => s.filled = s.seq

structure Sound (add : σ → CoinRec → σ) (s : Sys σ) : Prop where
  file : ∀ h t, s.file = some (h, t) → Marked add s.gens (.commit h) t
  rows : ∀ h t, (h, t) ∈ s.rows → Marked add s.gens (.row h) t
  seq : s.seq = s.stored.length
  filled : s.filled ≤ s.seq
  slots : Stamped.Sound ringSlots s.Good s.slots s.filled
  producer : s.ProducerOk add s.producer
  inline : s.ringOn = false → s.valid = true → Current add s.gens s.totals
  running : s.worker.isSome = true → s.ringOn = true
  forked : s.ringOn = true → s.workerPid = true
  worker : ∀ w, s.worker = some w → s.WorkerOk add w

theorem sound_boot (file : Option (Int64 × Totals σ)) (empty : Totals σ) (applied : Int64) :
    Sound add (boot file empty applied) where
  file := by
    rintro h t (rfl : file = some (h, t))
    exact ⟨⟨t, [.commit h]⟩, by simp [boot], [], List.prefix_rfl, rfl⟩
  rows := by simp [boot]
  seq := rfl
  filled := le_rfl
  slots := by
    intro q hq
    simp [boot, Stamped.Has] at hq
  producer := rfl
  inline := by
    intro _ hvalid
    cases file with
    | none => simp [boot] at hvalid
    | some x => exact ⟨⟨x.2, [.commit x.1]⟩, [], rfl, rfl⟩
  running := by simp [boot]
  forked := by simp [boot]
  worker := by simp [boot]

/-! ## The connect process -/

section Calls

variable {s : Sys σ}

theorem Sound.no_worker (h : Sound add s) (hoff : s.ringOn = false) : s.worker = none := by
  by_contra hsome
  have hon := h.running (Option.isSome_iff_ne_none.mpr hsome)
  rw [hoff] at hon
  cases hon

theorem Sound.setProducer (h : Sound add s) {p : Producer} (hok : s.ProducerOk add p) :
    Sound add { s with producer := p } :=
  { h with producer := by cases p <;> exact hok }

/-- The connect process drops its totals, and maybe the worker it knows to be gone. -/
theorem Sound.drop (h : Sound add s) {p : Producer} {ringOn workerPid : Bool}
    (hok : ProducerOk add { s with ringOn := ringOn } p) (hrunning : s.worker.isSome = true → ringOn = true)
    (hforked : ringOn = true → workerPid = true) :
    Sound add { s with valid := false, ringOn := ringOn, workerPid := workerPid, producer := p } :=
  { h with
    producer := by cases p <;> exact hok
    inline := nofun
    running := hrunning
    forked := hforked }

theorem Sound.invalidateLocal (h : Sound add s) (hfilled : s.filled = s.seq) : Sound add s.invalidateLocal :=
  h.drop (by exact hfilled) h.running h.forked

/-- The same once the worker is known to be gone. -/
theorem Sound.dropGone (h : Sound add s) (hnone : s.worker = none) {p : Producer}
    (hok : ProducerOk add { s with ringOn := false } p) :
    Sound add { s with valid := false, ringOn := false, workerPid := false, producer := p } :=
  h.drop hok (by simp [hnone]) nofun

/-- What is given without a ring is folded here. -/
theorem Sound.inlineNote (h : Sound add s) (hoff : s.ringOn = false) (hvalid : s.valid = true) (e : Entry)
    {p : Producer} (hok : ProducerOk add { s with totals := s.totals.apply add e, gens := note s.gens e } p)
    (rows : List (Int64 × Totals σ))
    (hrows : ∀ height t, (height, t) ∈ rows → Marked add (note s.gens e) (.row height) t) (height : Int64) :
    Sound add
      { s with totals := s.totals.apply add e, gens := note s.gens e, producer := p, rows := rows, height := height } :=
  { h with
    file := fun height t hfile => (h.file height t hfile).note e
    rows := hrows
    producer := by cases p <;> exact hok
    inline := fun _ _ => (h.inline hoff hvalid).note e
    worker := by
      intro w hw
      change s.worker = some w at hw
      rw [h.no_worker hoff] at hw
      cases hw }

theorem Sound.onCoin (h : Sound add s) (hidle : s.producer = .idle) (isAdd : Bool) (c : CoinRec) :
    Sound add (s.onCoin add isAdd c) := by
  have hok := h.producer
  rw [hidle] at hok
  simp only [Sys.onCoin]
  split
  case isTrue => exact h
  case isFalse hvalid =>
    split
    case isTrue hon => exact h.setProducer ⟨hok, hon⟩
    case isFalse hoff =>
      have hnote := h.inlineNote (p := .idle) (by simpa using hoff) (by simpa using hvalid) (.coin isAdd c) hok
        s.rows (fun height t hrow => (h.rows height t hrow).note _) s.height
      rwa [← hidle] at hnote

theorem Sound.onBlock (h : Sound add s) (hidle : s.producer = .idle) (height : Int64) (wrote : Bool) :
    Sound add (s.onBlock height wrote) := by
  have hok := h.producer
  rw [hidle] at hok
  simp only [Sys.onBlock]
  split
  case isTrue => exact h
  case isFalse hvalid =>
    split
    case isTrue hon => exact h.setProducer ⟨hok, hon⟩
    case isFalse hoff =>
      have hoff' : s.ringOn = false := by simpa using hoff
      have hvalid' : s.valid = true := by simpa using hvalid
      have hnote := h.inlineNote (p := .idle) hoff' hvalid' (.row height) hok
        (if wrote then (height, s.totals) :: s.rows else s.rows) ?_ s.height
      · rwa [← hidle] at hnote
      · intro height' t hrow
        cases wrote with
        | false => exact (h.rows height' t hrow).note _
        | true =>
            rcases List.mem_cons.mp hrow with heq | hrow
            · cases heq
              exact (h.inline hoff' hvalid').marked _
            · exact (h.rows height' t hrow).note _

theorem Sound.commit (h : Sound add s) (hidle : s.producer = .idle) (height : Int64) :
    Sound add (s.commit height) := by
  have hok := h.producer
  rw [hidle] at hok
  simp only [Sys.commit]
  split
  case isTrue => exact h
  case isFalse hvalid =>
    split
    case isTrue hon => exact h.setProducer ⟨hok, hon⟩
    case isFalse hoff =>
      have hoff' : s.ringOn = false := by simpa using hoff
      have hvalid' : s.valid = true := by simpa using hvalid
      exact h.inlineNote (p := .rename height) hoff' hvalid' (.commit height)
        ⟨hok, hoff', (h.inline hoff' hvalid').marked (.commit height)⟩
        s.rows (fun height t hrow => (h.rows height t hrow).note _) height

theorem Sound.invalidate (h : Sound add s) (hidle : s.producer = .idle) : Sound add s.invalidate := by
  have hok := h.producer
  rw [hidle] at hok
  simp only [Sys.invalidate]
  split
  case isTrue hon =>
    rw [Bool.and_eq_true] at hon
    split
    case isTrue =>
      split
      case isTrue => exact h.setProducer ⟨hok, hon.1⟩
      case isFalse => exact h
    case isFalse hgone => exact h.dropGone (by simpa using hgone) (by exact hok)
  case isFalse => exact h.invalidateLocal hok

theorem Sound.stopped (h : Sound add s) (hnone : s.worker = none) (hfilled : s.filled = s.seq) :
    Sound add s.stopped :=
  h.dropGone hnone (by exact hfilled)

theorem Sound.stop (h : Sound add s) (hidle : s.producer = .idle) : Sound add s.stop := by
  have hok := h.producer
  rw [hidle] at hok
  simp only [Sys.stop]
  split
  case isTrue => exact h
  case isFalse =>
    split
    case isTrue hsome => exact h.setProducer ⟨hok, h.running hsome⟩
    case isFalse hgone => exact h.stopped (by simpa using hgone) hok

theorem Sound.seed (h : Sound add s) (hidle : s.producer = .idle) (walk : Totals σ) (height : Int64)
    (ok wrote : Bool) : Sound add (s.seed walk height ok wrote) := by
  have hok := h.producer
  rw [hidle] at hok
  simp only [Sys.seed]
  split
  case isTrue => exact h
  case isFalse hpid =>
    have hoff : s.ringOn = false := by
      by_contra hon
      exact hpid (h.forked (by simpa using hon))
    have hnone := h.no_worker hoff
    have hworker : ∀ s' : Sys σ, s'.worker = s.worker → ∀ w, s'.worker = some w → s'.WorkerOk add w := by
      intro s' heq w hw
      rw [heq, hnone] at hw
      cases hw
    split
    case isTrue =>
      exact { h with producer := by rw [hidle]; exact hok, inline := nofun, worker := hworker _ rfl }
    case isFalse =>
      refine { h with
        file := fun height t hfile => (h.file height t hfile).cons _
        rows := ?_
        producer := ⟨hok, hoff, ⟨_, List.mem_cons_self, [.row height], List.prefix_rfl, rfl⟩⟩
        inline := fun _ _ => ⟨_, _, rfl, rfl⟩
        worker := hworker _ rfl }
      intro height' t hrow
      cases wrote with
      | false => exact (h.rows height' t hrow).cons _
      | true =>
          rcases List.mem_cons.mp hrow with heq | hrow
          · cases heq
            exact ⟨_, List.mem_cons_self, [], by simp, rfl⟩
          · exact (h.rows height' t hrow).cons _

/-- The new worker has the totals of all that was given so far. -/
theorem Sound.start (h : Sound add s) (hidle : s.producer = .idle) (forked : Bool) : Sound add (s.start forked) := by
  have hok := h.producer
  simp only [Sys.start]
  split
  case isTrue => exact h
  case isFalse hcan =>
    have hpid : s.workerPid = false := by
      by_contra hpid
      simp_all
    have hvalid : s.valid = true := by
      by_contra hvalid
      simp_all
    have hoff : s.ringOn = false := by
      by_contra hon
      rw [h.forked (by simpa using hon)] at hpid
      cases hpid
    split
    case isTrue =>
      obtain ⟨g, gs, hgens, htotals⟩ := h.inline hoff hvalid
      refine { h with
        producer := by rw [hidle] at hok ⊢; exact hok
        inline := nofun
        running := fun _ => rfl
        forked := fun _ => rfl
        worker := ?_ }
      rintro w hw
      cases hw
      exact .inl ⟨rfl, g, g.log, s.ring, [], ⟨⟨gs, hgens⟩, by simp, by simp, h.seq, htotals, trivial⟩⟩
    case isFalse =>
      exact { h with producer := by rw [hidle] at hok ⊢; exact hok }

end Calls

section Pushes

variable {s : Sys σ}

/-- What the producer stores past the slots already filled does not touch what the worker
reads of them. -/
theorem WorkerOk.mono {w : Worker σ} (h : s.WorkerOk add w) {s' : Sys σ} (hgens : s'.gens = s.gens)
    (hring : s'.ring = s.ring) (hfile : s'.file = s.file) (hfilled : s.filled ≤ s'.filled)
    (hhas : ∀ q < s.filled, Stamped.Has ringSlots s'.slots q → Stamped.Has ringSlots s.slots q) :
    s'.WorkerOk add w := by
  rcases h with ⟨hvalid, g, taken, done, queue, hfol⟩ | ⟨hvalid, hdropped⟩
  · refine .inl ⟨hvalid, g, taken, done, queue, hgens ▸ hfol.gens, hfol.log, hring ▸ hfol.ring, hfol.cursor,
      hfol.totals, ?_⟩
    simpa using hfol.reads.mono hfilled hhas []
  · exact .inr ⟨hvalid, hfile ▸ hdropped⟩

theorem Sound.setSlots (h : Sound add s) {slots : Nat → Stamped Cell} {filled : Nat} {p : Producer}
    (hle : s.filled ≤ filled) (hseq : filled ≤ s.seq) (hslots : Stamped.Sound ringSlots s.Good slots filled)
    (hhas : ∀ q < s.filled, Stamped.Has ringSlots slots q → Stamped.Has ringSlots s.slots q)
    (hok : ProducerOk add { s with slots := slots, filled := filled } p) :
    Sound add { s with slots := slots, filled := filled, producer := p } :=
  { h with
    filled := hseq
    slots := hslots
    producer := by cases p <;> exact hok
    worker := fun w hw => (h.worker w hw).mono rfl rfl rfl hle hhas }

theorem Sound.storeItem (h : Sound add s) {q : Nat} (hzero : (s.slots (q % ringSlots)).stamp = 0)
    (f : Cell → Cell) {p : Producer}
    (hok : ProducerOk add { s with slots := Stamped.store ringSlots s.slots q f } p) :
    Sound add { s with slots := Stamped.store ringSlots s.slots q f, producer := p } :=
  h.setSlots le_rfl h.filled (h.slots.store hzero) (fun _ _ hq => (Stamped.has_store hzero hq).2) hok

theorem Sound.pushDone (h : Sound add s) (hfilled : s.filled = s.seq) (e : Entry) : Sound add (s.pushDone e) := by
  cases e with
  | coin isAdd c => exact h.setProducer hfilled
  | row height => exact h.setProducer hfilled
  | commit height => exact h.setProducer hfilled
  | inval => exact h.drop (by exact hfilled) h.running h.forked
  | stop => exact h.setProducer hfilled

theorem Sound.pushGone (h : Sound add s) (hnone : s.worker = none) (hfilled : s.filled = s.seq) (e : Entry) :
    Sound add (pushGone { s with workerPid := false, ringOn := false } e) := by
  cases e <;> exact h.dropGone hnone (by exact hfilled)

theorem stored_snoc (ring : List Entry) (e : Entry) :
    (ring ++ [e]).flatMap Entry.pieces = ring.flatMap Entry.pieces ++ e.pieces := by
  simp

/-- A record is pushed: it joins the log of the generation and the ring. -/
theorem Sound.claim (h : Sound add s) (hfilled : s.filled = s.seq) (hon : s.ringOn = true) {e : Entry} {p : Piece}
    {rest : List Piece} (hpieces : e.pieces = p :: rest) :
    Sound add
      { s with
        seq := s.seq + e.pieces.length
        gens := note s.gens e
        ring := s.ring ++ [e]
        producer := .clear s.seq e p rest } := by
  have hstored : (s.ring ++ [e]).flatMap Entry.pieces = s.stored ++ e.pieces := stored_snoc s.ring e
  refine { h with
    file := fun height t hfile => (h.file height t hfile).note e
    rows := fun height t hrow => (h.rows height t hrow).note e
    seq := ?_
    filled := h.filled.trans (Nat.le_add_right ..)
    slots := h.slots.mono ?_
    producer := ⟨hfilled.symm, ?_⟩
    inline := fun hoff => by rw [hon] at hoff; cases hoff
    worker := ?_ }
  · change s.seq + e.pieces.length = ((s.ring ++ [e]).flatMap Entry.pieces).length
    rw [hstored, List.length_append, h.seq]
  · rintro q cell ⟨piece, hpiece, hholds⟩
    refine ⟨piece, ?_, hholds⟩
    change ((s.ring ++ [e]).flatMap Entry.pieces)[q]? = some piece
    obtain ⟨hlt, -⟩ := List.getElem?_eq_some_iff.mp hpiece
    rwa [hstored, List.getElem?_append_left hlt]
  · change ((s.ring ++ [e]).flatMap Entry.pieces).drop s.seq = p :: rest
    rw [hstored, h.seq, List.drop_left, hpieces]
  · intro w hw
    rcases h.worker w hw with ⟨hvalid, g, taken, done, queue, hfol⟩ | ⟨hvalid, hdropped⟩
    · obtain ⟨gs, hgens⟩ := hfol.gens
      refine .inl ⟨hvalid, { g with log := g.log ++ [e] }, taken, done, queue ++ [e], ⟨gs, ?_⟩, ?_, ?_, hfol.cursor,
        hfol.totals, hfol.reads.mono le_rfl (fun _ _ hq => hq) [e]⟩
      · change note s.gens e = _
        rw [hgens]
        rfl
      · rw [hfol.log, List.append_assoc]
      · change s.ring ++ [e] = _
        rw [hfol.ring, List.append_assoc]
    · exact .inr ⟨hvalid, hdropped⟩

theorem Filling.getElem? {q : Nat} {p : Piece} {rest : List Piece} (h : s.Filling q p rest) :
    s.stored[q]? = some p := by
  have hget : (s.stored.drop q)[0]? = some p := by rw [h.2]; rfl
  simpa using hget

theorem Filling.drop_succ {q : Nat} {p : Piece} {rest : List Piece} (h : s.Filling q p rest) :
    s.stored.drop (q + 1) = rest := by
  rw [← List.drop_drop, h.2]
  rfl

/-- The stamp is set: the slot is filled. -/
theorem Sound.ready (h : Sound add s) {q : Nat} {e : Entry} {p : Piece} {rest : List Piece}
    (hfill : s.Filling q p rest) (hholds : (s.slot q).Holds p) :
    Sound add (fillNext { s with slots := Stamped.mark ringSlots s.slots q, filled := q + 1 } q e rest) := by
  have hget := hfill.getElem?
  have hdrop := hfill.drop_succ
  have hlt : q < s.seq := by
    obtain ⟨hlt, -⟩ := List.getElem?_eq_some_iff.mp hget
    rwa [h.seq]
  obtain ⟨rfl, -⟩ := hfill
  have hdone : Sound add
      { s with slots := Stamped.mark ringSlots s.slots s.filled, filled := s.filled + 1, producer := .dead } := by
    refine h.setSlots (by omega) (by omega) (h.slots.mark ⟨p, hget, hholds⟩) ?_ trivial
    intro q hq hhas
    rcases Stamped.has_mark hhas with rfl | ⟨-, hold⟩
    · omega
    · exact hold
  cases rest with
  | nil =>
      have hlen := congrArg List.length hdrop
      rw [List.length_drop, List.length_nil, ← h.seq] at hlen
      have hpush := hdone.pushDone (show s.filled + 1 = s.seq by omega) e
      cases e <;> exact hpush
  | cons p' rest => exact hdone.setProducer (p := .clear (s.filled + 1) e p' rest) ⟨rfl, hdrop⟩

theorem Holds_update {cell : Cell} {p : Piece} {k : Nat} (h : cell.Holds ⟨p.kind, p.slen, p.bytes.take k⟩)
    (hk : k < p.bytes.length) :
    Cell.Holds { cell with body := Function.update cell.body k (p.bytes.getD k 0) }
      ⟨p.kind, p.slen, p.bytes.take (k + 1)⟩ := by
  obtain ⟨hkind, hslen, hbody⟩ := h
  refine ⟨hkind, hslen, fun j b hj => ?_⟩
  rw [List.getElem?_take] at hj
  split at hj
  case isTrue hlt =>
    by_cases hjk : j = k
    · subst hjk
      simp [List.getD_eq_getElem?_getD, hj]
    · have hb := hbody j b (by rw [List.getElem?_take, if_pos (by omega)]; exact hj)
      simpa [hjk] using hb
  case isFalse => cases hj

theorem Sound.produce (h : Sound add s) (choice : Bool) : Sound add (s.produce choice) := by
  have hok := h.producer
  unfold Sys.produce
  cases hproc : s.producer with
  | idle => exact h
  | dead => exact h
  | wait e =>
      rw [hproc] at hok
      simp only
      split
      · exact h.setProducer hok
      · exact h
  | claim e =>
      rw [hproc] at hok
      simp only
      split
      case h_1 => exact h
      case h_2 p rest hpieces => exact h.claim hok.1 hok.2 hpieces
  | clear q e p rest =>
      rw [hproc] at hok
      exact h.setSlots le_rfl h.filled h.slots.clear (fun _ _ hq => (Stamped.has_clear hq).2) ⟨hok, by simp⟩
  | kind q e p rest =>
      rw [hproc] at hok
      exact h.storeItem hok.2 _ ⟨hok.1, by simpa using hok.2, by simp [slot]⟩
  | slen q e p rest =>
      rw [hproc] at hok
      obtain ⟨hfill, hzero, hkind⟩ := hok
      refine h.storeItem hzero _ ⟨hfill, by simpa using hzero, ?_⟩
      simpa [slot, Cell.Holds] using hkind
  | body q e p rest k =>
      rw [hproc] at hok
      obtain ⟨hfill, hzero, hholds⟩ := hok
      simp only
      split
      case isTrue hk =>
        refine h.storeItem hzero _ ⟨hfill, by simpa using hzero, ?_⟩
        simpa [slot] using Holds_update hholds hk
      case isFalse hk =>
        rw [List.take_of_length_le (by omega)] at hholds
        exact h.setProducer ⟨hfill, hzero, hholds⟩
  | ready q e p rest =>
      rw [hproc] at hok
      exact h.ready hok.1 hok.2.2
  | pushed height =>
      rw [hproc] at hok
      exact { h with producer := hok }
  | unlink =>
      rw [hproc] at hok
      refine { h with file := nofun, producer := hok, worker := ?_ }
      intro w hw
      rcases h.worker w hw with hvalid | ⟨hvalid, hdropped⟩
      · exact .inl hvalid
      · refine .inr ⟨hvalid, ?_⟩
        cases hphase : w.phase <;> simp_all [Dropped]
  | rename height =>
      rw [hproc] at hok
      obtain ⟨hfilled, hoff, hmarked⟩ := hok
      simp only
      split
      case isTrue =>
        refine { h with file := ?_, producer := hfilled, worker := ?_ }
        · rintro height' t hfile
          cases hfile
          exact hmarked
        · intro w hw
          change s.worker = some w at hw
          rw [h.no_worker hoff] at hw
          cases hw
      case isFalse => exact h.invalidateLocal hfilled
  | reap =>
      rw [hproc] at hok
      have hnone : Sound add { s with worker := none } :=
        { h with producer := by rw [hproc]; exact hok, running := nofun, worker := nofun }
      exact hnone.stopped rfl hok

theorem Sound.look (h : Sound add s) : Sound add s.look := by
  have hok := h.producer
  unfold Sys.look
  cases hproc : s.producer with
  | wait e =>
      rw [hproc] at hok
      simp only
      split
      case isTrue => exact h
      case isFalse hgone => exact h.pushGone (by simpa using hgone) hok.1 e
  | reap =>
      rw [hproc] at hok
      simp only
      split
      case isTrue => exact h
      case isFalse hgone => exact h.stopped (by simpa using hgone) hok
  | _ => exact h

end Pushes

/-! ## The worker -/

section Folds

variable {s : Sys σ} {w : Worker σ} {g : Generation σ} {taken done queue : List Entry} {r : Entry}

theorem Sound.setWorker (h : Sound add s) (hw : s.worker = some w) {w' : Worker σ} (hok : s.WorkerOk add w') :
    Sound add (s.setWorker w') :=
  { h with
    running := fun _ => h.running (by simp [hw])
    worker := by
      rintro v hv
      cases hv
      exact hok }

theorem Follows.goto (hfol : Follows add s.gens s.ring s.filled s.slots w g taken done queue)
    (hvalid : w.valid = true) (phase : Phase)
    (hreads : Reads s.filled (Stamped.Has ringSlots s.slots) w.cursor w.head taken queue phase) :
    s.WorkerOk add { w with phase := phase } :=
  .inl ⟨hvalid, g, taken, done, queue, hfol.gens, hfol.log, hfol.ring, hfol.cursor, hfol.totals, hreads⟩

/-- The record in front is folded. -/
theorem Follows.take (hfol : Follows add s.gens s.ring s.filled s.slots w g taken done queue)
    (hvalid : w.valid = true) (hfront : Front w.cursor w.head queue r) {totals : Totals σ} {n : Nat} {phase : Phase}
    (htotals : totals = w.totals.apply add r) (hn : n = r.pieces.length)
    (hreads : ∀ queue', Ahead (w.cursor + n) w.head queue' →
      Reads s.filled (Stamped.Has ringSlots s.slots) (w.cursor + n) w.head (taken ++ [r]) queue' phase) :
    s.WorkerOk add { w with cursor := w.cursor + n, totals := totals, phase := phase } := by
  subst hn
  obtain ⟨queue', rfl, hahead⟩ := hfront.behind
  refine .inl ⟨hvalid, g, taken ++ [r], done ++ [r], queue', hfol.gens, ?_, ?_, ?_, ?_, hreads queue' hahead⟩
  · rw [hfol.log, List.append_assoc]
    rfl
  · rw [hfol.ring, List.append_assoc]
    rfl
  · simp [hfol.cursor]
  · rw [htotals, hfol.totals, Totals.replay_append, Totals.replay_singleton]

theorem Follows.marked {m : Entry} {pre : List Entry}
    (hfol : Follows add s.gens s.ring s.filled s.slots w g (pre ++ [m]) done queue)
    (hmark : ∀ t : Totals σ, t.apply add m = t) : Marked add s.gens m w.totals := by
  obtain ⟨gs, hgens⟩ := hfol.gens
  refine ⟨g, hgens ▸ List.mem_cons_self, pre, ⟨queue, hfol.log.symm⟩, ?_⟩
  rw [hfol.totals, Totals.replay_append, Totals.replay_singleton, hmark]

/-- Under its stamp a slot has the piece of the record in front. -/
theorem Follows.loads (h : Sound add s) (hfol : Follows add s.gens s.ring s.filled s.slots w g taken done queue)
    (hfront : Front w.cursor w.head queue r) {i : Nat} {p : Piece} (hp : r.pieces[i]? = some p)
    (hhas : Stamped.Has ringSlots s.slots (w.cursor + i)) : (s.slot (w.cursor + i)).Holds p := by
  obtain ⟨-, p', hp', hholds⟩ := h.slots _ hhas
  obtain ⟨queue', rfl, -⟩ := hfront.behind
  have hstored : s.stored = done.flatMap Entry.pieces ++ (r.pieces ++ queue'.flatMap Entry.pieces) := by
    rw [stored, hfol.ring]
    simp
  obtain ⟨hlt, -⟩ := List.getElem?_eq_some_iff.mp hp
  rw [hstored, hfol.cursor, slotsOf, List.getElem?_append_right (by omega), Nat.add_sub_cancel_left,
    List.getElem?_append_left hlt, hp] at hp'
  cases hp'
  exact hholds

theorem WorkerOk.invalidate {n : Nat} {next : Phase} (hquiet : next.Quiet) : s.WorkerOk add (w.invalidate n next) :=
  .inr ⟨rfl, hquiet⟩

theorem Follows.poll (hfol : Follows add s.gens s.ring s.filled s.slots w g taken done queue)
    (hvalid : w.valid = true) : s.WorkerOk add { w with phase := .poll } :=
  hfol.goto hvalid _ trivial

theorem length_head_le (c : CoinRec) : c.head.length ≤ bodyBytes := by
  simp only [CoinRec.head, List.length_append, List.length_ofFn, length_leBytes, List.length_take, inlineBytes,
    bodyBytes, hdrBytes]
  omega

theorem Follows.takeCoin (hfol : Follows add s.gens s.ring s.filled s.slots w g taken done queue)
    (hvalid : w.valid = true) {isAdd : Bool} {c : CoinRec} (hfront : Front w.cursor w.head queue (.coin isAdd c))
    {body : List UInt8} (hbody : c.head <+: body) : s.WorkerOk add (w.takeCoin add isAdd c.script.length body) := by
  have hscript := inlineScript_of_isPrefix hbody
  unfold Worker.takeCoin
  split
  case isTrue => exact WorkerOk.invalidate trivial
  case isFalse =>
    split
    case isTrue hlong =>
      split
      case isTrue => exact hfol.poll hvalid
      case isFalse =>
        refine hfol.goto hvalid _ ⟨c, hfront, hbody, rfl, rfl, ?_, hscript⟩
        have hslots := length_le_slots c.script hlong
        by_contra hzero
        have hzero' : contSlots c.script.length = 0 := Nat.eq_zero_of_not_pos hzero
        rw [hzero'] at hslots
        omega
    case isFalse hshort =>
      have hnone : contSlots c.script.length = 0 := by simp [contSlots, hshort]
      rw [List.take_of_length_le (by omega)] at hscript
      refine hfol.take hvalid hfront ?_ (by simp [hnone]) fun queue' hahead => hahead
      rw [if_pos hvalid, hscript, decodeCoin_of_isPrefix isAdd hbody]

/-- A first slot read under its stamp is that of the record in front. -/
theorem Follows.dispatch (hfol : Follows add s.gens s.ring s.filled s.slots w g taken done queue)
    (hvalid : w.valid = true) (hfront : Front w.cursor w.head queue r) {p : Piece} (hp : r.pieces[0]? = some p)
    {bytes : List UInt8} (hbytes : Agrees p.bytes bytes) (hlen : bodyBytes ≤ bytes.length) :
    s.WorkerOk add (w.dispatch add p.kind p.slen bytes) := by
  cases r with
  | coin isAdd c =>
      cases hp
      have hlt : c.script.length < 2 ^ 32 := length_lt_of_slots (by simpa using hfront.length_le)
      have hslen : (UInt32.ofNat c.script.length).toNat = c.script.length := by
        simpa using Nat.mod_eq_of_lt hlt
      have hbody := hbytes.isPrefix ((length_head_le c).trans hlen)
      have htake := hfol.takeCoin hvalid hfront hbody
      rw [← hslen] at htake
      cases isAdd <;> exact htake
  | row height =>
      cases hp
      have hheight := decodeHeight_of_isPrefix (hbytes.isPrefix ((show 8 ≤ bodyBytes by decide).trans hlen))
      simp only [Worker.dispatch, hheight]
      rw [if_pos hvalid]
      refine hfol.take hvalid hfront rfl rfl ?_
      exact fun queue' hahead => ⟨hahead, taken, rfl⟩
  | commit height =>
      cases hp
      have hheight := decodeHeight_of_isPrefix (hbytes.isPrefix ((show 8 ≤ bodyBytes by decide).trans hlen))
      simp only [Worker.dispatch, hheight]
      rw [if_pos hvalid]
      refine hfol.take hvalid hfront rfl rfl ?_
      exact fun queue' hahead => ⟨hahead, taken, rfl⟩
  | inval =>
      cases hp
      exact WorkerOk.invalidate trivial
  | stop =>
      cases hp
      exact hfol.take hvalid hfront rfl rfl fun queue' hahead => hahead

theorem Follows.takeChunk (hfol : Follows add s.gens s.ring s.filled s.slots w g taken done queue)
    (hvalid : w.valid = true) {p : Part} {c : CoinRec} (hc : ContOk w.cursor w.head queue p c) :
    s.WorkerOk add (w.takeChunk add p (chunk c.script p.chunks)) := by
  have hscript : p.script ++ chunk c.script p.chunks =
      c.script.take (inlineBytes + bodyBytes * (p.chunks + 1)) := by
    rw [hc.script, take_append_chunk]
  have hn := hc.n
  have hchunks := hc.chunks
  unfold Worker.takeChunk
  split
  case isTrue hmore =>
    refine hfol.goto hvalid _ ⟨c, hc.front, hc.body, hc.slen, hc.n, ?_, hscript⟩
    show p.chunks + 1 < contSlots c.script.length
    omega
  case isFalse hlast =>
    split
    case isTrue => exact WorkerOk.invalidate trivial
    case isFalse =>
      have hlong : inlineBytes < c.script.length := by
        by_contra hshort
        simp [contSlots, hshort] at hchunks
      have hend : p.chunks + 1 = contSlots c.script.length := by omega
      have hall := length_le_slots c.script hlong
      rw [hend, List.take_of_length_le hall] at hscript
      refine hfol.take hvalid hc.front ?_ (by simp [hn]) fun queue' hahead => hahead
      rw [if_pos hvalid, hscript, decodeCoin_of_isPrefix p.isAdd hc.body]

end Folds

section Runs

variable {s : Sys σ} {w : Worker σ}

theorem Sound.consume_valid (h : Sound add s) (hw : s.worker = some w) {g : Generation σ}
    {taken done queue : List Entry} (hvalid : w.valid = true)
    (hfol : Follows add s.gens s.ring s.filled s.slots w g taken done queue) (choice : Bool) :
    Sound add (s.consume add w choice) := by
  have hreads := hfol.reads
  unfold Sys.consume
  cases hphase : w.phase with
  | poll =>
      simp only
      split
      case isTrue => exact h.setWorker hw (.inr ⟨rfl, trivial⟩)
      case isFalse hfits =>
        refine h.setWorker hw (.inl ⟨hvalid, g, taken, done, queue, hfol.gens, hfol.log, hfol.ring, hfol.cursor,
          hfol.totals, ⟨queue, [], by simp, ?_, ?_⟩⟩)
        all_goals
          have hseq : s.seq = slotsOf (done ++ queue) := hfol.ring ▸ h.seq
          have hcursor := hfol.cursor
          rw [slotsOf_append] at hseq
        · exact hseq.trans (by rw [hcursor])
        · omega
  | unlink next =>
      rw [hphase] at hreads
      exact hreads.elim
  | check =>
      rw [hphase] at hreads
      refine h.setWorker hw (hfol.goto hvalid _ ?_)
      split
      case isTrue hready => exact ⟨(h.slots _ hready.2).1, hreads.front hready.1⟩
      case isFalse => trivial
  | kind =>
      rw [hphase] at hreads
      obtain ⟨hlt, r, hfront⟩ := hreads
      obtain ⟨p, hp⟩ : ∃ p, r.pieces[0]? = some p := ⟨_, List.getElem?_eq_getElem r.length_pieces_pos⟩
      exact h.setWorker hw (hfol.goto hvalid _ ⟨hlt, r, p, hfront, hp, fun hhas => (hfol.loads h hfront hp hhas).1⟩)
  | slen kind =>
      rw [hphase] at hreads
      obtain ⟨hlt, r, p, hfront, hp, hload⟩ := hreads
      exact h.setWorker hw (hfol.goto hvalid _ ⟨hlt, r, p, hfront, hp, fun hhas =>
        ⟨hload hhas, (hfol.loads h hfront hp hhas).2.1, agrees_nil p.bytes⟩⟩)
  | body kind slen bytes =>
      rw [hphase] at hreads
      obtain ⟨hlt, r, p, hfront, hp, hload⟩ := hreads
      have hload' : Stamped.Has ringSlots s.slots w.cursor → kind = p.kind ∧ slen = p.slen ∧
          Agrees p.bytes (bytes ++ [(s.slot w.cursor).body bytes.length]) := by
        intro hhas
        obtain ⟨hkind, hslen, hbytes⟩ := hload hhas
        exact ⟨hkind, hslen, hbytes.snoc fun a ha => (hfol.loads h hfront hp hhas).2.2 _ a ha⟩
      refine h.setWorker hw (hfol.goto hvalid _ ?_)
      split
      case isTrue => exact ⟨hlt, r, p, hfront, hp, hload'⟩
      case isFalse hfull => exact ⟨hlt, by omega, r, p, hfront, hp, hload'⟩
  | again kind slen bytes =>
      rw [hphase] at hreads
      obtain ⟨hlt, hlen, r, p, hfront, hp, hload⟩ := hreads
      refine h.setWorker hw ?_
      split
      case isTrue hhas =>
        obtain ⟨rfl, rfl, hbytes⟩ := hload hhas
        exact hfol.dispatch hvalid hfront hp hbytes hlen
      case isFalse => exact hfol.poll hvalid
  | contReady p =>
      rw [hphase] at hreads
      refine h.setWorker hw (hfol.goto hvalid _ ?_)
      split
      case isTrue hhas => exact ⟨(h.slots _ hhas).1, hreads⟩
      case isFalse => trivial
  | contSlen p =>
      rw [hphase] at hreads
      obtain ⟨hlt, c, hc⟩ := hreads
      refine h.setWorker hw (hfol.goto hvalid _ ⟨hlt, c, hc, fun hhas => ?_⟩)
      have hslen := (hfol.loads h hc.front (getElem?_pieces_coin hc.chunks) hhas).2.1
      have hsmall := length_chunk_le c.script p.chunks
      simp only [bodyBytes] at hsmall
      rw [Nat.add_assoc, hslen, contPiece]
      simp
      omega
  | contKind p cl =>
      rw [hphase] at hreads
      obtain ⟨hlt, c, hc, hload⟩ := hreads
      refine h.setWorker hw ?_
      split
      case isTrue => exact WorkerOk.invalidate trivial
      case isFalse =>
        exact hfol.goto hvalid _ ⟨hlt, Nat.zero_le _, c, hc, fun hhas => ⟨hload hhas, agrees_nil _⟩⟩
  | contBody p cl got =>
      rw [hphase] at hreads
      obtain ⟨hlt, hlen, c, hc, hload⟩ := hreads
      refine h.setWorker hw (hfol.goto hvalid _ ?_)
      split
      case isTrue hmore =>
        refine ⟨hlt, by simp; omega, c, hc, fun hhas => ?_⟩
        obtain ⟨hcl, hgot⟩ := hload hhas
        exact ⟨hcl, hgot.snoc fun a ha =>
          (hfol.loads h hc.front (getElem?_pieces_coin hc.chunks) hhas).2.2 _ a ha⟩
      case isFalse hfull =>
        refine ⟨hlt, c, hc, fun hhas => ?_⟩
        obtain ⟨hcl, hgot⟩ := hload hhas
        exact hgot.eq (by omega)
  | contAgain p got =>
      rw [hphase] at hreads
      obtain ⟨hlt, c, hc, hload⟩ := hreads
      refine h.setWorker hw ?_
      split
      case isTrue hhas =>
        rw [hload hhas]
        exact hfol.takeChunk hvalid hc
      case isFalse => exact hfol.poll hvalid
  | rename height =>
      rw [hphase] at hreads
      obtain ⟨hahead, pre, rfl⟩ := hreads
      simp only
      split
      case isTrue =>
        have hgo := h.setWorker hw (hfol.goto hvalid (.mark height) hahead)
        refine { hgo with file := ?_, worker := ?_ }
        · intro height' t hfile
          cases hfile
          exact hfol.marked fun _ => rfl
        · rintro v hv
          cases hv
          exact .inl ⟨hvalid, g, _, done, queue, hfol.gens, hfol.log, hfol.ring, hfol.cursor, hfol.totals, hahead⟩
      case isFalse => exact h.setWorker hw (WorkerOk.invalidate trivial)
  | writeRow height =>
      rw [hphase] at hreads
      obtain ⟨hahead, pre, rfl⟩ := hreads
      have hgo := h.setWorker hw (hfol.goto hvalid (.publish false) hahead)
      refine { hgo with rows := ?_ }
      intro height' t hrow
      cases choice with
      | false => exact h.rows height' t hrow
      | true =>
          rcases List.mem_cons.mp hrow with heq | hrow
          · cases heq
            exact hfol.marked fun _ => rfl
          · exact h.rows height' t hrow
  | mark height =>
      rw [hphase] at hreads
      have hgo := h.setWorker hw (hfol.goto hvalid (.publish false) hreads)
      exact { hgo with file := h.file }
  | publish stop =>
      rw [hphase] at hreads
      cases stop with
      | false =>
          have hgo := h.setWorker hw (hfol.goto hvalid .check hreads)
          exact { hgo with file := h.file }
      | true => exact { h with running := nofun, worker := nofun }

/-- A worker without totals goes on with its loop. -/
theorem WorkerOk.quiet (hvalid : w.valid = false) (hfile : s.file = none) (hquiet : w.phase.Quiet) :
    s.WorkerOk add w := by
  refine .inr ⟨hvalid, ?_⟩
  cases hphase : w.phase <;> simp_all [Dropped, Phase.Quiet]

theorem WorkerOk.takeCoin (hvalid : w.valid = false) (hfile : s.file = none) (isAdd : Bool) (slen : Nat)
    (body : List UInt8) : s.WorkerOk add (w.takeCoin add isAdd slen body) := by
  unfold Worker.takeCoin
  split
  case isTrue => exact WorkerOk.invalidate trivial
  case isFalse =>
    split
    case isTrue => split <;> exact WorkerOk.quiet hvalid hfile trivial
    case isFalse => exact WorkerOk.quiet hvalid hfile trivial

theorem WorkerOk.dispatch (hvalid : w.valid = false) (hfile : s.file = none) (kind : Kind) (slen : UInt32)
    (body : List UInt8) : s.WorkerOk add (w.dispatch add kind slen body) := by
  cases kind with
  | add => exact WorkerOk.takeCoin hvalid hfile ..
  | remove => exact WorkerOk.takeCoin hvalid hfile ..
  | inval => exact WorkerOk.invalidate trivial
  | _ => exact WorkerOk.quiet hvalid hfile (by simp [Worker.dispatch, hvalid, Phase.Quiet])

theorem WorkerOk.takeChunk (hvalid : w.valid = false) (hfile : s.file = none) (p : Part) (got : List UInt8) :
    s.WorkerOk add (w.takeChunk add p got) := by
  unfold Worker.takeChunk
  split
  case isTrue => exact WorkerOk.quiet hvalid hfile trivial
  case isFalse =>
    split
    case isTrue => exact WorkerOk.invalidate trivial
    case isFalse => exact WorkerOk.quiet hvalid hfile trivial

theorem Sound.consume_dropped (h : Sound add s) (hw : s.worker = some w) (hvalid : w.valid = false)
    (hdropped : Dropped s.file w.phase) (choice : Bool) : Sound add (s.consume add w choice) := by
  unfold Sys.consume
  cases hphase : w.phase with
  | unlink next =>
      rw [hphase] at hdropped
      have hgo : Sound add (Sys.setWorker { s with file := none } { w with phase := next }) :=
        { h with
          file := nofun
          running := fun _ => h.running (by simp [hw])
          worker := by
            rintro v hv
            cases hv
            exact WorkerOk.quiet hvalid rfl hdropped }
      exact hgo
  | rename height =>
      rw [hphase] at hdropped
      exact hdropped.1.elim
  | writeRow height =>
      rw [hphase] at hdropped
      exact hdropped.1.elim
  | poll =>
      have hfile := hdropped.file (by simp [hphase])
      simp only
      split
      case isTrue => exact h.setWorker hw (.inr ⟨rfl, trivial⟩)
      case isFalse => exact h.setWorker hw (WorkerOk.quiet hvalid hfile trivial)
  | again kind slen bytes =>
      have hfile := hdropped.file (by simp [hphase])
      refine h.setWorker hw ?_
      split
      case isTrue => exact WorkerOk.dispatch hvalid hfile kind slen bytes
      case isFalse => exact WorkerOk.quiet hvalid hfile trivial
  | contKind p cl =>
      have hfile := hdropped.file (by simp [hphase])
      refine h.setWorker hw ?_
      split
      case isTrue => exact WorkerOk.invalidate trivial
      case isFalse => exact WorkerOk.quiet hvalid hfile trivial
  | contAgain p got =>
      have hfile := hdropped.file (by simp [hphase])
      refine h.setWorker hw ?_
      split
      case isTrue => exact WorkerOk.takeChunk hvalid hfile p got
      case isFalse => exact WorkerOk.quiet hvalid hfile trivial
  | mark height =>
      have hfile := hdropped.file (by simp [hphase])
      have hgo := h.setWorker hw (WorkerOk.quiet (w := { w with phase := .publish false }) hvalid hfile trivial)
      exact { hgo with file := h.file }
  | publish stop =>
      have hfile := hdropped.file (by simp [hphase])
      cases stop with
      | false =>
          have hgo := h.setWorker hw (WorkerOk.quiet (w := { w with phase := .check }) hvalid hfile trivial)
          exact { hgo with file := h.file }
      | true => exact { h with running := nofun, worker := nofun }
  | _ =>
      have hfile := hdropped.file (by simp [hphase])
      refine h.setWorker hw (WorkerOk.quiet hvalid hfile ?_)
      try split
      all_goals trivial

theorem Sound.call (h : Sound add s) {next : Sys σ} (hnext : s.producer = .idle → Sound add next) :
    Sound add (s.call next) := by
  unfold Sys.call
  split
  case h_1 hidle => exact hnext hidle
  case h_2 => exact h

theorem Sound.step (h : Sound add s) (a : Action σ) : Sound add (s.step add a) := by
  cases a with
  | onCoin isAdd c => exact h.call fun hidle => h.onCoin hidle isAdd c
  | onBlock height wrote => exact h.call fun hidle => h.onBlock hidle height wrote
  | commit height => exact h.call fun hidle => h.commit hidle height
  | invalidate => exact h.call h.invalidate
  | seed walk height ok wrote => exact h.call fun hidle => h.seed hidle walk height ok wrote
  | start forked => exact h.call fun hidle => h.start hidle forked
  | stop => exact h.call h.stop
  | produce choice => exact h.produce choice
  | look => exact h.look
  | consume choice =>
      simp only [Sys.step]
      split
      case h_1 => exact h
      case h_2 w hw =>
        rcases h.worker w hw with ⟨hvalid, g, taken, done, queue, hfol⟩ | ⟨hvalid, hdropped⟩
        · exact h.consume_valid hw hvalid hfol choice
        · exact h.consume_dropped hw hvalid hdropped choice
  | killProducer => exact h.setProducer trivial
  | killWorker =>
      refine { h with producer := ?_, running := nofun, worker := nofun }
      have hok := h.producer
      change ProducerOk add { s with worker := none } s.producer
      cases hproc : s.producer <;> rw [hproc] at hok <;> exact hok

theorem Sound.run (h : Sound add s) (acts : List (Action σ)) : Sound add (s.run add acts) := by
  induction acts generalizing s with
  | nil => exact h
  | cons a as ih => exact ih (h.step a)

end Runs

/-- Whatever the order of steps, what the file and the rows have is the fold of exactly what
was pushed before a marker; and a worker that lost its place has removed the file before it
goes on. -/
theorem persisted_or_dropped (add : σ → CoinRec → σ) (file : Option (Int64 × Totals σ)) (empty : Totals σ)
    (applied : Int64) (acts : List (Action σ)) :
    (∀ h t, (run add (boot file empty applied) acts).file = some (h, t) →
      Marked add (run add (boot file empty applied) acts).gens (.commit h) t) ∧
    (∀ h t, (run add (boot file empty applied) acts).csiRpcRun = some (h, t) →
      Marked add (run add (boot file empty applied) acts).gens (.commit h) t) ∧
    (∀ h t, (h, t) ∈ (run add (boot file empty applied) acts).rows →
      Marked add (run add (boot file empty applied) acts).gens (.row h) t) ∧
    ∀ w, (run add (boot file empty applied) acts).worker = some w → w.phase = .poll →
      (w.valid = true ∧ ∃ g gs taken, (run add (boot file empty applied) acts).gens = g :: gs ∧
        taken <+: g.log ∧ w.totals = g.base.replay add taken) ∨
      (w.valid = false ∧ (run add (boot file empty applied) acts).file = none) := by
  have h : Sound add (run add (boot file empty applied) acts) := (sound_boot file empty applied).run acts
  refine ⟨h.file, ?_, h.rows, ?_⟩
  · intro height t hserved
    refine h.file height t ?_
    unfold csiRpcRun at hserved
    split at hserved
    · cases hserved
    · exact hserved
  · intro w hw hphase
    rcases h.worker w hw with ⟨hvalid, g, taken, done, queue, hfol⟩ | ⟨hvalid, hdropped⟩
    · obtain ⟨gs, hgens⟩ := hfol.gens
      exact .inl ⟨hvalid, g, gs, taken, hgens, ⟨queue, hfol.log.symm⟩, hfol.totals⟩
    · exact .inr ⟨hvalid, hdropped.file (by simp [hphase])⟩

end Sys

end BitcoinMachineCode.Storage.StatsRing
