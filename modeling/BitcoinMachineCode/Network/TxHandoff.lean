import BitcoinMachineCode.Foundation.CyclicBuffer
import BitcoinMachineCode.Foundation.Digits

/-!
# The transaction handoff ring

`daemon/tx_handoff.c` queues the transactions of inbound peers for the worker in one shared
ring of bytes.  Producers take turns under a robust mutex and publish a record by moving
`head`; the consumer takes `[tail, head)` without a lock and publishes `tail`.

A step is one load or store, of a byte of the ring, a counter or the mutex.  A producer may
die before any of its steps; a mutex whose holder is dead goes to the next who asks.
-/

namespace BitcoinMachineCode.Network.TxHandoff

open BitcoinMachineCode.Foundation Cyclic

def ringBytes : Nat := 8 <<< 20

def maxTx : Nat := 400000

structure Rec where
  tx : List UInt8
  slot : Int32
  deriving DecidableEq

/-- The header, two words, and the transaction. -/
def Rec.encode (r : Rec) : List UInt8 :=
  leBytes 4 r.tx.length ++ (leBytes 4 r.slot.toUInt32.toNat ++ r.tx)

def recBytes (len : Nat) : Nat := 8 + (len + 7) / 8 * 8

def Rec.room (r : Rec) : Nat := recBytes r.tx.length

/-- What a producer does next in `txho_push`. -/
inductive Producer where
  | idle
  | dead
  | lock (r : Rec)
  | loadHead (r : Rec)
  | loadTail (r : Rec) (head : Nat)
  | put (r : Rec) (head k : Nat)
  | storeHead (r : Rec) (head : Nat)
  | unlock

/-- What the consumer does next in `txho_drain`, with how many it may still hand on. -/
inductive Consumer where
  | idle
  | loadHead (left : Nat)
  | loadTail (left head : Nat)
  | getHeader (left head tail : Nat) (hdr : List UInt8)
  | getBody (left tail len : Nat) (slot : Int32) (tx : List UInt8)
  | storeTail (left tail : Nat) (r : Rec)
  | call (left : Nat) (r : Rec)

/-- The shared ring and its processes, with the records published and handed on so far. -/
structure Handoff where
  buf : Nat → UInt8
  head : Nat
  tail : Nat
  mu : Option Nat
  producers : Nat → Producer
  consumer : Consumer
  published : List Rec
  handed : List Rec
  corrupt : Bool

def Handoff.init : Handoff := ⟨fun _ => 0, 0, 0, none, fun _ => .idle, .idle, [], [], false⟩

inductive Action where
  | push (p : Nat) (r : Rec)
  | produce (p : Nat)
  | die (p : Nat)
  | drain (max : Nat)
  | consume

def Producer.isDead : Producer → Bool
  | .dead => true
  | _ => false

/-- The phases in which a producer holds the mutex. -/
def Producer.holds : Producer → Bool
  | .loadHead _ => true
  | .loadTail _ _ => true
  | .put _ _ _ => true
  | .storeHead _ _ => true
  | .unlock => true
  | _ => false

def Consumer.pending : Consumer → List Rec
  | .call _ r => [r]
  | _ => []

namespace Handoff

def setProducer (s : Handoff) (p : Nat) (next : Producer) : Handoff :=
  { s with producers := Function.update s.producers p next }

def free (s : Handoff) : Bool :=
  match s.mu with
  | none => true
  | some q => (s.producers q).isDead

/-- One step of `txho_push`; a producer that waits for the mutex stays where it is. -/
def produce (s : Handoff) (p : Nat) : Handoff :=
  match s.producers p with
  | .idle => s
  | .dead => s
  | .lock r => if s.free then { s.setProducer p (.loadHead r) with mu := some p } else s
  | .loadHead r => s.setProducer p (.loadTail r s.head)
  | .loadTail r head =>
      s.setProducer p (if ringBytes < head - s.tail + recBytes r.tx.length then .unlock else .put r head 0)
  | .put r head k =>
      { s.setProducer p (if k + 1 < r.encode.length then .put r head (k + 1) else .storeHead r head) with
        buf := Cyclic.put ringBytes s.buf (head + k) (r.encode.getD k 0) }
  | .storeHead r head =>
      { s.setProducer p .unlock with
        head := head + recBytes r.tx.length
        published := s.published ++ [r] }
  | .unlock => { s.setProducer p .idle with mu := none }

/-- One step of `txho_drain`. -/
def consume (s : Handoff) : Handoff :=
  match s.consumer with
  | .idle => s
  | .loadHead left => { s with consumer := .loadTail left s.head }
  | .loadTail left head =>
      { s with consumer := if s.tail = head then .idle else .getHeader left head s.tail [] }
  | .getHeader left head tail hdr =>
      let hdr := hdr ++ [s.buf ((tail + hdr.length) % ringBytes)]
      if hdr.length < 8 then { s with consumer := .getHeader left head tail hdr }
      else
        let len := leVal (hdr.take 4)
        if len = 0 ∨ maxTx < len ∨ head - tail < recBytes len then
          { s with tail := head, consumer := .idle, corrupt := true }
        else
          { s with consumer := .getBody left tail len (UInt32.ofNat (leVal (hdr.drop 4))).toInt32 [] }
  | .getBody left tail len slot tx =>
      let tx := tx ++ [s.buf ((tail + 8 + tx.length) % ringBytes)]
      { s with consumer := if tx.length < len then .getBody left tail len slot tx
                           else .storeTail left tail ⟨tx, slot⟩ }
  | .storeTail left tail r => { s with tail := tail + recBytes r.tx.length, consumer := .call left r }
  | .call left r =>
      { s with
        handed := s.handed ++ [r]
        consumer := if 1 < left then .loadHead (left - 1) else .idle }

/-- An action that is not open to its process changes nothing; a push of no bytes, or of too
many, returns at once. -/
def step (s : Handoff) : Action → Handoff
  | .push p r =>
      match s.producers p with
      | .idle => if r.tx.length = 0 ∨ maxTx < r.tx.length then s else s.setProducer p (.lock r)
      | _ => s
  | .produce p => s.produce p
  | .die p => s.setProducer p .dead
  | .drain max =>
      match s.consumer with
      | .idle => if 0 < max then { s with consumer := .loadHead max } else s
      | _ => s
  | .consume => s.consume

def run (s : Handoff) (acts : List Action) : Handoff := acts.foldl step s

end Handoff

/-! ## Records in the ring -/

def Rec.Fits (r : Rec) : Prop := 0 < r.tx.length ∧ r.tx.length ≤ maxTx

theorem Rec.length_encode (r : Rec) : r.encode.length = 8 + r.tx.length := by
  simp [encode, length_leBytes]
  omega

theorem Rec.length_encode_le (r : Rec) : r.encode.length ≤ r.room := by
  have hlen := r.length_encode
  unfold room recBytes
  omega

theorem Rec.leVal_take (r : Rec) (h : r.Fits) : leVal ((r.encode.take 8).take 4) = r.tx.length := by
  have htake : (r.encode.take 8).take 4 = leBytes 4 r.tx.length := by
    rw [List.take_take, encode, List.take_append_of_le_length (by simp [length_leBytes]),
      List.take_of_length_le (by simp [length_leBytes])]
  have hmax : r.tx.length ≤ 400000 := h.2
  rw [htake, leVal_leBytes, Nat.mod_eq_of_lt (by omega)]

theorem Rec.leVal_drop (r : Rec) : (UInt32.ofNat (leVal ((r.encode.take 8).drop 4))).toInt32 = r.slot := by
  have hdrop : (r.encode.take 8).drop 4 = leBytes 4 r.slot.toUInt32.toNat := by
    rw [List.drop_take, encode, List.drop_append_of_le_length (by simp [length_leBytes]),
      List.drop_of_length_le (by simp [length_leBytes]), List.nil_append,
      List.take_append_of_le_length (by simp [length_leBytes]),
      List.take_of_length_le (by simp [length_leBytes])]
  have hlt : r.slot.toUInt32.toNat < 256 ^ 4 := r.slot.toUInt32.toNat_lt
  rw [hdrop, leVal_leBytes, Nat.mod_eq_of_lt hlt, UInt32.ofNat_toNat, Int32.toInt32_toUInt32]

/-- The byte after the header bytes, or the header and the bytes of a transaction, already read. -/
theorem Rec.take_encode_snoc {buf : Nat → UInt8} {r : Rec} {pos n : Nat} (h : Holds ringBytes buf pos r.encode)
    (hn : n < r.encode.length) :
    r.encode.take n ++ [buf ((pos + n) % ringBytes)] = r.encode.take (n + 1) := by
  rw [List.take_add_one, h n _ (List.getElem?_eq_getElem hn), List.getElem?_eq_getElem hn]
  rfl

theorem Rec.take_tx_snoc {buf : Nat → UInt8} {r : Rec} {pos n : Nat} (h : Holds ringBytes buf pos r.encode)
    (hn : n < r.tx.length) : r.tx.take n ++ [buf ((pos + 8 + n) % ringBytes)] = r.tx.take (n + 1) := by
  have hbyte : r.encode[8 + n]? = r.tx[n]? := by
    rw [encode, ← List.append_assoc, List.getElem?_append_right (by simp [length_leBytes])]
    simp [length_leBytes]
  rw [Nat.add_assoc, List.take_add_one, h (8 + n) _ (hbyte.trans (List.getElem?_eq_getElem hn)),
    List.getElem?_eq_getElem hn]
  rfl

namespace Handoff

/-! ## The invariant -/

/-- What was taken out of the ring: the records handed on and the one about to be. -/
def taken (s : Handoff) : List Rec := s.handed ++ s.consumer.pending

def ProducerOk (s : Handoff) : Producer → Prop
  | .idle => True
  | .dead => True
  | .lock r => r.Fits
  | .loadHead r => r.Fits
  | .loadTail r head => r.Fits ∧ head = s.head
  | .put r head k => r.Fits ∧ head = s.head ∧ head + r.room ≤ s.tail + ringBytes ∧ k < r.encode.length ∧
      Holds ringBytes s.buf head (r.encode.take k)
  | .storeHead r head => r.Fits ∧ head = s.head ∧ Holds ringBytes s.buf head r.encode
  | .unlock => True

def ConsumerOk (s : Handoff) (queue : List Rec) : Consumer → Prop
  | .idle => True
  | .loadHead _ => True
  | .loadTail _ head => ∃ seen, seen <+: queue ∧ head = s.tail + span Rec.room seen
  | .getHeader _ head tail hdr => tail = s.tail ∧ hdr.length < 8 ∧
      ∃ r rest, queue = r :: rest ∧ r.room ≤ head - tail ∧ hdr = r.encode.take hdr.length
  | .getBody _ tail len slot tx => tail = s.tail ∧ tx.length < len ∧
      ∃ r rest, queue = r :: rest ∧ len = r.tx.length ∧ slot = r.slot ∧ tx = r.tx.take tx.length
  | .storeTail _ tail r => tail = s.tail ∧ ∃ rest, queue = r :: rest
  | .call _ _ => True

/-- The bytes from `tail` to `head` are the records published and not yet taken; what a
producer has in hand lies behind them and less than a turn past `tail`. -/
structure Sound (s : Handoff) (queue : List Rec) : Prop where
  published : s.published = s.taken ++ queue
  fits : ∀ r ∈ queue, r.Fits
  head : s.head = s.tail + span Rec.room queue
  framed : Framed Rec.encode Rec.room ringBytes s.buf s.tail queue
  locked : ∀ p, (s.producers p).holds = true → s.mu = some p
  producer : ∀ p, s.ProducerOk (s.producers p)
  consumer : s.ConsumerOk queue s.consumer
  whole : s.corrupt = false

theorem sound_init : Sound init [] where
  published := rfl
  fits := by simp
  head := rfl
  framed := trivial
  locked := nofun
  producer := fun _ => trivial
  consumer := trivial
  whole := rfl

section Producers

variable {s : Handoff} {queue : List Rec} {p : Nat} {next : Producer}

/-- Off the mutex nothing of the ring matters. -/
theorem ProducerOk.of_not_holds {s' : Handoff} (h : s.ProducerOk next) (hholds : next.holds = false) :
    s'.ProducerOk next := by
  cases next <;> first | exact h | cases hholds

theorem Sound.not_holds (h : s.Sound queue) {q : Nat} (hmu : s.mu = some p) (hq : q ≠ p) :
    (s.producers q).holds = false := by
  by_contra hholds
  have hlocked := h.locked q (by simpa using hholds)
  rw [hmu] at hlocked
  exact hq (Option.some_inj.mp hlocked).symm

theorem Sound.setProducer (h : s.Sound queue) (hok : s.ProducerOk next)
    (hmu : next.holds = true → s.mu = some p) : (s.setProducer p next).Sound queue := by
  refine ⟨h.published, h.fits, h.head, h.framed, ?_, ?_, h.consumer, h.whole⟩
  · intro q hq
    by_cases hqp : q = p
    · subst hqp
      exact hmu (by simpa [Handoff.setProducer] using hq)
    · exact h.locked q (by simpa [Handoff.setProducer, hqp] using hq)
  · intro q
    change s.ProducerOk (Function.update s.producers p next q)
    by_cases hqp : q = p
    · subst hqp
      rwa [Function.update_self]
    · rw [Function.update_of_ne hqp]
      exact h.producer q

theorem Sound.no_holder (h : s.Sound queue) (hfree : s.free = true) (q : Nat) :
    (s.producers q).holds = false := by
  by_contra hholds
  have hmu := h.locked q (by simpa using hholds)
  simp only [free, hmu] at hfree
  cases hq : s.producers q <;> simp_all [Producer.isDead, Producer.holds]

theorem Sound.acquire (h : s.Sound queue) {r : Rec} (hproc : s.producers p = .lock r) (hfree : s.free = true) :
    Sound { s.setProducer p (.loadHead r) with mu := some p } queue := by
  have hfits : r.Fits := by
    have hok := h.producer p
    rwa [hproc] at hok
  refine ⟨h.published, h.fits, h.head, h.framed, ?_, ?_, h.consumer, h.whole⟩
  · intro q hq
    by_cases hqp : q = p
    · rw [hqp]
    · have hholds := h.no_holder hfree q
      simp [Handoff.setProducer, hqp, hholds] at hq
  · intro q
    by_cases hqp : q = p
    · subst hqp
      simpa [Handoff.setProducer, ProducerOk] using hfits
    · simpa [Handoff.setProducer, hqp] using (h.producer q).of_not_holds (h.no_holder hfree q)

theorem Sound.release (h : s.Sound queue) (hproc : s.producers p = .unlock) :
    Sound { s.setProducer p .idle with mu := none } queue := by
  have hmu : s.mu = some p := h.locked p (by rw [hproc]; rfl)
  refine ⟨h.published, h.fits, h.head, h.framed, ?_, ?_, h.consumer, h.whole⟩
  · intro q hq
    by_cases hqp : q = p
    · subst hqp
      simp [Handoff.setProducer, Producer.holds] at hq
    · have hholds := h.not_holds hmu hqp
      simp [Handoff.setProducer, hqp, hholds] at hq
  · intro q
    by_cases hqp : q = p
    · subst hqp
      simp [Handoff.setProducer, ProducerOk]
    · simpa [Handoff.setProducer, hqp] using (h.producer q).of_not_holds (h.not_holds hmu hqp)

/-- A producer that holds the mutex moves on and changes the ring behind `head`. -/
theorem Sound.holder (h : s.Sound queue) (hmu : s.mu = some p) (s' : Handoff)
    (hprocs : s'.producers = Function.update s.producers p next) (hmu' : s'.mu = some p)
    (hok : s'.ProducerOk next) :
    (∀ q, (s'.producers q).holds = true → s'.mu = some q) ∧ ∀ q, s'.ProducerOk (s'.producers q) := by
  have hother : ∀ q ≠ p, s'.producers q = s.producers q := fun q hq => by
    rw [hprocs, Function.update_of_ne hq]
  constructor
  · intro q hq
    by_cases hqp : q = p
    · rw [hqp, hmu']
    · have hholds := h.not_holds hmu hqp
      rw [hother q hqp, hholds] at hq
      cases hq
  · intro q
    by_cases hqp : q = p
    · subst hqp
      rwa [hprocs, Function.update_self]
    · rw [hother q hqp]
      exact (h.producer q).of_not_holds (h.not_holds hmu hqp)

theorem Sound.putByte (h : s.Sound queue) {r : Rec} {head k : Nat} (hproc : s.producers p = .put r head k) :
    Sound { s.setProducer p (if k + 1 < r.encode.length then .put r head (k + 1) else .storeHead r head) with
      buf := Cyclic.put ringBytes s.buf (head + k) (r.encode.getD k 0) } queue := by
  have hmu : s.mu = some p := h.locked p (by rw [hproc]; rfl)
  have hok := h.producer p
  rw [hproc] at hok
  obtain ⟨hfits, hhead, hroom, hk, hholds⟩ := hok
  have hle := r.length_encode_le
  have hend := h.head
  have hbyte : Holds ringBytes (Cyclic.put ringBytes s.buf (head + k) (r.encode.getD k 0)) head
      (r.encode.take (k + 1)) := by
    have hlen : (r.encode.take k).length = k := by simp; omega
    have hsnoc := hholds.snoc (r.encode.getD k 0) (by omega)
    rw [hlen] at hsnoc
    rw [List.take_add_one, List.getElem?_eq_getElem hk]
    simpa [hk] using hsnoc
  have hframed := h.framed.put Rec.length_encode_le (r.encode.getD k 0)
    (show s.tail + span Rec.room queue ≤ head + k by omega) (by omega)
  obtain ⟨hlocked, hproducer⟩ := h.holder hmu { s.setProducer p
    (if k + 1 < r.encode.length then .put r head (k + 1) else .storeHead r head) with
      buf := Cyclic.put ringBytes s.buf (head + k) (r.encode.getD k 0) } rfl hmu <| by
    split
    case isTrue hlt => exact ⟨hfits, hhead, hroom, hlt, hbyte⟩
    case isFalse hge =>
      rw [List.take_of_length_le (by omega)] at hbyte
      exact ⟨hfits, hhead, hbyte⟩
  exact ⟨h.published, h.fits, h.head, hframed, hlocked, hproducer, h.consumer, h.whole⟩

theorem ConsumerOk.append {s' : Handoff} {r : Rec} {c : Consumer} (h : s.ConsumerOk queue c)
    (htail : s'.tail = s.tail) : s'.ConsumerOk (queue ++ [r]) c := by
  cases c with
  | idle => trivial
  | loadHead left => trivial
  | loadTail left head =>
      obtain ⟨seen, hseen, hhead⟩ := h
      exact ⟨seen, hseen.trans (List.prefix_append ..), htail ▸ hhead⟩
  | getHeader left head tail hdr =>
      obtain ⟨ht, hlen, r', rest, hqueue, hrest⟩ := h
      exact ⟨htail ▸ ht, hlen, r', rest ++ [r], by simp [hqueue], hrest⟩
  | getBody left tail len slot tx =>
      obtain ⟨ht, hlen, r', rest, hqueue, hrest⟩ := h
      exact ⟨htail ▸ ht, hlen, r', rest ++ [r], by simp [hqueue], hrest⟩
  | storeTail left tail r' =>
      obtain ⟨ht, rest, hqueue⟩ := h
      exact ⟨htail ▸ ht, rest ++ [r], by simp [hqueue]⟩
  | call left r' => trivial

theorem Sound.publish (h : s.Sound queue) {r : Rec} {head : Nat} (hproc : s.producers p = .storeHead r head) :
    Sound { s.setProducer p .unlock with
      head := head + recBytes r.tx.length
      published := s.published ++ [r] } (queue ++ [r]) := by
  have hmu : s.mu = some p := h.locked p (by rw [hproc]; rfl)
  have hok := h.producer p
  rw [hproc] at hok
  obtain ⟨hfits, hhead, hholds⟩ := hok
  rw [hhead, h.head] at hholds
  obtain ⟨hlocked, hproducer⟩ := h.holder hmu { s.setProducer p .unlock with
      head := head + recBytes r.tx.length
      published := s.published ++ [r] } rfl hmu trivial
  refine ⟨?_, ?_, ?_, h.framed.append hholds, hlocked, hproducer, h.consumer.append rfl, h.whole⟩
  · change s.published ++ [r] = s.taken ++ (queue ++ [r])
    rw [h.published, List.append_assoc]
  · intro x hx
    rcases List.mem_append.mp hx with hx | hx
    · exact h.fits x hx
    · rw [List.mem_singleton.mp hx]
      exact hfits
  · change head + r.room = s.tail + span Rec.room (queue ++ [r])
    rw [hhead, h.head]
    simp [Nat.add_assoc]

/-- What one step of a producer keeps. -/
theorem Sound.produce (h : s.Sound queue) (p : Nat) : ∃ queue', (s.produce p).Sound queue' := by
  have hok := h.producer p
  unfold Handoff.produce
  cases hproc : s.producers p with
  | idle => exact ⟨queue, h⟩
  | dead => exact ⟨queue, h⟩
  | lock r =>
      simp only
      split
      case isTrue hfree => exact ⟨queue, h.acquire hproc hfree⟩
      case isFalse => exact ⟨queue, h⟩
  | loadHead r =>
      rw [hproc] at hok
      exact ⟨queue, h.setProducer ⟨hok, rfl⟩ fun _ => h.locked p (by rw [hproc]; rfl)⟩
  | loadTail r head =>
      rw [hproc] at hok
      obtain ⟨hfits, hhead⟩ := hok
      have hmu : s.mu = some p := h.locked p (by rw [hproc]; rfl)
      have hlen := r.length_encode
      have hend := h.head
      refine ⟨queue, h.setProducer ?_ fun _ => hmu⟩
      split
      case isTrue => trivial
      case isFalse hfull =>
        have hroom : head + r.room ≤ s.tail + ringBytes := by
          unfold Rec.room
          omega
        exact ⟨hfits, hhead, hroom, by omega, holds_nil s.buf head⟩
  | put r head k => exact ⟨queue, h.putByte hproc⟩
  | storeHead r head => exact ⟨queue ++ [r], h.publish hproc⟩
  | unlock => exact ⟨queue, h.release hproc⟩

end Producers

section Consumers

variable {s : Handoff} {queue : List Rec}

/-- Producers do not mind a consumer that takes from the front. -/
theorem ProducerOk.mono {s' : Handoff} {next : Producer} (h : s.ProducerOk next) (hbuf : s'.buf = s.buf)
    (hhead : s'.head = s.head) (htail : s.tail ≤ s'.tail) : s'.ProducerOk next := by
  cases next with
  | put r head k =>
      obtain ⟨hfits, heq, hroom, hk, hholds⟩ := h
      exact ⟨hfits, heq.trans hhead.symm, by omega, hk, hbuf ▸ hholds⟩
  | storeHead r head =>
      obtain ⟨hfits, heq, hholds⟩ := h
      exact ⟨hfits, heq.trans hhead.symm, hbuf ▸ hholds⟩
  | loadTail r head => exact ⟨h.1, h.2.trans hhead.symm⟩
  | idle => trivial
  | dead => trivial
  | lock r => exact h
  | loadHead r => exact h
  | unlock => trivial

/-- A step of the consumer inside its own data. -/
theorem Sound.setConsumer (h : s.Sound queue) {c : Consumer} (hpending : c.pending = s.consumer.pending)
    (hok : s.ConsumerOk queue c) : Sound { s with consumer := c } queue := by
  have htaken : { s with consumer := c }.taken = s.taken := by simp only [taken, hpending]
  refine ⟨htaken ▸ h.published, h.fits, h.head, h.framed, h.locked, ?_, ?_, h.whole⟩
  · exact fun p => (h.producer p).mono rfl rfl le_rfl
  · cases c <;> exact hok

theorem Sound.getHeader (h : s.Sound queue) {left head tail : Nat} {hdr : List UInt8}
    (hc : s.consumer = .getHeader left head tail hdr) : s.consume.Sound queue := by
  have hok := h.consumer
  rw [hc] at hok
  obtain ⟨htail, hlen, r, rest, hqueue, hroom, hhdr⟩ := hok
  have hframed := h.framed
  rw [hqueue, ← htail] at hframed
  have hfits : r.Fits := h.fits r (by simp [hqueue])
  have henc := r.length_encode
  have hread : hdr ++ [s.buf ((tail + hdr.length) % ringBytes)] = r.encode.take (hdr.length + 1) := by
    have hsnoc := Rec.take_encode_snoc hframed.1 (show hdr.length < r.encode.length by omega)
    rwa [← hhdr] at hsnoc
  have hpending : s.consumer.pending = [] := by rw [hc]; rfl
  have hlen' : (r.encode.take (hdr.length + 1)).length = hdr.length + 1 := by
    simp
    omega
  simp only [Handoff.consume, hc, hread]
  split
  case isTrue hlt =>
    refine h.setConsumer hpending.symm ⟨htail, hlt, r, rest, hqueue, hroom, ?_⟩
    rw [hlen']
  case isFalse hge =>
    have height : hdr.length + 1 = 8 := by omega
    rw [height, r.leVal_take hfits, r.leVal_drop]
    split
    case isTrue hcorrupt =>
      have hbytes : r.room = recBytes r.tx.length := rfl
      obtain ⟨hpos, hmax⟩ := hfits
      omega
    case isFalse =>
      exact h.setConsumer hpending.symm ⟨htail, hfits.1, r, rest, hqueue, rfl, rfl, by simp⟩

theorem Sound.getBody (h : s.Sound queue) {left tail len : Nat} {slot : Int32} {tx : List UInt8}
    (hc : s.consumer = .getBody left tail len slot tx) : s.consume.Sound queue := by
  have hok := h.consumer
  rw [hc] at hok
  obtain ⟨htail, hlen, r, rest, hqueue, rfl, rfl, htx⟩ := hok
  have hframed := h.framed
  rw [hqueue, ← htail] at hframed
  have hread : tx ++ [s.buf ((tail + 8 + tx.length) % ringBytes)] = r.tx.take (tx.length + 1) := by
    have hsnoc := Rec.take_tx_snoc hframed.1 hlen
    rwa [← htx] at hsnoc
  have hpending : s.consumer.pending = [] := by rw [hc]; rfl
  have hlen' : (r.tx.take (tx.length + 1)).length = tx.length + 1 := by
    simp
    omega
  simp only [Handoff.consume, hc, hread]
  split
  case isTrue hlt =>
    refine h.setConsumer hpending.symm ⟨htail, hlt, r, rest, hqueue, rfl, rfl, ?_⟩
    rw [hlen']
  case isFalse hge =>
    refine h.setConsumer hpending.symm ⟨htail, rest, ?_⟩
    rw [List.take_of_length_le (by omega)]
    exact hqueue

/-- The consumer gives the room of the first record back. -/
theorem Sound.storeTail (h : s.Sound queue) {left tail : Nat} {r : Rec}
    (hc : s.consumer = .storeTail left tail r) : s.consume.Sound queue.tail := by
  have hok := h.consumer
  rw [hc] at hok
  obtain ⟨htail, rest, rfl⟩ := hok
  have hend := h.head
  rw [span_cons] at hend
  have hframed := h.framed
  rw [← htail] at hframed
  have htaken : s.taken = s.handed := by simp [taken, hc, Consumer.pending]
  have hpublished := h.published
  rw [htaken] at hpublished
  simp only [Handoff.consume, hc]
  refine ⟨?_, fun x hx => h.fits x (List.mem_cons_of_mem _ hx), ?_, hframed.2, h.locked, ?_, trivial, h.whole⟩
  · simpa [taken, Consumer.pending] using hpublished
  · change s.head = tail + r.room + span Rec.room rest
    omega
  · exact fun p => (h.producer p).mono rfl rfl (by rw [← htail]; exact Nat.le_add_right ..)

theorem Sound.call (h : s.Sound queue) {left : Nat} {r : Rec} (hc : s.consumer = .call left r) :
    s.consume.Sound queue := by
  have htaken : s.taken = s.handed ++ [r] := by simp [taken, hc, Consumer.pending]
  simp only [Handoff.consume, hc]
  refine ⟨?_, h.fits, h.head, h.framed, h.locked, ?_, ?_, h.whole⟩
  · rw [h.published, htaken]
    split <;> simp [taken, Consumer.pending]
  · exact fun p => (h.producer p).mono rfl rfl le_rfl
  · split <;> trivial

/-- What one step of the consumer keeps. -/
theorem Sound.consume (h : s.Sound queue) : ∃ queue', s.consume.Sound queue' := by
  have hok := h.consumer
  cases hc : s.consumer with
  | idle =>
      simp only [Handoff.consume, hc]
      exact ⟨queue, h⟩
  | loadHead left =>
      simp only [Handoff.consume, hc]
      exact ⟨queue, h.setConsumer (by rw [hc]; rfl) ⟨queue, List.prefix_rfl, h.head⟩⟩
  | loadTail left head =>
      rw [hc] at hok
      obtain ⟨seen, ⟨rest, hrest⟩, hhead⟩ := hok
      simp only [Handoff.consume, hc]
      refine ⟨queue, h.setConsumer ?_ ?_⟩
      · rw [hc]
        split <;> rfl
      · split
        case isTrue => trivial
        case isFalse hne =>
          cases seen with
          | nil => simp [hhead] at hne
          | cons r seen =>
              rw [span_cons] at hhead
              exact ⟨rfl, by simp, r, seen ++ rest, hrest.symm, by omega, rfl⟩
  | getHeader left head tail hdr => exact ⟨queue, h.getHeader hc⟩
  | getBody left tail len slot tx => exact ⟨queue, h.getBody hc⟩
  | storeTail left tail r => exact ⟨queue.tail, h.storeTail hc⟩
  | call left r => exact ⟨queue, h.call hc⟩

end Consumers

theorem Sound.step {s : Handoff} {queue : List Rec} (h : s.Sound queue) (a : Action) :
    ∃ queue', (s.step a).Sound queue' := by
  cases a with
  | push p r =>
      simp only [Handoff.step]
      split
      · split
        case isTrue => exact ⟨queue, h⟩
        case isFalse hfits => exact ⟨queue, h.setProducer (show r.Fits by unfold Rec.Fits; omega) nofun⟩
      · exact ⟨queue, h⟩
  | produce p => exact h.produce p
  | die p => exact ⟨queue, h.setProducer trivial nofun⟩
  | drain max =>
      simp only [Handoff.step]
      split
      case h_1 hc =>
        split
        case isTrue => exact ⟨queue, h.setConsumer (by rw [hc]; rfl) trivial⟩
        case isFalse => exact ⟨queue, h⟩
      case h_2 => exact ⟨queue, h⟩
  | consume => exact h.consume

theorem Sound.run {s : Handoff} {queue : List Rec} (h : s.Sound queue) (acts : List Action) :
    ∃ queue', (s.run acts).Sound queue' := by
  induction acts generalizing s queue with
  | nil => exact ⟨queue, h⟩
  | cons a as ih =>
      obtain ⟨queue', h'⟩ := h.step a
      exact ih h'

/-- What the consumer hands on is what was published, in order, up to a point. -/
theorem handed_prefix_published (acts : List Action) :
    (init.run acts).handed <+: (init.run acts).published ∧ (init.run acts).corrupt = false := by
  obtain ⟨queue, h⟩ := sound_init.run acts
  refine ⟨?_, h.whole⟩
  rw [h.published, taken, List.append_assoc]
  exact List.prefix_append ..

-- A producer dies over the bytes of its header; the next one overwrites them.
example : (init.run (.push 0 ⟨[1, 2], 3⟩ :: List.replicate 6 (.produce 0) ++ .die 0 ::
    .push 1 ⟨[7], -2⟩ :: List.replicate 14 (.produce 1) ++ .drain 1 :: List.replicate 13 .consume)).handed =
      [⟨[7], -2⟩] := by
  decide

end Handoff

end BitcoinMachineCode.Network.TxHandoff
