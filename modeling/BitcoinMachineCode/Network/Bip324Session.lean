import BitcoinMachineCode.Network.Bip324

/-!
# Two transports and the wire between them

An initiator and a responder with ideal ciphers.  Messages are sent on either side, bytes
leave the send buffer and arrive in pieces of any size, and each side reads when it likes.
-/

namespace BitcoinMachineCode.Network

open Foundation

variable {K : CipherSuite}

/-! ## Sending -/

/-- The one-byte id, or a zero byte and the name in twelve bytes; none for a name that is
too long. -/
def encodeContents (m : Message) : Option (List UInt8) :=
  match bip324ShortidFor m.type with
  | some id => some (UInt8.ofNat id :: m.payload)
  | none =>
      if 12 < m.type.length then none
      else some (0 :: (m.type ++ List.replicate (12 - m.type.length) 0 ++ m.payload))

def bip324TSendMessage (t : Transport K) (m : Message) : Bool × Transport K :=
  match t.out.cipher with
  | none => (false, t)
  | some cipher =>
      if bip324MaxMessageLen < m.payload.length then (false, t)
      else
        match encodeContents m with
        | none => (false, t)
        | some contents =>
            let (pkt, cipher') := K.encrypt cipher contents [] false
            (true, { t with
              out := { t.out with send := t.out.send ++ pkt, cipher := some cipher' } })

theorem sendMessage_cases (t : Transport K) (m : Message) :
    bip324TSendMessage t m = (false, t) ∨
      ∃ cipher contents, t.out.cipher = some cipher ∧
        m.payload.length ≤ bip324MaxMessageLen ∧ encodeContents m = some contents ∧
        bip324TSendMessage t m = (true, { t with
          out := { t.out with
            send := t.out.send ++ (K.encrypt cipher contents [] false).1
            cipher := some (K.encrypt cipher contents [] false).2 } }) := by
  unfold bip324TSendMessage
  cases hcipher : t.out.cipher with
  | none => exact .inl rfl
  | some cipher =>
      by_cases hlong : bip324MaxMessageLen < m.payload.length
      · exact .inl (if_pos hlong)
      · cases hcontents : encodeContents m with
        | none => exact .inl (if_neg hlong)
        | some contents => exact .inr ⟨cipher, contents, rfl, not_lt.mp hlong, rfl, if_neg hlong⟩

/-- What the receiver measures: the type's one or thirteen bytes and the payload. -/
def contentsLength (m : Message) : Nat :=
  (if (bip324ShortidFor m.type).isSome then 1 else 13) + m.payload.length

/-- Nonempty printable names of at most twelve bytes. -/
def ValidType (type : List UInt8) : Prop :=
  type ≠ [] ∧ type.length ≤ 12 ∧ ∀ b ∈ type, 0x20 ≤ b ∧ b < 0x7f

theorem encodeContents_length {m : Message} {contents : List UInt8}
    (h : encodeContents m = some contents) : contents.length = contentsLength m := by
  unfold encodeContents at h
  unfold contentsLength
  split at h
  next id hid =>
    cases h
    simp [hid, add_comm]
  next hid =>
    split_ifs at h with hlong
    cases h
    simp [hid]
    omega

theorem bip324ShortidName_for {type : List UInt8} {id : Nat}
    (h : bip324ShortidFor type = some id) :
    UInt8.ofNat id ≠ 0 ∧ bip324ShortidName (UInt8.ofNat id) = some type := by
  unfold bip324ShortidFor at h
  obtain ⟨i, hi, rfl⟩ := Option.map_eq_some_iff.mp h
  obtain ⟨hlt, hget, -⟩ := List.findIdx?_eq_some_iff_getElem.mp hi
  have hlen : i < 28 := hlt
  have hnat : (UInt8.ofNat (i + 1)).toNat = i + 1 := by
    rw [UInt8.toNat_ofNat']
    omega
  constructor
  · intro hzero
    have := congrArg UInt8.toNat hzero
    rw [hnat] at this
    simp at this
  · unfold bip324ShortidName
    rw [hnat, Nat.add_sub_cancel, List.getElem?_eq_getElem hlt]
    simpa using hget

theorem decode_encode {m : Message} {contents : List UInt8} (hvalid : ValidType m.type)
    (h : encodeContents m = some contents) : decodeContents contents = some m := by
  obtain ⟨-, hlen, hbytes⟩ := hvalid
  unfold encodeContents at h
  split at h
  next id hid =>
    cases h
    obtain ⟨hne, hname⟩ := bip324ShortidName_for hid
    rw [decodeContents, if_neg hne, hname, Option.map_some]
  next hid =>
    split_ifs at h with hlong
    cases h
    have hname : (m.type ++ List.replicate (12 - m.type.length) 0).length = 12 := by
      simp
      omega
    have hnonzero : ∀ b ∈ m.type, decide (b ≠ 0) = true := fun b hb => by
      have h20 := (hbytes b hb).1
      simp only [ne_eq, decide_eq_true_eq]
      rintro rfl
      exact absurd h20 (by decide)
    have hwhile : (m.type ++ List.replicate (12 - m.type.length) 0).takeWhile (· ≠ 0) =
        m.type := by
      rw [List.takeWhile_append_of_pos hnonzero, List.takeWhile_replicate]
      simp
    have hafter : (m.type ++ List.replicate (12 - m.type.length) 0).dropWhile (· ≠ 0) =
        List.replicate (12 - m.type.length) 0 := by
      rw [List.dropWhile_append_of_pos hnonzero, List.dropWhile_replicate]
      simp
    have hprintable : validLongType (m.type ++ List.replicate (12 - m.type.length) 0) := by
      unfold validLongType
      rw [hwhile, hafter, Bool.and_eq_true, List.all_eq_true, List.all_eq_true]
      constructor
      · intro b hb
        exact decide_eq_true ⟨(hbytes b hb).1, UInt8.le_of_lt (hbytes b hb).2⟩
      · intro b hb
        simpa using List.eq_of_mem_replicate hb
    rw [decodeContents, if_pos rfl, List.take_left' hname, List.drop_left' hname, hwhile,
      if_pos ⟨by simp; omega, hprintable⟩]

/-! ## Ideal ciphers -/

/-- The sessions two sides key with each other.  A packet opens to what was encrypted at the
same place of the stream, as long as its length fits the three bytes it is told in. -/
structure IdealCiphers (K : CipherSuite) (ident : Bool → Identity) where
  send : Bool → K.Send
  recv : Bool → K.Recv
  Sync : K.Send → K.Recv → Prop
  keyed : ∀ side, K.init (ident side).seckey.1 (ident side).ellswift.1
    (ident (!side)).ellswift.1 (ident side).netMagic.1 (ident side).initiator =
      some (send side, recv side)
  terminator : ∀ side, K.sendGarbageTerminator (send side) =
    K.recvGarbageTerminator (recv (!side))
  sync : ∀ side, Sync (send side) (recv (!side))
  opens : ∀ s r contents aad ignore, Sync s r → contents.length < 2 ^ 24 →
    (K.encrypt s contents aad ignore).1.length =
        contents.length + bip324LengthLen + bip324HeaderLen + bip324AeadExpansion ∧
      ∃ r₁ r₂, K.decryptLength r ((K.encrypt s contents aad ignore).1.take bip324LengthLen) =
          (contents.length, r₁) ∧
        K.decrypt r₁ ((K.encrypt s contents aad ignore).1.drop bip324LengthLen) aad =
          (some (contents, ignore), r₂) ∧
        Sync (K.encrypt s contents aad ignore).2 r₂

/-- Packets one after the other, and the cipher behind the last. -/
def packets (s : K.Send) : List (List UInt8) → List UInt8 × K.Send
  | [] => ([], s)
  | contents :: more =>
      let (pkt, s') := K.encrypt s contents [] false
      (pkt ++ (packets s' more).1, (packets s' more).2)

theorem packets_append (s : K.Send) (cs : List (List UInt8)) (contents : List UInt8) :
    packets s (cs ++ [contents]) =
      ((packets s cs).1 ++ (K.encrypt (packets s cs).2 contents [] false).1,
        (K.encrypt (packets s cs).2 contents [] false).2) := by
  induction cs generalizing s with
  | nil => simp [packets]
  | cons c cs ih => simp [packets, ih]

/-- A message that the receiver takes. -/
def Sendable (m : Message) : Prop :=
  ValidType m.type ∧ contentsLength m ≤ bip324MaxMessageLen

/-- What the sender's limit lets through, the receiver's does too. -/
def FitsBoth (m : Message) : Prop :=
  m.payload.length ≤ bip324MaxMessageLen → contentsLength m ≤ bip324MaxMessageLen

def contentsOf (m : Message) : List UInt8 := (encodeContents m).getD []

theorem encodeContents_eq {m : Message} (h : ValidType m.type) :
    encodeContents m = some (contentsOf m) := by
  unfold contentsOf encodeContents
  split
  · rfl
  · rw [if_neg (by have := h.2.1; omega)]
    rfl

section Streams

variable {ident : Bool → Identity} (I : IdealCiphers K ident)

/-- The two turns that take a packet: its length, and then what stands in it. -/
theorem packet_turns {s : K.Send} {r : K.Recv} (hsync : I.Sync s r) {contents : List UInt8}
    (hlen : contents.length ≤ bip324MaxMessageLen) (aad : List UInt8) (ignore : Bool) :
    ∃ r₁ r₂, I.Sync (K.encrypt s contents aad ignore).2 r₂ ∧
      (∀ resume rest, lengthTurn r resume ((K.encrypt s contents aad ignore).1 ++ rest) =
        .again (resume r₁ (some contents.length))
          ((K.encrypt s contents aad ignore).1.drop bip324LengthLen ++ rest) none) ∧
      (∀ resume opened rest, packetTurn r₁ contents.length aad resume opened
        ((K.encrypt s contents aad ignore).1.drop bip324LengthLen ++ rest) =
          opened r₂ contents ignore rest) := by
  have h24 : contents.length < 2 ^ 24 := hlen.trans_lt (by decide)
  obtain ⟨hpkt, r₁, r₂, hlength, hdecrypt, hsync'⟩ := I.opens s r contents aad ignore hsync h24
  generalize (K.encrypt s contents aad ignore).1 = pkt at hpkt hlength hdecrypt ⊢
  have hthree : bip324LengthLen ≤ pkt.length := by
    rw [hpkt]
    omega
  have hbody : (pkt.drop bip324LengthLen).length =
      contents.length + bip324HeaderLen + bip324AeadExpansion := by
    rw [List.length_drop, hpkt]
    omega
  refine ⟨r₁, r₂, hsync', fun resume rest => ?_, fun resume opened rest => ?_⟩
  · unfold lengthTurn
    rw [if_neg (by rw [List.length_append]; omega), List.take_append_of_le_length hthree,
      List.drop_append_of_le_length hthree, hlength]
    exact if_neg (not_lt.mpr hlen)
  · unfold packetTurn
    dsimp only
    rw [if_neg (by rw [List.length_append, hbody]; omega), List.take_left' hbody,
      List.drop_left' hbody, hdecrypt]

theorem yields_packet (id : Identity) {s : K.Send} {r : K.Recv} (hsync : I.Sync s r)
    {m : Message} (hm : Sendable m) (rest : List UInt8) :
    ∃ r', I.Sync (K.encrypt s (contentsOf m) [] false).2 r' ∧
      (receiver id).yields (.app r none none)
        ((K.encrypt s (contentsOf m) [] false).1 ++ rest) =
      (m :: ((receiver id).yields (.app r' none none) rest).1,
        ((receiver id).yields (.app r' none none) rest).2) := by
  have henc := encodeContents_eq hm.1
  have hlen : (contentsOf m).length ≤ bip324MaxMessageLen := by
    rw [encodeContents_length henc]
    exact hm.2
  obtain ⟨r₁, r₂, hsync', hfirst, hsecond⟩ := packet_turns I hsync hlen [] false
  refine ⟨r₂, hsync', ?_⟩
  have hturn₁ : (receiver id).turn (.app r none none)
      ((K.encrypt s (contentsOf m) [] false).1 ++ rest) =
      .again (.app r₁ (some (contentsOf m).length) none)
        ((K.encrypt s (contentsOf m) [] false).1.drop bip324LengthLen ++ rest) none :=
    hfirst (fun c n => .app c n none) rest
  have hturn₂ : (receiver id).turn (.app r₁ (some (contentsOf m).length) none)
      ((K.encrypt s (contentsOf m) [] false).1.drop bip324LengthLen ++ rest) =
      .done (.app r₂ none (some m)) rest := by
    refine (hsecond (fun c n => .app c n none) appOpened rest).trans ?_
    unfold appOpened
    rw [if_neg (by simp), decode_encode hm.1 henc]
  rw [Resumable.yields_again rfl hturn₁, Resumable.yields_done rfl hturn₂]
  exact Resumable.yields_ready rfl rest

theorem yields_packets (id : Identity) {s : K.Send} {r : K.Recv} (hsync : I.Sync s r)
    (ms : List Message) (hms : ∀ m ∈ ms, Sendable m) :
    (receiver id).yields (.app r none none) (packets s (ms.map contentsOf)).1 = (ms, true) := by
  induction ms generalizing s r with
  | nil => exact Resumable.yields_wait rfl rfl
  | cons m ms ih =>
      obtain ⟨hm, hms⟩ := List.forall_mem_cons.mp hms
      obtain ⟨r', hsync', hyields⟩ := yields_packet I id hsync hm
        (packets (K.encrypt s (contentsOf m) [] false).2 (ms.map contentsOf)).1
      rw [List.map_cons, packets, hyields, ih hsync' hms]

/-- All that a side sends for its messages, with the version packet first. -/
def streamOf (side : Bool) (garbage : List UInt8) (ms : List Message) : List UInt8 :=
  (ident side).ellswift.1 ++ garbage ++
    (K.sendGarbageTerminator (I.send side) ++ (K.encrypt (I.send side) [] garbage false).1) ++
    (packets (K.encrypt (I.send side) [] garbage false).2 (ms.map contentsOf)).1

/-- The terminator is not met before its own place. -/
def TerminatorFree (term garbage : List UInt8) : Prop :=
  ∀ i < garbage.length, ((garbage ++ term).drop i).take bip324GarbageTerminatorLen ≠ term

theorem scanTerminator_garbage {term garbage : List UInt8} (i : Nat) (rest : List UInt8)
    (hterm : term.length = bip324GarbageTerminatorLen) (hfree : TerminatorFree term garbage)
    (hlimit : i + garbage.length ≤ bip324MaxGarbageLen) :
    scanTerminator term i (garbage ++ (term ++ rest)) = .found (i + garbage.length) := by
  induction garbage generalizing i with
  | nil =>
      cases term with
      | nil => cases hterm
      | cons b term =>
          rw [List.nil_append, List.cons_append]
          unfold scanTerminator
          rw [← List.cons_append, if_neg (by rw [List.length_append]; omega),
            if_neg (by simpa using hlimit), if_pos (List.take_left' hterm)]
          rfl
  | cons g garbage ih =>
      have hnot : ((g :: garbage) ++ (term ++ rest)).take bip324GarbageTerminatorLen ≠ term := by
        have hfirst := hfree 0 (by simp)
        rw [List.drop_zero] at hfirst
        rwa [← List.append_assoc, List.take_append_of_le_length (by simp; omega)]
      have hfree' : TerminatorFree term garbage := fun j hj => by
        have hnext := hfree (j + 1) (by simpa using hj)
        rwa [List.cons_append, List.drop_succ_cons] at hnext
      rw [List.cons_append]
      unfold scanTerminator
      rw [← List.cons_append, if_neg (by simp [hterm]; omega), if_neg (by simp at hlimit; omega),
        if_neg hnot, ih (i + 1) hfree' (by simp at hlimit; omega)]
      simp
      omega

/-- The peer's stream yields the peer's messages. -/
theorem yields_streamOf (side : Bool) {garbage : List UInt8}
    (hgarbage : garbage.length ≤ bip324MaxGarbageLen)
    (hfree : TerminatorFree (K.sendGarbageTerminator (I.send side)) garbage)
    (ms : List Message) (hms : ∀ m ∈ ms, Sendable m) :
    (receiver (ident (!side))).yields (RecvState.key : RecvState K)
      (streamOf I side garbage ms) = (ms, true) := by
  have hzero : ([] : List UInt8).length ≤ bip324MaxMessageLen := Nat.zero_le _
  obtain ⟨r₁, r₂, hsync, hfirst, hsecond⟩ := packet_turns I (I.sync side) hzero garbage false
  have hyields := yields_packets I (ident (!side)) hsync ms hms
  have hterm := K.length_terminator (I.recv (!side))
  rw [← I.terminator side] at hterm
  unfold streamOf
  generalize hver : (K.encrypt (I.send side) [] garbage false).1 = ver at hfirst hsecond ⊢
  generalize (packets (K.encrypt (I.send side) [] garbage false).2 (ms.map contentsOf)).1 =
    pkts at hyields ⊢
  generalize hsend : K.sendGarbageTerminator (I.send side) = term at hfree hterm ⊢
  simp only [List.append_assoc]
  have hkeyed := I.keyed (!side)
  rw [Bool.not_not] at hkeyed
  have hell := (ident side).ellswift.2
  have hkey : (receiver (ident (!side))).turn (RecvState.key : RecvState K)
      ((ident side).ellswift.1 ++ (garbage ++ (term ++ (ver ++ pkts)))) =
      .again (.garbage (I.recv (!side))) (garbage ++ (term ++ (ver ++ pkts)))
        (some (.terminatorAndVersion (I.send (!side)))) := by
    simp only [receiver_turn, advanceTurn]
    rw [if_neg (by rw [List.length_append]; omega), List.take_left' hell, List.drop_left' hell,
      hkeyed]
  have hgarb : (receiver (ident (!side))).turn (.garbage (I.recv (!side)))
      (garbage ++ (term ++ (ver ++ pkts))) =
      .again (.version (I.recv (!side)) garbage none) (ver ++ pkts) none := by
    simp only [receiver_turn, advanceTurn]
    rw [← I.terminator side, hsend, scanTerminator_garbage 0 _ hterm hfree (by simpa using hgarbage)]
    simp only [Nat.zero_add]
    rw [List.take_left, ← List.append_assoc,
      List.drop_left' (by rw [List.length_append, hterm]; rfl)]
  have hlength : (receiver (ident (!side))).turn (.version (I.recv (!side)) garbage none)
      (ver ++ pkts) = .again (.version r₁ garbage (some 0)) (ver.drop bip324LengthLen ++ pkts)
        none := hfirst (fun c n => .version c garbage n) pkts
  have hversion : (receiver (ident (!side))).turn (.version r₁ garbage (some 0))
      (ver.drop bip324LengthLen ++ pkts) = .again (.app r₂ none none) pkts none :=
    hsecond (fun c n => .version c garbage n) versionOpened pkts
  rw [Resumable.yields_again rfl hkey, Resumable.yields_again rfl hgarb,
    Resumable.yields_again rfl hlength, Resumable.yields_again rfl hversion]
  exact hyields

end Streams

/-! ## The pair -/

structure Peer (K : CipherSuite) where
  transport : Transport K
  fed : List UInt8
  accepted : List Message
  delivered : List Message
  failed : Bool

namespace Peer

def start (t : Transport K) : Peer K := ⟨t, [], [], [], false⟩

def send (p : Peer K) (m : Message) : Peer K :=
  { p with
    transport := (bip324TSendMessage p.transport m).2
    accepted := if (bip324TSendMessage p.transport m).1 then p.accepted ++ [m] else p.accepted }

/-- `bip324_t_send_consume` -/
def flush (p : Peer K) (n : Nat) : Peer K :=
  { p with
    transport := { p.transport with
      out := { p.transport.out with send := p.transport.out.send.drop n } } }

def feed (p : Peer K) (data : List UInt8) : Peer K :=
  { p with
    transport := (bip324TFeed p.transport data).2
    fed := p.fed ++ data
    failed := p.failed || !(bip324TFeed p.transport data).1 }

def query (p : Peer K) : Peer K := { p with transport := (bip324THasMessage p.transport).2 }

def read (p : Peer K) : Peer K :=
  match bip324TNextMessage p.transport with
  | (.message m, t) => { p with transport := t, delivered := p.delivered ++ [m] }
  | (.none, t) => { p with transport := t }
  | (.violation, t) => { p with transport := t, failed := true }

end Peer

/-- Side `true` is the initiator; `wire side` is on its way from that side. -/
structure Pair (K : CipherSuite) where
  peer : Bool → Peer K
  wire : Bool → List UInt8

inductive Move where
  | send (side : Bool) (m : Message)
  | flush (side : Bool) (n : Nat)
  | arrive (side : Bool) (n : Nat)
  | query (side : Bool)
  | read (side : Bool)

namespace Pair

def start (t : Bool → Transport K) : Pair K := ⟨fun side => .start (t side), fun _ => []⟩

def move (q : Pair K) : Move → Pair K
  | .send side m => { q with peer := Function.update q.peer side ((q.peer side).send m) }
  | .flush side n =>
      { peer := Function.update q.peer side ((q.peer side).flush n)
        wire := Function.update q.wire side
          (q.wire side ++ (q.peer side).transport.out.send.take n) }
  | .arrive side n =>
      { peer := Function.update q.peer side ((q.peer side).feed ((q.wire (!side)).take n))
        wire := Function.update q.wire (!side) ((q.wire (!side)).drop n) }
  | .query side => { q with peer := Function.update q.peer side (q.peer side).query }
  | .read side => { q with peer := Function.update q.peer side (q.peer side).read }

def run (q : Pair K) (moves : List Move) : Pair K := moves.foldl move q

theorem run_append (q : Pair K) (moves more : List Move) :
    q.run (moves ++ more) = (q.run moves).run more :=
  List.foldl_append

end Pair

end BitcoinMachineCode.Network
