import BitcoinMachineCode.Network.Bip324Session

/-!
# What is sent is delivered

For each side, what it has queued is the front of one stream that its accepted messages
determine, and what the other side has read is what that stream yields so far.
-/

namespace BitcoinMachineCode.Network

open Foundation

variable {K : CipherSuite}

/-- With the keys there, a turn queues nothing and the keys stay. -/
def KeepsKeys : Turn (RecvState K) UInt8 (SendEffect K) → Prop
  | .again s _ e => keysReady s = true ∧ e = none
  | .done s _ => keysReady s = true
  | _ => True

theorem keepsKeys_lengthTurn (cipher : K.Recv) (resume : K.Recv → Option Nat → RecvState K)
    (hresume : ∀ c n, keysReady (resume c n) = true) (recv : List UInt8) :
    KeepsKeys (lengthTurn cipher resume recv) := by
  unfold lengthTurn
  dsimp only
  split_ifs
  · trivial
  · trivial
  · exact ⟨hresume _ _, rfl⟩

theorem keepsKeys_packetTurn (cipher : K.Recv) (n : Nat) (aad : List UInt8)
    (resume : K.Recv → Option Nat → RecvState K)
    (opened : K.Recv → List UInt8 → Bool → List UInt8 → Turn (RecvState K) UInt8 (SendEffect K))
    (hopened : ∀ c plain ignore recv, KeepsKeys (opened c plain ignore recv))
    (recv : List UInt8) : KeepsKeys (packetTurn cipher n aad resume opened recv) := by
  unfold packetTurn
  dsimp only
  split_ifs
  · trivial
  · split
    · trivial
    · exact hopened _ _ _ _

theorem keepsKeys_versionOpened (c : K.Recv) (plain : List UInt8) (ignore : Bool)
    (recv : List UInt8) : KeepsKeys (versionOpened c plain ignore recv) := by
  cases ignore <;> exact ⟨rfl, rfl⟩

theorem keepsKeys_appOpened (c : K.Recv) (plain : List UInt8) (ignore : Bool)
    (recv : List UInt8) : KeepsKeys (appOpened c plain ignore recv) := by
  unfold appOpened
  split_ifs
  · exact ⟨rfl, rfl⟩
  · split
    · exact ⟨rfl, rfl⟩
    · rfl

theorem keepsKeys_turn (ident : Identity) {state : RecvState K} (h : keysReady state = true)
    (recv : List UInt8) : KeepsKeys (advanceTurn ident state recv) := by
  cases state with
  | maybeV1 => cases h
  | key => cases h
  | garbage cipher =>
      simp only [advanceTurn]
      split
      · exact ⟨rfl, rfl⟩
      · trivial
      · trivial
  | version cipher recvGarbage pendingLen =>
      cases pendingLen with
      | none =>
          simp only [advanceTurn]
          exact keepsKeys_lengthTurn _ _ (fun _ _ => rfl) _
      | some n =>
          simp only [advanceTurn]
          exact keepsKeys_packetTurn _ _ _ _ _ keepsKeys_versionOpened _
  | app cipher pendingLen msg =>
      cases msg with
      | some msg => cases pendingLen <;> trivial
      | none =>
          cases pendingLen with
          | none =>
              simp only [advanceTurn]
              exact keepsKeys_lengthTurn _ _ (fun _ _ => rfl) _
          | some n =>
              simp only [advanceTurn]
              exact keepsKeys_packetTurn _ _ _ _ _ keepsKeys_appOpened _
  | v1 => cases h

section Delivery

variable {ident : Bool → Identity} (I : IdealCiphers K ident) (garbage : Bool → List UInt8)

/-- What a side has queued, sent or not: nothing before it knows that the peer speaks this
protocol, its key and garbage before the peer's key is there, and then its stream. -/
def Queued (side : Bool) (fed gone : List UInt8) (accepted : List Message)
    (state : RecvState K) (recv : List UInt8) (out : SendSide K) : Prop :=
  if keysReady state then
    gone ++ out.send = streamOf I side (garbage side) accepted ∧
      out.cipher = some (packets (K.encrypt (I.send side) [] (garbage side) false).2
        (accepted.map contentsOf)).2
  else
    recv = fed ∧ accepted = [] ∧ out.cipher = none ∧ out.sentGarbage = garbage side ∧
      (side = false ∧ state = .maybeV1 ∧ gone ++ out.send = [] ∨
        state = .key ∧ gone ++ out.send = (ident side).ellswift.1 ++ garbage side)

variable (ident) in
/-- What arrives begins like the peer's key. -/
def Begins (side : Bool) (fed : List UInt8) : Prop :=
  fed.take 64 <+: (ident (!side)).ellswift.1

variable (ident) in
/-- The initiator's key is not taken for the other protocol. -/
def NotV1 : Prop :=
  (ident true).ellswift.1.take bip324V1PrefixLen ≠ v1Prefix (ident false).netMagic

variable {I garbage}

theorem Begins.take_eq {side : Bool} {fed : List UInt8} (h : Begins ident side fed)
    (hlen : 64 ≤ fed.length) : fed.take 64 = (ident (!side)).ellswift.1 := by
  apply h.eq_of_length
  rw [List.length_take, (ident (!side)).ellswift.2]
  omega

theorem Queued.again {side : Bool} {fed gone : List UInt8} {accepted : List Message}
    {state s' : RecvState K} {recv rest : List UInt8} {out : SendSide K}
    {e : Option (SendEffect K)} (hbegins : Begins ident side fed)
    (h : Queued I garbage side fed gone accepted state recv out)
    (hturn : advanceTurn (ident side) state recv = .again s' rest e) :
    Queued I garbage side fed gone accepted s' rest
      (e.toList.foldl (SendSide.perform (ident side)) out) := by
  unfold Queued at h ⊢
  by_cases hk : keysReady state = true
  · have hkeeps := keepsKeys_turn (ident side) hk recv
    rw [hturn] at hkeeps
    obtain ⟨hk', rfl⟩ := hkeeps
    rw [if_pos hk] at h
    rw [if_pos hk']
    exact h
  · rw [if_neg hk] at h
    obtain ⟨rfl, rfl, hcipher, hgarbage, ⟨-, rfl, hsent⟩ | ⟨rfl, hsent⟩⟩ := h
    · simp only [advanceTurn] at hturn
      split_ifs at hturn
      cases hturn
      rw [if_neg (by simp [keysReady])]
      refine ⟨rfl, rfl, hcipher, hgarbage, .inr ⟨rfl, ?_⟩⟩
      simp only [Option.toList_some, List.foldl_cons, List.foldl_nil, SendSide.perform]
      rw [← List.append_assoc, hsent, hgarbage, List.nil_append]
    · simp only [advanceTurn] at hturn
      split_ifs at hturn with hlen
      rw [hbegins.take_eq (not_lt.mp hlen), I.keyed side] at hturn
      cases hturn
      have hk' : keysReady (RecvState.garbage (I.recv side)) = true := rfl
      rw [if_pos hk']
      simp only [Option.toList_some, List.foldl_cons, List.foldl_nil, SendSide.perform, hgarbage]
      refine ⟨?_, rfl⟩
      rw [← List.append_assoc, hsent]
      simp [streamOf, packets]

theorem Queued.done {side : Bool} {fed gone : List UInt8} {accepted : List Message}
    {state s' : RecvState K} {recv rest : List UInt8} {out : SendSide K}
    (hbegins : Begins ident side fed) (hv1 : NotV1 ident)
    (h : Queued I garbage side fed gone accepted state recv out)
    (hturn : advanceTurn (ident side) state recv = .done s' rest) :
    Queued I garbage side fed gone accepted s' rest out := by
  unfold Queued at h ⊢
  by_cases hk : keysReady state = true
  · have hkeeps := keepsKeys_turn (ident side) hk recv
    rw [hturn] at hkeeps
    have hk' : keysReady s' = true := hkeeps
    rw [if_pos hk] at h
    rw [if_pos hk']
    exact h
  · rw [if_neg hk] at h
    obtain ⟨rfl, -, -, -, ⟨rfl, rfl, -⟩ | ⟨rfl, -⟩⟩ := h
    · simp only [advanceTurn] at hturn
      split_ifs at hturn with hnil hdiff hlen
      -- the first bytes are the peer's key, which does not look like the other protocol
      have hwhole : (v1Prefix (ident false).netMagic).take recv.length =
          v1Prefix (ident false).netMagic :=
        List.take_of_length_le (by rw [length_v1Prefix]; exact hlen)
      rw [not_not, hwhole] at hdiff
      refine absurd ?_ hv1
      rw [← hdiff]
      have hle : recv.take bip324V1PrefixLen <+: (ident true).ellswift.1 := by
        refine List.IsPrefix.trans ?_ hbegins
        exact List.take_prefix_take_left (by decide)
      rw [List.prefix_iff_eq_take.mp hle]
      congr 1
      rw [List.length_take, min_eq_left hlen]
    · simp only [advanceTurn] at hturn
      split_ifs at hturn
      split at hturn <;> cases hturn

/-- A feed or a read that finds no violation keeps to what is queued. -/
theorem Queued.advance {side : Bool} {fed gone : List UInt8} {accepted : List Message}
    {t : Transport K} (hident : t.ident = ident side) (hbegins : Begins ident side fed)
    (hv1 : NotV1 ident)
    (h : Queued I garbage side fed gone accepted t.recvState t.recv t.out)
    (hok : (advance t).1 = true) :
    Queued I garbage side fed gone accepted (advance t).2.recvState (advance t).2.recv
      (advance t).2.out := by
  refine Resumable.advance_rule (M := receiver t.ident)
    (P := fun s bs es => Queued I garbage side fed gone accepted s bs
      (es.foldl (SendSide.perform t.ident) t.out)) ?_ ?_ h hok
  · intro s bs es s' rest e hq hturn
    rw [List.foldl_append]
    rw [hident] at hq hturn ⊢
    exact hq.again hbegins hturn
  · intro s bs es s' rest hq hturn
    rw [hident] at hturn
    exact hq.done hbegins hv1 hturn

/-! ## One side -/

variable (I garbage) in
/-- A side of a pair in good order; `gone` has left it for the other side. -/
structure Half (t₀ : Transport K) (side : Bool) (p : Peer K) (gone : List UInt8) : Prop where
  ident_eq : p.transport.ident = ident side
  good : p.failed = false
  sendable : ∀ m ∈ p.accepted, Sendable m
  queued : Queued I garbage side p.fed gone p.accepted p.transport.recvState p.transport.recv
    p.transport.out
  tracks : ∀ more, t₀.yields (p.fed ++ more) =
    (p.delivered ++ (p.transport.yields more).1, (p.transport.yields more).2)
  settled : keysReady p.transport.recvState = false →
    advanceTurn (ident side) p.transport.recvState p.transport.recv = .wait

theorem streamOf_nil (side : Bool) (g : List UInt8) (ms : List Message) :
    (ident side).ellswift.1 ++ g <+: streamOf I side g ms := by
  unfold streamOf
  rw [List.append_assoc, List.append_assoc]
  exact (List.prefix_append_right_inj _).mpr (List.prefix_append _ _)

/-- All that a side has queued is the front of its stream. -/
theorem Half.front {t₀ : Transport K} {side : Bool} {p : Peer K} {gone : List UInt8}
    (h : Half I garbage t₀ side p gone) :
    gone ++ p.transport.out.send <+: streamOf I side (garbage side) p.accepted := by
  have hq := h.queued
  unfold Queued at hq
  split_ifs at hq with hk
  · rw [hq.1]
  · obtain ⟨-, -, -, -, ⟨-, -, hsent⟩ | ⟨-, hsent⟩⟩ := hq
    · rw [hsent]
      exact List.nil_prefix
    · rw [hsent]
      exact streamOf_nil _ _ _

theorem Half.send {t₀ : Transport K} {side : Bool} {p : Peer K} {gone : List UInt8}
    (h : Half I garbage t₀ side p gone) {m : Message} (hm : ValidType m.type ∧ FitsBoth m) :
    Half I garbage t₀ side (p.send m) gone := by
  unfold Peer.send
  obtain heq | ⟨cipher, contents, hcipher, hlimit, hcontents, heq⟩ :=
    sendMessage_cases p.transport m
  · rw [heq]
    exact h
  · rw [heq]
    have hsendable : Sendable m := ⟨hm.1, hm.2 hlimit⟩
    obtain rfl : contentsOf m = contents :=
      Option.some_injective _ ((encodeContents_eq hm.1).symm.trans hcontents)
    have hq := h.queued
    unfold Queued at hq
    by_cases hk : keysReady p.transport.recvState = true
    · rw [if_pos hk] at hq
      obtain ⟨hsent, hlast⟩ := hq
      obtain rfl : cipher = _ := Option.some_injective _ (hcipher.symm.trans hlast)
      refine ⟨h.ident_eq, h.good, ?_, ?_, h.tracks, h.settled⟩
      · intro m' hm'
        rcases List.mem_append.mp hm' with hm' | hm'
        · exact h.sendable m' hm'
        · exact List.mem_singleton.mp hm' ▸ hsendable
      · unfold Queued
        rw [if_pos hk]
        simp only [if_true, List.map_append, List.map_cons, List.map_nil, packets_append,
          streamOf, ← List.append_assoc, hsent]
        exact ⟨trivial, trivial⟩
    · -- without keys there is no cipher to send with
      rw [if_neg hk] at hq
      rw [hq.2.2.1] at hcipher
      cases hcipher

theorem Half.flush {t₀ : Transport K} {side : Bool} {p : Peer K} {gone : List UInt8}
    (h : Half I garbage t₀ side p gone) (n : Nat) :
    Half I garbage t₀ side (p.flush n) (gone ++ p.transport.out.send.take n) := by
  refine ⟨h.ident_eq, h.good, h.sendable, ?_, h.tracks, h.settled⟩
  have hq := h.queued
  unfold Queued at hq ⊢
  simpa only [Peer.flush, List.append_assoc, List.take_append_drop] using hq

theorem Half.not_v1 {t₀ : Transport K} {side : Bool} {p : Peer K} {gone : List UInt8}
    (h : Half I garbage t₀ side p gone) : isV1 p.transport.recvState = false := by
  have hq := h.queued
  unfold Queued at hq
  cases hstate : p.transport.recvState with
  | v1 => simp [hstate, keysReady] at hq
  | _ => rfl

theorem Half.feed {t₀ : Transport K} {side : Bool} {p : Peer K} {gone data : List UInt8}
    (h : Half I garbage t₀ side p gone) (hbegins : Begins ident side (p.fed ++ data))
    (hv1 : NotV1 ident) (hok : (bip324TFeed p.transport data).1 = true) :
    Half I garbage t₀ side (p.feed data) gone := by
  have hstate := h.not_v1
  have hfeed : bip324TFeed p.transport data =
      advance { p.transport with recv := p.transport.recv ++ data } := by
    simp [bip324TFeed, hstate]
  have hok' : (advance { p.transport with recv := p.transport.recv ++ data }).1 = true :=
    hfeed ▸ hok
  have hq := h.queued
  have hqueued : Queued I garbage side (p.fed ++ data) gone p.accepted p.transport.recvState
      (p.transport.recv ++ data) p.transport.out := by
    unfold Queued at hq ⊢
    split_ifs at hq ⊢
    · exact hq
    · exact ⟨by rw [hq.1], hq.2⟩
  refine ⟨by simpa [Peer.feed] using h.ident_eq, ?_, h.sendable, ?_, fun more => ?_, fun _ => ?_⟩
  · simp [Peer.feed, h.good, hok]
  · have hnext := Queued.advance (t := { p.transport with recv := p.transport.recv ++ data })
      h.ident_eq hbegins hv1 hqueued hok'
    rw [← hfeed] at hnext
    exact hnext
  · simp only [Peer.feed]
    rw [List.append_assoc, h.tracks, yields_feed hok]
  · have hwait := Resumable.turn_advance hok'
    simp only [Peer.feed, hfeed]
    rw [← h.ident_eq]
    exact hwait

/-- Reading on with the keys there. -/
theorem Half.advance {t₀ : Transport K} {side : Bool} {p : Peer K} {gone : List UInt8}
    (h : Half I garbage t₀ side p gone) (hbegins : Begins ident side p.fed)
    (hv1 : NotV1 ident) (hok : (Network.advance p.transport).1 = true) :
    Half I garbage t₀ side { p with transport := (Network.advance p.transport).2 } gone := by
  refine ⟨h.ident_eq, h.good, h.sendable, h.queued.advance h.ident_eq hbegins hv1 hok,
    fun more => ?_, fun _ => ?_⟩
  · rw [h.tracks]
    simp only
    rw [yields_advance hok]
  · have hwait := Resumable.turn_advance hok
    rw [← h.ident_eq]
    exact hwait

theorem Half.query {t₀ : Transport K} {side : Bool} {p : Peer K} {gone : List UInt8}
    (h : Half I garbage t₀ side p gone) (hbegins : Begins ident side p.fed)
    (hv1 : NotV1 ident) (hok : (Network.advance p.transport).1 = true) :
    Half I garbage t₀ side p.query gone := by
  unfold Peer.query bip324THasMessage
  dsimp only
  split_ifs
  · exact h
  · exact h.advance hbegins hv1 hok
  · exact h

/-- What a read does: it hands out the message that waits, after reading on if need be. -/
theorem Half.collect {t₀ : Transport K} {side : Bool} {p : Peer K} {gone : List UInt8}
    {m : Message} {state : RecvState K} (h : Half I garbage t₀ side p gone)
    (hready : ready p.transport.recvState = some (m, state)) :
    Half I garbage t₀ side
      { p with
        transport := { p.transport with recvState := state }
        delivered := p.delivered ++ [m] } gone := by
  have hkeys : keysReady p.transport.recvState = true ∧ keysReady state = true := by
    cases hstate : p.transport.recvState with
    | app cipher pendingLen msg =>
        cases msg with
        | none => simp [hstate, ready] at hready
        | some msg =>
            simp only [hstate, ready, Option.some.injEq, Prod.mk.injEq] at hready
            obtain ⟨-, rfl⟩ := hready
            exact ⟨rfl, rfl⟩
    | _ => simp [hstate, ready] at hready
  refine ⟨h.ident_eq, h.good, h.sendable, ?_, fun more => ?_, fun hnot => ?_⟩
  · have hq := h.queued
    unfold Queued at hq ⊢
    rw [if_pos hkeys.1] at hq
    rw [if_pos hkeys.2]
    exact hq
  · have hyields : p.transport.yields more =
        (m :: (Transport.yields { p.transport with recvState := state } more).1,
          (Transport.yields { p.transport with recvState := state } more).2) :=
      Resumable.yields_ready hready _
    rw [h.tracks, hyields]
    simp
  · rw [hkeys.2] at hnot
    cases hnot

theorem Half.read {t₀ : Transport K} {side : Bool} {p : Peer K} {gone : List UInt8}
    (h : Half I garbage t₀ side p gone) (hbegins : Begins ident side p.fed)
    (hv1 : NotV1 ident) (hok : (Network.advance p.transport).1 = true) :
    Half I garbage t₀ side p.read gone := by
  have hcollect : ∀ t : Transport K, Half I garbage t₀ side { p with transport := t } gone →
      bip324TNextMessage p.transport = Network.collect t → Half I garbage t₀ side p.read gone := by
    intro t ht hnext
    unfold Peer.read
    rw [hnext]
    unfold Network.collect
    cases hready : ready t.recvState with
    | none => exact ht
    | some r => exact ht.collect hready
  unfold bip324TNextMessage at hcollect
  by_cases hready : (ready p.transport.recvState).isSome
  · rw [if_pos hready] at hcollect
    exact hcollect p.transport h rfl
  · rw [if_neg hready] at hcollect
    by_cases hkeys : ¬ keysReady p.transport.recvState
    · unfold Peer.read bip324TNextMessage
      rw [if_neg hready, if_pos hkeys]
      exact h
    · rw [if_neg hkeys] at hcollect
      simp only [hok, if_true] at hcollect
      exact hcollect _ (h.advance hbegins hv1 hok) rfl

/-! ## Both sides -/

variable (I garbage) in
def Linked (t₀ : Bool → Transport K) (q : Pair K) : Prop :=
  ∀ side, Half I garbage (t₀ side) side (q.peer side) ((q.peer (!side)).fed ++ q.wire side)

variable (I garbage) in
/-- What the two sides are started with. -/
structure Setup (t₀ : Bool → Transport K) : Prop where
  role : ∀ side, (ident side).initiator = side
  init : ∀ side, bip324TInit (ident side) (garbage side) = some (t₀ side)
  free : ∀ side, TerminatorFree (K.sendGarbageTerminator (I.send side)) (garbage side)
  notV1 : NotV1 ident

variable {t₀ : Bool → Transport K}

theorem Setup.start (h : Setup I garbage t₀) (side : Bool) :
    (garbage side).length ≤ bip324MaxGarbageLen ∧ (t₀ side).ident = ident side ∧
      (t₀ side).recv = [] ∧
      (t₀ side).recvState = if side then RecvState.key else RecvState.maybeV1 := by
  have hinit := h.init side
  unfold bip324TInit at hinit
  rw [h.role side] at hinit
  by_cases hlong : bip324MaxGarbageLen < (garbage side).length
  · rw [if_pos hlong] at hinit
    cases hinit
  · rw [if_neg hlong] at hinit
    rw [← Option.some_injective _ hinit]
    exact ⟨not_lt.mp hlong, rfl, rfl, rfl⟩

/-- A side reads the other's messages off the other's stream. -/
theorem Setup.yields (h : Setup I garbage t₀) (side : Bool) (ms : List Message)
    (hms : ∀ m ∈ ms, Sendable m) :
    (t₀ (!side)).yields (streamOf I side (garbage side) ms) = (ms, true) := by
  obtain ⟨-, hident, hrecv, hstate⟩ := h.start (!side)
  have hstream := yields_streamOf I side (h.start side).1 (h.free side) ms hms
  unfold Transport.yields
  rw [hident, hrecv, hstate, List.nil_append]
  cases side with
  | false => exact hstream
  | true =>
      -- the responder first makes sure of the protocol
      have hkey := (ident true).ellswift.2
      have hturn : (receiver (ident (!true))).turn (RecvState.maybeV1 : RecvState K)
          (streamOf I true (garbage true) ms) =
          .again .key (streamOf I true (garbage true) ms) (some .keyAndGarbage) := by
        obtain ⟨rest, hrest⟩ : (ident true).ellswift.1 <+: streamOf I true (garbage true) ms :=
          (List.prefix_append _ _).trans (streamOf_nil true (garbage true) ms)
        have hlen := congrArg List.length hrest
        rw [List.length_append, hkey] at hlen
        simp only [receiver_turn, advanceTurn]
        rw [if_neg (by rintro hnil; rw [hnil] at hlen; simp at hlen), if_pos]
        have hwhole : (v1Prefix (ident (!true)).netMagic).take
            (streamOf I true (garbage true) ms).length = v1Prefix (ident (!true)).netMagic :=
          List.take_of_length_le (by rw [length_v1Prefix]; omega)
        rw [hwhole, ← hrest, List.take_append_of_le_length (by rw [hkey]; decide)]
        exact h.notV1
      exact (Resumable.yields_again rfl hturn).trans hstream

theorem linked_start (h : Setup I garbage t₀) : Linked I garbage t₀ (Pair.start t₀) := by
  intro side
  obtain ⟨hgarbage, hident, hrecv, hstate⟩ := h.start side
  refine ⟨hident, rfl, nofun, ?_, fun more => rfl, fun _ => ?_⟩
  · have hinit := h.init side
    unfold bip324TInit at hinit
    rw [h.role side, if_neg (not_lt.mpr hgarbage)] at hinit
    simp only [Pair.start, Peer.start]
    rw [← Option.some_injective _ hinit]
    cases side <;> simp [Queued, keysReady, SendSide.perform]
  · simp only [Pair.start, Peer.start]
    rw [hstate, hrecv]
    cases side <;> simp [advanceTurn]

/-- What has arrived and is about to arrive is the front of the peer's stream. -/
theorem Linked.arrived {q : Pair K} (h : Linked I garbage t₀ q) (side : Bool)
    {data : List UInt8} (hdata : data <+: q.wire (!side)) :
    (q.peer side).fed ++ data <+:
      streamOf I (!side) (garbage (!side)) (q.peer (!side)).accepted := by
  have hfront := (h (!side)).front
  rw [Bool.not_not, List.append_assoc] at hfront
  refine List.IsPrefix.trans ?_ hfront
  exact (List.prefix_append_right_inj _).mpr (hdata.trans (List.prefix_append _ _))

theorem Linked.begins {q : Pair K} (h : Linked I garbage t₀ q) (side : Bool)
    {data : List UInt8} (hdata : data <+: q.wire (!side)) :
    Begins ident side ((q.peer side).fed ++ data) := by
  have harrived := h.arrived side hdata
  obtain ⟨rest, hrest⟩ : (ident (!side)).ellswift.1 <+:
      streamOf I (!side) (garbage (!side)) (q.peer (!side)).accepted :=
    (List.prefix_append _ _).trans (streamOf_nil _ _ _)
  have hkey := (ident (!side)).ellswift.2
  unfold Begins
  refine (harrived.take 64).trans ?_
  rw [← hrest, List.take_left' hkey]

/-- The stream has no violation, so none is met. -/
theorem Linked.advance_ok {q : Pair K} (h : Linked I garbage t₀ q) (hsetup : Setup I garbage t₀)
    (side : Bool) {data : List UInt8} (hdata : data <+: q.wire (!side)) :
    (advance { (q.peer side).transport with
      recv := (q.peer side).transport.recv ++ data }).1 = true := by
  cases hok : (advance { (q.peer side).transport with
      recv := (q.peer side).transport.recv ++ data }).1 with
  | true => rfl
  | false =>
      obtain ⟨more, hmore⟩ := h.arrived side hdata
      have hall := hsetup.yields (!side) _ (h (!side)).sendable
      have hbad := yields_of_fail hok more
      rw [yields_recv] at hbad
      rw [Bool.not_not, ← hmore, List.append_assoc, (h side).tracks, hbad] at hall
      cases congrArg Prod.snd hall

theorem Linked.update {q : Pair K} (h : Linked I garbage t₀ q) (side : Bool) {p : Peer K}
    (hfed : p.fed = (q.peer side).fed)
    (hp : Half I garbage (t₀ side) side p ((q.peer (!side)).fed ++ q.wire side)) :
    Linked I garbage t₀ { q with peer := Function.update q.peer side p } := by
  intro s
  by_cases hs : s = side
  · subst hs
    simpa [Function.update_of_ne] using hp
  · obtain rfl : side = !s := by
      cases s <;> cases side <;> simp_all
    have hother := h s
    rw [← hfed] at hother
    simpa [Function.update_of_ne] using hother

theorem Linked.flush {q : Pair K} (h : Linked I garbage t₀ q) (side : Bool) (n : Nat) :
    Linked I garbage t₀ (q.move (.flush side n)) := by
  intro s
  by_cases hs : s = side
  · subst hs
    have hhalf := (h s).flush n
    rw [List.append_assoc] at hhalf
    simpa [Pair.move, Function.update_of_ne] using hhalf
  · obtain rfl : side = !s := by
      cases s <;> cases side <;> simp_all
    simpa [Pair.move, Function.update_of_ne, Peer.flush] using h s

theorem Linked.arrive {q : Pair K} (h : Linked I garbage t₀ q) (hsetup : Setup I garbage t₀)
    (side : Bool) (n : Nat) : Linked I garbage t₀ (q.move (.arrive side n)) := by
  have hdata : (q.wire (!side)).take n <+: q.wire (!side) := List.take_prefix n _
  have hadvance := h.advance_ok hsetup side hdata
  have hok : (bip324TFeed (q.peer side).transport ((q.wire (!side)).take n)).1 = true := by
    unfold bip324TFeed
    simpa [(h side).not_v1] using hadvance
  intro s
  by_cases hs : s = side
  · subst hs
    have hhalf := (h s).feed (h.begins s hdata) hsetup.notV1 hok
    simpa [Pair.move, Function.update_of_ne] using hhalf
  · obtain rfl : side = !s := by
      cases s <;> cases side <;> simp_all
    have hother := h s
    simpa [Pair.move, Function.update_of_ne, Peer.feed] using hother

theorem Linked.move {q : Pair K} (h : Linked I garbage t₀ q) (hsetup : Setup I garbage t₀)
    (mv : Move) (hmv : ∀ side m, mv = .send side m → ValidType m.type ∧ FitsBoth m) :
    Linked I garbage t₀ (q.move mv) := by
  have hadvance : ∀ side, (advance (q.peer side).transport).1 = true := fun side => by
    have hok := h.advance_ok hsetup side (List.nil_prefix (l := q.wire (!side)))
    rwa [List.append_nil] at hok
  have hbegins : ∀ side, Begins ident side (q.peer side).fed := fun side => by
    have hb := h.begins side (List.nil_prefix (l := q.wire (!side)))
    rwa [List.append_nil] at hb
  cases mv with
  | send side m => exact h.update side rfl ((h side).send (hmv side m rfl))
  | flush side n => exact h.flush side n
  | arrive side n => exact h.arrive hsetup side n
  | query side =>
      exact h.update side rfl ((h side).query (hbegins side) hsetup.notV1 (hadvance side))
  | read side =>
      refine h.update side ?_ ((h side).read (hbegins side) hsetup.notV1 (hadvance side))
      unfold Peer.read
      split <;> rfl

theorem Linked.run {q : Pair K} (h : Linked I garbage t₀ q) (hsetup : Setup I garbage t₀)
    (moves : List Move)
    (hmoves : ∀ side m, Move.send side m ∈ moves → ValidType m.type ∧ FitsBoth m) :
    Linked I garbage t₀ (q.run moves) := by
  induction moves generalizing q with
  | nil => exact h
  | cons mv moves ih =>
      refine ih (h.move hsetup mv fun side m hm => ?_) fun side m hm => ?_
      · exact hmoves side m (hm ▸ List.mem_cons_self)
      · exact hmoves side m (List.mem_cons_of_mem mv hm)

/-! ## Everything is read -/

/-- A read that finds nothing leaves nothing to find. -/
theorem Half.read_length {t₀ : Transport K} {side : Bool} {p : Peer K} {gone : List UInt8}
    (h : Half I garbage t₀ side p gone) (hok : (Network.advance p.transport).1 = true) :
    p.read.delivered.length = p.delivered.length + 1 ∨ (p.transport.yields []).1 = [] := by
  have hdone : ∀ t : Transport K, ready t.recvState = none →
      advanceTurn t.ident t.recvState t.recv = .wait → (t.yields []).1 = [] := by
    intro t hready hwait
    unfold Transport.yields
    rw [List.append_nil, Resumable.yields_wait hready hwait]
  have hcollect : ∀ t : Transport K, bip324TNextMessage p.transport = Network.collect t →
      (ready t.recvState = none → (p.transport.yields []).1 = []) →
      p.read.delivered.length = p.delivered.length + 1 ∨ (p.transport.yields []).1 = [] := by
    intro t hnext hrest
    unfold Peer.read
    rw [hnext]
    unfold Network.collect
    cases hready : ready t.recvState with
    | none => exact .inr (hrest hready)
    | some r => exact .inl (by simp)
  unfold bip324TNextMessage at hcollect
  by_cases hready : (ready p.transport.recvState).isSome
  · rw [if_pos hready] at hcollect
    exact hcollect p.transport rfl fun hnone => by simp [hnone] at hready
  · have hnone : ready p.transport.recvState = none := by simpa using hready
    rw [if_neg hready] at hcollect
    by_cases hkeys : ¬ keysReady p.transport.recvState
    · refine .inr (hdone p.transport hnone ?_)
      rw [h.ident_eq]
      exact h.settled (by simpa using hkeys)
    · rw [if_neg hkeys] at hcollect
      simp only [hok, if_true] at hcollect
      refine hcollect (Network.advance p.transport).2 rfl fun hnone' => ?_
      rw [← yields_advance hok]
      exact hdone _ hnone' (Resumable.turn_advance hok)

/-- Nothing of what the side queued is still on its way. -/
def Pair.Quiet (q : Pair K) (side : Bool) : Prop :=
  (q.peer side).transport.out.send = [] ∧ q.wire side = []

theorem Linked.delivered_prefix {q : Pair K} (h : Linked I garbage t₀ q)
    (hsetup : Setup I garbage t₀) (side : Bool) :
    (q.peer (!side)).delivered <+: (q.peer side).accepted := by
  have hall := hsetup.yields side _ (h side).sendable
  obtain ⟨more, hmore⟩ := h.arrived (!side) (List.nil_prefix (l := q.wire (!!side)))
  rw [Bool.not_not, List.append_nil] at hmore
  rw [← hmore, (h (!side)).tracks] at hall
  obtain ⟨hfront, -⟩ := Prod.mk.inj hall
  rw [← hfront]
  exact List.prefix_append _ _

theorem Linked.delivered_all {q : Pair K} (h : Linked I garbage t₀ q)
    (hsetup : Setup I garbage t₀) {side : Bool} (hquiet : q.Quiet side)
    (hnone : ((q.peer (!side)).transport.yields []).1 = []) :
    (q.peer (!side)).delivered = (q.peer side).accepted := by
  have hall := hsetup.yields side _ (h side).sendable
  have hq := (h side).queued
  unfold Queued at hq
  split_ifs at hq with hk
  · rw [hquiet.1, hquiet.2, List.append_nil, List.append_nil] at hq
    rw [← hq.1, ← List.append_nil (q.peer (!side)).fed, (h (!side)).tracks, hnone,
      List.append_nil] at hall
    exact congrArg Prod.fst hall
  · -- nothing was accepted before the keys were there
    have hfront := h.delivered_prefix hsetup side
    rw [hq.2.1] at hfront ⊢
    exact List.prefix_nil.mp hfront

theorem Pair.quiet_read {q : Pair K} {side : Bool} (h : q.Quiet side) :
    (q.move (.read (!side))).Quiet side ∧
      ((q.move (.read (!side))).peer side).accepted = (q.peer side).accepted := by
  simpa [Pair.Quiet, Pair.move, Function.update_of_ne] using h

theorem Linked.reads {q : Pair K} (h : Linked I garbage t₀ q) (hsetup : Setup I garbage t₀)
    {side : Bool} (hquiet : q.Quiet side) (n : Nat)
    (hn : (q.peer side).accepted.length ≤ (q.peer (!side)).delivered.length + n) :
    ((q.run (List.replicate n (.read (!side)))).peer (!side)).delivered =
      (q.peer side).accepted := by
  induction n generalizing q with
  | zero => exact (h.delivered_prefix hsetup side).eq_of_length_le hn
  | succ n ih =>
      have hok := h.advance_ok hsetup (!side) (List.nil_prefix (l := q.wire (!!side)))
      rw [List.append_nil] at hok
      have hnext := h.move hsetup (.read (!side)) nofun
      obtain ⟨hquiet', haccepted⟩ := Pair.quiet_read hquiet
      have hpeer : (q.move (.read (!side))).peer (!side) = (q.peer (!side)).read := by
        simp [Pair.move]
      rw [List.replicate_succ, ← haccepted]
      refine ih hnext hquiet' ?_
      rw [haccepted, hpeer]
      rcases (h (!side)).read_length hok with hone | hnone
      · omega
      · -- nothing is left, so the messages are all there already
        have hall := h.delivered_all hsetup hquiet hnone
        have hkept : (q.peer (!side)).delivered.length ≤ (q.peer (!side)).read.delivered.length := by
          unfold Peer.read
          split <;> simp
        rw [← hall]
        omega

end Delivery

/-- Each side has read the front of what the other's `bip324_t_send_message` accepted, no call
has failed, and once the bytes are there the reads bring all of it. -/
def Pair.Delivers (q : Pair K) : Prop :=
  ∀ side, (q.peer side).failed = false ∧
    (q.peer (!side)).delivered <+: (q.peer side).accepted ∧
    (q.Quiet side → ∀ n, (q.peer side).accepted.length ≤ n →
      ((q.run (List.replicate n (.read (!side)))).peer (!side)).delivered =
        (q.peer side).accepted)

theorem delivers_of_fitsBoth {ident : Bool → Identity} (I : IdealCiphers K ident)
    (garbage : Bool → List UInt8) (t₀ : Bool → Transport K) (hsetup : Setup I garbage t₀)
    (moves : List Move) (hvalid : ∀ side m, Move.send side m ∈ moves → ValidType m.type)
    (hfits : ∀ side m, Move.send side m ∈ moves → FitsBoth m) :
    ((Pair.start t₀).run moves).Delivers := by
  have h : Linked I garbage t₀ ((Pair.start t₀).run moves) :=
    (linked_start hsetup).run hsetup moves fun side m hm => ⟨hvalid side m hm, hfits side m hm⟩
  intro side
  refine ⟨(h side).good, h.delivered_prefix hsetup side, fun hquiet n hn => ?_⟩
  exact h.reads hsetup hquiet n (by omega)

/-- A length above the limit is a violation. -/
theorem advance_of_long (t : Transport K) {cipher cipher' : K.Recv} {n : Nat}
    (hstate : t.recvState = .app cipher none none) (hthree : ¬ t.recv.length < bip324LengthLen)
    (hlength : K.decryptLength cipher (t.recv.take bip324LengthLen) = (n, cipher'))
    (hlong : bip324MaxMessageLen < n) :
    advance t = (false, { t with recvState := .app cipher' none none }) := by
  have hturn : (receiver t.ident).turn t.recvState t.recv =
      .fail (.app cipher' none none) t.recv := by
    rw [hstate]
    simp only [receiver_turn, advanceTurn]
    unfold lengthTurn
    rw [if_neg hthree, hlength]
    exact if_pos hlong
  unfold advance
  rw [Resumable.advance_of_fail hturn]
  rfl

/-! ## A pair in the clear -/

theorem length_clearSeckey : (List.replicate 32 (1 : UInt8)).length = 32 := rfl

theorem length_clearEllswift (side : Bool) :
    (List.replicate 64 (if side then (2 : UInt8) else 3)).length = 64 :=
  List.length_replicate

theorem length_clearMagic : ([0xf9, 0xbe, 0xb4, 0xd9] : List UInt8).length = 4 := rfl

def clearIdent (side : Bool) : Identity where
  seckey := ⟨List.replicate 32 1, length_clearSeckey⟩
  ellswift := ⟨List.replicate 64 (if side then 2 else 3), length_clearEllswift side⟩
  netMagic := ⟨[0xf9, 0xbe, 0xb4, 0xd9], length_clearMagic⟩
  initiator := side

theorem take_clearPacket (n : Nat) (contents : List UInt8) (ignore : Bool) :
    (clearPacket n contents ignore).take bip324LengthLen = leBytes 3 contents.length := by
  have hlen : (leBytes 3 contents.length).length = bip324LengthLen := length_leBytes 3 _
  unfold clearPacket
  rw [List.append_assoc, List.append_assoc, List.take_left' hlen]

theorem drop_clearPacket (n : Nat) (contents : List UInt8) (ignore : Bool) :
    (clearPacket n contents ignore).drop bip324LengthLen =
      ((if ignore then 0x80 else 0) :: contents) ++ leBytes 16 n := by
  have hlen : (leBytes 3 contents.length).length = bip324LengthLen := length_leBytes 3 _
  unfold clearPacket
  rw [List.append_assoc, List.append_assoc, List.drop_left' hlen]
  simp

theorem length_clearPacket (n : Nat) (contents : List UInt8) (ignore : Bool) :
    (clearPacket n contents ignore).length = contents.length + 20 := by
  simp [clearPacket]
  omega

theorem clearPacket_opens (n : Nat) (contents aad : List UInt8) (ignore : Bool) :
    clearSuite.decrypt n ((clearPacket n contents ignore).drop bip324LengthLen) aad =
      (some (contents, ignore), n + 1) := by
  have hlen : ((clearPacket n contents ignore).drop bip324LengthLen).length - 16 =
      ((if ignore then (0x80 : UInt8) else 0) :: contents).length := by
    rw [drop_clearPacket, List.length_append, length_leBytes, Nat.add_sub_cancel]
  unfold clearSuite
  dsimp only
  rw [hlen, drop_clearPacket, List.drop_left, List.take_left, if_pos rfl]
  cases ignore <;> rfl

theorem clearPacket_length (n : Nat) {contents : List UInt8} (ignore : Bool)
    (h : contents.length < 2 ^ 24) :
    clearSuite.decryptLength n ((clearPacket n contents ignore).take bip324LengthLen) =
      (contents.length, n) := by
  rw [take_clearPacket]
  unfold clearSuite
  dsimp only
  rw [leVal_leBytes, Nat.mod_eq_of_lt (by omega)]

/-- Both sides count the packets from zero. -/
def clearCiphers : IdealCiphers clearSuite clearIdent where
  send _ := (0 : Nat)
  recv _ := (0 : Nat)
  Sync s r := s = r
  keyed _ := rfl
  terminator _ := rfl
  sync _ := rfl
  opens s r contents aad ignore hsync hlen := by
    subst hsync
    exact ⟨length_clearPacket s contents ignore, s, Nat.succ s,
      clearPacket_length s ignore hlen, clearPacket_opens s contents aad ignore, rfl⟩

def clearStart (side : Bool) : Transport clearSuite where
  ident := clearIdent side
  recvState := if side then .key else .maybeV1
  recv := []
  out := if side then ⟨(clearIdent true).ellswift.1, [], none⟩ else ⟨[], [], none⟩

theorem clearSetup : Setup clearCiphers (fun _ => []) clearStart where
  role _ := rfl
  init side := by cases side <;> rfl
  free _ _ hi := absurd hi (Nat.not_lt_zero _)
  notV1 := by
    unfold NotV1
    decide

/-- Keys and version packets go over and back. -/
def greetings : List Move :=
  [.flush true 64, .arrive false 64, .flush false 200, .arrive true 200, .flush true 100,
    .arrive false 100]

theorem validType_ping : ValidType ping.type := by
  unfold ValidType
  decide +kernel

theorem delivers_of_fitsBoth_ping :
    ((Pair.start clearStart).run (greetings ++ [.send true ping, .flush true 9])).Delivers := by
  apply delivers_of_fitsBoth clearCiphers _ clearStart clearSetup
  · intro side m hm
    simp only [greetings, List.cons_append, List.nil_append, List.mem_cons, List.not_mem_nil,
      reduceCtorEq, false_or, or_false, Move.send.injEq] at hm
    obtain ⟨-, rfl⟩ := hm
    exact validType_ping
  · intro side m hm
    simp only [greetings, List.cons_append, List.nil_append, List.mem_cons, List.not_mem_nil,
      reduceCtorEq, false_or, or_false, Move.send.injEq] at hm
    obtain ⟨-, rfl⟩ := hm
    unfold FitsBoth
    decide

def pingWith (payload : List UInt8) : Message := ⟨ping.type, payload⟩

def pingWithPacket (payload : List UInt8) : List UInt8 := clearPacket 1 (18 :: payload) false

/-- A side that has read the version packet and has nothing buffered. -/
def greeted (side : Bool) : Transport clearSuite :=
  ⟨clearIdent side, .app (1 : Nat) none none, [], ⟨[], [], some (1 : Nat)⟩⟩

theorem run_greetings :
    ∀ side, (((Pair.start clearStart).run greetings).peer side).transport = greeted side ∧
      (((Pair.start clearStart).run greetings).peer side).accepted = [] ∧
      (((Pair.start clearStart).run greetings).peer side).delivered = [] ∧
      ((Pair.start clearStart).run greetings).wire side = [] := by
  intro side
  cases side <;> exact ⟨rfl, rfl, rfl, rfl⟩

theorem send_pingWith {payload : List UInt8} (h : payload.length ≤ bip324MaxMessageLen) :
    bip324TSendMessage (greeted true) (pingWith payload) =
      (true, { greeted true with out := ⟨pingWithPacket payload, [], some (2 : Nat)⟩ }) := by
  have hcontents : encodeContents (pingWith payload) = some (18 :: payload) := rfl
  unfold bip324TSendMessage
  simp only [greeted, hcontents, List.nil_append]
  exact if_neg (not_lt.mpr h)

/-- The type makes the contents one byte too long. -/
theorem advance_pingWith {payload : List UInt8} (h : payload.length = bip324MaxMessageLen) :
    advance { greeted false with recv := pingWithPacket payload } =
      (false, { greeted false with recv := pingWithPacket payload }) := by
  have hlen : (18 :: payload).length = bip324MaxMessageLen + 1 := by
    rw [List.length_cons, h]
  have hpacket : ¬ (pingWithPacket payload).length < bip324LengthLen := by
    unfold pingWithPacket bip324LengthLen
    rw [length_clearPacket]
    omega
  have hlength : clearSuite.decryptLength (1 : Nat)
      ((pingWithPacket payload).take bip324LengthLen) = (bip324MaxMessageLen + 1, (1 : Nat)) := by
    rw [← hlen]
    exact clearPacket_length 1 false (by rw [hlen]; decide)
  exact advance_of_long _ rfl hpacket hlength (Nat.lt_succ_self _)

/-- A packet that is all there and that the receiver takes for a violation. -/
theorem not_delivers_of_violation {q : Pair clearSuite} {m : Message} {pkt : List UInt8}
    {cipher : Option clearSuite.Send} (hpeer : ∀ side, (q.peer side).transport = greeted side)
    (haccepted : (q.peer true).accepted = []) (hdelivered : (q.peer false).delivered = [])
    (hwire : q.wire true = [])
    (hsend : bip324TSendMessage (greeted true) m =
      (true, { greeted true with out := ⟨pkt, [], cipher⟩ }))
    (hadvance : advance { greeted false with recv := pkt } =
      (false, { greeted false with recv := pkt })) :
    ¬ (q.run [.send true m, .flush true pkt.length, .arrive false pkt.length]).Delivers := by
  intro hall
  have hfeed : bip324TFeed (greeted false) pkt =
      (false, { greeted false with recv := pkt }) := hadvance
  have hnext : bip324TNextMessage { greeted false with recv := pkt } =
      (.violation, { greeted false with recv := pkt }) := by
    unfold bip324TNextMessage
    rw [hadvance]
    simp [greeted, ready, keysReady]
  obtain ⟨-, -, hread⟩ := hall true
  have hone := hread ⟨?_, ?_⟩ 1 ?_
  · simp [Pair.run, Pair.move, Peer.send, Peer.flush, Peer.feed, Peer.read, hpeer, hwire,
      haccepted, hdelivered, hsend, hfeed, hnext] at hone
  · simp [Pair.run, Pair.move, Peer.send, Peer.flush, hpeer, hsend]
  · simp [Pair.run, Pair.move, Peer.send, hpeer, hwire, hsend]
  · simp [Pair.run, Pair.move, Peer.send, Peer.flush, hpeer, haccepted, hsend]

def pingWithMoves (payload : List UInt8) : List Move :=
  greetings ++ [.send true (pingWith payload), .flush true (pingWithPacket payload).length,
    .arrive false (pingWithPacket payload).length]

theorem not_delivers_pingWith {payload : List UInt8}
    (h : payload.length = bip324MaxMessageLen) :
    ¬ ((Pair.start clearStart).run (pingWithMoves payload)).Delivers := by
  unfold pingWithMoves
  rw [Pair.run_append]
  exact not_delivers_of_violation (fun side => (run_greetings side).1)
    (run_greetings true).2.1 (run_greetings false).2.2.1 (run_greetings true).2.2.2
    (send_pingWith h.le) (advance_pingWith h)

theorem validType_pingWith {payload : List UInt8} {side : Bool} {m : Message}
    (hm : Move.send side m ∈ pingWithMoves payload) : ValidType m.type := by
  simp only [pingWithMoves, greetings, List.cons_append, List.nil_append, List.mem_cons,
    List.not_mem_nil, reduceCtorEq, false_or, or_false, Move.send.injEq] at hm
  obtain ⟨-, rfl⟩ := hm
  exact validType_ping

theorem not_delivers_full_payload :
    Setup clearCiphers (fun _ => []) clearStart ∧
      ∃ payload, (∀ side m, Move.send side m ∈ pingWithMoves payload → ValidType m.type) ∧
        ¬ ((Pair.start clearStart).run (pingWithMoves payload)).Delivers :=
  ⟨clearSetup, List.replicate bip324MaxMessageLen 0, fun _ _ hm => validType_pingWith hm,
    not_delivers_pingWith (List.length_replicate)⟩

end BitcoinMachineCode.Network
