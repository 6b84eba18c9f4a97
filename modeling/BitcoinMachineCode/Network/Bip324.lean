import BitcoinMachineCode.Foundation.Digits
import BitcoinMachineCode.Foundation.Resumable

/-!
# The encrypted transport

The state machine of `crypto_bip324_transport.c` over a cipher that is a parameter: the
keys, the garbage and its terminator, the version packet, and then packets with messages.
Received bytes are kept in a buffer, and every call reads on from where the last one
stopped.
-/

namespace BitcoinMachineCode.Network

open Foundation

/-- What the transport uses of `crypto_bip324.c`: a session that is keyed by the exchange,
with a half that encrypts and a half that decrypts.  A packet that fails to authenticate
counts like any other. -/
structure CipherSuite where
  Send : Type
  Recv : Type
  init : (seckey ours theirs magic : List UInt8) → (initiator : Bool) → Option (Send × Recv)
  sendGarbageTerminator : Send → List UInt8
  recvGarbageTerminator : Recv → List UInt8
  length_terminator : ∀ r, (recvGarbageTerminator r).length = 16
  encrypt : Send → (contents aad : List UInt8) → (ignore : Bool) → List UInt8 × Send
  decryptLength : Recv → List UInt8 → Nat × Recv
  decrypt : Recv → (packet aad : List UInt8) → Option (List UInt8 × Bool) × Recv

def bip324V1PrefixLen : Nat := 16

def bip324MaxMessageLen : Nat := 4000000

def bip324LengthLen : Nat := 3

def bip324HeaderLen : Nat := 1

def bip324AeadExpansion : Nat := 16

def bip324GarbageTerminatorLen : Nat := 16

def bip324MaxGarbageLen : Nat := 4095

/-! ## Message types -/

def ascii (name : List Char) : List UInt8 := name.map fun c => UInt8.ofNat c.toNat

/-- The one-byte ids from 1 on. -/
def shortids : List (List UInt8) := [
  ascii ['a', 'd', 'd', 'r'],
  ascii ['b', 'l', 'o', 'c', 'k'],
  ascii ['b', 'l', 'o', 'c', 'k', 't', 'x', 'n'],
  ascii ['c', 'm', 'p', 'c', 't', 'b', 'l', 'o', 'c', 'k'],
  ascii ['f', 'e', 'e', 'f', 'i', 'l', 't', 'e', 'r'],
  ascii ['f', 'i', 'l', 't', 'e', 'r', 'a', 'd', 'd'],
  ascii ['f', 'i', 'l', 't', 'e', 'r', 'c', 'l', 'e', 'a', 'r'],
  ascii ['f', 'i', 'l', 't', 'e', 'r', 'l', 'o', 'a', 'd'],
  ascii ['g', 'e', 't', 'b', 'l', 'o', 'c', 'k', 's'],
  ascii ['g', 'e', 't', 'b', 'l', 'o', 'c', 'k', 't', 'x', 'n'],
  ascii ['g', 'e', 't', 'd', 'a', 't', 'a'],
  ascii ['g', 'e', 't', 'h', 'e', 'a', 'd', 'e', 'r', 's'],
  ascii ['h', 'e', 'a', 'd', 'e', 'r', 's'],
  ascii ['i', 'n', 'v'],
  ascii ['m', 'e', 'm', 'p', 'o', 'o', 'l'],
  ascii ['m', 'e', 'r', 'k', 'l', 'e', 'b', 'l', 'o', 'c', 'k'],
  ascii ['n', 'o', 't', 'f', 'o', 'u', 'n', 'd'],
  ascii ['p', 'i', 'n', 'g'],
  ascii ['p', 'o', 'n', 'g'],
  ascii ['s', 'e', 'n', 'd', 'c', 'm', 'p', 'c', 't'],
  ascii ['t', 'x'],
  ascii ['g', 'e', 't', 'c', 'f', 'i', 'l', 't', 'e', 'r', 's'],
  ascii ['c', 'f', 'i', 'l', 't', 'e', 'r'],
  ascii ['g', 'e', 't', 'c', 'f', 'h', 'e', 'a', 'd', 'e', 'r', 's'],
  ascii ['c', 'f', 'h', 'e', 'a', 'd', 'e', 'r', 's'],
  ascii ['g', 'e', 't', 'c', 'f', 'c', 'h', 'e', 'c', 'k', 'p', 't'],
  ascii ['c', 'f', 'c', 'h', 'e', 'c', 'k', 'p', 't'],
  ascii ['a', 'd', 'd', 'r', 'v', '2']]

def bip324ShortidName (id : UInt8) : Option (List UInt8) := shortids[id.toNat - 1]?

def bip324ShortidFor (type : List UInt8) : Option Nat :=
  (shortids.findIdx? (· = type)).map (· + 1)

structure Message where
  type : List UInt8
  payload : List UInt8
  deriving DecidableEq

/-- Printable up to the first zero byte, and zero after it. -/
def validLongType (mt : List UInt8) : Bool :=
  (mt.takeWhile (· ≠ 0)).all (fun b => decide (0x20 ≤ b ∧ b ≤ 0x7f)) &&
    (mt.dropWhile (· ≠ 0)).all (· = 0)

/-- The message of a packet's contents; none when the message is dropped and the session
goes on. -/
def decodeContents : List UInt8 → Option Message
  | [] => none
  | id :: rest =>
      if id = 0 then
        if 12 ≤ rest.length ∧ validLongType (rest.take 12) then
          some ⟨(rest.take 12).takeWhile (· ≠ 0), rest.drop 12⟩
        else none
      else (bip324ShortidName id).map fun name => ⟨name, rest⟩

/-! ## The receiving side -/

structure Identity where
  seckey : Bytes 32
  ellswift : Bytes 64
  netMagic : Bytes 4
  initiator : Bool

/-- `recv_state` with what exists in it: the cipher from the key on, the peer's garbage until
the first packet, the length of the packet in flight, the message not yet collected. -/
inductive RecvState (K : CipherSuite) where
  | maybeV1
  | key
  | garbage (cipher : K.Recv)
  | version (cipher : K.Recv) (recvGarbage : List UInt8) (pendingLen : Option Nat)
  | app (cipher : K.Recv) (pendingLen : Option Nat) (msg : Option Message)
  | v1

/-- What a turn of the receiving side has the sending side queue. -/
inductive SendEffect (K : CipherSuite) where
  | keyAndGarbage
  | terminatorAndVersion (cipher : K.Send)

def v1Prefix (magic : Bytes 4) : List UInt8 :=
  magic.1 ++ ascii ['v', 'e', 'r', 's', 'i', 'o', 'n'] ++ [0, 0, 0, 0, 0]

inductive Scan where
  | found (pos : Nat)
  | notYet
  | tooLong

/-- The search for the terminator from position `i` on. -/
def scanTerminator (term : List UInt8) : Nat → List UInt8 → Scan
  | _, [] => .notYet
  | i, b :: bs =>
      if (b :: bs).length < bip324GarbageTerminatorLen then .notYet
      else if bip324MaxGarbageLen < i then .tooLong
      else if (b :: bs).take bip324GarbageTerminatorLen = term then .found i
      else scanTerminator term (i + 1) bs

section Receiving

variable {K : CipherSuite}

/-- The length of the next packet. -/
def lengthTurn (cipher : K.Recv) (resume : K.Recv → Option Nat → RecvState K)
    (recv : List UInt8) : Turn (RecvState K) UInt8 (SendEffect K) :=
  if recv.length < bip324LengthLen then .wait
  else
    let (n, cipher') := K.decryptLength cipher (recv.take bip324LengthLen)
    if bip324MaxMessageLen < n then .fail (resume cipher' none) recv
    else .again (resume cipher' (some n)) (recv.drop bip324LengthLen) none

/-- The packet whose length is known, with what is done on its contents. -/
def packetTurn (cipher : K.Recv) (n : Nat) (aad : List UInt8)
    (resume : K.Recv → Option Nat → RecvState K)
    (opened : K.Recv → List UInt8 → Bool → List UInt8 → Turn (RecvState K) UInt8 (SendEffect K))
    (recv : List UInt8) : Turn (RecvState K) UInt8 (SendEffect K) :=
  let rest := n + bip324HeaderLen + bip324AeadExpansion
  if recv.length < rest then .wait
  else
    match K.decrypt cipher (recv.take rest) aad with
    | (none, cipher') => .fail (resume cipher' none) (recv.drop rest)
    | (some (plain, ignore), cipher') => opened cipher' plain ignore (recv.drop rest)

def versionOpened (cipher : K.Recv) (_plain : List UInt8) (ignore : Bool) (recv : List UInt8) :
    Turn (RecvState K) UInt8 (SendEffect K) :=
  .again (if ignore then .version cipher [] none else .app cipher none none) recv none

def appOpened (cipher : K.Recv) (plain : List UInt8) (ignore : Bool) (recv : List UInt8) :
    Turn (RecvState K) UInt8 (SendEffect K) :=
  if ignore then .again (.app cipher none none) recv none
  else
    match decodeContents plain with
    | none => .again (.app cipher none none) recv none
    | some msg => .done (.app cipher none (some msg)) recv

/-- One round of the loop of `advance`; reading the length is a round of its own. -/
def advanceTurn (ident : Identity) (state : RecvState K) (recv : List UInt8) :
    Turn (RecvState K) UInt8 (SendEffect K) :=
  match state with
  | .maybeV1 =>
      if recv = [] then .wait
      else if recv.take bip324V1PrefixLen ≠ (v1Prefix ident.netMagic).take recv.length then
        .again .key recv (some .keyAndGarbage)
      else if bip324V1PrefixLen ≤ recv.length then .done .v1 recv
      else .wait
  | .key =>
      if recv.length < 64 then .wait
      else
        match K.init ident.seckey.1 ident.ellswift.1 (recv.take 64) ident.netMagic.1
            ident.initiator with
        | none => .fail .key (recv.drop 64)
        | some (send, cipher) =>
            .again (.garbage cipher) (recv.drop 64) (some (.terminatorAndVersion send))
  | .garbage cipher =>
      match scanTerminator (K.recvGarbageTerminator cipher) 0 recv with
      | .found i =>
          .again (.version cipher (recv.take i) none)
            (recv.drop (i + bip324GarbageTerminatorLen)) none
      | .notYet => .wait
      | .tooLong => .fail (.garbage cipher) recv
  | .version cipher recvGarbage none =>
      lengthTurn cipher (fun c n => .version c recvGarbage n) recv
  | .version cipher recvGarbage (some n) =>
      packetTurn cipher n recvGarbage (fun c n => .version c recvGarbage n) versionOpened recv
  | .app _ _ (some _) => .wait
  | .app cipher none none => lengthTurn cipher (fun c n => .app c n none) recv
  | .app cipher (some n) none =>
      packetTurn cipher n [] (fun c n => .app c n none) appOpened recv
  | .v1 => .wait

def rank : RecvState K → Nat
  | .maybeV1 => 1
  | .app _ _ (some _) => 1
  | _ => 0

/-- The message that waits for its caller. -/
def ready : RecvState K → Option (Message × RecvState K)
  | .app cipher pendingLen (some msg) => some (msg, .app cipher pendingLen none)
  | _ => none

theorem scanTerminator_append {term : List UInt8} {i : Nat} {bs : List UInt8} (more : List UInt8)
    (h : scanTerminator term i bs ≠ .notYet) :
    scanTerminator term i (bs ++ more) = scanTerminator term i bs := by
  induction bs generalizing i with
  | nil => exact absurd rfl h
  | cons b bs ih =>
      rw [List.cons_append]
      unfold scanTerminator at h ⊢
      by_cases hshort : (b :: bs).length < bip324GarbageTerminatorLen
      · rw [if_pos hshort] at h
        exact absurd rfl h
      · rw [if_neg hshort] at h
        have hlong : ¬ (b :: (bs ++ more)).length < bip324GarbageTerminatorLen := by
          simp only [List.length_cons, List.length_append] at hshort ⊢
          omega
        have htake : (b :: (bs ++ more)).take bip324GarbageTerminatorLen =
            (b :: bs).take bip324GarbageTerminatorLen :=
          List.take_append_of_le_length (not_lt.mp hshort)
        rw [if_neg hlong, if_neg hshort, htake]
        split_ifs at h ⊢
        · rfl
        · rfl
        · exact ih h

theorem scanTerminator_found {term : List UInt8} {i pos : Nat} {bs : List UInt8}
    (h : scanTerminator term i bs = .found pos) :
    i ≤ pos ∧ pos - i + bip324GarbageTerminatorLen ≤ bs.length := by
  induction bs generalizing i with
  | nil => cases h
  | cons b bs ih =>
      unfold scanTerminator at h
      split_ifs at h with hshort hlimit hterm
      · obtain rfl : i = pos := by
          cases h
          rfl
        exact ⟨le_rfl, by omega⟩
      · obtain ⟨hle, hlen⟩ := ih h
        simp only [List.length_cons]
        omega

theorem lengthTurn_append (cipher : K.Recv) (resume : K.Recv → Option Nat → RecvState K)
    {recv : List UInt8} (more : List UInt8) (h : lengthTurn cipher resume recv ≠ .wait) :
    lengthTurn cipher resume (recv ++ more) = (lengthTurn cipher resume recv).append more := by
  unfold lengthTurn at h ⊢
  by_cases hshort : recv.length < bip324LengthLen
  · rw [if_pos hshort] at h
    exact absurd rfl h
  · have hlong : ¬ (recv ++ more).length < bip324LengthLen := by
      rw [List.length_append]
      omega
    rw [if_neg hshort, if_neg hlong, List.take_append_of_le_length (not_lt.mp hshort),
      List.drop_append_of_le_length (not_lt.mp hshort)]
    dsimp only
    split_ifs <;> rfl

theorem packetTurn_append (cipher : K.Recv) (n : Nat) (aad : List UInt8)
    (resume : K.Recv → Option Nat → RecvState K)
    (opened : K.Recv → List UInt8 → Bool → List UInt8 → Turn (RecvState K) UInt8 (SendEffect K))
    (hopened : ∀ c plain ignore recv more,
      opened c plain ignore (recv ++ more) = (opened c plain ignore recv).append more)
    {recv : List UInt8} (more : List UInt8)
    (h : packetTurn cipher n aad resume opened recv ≠ .wait) :
    packetTurn cipher n aad resume opened (recv ++ more) =
      (packetTurn cipher n aad resume opened recv).append more := by
  unfold packetTurn at h ⊢
  by_cases hshort : recv.length < n + bip324HeaderLen + bip324AeadExpansion
  · simp only [if_pos hshort] at h
    exact absurd rfl h
  · have hlong : ¬ (recv ++ more).length < n + bip324HeaderLen + bip324AeadExpansion := by
      rw [List.length_append]
      omega
    simp only [if_neg hshort, if_neg hlong, List.take_append_of_le_length (not_lt.mp hshort),
      List.drop_append_of_le_length (not_lt.mp hshort)]
    split
    · rfl
    · exact hopened _ _ _ _ _

theorem versionOpened_append (c : K.Recv) (plain : List UInt8) (ignore : Bool)
    (recv more : List UInt8) :
    versionOpened c plain ignore (recv ++ more) =
      (versionOpened c plain ignore recv).append more := rfl

theorem appOpened_append (c : K.Recv) (plain : List UInt8) (ignore : Bool)
    (recv more : List UInt8) :
    appOpened c plain ignore (recv ++ more) = (appOpened c plain ignore recv).append more := by
  unfold appOpened
  split_ifs
  · rfl
  · split <;> rfl

@[simp] theorem length_v1Prefix (magic : Bytes 4) : (v1Prefix magic).length = 16 := by
  simp [v1Prefix, ascii, magic.2]

theorem maybeV1_append (ident : Identity) (recv more : List UInt8)
    (h : advanceTurn ident (RecvState.maybeV1 : RecvState K) recv ≠ .wait) :
    advanceTurn ident (RecvState.maybeV1 : RecvState K) (recv ++ more) =
      (advanceTurn ident (RecvState.maybeV1 : RecvState K) recv).append more := by
  simp only [advanceTurn] at h ⊢
  by_cases hnil : recv = []
  · rw [if_pos hnil] at h
    exact absurd rfl h
  rw [if_neg hnil] at h ⊢
  rw [if_neg (by simp [hnil])]
  by_cases hdiff : recv.take bip324V1PrefixLen ≠ (v1Prefix ident.netMagic).take recv.length
  · have hdiff' : (recv ++ more).take bip324V1PrefixLen ≠
        (v1Prefix ident.netMagic).take (recv ++ more).length := fun heq => hdiff (by
      have hshort := congrArg (List.take recv.length) heq
      rw [List.take_take, List.take_take, List.length_append,
        min_eq_left (Nat.le_add_right _ _), min_comm, ← List.take_take, List.take_left] at hshort
      exact hshort)
    rw [if_pos hdiff, if_pos hdiff']
    rfl
  · rw [if_neg hdiff] at h ⊢
    by_cases hfull : bip324V1PrefixLen ≤ recv.length
    · have hsame : ¬ (recv ++ more).take bip324V1PrefixLen ≠
          (v1Prefix ident.netMagic).take (recv ++ more).length := by
        rw [not_not] at hdiff ⊢
        rw [List.take_append_of_le_length hfull, hdiff,
          List.take_of_length_le (by rw [length_v1Prefix]; exact hfull), List.take_of_length_le]
        simp only [length_v1Prefix, List.length_append, bip324V1PrefixLen] at hfull ⊢
        omega
      rw [if_pos hfull, if_neg hsame, if_pos (by rw [List.length_append]; omega)]
      rfl
    · rw [if_neg hfull] at h
      exact absurd rfl h

theorem advanceTurn_append (ident : Identity) (state : RecvState K) (recv more : List UInt8)
    (h : advanceTurn ident state recv ≠ .wait) :
    advanceTurn ident state (recv ++ more) = (advanceTurn ident state recv).append more := by
  cases state with
  | maybeV1 => exact maybeV1_append ident recv more h
  | key =>
      simp only [advanceTurn] at h ⊢
      by_cases hshort : recv.length < 64
      · rw [if_pos hshort] at h
        exact absurd rfl h
      · have hlong : ¬ (recv ++ more).length < 64 := by
          rw [List.length_append]
          omega
        rw [if_neg hshort, if_neg hlong, List.take_append_of_le_length (not_lt.mp hshort),
          List.drop_append_of_le_length (not_lt.mp hshort)]
        split <;> rfl
  | garbage cipher =>
      simp only [advanceTurn] at h ⊢
      cases hscan : scanTerminator (K.recvGarbageTerminator cipher) 0 recv with
      | notYet =>
          rw [hscan] at h
          exact absurd rfl h
      | tooLong =>
          rw [scanTerminator_append more (by rw [hscan]; nofun), hscan]
          rfl
      | found pos =>
          obtain ⟨-, hle⟩ := scanTerminator_found hscan
          rw [scanTerminator_append more (by rw [hscan]; nofun), hscan]
          simp only [Turn.append]
          rw [List.take_append_of_le_length (by omega), List.drop_append_of_le_length (by omega)]
  | version cipher recvGarbage pendingLen =>
      cases pendingLen with
      | none =>
          simp only [advanceTurn] at h ⊢
          exact lengthTurn_append cipher _ more h
      | some n =>
          simp only [advanceTurn] at h ⊢
          exact packetTurn_append cipher n _ _ _ versionOpened_append more h
  | app cipher pendingLen msg =>
      cases msg with
      | some msg => exact absurd (by simp [advanceTurn]) h
      | none =>
          cases pendingLen with
          | none =>
              simp only [advanceTurn] at h ⊢
              exact lengthTurn_append cipher _ more h
          | some n =>
              simp only [advanceTurn] at h ⊢
              exact packetTurn_append cipher n _ _ _ appOpened_append more h
  | v1 => exact absurd rfl h

theorem lengthTurn_shrinks (cipher : K.Recv) (resume : K.Recv → Option Nat → RecvState K)
    (hresume : ∀ c n, rank (resume c n) = 0) (recv : List UInt8) :
    (lengthTurn cipher resume recv).Shrinks rank (2 * recv.length) := by
  unfold lengthTurn
  dsimp only
  split_ifs with hshort hlong
  · trivial
  · trivial
  · simp only [Turn.Shrinks, hresume, List.length_drop, bip324LengthLen] at hshort ⊢
    omega

theorem packetTurn_shrinks (cipher : K.Recv) (n : Nat) (aad : List UInt8)
    (resume : K.Recv → Option Nat → RecvState K)
    (opened : K.Recv → List UInt8 → Bool → List UInt8 → Turn (RecvState K) UInt8 (SendEffect K))
    (hopened : ∀ c plain ignore recv,
      (opened c plain ignore recv).Shrinks rank (2 * recv.length + 2)) (recv : List UInt8) :
    (packetTurn cipher n aad resume opened recv).Shrinks rank (2 * recv.length) := by
  unfold packetTurn
  dsimp only
  split_ifs with hshort
  · trivial
  · split
    · trivial
    next plain ignore c _ =>
      have h := hopened c plain ignore
        (recv.drop (n + bip324HeaderLen + bip324AeadExpansion))
      rw [List.length_drop] at h
      generalize opened c plain ignore _ = turn at h ⊢
      cases turn with
      | wait => trivial
      | fail s rest => trivial
      | again s rest e =>
          simp only [Turn.Shrinks, bip324HeaderLen, bip324AeadExpansion] at h hshort ⊢
          omega
      | done s rest =>
          simp only [Turn.Shrinks, bip324HeaderLen, bip324AeadExpansion] at h hshort ⊢
          omega

theorem versionOpened_shrinks (c : K.Recv) (plain : List UInt8) (ignore : Bool)
    (recv : List UInt8) : (versionOpened c plain ignore recv).Shrinks rank (2 * recv.length + 2) := by
  cases ignore <;> simp [versionOpened, Turn.Shrinks, rank]

theorem appOpened_shrinks (c : K.Recv) (plain : List UInt8) (ignore : Bool)
    (recv : List UInt8) : (appOpened c plain ignore recv).Shrinks rank (2 * recv.length + 2) := by
  unfold appOpened
  split_ifs
  · simp [Turn.Shrinks, rank]
  · split <;> simp [Turn.Shrinks, rank]

theorem advanceTurn_shrinks (ident : Identity) (state : RecvState K) (recv : List UInt8) :
    (advanceTurn ident state recv).Shrinks rank (2 * recv.length + rank state) := by
  cases state with
  | maybeV1 =>
      simp only [advanceTurn]
      split_ifs <;> simp [Turn.Shrinks, rank]
  | key =>
      simp only [advanceTurn]
      split_ifs
      · trivial
      · split
        · trivial
        · simp only [Turn.Shrinks, rank, List.length_drop]
          omega
  | garbage cipher =>
      simp only [advanceTurn]
      split
      next pos hscan =>
        obtain ⟨-, hle⟩ := scanTerminator_found hscan
        simp only [Turn.Shrinks, rank, List.length_drop, bip324GarbageTerminatorLen] at hle ⊢
        omega
      · trivial
      · trivial
  | version cipher recvGarbage pendingLen =>
      cases pendingLen with
      | none =>
          simp only [advanceTurn]
          exact lengthTurn_shrinks cipher _ (fun _ _ => rfl) recv
      | some n =>
          simp only [advanceTurn]
          exact packetTurn_shrinks cipher n _ _ _ versionOpened_shrinks recv
  | app cipher pendingLen msg =>
      cases msg with
      | some msg => cases pendingLen <;> trivial
      | none =>
          cases pendingLen with
          | none =>
              simp only [advanceTurn]
              exact lengthTurn_shrinks cipher _ (fun _ _ => rfl) recv
          | some n =>
              simp only [advanceTurn]
              exact packetTurn_shrinks cipher n _ _ _ appOpened_shrinks recv
  | v1 => trivial

theorem advanceTurn_returns (ident : Identity) (state : RecvState K) (recv : List UInt8) :
    (advanceTurn ident state recv).ReturnsIn fun s' => ∀ bs, advanceTurn ident s' bs = .wait := by
  cases state with
  | maybeV1 =>
      simp only [advanceTurn]
      split_ifs <;> simp [Turn.ReturnsIn]
  | key =>
      simp only [advanceTurn]
      split_ifs
      · trivial
      · split <;> trivial
  | garbage cipher =>
      simp only [advanceTurn]
      split <;> trivial
  | version cipher recvGarbage pendingLen =>
      cases pendingLen with
      | none =>
          simp only [advanceTurn, lengthTurn]
          split_ifs <;> trivial
      | some n =>
          simp only [advanceTurn, packetTurn]
          split_ifs
          · trivial
          · split <;> trivial
  | app cipher pendingLen msg =>
      cases msg with
      | some msg => cases pendingLen <;> trivial
      | none =>
          cases pendingLen with
          | none =>
              simp only [advanceTurn, lengthTurn]
              split_ifs <;> trivial
          | some n =>
              simp only [advanceTurn, packetTurn, appOpened]
              split_ifs
              · trivial
              · split
                · trivial
                · split_ifs
                  · trivial
                  · split
                    · trivial
                    · simp [Turn.ReturnsIn]
  | v1 => trivial

/-- The receiving side as a reader of the peer's stream. -/
def receiver (ident : Identity) : Resumable (RecvState K) UInt8 (SendEffect K) Message where
  turn := advanceTurn ident
  ready := ready
  rank := rank
  turn_append := advanceTurn_append ident
  turn_shrinks := advanceTurn_shrinks ident
  turn_returns := advanceTurn_returns ident
  ready_waits s m s' bs h := by
    cases s with
    | app cipher pendingLen msg =>
        cases msg with
        | none => cases h
        | some msg => simp [advanceTurn]
    | _ => cases h
  ready_lt s m s' h := by
    cases s with
    | app cipher pendingLen msg =>
        cases msg with
        | none => cases h
        | some msg =>
            cases h
            simp [rank]
    | _ => cases h

@[simp] theorem receiver_turn (ident : Identity) :
    (receiver ident : Resumable (RecvState K) UInt8 (SendEffect K) Message).turn =
      advanceTurn ident := rfl

end Receiving

/-! ## The transport -/

/-- What goes out: bytes that wait for the socket, the garbage that the version packet
authenticates, and from the key on the sending half of the cipher. -/
structure SendSide (K : CipherSuite) where
  send : List UInt8
  sentGarbage : List UInt8
  cipher : Option K.Send

structure Transport (K : CipherSuite) where
  ident : Identity
  recvState : RecvState K
  recv : List UInt8
  out : SendSide K

section Calls

variable {K : CipherSuite}

def SendSide.perform (ident : Identity) (out : SendSide K) : SendEffect K → SendSide K
  | .keyAndGarbage => { out with send := out.send ++ (ident.ellswift.1 ++ out.sentGarbage) }
  | .terminatorAndVersion cipher =>
      let (pkt, cipher') := K.encrypt cipher [] out.sentGarbage false
      { send := out.send ++ (K.sendGarbageTerminator cipher ++ pkt)
        sentGarbage := []
        cipher := some cipher' }

/-- None when the garbage is too long. -/
def bip324TInit (ident : Identity) (garbage : List UInt8) : Option (Transport K) :=
  if bip324MaxGarbageLen < garbage.length then none
  else
    let out : SendSide K := ⟨[], garbage, none⟩
    some {
      ident := ident
      recvState := if ident.initiator then .key else .maybeV1
      recv := []
      out := if ident.initiator then out.perform ident .keyAndGarbage else out }

/-- `advance` over whatever is in the buffer; false for a protocol error. -/
def advance (t : Transport K) : Bool × Transport K :=
  let (ok, state, recv, effects) := (receiver t.ident).advance t.recvState t.recv
  (ok, { t with
    recvState := state
    recv := recv
    out := effects.foldl (SendSide.perform t.ident) t.out })

/-- `bip324_t_is_v1` -/
def isV1 : RecvState K → Bool
  | .v1 => true
  | _ => false

def bip324TFeed (t : Transport K) (data : List UInt8) : Bool × Transport K :=
  let t := { t with recv := t.recv ++ data }
  if isV1 t.recvState then (true, t) else advance t

/-- Whether the keys are there. -/
def keysReady : RecvState K → Bool
  | .garbage _ => true
  | .version _ _ _ => true
  | .app _ _ _ => true
  | _ => false

inductive NextResult where
  | message (m : Message)
  | none
  | violation

/-- The message is handed out and forgotten. -/
def collect (t : Transport K) : NextResult × Transport K :=
  match ready t.recvState with
  | some (m, state) => (.message m, { t with recvState := state })
  | Option.none => (.none, t)

def bip324TNextMessage (t : Transport K) : NextResult × Transport K :=
  if (ready t.recvState).isSome then collect t
  else if ¬ keysReady t.recvState then (.none, t)
  else
    let (ok, t') := advance t
    if ok then collect t' else (.violation, t')

/-- Ready, or a protocol violation the read will report. -/
def bip324THasMessage (t : Transport K) : Bool × Transport K :=
  if (ready t.recvState).isSome then (true, t)
  else if ¬ keysReady t.recvState then (false, t)
  else
    let (ok, t') := advance t
    if ok then ((ready t'.recvState).isSome, t') else (true, t')

end Calls

/-! ## A session -/

inductive Call where
  | feed (data : List UInt8)
  | hasMessage
  | nextMessage

/-- The transport with all that was fed to it and all that came out; a read that fails ends
the session. -/
structure Session (K : CipherSuite) where
  transport : Transport K
  fed : List UInt8
  delivered : List Message
  ended : Bool

namespace Session

variable {K : CipherSuite}

def start (t : Transport K) : Session K := ⟨t, [], [], false⟩

def callOpen (s : Session K) : Call → Session K
  | .feed data =>
      { s with
        transport := (bip324TFeed s.transport data).2
        fed := s.fed ++ data
        ended := !(bip324TFeed s.transport data).1 }
  | .hasMessage => { s with transport := (bip324THasMessage s.transport).2 }
  | .nextMessage =>
      match bip324TNextMessage s.transport with
      | (.message m, t) => { s with transport := t, delivered := s.delivered ++ [m] }
      | (.none, t) => { s with transport := t }
      | (.violation, t) => { s with transport := t, ended := true }

def call (s : Session K) (c : Call) : Session K := if s.ended then s else s.callOpen c

def run (s : Session K) (cs : List Call) : Session K := cs.foldl call s

/-- What is buffered leads to a bad packet before it leads to a message. -/
def BadAhead (s : Session K) : Prop :=
  (receiver s.transport.ident).Violation s.transport.recvState s.transport.recv

/-- No query of the run is the call that meets the bad packet. -/
def NoBadQuery : Session K → List Call → Prop
  | _, [] => True
  | s, .hasMessage :: cs => (s.ended = false → ¬ s.BadAhead) ∧ NoBadQuery (s.call .hasMessage) cs
  | s, c :: cs => NoBadQuery (s.call c) cs

end Session

/-! ## What the stream yields -/

section Yields

variable {K : CipherSuite}

/-- What the buffered bytes and those to come yield. -/
def Transport.yields (t : Transport K) (more : List UInt8) : List Message × Bool :=
  (receiver t.ident).yields t.recvState (t.recv ++ more)

@[simp] theorem advance_ident (t : Transport K) : (advance t).2.ident = t.ident := rfl

theorem yields_advance {t : Transport K} (h : (advance t).1 = true) (more : List UInt8) :
    (advance t).2.yields more = t.yields more :=
  Resumable.yields_advance h more

theorem yields_of_fail {t : Transport K} (h : (advance t).1 = false) (more : List UInt8) :
    t.yields more = ([], false) :=
  Resumable.yields_of_advance_fail h more

theorem yields_recv (t : Transport K) (data more : List UInt8) :
    Transport.yields { t with recv := t.recv ++ data } more = t.yields (data ++ more) := by
  simp [Transport.yields]

theorem yields_feed {t : Transport K} {data : List UInt8} (h : (bip324TFeed t data).1 = true)
    (more : List UInt8) : (bip324TFeed t data).2.yields more = t.yields (data ++ more) := by
  rw [← yields_recv]
  unfold bip324TFeed at h ⊢
  dsimp only at h ⊢
  split_ifs at h ⊢
  · rfl
  · exact yields_advance h more

@[simp] theorem feed_ident (t : Transport K) (data : List UInt8) :
    (bip324TFeed t data).2.ident = t.ident := by
  unfold bip324TFeed
  dsimp only
  split_ifs <;> rfl

/-- Reading takes the next message off what is yielded, if there is one. -/
theorem nextMessage_spec (t : Transport K) :
    (bip324TNextMessage t).2.ident = t.ident ∧
      match (bip324TNextMessage t).1 with
      | .message m => ∀ more, t.yields more =
          (m :: ((bip324TNextMessage t).2.yields more).1, ((bip324TNextMessage t).2.yields more).2)
      | .none => ∀ more, (bip324TNextMessage t).2.yields more = t.yields more
      | .violation => ∀ more, t.yields more = ([], false) := by
  have hcollect : ∀ u : Transport K, u.ident = t.ident → (∀ more, u.yields more = t.yields more) →
      (collect u).2.ident = t.ident ∧
        match (collect u).1 with
        | .message m => ∀ more, t.yields more =
            (m :: ((collect u).2.yields more).1, ((collect u).2.yields more).2)
        | .none => ∀ more, (collect u).2.yields more = t.yields more
        | .violation => ∀ more, t.yields more = ([], false) := by
    intro u hident hyields
    unfold collect
    split
    next m state hready =>
      refine ⟨hident, fun more => ?_⟩
      rw [← hyields]
      exact Resumable.yields_ready hready _
    next hready => exact ⟨hident, hyields⟩
  unfold bip324TNextMessage
  split_ifs with hready hkeys
  · exact hcollect t rfl fun _ => rfl
  · dsimp only
    split_ifs with hok
    · exact hcollect _ rfl (yields_advance hok)
    · exact ⟨rfl, yields_of_fail (eq_false_of_ne_true hok)⟩
  · exact ⟨rfl, fun _ => rfl⟩

theorem hasMessage_spec {t : Transport K} (hok : (advance t).1 = true) :
    (bip324THasMessage t).2.ident = t.ident ∧
      ∀ more, (bip324THasMessage t).2.yields more = t.yields more := by
  unfold bip324THasMessage
  dsimp only
  split_ifs
  · exact ⟨rfl, fun _ => rfl⟩
  · exact ⟨rfl, yields_advance hok⟩
  · exact ⟨rfl, fun _ => rfl⟩

end Yields

/-! ## Nothing after a bad packet -/

namespace Session

variable {K : CipherSuite}

/-- What was delivered is the front of what the stream so far yields, and while the session
lasts the rest is still to come. -/
structure Tracks (t : Transport K) (s : Session K) : Prop where
  before : s.delivered <+: (t.yields s.fed).1
  goesOn : s.ended = false → s.transport.ident = t.ident ∧
    ∀ more, t.yields (s.fed ++ more) =
      (s.delivered ++ (s.transport.yields more).1, (s.transport.yields more).2)

theorem tracks_start {t : Transport K} : Tracks t (start t) :=
  ⟨List.nil_prefix, fun _ => ⟨rfl, fun _ => rfl⟩⟩

/-- While the session lasts, what is still to come is enough. -/
theorem tracks_of_goesOn {t : Transport K} {s : Session K}
    (hident : s.transport.ident = t.ident)
    (h : ∀ more, t.yields (s.fed ++ more) =
      (s.delivered ++ (s.transport.yields more).1, (s.transport.yields more).2)) : Tracks t s := by
  refine ⟨?_, fun _ => ⟨hident, h⟩⟩
  have hnow := h []
  rw [List.append_nil] at hnow
  rw [hnow]
  exact List.prefix_append _ _

theorem Tracks.feed {t : Transport K} {s : Session K} (h : Tracks t s) (hopen : s.ended = false)
    (data : List UInt8) : Tracks t (s.callOpen (.feed data)) := by
  obtain ⟨hident, hmore⟩ := h.goesOn hopen
  cases hok : (bip324TFeed s.transport data).1 with
  | true =>
      apply tracks_of_goesOn
      · simpa [callOpen] using hident
      · intro more
        simp only [callOpen]
        rw [yields_feed hok, List.append_assoc]
        exact hmore (data ++ more)
  | false =>
      refine ⟨?_, fun hgoes => by simp [callOpen, hok] at hgoes⟩
      simp only [callOpen]
      rw [hmore data]
      exact List.prefix_append _ _

theorem Tracks.hasMessage {t : Transport K} {s : Session K} (h : Tracks t s)
    (hopen : s.ended = false) (hgood : ¬ s.BadAhead) : Tracks t (s.callOpen .hasMessage) := by
  obtain ⟨hident, hmore⟩ := h.goesOn hopen
  obtain ⟨hident', hsame⟩ := hasMessage_spec (Resumable.advance_of_not_violation hgood)
  apply tracks_of_goesOn
  · exact hident'.trans hident
  · intro more
    simp only [callOpen]
    rw [hsame more]
    exact hmore more

theorem Tracks.nextMessage {t : Transport K} {s : Session K} (h : Tracks t s)
    (hopen : s.ended = false) : Tracks t (s.callOpen .nextMessage) := by
  obtain ⟨hident, hmore⟩ := h.goesOn hopen
  obtain ⟨hident', hspec⟩ := nextMessage_spec s.transport
  simp only [callOpen]
  split
  next m t' hnext =>
    rw [hnext] at hident' hspec
    apply tracks_of_goesOn
    · exact hident'.trans hident
    · intro more
      rw [hmore more, hspec more]
      simp
  next t' hnext =>
    rw [hnext] at hident' hspec
    apply tracks_of_goesOn
    · exact hident'.trans hident
    · intro more
      rw [hmore more, hspec more]
  next t' hnext => exact ⟨h.before, fun hgoes => by cases hgoes⟩

theorem Tracks.call {t : Transport K} {s : Session K} (h : Tracks t s) (c : Call)
    (hgood : c = .hasMessage → s.ended = false → ¬ s.BadAhead) : Tracks t (s.call c) := by
  unfold Session.call
  cases hopen : s.ended with
  | true => exact h
  | false =>
      cases c with
      | feed data => exact h.feed hopen data
      | hasMessage => exact h.hasMessage hopen (hgood rfl hopen)
      | nextMessage => exact h.nextMessage hopen

theorem Tracks.run {t : Transport K} {s : Session K} (h : Tracks t s) (cs : List Call)
    (hgood : NoBadQuery s cs) : Tracks t (s.run cs) := by
  induction cs generalizing s with
  | nil => exact h
  | cons c cs ih =>
      cases c with
      | hasMessage => exact ih (h.call .hasMessage fun _ => hgood.1) hgood.2
      | feed data => exact ih (h.call (.feed data) nofun) hgood
      | nextMessage => exact ih (h.call .nextMessage nofun) hgood

end Session

theorem delivered_before_bad {K : CipherSuite} (t : Transport K) (cs : List Call)
    (hgood : (Session.start t).NoBadQuery cs) :
    ((Session.start t).run cs).delivered <+: (t.yields ((Session.start t).run cs).fed).1 :=
  (Session.tracks_start.run cs hgood).before

/-! ## A query meets the bad packet -/

def clearPacket (n : Nat) (contents : List UInt8) (ignore : Bool) : List UInt8 :=
  leBytes 3 contents.length ++ [if ignore then 0x80 else 0] ++ contents ++ leBytes 16 n

/-- A cipher in the clear.  The tag is the packet's number: a packet opens at the place it
was made for and nowhere else. -/
def clearSuite : CipherSuite where
  Send := Nat
  Recv := Nat
  init _ _ _ _ _ := some (0, 0)
  sendGarbageTerminator _ := List.replicate 16 7
  recvGarbageTerminator _ := List.replicate 16 7
  length_terminator _ := rfl
  encrypt n contents _ ignore := (clearPacket n contents ignore, n + 1)
  decryptLength n bs := (leVal bs, n)
  decrypt n packet _ :=
    (if packet.drop (packet.length - 16) = leBytes 16 n then
      some ((packet.take (packet.length - 16)).drop 1, decide (packet.getD 0 0 = 0x80))
    else none, n + 1)

def someIdentity : Identity where
  seckey := ⟨List.replicate 32 1, rfl⟩
  ellswift := ⟨List.replicate 64 2, rfl⟩
  netMagic := ⟨[0xf9, 0xbe, 0xb4, 0xd9], rfl⟩
  initiator := true

def freshTransport : Transport clearSuite :=
  ⟨someIdentity, .key, [], ⟨List.replicate 64 2, [], none⟩⟩

/-- A packet with a `ping` and no payload, tagged for place `n`. -/
def pingPacket (n : Nat) : List UInt8 := clearPacket n [18] false

/-- Key, terminator, version packet, a good packet, one with a wrong tag, a good one. -/
def mixedStream : List UInt8 :=
  List.replicate 64 3 ++ List.replicate 16 7 ++ clearPacket 0 [] false ++
    pingPacket 1 ++ pingPacket 9 ++ pingPacket 3

def ping : Message := ⟨ascii ['p', 'i', 'n', 'g'], []⟩

/-- A read that takes the first message, a query, and the next read. -/
def servedCalls : List Call :=
  [.nextMessage, .feed mixedStream, .nextMessage, .hasMessage, .nextMessage]

theorem delivered_past_bad :
    bip324TInit someIdentity [] = some freshTransport ∧
      ¬ ((Session.start freshTransport).run servedCalls).delivered <+:
        (freshTransport.yields ((Session.start freshTransport).run servedCalls).fed).1 := by
  refine ⟨rfl, ?_⟩
  have hfirst : Session.Tracks freshTransport
      ((Session.start freshTransport).run [.nextMessage, .feed mixedStream, .nextMessage]) :=
    Session.tracks_start.run _ trivial
  have hopen : ((Session.start freshTransport).run
      [.nextMessage, .feed mixedStream, .nextMessage]).ended = false := by decide +kernel
  have hbad : (advance ((Session.start freshTransport).run
      [.nextMessage, .feed mixedStream, .nextMessage]).transport).1 = false := by decide +kernel
  have hdelivered : ((Session.start freshTransport).run
      [.nextMessage, .feed mixedStream, .nextMessage]).delivered = [ping] := by decide +kernel
  have hfed : ((Session.start freshTransport).run
      [.nextMessage, .feed mixedStream, .nextMessage]).fed = mixedStream := by decide +kernel
  have hall := (hfirst.goesOn hopen).2 []
  have hnone : ((Session.start freshTransport).run
      [.nextMessage, .feed mixedStream, .nextMessage]).transport.yields [] = ([], false) :=
    yields_of_fail hbad []
  rw [hfed, hdelivered, hnone, List.append_nil] at hall
  have hend : ((Session.start freshTransport).run servedCalls).delivered = [ping, ping] := by
    decide +kernel
  have hfed' : ((Session.start freshTransport).run servedCalls).fed = mixedStream := by
    decide +kernel
  rw [hend, hfed', hall]
  decide

theorem delivered_before_bad_read :
    ((Session.start freshTransport).run
      [.hasMessage, .feed mixedStream, .nextMessage, .nextMessage]).delivered <+:
      (freshTransport.yields ((Session.start freshTransport).run
        [.hasMessage, .feed mixedStream, .nextMessage, .nextMessage]).fed).1 := by
  refine delivered_before_bad freshTransport _ ⟨fun _ hbad => ?_, trivial⟩
  cases hbad with
  | here h => cases h
  | later h _ => cases h

end BitcoinMachineCode.Network
