import BitcoinMachineCode.Foundation.Digits

/-!
# The records of the coin statistics ring

What `daemon/coinstats_index.c` passes from the connect process to its fold worker: coin
events, and markers between them.  A record takes one slot of the ring, and a coin with a
long script takes slots behind it for the rest of the script.
-/

namespace BitcoinMachineCode.Storage.StatsRing

open BitcoinMachineCode.Foundation

def ringSlots : Nat := 524288

def bodyBytes : Nat := 176

def hdrBytes : Nat := 52

def inlineBytes : Nat := bodyBytes - hdrBytes

def scriptMax : Nat := 10000

inductive Kind where
  | empty
  | add
  | remove
  | cont
  | commit
  | inval
  | stop
  | row
  deriving DecidableEq

/-- A coin as `utxo_stats_add` takes it: the outpoint, the value, the height with the coinbase
bit, the script. -/
structure CoinRec where
  key : Fin 36 → UInt8
  value : UInt64
  code : UInt64
  script : List UInt8

inductive Entry where
  | coin (isAdd : Bool) (c : CoinRec)
  | row (h : Int64)
  | commit (h : Int64)
  | inval
  | stop

/-- What `slot_fill` stores under one sequence number. -/
structure Piece where
  kind : Kind
  slen : UInt32
  bytes : List UInt8

/-- A slot of `csi_ring` without its stamp. -/
structure Cell where
  kind : Kind
  slen : UInt32
  body : Nat → UInt8

def coinKind : Bool → Kind
  | true => .add
  | false => .remove

def CoinRec.head (c : CoinRec) : List UInt8 :=
  List.ofFn c.key ++ (leBytes 8 c.value.toNat ++ (leBytes 8 c.code.toNat ++ c.script.take inlineBytes))

def contSlots (slen : Nat) : Nat :=
  if inlineBytes < slen then (slen - inlineBytes + bodyBytes - 1) / bodyBytes else 0

def chunk (script : List UInt8) (i : Nat) : List UInt8 :=
  (script.drop (inlineBytes + bodyBytes * i)).take bodyBytes

def contPiece (script : List UInt8) (i : Nat) : Piece :=
  ⟨.cont, UInt32.ofNat (chunk script i).length, chunk script i⟩

def heightBytes (h : Int64) : List UInt8 := leBytes 8 h.toUInt64.toNat

/-- The slots of a record as `ring_push` fills them.  The reason of an `inval` is text for the
log and is left out. -/
def Entry.pieces : Entry → List Piece
  | .coin isAdd c =>
      ⟨coinKind isAdd, UInt32.ofNat c.script.length, c.head⟩ ::
        (List.range (contSlots c.script.length)).map (contPiece c.script)
  | .row h => [⟨.row, 0, heightBytes h⟩]
  | .commit h => [⟨.commit, 0, heightBytes h⟩]
  | .inval => [⟨.inval, 0, []⟩]
  | .stop => [⟨.stop, 0, []⟩]

/-! ## What the worker makes of a body -/

def decodeCoin (isAdd : Bool) (body script : List UInt8) : Entry :=
  .coin isAdd
    ⟨fun i => body.getD i 0, UInt64.ofNat (leVal ((body.drop 36).take 8)),
      UInt64.ofNat (leVal ((body.drop 44).take 8)), script⟩

def inlineScript (slen : Nat) (body : List UInt8) : List UInt8 :=
  (body.drop hdrBytes).take (min slen inlineBytes)

def decodeHeight (body : List UInt8) : Int64 := (UInt64.ofNat (leVal (body.take 8))).toInt64

theorem drop_of_prefix_append {pre mid body : List UInt8} (h : pre ++ mid <+: body) :
    mid <+: body.drop pre.length := by
  obtain ⟨rest, rfl⟩ := h
  simp [List.append_assoc]

theorem take_of_isPrefix {pre body : List UInt8} (h : pre <+: body) : body.take pre.length = pre := by
  obtain ⟨rest, rfl⟩ := h
  simp

theorem leVal_le8 (v : UInt64) : UInt64.ofNat (leVal (leBytes 8 v.toNat)) = v := by
  have hlt : v.toNat < 256 ^ 8 := v.toNat_lt
  rw [leVal_leBytes, Nat.mod_eq_of_lt hlt, UInt64.ofNat_toNat]

theorem le8_of_isPrefix {v : UInt64} {body tail : List UInt8} (h : leBytes 8 v.toNat ++ tail <+: body) :
    UInt64.ofNat (leVal (body.take 8)) = v := by
  have htake := take_of_isPrefix ((List.prefix_append _ tail).trans h)
  rw [length_leBytes] at htake
  rw [htake, leVal_le8]

theorem decodeHeight_of_isPrefix {h : Int64} {body : List UInt8} (hbody : heightBytes h <+: body) :
    decodeHeight body = h := by
  have hval : UInt64.ofNat (leVal (body.take 8)) = h.toUInt64 := by
    apply @le8_of_isPrefix _ _ []
    simpa [heightBytes] using hbody
  rw [decodeHeight, hval, Int64.toInt64_toUInt64]

section Coins

variable {c : CoinRec} {body : List UInt8}

theorem CoinRec.rest_of_head (h : c.head <+: body) :
    leBytes 8 c.value.toNat ++ (leBytes 8 c.code.toNat ++ c.script.take inlineBytes) <+: body.drop 36 := by
  have hdrop := drop_of_prefix_append h
  rwa [List.length_ofFn] at hdrop

theorem CoinRec.code_of_head (h : c.head <+: body) :
    leBytes 8 c.code.toNat ++ c.script.take inlineBytes <+: body.drop 44 := by
  have hdrop := drop_of_prefix_append (CoinRec.rest_of_head h)
  rwa [length_leBytes, List.drop_drop] at hdrop

theorem CoinRec.script_of_head (h : c.head <+: body) : c.script.take inlineBytes <+: body.drop hdrBytes := by
  have hdrop := drop_of_prefix_append (CoinRec.code_of_head h)
  rwa [length_leBytes, List.drop_drop] at hdrop

theorem decodeCoin_of_isPrefix (isAdd : Bool) (h : c.head <+: body) :
    decodeCoin isAdd body c.script = .coin isAdd c := by
  have hkey : (fun i : Fin 36 => body.getD i 0) = c.key := by
    funext i
    obtain ⟨rest, rfl⟩ := h
    have hlt : i.val < (List.ofFn c.key).length := by simp
    rw [CoinRec.head, List.append_assoc, List.getD_eq_getElem?_getD, List.getElem?_append_left hlt,
      List.getElem?_eq_getElem hlt, Option.getD_some, List.getElem_ofFn]
  rw [decodeCoin, hkey, le8_of_isPrefix (CoinRec.rest_of_head h),
    le8_of_isPrefix (CoinRec.code_of_head h)]

theorem inlineScript_of_isPrefix (h : c.head <+: body) :
    inlineScript c.script.length body = c.script.take inlineBytes := by
  have htake := take_of_isPrefix (CoinRec.script_of_head h)
  rwa [List.length_take, Nat.min_comm] at htake

end Coins

/-! ## The slots of a long script -/

section Scripts

variable {script : List UInt8} {i : Nat}

theorem take_append_chunk (script : List UInt8) (i : Nat) :
    script.take (inlineBytes + bodyBytes * i) ++ chunk script i =
      script.take (inlineBytes + bodyBytes * (i + 1)) := by
  rw [chunk, ← List.take_add, Nat.mul_succ, Nat.add_assoc]

theorem length_chunk_le (script : List UInt8) (i : Nat) : (chunk script i).length ≤ bodyBytes := by
  simp [chunk]

theorem length_le_slots (script : List UInt8) (hlong : inlineBytes < script.length) :
    script.length ≤ inlineBytes + bodyBytes * contSlots script.length := by
  simp only [contSlots, hlong, if_true]
  simp only [inlineBytes, bodyBytes, hdrBytes] at *
  omega

theorem length_lt_of_slots (h : 1 + contSlots script.length ≤ ringSlots) : script.length < 2 ^ 32 := by
  by_cases hlong : inlineBytes < script.length
  · have hle := length_le_slots script hlong
    simp only [inlineBytes, bodyBytes, hdrBytes, ringSlots] at *
    omega
  · simp only [inlineBytes, bodyBytes, hdrBytes] at hlong
    omega

end Scripts

theorem Entry.pieces_ne_nil (e : Entry) : e.pieces ≠ [] := by
  cases e <;> simp [pieces]

theorem Entry.length_pieces_pos (e : Entry) : 0 < e.pieces.length :=
  List.length_pos_iff.mpr e.pieces_ne_nil

@[simp] theorem length_pieces_coin (isAdd : Bool) (c : CoinRec) :
    (Entry.coin isAdd c).pieces.length = 1 + contSlots c.script.length := by
  simp [Entry.pieces, Nat.add_comm]

theorem getElem?_pieces_coin {isAdd : Bool} {c : CoinRec} {i : Nat} (hi : i < contSlots c.script.length) :
    (Entry.coin isAdd c).pieces[i + 1]? = some (contPiece c.script i) := by
  simp [Entry.pieces, hi]

/-! ## Loads from a slot -/

/-- What is loaded so far is what was stored. -/
def Agrees (stored loaded : List UInt8) : Prop := stored.take loaded.length <+: loaded

def Cell.Holds (cell : Cell) (p : Piece) : Prop :=
  cell.kind = p.kind ∧ cell.slen = p.slen ∧ ∀ k b, p.bytes[k]? = some b → cell.body k = b

theorem agrees_nil (stored : List UInt8) : Agrees stored [] := by
  simp [Agrees]

theorem Agrees.snoc {stored loaded : List UInt8} (h : Agrees stored loaded) {b : UInt8}
    (hb : ∀ a, stored[loaded.length]? = some a → b = a) : Agrees stored (loaded ++ [b]) := by
  by_cases hlt : loaded.length < stored.length
  · have hlen : (stored.take loaded.length).length = loaded.length := by simp; omega
    have heq : stored.take loaded.length = loaded := h.eq_of_length hlen
    have hget := List.getElem?_eq_getElem hlt
    rw [Agrees, List.length_append, List.length_singleton, List.take_add_one, heq, hget, hb _ hget]
    exact List.prefix_rfl
  · have htake : ∀ n, loaded.length ≤ n → stored.take n = stored :=
      fun n hn => List.take_of_length_le (by omega)
    rw [Agrees, htake _ le_rfl] at h
    rw [Agrees, htake _ (by simp)]
    exact h.trans (List.prefix_append ..)

theorem Agrees.isPrefix {stored loaded : List UInt8} (h : Agrees stored loaded)
    (hle : stored.length ≤ loaded.length) : stored <+: loaded := by
  rwa [Agrees, List.take_of_length_le hle] at h

theorem Agrees.eq {stored loaded : List UInt8} (h : Agrees stored loaded)
    (hlen : stored.length = loaded.length) : loaded = stored :=
  ((h.isPrefix hlen.le).eq_of_length hlen).symm

end BitcoinMachineCode.Storage.StatsRing
