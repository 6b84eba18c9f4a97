import BitcoinMachineCode.Foundation.Frames
import BitcoinMachineCode.Storage.Coins

/-!
# The undo store

`daemon/undo_store.h` and the writer in `daemon/undo_log.c`.  A block's undo
data is a run of records in a `rev` file, closed by an END marker; `undo.idx`
has a slot for every height that says where its run starts.  A reader starts
at the slot and takes records until the END marker, the end of the file, or
something that is not a whole record.
-/

namespace BitcoinMachineCode.Storage

open BitcoinMachineCode.Foundation

/-! ## Records -/

/-- What one input spent. -/
structure UndoRec where
  o : Outpoint
  coin : Coin
  deriving DecidableEq

def undoRecHdr : Nat := 51

def UndoRec.header (r : UndoRec) : List UInt8 :=
  r.o.txid.bytes ++ (leBytes 4 r.o.index.toNat ++ (leBytes 8 r.coin.value.toNat ++
    (leBytes 4 r.coin.height.toNat ++
      (leBytes 1 (if r.coin.isCoinbase then 1 else 0) ++
        leBytes 2 r.coin.script.length))))

def UndoRec.encode (r : UndoRec) : List UInt8 := r.header ++ r.coin.script

/-- `us_make_end` -/
def usMakeEnd (height : Nat) : List UInt8 :=
  List.replicate 32 0xFF ++ (leBytes 4 0xFFFFFFFF ++ (leBytes 8 height ++
    (leBytes 4 0 ++ (leBytes 1 0xFF ++ leBytes 2 0))))

/-- The bytes of a header field. -/
def field (bytes : List UInt8) (off len : Nat) : List UInt8 :=
  (bytes.drop off).take len

/-- `us_is_end` -/
def usIsEnd (hdr : List UInt8) : Bool :=
  leVal (field hdr 32 4) == 0xFFFFFFFF && leVal (field hdr 48 1) == 0xFF &&
    leVal (field hdr 49 2) == 0 && (field hdr 0 32).all (· == 0xFF)

/-- One turn of the reader's inner loop, at the end of what the file has. -/
def undoNext (bytes : List UInt8) : Head UndoRec :=
  if bytes = [] then .stop
  else if bytes.length < undoRecHdr then .torn
  else if usIsEnd bytes then .stop
  else if hbad : maxScriptSize < leVal (field bytes 49 2) then .torn
  else if bytes.length < undoRecHdr + leVal (field bytes 49 2) then .torn
  else
    .frame
      ⟨⟨Txid.ofBytes (field bytes 0 32),
          UInt32.ofNat (leVal (field bytes 32 4))⟩,
        ⟨UInt64.ofNat (leVal (field bytes 36 8)),
          UInt32.ofNat (leVal (field bytes 44 4)),
          leVal (field bytes 48 1) != 0,
          field bytes undoRecHdr (leVal (field bytes 49 2)),
          (List.length_take_le _ _).trans (Nat.le_of_not_lt hbad)⟩⟩
      (bytes.drop (undoRecHdr + leVal (field bytes 49 2)))

@[simp] theorem UndoRec.length_header (r : UndoRec) :
    r.header.length = undoRecHdr := by
  simp [UndoRec.header, r.o.txid.length_eq, undoRecHdr]

@[simp] theorem UndoRec.length_encode (r : UndoRec) :
    r.encode.length = undoRecHdr + r.coin.script.length := by
  simp [UndoRec.encode]

@[simp] theorem length_usMakeEnd (height : Nat) :
    (usMakeEnd height).length = undoRecHdr := by
  simp [usMakeEnd, undoRecHdr]

theorem field_head (xs ys : List UInt8) {n : Nat}
    (h : xs.length = n) : field (xs ++ ys) 0 n = xs := by
  simp [field, ← h]

theorem field_skip (xs ys : List UInt8) {n : Nat} (off len : Nat)
    (h : xs.length = n) : field (xs ++ ys) (n + off) len = field ys off len := by
  rw [field, ← List.drop_drop, ← h, List.drop_left]
  rfl

theorem field_append (xs ys : List UInt8) {off len : Nat}
    (h : off + len ≤ xs.length) : field (xs ++ ys) off len = field xs off len := by
  rw [field, field, List.drop_append_of_le_length (by omega),
    List.take_append_of_le_length (by rw [List.length_drop]; omega)]

theorem field_take (xs : List UInt8) {off len n : Nat}
    (h : off + len ≤ n) : field (xs.take n) off len = field xs off len := by
  rw [field, field, List.drop_take, List.take_take, Nat.min_eq_left (by omega)]

/-- The fixed part of a stored coin: what an undo record, a log record and a
checkpoint record have in common. -/
def coinHeader (txid : Txid) (index value height coinbase slen : Nat) :
    List UInt8 :=
  txid.bytes ++ (leBytes 4 index ++ (leBytes 8 value ++
    (leBytes 4 height ++ (leBytes 1 coinbase ++ leBytes 2 slen))))

@[simp] theorem length_coinHeader (txid : Txid)
    (index value height coinbase slen : Nat) :
    (coinHeader txid index value height coinbase slen).length = 51 := by
  simp [coinHeader, txid.length_eq]

/-- The fields of the fixed part, read where the writer put them. -/
theorem coinHeader_fields (txid : Txid)
    (index value height coinbase slen : Nat) :
    field (coinHeader txid index value height coinbase slen) 0 32 =
        txid.bytes ∧
      leVal (field (coinHeader txid index value height coinbase slen) 32 4) =
        index % 2 ^ 32 ∧
      leVal (field (coinHeader txid index value height coinbase slen) 36 8) =
        value % 2 ^ 64 ∧
      leVal (field (coinHeader txid index value height coinbase slen) 44 4) =
        height % 2 ^ 32 ∧
      leVal (field (coinHeader txid index value height coinbase slen) 48 1) =
        coinbase % 2 ^ 8 ∧
      leVal (field (coinHeader txid index value height coinbase slen) 49 2) =
        slen % 2 ^ 16 := by
  have htx : txid.bytes.length = 32 := txid.length_eq
  refine ⟨field_head _ _ htx, ?_, ?_, ?_, ?_, ?_⟩
  · rw [coinHeader, show (32 : Nat) = 32 + 0 by rfl, field_skip _ _ _ _ htx,
      field_head _ _ (length_leBytes _ _), leVal_leBytes]
    rfl
  · rw [coinHeader, show (36 : Nat) = 32 + (4 + 0) by rfl,
      field_skip _ _ _ _ htx, field_skip _ _ _ _ (length_leBytes _ _),
      field_head _ _ (length_leBytes _ _), leVal_leBytes]
    rfl
  · rw [coinHeader, show (44 : Nat) = 32 + (4 + (8 + 0)) by rfl,
      field_skip _ _ _ _ htx, field_skip _ _ _ _ (length_leBytes _ _),
      field_skip _ _ _ _ (length_leBytes _ _),
      field_head _ _ (length_leBytes _ _), leVal_leBytes]
    rfl
  · rw [coinHeader, show (48 : Nat) = 32 + (4 + (8 + (4 + 0))) by rfl,
      field_skip _ _ _ _ htx, field_skip _ _ _ _ (length_leBytes _ _),
      field_skip _ _ _ _ (length_leBytes _ _),
      field_skip _ _ _ _ (length_leBytes _ _),
      field_head _ _ (length_leBytes _ _), leVal_leBytes]
    rfl
  · rw [coinHeader, show (49 : Nat) = 32 + (4 + (8 + (4 + (1 + 0)))) by rfl,
      field_skip _ _ _ _ htx, field_skip _ _ _ _ (length_leBytes _ _),
      field_skip _ _ _ _ (length_leBytes _ _),
      field_skip _ _ _ _ (length_leBytes _ _),
      field_skip _ _ _ _ (length_leBytes _ _), field,
      List.drop_zero, List.take_of_length_le (by simp), leVal_leBytes]
    rfl

private theorem UndoRec.header_fields (r : UndoRec) :
    field r.header 0 32 = r.o.txid.bytes ∧
      leVal (field r.header 32 4) = r.o.index.toNat ∧
      leVal (field r.header 36 8) = r.coin.value.toNat ∧
      leVal (field r.header 44 4) = r.coin.height.toNat ∧
      leVal (field r.header 48 1) = (if r.coin.isCoinbase then 1 else 0) ∧
      leVal (field r.header 49 2) = r.coin.script.length := by
  have hscript := r.coin.script_le
  have hidx := r.o.index.toNat_lt
  have hval := r.coin.value.toNat_lt
  have hheight := r.coin.height.toNat_lt
  obtain ⟨h0, h32, h36, h44, h48, h49⟩ := coinHeader_fields r.o.txid
    r.o.index.toNat r.coin.value.toNat r.coin.height.toNat
    (if r.coin.isCoinbase then 1 else 0) r.coin.script.length
  refine ⟨h0, h32.trans (Nat.mod_eq_of_lt hidx),
    h36.trans (Nat.mod_eq_of_lt hval), h44.trans (Nat.mod_eq_of_lt hheight),
    h48.trans (Nat.mod_eq_of_lt ?_), h49.trans (Nat.mod_eq_of_lt ?_)⟩
  · split <;> omega
  · simp only [maxScriptSize] at hscript
    omega

/-- The script length, where the reader of a run looks for it. -/
theorem UndoRec.slen_encode (r : UndoRec) (rest : List UInt8) :
    leVal (field (r.encode ++ rest) 49 2) = r.coin.script.length := by
  obtain ⟨-, -, -, -, -, h49⟩ := r.header_fields
  rw [UndoRec.encode, List.append_assoc, field_append, h49]
  rw [r.length_header]
  decide

/-- A record is never taken for the END marker: its coinbase byte is a bit. -/
private theorem usIsEnd_eq_false {bytes : List UInt8}
    (h : leVal (field bytes 48 1) ≤ 1) : usIsEnd bytes = false := by
  have hne : (leVal (field bytes 48 1) == 0xFF) = false := by
    rw [beq_eq_false_iff_ne]
    omega
  simp [usIsEnd, hne]

theorem undoNext_end (height : Nat) (rest : List UInt8) :
    undoNext (usMakeEnd height ++ rest) = .stop := by
  have hlen : undoRecHdr ≤ (usMakeEnd height ++ rest).length := by simp
  have hend : usIsEnd (usMakeEnd height ++ rest) = true := by
    have h0 : field (usMakeEnd height ++ rest) 0 32 =
        List.replicate 32 0xFF := by
      rw [field_append _ _ (by simp [undoRecHdr])]
      exact field_head _ _ (by simp)
    have h32 : leVal (field (usMakeEnd height ++ rest) 32 4) = 0xFFFFFFFF := by
      rw [field_append _ _ (by simp [undoRecHdr]), usMakeEnd,
        show (32 : Nat) = 32 + 0 by rfl, field_skip _ _ _ _ (by simp),
        field_head _ _ (length_leBytes _ _)]
      decide
    have h48 : leVal (field (usMakeEnd height ++ rest) 48 1) = 0xFF := by
      rw [field_append _ _ (by simp [undoRecHdr]), usMakeEnd,
        show (48 : Nat) = 32 + (4 + (8 + (4 + 0))) by rfl,
        field_skip _ _ _ _ (by simp), field_skip _ _ _ _ (length_leBytes _ _),
        field_skip _ _ _ _ (length_leBytes _ _),
        field_skip _ _ _ _ (length_leBytes _ _),
        field_head _ _ (length_leBytes _ _)]
      decide
    have h49 : leVal (field (usMakeEnd height ++ rest) 49 2) = 0 := by
      rw [field_append _ _ (by simp [undoRecHdr]), usMakeEnd,
        show (49 : Nat) = 32 + (4 + (8 + (4 + (1 + 0)))) by rfl,
        field_skip _ _ _ _ (by simp), field_skip _ _ _ _ (length_leBytes _ _),
        field_skip _ _ _ _ (length_leBytes _ _),
        field_skip _ _ _ _ (length_leBytes _ _),
        field_skip _ _ _ _ (length_leBytes _ _)]
      decide
    simp [usIsEnd, h0, h32, h48, h49]
  have hne : usMakeEnd height ++ rest ≠ [] := by
    intro h
    rw [h] at hlen
    simp [undoRecHdr] at hlen
  rw [undoNext, if_neg hne, if_neg (by omega), if_pos hend]

/-- The reader takes back exactly what the writer wrote. -/
theorem undo_framed : Framed undoNext UndoRec.encode where
  next_nil := rfl
  next_encode := by
    intro r rest
    obtain ⟨h0, h32, h36, h44, h48, -⟩ := r.header_fields
    have hscript := r.coin.script_le
    have hfield : ∀ off len, off + len ≤ undoRecHdr →
        field (r.encode ++ rest) off len = field r.header off len := by
      intro off len hle
      rw [UndoRec.encode, List.append_assoc, field_append]
      rw [r.length_header]
      exact hle
    simp only [undoRecHdr] at hfield
    have hne : r.encode ++ rest ≠ [] := by
      intro h
      have := congrArg List.length h
      simp [undoRecHdr] at this
    have hend : usIsEnd (r.encode ++ rest) = false := by
      apply usIsEnd_eq_false
      rw [hfield 48 1 (by omega), h48]
      split <;> omega
    have hslen := r.slen_encode rest
    have hbody : field (r.encode ++ rest) undoRecHdr r.coin.script.length =
        r.coin.script := by
      rw [UndoRec.encode, List.append_assoc,
        show undoRecHdr = undoRecHdr + 0 by rfl,
        field_skip _ _ _ _ r.length_header, field_head _ _ rfl]
    rw [undoNext, if_neg hne, if_neg (by simp; omega), if_neg (by simp [hend]),
      dif_neg (by omega), if_neg (by simp [hslen])]
    congr 1
    · have hcb : (leVal (field (r.encode ++ rest) 48 1) != 0) =
          r.coin.isCoinbase := by
        rw [hfield 48 1 (by omega), h48]
        cases r.coin.isCoinbase <;> rfl
      simp only [hslen, hbody, hfield 0 32 (by omega), h0,
        hfield 32 4 (by omega), h32, hfield 36 8 (by omega), h36,
        hfield 44 4 (by omega), h44, hcb, Txid.ofBytes_bytes,
        UInt32.ofNat_toNat, UInt64.ofNat_toNat]
    · rw [hslen, ← r.length_encode, List.drop_left]
  next_cut := by
    intro r n hpos hlt
    obtain ⟨-, -, -, -, h48, h49⟩ := r.header_fields
    have hscript := r.coin.script_le
    have hlen : (r.encode.take n).length = n := by
      rw [List.length_take]
      omega
    have hne : r.encode.take n ≠ [] := by
      intro h
      rw [h] at hlen
      simp at hlen
      omega
    rw [undoNext, if_neg hne]
    by_cases hshort : n < undoRecHdr
    · rw [if_pos (by rw [hlen]; exact hshort)]
    · have hfield : ∀ off len, off + len ≤ undoRecHdr →
          field (r.encode.take n) off len = field r.header off len := by
        intro off len hle
        rw [field_take _ (by omega), UndoRec.encode, field_append]
        rw [r.length_header]
        exact hle
      simp only [undoRecHdr] at hfield
      have hend : usIsEnd (r.encode.take n) = false := by
        apply usIsEnd_eq_false
        rw [hfield 48 1 (by omega), h48]
        split <;> omega
      have hslen : leVal (field (r.encode.take n) 49 2) =
          r.coin.script.length := by
        rw [hfield 49 2 (by omega), h49]
      rw [if_neg (by rw [hlen]; exact hshort), if_neg (by simp [hend]),
        dif_neg (by omega), if_pos]
      rw [hlen, hslen, ← r.length_encode]
      exact hlt
  next_shorter := by
    intro bytes r rest h
    rw [undoNext] at h
    split at h
    · cases h
    · split at h
      · cases h
      · split at h
        · cases h
        · split at h
          · cases h
          · split at h
            · cases h
            · cases h
              rw [List.length_drop]
              simp only [undoRecHdr] at *
              omega

/-- The END marker, whole or cut, is no record. -/
theorem scan_end_take (height : Nat) (rest : List UInt8) (n : Nat) :
    (scan undoNext ((usMakeEnd height ++ rest).take n)).1 = [] := by
  rcases Nat.lt_or_ge n undoRecHdr with hlt | hge
  · rcases Nat.eq_zero_or_pos n with rfl | hpos
    · rfl
    · have hlen : ((usMakeEnd height ++ rest).take n).length = n := by
        rw [List.length_take, List.length_append, length_usMakeEnd]
        omega
      have hne : (usMakeEnd height ++ rest).take n ≠ [] := by
        intro h
        rw [h] at hlen
        exact absurd hlen (by simp; omega)
      have htorn : undoNext ((usMakeEnd height ++ rest).take n) = .torn := by
        rw [undoNext, if_neg hne, if_pos (by omega)]
      simp [scan, scanFuel, htorn]
  · rw [List.take_append, List.take_of_length_le (by simpa using hge),
      Framed.scan_stop (undoNext_end height _)]

end BitcoinMachineCode.Storage
