import BitcoinMachineCode.Storage.UndoStore

/-!
# The coin log

`utxo.dat` of `bitcoin_utxo_store.asm`: PUSH and DEL records behind an 8-byte
head of magic, operation and padding, and the checkpoint `utxo.idx`, a header
and the live coins in the shape of a PUSH body.
-/

namespace BitcoinMachineCode.Storage

open BitcoinMachineCode.Foundation

/-! ## The table -/

/-- A coin as the log carries it: the script's length is a `u16`, the coinbase
mark a byte. -/
structure LogCoin where
  value : UInt64
  height : UInt32
  isCoinbase : UInt8
  script : List UInt8
  script_lt : script.length < 65536
  deriving DecidableEq

abbrev LogEntry := Outpoint × LogCoin

/-- The live entries of the in-memory table, which is taken to be large
enough. -/
abbrev Table := List LogEntry

/-- The index that marks an empty slot. -/
def emptySlot : UInt32 := 0xFFFFFFFF

/-- `utxo_put`: a key that is there already keeps its coin, and an entry that
looks like an empty slot is never found again. -/
def utxoPut (t : Table) (e : LogEntry) : Table :=
  if e.1.index = emptySlot ∨ e.1 ∈ t.map Prod.fst then t else t ++ [e]

/-- `utxo_del` -/
def utxoDel (t : Table) (o : Outpoint) : Table :=
  t.filter fun e => e.1 ≠ o

/-- What no operation breaks: one entry a key, and none that looks empty. -/
structure Table.WellKeyed (t : Table) : Prop where
  nodup : (t.map Prod.fst).Nodup
  occupied : ∀ e ∈ t, e.1.index ≠ emptySlot

theorem Table.WellKeyed.empty : Table.WellKeyed [] :=
  ⟨List.nodup_nil, by simp⟩

theorem Table.WellKeyed.put {t : Table} (ht : t.WellKeyed) (e : LogEntry) :
    Table.WellKeyed (utxoPut t e) := by
  rw [utxoPut]
  split
  · exact ht
  · next hnew =>
      obtain ⟨hindex, hkey⟩ := not_or.mp hnew
      refine ⟨?_, ?_⟩
      · rw [List.map_append, List.nodup_append]
        refine ⟨ht.nodup, by simp, ?_⟩
        intro k hk k' hk'
        rw [List.map_singleton, List.mem_singleton] at hk'
        rintro rfl
        exact hkey (hk' ▸ hk)
      · intro e' he'
        rcases List.mem_append.mp he' with hold | hnew'
        · exact ht.occupied e' hold
        · rw [List.mem_singleton.mp hnew']
          exact hindex

theorem Table.WellKeyed.del {t : Table} (ht : t.WellKeyed) (o : Outpoint) :
    Table.WellKeyed (utxoDel t o) :=
  ⟨ht.nodup.sublist (List.filter_sublist.map _), fun e he =>
    ht.occupied e (List.mem_of_mem_filter he)⟩

/-- Putting the entries of a table into an empty one gives it back. -/
theorem foldl_utxoPut_of_wellKeyed {t more : Table}
    (h : Table.WellKeyed (t ++ more)) : more.foldl utxoPut t = t ++ more := by
  induction more generalizing t with
  | nil => simp
  | cons e more ih =>
      have hindex : e.1.index ≠ emptySlot := h.occupied e (by simp)
      have hkey : e.1 ∉ t.map Prod.fst := by
        have hnodup := h.nodup
        rw [List.map_append, List.nodup_append] at hnodup
        intro hmem
        exact hnodup.2.2 _ hmem e.1 (by simp) rfl
      have hput : utxoPut t e = t ++ [e] := by
        rw [utxoPut, if_neg (not_or.mpr ⟨hindex, hkey⟩)]
      rw [List.foldl_cons, hput, ih (by simpa using h)]
      simp

/-! ## Records -/

inductive LogOp where
  | push (o : Outpoint) (coin : LogCoin)
  | del (o : Outpoint)
  deriving DecidableEq

/-- What a record does to the table, at run time and in a replay. -/
def LogOp.apply (t : Table) : LogOp → Table
  | .push o coin => utxoPut t (o, coin)
  | .del o => utxoDel t o

def applyAll (t : Table) (ops : List LogOp) : Table := ops.foldl LogOp.apply t

theorem Table.WellKeyed.applyAll {t : Table} (ht : t.WellKeyed)
    (ops : List LogOp) : Table.WellKeyed (applyAll t ops) := by
  induction ops generalizing t with
  | nil => exact ht
  | cons op ops ih =>
      cases op with
      | push o coin => exact ih (ht.put (o, coin))
      | del o => exact ih (ht.del o)

def ckptRec : Nat := 51

def coinFixed (e : LogEntry) : List UInt8 :=
  coinHeader e.1.txid e.1.index.toNat e.2.value.toNat e.2.height.toNat
    e.2.isCoinbase.toNat e.2.script.length

/-- A checkpoint record, which is also the body of a PUSH. -/
def coinRecord (e : LogEntry) : List UInt8 := coinFixed e ++ e.2.script

/-- The magic, the operation and the padding. -/
def logHead (op : UInt8) : List UInt8 :=
  [0x4F, 0x58, 0x54, 0x55, op, 0, 0, 0]

def opPush : UInt8 := 1
def opDel : UInt8 := 2

/-- The first of the two writes a record takes, and the second. -/
def LogOp.writes : LogOp → List UInt8 × List UInt8
  | .push o coin => (logHead opPush ++ coinFixed (o, coin), coin.script)
  | .del o => (logHead opDel ++ (o.txid.bytes ++ leBytes 4 o.index.toNat), [])

def LogOp.encode (op : LogOp) : List UInt8 := op.writes.1 ++ op.writes.2

/-- The loader's and the replay's reads of one coin. -/
def readCoin (bytes : List UInt8) : Option (LogEntry × List UInt8) :=
  if bytes.length < ckptRec then none
  else if bytes.length < ckptRec + leVal (field bytes 49 2) then none
  else
    some ((⟨Txid.ofBytes (field bytes 0 32),
          UInt32.ofNat (leVal (field bytes 32 4))⟩,
        ⟨UInt64.ofNat (leVal (field bytes 36 8)),
          UInt32.ofNat (leVal (field bytes 44 4)),
          UInt8.ofNat (leVal (field bytes 48 1)),
          field bytes ckptRec (leVal (field bytes 49 2)),
          ((List.length_take_le _ _).trans_lt
            (leVal_lt _)).trans_le
              (Nat.pow_le_pow_right (by omega) (List.length_take_le _ _))⟩),
      bytes.drop (ckptRec + leVal (field bytes 49 2)))

/-- One turn of the replay: the head is read, and of it the operation alone is
looked at. -/
def logNext (bytes : List UInt8) : Head LogOp :=
  if bytes = [] then .stop
  else if bytes.length < 8 then .torn
  else if leVal (field bytes 4 1) = opPush.toNat then
    match readCoin (bytes.drop 8) with
    | none => .torn
    | some (e, rest) => .frame (.push e.1 e.2) rest
  else if leVal (field bytes 4 1) = opDel.toNat then
    if bytes.length < 44 then .torn
    else
      .frame (.del ⟨Txid.ofBytes (field bytes 8 32),
        UInt32.ofNat (leVal (field bytes 40 4))⟩) (bytes.drop 44)
  else .torn

@[simp] theorem length_coinFixed (e : LogEntry) :
    (coinFixed e).length = ckptRec := by
  simp [coinFixed, ckptRec]

@[simp] theorem length_coinRecord (e : LogEntry) :
    (coinRecord e).length = ckptRec + e.2.script.length := by
  simp [coinRecord]

theorem LogOp.encode_push (o : Outpoint) (coin : LogCoin) :
    (LogOp.push o coin).encode = logHead opPush ++ coinRecord (o, coin) := by
  simp [LogOp.encode, LogOp.writes, coinRecord]

theorem LogOp.encode_del (o : Outpoint) :
    (LogOp.del o).encode =
      logHead opDel ++ (o.txid.bytes ++ leBytes 4 o.index.toNat) := by
  simp [LogOp.encode, LogOp.writes]

theorem LogOp.eight_lt_length_encode (op : LogOp) : 8 < op.encode.length := by
  cases op with
  | push o coin =>
      rw [LogOp.encode_push]
      simp [logHead, ckptRec]
  | del o =>
      rw [LogOp.encode_del]
      simp [logHead, o.txid.length_eq]

theorem readCoin_encode (e : LogEntry) (rest : List UInt8) :
    readCoin (coinRecord e ++ rest) = some (e, rest) := by
  obtain ⟨h0, h32, h36, h44, h48, h49⟩ := coinHeader_fields e.1.txid
    e.1.index.toNat e.2.value.toNat e.2.height.toNat e.2.isCoinbase.toNat
    e.2.script.length
  have hfield : ∀ off len, off + len ≤ 51 →
      field (coinRecord e ++ rest) off len = field (coinFixed e) off len := by
    intro off len hle
    rw [coinRecord, List.append_assoc, field_append]
    rw [length_coinFixed]
    exact hle
  have hslen : leVal (field (coinRecord e ++ rest) 49 2) =
      e.2.script.length := by
    rw [hfield 49 2 (by omega), coinFixed, h49]
    exact Nat.mod_eq_of_lt e.2.script_lt
  have hbody : field (coinRecord e ++ rest) ckptRec e.2.script.length =
      e.2.script := by
    rw [coinRecord, List.append_assoc, show ckptRec = ckptRec + 0 by rfl,
      field_skip _ _ _ _ (length_coinFixed e), field_head _ _ rfl]
  have hrest : (coinRecord e ++ rest).drop (ckptRec + e.2.script.length) =
      rest := by
    rw [← length_coinRecord, List.drop_left]
  rw [readCoin, if_neg (by simp; omega), if_neg (by rw [hslen]; simp)]
  simp only [hslen, hbody, hrest, hfield 0 32 (by omega),
    hfield 32 4 (by omega), hfield 36 8 (by omega), hfield 44 4 (by omega),
    hfield 48 1 (by omega), coinFixed, h0, h32, h36, h44, h48,
    Txid.ofBytes_bytes]
  rw [Nat.mod_eq_of_lt e.1.index.toNat_lt, Nat.mod_eq_of_lt e.2.value.toNat_lt,
    Nat.mod_eq_of_lt e.2.height.toNat_lt,
    Nat.mod_eq_of_lt e.2.isCoinbase.toNat_lt, UInt32.ofNat_toNat,
    UInt32.ofNat_toNat, UInt64.ofNat_toNat, UInt8.ofNat_toNat]

theorem readCoin_cut (e : LogEntry) {n : Nat}
    (hlt : n < (coinRecord e).length) :
    readCoin ((coinRecord e).take n) = none := by
  have hlen : ((coinRecord e).take n).length = n := by
    rw [List.length_take]
    omega
  rw [readCoin, hlen]
  by_cases hshort : n < ckptRec
  · rw [if_pos hshort]
  · obtain ⟨-, -, -, -, -, h49⟩ := coinHeader_fields e.1.txid
      e.1.index.toNat e.2.value.toNat e.2.height.toNat e.2.isCoinbase.toNat
      e.2.script.length
    have hslen : leVal (field ((coinRecord e).take n) 49 2) =
        e.2.script.length := by
      rw [field_take _ (by simp only [ckptRec] at hshort; omega), coinRecord,
        field_append _ _ (by rw [length_coinFixed]; decide), coinFixed, h49]
      exact Nat.mod_eq_of_lt e.2.script_lt
    have hscript : n < ckptRec + leVal (field ((coinRecord e).take n) 49 2) := by
      rw [hslen, ← length_coinRecord]
      exact hlt
    rw [if_neg hshort, if_pos hscript]

theorem readCoin_shorter {bytes rest : List UInt8} {e : LogEntry}
    (h : readCoin bytes = some (e, rest)) : rest.length < bytes.length := by
  unfold readCoin at h
  split at h
  · cases h
  · split at h
    · cases h
    · cases h
      rw [List.length_drop]
      simp only [ckptRec] at *
      omega

/-- The operation byte, behind the magic. -/
theorem leVal_field_logHead (op : UInt8) (body : List UInt8) :
    leVal (field (logHead op ++ body) 4 1) = op.toNat := by
  simp [logHead, field]

theorem logNext_push (body : List UInt8) :
    logNext (logHead opPush ++ body) =
      match readCoin body with
      | none => .torn
      | some (e, rest) => .frame (.push e.1 e.2) rest := by
  rw [logNext, if_neg (by simp [logHead]), if_neg (by simp [logHead]),
    if_pos (leVal_field_logHead _ _)]
  rfl

theorem logNext_del (body : List UInt8) :
    logNext (logHead opDel ++ body) =
      if body.length < 36 then .torn
      else
        .frame (.del ⟨Txid.ofBytes (field body 0 32),
          UInt32.ofNat (leVal (field body 32 4))⟩) (body.drop 36) := by
  have hop := leVal_field_logHead opDel body
  rw [logNext, if_neg (by simp [logHead]), if_neg (by simp [logHead]),
    if_neg (by rw [hop]; decide), if_pos hop]
  have hlen : (logHead opDel ++ body).length = 8 + body.length := by
    simp [logHead]
    omega
  rw [hlen]
  by_cases hshort : body.length < 36
  · rw [if_pos hshort, if_pos (by omega)]
  · rw [if_neg hshort, if_neg (by omega)]
    rfl

/-- The replay takes back exactly what was appended. -/
theorem log_framed : Framed logNext LogOp.encode where
  next_nil := rfl
  next_encode := by
    intro op rest
    cases op with
    | push o coin =>
        rw [LogOp.encode_push, List.append_assoc, logNext_push,
          readCoin_encode]
    | del o =>
        have htx : o.txid.bytes.length = 32 := o.txid.length_eq
        have hbody : o.txid.bytes ++ leBytes 4 o.index.toNat ++ rest =
            o.txid.bytes ++ (leBytes 4 o.index.toNat ++ rest) :=
          List.append_assoc _ _ _
        rw [LogOp.encode_del, List.append_assoc, logNext_del,
          if_neg (by simp [htx]; omega), hbody, field_head _ _ htx,
          show (32 : Nat) = 32 + 0 by rfl, field_skip _ _ _ _ htx,
          field_head _ _ (length_leBytes _ _), leVal_leBytes,
          Txid.ofBytes_bytes]
        congr 1
        · rw [show (256 : Nat) ^ 4 = 2 ^ 32 by rfl,
            Nat.mod_eq_of_lt o.index.toNat_lt, UInt32.ofNat_toNat]
        · simp [List.drop_append, htx]
  next_cut := by
    intro op n hpos hlt
    have hlen : (op.encode.take n).length = n := by
      rw [List.length_take]
      omega
    by_cases hhead : n < 8
    · rw [logNext, if_neg, if_pos (by omega)]
      intro hnil
      rw [hnil] at hlen
      exact absurd hlen (by simp; omega)
    · cases op with
      | push o coin =>
          rw [LogOp.encode_push] at hlt ⊢
          rw [List.take_append, List.take_of_length_le (by simp [logHead]; omega),
            logNext_push, readCoin_cut]
          rw [List.length_append] at hlt
          have hhd : (logHead opPush).length = 8 := rfl
          omega
      | del o =>
          rw [LogOp.encode_del] at hlt ⊢
          rw [List.take_append, List.take_of_length_le (by simp [logHead]; omega),
            logNext_del, if_pos]
          rw [List.length_take]
          simp [logHead, o.txid.length_eq] at hlt ⊢
          omega
  next_shorter := by
    intro bytes op rest h
    unfold logNext at h
    split at h
    · cases h
    · split at h
      · cases h
      · split at h
        · split at h
          · cases h
          · next hread =>
              cases h
              have hlt := readCoin_shorter hread
              rw [List.length_drop] at hlt
              omega
        · split at h
          · split at h
            · cases h
            · cases h
              rw [List.length_drop]
              omega
          · cases h

end BitcoinMachineCode.Storage
