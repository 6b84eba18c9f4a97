import BitcoinMachineCode.Storage.UtxoLog

/-!
# Reloading the coin log

`utxo_store_put`, `utxo_store_del`, `utxo_store_sync` and `utxo_store_reload`
of `bitcoin_utxo_store.asm`, with the freeze and the retire of
`daemon/utxo_live.c` that move the checkpoint.  Records go through a buffer and
land with plain `write` calls, so where they land is the file position of the
log's descriptor, which is state of its own beside the log's length.
-/

namespace BitcoinMachineCode.Storage

open BitcoinMachineCode.Foundation

/-! ## The store -/

structure UtxoStore where
  log : List UInt8
  idx : List UInt8
  /-- The file position of `log_fd`. -/
  pos : Nat
  buf : List UInt8
  logLen : Nat
  ckptLogOff : Nat
  table : Table
  /-- `fz_wal_end`, while a generation is frozen. -/
  fzWalEnd : Option Nat

/-- `utxo_store_init` on the files that are there. -/
def UtxoStore.init (log idx : List UInt8) : UtxoStore :=
  ⟨log, idx, 0, [], 0, 0, [], none⟩

/-- A write at a position; what lies between the end and it reads as zeros. -/
def writeAt (file : List UInt8) (pos : Nat) (bytes : List UInt8) :
    List UInt8 :=
  if bytes = [] then file
  else (file ++ List.replicate (pos - file.length) 0).take pos ++
    (bytes ++ file.drop (pos + bytes.length))

def UtxoStore.write (s : UtxoStore) (bytes : List UInt8) : UtxoStore :=
  { s with log := writeAt s.log s.pos bytes, pos := s.pos + bytes.length }

/-- `utxo_store_wal_drain` -/
def UtxoStore.drain (s : UtxoStore) : UtxoStore :=
  { s.write s.buf with buf := [] }

def walbufCap : Nat := 33554432

/-- `mac_wr_log` -/
def UtxoStore.wrLog (s : UtxoStore) (bytes : List UInt8) : UtxoStore :=
  if walbufCap < bytes.length then
    { s.drain.write bytes with logLen := s.logLen + bytes.length }
  else
    let d := if walbufCap < s.buf.length + bytes.length then s.drain else s
    { d with buf := d.buf ++ bytes, logLen := d.logLen + bytes.length }

/-- The largest file offset; a write past it fails, and a failed append halts
the caller. -/
def fileMax : Nat := 2 ^ 63 - 1

/-- What `utxo_store_put` and `utxo_store_del` have in common: the record's
bytes to the log, then the same operation on the table. -/
def UtxoStore.append (s : UtxoStore) (op : LogOp) : Option UtxoStore :=
  if fileMax < s.pos + s.buf.length + op.encode.length then none
  else
    let w := s.wrLog op.writes.1
    let w := if op.writes.2 = [] then w else w.wrLog op.writes.2
    some { w with table := op.apply w.table }

def utxoStorePut (s : UtxoStore) (o : Outpoint) (coin : LogCoin) :
    Option UtxoStore :=
  s.append (.push o coin)

def utxoStoreDel (s : UtxoStore) (o : Outpoint) : Option UtxoStore :=
  s.append (.del o)

def magicIdx : List UInt8 := [0x49, 0x58, 0x54, 0x55]

def idxHdr : Nat := 20

/-- A whole `utxo.idx`. -/
def idxBytes (logOff : Nat) (t : Table) : List UInt8 :=
  magicIdx ++ (leBytes 8 logOff ++ (leBytes 8 t.length ++ t.flatMap coinRecord))

/-- `utxo_store_sync` -/
def utxoStoreSync (s : UtxoStore) : UtxoStore :=
  let d := s.drain
  { d with idx := idxBytes d.logLen d.table, ckptLogOff := d.logLen }

/-- `utxo_lsm_freeze`, as far as the log goes: the next generation starts with
an empty table. -/
def utxoLsmFreezeLog (s : UtxoStore) : Option UtxoStore :=
  let d := s.drain
  match d.fzWalEnd with
  | some _ => none
  | none => some { d with fzWalEnd := some d.logLen, table := [] }

/-- `fz_punch`: a range of the file becomes zeros. -/
def fzPunch (file : List UInt8) (off len : Nat) : List UInt8 :=
  file.take off ++ (List.replicate len 0 ++ file.drop (off + len))

/-- `fz_retire_wal`; not every file system punches holes. -/
def fzRetireWal (s : UtxoStore) (punches : Bool) : Option UtxoStore :=
  match s.fzWalEnd with
  | none => none
  | some off =>
      let log :=
        if punches ∧ s.ckptLogOff < off then
          fzPunch s.log s.ckptLogOff (off - s.ckptLogOff)
        else s.log
      some { s with log, idx := idxBytes off [], ckptLogOff := off, fzWalEnd := none }

/-- The loader's loop over the snapshot: a short one ends early. -/
def loadSnapshot : Nat → List UInt8 → Table → Table
  | 0, _, t => t
  | n + 1, bytes, t =>
      match readCoin bytes with
      | none => t
      | some (e, rest) => loadSnapshot n rest (utxoPut t e)

/-- The log offset a checkpoint covers and its coins; a missing or a bad one
covers nothing. -/
def loadCheckpoint (idx : List UInt8) : Nat × Table :=
  if idx.length < idxHdr ∨ field idx 0 4 ≠ magicIdx then (0, [])
  else
    (leVal (field idx 4 8),
      loadSnapshot (leVal (field idx 12 8)) (idx.drop idxHdr) [])

/-- The bytes the replay's counter moves by. -/
def LogOp.size : LogOp → Nat
  | .push _ coin => 8 + ckptRec + coin.script.length
  | .del _ => 8 + 36

/-- `utxo_store_reload`: the number of records replayed, and the store.  The
descriptor is parked at the end when the file is measured, and the truncate of
a torn tail leaves it there. -/
def utxoStoreReload (s : UtxoStore) : Nat × UtxoStore :=
  let d := s.drain
  let ckpt := loadCheckpoint d.idx
  -- a log that ends below the checkpoint's offset is extended to it
  let log := d.log ++ List.replicate (ckpt.1 - d.log.length) 0
  let found := scan logNext (log.drop ckpt.1)
  let consumed := ckpt.1 + (found.1.map LogOp.size).sum
  (found.1.length,
    { d with
      log := if found.2 then log.take consumed else log
      pos := log.length
      logLen := if found.2 then consumed else log.length
      ckptLogOff := ckpt.1
      table := applyAll ckpt.2 found.1 })

/-- What a crash leaves: the log cut at a byte, nothing of the buffer. -/
def UtxoStore.crash (s : UtxoStore) (cut : Nat) : UtxoStore :=
  UtxoStore.init (s.log.take cut) s.idx

inductive LogStep where
  | append (op : LogOp)
  | drain
  | sync
  | freeze
  | retire (punches : Bool)

/-- A checkpoint of the whole table is not taken while a generation is
frozen. -/
def UtxoStore.step (s : UtxoStore) : LogStep → Option UtxoStore
  | .append op => s.append op
  | .drain => some s.drain
  | .sync => if s.fzWalEnd = none then some (utxoStoreSync s) else none
  | .freeze => utxoLsmFreezeLog s
  | .retire punches => fzRetireWal s punches

def UtxoStore.appendAll (s : UtxoStore) (ops : List LogOp) : Option UtxoStore :=
  ops.foldlM UtxoStore.append s

/-! ## Where the bytes land -/

@[simp] theorem LogOp.length_encode (op : LogOp) :
    op.encode.length = op.size := by
  cases op with
  | push o coin =>
      rw [LogOp.encode_push]
      simp [logHead, LogOp.size, ckptRec]
      omega
  | del o =>
      rw [LogOp.encode_del]
      simp [logHead, LogOp.size, o.txid.length_eq]

theorem sum_size (ops : List LogOp) :
    (ops.map LogOp.size).sum = (encodeAll LogOp.encode ops).length := by
  induction ops with
  | nil => rfl
  | cons op ops ih => simp [ih]

theorem writeAt_nil (file : List UInt8) (pos : Nat) :
    writeAt file pos [] = file := rfl

/-- A write at or past the end of the file. -/
theorem writeAt_of_length_le {file : List UInt8} {pos : Nat}
    (h : file.length ≤ pos) {bytes : List UInt8} (hne : bytes ≠ []) :
    writeAt file pos bytes =
      file ++ (List.replicate (pos - file.length) 0 ++ bytes) := by
  rw [writeAt, if_neg hne, List.drop_eq_nil_of_le (by omega), List.append_nil,
    List.take_of_length_le (by simp; omega), List.append_assoc]

theorem writeAt_writeAt {file : List UInt8} {pos : Nat}
    (h : file.length ≤ pos) (xs ys : List UInt8) :
    writeAt (writeAt file pos xs) (pos + xs.length) ys =
      writeAt file pos (xs ++ ys) := by
  rcases eq_or_ne xs [] with rfl | hxs
  · rfl
  rcases eq_or_ne ys [] with rfl | hys
  · rw [List.append_nil, writeAt_nil]
  have hlen : (writeAt file pos xs).length = pos + xs.length := by
    rw [writeAt_of_length_le h hxs]
    simp only [List.length_append, List.length_replicate]
    omega
  rw [writeAt_of_length_le hlen.le hys, hlen, Nat.sub_self,
    writeAt_of_length_le h hxs, writeAt_of_length_le h (by simp [hxs])]
  simp

theorem le_length_writeAt {file : List UInt8} {pos : Nat}
    (h : file.length ≤ pos) (bytes : List UInt8) :
    file.length ≤ (writeAt file pos bytes).length := by
  rcases eq_or_ne bytes [] with rfl | hne
  · rw [writeAt_nil]
  · rw [writeAt_of_length_le h hne, List.length_append]
    omega

theorem length_writeAt_le {file : List UInt8} {pos : Nat}
    (h : file.length ≤ pos) (bytes : List UInt8) :
    (writeAt file pos bytes).length ≤ pos + bytes.length := by
  rcases eq_or_ne bytes [] with rfl | hne
  · simpa [writeAt_nil] using h
  · rw [writeAt_of_length_le h hne]
    simp only [List.length_append, List.length_replicate]
    omega

theorem writeAt_end (file bytes : List UInt8) :
    writeAt file file.length bytes = file ++ bytes := by
  rcases eq_or_ne bytes [] with rfl | hne
  · rw [writeAt_nil, List.append_nil]
  · rw [writeAt_of_length_le (Nat.le_refl _) hne]
    simp

/-- `w` is `s` with bytes appended: where they land once both buffers are
drained, whatever was drained on the way. -/
structure Appended (s w : UtxoStore) (bytes : List UInt8) : Prop where
  log : w.drain.log = writeAt s.drain.log s.drain.pos bytes
  pos : w.drain.pos = s.drain.pos + bytes.length
  within : w.log.length ≤ w.pos
  grows : s.log.length ≤ w.log.length
  parked : s.pos = s.log.length → w.pos = w.log.length
  logLen : w.logLen = s.logLen + bytes.length
  idx : w.idx = s.idx
  ckptLogOff : w.ckptLogOff = s.ckptLogOff
  fzWalEnd : w.fzWalEnd = s.fzWalEnd

theorem drain_within {s : UtxoStore} (h : s.log.length ≤ s.pos) :
    s.drain.log.length ≤ s.drain.pos :=
  length_writeAt_le h s.buf

theorem drain_log_of_parked {s : UtxoStore} (h : s.pos = s.log.length) :
    s.drain.log = s.log ++ s.buf := by
  change writeAt s.log s.pos s.buf = s.log ++ s.buf
  rw [h, writeAt_end]

theorem drain_parked {s : UtxoStore} (h : s.pos = s.log.length) :
    s.drain.pos = s.drain.log.length := by
  rw [drain_log_of_parked h, List.length_append, ← h]
  rfl

namespace Appended

theorem refl {s : UtxoStore} (h : s.log.length ≤ s.pos) :
    Appended s s [] where
  log := rfl
  pos := rfl
  within := h
  grows := Nat.le_refl _
  parked := id
  logLen := rfl
  idx := rfl
  ckptLogOff := rfl
  fzWalEnd := rfl

theorem drained {s : UtxoStore} (h : s.log.length ≤ s.pos) :
    Appended s s.drain [] where
  log := rfl
  pos := rfl
  within := drain_within h
  grows := le_length_writeAt h s.buf
  parked := drain_parked
  logLen := rfl
  idx := rfl
  ckptLogOff := rfl
  fzWalEnd := rfl

theorem trans {s w v : UtxoStore} {xs ys : List UInt8}
    (h : s.log.length ≤ s.pos) (hw : Appended s w xs) (hv : Appended w v ys) :
    Appended s v (xs ++ ys) where
  log := by rw [hv.log, hw.log, hw.pos, writeAt_writeAt (drain_within h)]
  pos := by rw [hv.pos, hw.pos, List.length_append, Nat.add_assoc]
  within := hv.within
  grows := hw.grows.trans hv.grows
  parked := fun hs => hv.parked (hw.parked hs)
  logLen := by rw [hv.logLen, hw.logLen, List.length_append, Nat.add_assoc]
  idx := hv.idx.trans hw.idx
  ckptLogOff := hv.ckptLogOff.trans hw.ckptLogOff
  fzWalEnd := hv.fzWalEnd.trans hw.fzWalEnd

/-- Bytes that only go to the buffer. -/
theorem buffered {s : UtxoStore} (h : s.log.length ≤ s.pos)
    (bytes : List UInt8) :
    Appended s { s with buf := s.buf ++ bytes, logLen := s.logLen + bytes.length }
      bytes where
  log := (writeAt_writeAt h s.buf bytes).symm
  pos := by
    change s.pos + (s.buf ++ bytes).length = s.pos + s.buf.length + bytes.length
    rw [List.length_append, Nat.add_assoc]
  within := h
  grows := Nat.le_refl _
  parked := id
  logLen := rfl
  idx := rfl
  ckptLogOff := rfl
  fzWalEnd := rfl

/-- Bytes that go straight through to the file. -/
theorem written {s : UtxoStore} (h : s.log.length ≤ s.pos)
    (bytes : List UInt8) :
    Appended s
      { s.drain.write bytes with logLen := s.logLen + bytes.length }
      bytes where
  log := rfl
  pos := rfl
  within := length_writeAt_le (drain_within h) bytes
  grows := (le_length_writeAt h s.buf).trans
    (le_length_writeAt (drain_within h) bytes)
  parked := by
    intro hs
    have hd := drain_parked hs
    change s.drain.pos + bytes.length = (writeAt s.drain.log s.drain.pos bytes).length
    rw [hd, writeAt_end, List.length_append]
  logLen := rfl
  idx := rfl
  ckptLogOff := rfl
  fzWalEnd := rfl

theorem wrLog {s : UtxoStore} (h : s.log.length ≤ s.pos)
    (bytes : List UInt8) : Appended s (s.wrLog bytes) bytes := by
  unfold UtxoStore.wrLog
  split
  · exact written h bytes
  · dsimp only
    split
    · exact (drained h).trans h (buffered (drain_within h) bytes)
    · exact buffered h bytes

end Appended

theorem UtxoStore.append_spec {s w : UtxoStore} {op : LogOp}
    (h : s.log.length ≤ s.pos) (happend : s.append op = some w) :
    Appended s w op.encode ∧ w.table = op.apply s.table ∧
      s.pos + s.buf.length + op.encode.length ≤ fileMax := by
  have htable : ∀ (v : UtxoStore) (bytes : List UInt8),
      (v.wrLog bytes).table = v.table := by
    intro v bytes
    unfold UtxoStore.wrLog
    split
    · rfl
    · dsimp only
      split <;> rfl
  unfold UtxoStore.append at happend
  split at happend
  · cases happend
  · next hroom =>
      have hfirst := Appended.wrLog h op.writes.1
      dsimp only at happend
      split at happend
      · next hempty =>
          cases happend
          refine ⟨?_, ?_, by omega⟩
          · rw [LogOp.encode, hempty, List.append_nil]
            exact ⟨hfirst.log, hfirst.pos, hfirst.within, hfirst.grows,
              hfirst.parked, hfirst.logLen, hfirst.idx, hfirst.ckptLogOff, hfirst.fzWalEnd⟩
          · exact congrArg op.apply (htable s _)
      · cases happend
        have hboth := hfirst.trans h (Appended.wrLog hfirst.within op.writes.2)
        refine ⟨?_, ?_, by omega⟩
        · exact ⟨hboth.log, hboth.pos, hboth.within, hboth.grows,
            hboth.parked, hboth.logLen, hboth.idx, hboth.ckptLogOff, hboth.fzWalEnd⟩
        · exact congrArg op.apply ((htable _ _).trans (htable s _))

theorem UtxoStore.appendAll_spec {s w : UtxoStore} {ops : List LogOp}
    (h : s.log.length ≤ s.pos) (hall : s.appendAll ops = some w) :
    Appended s w (encodeAll LogOp.encode ops) := by
  induction ops generalizing s with
  | nil =>
      cases hall
      exact Appended.refl h
  | cons op ops ih =>
      obtain ⟨v, hv, hrest⟩ := Option.bind_eq_some_iff.mp hall
      have hfirst := (UtxoStore.append_spec h hv).1
      rw [encodeAll_cons]
      exact hfirst.trans h (ih hfirst.within hrest)

/-! ## The checkpoint and the replay -/

theorem loadSnapshot_flatMap (entries t : Table) (rest : List UInt8) :
    loadSnapshot entries.length (entries.flatMap coinRecord ++ rest) t =
      entries.foldl utxoPut t := by
  induction entries generalizing t with
  | nil => rfl
  | cons e entries ih =>
      rw [List.flatMap_cons, List.append_assoc, List.length_cons, loadSnapshot,
        readCoin_encode]
      exact ih (utxoPut t e)

/-- A checkpoint is loaded as it was written. -/
theorem loadCheckpoint_idxBytes {off : Nat} {t : Table} (ht : t.WellKeyed)
    (hoff : off < 2 ^ 64) (hn : t.length < 2 ^ 64) :
    loadCheckpoint (idxBytes off t) = (off, t) := by
  have hmagic : magicIdx.length = 4 := rfl
  have hlen : ¬ ((idxBytes off t).length < idxHdr ∨
      field (idxBytes off t) 0 4 ≠ magicIdx) := by
    rw [not_or]
    refine ⟨?_, not_not.mpr (field_head _ _ hmagic)⟩
    simp only [idxBytes, idxHdr, List.length_append, length_leBytes, hmagic]
    omega
  have h4 : leVal (field (idxBytes off t) 4 8) = off := by
    rw [idxBytes, show (4 : Nat) = 4 + 0 by rfl, field_skip _ _ _ _ hmagic,
      field_head _ _ (length_leBytes _ _), leVal_leBytes]
    exact Nat.mod_eq_of_lt hoff
  have h12 : leVal (field (idxBytes off t) 12 8) = t.length := by
    rw [idxBytes, show (12 : Nat) = 4 + (8 + 0) by rfl,
      field_skip _ _ _ _ hmagic, field_skip _ _ _ _ (length_leBytes _ _),
      field_head _ _ (length_leBytes _ _), leVal_leBytes]
    exact Nat.mod_eq_of_lt hn
  have hbody : (idxBytes off t).drop idxHdr = t.flatMap coinRecord := by
    rw [idxBytes, idxHdr, ← List.append_assoc, ← List.append_assoc,
      List.drop_left']
    simp [hmagic]
  rw [loadCheckpoint, if_neg hlen, h4, h12, hbody]
  have hload := loadSnapshot_flatMap t [] []
  rw [List.append_nil] at hload
  rw [hload, foldl_utxoPut_of_wellKeyed (by simpa using ht), List.nil_append]

/-- A reload, by what the replay finds behind the checkpoint's offset. -/
theorem utxoStoreReload_eq {s : UtxoStore} {base : Table}
    {front tail : List UInt8} {ops : List LogOp} {torn : Bool}
    (hidx : loadCheckpoint s.idx = (front.length, base))
    (hlog : s.drain.log ++
      List.replicate (front.length - s.drain.log.length) 0 = front ++ tail)
    (hscan : scan logNext tail = (ops, torn)) :
    utxoStoreReload s =
      (ops.length,
        { s.drain with
          log := if torn then
              (front ++ tail).take
                (front.length + (encodeAll LogOp.encode ops).length)
            else front ++ tail
          pos := (front ++ tail).length
          logLen := if torn then
              front.length + (encodeAll LogOp.encode ops).length
            else (front ++ tail).length
          ckptLogOff := front.length
          table := applyAll base ops }) := by
  have hidx' : loadCheckpoint s.drain.idx = (front.length, base) := hidx
  unfold utxoStoreReload
  dsimp only
  rw [hidx', hlog, List.drop_left, hscan, sum_size]

/-! ## The abstract log -/

/-- A checkpoint, and the records since. -/
structure Journal where
  start : Nat
  base : Table
  ops : List LogOp
  /-- What the table in memory holds. -/
  live : Table
  /-- How many of the records the frozen generation took. -/
  frozen : Option Nat

namespace Journal

def empty : Journal := ⟨0, [], [], [], none⟩

/-- Where a run of records behind the checkpoint ends. -/
def endOf (a : Journal) (ops : List LogOp) : Nat :=
  a.start + (encodeAll LogOp.encode ops).length

/-- The whole records before byte `cut` of the log. -/
def keptBefore (a : Journal) (cut : Nat) : List LogOp :=
  wholeBefore LogOp.encode a.ops (cut - a.start)

/-- A cut that leaves no part of a record: at or below the checkpoint, or at
the end of a record. -/
def AtBoundary (a : Journal) (cut : Nat) : Prop :=
  cut ≤ a.endOf (a.keptBefore cut)

def step (a : Journal) : LogStep → Journal
  | .append op => { a with ops := a.ops ++ [op], live := op.apply a.live }
  | .drain => a
  | .sync => { a with start := a.endOf a.ops, base := a.live, ops := [] }
  | .freeze => { a with frozen := some a.ops.length, live := [] }
  | .retire _ =>
      let taken := a.frozen.getD 0
      { a with start := a.endOf (a.ops.take taken), base := []
               ops := a.ops.drop taken, frozen := none }

/-- After a crash and a reload. -/
def reloaded (a : Journal) (cut : Nat) : Journal :=
  { a with ops := a.keptBefore cut
           live := applyAll a.base (a.keptBefore cut), frozen := none }

theorem keptBefore_of_le {a : Journal} {cut : Nat} (h : cut ≤ a.start) :
    a.keptBefore cut = [] := by
  rw [keptBefore, Nat.sub_eq_zero_of_le h]
  cases a.ops with
  | nil => rfl
  | cons op ops =>
      rw [wholeBefore, if_neg]
      have := op.eight_lt_length_encode
      omega

theorem start_le_endOf (a : Journal) (ops : List LogOp) :
    a.start ≤ a.endOf ops := Nat.le_add_right _ _

/-- The kept records end at or before the cut, or at the checkpoint. -/
theorem endOf_keptBefore_le (a : Journal) (cut : Nat) :
    a.endOf (a.keptBefore cut) ≤ max cut a.start := by
  have hfit := wholeBefore_length_le LogOp.encode a.ops (cut - a.start)
  rw [endOf, keptBefore]
  omega

end Journal

theorem length_apply_le (t : Table) (op : LogOp) :
    (op.apply t).length ≤ t.length + 1 := by
  cases op with
  | push o coin =>
      simp only [LogOp.apply, utxoPut]
      split <;> simp
  | del o =>
      exact (List.length_filter_le _ _).trans (Nat.le_succ _)

theorem length_applyAll_le (t : Table) (ops : List LogOp) :
    (applyAll t ops).length ≤
      t.length + (encodeAll LogOp.encode ops).length := by
  induction ops generalizing t with
  | nil => exact Nat.le_refl _
  | cons op ops ih =>
      have hrest := ih (op.apply t)
      have hop := length_apply_le t op
      have hpos := op.eight_lt_length_encode
      rw [encodeAll_cons, List.length_append]
      change (applyAll (op.apply t) ops).length ≤ _
      omega

/-! ## The store tracks the abstract log -/

/-- The files, the buffer and the table hold the abstract log.  The bytes
before the checkpoint's offset are nothing's. -/
structure Journaled (s : UtxoStore) (a : Journal) : Prop where
  parked : s.pos = s.log.length
  log : ∃ front : List UInt8, front.length = a.start ∧
    s.log ++ s.buf = front ++ encodeAll LogOp.encode a.ops
  logLen : s.logLen = a.endOf a.ops
  idx : loadCheckpoint s.idx = (a.start, a.base)
  ckptLogOff : s.ckptLogOff = a.start
  table : s.table = a.live
  baseKeyed : a.base.WellKeyed
  liveKeyed : a.live.WellKeyed
  -- the counts fit the checkpoint's fields
  base_le : a.base.length ≤ a.start
  live_le : a.live.length ≤ a.endOf a.ops
  end_le : a.endOf a.ops ≤ fileMax
  fzWalEnd : s.fzWalEnd = a.frozen.map fun n => a.endOf (a.ops.take n)
  frozen_le : ∀ n, a.frozen = some n →
    n ≤ a.ops.length ∧ a.endOf (a.ops.take n) ≤ s.log.length

namespace Journaled

variable {s s' : UtxoStore} {a : Journal}

theorem init : Journaled (UtxoStore.init [] []) Journal.empty where
  parked := rfl
  log := ⟨[], rfl, rfl⟩
  logLen := rfl
  idx := rfl
  ckptLogOff := rfl
  table := rfl
  baseKeyed := .empty
  liveKeyed := .empty
  base_le := Nat.le_refl _
  live_le := Nat.le_refl _
  end_le := Nat.zero_le _
  fzWalEnd := rfl
  frozen_le := by
    intro n hn
    cases hn

theorem endOf_eq (h : Journaled s a) :
    a.endOf a.ops = s.log.length + s.buf.length := by
  obtain ⟨front, hfront, hlog⟩ := h.log
  have hlen := congrArg List.length hlog
  rw [List.length_append, List.length_append, hfront] at hlen
  exact hlen.symm

theorem append (h : Journaled s a) {op : LogOp} (hs : s.append op = some s') :
    Journaled s' (a.step (.append op)) := by
  have hwithin : s.log.length ≤ s.pos := h.parked.ge
  obtain ⟨happ, htable, hroom⟩ := UtxoStore.append_spec hwithin hs
  have hend : (a.step (.append op)).endOf (a.ops ++ [op]) =
      a.endOf a.ops + op.encode.length := by
    simp [Journal.step, Journal.endOf, encodeAll_append, Nat.add_assoc]
  have hparked' := happ.parked h.parked
  have hlive := length_apply_le a.live op
  have hpos := op.eight_lt_length_encode
  have hlive_le := h.live_le
  have hend_eq := h.endOf_eq
  have hparked := h.parked
  refine ⟨hparked', ?_, ?_, happ.idx ▸ h.idx, happ.ckptLogOff.trans h.ckptLogOff,
    ?_, h.baseKeyed, ?_, h.base_le, ?_, ?_, ?_, ?_⟩
  · obtain ⟨front, hfront, hlog⟩ := h.log
    refine ⟨front, hfront, ?_⟩
    rw [← drain_log_of_parked hparked', happ.log, drain_parked h.parked,
      writeAt_end, drain_log_of_parked h.parked, hlog]
    simp [Journal.step, encodeAll_append]
  · rw [happ.logLen, h.logLen]
    exact hend.symm
  · rw [htable, h.table]
    rfl
  · exact h.liveKeyed.applyAll [op]
  · refine Nat.le_trans ?_ hend.ge
    change (op.apply a.live).length ≤ _
    omega
  · refine Nat.le_trans hend.le ?_
    omega
  · rw [happ.fzWalEnd, h.fzWalEnd]
    cases hfrozen : a.frozen with
    | none => simp [Journal.step, hfrozen]
    | some n =>
        have hn := (h.frozen_le n hfrozen).1
        simp only [Journal.step, hfrozen, Option.map_some, Journal.endOf]
        rw [List.take_append_of_le_length hn]
  · intro n hn
    obtain ⟨hle, hoff⟩ := h.frozen_le n hn
    refine ⟨hle.trans (by simp [Journal.step]), ?_⟩
    simp only [Journal.step, Journal.endOf]
    rw [List.take_append_of_le_length hle]
    exact hoff.trans happ.grows

theorem drain (h : Journaled s a) : Journaled s.drain a := by
  have hdrained := Appended.drained h.parked.ge
  refine ⟨drain_parked h.parked, ?_, h.logLen, h.idx, h.ckptLogOff, h.table,
    h.baseKeyed, h.liveKeyed, h.base_le, h.live_le, h.end_le, h.fzWalEnd, ?_⟩
  · obtain ⟨front, hfront, hlog⟩ := h.log
    refine ⟨front, hfront, ?_⟩
    rw [drain_log_of_parked h.parked, hlog]
    exact List.append_nil _
  · intro n hn
    obtain ⟨hle, hoff⟩ := h.frozen_le n hn
    exact ⟨hle, hoff.trans hdrained.grows⟩

theorem sync (h : Journaled s a) (hfrozen : s.fzWalEnd = none) :
    Journaled (utxoStoreSync s) (a.step .sync) := by
  have hd := h.drain
  have hnone : a.frozen = none := by
    rw [h.fzWalEnd, Option.map_eq_none_iff] at hfrozen
    exact hfrozen
  have hend_le := h.end_le
  have hlive_le := h.live_le
  simp only [fileMax] at hend_le
  have hstep : (a.step .sync).endOf [] = a.endOf a.ops := by
    simp [Journal.step, Journal.endOf]
  refine ⟨hd.parked, ?_, h.logLen.trans hstep.symm, ?_, h.logLen, h.table,
    h.liveKeyed, h.liveKeyed, h.live_le, ?_, ?_, ?_, ?_⟩
  · refine ⟨s.drain.log, ?_, ?_⟩
    · rw [← hd.parked]
      have := h.endOf_eq
      have := h.parked
      change s.pos + s.buf.length = a.endOf a.ops
      omega
    · simp [Journal.step, utxoStoreSync, UtxoStore.drain]
  · change loadCheckpoint (idxBytes s.logLen s.table) = (a.endOf a.ops, a.live)
    rw [h.logLen, h.table]
    exact loadCheckpoint_idxBytes h.liveKeyed (by omega) (by omega)
  · exact Nat.le_trans h.live_le hstep.ge
  · exact Nat.le_trans hstep.le h.end_le
  · change s.fzWalEnd = _
    simp [Journal.step, hnone, hfrozen]
  · intro n hn
    simp [Journal.step, hnone] at hn

theorem freeze (h : Journaled s a) (hs : utxoLsmFreezeLog s = some s') :
    Journaled s' (a.step .freeze) := by
  have hd := h.drain
  unfold utxoLsmFreezeLog at hs
  dsimp only at hs
  split at hs
  · cases hs
  · cases hs
    refine ⟨hd.parked, hd.log, hd.logLen, hd.idx, hd.ckptLogOff, rfl,
      h.baseKeyed, .empty, h.base_le, Nat.zero_le _, h.end_le, ?_, ?_⟩
    · simp only [Journal.step, Option.map_some, List.take_length]
      exact congrArg some h.logLen
    · intro n hn
      have hn' : a.ops.length = n := by simpa [Journal.step] using hn
      subst hn'
      refine ⟨Nat.le_refl _, ?_⟩
      simp only [Journal.step, List.take_length]
      have hend := hd.endOf_eq
      exact hend.le.trans (by simp [UtxoStore.drain])

theorem retire (h : Journaled s a) {punches : Bool}
    (hs : fzRetireWal s punches = some s') :
    Journaled s' (a.step (.retire punches)) := by
  unfold fzRetireWal at hs
  split at hs
  · cases hs
  · next off hoff =>
      rw [h.fzWalEnd, Option.map_eq_some_iff] at hoff
      obtain ⟨n, hn, rfl⟩ := hoff
      obtain ⟨hle, hfile⟩ := h.frozen_le n hn
      obtain ⟨front, hfront, hlog⟩ := h.log
      cases hs
      -- the retired bytes, and the records behind them
      have hsplit : encodeAll LogOp.encode a.ops =
          encodeAll LogOp.encode (a.ops.take n) ++
            encodeAll LogOp.encode (a.ops.drop n) := by
        rw [← encodeAll_append, List.take_append_drop]
      have hoffset : (front ++ encodeAll LogOp.encode (a.ops.take n)).length =
          a.endOf (a.ops.take n) := by
        rw [List.length_append, hfront]
        rfl
      have hrest : s.log.drop (a.endOf (a.ops.take n)) ++ s.buf =
          encodeAll LogOp.encode (a.ops.drop n) := by
        rw [← List.drop_append_of_le_length hfile, hlog, hsplit,
          ← List.append_assoc, ← hoffset, List.drop_left]
      have hend : (a.step (.retire punches)).endOf (a.ops.drop n) =
          a.endOf a.ops := by
        simp only [Journal.step, hn, Option.getD_some, Journal.endOf]
        rw [hsplit, List.length_append, Nat.add_assoc]
      have hops : (a.step (.retire punches)).ops = a.ops.drop n := by
        simp [Journal.step, hn]
      have hlen : a.start ≤ a.endOf (a.ops.take n) := a.start_le_endOf _
      have hend_le := h.end_le
      have hoff_le : a.endOf (a.ops.take n) ≤ a.endOf a.ops := by
        rw [Journal.endOf, Journal.endOf, hsplit, List.length_append]
        omega
      simp only [fileMax] at hend_le
      refine ⟨?_, ?_, ?_, ?_, ?_, h.table, .empty, h.liveKeyed, Nat.zero_le _,
        ?_, ?_, ?_, ?_⟩
      · have hparked := h.parked
        dsimp only
        split
        · rw [fzPunch, h.ckptLogOff, hparked]
          simp only [List.length_append, List.length_take, List.length_drop,
            List.length_replicate]
          omega
        · exact hparked
      · dsimp only
        split
        · refine ⟨s.log.take a.start ++
            List.replicate (a.endOf (a.ops.take n) - a.start) 0, ?_, ?_⟩
          · simp only [Journal.step, hn, Option.getD_some, List.length_append,
              List.length_take, List.length_replicate]
            omega
          · simp only [Journal.step, hn, Option.getD_some]
            rw [fzPunch, h.ckptLogOff, Nat.add_sub_cancel' hlen, ← hrest]
            simp
        · refine ⟨front ++ encodeAll LogOp.encode (a.ops.take n), ?_, ?_⟩
          · simp only [Journal.step, hn, Option.getD_some]
            exact hoffset
          · simp only [Journal.step, hn, Option.getD_some]
            rw [hlog, hsplit, List.append_assoc]
      · rw [hops, hend]
        exact h.logLen
      · have hload : loadCheckpoint (idxBytes (a.endOf (a.ops.take n)) []) =
            (a.endOf (a.ops.take n), []) :=
          loadCheckpoint_idxBytes .empty (by omega) (by simp)
        simp only [Journal.step, hn, Option.getD_some]
        exact hload
      · simp [Journal.step, hn]
      · rw [hops, hend]
        exact h.live_le
      · rw [hops, hend]
        exact h.end_le
      · simp [Journal.step]
      · intro k hk
        simp [Journal.step] at hk

theorem step (h : Journaled s a) {op : LogStep} (hs : s.step op = some s') :
    Journaled s' (a.step op) := by
  cases op with
  | append op => exact h.append hs
  | drain =>
      cases hs
      exact h.drain
  | sync =>
      simp only [UtxoStore.step] at hs
      split at hs
      · next hfrozen =>
          cases hs
          exact h.sync hfrozen
      · cases hs
  | freeze => exact h.freeze hs
  | retire punches => exact h.retire hs

/-- What a crash at byte `cut` and the reload after it leave.  The descriptor
is at the cut, which is the end of the kept records only when the cut left
nothing else. -/
theorem reload_crash (h : Journaled s a) {cut : Nat} (hcut : cut ≤ s.log.length) :
    ∃ front : List UInt8, front.length = a.start ∧
      utxoStoreReload (s.crash cut) =
        ((a.keptBefore cut).length,
          ⟨front ++ encodeAll LogOp.encode (a.keptBefore cut), s.idx,
            max cut (a.endOf (a.keptBefore cut)), [],
            a.endOf (a.keptBefore cut), a.start,
            applyAll a.base (a.keptBefore cut), none⟩) := by
  obtain ⟨front, hfront, hlog⟩ := h.log
  have hfile : (s.crash cut).drain.log =
      (front ++ encodeAll LogOp.encode a.ops).take cut := by
    change s.log.take cut = _
    rw [← hlog, List.take_append_of_le_length hcut]
  rcases Nat.lt_or_ge a.start cut with hlt | hle
  · -- the cut is among the records
    have hall : cut - a.start ≤ (encodeAll LogOp.encode a.ops).length := by
      have hlen := congrArg List.length hlog
      rw [List.length_append, List.length_append, hfront] at hlen
      omega
    have htail : (front ++ encodeAll LogOp.encode a.ops).take cut =
        front ++ (encodeAll LogOp.encode a.ops).take (cut - a.start) := by
      rw [List.take_append, List.take_of_length_le (by omega), hfront]
    have hlen : (front ++
        (encodeAll LogOp.encode a.ops).take (cut - a.start)).length = cut := by
      rw [List.length_append, List.length_take, hfront]
      omega
    have hkept := a.endOf_keptBefore_le cut
    rw [Nat.max_eq_left hlt.le] at hkept
    have htake : (front ++ (encodeAll LogOp.encode a.ops).take
        (cut - a.start)).take (a.endOf (a.keptBefore cut)) =
        front ++ encodeAll LogOp.encode (a.keptBefore cut) := by
      rw [Journal.endOf, ← hfront, List.take_length_add_append, hfront]
      exact congrArg _ (take_take_wholeBefore LogOp.encode a.ops _)
    refine ⟨front, hfront, ?_⟩
    rw [utxoStoreReload_eq (hfront ▸ h.idx)
      (by rw [hfile, htail, hlen, hfront, Nat.sub_eq_zero_of_le hlt.le,
        List.replicate_zero, List.append_nil])
      (log_framed.scan_take a.ops hall), hlen, hfront]
    have hend : a.start + (encodeAll LogOp.encode
        (wholeBefore LogOp.encode a.ops (cut - a.start))).length =
        a.endOf (a.keptBefore cut) := rfl
    by_cases htorn : (encodeAll LogOp.encode
        (wholeBefore LogOp.encode a.ops (cut - a.start))).length < cut - a.start
    · rw [decide_eq_true htorn, if_pos rfl, if_pos rfl, hend, htake,
        Nat.max_eq_left hkept]
      rfl
    · have hexact : a.endOf (a.keptBefore cut) = cut := by omega
      have hwhole : (front ++
          (encodeAll LogOp.encode a.ops).take (cut - a.start)) =
          front ++ encodeAll LogOp.encode (a.keptBefore cut) :=
        (List.take_of_length_le (hlen.trans hexact.symm).le).symm.trans htake
      rw [decide_eq_false htorn, if_neg Bool.false_ne_true,
        if_neg Bool.false_ne_true, hwhole, hexact, Nat.max_self]
      rfl
  · -- the log ends at or below the checkpoint, and is extended to it
    have hshort : (front ++ encodeAll LogOp.encode a.ops).take cut =
        front.take cut := List.take_append_of_le_length (by omega)
    have hlen : (front.take cut).length = cut := by
      rw [List.length_take]
      omega
    have hnone := Journal.keptBefore_of_le hle
    have hhealed : (front.take cut ++
        List.replicate (a.start - cut) (0 : UInt8)).length = a.start := by
      rw [List.length_append, hlen, List.length_replicate]
      omega
    refine ⟨front.take cut ++ List.replicate (a.start - cut) 0, hhealed, ?_⟩
    rw [utxoStoreReload_eq (hhealed ▸ h.idx)
      (by rw [hfile, hshort, hlen, hhealed, List.append_nil])
      log_framed.scan_nil, hnone, List.append_nil, hhealed]
    simp only [Journal.endOf, encodeAll_nil, List.length_nil, Nat.add_zero,
      Nat.max_eq_right hle, List.append_nil]
    rfl

theorem reload_boundary (h : Journaled s a) {cut : Nat}
    (hcut : cut ≤ s.log.length) (hb : a.AtBoundary cut) :
    Journaled (utxoStoreReload (s.crash cut)).2 (a.reloaded cut) := by
  obtain ⟨front, hfront, hreload⟩ := h.reload_crash hcut
  have hkeptLe : a.endOf (a.keptBefore cut) ≤ a.endOf a.ops := by
    obtain ⟨lost, hlost⟩ :=
      exists_wholeBefore_append LogOp.encode a.ops (cut - a.start)
    have hops : a.ops = a.keptBefore cut ++ lost := hlost
    conv_rhs => rw [hops]
    rw [Journal.endOf, Journal.endOf, encodeAll_append, List.length_append]
    omega
  have hbase := h.base_le
  have hlive := length_applyAll_le a.base (a.keptBefore cut)
  have hpos : max cut (a.endOf (a.keptBefore cut)) =
      a.endOf (a.keptBefore cut) := Nat.max_eq_right hb
  rw [hreload]
  refine ⟨?_, ⟨front, hfront, by simp [Journal.reloaded]⟩, rfl, h.idx, rfl,
    rfl, h.baseKeyed, h.baseKeyed.applyAll _, hbase, ?_,
    hkeptLe.trans h.end_le, rfl, ?_⟩
  · dsimp only
    rw [hpos, List.length_append, hfront]
    rfl
  · simp only [Journal.reloaded]
    rw [Journal.endOf]
    dsimp only
    omega
  · intro n hn
    cases hn

end Journaled

/-! ## Crashes and what is appended afterwards -/

/-- The stores that any operations lead to, and with them crashes between two
records, each with the abstract log it should hold. -/
inductive LogReach : UtxoStore → Journal → Prop where
  | init : LogReach (UtxoStore.init [] []) Journal.empty
  | step {s s' : UtxoStore} {a : Journal} {op : LogStep} :
      LogReach s a → s.step op = some s' → LogReach s' (a.step op)
  | boot {s : UtxoStore} {a : Journal} {cut : Nat} :
      LogReach s a → cut ≤ s.log.length → a.AtBoundary cut →
      LogReach (utxoStoreReload (s.crash cut)).2 (a.reloaded cut)

theorem LogReach.journaled {s : UtxoStore} {a : Journal} (h : LogReach s a) :
    Journaled s a := by
  induction h with
  | init => exact .init
  | step _ hs ih => exact ih.step hs
  | boot _ hcut hb ih => exact ih.reload_boundary hcut hb

/-- The reload after a crash restores the whole records before the cut, the
log ends with them, and with `later` appended to give `s'` the next reload has
these records as well. -/
def CrashRecovered (s : UtxoStore) (a : Journal) (cut : Nat)
    (later : List LogOp) (s' : UtxoStore) : Prop :=
  (utxoStoreReload (s.crash cut)).2.table =
      applyAll a.base (a.keptBefore cut) ∧
    (utxoStoreReload (s.crash cut)).2.logLen = a.endOf (a.keptBefore cut) ∧
    (utxoStoreReload s').1 = (a.keptBefore cut ++ later).length ∧
    (utxoStoreReload s').2.table =
      applyAll a.base (a.keptBefore cut ++ later) ∧
    (utxoStoreReload s').2.logLen = a.endOf (a.keptBefore cut ++ later)

/-- The replay stops where the zeros before a record begin: the operation byte
is one of them, or a byte of the magic. -/
theorem logNext_hole (n : Nat) (op : LogOp) (rest : List UInt8) :
    logNext (List.replicate (n + 1) 0 ++ (op.encode ++ rest)) = .torn := by
  obtain ⟨b, body, hop⟩ : ∃ b body, op.encode = logHead b ++ body := by
    cases op with
    | push o coin => exact ⟨_, _, LogOp.encode_push o coin⟩
    | del o => exact ⟨_, _, LogOp.encode_del o⟩
  have hne : List.replicate (n + 1) 0 ++ (op.encode ++ rest) ≠ [] := by simp
  have hlen : ¬ (List.replicate (n + 1) 0 ++ (op.encode ++ rest)).length < 8 := by
    have := op.eight_lt_length_encode
    rw [List.length_append, List.length_append]
    omega
  have hbyte : leVal (field (List.replicate (n + 1) 0 ++
      (op.encode ++ rest)) 4 1) ∈ [0, 0x55, 0x54, 0x58, 0x4F] := by
    rw [hop]
    rcases n with _ | _ | _ | _ | n <;>
      simp [field, logHead, List.replicate_succ]
  rw [logNext, if_neg hne, if_neg hlen, if_neg, if_neg]
  · intro heq
    rw [heq] at hbyte
    revert hbyte
    decide
  · intro heq
    rw [heq] at hbyte
    revert hbyte
    decide

/-- The log after the appends: behind the kept records, or behind the hole a
torn tail left. -/
theorem appendAll_log {r s' : UtxoStore} {later : List LogOp}
    (hbuf : r.buf = []) (hwithin : r.log.length ≤ r.pos)
    (hlater : r.appendAll later = some s') :
    s'.drain.log = writeAt r.log r.pos (encodeAll LogOp.encode later) ∧
      s'.idx = r.idx := by
  have happ := UtxoStore.appendAll_spec hwithin hlater
  have hdrain : r.drain = r := by
    unfold UtxoStore.drain UtxoStore.write
    rw [hbuf, writeAt_nil]
    cases r
    cases hbuf
    rfl
  refine ⟨?_, happ.idx⟩
  rw [happ.log, hdrain]

/-- A reload of a log that has whole records behind the checkpoint, and then
something else. -/
theorem utxoStoreReload_of_log {s : UtxoStore} {base : Table}
    {front tail : List UInt8} {ops : List LogOp}
    (hidx : loadCheckpoint s.idx = (front.length, base))
    (hlog : s.drain.log = front ++ (encodeAll LogOp.encode ops ++ tail)) :
    (utxoStoreReload s).1 = ops.length + (scan logNext tail).1.length ∧
      (utxoStoreReload s).2.table =
        applyAll base (ops ++ (scan logNext tail).1) ∧
      ((scan logNext tail).2 = false →
        (utxoStoreReload s).2.logLen = s.drain.log.length) := by
  have hscan := log_framed.scan_encodeAll ops tail
  have hhealed : s.drain.log ++
      List.replicate (front.length - s.drain.log.length) 0 =
      front ++ (encodeAll LogOp.encode ops ++ tail) := by
    have hzero : front.length - s.drain.log.length = 0 := by
      rw [hlog, List.length_append]
      omega
    rw [hzero, List.replicate_zero, List.append_nil, hlog]
  rw [utxoStoreReload_eq hidx hhealed hscan]
  refine ⟨List.length_append, rfl, ?_⟩
  intro hwhole
  simp only [hwhole, Bool.false_eq_true, if_false, hlog]

/-- The log that the second reload finds. -/
theorem Journaled.log_after_crash {s s' : UtxoStore} {a : Journal}
    {cut : Nat} {later : List LogOp} (h : Journaled s a)
    (hcut : cut ≤ s.log.length)
    (hlater : (utxoStoreReload (s.crash cut)).2.appendAll later = some s') :
    ∃ front : List UInt8, front.length = a.start ∧
      loadCheckpoint s'.idx = (front.length, a.base) ∧
      s'.drain.log =
        writeAt (front ++ encodeAll LogOp.encode (a.keptBefore cut))
          (max cut (a.endOf (a.keptBefore cut)))
          (encodeAll LogOp.encode later) := by
  obtain ⟨front, hfront, hreload⟩ := h.reload_crash hcut
  have hlen : (front ++ encodeAll LogOp.encode (a.keptBefore cut)).length =
      a.endOf (a.keptBefore cut) := by
    rw [List.length_append, hfront]
    rfl
  rw [hreload] at hlater
  obtain ⟨hlog, hidx⟩ :=
    appendAll_log rfl (hlen.trans_le (Nat.le_max_right _ _)) hlater
  refine ⟨front, hfront, ?_, hlog⟩
  rw [hidx, hfront]
  exact h.idx

/-- Behind a torn tail the appended records are never reached. -/
theorem Journaled.lost_of_torn {s s' : UtxoStore} {a : Journal}
    {cut : Nat} {op : LogOp} {rest : List LogOp} (h : Journaled s a)
    (hcut : cut ≤ s.log.length)
    (hlater : (utxoStoreReload (s.crash cut)).2.appendAll (op :: rest) =
      some s')
    (htorn : ¬ a.AtBoundary cut) :
    (utxoStoreReload s').1 = (a.keptBefore cut).length := by
  obtain ⟨front, hfront, hidx, hlog⟩ := h.log_after_crash hcut hlater
  have hgap : a.endOf (a.keptBefore cut) < cut := Nat.lt_of_not_le htorn
  obtain ⟨n, hn⟩ : ∃ n, cut - a.endOf (a.keptBefore cut) = n + 1 :=
    ⟨cut - a.endOf (a.keptBefore cut) - 1, by omega⟩
  have hlen : (front ++ encodeAll LogOp.encode (a.keptBefore cut)).length =
      a.endOf (a.keptBefore cut) := by
    rw [List.length_append, hfront]
    rfl
  have hbytes : encodeAll LogOp.encode (op :: rest) ≠ [] := by
    have hop := op.eight_lt_length_encode
    intro hnil
    have hzero := congrArg List.length hnil
    rw [encodeAll_cons, List.length_append, List.length_nil] at hzero
    omega
  rw [Nat.max_eq_left hgap.le,
    writeAt_of_length_le (hlen.trans_le hgap.le) hbytes, hlen, hn,
    List.append_assoc] at hlog
  have hstop : scan logNext (List.replicate (n + 1) 0 ++
      encodeAll LogOp.encode (op :: rest)) = ([], true) := by
    rw [encodeAll_cons]
    simp only [scan, scanFuel, logNext_hole]
  have hsecond := (utxoStoreReload_of_log hidx hlog).1
  rw [hstop] at hsecond
  exact hsecond

/-- Without one, or with nothing appended, all is there. -/
theorem Journaled.recovered {s s' : UtxoStore} {a : Journal}
    {cut : Nat} {later : List LogOp} (h : Journaled s a)
    (hcut : cut ≤ s.log.length)
    (hlater : (utxoStoreReload (s.crash cut)).2.appendAll later = some s')
    (hok : a.AtBoundary cut ∨ later = []) : CrashRecovered s a cut later s' := by
  obtain ⟨_, -, hreload⟩ := h.reload_crash hcut
  obtain ⟨front, hfront, hidx, hlog⟩ := h.log_after_crash hcut hlater
  have happended : writeAt
      (front ++ encodeAll LogOp.encode (a.keptBefore cut))
      (max cut (a.endOf (a.keptBefore cut)))
      (encodeAll LogOp.encode later) =
      front ++ (encodeAll LogOp.encode (a.keptBefore cut ++ later) ++ []) := by
    rw [List.append_nil, encodeAll_append, ← List.append_assoc]
    rcases hok with hb | rfl
    · rw [Nat.max_eq_right hb, Journal.endOf, ← hfront, ← List.length_append,
        writeAt_end]
    · rw [encodeAll_nil, writeAt_nil, List.append_nil]
  rw [happended] at hlog
  obtain ⟨hcount, htable, hend⟩ := utxoStoreReload_of_log hidx hlog
  rw [log_framed.scan_nil, List.append_nil] at htable
  rw [log_framed.scan_nil] at hcount
  refine ⟨by rw [hreload], by rw [hreload], hcount, htable, ?_⟩
  rw [hend (by rw [log_framed.scan_nil]), hlog, List.append_nil,
    List.length_append, hfront]
  rfl

theorem utxoStoreReload_recovers_iff {s s' : UtxoStore} {a : Journal}
    {cut : Nat} {later : List LogOp} (h : LogReach s a)
    (hcut : cut ≤ s.log.length)
    (hlater : (utxoStoreReload (s.crash cut)).2.appendAll later = some s') :
    CrashRecovered s a cut later s' ↔ a.AtBoundary cut ∨ later = [] := by
  constructor
  · rintro ⟨-, -, hcount, -, -⟩
    by_contra hnot
    obtain ⟨htorn, hne⟩ := not_or.mp hnot
    obtain ⟨op, rest, rfl⟩ := List.exists_cons_of_ne_nil hne
    rw [h.journaled.lost_of_torn hcut hlater htorn, List.length_append,
      List.length_cons] at hcount
    omega
  · exact h.journaled.recovered hcut hlater

/-! A log of one deletion, cut and appended to. -/

def sampleSpent (n : UInt32) : LogOp := .del ⟨Txid.ofBytes [], n⟩

/-- The store after `ops` are appended to an empty one and drained. -/
def sampleLogged (ops : List LogOp) : UtxoStore :=
  (((UtxoStore.init [] []).appendAll ops).getD (UtxoStore.init [] [])).drain

theorem logReach_sampleLogged :
    LogReach (sampleLogged [sampleSpent 7])
      ⟨0, [], [sampleSpent 7], [], none⟩ := by
  have happend : (UtxoStore.init [] []).step (.append (sampleSpent 7)) =
      some (((UtxoStore.init [] []).append (sampleSpent 7)).getD
        (UtxoStore.init [] [])) := rfl
  have hdrain : (((UtxoStore.init [] []).append (sampleSpent 7)).getD
      (UtxoStore.init [] [])).step .drain =
      some (sampleLogged [sampleSpent 7]) := rfl
  exact (LogReach.init.step happend).step hdrain

/-- The store after a crash of that one, a reload and one more deletion. -/
def sampleAppended (cut : Nat) : UtxoStore :=
  ((utxoStoreReload ((sampleLogged [sampleSpent 7]).crash cut)).2.append
    (sampleSpent 8)).getD (UtxoStore.init [] [])

theorem utxoStoreReload_recovers_sample :
    CrashRecovered (sampleLogged [sampleSpent 7])
      ⟨0, [], [sampleSpent 7], [], none⟩ 44 [sampleSpent 8]
      (sampleAppended 44) := by
  refine (utxoStoreReload_recovers_iff logReach_sampleLogged ?_ ?_).mpr
    (.inl ?_)
  · decide
  · rfl
  · unfold Journal.AtBoundary
    decide

theorem not_crashRecovered_torn :
    ¬ ∀ (s s' : UtxoStore) (a : Journal) (cut : Nat) (later : List LogOp),
      LogReach s a → cut ≤ s.log.length →
      (utxoStoreReload (s.crash cut)).2.appendAll later = some s' →
      CrashRecovered s a cut later s' := by
  intro hclaim
  have hlater : (utxoStoreReload
      ((sampleLogged [sampleSpent 7]).crash 10)).2.appendAll [sampleSpent 8] =
      some (sampleAppended 10) := rfl
  have hcut : 10 ≤ (sampleLogged [sampleSpent 7]).log.length := by decide
  obtain ⟨-, -, hcount, -, -⟩ :=
    hclaim _ _ _ _ _ logReach_sampleLogged hcut hlater
  have htorn : ¬ Journal.AtBoundary ⟨0, [], [sampleSpent 7], [], none⟩ 10 := by
    unfold Journal.AtBoundary
    decide
  rw [logReach_sampleLogged.journaled.lost_of_torn hcut hlater htorn] at hcount
  exact absurd hcount (by decide)

end BitcoinMachineCode.Storage
