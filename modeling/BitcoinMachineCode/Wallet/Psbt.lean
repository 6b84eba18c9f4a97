import BitcoinMachineCode.Consensus.TxBytes

/-!
# The maps of a PSBT

`psbt_update.c` reads each map of a PSBT into a table of at most `PU_MAXKV` pairs and writes
the tables out again.  `readMap` is the format itself, with no table.
-/

namespace BitcoinMachineCode.Wallet

open Foundation Consensus

def puMaxkv : Nat := 160

def puMaxio : Nat := 1000

def rdVarintB : Reader UInt8 Nat := readVarint false false

def wrVarint (v : Nat) : List UInt8 :=
  if v < 0xfd then [UInt8.ofNat v]
  else if v ≤ 0xffff then 0xfd :: leBytes 2 v
  else if v ≤ 0xffffffff then 0xfe :: leBytes 4 v
  else 0xff :: leBytes 8 v

structure Kv where
  key : List UInt8
  value : List UInt8
  /-- what stands in memory after the value -/
  follows : List UInt8

def Kv.pair (kv : Kv) : List UInt8 × List UInt8 := (kv.key, kv.value)

/-- A pair, or the empty key that ends a map. -/
def readEntry : Reader UInt8 (Option (List UInt8 × List UInt8)) :=
  rdVarintB.bind fun kl bs =>
    if kl = 0 then some (none, bs)
    else
      ((Reader.take kl).bind fun key =>
        rdVarintB.bind fun vl =>
        (Reader.take vl).bind fun value => .pure (some (key, value))) bs

/-- The loop of `parse_map`; every pair takes a byte, so the bytes left bound the rounds.  A
pair that finds the table full is read over. -/
def parseMapFrom (beyond : List UInt8) : Nat → List UInt8 → List Kv → Option (List Kv × List UInt8)
  | 0, _, _ => none
  | k + 1, bs, kvs =>
      match readEntry bs with
      | none => none
      | some (none, rest) => some (kvs, rest)
      | some (some (key, value), rest) =>
          parseMapFrom beyond k rest
            (if kvs.length < puMaxkv then kvs ++ [⟨key, value, rest ++ beyond⟩] else kvs)

/-- `beyond` is what stands in memory after the buffer. -/
def parseMap (beyond bs : List UInt8) : Option (List Kv × List UInt8) :=
  parseMapFrom beyond (bs.length + 1) bs []

def serPair (kv : Kv) : List UInt8 :=
  wrVarint kv.key.length ++ kv.key ++ wrVarint kv.value.length ++ kv.value

def serMap (kvs : List Kv) : List UInt8 := kvs.flatMap serPair ++ [0]

def findKv (kvs : List Kv) (t : UInt8) : Option Kv :=
  kvs.find? fun kv => decide (kv.key.head? = some t)

def hasKey (kvs : List Kv) (key : List UInt8) : Bool :=
  kvs.any fun kv => decide (kv.key = key)

/-! ## The unsigned transaction -/

structure TxOut where
  value : List UInt8
  spk : List UInt8

def walkIn : Reader UInt8 (List UInt8) :=
  (Reader.take 36).bind fun op =>
  rdVarintB.bind fun sl =>
  (Reader.take sl).bind fun _ =>
  (Reader.take 4).bind fun _ => .pure op

def walkOut : Reader UInt8 TxOut :=
  (Reader.take 8).bind fun value =>
  rdVarintB.bind fun sl =>
  (Reader.take sl).bind fun spk => .pure ⟨value, spk⟩

def walkList {α : Type} (r : Reader UInt8 α) : Reader UInt8 (List α) :=
  rdVarintB.bind fun n bs => if puMaxio < n then none else r.times n bs

/-- The outpoints of the inputs and the outputs. -/
def walkTx (tx : List UInt8) : Option (List (List UInt8) × List TxOut) :=
  if tx.length < 10 then none
  else
    (((walkList walkIn).bind fun ins => (walkList walkOut).bind fun outs => .pure (ins, outs))
      (tx.drop (if hasMarker (tx.drop 4) then 6 else 4))).map Prod.fst

/-! ## The format -/

def readMapFrom : Nat → Reader UInt8 (List (List UInt8 × List UInt8))
  | 0, _ => none
  | k + 1, bs =>
      match readEntry bs with
      | none => none
      | some (none, rest) => some ([], rest)
      | some (some pair, rest) => (readMapFrom k rest).map fun p => (pair :: p.1, p.2)

def readMap : Reader UInt8 (List (List UInt8 × List UInt8)) := fun bs =>
  readMapFrom (bs.length + 1) bs

def magic : List UInt8 := [0x70, 0x73, 0x62, 0x74, 0xff]

/-- How many maps go with the unsigned transaction of the global map. -/
def mapCount (global : List (List UInt8 × List UInt8)) : Option Nat :=
  (global.find? fun p => decide (p.1.head? = some 0)).bind fun p =>
    (walkTx p.2).map fun t => t.1.length + t.2.length

/-- The maps of a PSBT, the global one first, with nothing after them. -/
def readPsbt (bs : List UInt8) : Option (List (List (List UInt8 × List UInt8))) :=
  match Reader.take 5 bs with
  | none => none
  | some (mark, rest) =>
      if mark ≠ magic then none
      else
        match readMap rest with
        | none => none
        | some (global, rest) =>
            match mapCount global with
            | none => none
            | some n =>
                match readMap.times n rest with
                | some (maps, []) => some (global :: maps)
                | _ => none

/-! ## Writing and reading -/

theorem takes_wide {b : UInt8} {n : Nat} (hb : ¬ b < 0xfd) (hn : n < 256 ^ (varintWidth b).1) :
    rdVarintB.Takes (b :: leBytes (varintWidth b).1 n) n := by
  have htakes : rdVarintB.Takes (b :: leBytes (varintWidth b).1 n)
      (leVal (leBytes (varintWidth b).1 n)) :=
    takes_varint_wide hb (length_leBytes ..) nofun nofun
  rw [leVal_leBytes, Nat.mod_eq_of_lt hn] at htakes
  exact htakes

theorem takes_wrVarint {n : Nat} (h : n < 2 ^ 64) : rdVarintB.Takes (wrVarint n) n := by
  unfold wrVarint
  split
  · next hsmall =>
      have htoNat : (UInt8.ofNat n).toNat = n := UInt8.toNat_ofNat_of_lt' (by
        change n < 256
        omega)
      have hlt : UInt8.ofNat n < 0xfd := by
        rw [UInt8.lt_iff_toNat_lt, htoNat]
        exact hsmall
      have htakes : rdVarintB.Takes [UInt8.ofNat n] (UInt8.ofNat n).toNat := takes_varint_small hlt
      rw [htoNat] at htakes
      exact htakes
  split
  · exact takes_wide (b := 0xfd) (by decide) (by change n < 256 ^ 2; omega)
  split
  · exact takes_wide (b := 0xfe) (by decide) (by change n < 256 ^ 4; omega)
  · exact takes_wide (b := 0xff) (by decide) (by change n < 256 ^ 8; omega)

theorem rdVarintB_lt {bs rest : List UInt8} {n : Nat} (h : rdVarintB bs = some (n, rest)) :
    n < 2 ^ 64 := by
  rcases readVarint_eq_some h with ⟨b, -, rfl, -⟩ | ⟨b, payload, -, hlen, rfl, -, -, -⟩
  · exact b.toNat_lt.trans (by decide)
  · have hwidth : payload.length ≤ 8 := by
      rw [hlen]
      unfold varintWidth
      split
      · decide
      split <;> decide
    calc leVal payload < 256 ^ payload.length := leVal_lt payload
      _ ≤ 256 ^ 8 := Nat.pow_le_pow_right (by decide) hwidth
      _ = 2 ^ 64 := by decide

/-- A pair that can stand in a map. -/
def Fits (p : List UInt8 × List UInt8) : Prop :=
  p.1 ≠ [] ∧ p.1.length < 2 ^ 64 ∧ p.2.length < 2 ^ 64

theorem takes_serPair {kv : Kv} (h : Fits kv.pair) :
    readEntry.Takes (serPair kv) (some kv.pair) := by
  obtain ⟨hkey, hkeylen, hvaluelen⟩ := h
  have hpos : kv.key.length ≠ 0 := fun h => hkey (List.length_eq_zero_iff.mp h)
  have hbody : ((Reader.take kv.key.length).bind fun key => rdVarintB.bind fun vl =>
      (Reader.take vl).bind fun value => .pure (some (key, value))).Takes
      (kv.key ++ (wrVarint kv.value.length ++ (kv.value ++ []))) (some kv.pair) := by
    refine (Reader.takes_take rfl).bind ((takes_wrVarint hvaluelen).bind ?_)
    exact (Reader.takes_take rfl).bind (Reader.takes_pure _)
  have hentry : readEntry.Takes
      (wrVarint kv.key.length ++ (kv.key ++ (wrVarint kv.value.length ++ (kv.value ++ []))))
      (some kv.pair) := by
    refine (takes_wrVarint hkeylen).bind fun tail => ?_
    exact (if_neg hpos).trans (hbody tail)
  simpa [serPair] using hentry

theorem takes_end : readEntry.Takes [0] none := fun _ => rfl

theorem readEntry_fits {bs rest : List UInt8} {p : List UInt8 × List UInt8}
    (h : readEntry bs = some (some p, rest)) : Fits p := by
  obtain ⟨kl, mid, hkl, h⟩ := Reader.bind_eq_some h
  split at h
  · cases h
  next hpos =>
  obtain ⟨key, mid₁, hkey, h⟩ := Reader.bind_eq_some h
  obtain ⟨vl, mid₂, hvl, h⟩ := Reader.bind_eq_some h
  obtain ⟨value, mid₃, hvalue, h⟩ := Reader.bind_eq_some h
  obtain ⟨rfl, -⟩ := by simpa [Reader.pure] using h
  have hkeylen := (Reader.take_eq_some hkey).1
  have hvaluelen := (Reader.take_eq_some hvalue).1
  refine ⟨fun hnil : key = [] => hpos ?_, ?_, ?_⟩
  · rw [← hkeylen, hnil, List.length_nil]
  · exact hkeylen.trans_lt (rdVarintB_lt hkl)
  · exact hvaluelen.trans_lt (rdVarintB_lt hvl)

theorem readMapFrom_fits {k : Nat} {bs rest : List UInt8} {m : List (List UInt8 × List UInt8)}
    (h : readMapFrom k bs = some (m, rest)) : ∀ p ∈ m, Fits p := by
  induction k generalizing bs m with
  | zero => cases h
  | succ k ih =>
      rw [readMapFrom] at h
      split at h
      · cases h
      · obtain ⟨rfl, -⟩ := by simpa using h
        exact nofun
      · next pair rest' hentry =>
          obtain ⟨⟨more, rest''⟩, hmore, hm⟩ := Option.map_eq_some_iff.mp h
          obtain ⟨rfl, rfl⟩ := by simpa using hm
          exact List.forall_mem_cons.mpr ⟨readEntry_fits hentry, ih hmore⟩

theorem readMapFrom_serMap {kvs : List Kv} (h : ∀ kv ∈ kvs, Fits kv.pair) {k : Nat}
    (hk : kvs.length < k) (tail : List UInt8) :
    readMapFrom k (serMap kvs ++ tail) = some (kvs.map Kv.pair, tail) := by
  induction kvs generalizing k with
  | nil =>
      obtain ⟨k, rfl⟩ : ∃ j, k = j + 1 := ⟨k - 1, by omega⟩
      have hnil : serMap [] ++ tail = [0] ++ tail := rfl
      rw [readMapFrom, hnil, takes_end]
      rfl
  | cons kv kvs ih =>
      obtain ⟨hkv, hkvs⟩ := List.forall_mem_cons.mp h
      obtain ⟨k, rfl⟩ : ∃ j, k = j + 1 := ⟨k - 1, by simp at hk; omega⟩
      have hsplit : serMap (kv :: kvs) ++ tail = serPair kv ++ (serMap kvs ++ tail) := by
        simp [serMap]
      rw [readMapFrom, hsplit, takes_serPair hkv]
      dsimp only
      rw [ih hkvs (by simpa using hk)]
      rfl

theorem length_lt_serMap (kvs : List Kv) : kvs.length < (serMap kvs).length := by
  induction kvs with
  | nil => decide
  | cons kv kvs ih =>
      have hpair : 0 < (serPair kv).length := by
        have : (wrVarint kv.key.length).length ≠ 0 := by
          unfold wrVarint
          split
          · simp
          split
          · simp
          split <;> simp
        simp only [serPair, List.length_append]
        omega
      have hsplit : serMap (kv :: kvs) = serPair kv ++ serMap kvs := by simp [serMap]
      rw [hsplit, List.length_append, List.length_cons]
      omega

/-- A table that is written out reads as it was. -/
theorem takes_serMap {kvs : List Kv} (h : ∀ kv ∈ kvs, Fits kv.pair) :
    readMap.Takes (serMap kvs) (kvs.map Kv.pair) := by
  intro tail
  refine readMapFrom_serMap h ?_ tail
  have := length_lt_serMap kvs
  rw [List.length_append]
  omega

theorem takes_serMaps {tables : List (List Kv)} (h : ∀ t ∈ tables, ∀ kv ∈ t, Fits kv.pair) :
    (readMap.times tables.length).Takes (tables.flatMap serMap)
      (tables.map fun t => t.map Kv.pair) := by
  induction tables with
  | nil => exact fun _ => rfl
  | cons t tables ih =>
      obtain ⟨ht, htables⟩ := List.forall_mem_cons.mp h
      rw [List.flatMap_cons, ← List.append_nil (tables.flatMap serMap)]
      exact (takes_serMap ht).bind ((ih htables).bind (Reader.takes_pure _))

/-! ## The table against the map -/

/-- The table holds the first pairs of the map. -/
theorem parseMapFrom_eq (beyond : List UInt8) (k : Nat) (bs : List UInt8) {kvs : List Kv}
    (h : kvs.length ≤ puMaxkv) :
    (parseMapFrom beyond k bs kvs).map (fun p => (p.1.map Kv.pair, p.2)) =
      (readMapFrom k bs).map fun p => ((kvs.map Kv.pair ++ p.1).take puMaxkv, p.2) := by
  induction k generalizing bs kvs with
  | zero => rfl
  | succ k ih =>
      rw [parseMapFrom, readMapFrom]
      cases readEntry bs with
      | none => rfl
      | some p =>
          obtain ⟨entry, rest⟩ := p
          cases entry with
          | none =>
              have hwhole : (kvs.map Kv.pair).take puMaxkv = kvs.map Kv.pair :=
                List.take_of_length_le (by simpa using h)
              simp [hwhole]
          | some pair =>
              obtain ⟨key, value⟩ := pair
              dsimp only
              by_cases hroom : kvs.length < puMaxkv
              · rw [if_pos hroom, ih rest (by simp only [List.length_append, List.length_singleton]; omega)]
                simp [Option.map_map, Function.comp_def, Kv.pair]
              · -- the table is full: whatever comes is cut off
                have hfull : (kvs.map Kv.pair).length = puMaxkv := by simpa using by omega
                rw [if_neg hroom, ih rest h]
                simp [Option.map_map, Function.comp_def, ← hfull]

theorem parseMap_eq (beyond bs : List UInt8) :
    (parseMap beyond bs).map (fun p => (p.1.map Kv.pair, p.2)) =
      (readMap bs).map fun p => (p.1.take puMaxkv, p.2) :=
  parseMapFrom_eq beyond (bs.length + 1) bs (Nat.zero_le _)

end BitcoinMachineCode.Wallet
