import BitcoinMachineCode.Foundation.MapSize
import BitcoinMachineCode.Storage.LsmReads

/-!
# Walking the live set

`utxo_lsm_walk` and the merge it shares with `mac_lsm_recount`: the runs are
merged once more, the records the generation in memory shadows are passed over,
and the memtable's own entries follow.
-/

namespace BitcoinMachineCode.Storage

open BitcoinMachineCode.Foundation

/-! ## The merge that counts -/

/-- A winning record is visited unless it is a deletion, or its key is live in
the memtable or deleted in this generation. -/
def visit (g : Generation) (r : Record Outpoint Coin) : Option (Outpoint × Coin) :=
  match r.2 with
  | none => none
  | some c =>
      if (utxoGet g.table r.1).isSome then none
      else if r.1 ∈ g.tombs then none
      else some (r.1, c)

def recountLoop (g : Generation) :
    Nat → List (List (Record Outpoint Coin)) → List (Outpoint × Coin)
  | 0, _ => []
  | fuel + 1, slots =>
      match winner slots with
      | none => []
      | some w =>
          match visit g w with
          | some e => e :: recountLoop g fuel (advance w.1 slots)
          | none => recountLoop g fuel (advance w.1 slots)

/-- `mac_lsm_recount`: the live count, the memtable's entries included, and the
run records visited on the way. -/
def macLsmRecount (s : Lsm) : Option (Nat × List (Outpoint × Coin)) :=
  match readRuns s.files s.manifest with
  | none => none
  | some runs =>
      let slots := runs.map Run.recs
      let seen := recountLoop s.live (recordCount slots) slots
      some (s.live.table.slots.entries.length + seen.length, seen)

/-- `utxo_walk_live`. -/
def utxoWalkLive (u : Memtable) : List (Outpoint × Coin) :=
  u.slots.entries.map fun e => (e.1, e.2)

/-- `utxo_lsm_walk`: its return and what it visits, in order. -/
def utxoLsmWalk (s : Lsm) : Option (Nat × List (Outpoint × Coin)) :=
  match macLsmRecount s with
  | none => none
  | some (live, seen) =>
      let own := utxoWalkLive s.live.table
      if own.length = s.live.table.slots.entries.length then some (live, seen ++ own)
      else none

/-! ## What is visited -/

/-- The generation says nothing of the key. -/
def unshadowed (g : Generation) (o : Outpoint) : Bool :=
  (utxoGet g.table o).isNone && decide (o ∉ g.tombs)

theorem visit_eq (g : Generation) (r : Record Outpoint Coin) :
    visit g r = liveRecord (unshadowed g) r := by
  obtain ⟨o, v⟩ := r
  rw [visit, liveRecord, unshadowed]
  cases v with
  | none => simp
  | some c =>
      cases utxoGet g.table o with
      | some d => simp
      | none =>
          by_cases ho : o ∈ g.tombs
          · simp [ho]
          · simp [ho]

theorem recountLoop_eq (g : Generation) (fuel : Nat)
    (slots : List (List (Record Outpoint Coin))) :
    recountLoop g fuel slots = (mergeLoop true fuel slots).filterMap (visit g) := by
  induction fuel generalizing slots with
  | zero => rfl
  | succ fuel ih =>
      rw [recountLoop, mergeLoop]
      cases winner slots with
      | none => rfl
      | some w =>
          simp only [Bool.or_true, if_true, List.filterMap_cons, ih]
          cases visit g w <;> rfl

theorem layer_eq_none_iff {g : Generation} {o : Outpoint} :
    g.layer o = none ↔ unshadowed g o = true := by
  rw [Generation.layer, unshadowed]
  cases utxoGet g.table o with
  | some c => simp
  | none =>
      by_cases ho : o ∈ g.tombs
      · simp [ho]
      · simp [ho]

/-- The runs' part of the walk: the coins of the runs under no shadow. -/
theorem enumerates_recountLoop (g : Generation) (runs : List (Run Outpoint Coin)) :
    PMap.Enumerates
      (recountLoop g (recordCount (runs.map Run.recs)) (runs.map Run.recs))
      fun o => if unshadowed g o then stackMap (Run.layers runs) o else none := by
  have henum := enumerates_liveRecord (Run.pairwise_lt_merge true runs) (unshadowed g)
  have hmap : (fun o => if unshadowed g o then ((Run.merge true runs).find o).join else none) =
      fun o => if unshadowed g o then stackMap (Run.layers runs) o else none := by
    funext o
    rw [Run.find_merge, kept_true]
    rfl
  rw [recountLoop_eq, funext (visit_eq g), ← hmap]
  exact henum

theorem enumerates_utxoWalkLive (u : Memtable) :
    PMap.Enumerates (utxoWalkLive u) (utxoGet u) where
  nodup := by
    rw [utxoWalkLive, List.map_map]
    exact u.slots.nodupKeys
  mem_iff o c := by
    rw [utxoGet, ← Option.mem_def, AList.mem_lookup_iff, utxoWalkLive, List.mem_map]
    constructor
    · rintro ⟨⟨x, d⟩, hmem, heq⟩
      obtain ⟨rfl, rfl⟩ := Prod.mk.inj heq
      exact hmem
    · intro hmem
      exact ⟨⟨o, c⟩, hmem, rfl⟩

/-- With no generation frozen: a coin the runs show, or one of the memtable. -/
theorem Lsm.coins_eq_or {s : Lsm} (hfrozen : s.frozen = none) (o : Outpoint) :
    s.coins o =
      (if unshadowed s.live o then stackMap (runLayers s.files s.manifest) o else none).or
        (utxoGet s.live.table o) := by
  rw [coins, stack, hfrozen, stackMap_cons]
  simp only [frozenLayers, Option.map_none, Option.toList_none, List.nil_append]
  by_cases hsh : unshadowed s.live o = true
  · have hget : utxoGet s.live.table o = none := by
      simp only [unshadowed, Bool.and_eq_true, Option.isNone_iff_eq_none] at hsh
      exact hsh.1
    rw [layer_eq_none_iff.mpr hsh, if_pos hsh, hget, Option.or_none]
    rfl
  · have hlayer : s.live.layer o ≠ none := fun h => hsh (layer_eq_none_iff.mp h)
    rw [if_neg hsh, Option.none_or]
    revert hlayer
    rw [Generation.layer]
    cases utxoGet s.live.table o with
    | some c => intro _; rfl
    | none =>
        simp only
        split
        · intro _; rfl
        · intro h; exact absurd rfl h

/-- With no generation frozen the walk visits every coin once and nothing else,
and both it and the recount return how many there are. -/
theorem utxoLsmWalk_spec {s : Lsm} (hs : s.Sound) (hfrozen : s.frozen = none) :
    ∃ seen, utxoLsmWalk s = some (seen.length, seen) ∧
      (macLsmRecount s).map Prod.fst = some seen.length ∧
      PMap.Enumerates seen s.coins := by
  obtain ⟨runs, hruns⟩ := readRuns_isSome s.files s.manifest hs.readable
  have henum := enumerates_recountLoop s.live runs
  have hown := enumerates_utxoWalkLive s.live.table
  have hboth := henum.append hown fun o ho => by
    simp only [unshadowed] at ho
    cases hget : utxoGet s.live.table o with
    | none => rfl
    | some c => simp [hget] at ho
  have hcoins : s.coins = fun o =>
      (if unshadowed s.live o then stackMap (Run.layers runs) o else none).or
        (utxoGet s.live.table o) := by
    funext o
    rw [Lsm.coins_eq_or hfrozen, readRuns_layers hruns]
  rw [← hcoins] at hboth
  refine ⟨_, ?_, ?_, hboth⟩
  · simp [utxoLsmWalk, macLsmRecount, hruns, utxoWalkLive, Nat.add_comm]
  · simp [macLsmRecount, hruns, utxoWalkLive, Nat.add_comm]

end BitcoinMachineCode.Storage
