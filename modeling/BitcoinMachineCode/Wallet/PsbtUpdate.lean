import BitcoinMachineCode.Wallet.Psbt
import BitcoinMachineCode.Consensus.Sha256
import Mathlib.Data.List.Forall2

/-!
# Updating a PSBT from descriptors

`psbt_update_bytes_from_descs` of `psbt_update.c` adds to the map of every input and output
that a descriptor produces the fields its owner needs.  The descriptors are given by what they
expand to; a write past an output buffer that is too small is left out.
-/

namespace BitcoinMachineCode.Wallet

open Foundation Consensus

/-! ## Descriptors -/

inductive KeyKind where
  | hex | wif | xpub | xprv | musig
  deriving DecidableEq

structure DescrKey where
  kind : KeyKind
  pub : List UInt8
  path : List Nat
  ranged : Bool
  rangeHard : Bool
  /-- fingerprint and path -/
  origin : Option (List UInt8 × List Nat)
  musigParts : List Nat

inductive NodeType where
  | pk | pkh | wpkh | combo | multi | sortedmulti | multiA | sortedmultiA
  | sh | wsh | tr | addr | raw | rawtr | branch | miniscript

structure DescrLeaf where
  depth : Nat
  leafVer : Nat
  script : List UInt8
  leafHash : List UInt8
  ctrl : List UInt8

structure TrLeaves where
  leaves : List DescrLeaf
  internal : List UInt8
  root : Option (List UInt8)

/-- A descriptor with what `descriptor.c` computes from it at an index. -/
structure Descr where
  type : NodeType
  keys : List DescrKey
  expand : Int → List (List UInt8)
  trLeaves : Int → Option TrLeaves
  /-- 1 sh, 2 wsh, 3 sh(wsh); nothing where there is no such script -/
  innerScriptAt : Int → Nat × List UInt8
  keyPubAt : Nat → Int → Option (List UInt8)

structure PuDesc where
  d : Descr
  lo : Int
  hi : Int

inductive Side where
  | input | output
  deriving DecidableEq

variable (hash160 : List UInt8 → List UInt8)

def DescrKey.extended (k : DescrKey) : Bool := decide (k.kind = .xpub ∨ k.kind = .xprv)

def DescrKey.fingerprint (k : DescrKey) : List UInt8 :=
  match k.origin with
  | some (fp, _) => fp
  | none =>
      (hash160
        (if k.pub.length = 32 then 2 :: k.pub
        else if k.extended then k.pub.take 33 else k.pub)).take 4

def DescrKey.steps (k : DescrKey) (idx : Int) : List Nat :=
  (match k.origin with
    | some (_, path) => path
    | none => []) ++
  if k.extended then
    k.path ++
      if k.ranged then [(idx % 2 ^ 32).toNat ||| (if k.rangeHard then 0x80000000 else 0)] else []
  else []

def keyOrigin (k : DescrKey) (idx : Int) (cap : Nat) : Option (List UInt8) :=
  if cap < 4 + 4 * (k.steps idx).length then none
  else some (k.fingerprint hash160 ++ (k.steps idx).flatMap (leBytes 4))

def isMusigPart (d : Descr) (ki : Nat) : Bool :=
  d.keys.any fun q => decide (q.kind = .musig) && q.musigParts.contains ki

def scriptHasXonly (sc x : List UInt8) : Bool :=
  (List.range (sc.length - 32)).any fun i => decide ((sc.drop i).take 33 = 0x20 :: x)

def indices (lo hi : Int) : List Int :=
  (List.range (hi - lo + 1).toNat).map fun i => lo + i

def matchDesc (dv : List PuDesc) (spk : List UInt8) (spklen : Nat) : Option (Descr × Int) :=
  dv.findSome? fun e => (indices e.lo e.hi).findSome? fun idx =>
    if (e.d.expand idx).any fun sp => decide (sp.length = spklen ∧ sp = spk) then some (e.d, idx)
    else none

/-! ## Adding to a map -/

def arenaCap : Nat := 8 * 2 ^ 20

/-- A map in work, how much of the arena is used, and whether a pair was added. -/
structure Filling where
  kvs : List Kv
  used : Nat
  added : Bool

def ar (n used : Nat) : Option Nat := if arenaCap < used + n then none else some (used + n)

def addKv (key value : List UInt8) (s : Filling) : Filling :=
  if puMaxkv ≤ s.kvs.length ∨ hasKey s.kvs key then s
  else
    let kk := ar key.length s.used
    let vv := ar value.length (kk.getD s.used)
    let used := vv.getD (kk.getD s.used)
    if kk = none ∨ value ≠ [] ∧ vv = none then { s with used := used }
    else ⟨s.kvs ++ [⟨key, value, []⟩], used, true⟩

/-- The scripts of the leaves, each with its control block. -/
def addLeaves : List DescrLeaf → Filling → Filling
  | [], s => s
  | leaf :: rest, s =>
      if 4200 < leaf.script.length + 1 then addLeaves rest s
      else
        match ar (1 + leaf.ctrl.length) s.used with
        | none => s
        | some used =>
            addLeaves rest (addKv (0x15 :: leaf.ctrl) (leaf.script ++ [UInt8.ofNat leaf.leafVer])
              { s with used := used })

/-- The leaves in the order given, as far as they fit. -/
def tapTree : List DescrLeaf → List UInt8 → List UInt8
  | [], tree => tree
  | leaf :: rest, tree =>
      if 4200 * 4 < tree.length + 2 + 9 + leaf.script.length then tree
      else
        tapTree rest (tree ++ [UInt8.ofNat leaf.depth, UInt8.ofNat leaf.leafVer] ++
          wrVarint leaf.script.length ++ leaf.script)

def xonly (pub : List UInt8) : List UInt8 := if pub.length = 32 then pub else pub.drop 1

/-- The derivation of one key under `tr`: with the leaves it occurs in, unless it occurs
nowhere. -/
def addTapDeriv (side : Side) (d : Descr) (idx : Int) (t : TrLeaves) (s : Filling)
    (k : DescrKey × Nat) : Filling :=
  if k.1.kind = .musig ∨ isMusigPart d k.2 then s
  else
    match d.keyPubAt k.2 idx with
    | none => s
    | some pub =>
        if pub.length ≠ 32 ∧ pub.length ≠ 33 then s
        else
          let hashes := (t.leaves.filter fun leaf => scriptHasXonly leaf.script (xonly pub)).map
            DescrLeaf.leafHash
          if hashes = [] ∧ xonly pub ≠ t.internal then s
          else
            let front := wrVarint hashes.length ++ hashes.flatten
            match keyOrigin hash160 k.1 idx (4200 - front.length) with
            | none => s
            | some origin =>
                addKv ((if side = .output then 0x07 else 0x16) :: xonly pub) (front ++ origin) s

def addDeriv (side : Side) (d : Descr) (idx : Int) (s : Filling) (k : DescrKey × Nat) : Filling :=
  if k.1.kind = .musig ∨ isMusigPart d k.2 then s
  else
    match d.keyPubAt k.2 idx with
    | none => s
    | some pub =>
        if pub.length ≠ 33 ∧ pub.length ≠ 65 then s
        else
          match keyOrigin hash160 k.1 idx 4200 with
          | none => s
          | some origin => addKv ((if side = .output then 0x02 else 0x06) :: pub) origin s

/-- The redeem and witness scripts. -/
def addScripts (side : Side) (d : Descr) (idx : Int) (s : Filling) : Filling :=
  let (which, inner) := d.innerScriptAt idx
  if inner = [] then s
  else
    let s := if which = 2 ∨ which = 3 then
      addKv [if side = .output then 0x01 else 0x05] inner s else s
    let s := if which = 1 then addKv [if side = .output then 0x00 else 0x04] inner s else s
    if which = 3 then
      addKv [if side = .output then 0x00 else 0x04] ([0x00, 0x20] ++ (sha256 inner).1) s
    else s

def fillTr (side : Side) (d : Descr) (idx : Int) (t : TrLeaves) (s : Filling) : Filling :=
  let s := addKv [if side = .output then 0x05 else 0x17] t.internal s
  match side with
  | .input =>
      let s := match t.root with
        | some root => addKv [0x18] root s
        | none => s
      d.keys.zipIdx.foldl (addTapDeriv hash160 side d idx t) (addLeaves t.leaves s)
  | .output =>
      if t.leaves = [] then d.keys.zipIdx.foldl (addTapDeriv hash160 side d idx t) s
      else
        match ar (4200 * 4) s.used with
        -- the return leaves `changed` as it was
        | none => { s with added := false }
        | some used =>
            d.keys.zipIdx.foldl (addTapDeriv hash160 side d idx t)
              (addKv [0x06] (tapTree t.leaves.reverse []) { s with used := used })

/-- The fields of a descriptor at an index; `added` is what it makes of `changed`. -/
def fill (side : Side) (d : Descr) (idx : Int) (kvs : List Kv) (used : Nat) : Filling :=
  match d.type with
  | .rawtr => ⟨kvs, used, false⟩
  | .tr =>
      match d.trLeaves idx with
      | none => ⟨kvs, used, false⟩
      | some t => fillTr hash160 side d idx t ⟨kvs, used, false⟩
  | .addr => ⟨kvs, used, false⟩
  | .raw => ⟨kvs, used, false⟩
  | _ =>
      d.keys.zipIdx.foldl (addDeriv hash160 side d idx) (addScripts side d idx ⟨kvs, used, false⟩)

/-! ## The inputs and the outputs -/

/-- A CompactSize at a place in memory, with its width. -/
def rdVarint : List UInt8 → Nat × Nat
  | [] => (0, 1)
  | b :: rest =>
      if b < 0xfd then (b.toNat, 1)
      else (leVal (rest.take (varintWidth b).1), 1 + (varintWidth b).1)

structure InputSpk where
  spk : List UInt8
  len : Nat
  value : Option (List UInt8)

def witnessSpk (kv : Kv) : Option InputSpk :=
  if kv.value.length < 9 then none
  else
    let (sl, cc) := rdVarint ((kv.value ++ kv.follows).drop 8)
    if (8 + cc + sl) % 2 ^ 64 ≤ kv.value.length then
      some ⟨((kv.value ++ kv.follows).drop (8 + cc)).take sl, sl, none⟩
    else none

def parentSpk (kv : Kv) (op : List UInt8) : Option InputSpk :=
  match walkTx kv.value with
  | none => none
  | some (_, outs) =>
      (outs[leVal ((op.drop 32).take 4)]?).map fun out => ⟨out.spk, out.spk.length, some out.value⟩

/-- The script an input spends, from the witness output or else from the parent. -/
def inputSpk (kvs : List Kv) (op : List UInt8) : Option InputSpk :=
  match (findKv kvs 0x01).bind witnessSpk with
  | some i => some i
  | none => (findKv kvs 0x00).bind fun kv => parentSpk kv op

def isWit (d : Descr) (idx : Int) (i : InputSpk) : Bool :=
  decide (i.len = 22 ∧ i.spk.take 2 = [0x00, 0x14]) ||
  decide (i.len = 34 ∧ (i.spk.take 2 = [0x00, 0x20] ∨ i.spk.take 2 = [0x51, 0x20])) ||
  decide (i.len = 23 ∧ i.spk.take 1 = [0xa9]) &&
    (decide ((d.innerScriptAt idx).1 = 3) ||
      decide ((d.innerScriptAt idx).1 = 1) &&
        (decide ((d.innerScriptAt idx).2.length = 22 ∧
            (d.innerScriptAt idx).2.take 2 = [0x00, 0x14]) ||
          decide ((d.innerScriptAt idx).2.length = 34 ∧
            (d.innerScriptAt idx).2.take 2 = [0x00, 0x20])))

def witnessUtxo (value : List UInt8) (i : InputSpk) : List UInt8 :=
  value ++ wrVarint i.len ++ i.spk

/-- The map of one input. -/
def updateInput (dv : List PuDesc) (op : List UInt8) (kvs : List Kv) (used : Nat) : Filling :=
  match inputSpk kvs op with
  | none => ⟨kvs, used, false⟩
  | some i =>
      match matchDesc dv i.spk i.len with
      | none => ⟨kvs, used, false⟩
      | some (d, idx) =>
          match i.value with
          | none => fill hash160 .input d idx kvs used
          | some value =>
              if isWit d idx i ∧ (findKv kvs 0x01).isNone ∧ i.len < 200 then
                let s := addKv [0x01] (witnessUtxo value i) ⟨kvs, used, false⟩
                -- the script is looked up again
                match inputSpk s.kvs op with
                | none => s
                | some i =>
                    match matchDesc dv i.spk i.len with
                    | none => s
                    | some (d, idx) =>
                        let t := fill hash160 .input d idx s.kvs s.used
                        { t with added := s.added || t.added }
              else fill hash160 .input d idx kvs used

def updateOutput (dv : List PuDesc) (out : TxOut) (kvs : List Kv) (used : Nat) : Filling :=
  match matchDesc dv out.spk out.spk.length with
  | none => ⟨kvs, used, false⟩
  | some (d, idx) => fill hash160 .output d idx kvs used

/-- One map after another over one arena. -/
def updateAll {α : Type} (update : α → List Kv → Nat → Filling) :
    List (α × List Kv) → Nat → List (List Kv) × Nat × Bool
  | [], used => ([], used, false)
  | (a, kvs) :: rest, used =>
      let s := update a kvs used
      let more := updateAll update rest s.used
      (s.kvs :: more.1, more.2.1, s.added || more.2.2)

/-- `count` tables one after another. -/
def parseMaps (beyond : List UInt8) : Nat → List UInt8 → Option (List (List Kv) × List UInt8)
  | 0, bs => some ([], bs)
  | n + 1, bs =>
      match parseMap beyond bs with
      | none => none
      | some (kvs, rest) => (parseMaps beyond n rest).map fun p => (kvs :: p.1, p.2)

/-- The bytes set aside for a map. -/
def needed (kvs : List Kv) : Nat := (kvs.map fun kv => 20 + kv.key.length + kv.value.length).sum

inductive Updated where
  | malformed
  | unchanged
  | psbt (bytes : List UInt8)
  deriving DecidableEq

def psbtUpdateBytesFromDescs (beyond : List UInt8) (dv : List PuDesc) (outcap : Nat)
    (buf : List UInt8) : Updated :=
  match Reader.take 5 buf with
  | none => .malformed
  | some (mark, rest) =>
      if mark ≠ magic then .malformed
      else
        match parseMap beyond rest with
        | none => .malformed
        | some (gkv, rest) =>
            match (findKv gkv 0x00).bind fun utx => walkTx utx.value with
            | none => .malformed
            | some (ins, outs) =>
                match parseMaps beyond ins.length rest with
                | none => .malformed
                | some (ikv, rest) =>
                    match parseMaps beyond outs.length rest with
                    | none => .malformed
                    | some (okv, _) =>
                        let (ikv, used, changed) :=
                          updateAll (updateInput hash160 dv) (ins.zip ikv) 0
                        let (okv, _, changed') :=
                          updateAll (updateOutput hash160 dv) (outs.zip okv) used
                        if !(changed || changed') then .unchanged
                        else if outcap < 5 + needed gkv + (ikv.map needed).sum +
                            (okv.map needed).sum + 8 then .malformed
                        else
                          .psbt (magic ++ serMap gkv ++ ikv.flatMap serMap ++ okv.flatMap serMap)

/-! ## A map only grows -/

/-- Pairs with new keys were put behind those of a map, while the table had room. -/
inductive Grown (kvs : List Kv) : List Kv → Prop
  | refl : Grown kvs kvs
  | add {kvs' : List Kv} {kv : Kv} : Grown kvs kvs' → kvs'.length < puMaxkv → Fits kv.pair →
      hasKey kvs' kv.key = false → Grown kvs (kvs' ++ [kv])

theorem Grown.trans {a b c : List Kv} (hab : Grown a b) (hbc : Grown b c) : Grown a c := by
  induction hbc with
  | refl => exact hab
  | add _ hroom hfits hnew ih => exact ih.add hroom hfits hnew

theorem ar_eq_some {n used used' : Nat} (h : ar n used = some used') : n ≤ arenaCap := by
  unfold ar at h
  split at h
  · cases h
  · omega

theorem addKv_grown {key : List UInt8} (hkey : key ≠ []) (value : List UInt8) (s : Filling) :
    Grown s.kvs (addKv key value s).kvs := by
  unfold addKv
  split
  · exact .refl
  next hroom =>
  obtain ⟨hlen, hnew⟩ := not_or.mp hroom
  dsimp only
  split
  · exact .refl
  next hgot =>
  obtain ⟨hkk, hvv⟩ := not_or.mp hgot
  obtain ⟨used, hused⟩ := Option.ne_none_iff_exists'.mp hkk
  have hcap : arenaCap < 2 ^ 64 := by decide
  have hkeylen : key.length < 2 ^ 64 := (ar_eq_some hused).trans_lt hcap
  have hvaluelen : value.length < 2 ^ 64 := by
    by_cases hnil : value = []
    · rw [hnil]
      decide
    · obtain ⟨used', hused'⟩ := Option.ne_none_iff_exists'.mp fun h => hvv ⟨hnil, h⟩
      exact (ar_eq_some hused').trans_lt hcap
  exact Grown.refl.add (Nat.not_le.mp hlen) ⟨hkey, hkeylen, hvaluelen⟩ (Bool.not_eq_true _ ▸ hnew)

theorem addLeaves_grown (leaves : List DescrLeaf) (s : Filling) :
    Grown s.kvs (addLeaves leaves s).kvs := by
  induction leaves generalizing s with
  | nil => exact .refl
  | cons leaf rest ih =>
      unfold addLeaves
      split
      · exact ih s
      split
      · exact .refl
      · next used _ =>
          exact (addKv_grown (List.cons_ne_nil _ _) _ { s with used := used }).trans (ih _)

theorem foldl_grown {α : Type} {f : Filling → α → Filling}
    (hf : ∀ s a, Grown s.kvs (f s a).kvs) (l : List α) (s : Filling) :
    Grown s.kvs (l.foldl f s).kvs := by
  induction l generalizing s with
  | nil => exact .refl
  | cons a l ih => exact (hf s a).trans (ih (f s a))

variable {hash160} {side : Side} {d : Descr} {idx : Int}

theorem addTapDeriv_grown (t : TrLeaves) (s : Filling) (k : DescrKey × Nat) :
    Grown s.kvs (addTapDeriv hash160 side d idx t s k).kvs := by
  unfold addTapDeriv
  split
  · exact .refl
  split
  · exact .refl
  split
  · exact .refl
  dsimp only
  split
  · exact .refl
  split
  · exact .refl
  · exact addKv_grown (List.cons_ne_nil _ _) _ s

theorem addDeriv_grown (s : Filling) (k : DescrKey × Nat) :
    Grown s.kvs (addDeriv hash160 side d idx s k).kvs := by
  unfold addDeriv
  split
  · exact .refl
  split
  · exact .refl
  split
  · exact .refl
  split
  · exact .refl
  · exact addKv_grown (List.cons_ne_nil _ _) _ s

theorem ite_addKv_grown (p : Prop) [Decidable p] (t : UInt8) (value : List UInt8) (s : Filling) :
    Grown s.kvs (if p then addKv [t] value s else s).kvs := by
  split
  · exact addKv_grown (List.cons_ne_nil _ _) value s
  · exact .refl

theorem addScripts_grown (s : Filling) : Grown s.kvs (addScripts side d idx s).kvs := by
  unfold addScripts
  dsimp only
  split
  · exact .refl
  · exact ((ite_addKv_grown _ _ _ _).trans (ite_addKv_grown _ _ _ _)).trans
      (ite_addKv_grown _ _ _ _)

theorem fillTr_grown (t : TrLeaves) (s : Filling) :
    Grown s.kvs (fillTr hash160 side d idx t s).kvs := by
  unfold fillTr
  dsimp only
  have hfirst := addKv_grown (List.cons_ne_nil (if side = .output then 0x05 else 0x17) [])
    t.internal s
  refine hfirst.trans ?_
  generalize addKv [if side = .output then 0x05 else 0x17] t.internal s = s'
  cases side with
  | input =>
      refine Grown.trans ?_ (foldl_grown (addTapDeriv_grown t) _ _)
      refine Grown.trans ?_ (addLeaves_grown _ _)
      cases t.root with
      | none => exact .refl
      | some root => exact addKv_grown (List.cons_ne_nil _ _) root _
  | output =>
      dsimp only
      split
      · exact foldl_grown (addTapDeriv_grown t) _ _
      split
      · exact .refl
      · next used _ =>
          refine Grown.trans ?_ (foldl_grown (addTapDeriv_grown t) _ _)
          exact addKv_grown (List.cons_ne_nil _ _) _ { s' with used := used }

theorem fill_grown (kvs : List Kv) (used : Nat) :
    Grown kvs (fill hash160 side d idx kvs used).kvs := by
  unfold fill
  split
  · exact .refl
  · split
    · exact .refl
    · exact fillTr_grown _ ⟨kvs, used, false⟩
  · exact .refl
  · exact .refl
  · exact (addScripts_grown ⟨kvs, used, false⟩).trans (foldl_grown addDeriv_grown _ _)

variable {dv : List PuDesc}

theorem updateInput_grown (op : List UInt8) (kvs : List Kv) (used : Nat) :
    Grown kvs (updateInput hash160 dv op kvs used).kvs := by
  unfold updateInput
  split
  · exact .refl
  split
  · exact .refl
  split
  · exact fill_grown kvs used
  split
  · have hadd := addKv_grown (List.cons_ne_nil 0x01 []) (witnessUtxo ‹_› ‹_›) ⟨kvs, used, false⟩
    dsimp only
    split
    · exact hadd
    split
    · exact hadd
    · exact hadd.trans (fill_grown _ _)
  · exact fill_grown kvs used

theorem updateOutput_grown (out : TxOut) (kvs : List Kv) (used : Nat) :
    Grown kvs (updateOutput hash160 dv out kvs used).kvs := by
  unfold updateOutput
  split
  · exact .refl
  · exact fill_grown kvs used

theorem updateAll_grown {α : Type} {update : α → List Kv → Nat → Filling}
    (h : ∀ a kvs used, Grown kvs (update a kvs used).kvs) (l : List (α × List Kv)) (used : Nat) :
    List.Forall₂ Grown (l.map Prod.snd) (updateAll update l used).1 := by
  induction l generalizing used with
  | nil => exact .nil
  | cons p l ih =>
      obtain ⟨a, kvs⟩ := p
      exact .cons (h a kvs used) (ih _)

theorem Grown.fits {kvs kvs' : List Kv} (h : Grown kvs kvs') (hfits : ∀ kv ∈ kvs, Fits kv.pair) :
    ∀ kv ∈ kvs', Fits kv.pair := by
  induction h with
  | refl => exact hfits
  | add _ _ hnew _ ih =>
      intro kv hkv
      rcases List.mem_append.mp hkv with hkv | hkv
      · exact ih kv hkv
      · obtain rfl := List.mem_singleton.mp hkv
        exact hnew

theorem Grown.length_le {kvs kvs' : List Kv} (h : Grown kvs kvs') (hlen : kvs.length ≤ puMaxkv) :
    kvs'.length ≤ puMaxkv := by
  induction h with
  | refl => exact hlen
  | add _ hroom _ _ _ =>
      rw [List.length_append, List.length_singleton]
      exact hroom

/-! ## What the updated PSBT holds -/

/-- Every pair unchanged and in its place, then only pairs with keys that were not there. -/
def Extended (m m' : List (List UInt8 × List UInt8)) : Prop :=
  ∃ added, m' = m ++ added ∧ ∀ p ∈ added, p.1 ∉ m.map Prod.fst

theorem Grown.extended {kvs kvs' : List Kv} (h : Grown kvs kvs') :
    Extended (kvs.map Kv.pair) (kvs'.map Kv.pair) := by
  induction h with
  | refl => exact ⟨[], (List.append_nil _).symm, nofun⟩
  | @add kvs' kv _ _ _ hnew ih =>
      obtain ⟨added, heq, hadded⟩ := ih
      refine ⟨added ++ [kv.pair], ?_, fun p hp => ?_⟩
      · rw [List.map_append, heq, List.append_assoc]
        rfl
      rcases List.mem_append.mp hp with hp | hp
      · exact hadded p hp
      · obtain rfl := List.mem_singleton.mp hp
        intro hold
        have hmem : kv.key ∈ (kvs'.map Kv.pair).map Prod.fst := by
          rw [heq, List.map_append]
          exact List.mem_append_left _ hold
        rw [List.map_map] at hmem
        obtain ⟨kv', hkv', hkey⟩ := List.mem_map.mp hmem
        have hhas : hasKey kvs' kv.key = true :=
          List.any_eq_true.mpr ⟨kv', hkv', decide_eq_true hkey⟩
        rw [hnew] at hhas
        cases hhas

def Keeps (maps : List (List (List UInt8 × List UInt8))) (out : List UInt8) : Prop :=
  ∃ maps', readPsbt out = some maps' ∧ List.Forall₂ Extended maps maps'

/-- The table of a map. -/
def TableOf (m : List (List UInt8 × List UInt8)) (kvs : List Kv) : Prop :=
  kvs.map Kv.pair = m.take puMaxkv ∧ ∀ kv ∈ kvs, Fits kv.pair

theorem parseMap_table {beyond bs rest : List UInt8} {m : List (List UInt8 × List UInt8)}
    (h : readMap bs = some (m, rest)) :
    ∃ kvs, parseMap beyond bs = some (kvs, rest) ∧ TableOf m kvs := by
  have heq := parseMap_eq beyond bs
  rw [h] at heq
  obtain ⟨⟨kvs, rest'⟩, hparse, hpair⟩ := Option.map_eq_some_iff.mp heq
  obtain ⟨hkvs, rfl⟩ : kvs.map Kv.pair = m.take puMaxkv ∧ rest' = rest := by simpa using hpair
  refine ⟨kvs, hparse, hkvs, fun kv hkv => ?_⟩
  have hmem : kv.pair ∈ m.take puMaxkv := hkvs ▸ List.mem_map_of_mem hkv
  exact readMapFrom_fits h _ (List.mem_of_mem_take hmem)

theorem parseMaps_tables {beyond : List UInt8} {n : Nat} {bs rest : List UInt8}
    {maps : List (List (List UInt8 × List UInt8))}
    (h : readMap.times n bs = some (maps, rest)) :
    ∃ tables, parseMaps beyond n bs = some (tables, rest) ∧ List.Forall₂ TableOf maps tables := by
  induction n generalizing bs maps with
  | zero =>
      obtain ⟨rfl, rfl⟩ := Reader.times_zero_eq_some h
      exact ⟨[], rfl, .nil⟩
  | succ n ih =>
      obtain ⟨m, more, mid, hfirst, hmore, rfl⟩ := Reader.times_succ_eq_some h
      obtain ⟨kvs, hparse, htable⟩ := @parseMap_table beyond _ _ _ hfirst
      obtain ⟨tables, hparses, htables⟩ := ih hmore
      refine ⟨kvs :: tables, ?_, .cons htable htables⟩
      rw [parseMaps, hparse]
      dsimp only
      rw [hparses]
      rfl

variable {beyond : List UInt8} {outcap : Nat} {buf out : List UInt8}
  {maps : List (List (List UInt8 × List UInt8))}

theorem psbtUpdate_eq_psbt
    (h : psbtUpdateBytesFromDescs hash160 beyond dv outcap buf = .psbt out) :
    ∃ rest gkv mid ins outs ikv mid₁ okv mid₂ ikv' okv',
      Reader.take 5 buf = some (magic, rest) ∧ parseMap beyond rest = some (gkv, mid) ∧
      ((findKv gkv 0x00).bind fun utx => walkTx utx.value) = some (ins, outs) ∧
      parseMaps beyond ins.length mid = some (ikv, mid₁) ∧
      parseMaps beyond outs.length mid₁ = some (okv, mid₂) ∧
      List.Forall₂ Grown ((ins.zip ikv).map Prod.snd) ikv' ∧
      List.Forall₂ Grown ((outs.zip okv).map Prod.snd) okv' ∧
      out = magic ++ serMap gkv ++ ikv'.flatMap serMap ++ okv'.flatMap serMap := by
  unfold psbtUpdateBytesFromDescs at h
  split at h
  · cases h
  next mark rest hmark =>
  split at h
  · cases h
  next hmagic =>
  obtain rfl := not_ne_iff.mp hmagic
  split at h
  · cases h
  next gkv mid hglobal =>
  split at h
  · cases h
  next ins outs htx =>
  split at h
  · cases h
  next ikv mid₁ hins =>
  split at h
  · cases h
  next okv mid₂ houts =>
  dsimp only at h
  split at h
  · cases h
  split at h
  · cases h
  obtain rfl := Updated.psbt.inj h
  exact ⟨rest, gkv, mid, ins, outs, ikv, mid₁, okv, mid₂, _, _, hmark, hglobal, htx, hins, houts,
    updateAll_grown updateInput_grown _ _, updateAll_grown updateOutput_grown _ _, rfl⟩

theorem readPsbt_eq_some (h : readPsbt buf = some maps) :
    ∃ rest global mid n more, Reader.take 5 buf = some (magic, rest) ∧
      readMap rest = some (global, mid) ∧ mapCount global = some n ∧
      readMap.times n mid = some (more, []) ∧ maps = global :: more := by
  unfold readPsbt at h
  split at h
  · cases h
  next mark rest hmark =>
  split at h
  · cases h
  next hmagic =>
  obtain rfl := not_ne_iff.mp hmagic
  split at h
  · cases h
  next global mid hglobal =>
  split at h
  · cases h
  next n hn =>
  split at h
  · next more hmore =>
      obtain rfl := Option.some.inj h
      exact ⟨rest, global, mid, n, more, hmark, hglobal, hn, hmore, rfl⟩
  · cases h

/-- A table that has the unsigned transaction has that of the map. -/
theorem mapCount_of_table {m : List (List UInt8 × List UInt8)} {kvs : List Kv}
    {ins : List (List UInt8)} {outs : List TxOut} (hm : kvs.map Kv.pair <+: m)
    (h : ((findKv kvs 0x00).bind fun utx => walkTx utx.value) = some (ins, outs)) :
    mapCount m = some (ins.length + outs.length) := by
  obtain ⟨utx, hfind, hwalk⟩ := Option.bind_eq_some_iff.mp h
  obtain ⟨tail, rfl⟩ := hm
  have hpairs : (kvs.map Kv.pair).find? (fun p => decide (p.1.head? = some 0)) = some utx.pair := by
    rw [List.find?_map]
    exact congrArg (Option.map Kv.pair) hfind
  unfold mapCount
  rw [List.find?_append, hpairs]
  change (walkTx utx.value).map _ = _
  rw [hwalk]
  rfl

/-- What a map has become: its table, and the table with what was added. -/
def Carried (m : List (List UInt8 × List UInt8)) (kvs' : List Kv) : Prop :=
  ∃ kvs, TableOf m kvs ∧ Grown kvs kvs'

theorem carried_of_forall₂ {ms : List (List (List UInt8 × List UInt8))}
    {tables tables' : List (List Kv)} (h : List.Forall₂ TableOf ms tables)
    (hgrown : List.Forall₂ Grown tables tables') : List.Forall₂ Carried ms tables' := by
  induction h generalizing tables' with
  | nil =>
      cases hgrown
      exact .nil
  | cons htable _ ih =>
      cases hgrown with
      | cons hfirst hrest => exact .cons ⟨_, htable, hfirst⟩ (ih hrest)

theorem Carried.fits {m : List (List UInt8 × List UInt8)} {kvs' : List Kv} (h : Carried m kvs') :
    ∀ kv ∈ kvs', Fits kv.pair := by
  obtain ⟨kvs, htable, hgrown⟩ := h
  exact hgrown.fits htable.2

theorem fits_of_carried {ms : List (List (List UInt8 × List UInt8))} {tables : List (List Kv)}
    (h : List.Forall₂ Carried ms tables) : ∀ t ∈ tables, ∀ kv ∈ t, Fits kv.pair := by
  induction h with
  | nil => exact nofun
  | cons hfirst _ ih => exact List.forall_mem_cons.mpr ⟨hfirst.fits, ih⟩

theorem readPsbt_serMaps {gkv : List Kv} {tables : List (List Kv)}
    (hg : ∀ kv ∈ gkv, Fits kv.pair) (ht : ∀ t ∈ tables, ∀ kv ∈ t, Fits kv.pair)
    (hcount : mapCount (gkv.map Kv.pair) = some tables.length) :
    readPsbt (magic ++ serMap gkv ++ tables.flatMap serMap) =
      some ((gkv :: tables).map fun t => t.map Kv.pair) := by
  have hmark : (Reader.take 5 : Reader UInt8 (List UInt8)).Takes magic magic :=
    Reader.takes_take rfl
  have htables := takes_serMaps ht []
  rw [List.append_nil] at htables
  unfold readPsbt
  rw [List.append_assoc, hmark]
  dsimp only
  rw [if_neg (not_ne_iff.mpr rfl), takes_serMap hg]
  dsimp only
  rw [hcount]
  dsimp only
  rw [htables]
  rfl

/-- The updated PSBT reads as the maps of the first with what was added to their tables. -/
theorem psbtUpdate_carried (hread : readPsbt buf = some maps)
    (h : psbtUpdateBytesFromDescs hash160 beyond dv outcap buf = .psbt out) :
    ∃ tables, readPsbt out = some (tables.map fun t => t.map Kv.pair) ∧
      List.Forall₂ Carried maps tables := by
  obtain ⟨rest, gkv, mid, ins, outs, ikv, mid₁, okv, mid₂, ikv', okv', hmark, hgkv, htx, hikv, hokv,
    hins, houts, rfl⟩ := psbtUpdate_eq_psbt h
  obtain ⟨rest', global, mid', n, more, hmark', hglobal, hn, hmore, rfl⟩ := readPsbt_eq_some hread
  obtain ⟨-, rfl⟩ : magic = magic ∧ rest = rest' := by simpa [hmark] using hmark'
  obtain ⟨gkv', hgkv', htable⟩ := @parseMap_table beyond _ _ _ hglobal
  obtain ⟨rfl, rfl⟩ : gkv = gkv' ∧ mid = mid' := by simpa [hgkv] using hgkv'
  have hcount := mapCount_of_table (htable.1 ▸ List.take_prefix _ _) htx
  obtain rfl := Option.some.inj (hn.symm.trans hcount)
  obtain ⟨ms₁, ms₂, mid₁', h₁, h₂, rfl⟩ := Reader.times_add_eq_some hmore
  obtain ⟨ikv₀, hikv₀, htable₁⟩ := @parseMaps_tables beyond _ _ _ _ h₁
  obtain ⟨rfl, rfl⟩ : ikv = ikv₀ ∧ mid₁ = mid₁' := by simpa [hikv] using hikv₀
  obtain ⟨okv₀, hokv₀, htable₂⟩ := @parseMaps_tables beyond _ _ _ _ h₂
  obtain ⟨rfl, rfl⟩ : okv = okv₀ ∧ mid₂ = [] := by simpa [hokv] using hokv₀
  have hlen₁ : ikv.length = ins.length := by
    rw [← htable₁.length_eq, Reader.length_of_times h₁]
  have hlen₂ : okv.length = outs.length := by
    rw [← htable₂.length_eq, Reader.length_of_times h₂]
  rw [List.map_snd_zip hlen₁.le] at hins
  rw [List.map_snd_zip hlen₂.le] at houts
  have hcarried₁ := carried_of_forall₂ htable₁ hins
  have hcarried₂ := carried_of_forall₂ htable₂ houts
  have hcarried : List.Forall₂ Carried (ms₁ ++ ms₂) (ikv' ++ okv') :=
    List.rel_append hcarried₁ hcarried₂
  refine ⟨gkv :: (ikv' ++ okv'), ?_, .cons ⟨gkv, htable, .refl⟩ hcarried⟩
  have hlen : (ikv' ++ okv').length = ins.length + outs.length := by
    rw [List.length_append, ← hins.length_eq, ← houts.length_eq, hlen₁, hlen₂]
  have hcount' := mapCount_of_table (List.prefix_refl (gkv.map Kv.pair)) htx
  rw [← hlen] at hcount'
  rw [List.append_assoc, ← List.flatMap_append]
  exact readPsbt_serMaps htable.2 (fits_of_carried hcarried) hcount'

theorem extended_iff {m : List (List UInt8 × List UInt8)} {kvs' : List Kv} (h : Carried m kvs') :
    Extended m (kvs'.map Kv.pair) ↔ m.length ≤ puMaxkv := by
  obtain ⟨kvs, ⟨htable, -⟩, hgrown⟩ := h
  have hlen : kvs.length ≤ puMaxkv := by
    rw [← List.length_map (f := Kv.pair), htable]
    exact List.length_take_le _ _
  constructor
  · rintro ⟨added, heq, -⟩
    have hlen' := hgrown.length_le hlen
    rw [← List.length_map (f := Kv.pair), heq, List.length_append] at hlen'
    omega
  · intro hm
    rw [List.take_of_length_le hm] at htable
    exact htable ▸ hgrown.extended

theorem keeps_iff_of_carried {tables : List (List Kv)}
    (htables : readPsbt out = some (tables.map fun t => t.map Kv.pair))
    (hcarried : List.Forall₂ Carried maps tables) :
    Keeps maps out ↔ ∀ m ∈ maps, m.length ≤ puMaxkv := by
  have hiff : List.Forall₂ Extended maps (tables.map fun t => t.map Kv.pair) ↔
      ∀ m ∈ maps, m.length ≤ puMaxkv := by
    clear htables
    induction hcarried with
    | nil => simp
    | cons hfirst _ ih =>
        rw [List.map_cons, List.forall₂_cons, List.forall_mem_cons, ih, extended_iff hfirst]
  unfold Keeps
  rw [htables, ← hiff]
  constructor
  · rintro ⟨maps', hmaps', hext⟩
    exact Option.some.inj hmaps' ▸ hext
  · exact fun hext => ⟨_, rfl, hext⟩

/-- An update keeps what was there exactly when every map fits its table. -/
theorem psbtUpdate_keeps_iff (hread : readPsbt buf = some maps)
    (h : psbtUpdateBytesFromDescs hash160 beyond dv outcap buf = .psbt out) :
    Keeps maps out ↔ ∀ m ∈ maps, m.length ≤ puMaxkv := by
  obtain ⟨tables, htables, hcarried⟩ := psbtUpdate_carried hread h
  exact keeps_iff_of_carried htables hcarried

/-! ### Samples -/

/-- The key of the generator point. -/
def samplePub : List UInt8 :=
  2 :: Sha256.beBytes 32 0x79be667ef9dcbbac55a06295ce870b07029bfcdb2dce28d959f2815b16f81798

/-- `pk([01020304]02..)` of that key. -/
def sampleDescr : Descr where
  type := .pk
  keys := [⟨.hex, samplePub, [], false, false, some ([1, 2, 3, 4], []), []⟩]
  expand _ := [0x21 :: samplePub ++ [0xac]]
  trLeaves _ := none
  innerScriptAt _ := (0, [])
  keyPubAt _ _ := some samplePub

/-- One input, and one output to the descriptor. -/
def sampleTx : List UInt8 :=
  [2, 0, 0, 0, 1] ++ List.replicate 36 0 ++ [0, 0xff, 0xff, 0xff, 0xff] ++
    1 :: (List.replicate 8 0 ++ 0x23 :: 0x21 :: samplePub ++ [0xac]) ++ [0, 0, 0, 0]

/-- The unsigned transaction and `n` proprietary pairs. -/
def sampleGlobal (n : Nat) : List Kv :=
  ⟨[0], sampleTx, []⟩ :: (List.range n).map fun i => ⟨[0xfc, UInt8.ofNat i], [], []⟩

def samplePsbt (n : Nat) : List UInt8 :=
  magic ++ serMap (sampleGlobal n) ++ ([[], []] : List (List Kv)).flatMap serMap

theorem readPsbt_sample (n : Nat) :
    readPsbt (samplePsbt n) =
      some ([sampleGlobal n, [], []].map fun t : List Kv => t.map Kv.pair) := by
  refine readPsbt_serMaps ?_ ?_ ?_
  · refine List.forall_mem_cons.mpr ⟨⟨by decide, by decide, by decide⟩, fun kv hkv => ?_⟩
    obtain ⟨i, -, rfl⟩ := List.mem_map.mp hkv
    exact ⟨List.cons_ne_nil _ _, by simp [Kv.pair], by simp [Kv.pair]⟩
  · simp
  · have hwalk : (walkTx sampleTx).map (fun t => t.1.length + t.2.length) = some 2 := by
      decide
    exact hwalk

def sampleUpdate (n : Nat) : Updated :=
  psbtUpdateBytesFromDescs (fun _ => []) [] [⟨sampleDescr, 0, 0⟩] 100000 (samplePsbt n)

theorem exists_of_updated {u : Updated} (h : u ≠ .malformed ∧ u ≠ .unchanged) :
    ∃ bytes, u = .psbt bytes := by
  cases u with
  | malformed => exact absurd rfl h.1
  | unchanged => exact absurd rfl h.2
  | psbt bytes => exact ⟨bytes, rfl⟩

theorem psbtUpdate_keeps_sample :
    ∃ maps out, readPsbt (samplePsbt 0) = some maps ∧ sampleUpdate 0 = .psbt out ∧
      Keeps maps out := by
  obtain ⟨out, hout⟩ := exists_of_updated (show sampleUpdate 0 ≠ .malformed ∧
    sampleUpdate 0 ≠ .unchanged by decide)
  refine ⟨_, out, readPsbt_sample 0, hout, ?_⟩
  exact (psbtUpdate_keeps_iff (readPsbt_sample 0) hout).mpr (by decide)

/-- With 161 pairs the last one of the global map is lost. -/
theorem not_keeps_full :
    ∃ maps out, readPsbt (samplePsbt 160) = some maps ∧ sampleUpdate 160 = .psbt out ∧
      ¬ Keeps maps out := by
  obtain ⟨out, hout⟩ := exists_of_updated (show sampleUpdate 160 ≠ .malformed ∧
    sampleUpdate 160 ≠ .unchanged by decide +kernel)
  refine ⟨_, out, readPsbt_sample 160, hout, fun hkeeps => ?_⟩
  obtain ⟨tables, htables, hcarried⟩ := psbtUpdate_carried (readPsbt_sample 160) hout
  have hlen := (keeps_iff_of_carried htables hcarried).mp hkeeps _ List.mem_cons_self
  simp [sampleGlobal, puMaxkv] at hlen

end BitcoinMachineCode.Wallet
