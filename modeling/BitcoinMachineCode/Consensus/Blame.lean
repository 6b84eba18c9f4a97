import BitcoinMachineCode.Consensus.BlockBytes
import BitcoinMachineCode.Consensus.Sha256
import Mathlib.Data.List.Nodup

/-!
# Whom a refusal blames

A block that is refused as a consensus reject has its hash marked invalid, so the
bytes of a valid block must not be turned into bytes that are.  Where the other
bytes carry the same transaction ids they cannot: the witness commitment stands
before every rule that reads a witness.  Where the header's tree is read at
another depth they can, and a reason left by an earlier block is blamed on this
one where the ghost guard refuses.
-/

namespace BitcoinMachineCode.Consensus

open BitcoinMachineCode.Foundation

/-! ## The transactions of stored bytes -/

def blockTxs (block : List UInt8) : List WireTx :=
  match readVarint true false (block.drop 80) with
  | none => []
  | some (count, rest) =>
      match txParse.verbatim.times count rest with
      | none => []
      | some (parsed, _) => parsed.map Prod.fst

section Stored

variable {sha256d : List UInt8 → Bytes 32}

/-- The bytes are the transactions, one after the other. -/
structure Holds (bs : List UInt8) (txs : List WireTx) : Prop where
  parsed : txParse.verbatim.times txs.length bs = some (txs.map fun t => (t, t.full), [])
  wellRead : ∀ t ∈ txs, t.WellRead false

theorem Holds.nil : Holds [] [] := ⟨rfl, nofun⟩

theorem Holds.cons {bs rest : List UInt8} {tx : WireTx} {txs : List WireTx}
    (hparse : txParse bs = some (tx, rest)) (hrest : Holds rest txs) : Holds bs (tx :: txs) := by
  obtain ⟨rfl, hwell⟩ := readTx_eq_some hparse
  refine ⟨?_, ?_⟩
  · have hfirst : txParse.verbatim (tx.full ++ rest) = some ((tx, tx.full), rest) :=
      hwell.takes.verbatim rest
    simp only [List.length_cons, Reader.times, Reader.bind, hfirst, Option.bind_some,
      hrest.parsed, Reader.pure, List.map_cons]
  · rintro t (_ | ⟨_, ht⟩)
    · exact hwell
    · exact hrest.wellRead t ht

theorem consWalk_eq_some {cap fuel n : Nat} {bs : List UInt8} {txids : List (Bytes 32)}
    (h : consWalk sha256d cap fuel n bs = some txids) :
    ∃ txs : List WireTx, txids = txs.map (fun t => sha256d t.stripped) ∧ Holds bs txs := by
  induction fuel generalizing n bs txids with
  | zero =>
      rw [consWalk] at h
      split at h
      · next hnil =>
          subst hnil
          exact ⟨[], (Option.some.inj h).symm, .nil⟩
      · cases h
  | succ fuel ih =>
      rw [consWalk] at h
      split at h
      · next hnil =>
          subst hnil
          exact ⟨[], (Option.some.inj h).symm, .nil⟩
      split at h
      · cases h
      next tx rest hparse =>
      split at h
      · cases h
      split at h
      · cases h
      split at h
      · cases h
      next txid htxid =>
      obtain ⟨more, hmore, rfl⟩ := Option.map_eq_some_iff.mp h
      obtain ⟨txs, rfl, hrest⟩ := ih hmore
      have hid : txid = sha256d tx.stripped := by
        unfold txTxid at htxid
        split at htxid
        · cases htxid
        · exact (Option.some.inj htxid).symm
      exact ⟨tx :: txs, by rw [hid]; rfl, hrest.cons hparse⟩

variable (sha256d) in
def blockTxids (block : List UInt8) : List (Bytes 32) :=
  (blockTxs block).map fun t => sha256d t.stripped

/-- What `cons_verify` has checked. -/
structure Stored (sha256d : List UInt8 → Bytes 32) (block : List UInt8) : Prop where
  holds : ∃ rest, readVarint true false (block.drop 80) = some ((blockTxs block).length, rest) ∧
    Holds rest (blockTxs block)
  nonempty : blockTxs block ≠ []
  root : (merkleRoot sha256d (blockTxids sha256d block)).1.1 = (block.drop 36).take 32
  clean : (merkleRoot sha256d (blockTxids sha256d block)).2 = false
  long : 82 ≤ block.length

theorem blockTxs_eq {block rest : List UInt8} {txs : List WireTx}
    (hcount : readVarint true false (block.drop 80) = some (txs.length, rest))
    (hholds : Holds rest txs) : blockTxs block = txs := by
  simp only [blockTxs, hcount, hholds.parsed, List.map_map]
  exact List.map_id' txs

theorem stored_of_consVerify {powCheck : List UInt8 → Bool} {cap : Nat} {block : List UInt8}
    (h : consVerify sha256d powCheck cap block = true) : Stored sha256d block := by
  unfold consVerify at h
  split at h
  · cases h
  next hlong =>
  split at h
  · cases h
  split at h
  · cases h
  next count rest hcount =>
  split at h
  · cases h
  next hpos =>
  split at h
  · cases h
  next txids hwalk =>
  obtain ⟨txs, rfl, hholds⟩ := consWalk_eq_some hwalk
  simp only [List.length_map, Bool.and_eq_true, decide_eq_true_eq, Bool.not_eq_true'] at h
  obtain ⟨⟨rfl, hroot⟩, hclean⟩ := h
  have htxs := blockTxs_eq hcount hholds
  refine ⟨⟨rest, htxs ▸ hcount, htxs ▸ hholds⟩, ?_, ?_, ?_, by omega⟩
  · rw [htxs]
    exact fun hnil => hpos (by rw [hnil]; rfl)
  · rw [blockTxids, htxs]
    exact hroot
  · rw [blockTxids, htxs]
    exact hclean

/-! ## Counts have one width -/

/-- The width of a canonical count. -/
def varintLen (v : Nat) : Nat :=
  if v < 0xfd then 1 else if v < 0x10000 then 3 else if v < 0x100000000 then 5 else 9

theorem length_of_readVarint {capped : Bool} {bs rest : List UInt8} {v : Nat}
    (h : readVarint true capped bs = some (v, rest)) : bs.length = varintLen v + rest.length := by
  rcases readVarint_eq_some h with ⟨b, hb, rfl, rfl⟩ | ⟨b, payload, -, hlen, rfl, hleast, -, rfl⟩
  · have : b.toNat < 0xfd := UInt8.lt_iff_toNat_lt.mp hb
    rw [varintLen, if_pos this, List.length_cons]
    omega
  · have hlt := leVal_lt payload
    have hge := hleast rfl
    rw [hlen] at hlt
    simp only [List.length_cons, List.length_append, hlen, varintLen]
    unfold varintWidth at hlt hge ⊢
    split
    · next hfd =>
        simp only [hfd, if_true] at hlt hge
        norm_num at hlt
        rw [if_neg (by omega), if_pos (by omega)]
        omega
    · next hfd =>
        simp only [hfd, if_false] at hlt hge
        split
        · next hfe =>
            simp only [hfe, if_true] at hlt hge
            norm_num at hlt
            rw [if_neg (by omega), if_neg (by omega), if_pos (by omega)]
            omega
        · next hfe =>
            simp only [hfe, if_false] at hlt hge
            rw [if_neg (by omega), if_neg (by omega), if_neg (by omega)]
            omega

theorem uncapped_of_capped {bs : List UInt8} {x : Nat × List UInt8}
    (h : readVarint true true bs = some x) : readVarint true false bs = some x := by
  obtain ⟨v, rest⟩ := x
  rcases readVarint_eq_some h with ⟨b, hb, rfl, rfl⟩ | ⟨b, payload, hb, hlen, rfl, hleast, -, rfl⟩
  · exact takes_varint_small hb rest
  · have htakes : (readVarint true false).Takes (b :: payload) (leVal payload) :=
      takes_varint_wide hb hlen hleast (fun h => by cases h)
    exact htakes rest

theorem capped_of_uncapped {bs rest : List UInt8} {v : Nat}
    (h : readVarint true false bs = some (v, rest)) (hv : v ≤ maxSize) :
    readVarint true true bs = some (v, rest) := by
  rcases readVarint_eq_some h with ⟨b, hb, rfl, rfl⟩ | ⟨b, payload, hb, hlen, rfl, hleast, -, rfl⟩
  · exact takes_varint_small hb rest
  · have htakes : (readVarint true true).Takes (b :: payload) (leVal payload) :=
      takes_varint_wide hb hlen hleast fun _ => hv
    exact htakes rest

/-! ## Applying stored bytes -/

theorem Holds.bytes_eq {bs : List UInt8} {txs : List WireTx} (h : Holds bs txs) :
    bs = txs.flatMap WireTx.full := by
  have hparsed := h.parsed
  clear h
  induction txs generalizing bs with
  | nil => exact (Reader.times_zero_eq_some hparsed).2.symm
  | cons tx txs ih =>
      obtain ⟨⟨tx', used⟩, more, mid, hfirst, hrest, hlist⟩ := Reader.times_succ_eq_some hparsed
      obtain ⟨⟨rfl, rfl⟩, rfl⟩ := by simpa using hlist
      obtain ⟨⟨tx', rest'⟩, hparse, heq⟩ := Option.map_eq_some_iff.mp hfirst
      obtain ⟨⟨rfl, -⟩, rfl⟩ := by simpa using heq
      rw [(readTx_eq_some hparse).1, List.flatMap_cons, ← ih hrest]

namespace Stored

variable {block : List UInt8}

theorem length_eq (h : Stored sha256d block) :
    block.length = 80 + varintLen (blockTxs block).length +
      ((blockTxs block).flatMap WireTx.full).length := by
  obtain ⟨rest, hcount, hholds⟩ := h.holds
  have hlen := length_of_readVarint hcount
  have hlong := h.long
  rw [List.length_drop] at hlen
  rw [← hholds.bytes_eq]
  omega

theorem apply_eq (h : Stored sha256d block) (v : ChainView) :
    applyBlockInner sha256d v block =
      if maxSize < (blockTxs block).length then .error (valDecodeFailed, true)
      else if v.isGenesis (block.take 80) then .ok ()
      else if !v.bitsOk (block.take 80) then .error ("bad-diffbits", false)
      else applyParsed sha256d v (block.take 80) block.length (varintLen (blockTxs block).length)
        ((blockTxs block).map WireTx.full) := by
  obtain ⟨rest, hcount, hholds⟩ := h.holds
  have hlong := h.long
  rw [applyBlockInner, if_neg (by omega)]
  by_cases hbig : maxSize < (blockTxs block).length
  · have hnone : readVarint true true (block.drop 80) = none := by
      cases hread : readVarint true true (block.drop 80) with
      | none => rfl
      | some x =>
          rw [uncapped_of_capped hread] at hcount
          obtain rfl := Option.some.inj hcount
          rcases readVarint_eq_some hread with ⟨b, hb, hv, -⟩ | ⟨b, payload, -, -, -, -, hcap, -⟩
          · have := b.toNat_lt
            rw [hv, maxSize] at hbig
            omega
          · have := hcap rfl
            omega
    rw [if_pos hbig, hnone]
  · have hpos : (blockTxs block).length ≠ 0 := fun h0 =>
      h.nonempty (List.length_eq_zero_iff.mp h0)
    have hconsumed : block.length - 80 - rest.length = varintLen (blockTxs block).length := by
      have hlen := length_of_readVarint hcount
      rw [List.length_drop] at hlen
      omega
    rw [if_neg hbig, capped_of_uncapped hcount (by omega)]
    simp only [if_neg hpos, hholds.parsed, hconsumed, List.map_map]
    rfl

end Stored

/-! ## What is hashed -/

variable (sha256d) in
/-- The strings `cons_verify` and the witness commitment hash for a block. -/
inductive HashedBy (block : List UInt8) : List UInt8 → Prop where
  | txid {t : WireTx} (ht : t ∈ blockTxs block) : HashedBy block t.stripped
  | wtxid {t : WireTx} (ht : t ∈ blockTxs block) : HashedBy block t.full
  | node {p : Bytes 32 × Bytes 32}
      (hp : p ∈ treePairs (merkleNode sha256d) (blockTxids sha256d block).length
        (blockTxids sha256d block)) : HashedBy block (p.1.1 ++ p.2.1)
  | witnessNode {p : Bytes 32 × Bytes 32}
      (hp : p ∈ treePairs (merkleNode sha256d) (blockTxs block).length
        (zero32 :: (blockTxs block).tail.map fun t => sha256d t.full)) :
      HashedBy block (p.1.1 ++ p.2.1)
  | commitment {nonce : List UInt8}
      (hnonce : (blockTxs block).head?.map (fun cb => cb.witness.headD []) = some [nonce]) :
      HashedBy block ((witnessRoot sha256d ((blockTxs block).tail.map WireTx.full)).1 ++ nonce)

variable (sha256d) in
/-- Double SHA-256 takes no two of the strings hashed for either block to one value. -/
def CollisionFree (V B : List UInt8) : Prop :=
  Set.InjOn sha256d {x | HashedBy sha256d V x ∨ HashedBy sha256d B x}

theorem append_digests_inj {p q : Bytes 32 × Bytes 32} (h : p.1.1 ++ p.2.1 = q.1.1 ++ q.2.1) :
    p = q := by
  obtain ⟨h₁, h₂⟩ := List.append_inj h (p.1.2.trans q.1.2.symm)
  exact Prod.ext (Subtype.ext h₁) (Subtype.ext h₂)

section Pair

variable {V B : List UInt8}

theorem CollisionFree.nodes (h : CollisionFree sha256d V B) {s : Set (Bytes 32 × Bytes 32)}
    (hs : ∀ p ∈ s, HashedBy sha256d V (p.1.1 ++ p.2.1) ∨ HashedBy sha256d B (p.1.1 ++ p.2.1)) :
    Set.InjOn (fun p : Bytes 32 × Bytes 32 => merkleNode sha256d p.1 p.2) s :=
  fun p hp q hq heq => append_digests_inj (h (hs p hp) (hs q hq) heq)

theorem CollisionFree.stripped_eq (h : CollisionFree sha256d V B)
    (hids : blockTxids sha256d V = blockTxids sha256d B) :
    (blockTxs V).map WireTx.stripped = (blockTxs B).map WireTx.stripped := by
  refine eq_of_map_eq h ?_ ?_ (by simpa [blockTxids, Function.comp_def] using hids)
  · intro x hx
    obtain ⟨t, ht, rfl⟩ := List.mem_map.mp hx
    exact .inl (.txid ht)
  · intro x hx
    obtain ⟨t, ht, rfl⟩ := List.mem_map.mp hx
    exact .inr (.txid ht)

theorem full_eq_stripped_of_noWitness {txs : List WireTx} (hwell : ∀ t ∈ txs, t.WellRead false)
    (h : noWitness (txs.map WireTx.full) = .ok) :
    txs.map WireTx.full = txs.map WireTx.stripped := by
  induction txs with
  | nil => rfl
  | cons tx txs ih =>
      rw [List.map_cons, noWitness] at h
      split at h
      · cases h
      next w hw =>
      split at h
      · cases h
      next hnone =>
      have htx := hwell tx List.mem_cons_self
      obtain ⟨-, -, -, hseg⟩ := htx.bwWalkTx_eq hw
      rw [List.map_cons, List.map_cons, ih (fun t ht => hwell t (List.mem_cons_of_mem _ ht)) h,
        htx.full_of_unmarked (hseg (Bool.eq_false_iff.mpr hnone))]

/-- What a passed commitment says of a block. -/
theorem commitment_ok {active : Bool} {scratchCap : Nat} {cb : WireTx} {rest : List WireTx}
    (hwell : ∀ t ∈ cb :: rest, t.WellRead false)
    (h : blockCheckWitnessCommitment sha256d active scratchCap ((cb :: rest).map WireTx.full) =
      .ok) :
    ((if active then (cb.outs.filterMap fun out => commitmentOf out.script).getLast? else none) =
        none ∧ (cb :: rest).map WireTx.full = (cb :: rest).map WireTx.stripped) ∨
      ∃ commit nonce, (if active then
          (cb.outs.filterMap fun out => commitmentOf out.script).getLast? else none) =
            some commit ∧
        cb.WellRead true ∧ cb.witness.headD [] = [nonce] ∧ nonce.length = 32 ∧
        (sha256d ((witnessRoot sha256d (rest.map WireTx.full)).1 ++ nonce)).1 = commit := by
  rw [List.map_cons, blockCheckWitnessCommitment] at h
  split at h
  · cases h
  next w hw =>
  obtain ⟨hcanon, hstack, hcommit, -⟩ := (hwell cb List.mem_cons_self).bwWalkTx_eq hw
  rw [← hcommit]
  split at h
  · next hnone => exact .inl ⟨hnone, full_eq_stripped_of_noWitness hwell h⟩
  · next commit hsome =>
      split at h
      · next nonce hnonce =>
          split at h
          · cases h
          next hlen =>
          split at h
          · cases h
          split at h
          · cases h
          split at h
          · cases h
          next hroot =>
          exact .inr ⟨commit, nonce, hsome, hcanon, hstack ▸ hnonce, not_not.mp hlen,
            not_not.mp hroot⟩
      · cases h

theorem CollisionFree.rest_eq (hfree : CollisionFree sha256d V B)
    (hlen : (blockTxs V).length = (blockTxs B).length) (hne : blockTxs V ≠ [])
    (hroot : witnessRoot sha256d ((blockTxs V).tail.map WireTx.full) =
      witnessRoot sha256d ((blockTxs B).tail.map WireTx.full)) :
    (blockTxs V).tail.map WireTx.full = (blockTxs B).tail.map WireTx.full := by
  have hpos := List.length_pos_iff.mpr hne
  have hleaves : ∀ block : List UInt8, 0 < (blockTxs block).length →
      (zero32 :: ((blockTxs block).tail.map WireTx.full).map sha256d).length =
        (blockTxs block).length := by
    intro block h
    simp only [List.length_cons, List.length_map, List.length_tail]
    omega
  have htops : ∀ block : List UInt8, 0 < (blockTxs block).length →
      treeTop (merkleNode sha256d) (blockTxs block).length
          (zero32 :: ((blockTxs block).tail.map WireTx.full).map sha256d) =
        [witnessRoot sha256d ((blockTxs block).tail.map WireTx.full)] := by
    intro block h
    have hone : (treeTop (merkleNode sha256d) (blockTxs block).length
        (zero32 :: ((blockTxs block).tail.map WireTx.full).map sha256d)).length = 1 :=
      length_treeTop (hleaves block h).le (List.cons_ne_nil _ _)
    obtain ⟨r, hr⟩ := List.length_eq_one_iff.mp hone
    rw [witnessRoot, merkleRoot, hleaves block h, hr]
    rfl
  have htop := (htops V hpos).trans ((congrArg (fun r => [r]) hroot).trans
    (htops B (by omega)).symm)
  rw [← hlen] at htop
  have hsame := eq_of_treeTop_eq (hleaves V hpos).le
    ((hleaves V hpos).trans (hlen.trans (hleaves B (by omega)).symm))
    (hfree.nodes fun p hp => ?_) htop
  · refine eq_of_map_eq hfree ?_ ?_ (List.cons.inj hsame).2
    · intro x hx
      obtain ⟨t, ht, rfl⟩ := List.mem_map.mp hx
      exact .inl (.wtxid (List.mem_of_mem_tail ht))
    · intro x hx
      obtain ⟨t, ht, rfl⟩ := List.mem_map.mp hx
      exact .inr (.wtxid (List.mem_of_mem_tail ht))
  · rw [List.map_map] at hp
    rcases hp with hp | hp
    · exact .inl (.witnessNode hp)
    · rw [hlen, List.map_map] at hp
      exact .inr (.witnessNode hp)

/-- Under the same transaction ids, two passed commitments are of the same bytes. -/
theorem full_eq_of_commitments (hV : Stored sha256d V) (hB : Stored sha256d B)
    (hfree : CollisionFree sha256d V B) (hids : blockTxids sha256d V = blockTxids sha256d B)
    (hone : ∀ cb, (blockTxs V).head? = some cb → cb.ins.length = 1) {active : Bool}
    {scratchCap : Nat}
    (hokV : blockCheckWitnessCommitment sha256d active scratchCap
      ((blockTxs V).map WireTx.full) = .ok)
    (hokB : blockCheckWitnessCommitment sha256d active scratchCap
      ((blockTxs B).map WireTx.full) = .ok) :
    (blockTxs V).map WireTx.full = (blockTxs B).map WireTx.full := by
  have hstripped := hfree.stripped_eq hids
  have hlen : (blockTxs V).length = (blockTxs B).length := by
    simpa using congrArg List.length hstripped
  obtain ⟨_, _, hholdsV⟩ := hV.holds
  obtain ⟨_, _, hholdsB⟩ := hB.holds
  have hwellV := hholdsV.wellRead
  have hwellB := hholdsB.wellRead
  have hrest := hfree.rest_eq hlen hV.nonempty
  have hcommitV := @HashedBy.commitment sha256d V
  have hcommitB := @HashedBy.commitment sha256d B
  obtain ⟨cbV, restV, htxsV⟩ := List.exists_cons_of_ne_nil hV.nonempty
  obtain ⟨cbB, restB, htxsB⟩ := List.exists_cons_of_ne_nil hB.nonempty
  rw [htxsV] at hokV hwellV hone hstripped
  rw [htxsB] at hokB hwellB hstripped
  rw [htxsV, htxsB] at hrest ⊢
  rw [htxsV] at hcommitV
  rw [htxsB] at hcommitB
  have hcbV := hwellV cbV List.mem_cons_self
  have hcbB := hwellB cbB List.mem_cons_self
  obtain ⟨hversion, hbody, hlock, hins, houts⟩ :=
    hcbV.eq_of_stripped hcbB (List.cons.inj hstripped).1
  rcases commitment_ok hwellV hokV with ⟨hnoneV, hplainV⟩ |
    ⟨commit, nonce, hsomeV, hcanonV, hstackV, hlenV, hhashV⟩
  · rcases commitment_ok hwellB hokB with ⟨-, hplainB⟩ | ⟨commit, nonce, hsomeB, -⟩
    · rw [hplainV, hplainB, hstripped]
    · rw [← houts, hnoneV] at hsomeB
      cases hsomeB
  · rcases commitment_ok hwellB hokB with ⟨hnoneB, -⟩ |
      ⟨commit', nonce', hsomeB, hcanonB, hstackB, hlenB, hhashB⟩
    · rw [← houts, hsomeV] at hnoneB
      cases hnoneB
    · obtain rfl : commit = commit' := by
        rw [← houts, hsomeV] at hsomeB
        exact Option.some.inj hsomeB
      have hpre := hfree (.inl (hcommitV (congrArg some hstackV)))
        (.inr (hcommitB (congrArg some hstackB)))
        (Subtype.ext (hhashV.trans hhashB.symm))
      obtain ⟨hroot, rfl⟩ := List.append_inj' hpre (hlenV.trans hlenB.symm)
      have hsegV := hcanonV.segwit_of_witness (hstackV ▸ List.cons_ne_nil _ _)
      have hsegB := hcanonB.segwit_of_witness (hstackB ▸ List.cons_ne_nil _ _)
      have hinsV := hone cbV rfl
      have hcb : cbV.full = cbB.full := by
        rw [WireTx.full, WireTx.full, hversion, hbody, hlock, hsegV, hsegB,
          hcanonV.witnessBytes_eq hsegV hinsV hlenV hstackV,
          hcanonB.witnessBytes_eq hsegB (hins ▸ hinsV) hlenV hstackB]
      rw [List.map_cons, List.map_cons, hcb]
      exact congrArg _ (hrest (Subtype.ext hroot))

/-! ## The same transaction ids -/

theorem mapM_valReadTx {txs : List WireTx} (hwell : ∀ t ∈ txs, t.WellRead false)
    {infos : List ValTxinfo} (h : (txs.map WireTx.full).mapM valReadTx = some infos) :
    infos = txs.map WireTx.info := by
  induction txs generalizing infos with
  | nil =>
      obtain rfl : [] = infos := by simpa using h
      rfl
  | cons tx txs ih =>
      rw [List.map_cons, List.mapM_cons] at h
      obtain ⟨i, hi, h⟩ := Option.bind_eq_some_iff.mp h
      obtain ⟨more, hmore, h⟩ := Option.bind_eq_some_iff.mp h
      obtain rfl := Option.some.inj h
      rw [(hwell tx List.mem_cons_self).valReadTx_eq hi,
        ih (fun t ht => hwell t (List.mem_cons_of_mem _ ht)) hmore, List.map_cons]

theorem map_info_eq {txs txs' : List WireTx} (hwell : ∀ t ∈ txs, t.WellRead false)
    (hwell' : ∀ t ∈ txs', t.WellRead false)
    (h : txs.map WireTx.stripped = txs'.map WireTx.stripped) :
    txs.map WireTx.info = txs'.map WireTx.info := by
  induction txs generalizing txs' with
  | nil => rw [List.map_eq_nil_iff.mp h.symm]
  | cons tx txs ih =>
      obtain ⟨tx', txs', rfl, htx, htxs⟩ := List.map_eq_cons_iff.mp h.symm
      rw [List.map_cons, List.map_cons,
        (hwell tx List.mem_cons_self).info_eq (hwell' tx' List.mem_cons_self) htx.symm,
        ih (fun t ht => hwell t (List.mem_cons_of_mem _ ht))
          (fun t ht => hwell' t (List.mem_cons_of_mem _ ht)) htxs.symm]

theorem applyParsed_ok {v : ChainView} {header : List UInt8} {blocklen consumed : Nat}
    {txs : List (List UInt8)} (h : applyParsed sha256d v header blocklen consumed txs = .ok ()) :
    ∃ infos, txs.mapM valReadTx = some infos ∧ txs.length * 4 ≤ maxBlockWeight ∧
      (80 + consumed + (infos.map ValTxinfo.strippedLen).sum) * 4 ≤ maxBlockWeight ∧
      checkTransactions v infos = none ∧
      applyCommitted sha256d v header blocklen
        (80 + consumed + (infos.map ValTxinfo.strippedLen).sum) txs = .ok () := by
  unfold applyParsed at h
  split at h
  · cases h
  split at h
  · cases h
  next infos hinfos =>
  simp only at h
  split at h
  · cases h
  split at h
  · cases h
  next hcheck => exact ⟨infos, hinfos, by omega, by omega, hcheck, h⟩

theorem applyCommitted_ok {v : ChainView} {header : List UInt8} {blocklen stripped : Nat}
    {txs : List (List UInt8)} (h : applyCommitted sha256d v header blocklen stripped txs = .ok ()) :
    blockCheckWitnessCommitment sha256d (v.segwitActive header) scratchBytes txs = .ok := by
  unfold applyCommitted at h
  split at h
  · cases h
  · cases h
  · cases h
  · next hok => exact hok

theorem one_input_of_checkTransactions {v : ChainView} {cb : WireTx} {rest : List WireTx}
    (h : checkTransactions v ((cb :: rest).map WireTx.info) = none) :
    cb.ins.map WireIn.prevout = [nullPrevout] := by
  rw [List.map_cons, checkTransactions] at h
  split at h
  · cases h
  next hshape => simpa [WireTx.info] using hshape

/-- A failure that is not filed as a reject. -/
def NotBlamed (r : Except (String × Bool) Unit) : Prop :=
  ∀ reason mutated, r = .error (reason, mutated) → mutated = true ∨ reason = ""

theorem applyParsed_notBlamed (hV : Stored sha256d V) (hB : Stored sha256d B)
    (hfree : CollisionFree sha256d V B) (hids : blockTxids sha256d V = blockTxids sha256d B)
    {v : ChainView} {header : List UInt8}
    (hok : applyParsed sha256d v header V.length (varintLen (blockTxs V).length)
      ((blockTxs V).map WireTx.full) = .ok ()) :
    NotBlamed (applyParsed sha256d v header B.length (varintLen (blockTxs B).length)
      ((blockTxs B).map WireTx.full)) := by
  have hstripped := hfree.stripped_eq hids
  have hlen : (blockTxs V).length = (blockTxs B).length := by
    simpa using congrArg List.length hstripped
  obtain ⟨_, _, hholdsV⟩ := hV.holds
  obtain ⟨_, _, hholdsB⟩ := hB.holds
  obtain ⟨infos, hinfos, hcount, hsize, hcheck, hcommitted⟩ := applyParsed_ok hok
  obtain rfl := mapM_valReadTx hholdsV.wellRead hinfos
  have hinfo := map_info_eq hholdsV.wellRead hholdsB.wellRead hstripped
  rw [List.length_map] at hcount
  intro reason mutated h
  rw [applyParsed, List.length_map, ← hlen, if_neg (by omega)] at h
  split at h
  · obtain ⟨rfl, rfl⟩ := by simpa using h
    exact .inl rfl
  next infosB hinfosB =>
  obtain rfl := mapM_valReadTx hholdsB.wellRead hinfosB
  simp only at h
  rw [← hinfo, if_neg (by omega), hcheck] at h
  -- past the commitment the bytes are the same, so everything after it is
  have hsame : blockCheckWitnessCommitment sha256d (v.segwitActive header) scratchBytes
      ((blockTxs B).map WireTx.full) = .ok →
      (blockTxs V).map WireTx.full = (blockTxs B).map WireTx.full := by
    refine full_eq_of_commitments hV hB hfree hids (fun cb hcb => ?_) (applyCommitted_ok hcommitted)
    obtain ⟨cb', rest, htxs⟩ := List.exists_cons_of_ne_nil hV.nonempty
    rw [htxs] at hcb hcheck
    obtain rfl : cb' = cb := Option.some.inj hcb
    simpa using congrArg List.length (one_input_of_checkTransactions hcheck)
  have hfinal := h
  unfold applyCommitted at h
  cases hokB : blockCheckWitnessCommitment sha256d (v.segwitActive header) scratchBytes
      ((blockTxs B).map WireTx.full) with
  | scratchTooSmall =>
      rw [hokB] at h
      obtain ⟨rfl, rfl⟩ := by simpa using h
      exact .inr rfl
  | undecoded =>
      rw [hokB] at h
      obtain ⟨rfl, rfl⟩ := by simpa using h
      exact .inl rfl
  | mutated why =>
      rw [hokB] at h
      obtain ⟨rfl, rfl⟩ := by simpa using h
      exact .inl rfl
  | ok =>
      have hfull := hsame hokB
      have hblocklen : V.length = B.length := by
        rw [hV.length_eq, hB.length_eq, hlen, List.flatMap_def, List.flatMap_def, hfull]
      rw [← hblocklen, ← hfull, hcommitted] at hfinal
      cases hfinal

/-! ## Another depth of the tree -/

theorem CollisionFree.symm (h : CollisionFree sha256d V B) : CollisionFree sha256d B V :=
  h.mono fun _ hx => hx.symm

/-- Every node of the tree is a hash. -/
theorem hashed_of_level {m : List (Bytes 32)}
    (h : Relation.ReflTransGen (LevelAbove (merkleNode sha256d)) (blockTxids sha256d V) m) :
    ∀ a ∈ m, ∃ x, HashedBy sha256d V x ∧ sha256d x = a := by
  intro a ha
  rcases Relation.ReflTransGen.cases_tail h with heq | ⟨below, hbelow, hlen, hlevel⟩
  · rw [heq] at ha
    obtain ⟨t, ht, rfl⟩ := List.mem_map.mp ha
    exact ⟨t.stripped, .txid ht, rfl⟩
  · rw [hlevel] at ha
    obtain ⟨p, hp, rfl⟩ := List.mem_map.mp ha
    exact ⟨_, .node (levelPairs_mem_treePairs le_rfl hbelow hlen p hp), rfl⟩

theorem length_le_of_reached {node : Bytes 32 → Bytes 32 → Bytes 32} {l m : List (Bytes 32)}
    (h : Relation.ReflTransGen (LevelAbove node) l m) : m.length ≤ l.length := by
  induction h with
  | refl => exact le_rfl
  | tail _ hstep ih =>
      obtain ⟨hlen, rfl⟩ := hstep
      rw [length_merkleLevel]
      omega

/-- Where one block's ids are an inner level of the other's tree, its first
transaction is two hashes side by side. -/
theorem stripped_of_reached (hB : Stored sha256d B) (hfree : CollisionFree sha256d V B)
    (hne : blockTxids sha256d V ≠ blockTxids sha256d B)
    (hreach : Relation.ReflTransGen (LevelAbove (merkleNode sha256d))
      (blockTxids sha256d V) (blockTxids sha256d B)) :
    ∃ cb rest x, ∃ b : Bytes 32, blockTxs B = cb :: rest ∧ HashedBy sha256d V x ∧
      cb.stripped = (sha256d x).1 ++ b.1 := by
  obtain ⟨cb, rest, htxs⟩ := List.exists_cons_of_ne_nil hB.nonempty
  rcases Relation.ReflTransGen.cases_tail hreach with heq | ⟨m, hm, hlen, hlevel⟩
  · exact absurd heq.symm hne
  · have hmem : sha256d cb.stripped ∈ blockTxids sha256d B := by
      rw [blockTxids, htxs]
      exact List.mem_cons_self
    rw [hlevel] at hmem
    obtain ⟨p, hp, hnode⟩ := List.mem_map.mp hmem
    have hstripped := hfree (.inl (.node (levelPairs_mem_treePairs le_rfl hm hlen p hp)))
      (.inr (.txid (htxs ▸ List.mem_cons_self))) hnode
    obtain ⟨x, hx, hxa⟩ := hashed_of_level hm p.1 (fst_mem_of_mem_levelPairs hp)
    exact ⟨cb, rest, x, p.2, htxs, hx, by rw [hxa, hstripped]⟩

/-- A hash that reads like the head of a coinbase: 27 zero bytes after the count. -/
def NullDigest (d : Bytes 32) : Prop := d.1.drop 5 = List.replicate 27 0
  deriving Decidable

theorem nullDigest_of_coinbase {tx : WireTx} (hwell : tx.WellRead true)
    (hins : tx.ins.map WireIn.prevout = [nullPrevout]) {a b : Bytes 32}
    (hstripped : tx.stripped = a.1 ++ b.1) : NullDigest a := by
  obtain ⟨more, hbody⟩ := hwell.body_of_one_input hins
  have hdrop : tx.stripped.drop 5 = nullPrevout ++ (more ++ tx.locktime) := by
    rw [WireTx.stripped, hbody]
    have hversion := hwell.version
    rw [List.append_assoc, List.drop_append, List.drop_of_length_le (by omega), hversion]
    simp
  rw [hstripped, List.drop_append_of_le_length (by rw [a.2]; omega)] at hdrop
  have htake := congrArg (List.take 27) hdrop
  rw [List.take_append_of_le_length (by rw [List.length_drop, a.2]),
    List.take_of_length_le (by rw [List.length_drop, a.2])] at htake
  rw [NullDigest, htake]
  rfl

theorem top_of_stored {block : List UInt8} (h : Stored sha256d block) :
    treeTop (merkleNode sha256d) (blockTxids sha256d block).length (blockTxids sha256d block) =
      [(merkleRoot sha256d (blockTxids sha256d block)).1] := by
  have hne : blockTxids sha256d block ≠ [] := fun hnil =>
    h.nonempty (List.map_eq_nil_iff.mp hnil)
  obtain ⟨r, hr⟩ := List.length_eq_one_iff.mp (length_treeTop le_rfl hne)
  rw [merkleRoot, hr]
  rfl

theorem reached_of_stored (hV : Stored sha256d V) (hB : Stored sha256d B)
    (hheader : V.take 80 = B.take 80) (hfree : CollisionFree sha256d V B) :
    Relation.ReflTransGen (LevelAbove (merkleNode sha256d)) (blockTxids sha256d V)
        (blockTxids sha256d B) ∨
      Relation.ReflTransGen (LevelAbove (merkleNode sha256d)) (blockTxids sha256d B)
        (blockTxids sha256d V) := by
  have hfield : (V.drop 36).take 32 = (B.drop 36).take 32 := by
    have h := congrArg (fun hdr => (hdr.drop 36).take 32) hheader
    simpa [List.drop_take, List.take_take] using h
  refine reached_or_reached le_rfl le_rfl hV.clean hB.clean (hfree.nodes fun p hp => ?_) ?_
  · exact hp.imp .node .node
  · have hroot : (merkleRoot sha256d (blockTxids sha256d V)).1 =
        (merkleRoot sha256d (blockTxids sha256d B)).1 :=
      Subtype.ext (hV.root.trans (hfield.trans hB.root.symm))
    rw [top_of_stored hV, top_of_stored hB, hroot]

theorem mapM_eq_some_of_forall {txs : List (List UInt8)}
    (h : ∀ tx ∈ txs, (valReadTx tx).isSome) : ∃ infos, txs.mapM valReadTx = some infos := by
  induction txs with
  | nil => exact ⟨[], rfl⟩
  | cons tx txs ih =>
      obtain ⟨i, hi⟩ := Option.isSome_iff_exists.mp (h tx List.mem_cons_self)
      obtain ⟨more, hmore⟩ := ih fun t ht => h t (List.mem_cons_of_mem _ ht)
      exact ⟨i :: more, by rw [List.mapM_cons, hi, hmore]; rfl⟩

theorem canonical_coinbase {v : ChainView} {cb : WireTx} {rest : List WireTx}
    {infos : List ValTxinfo} (hwell : ∀ t ∈ cb :: rest, t.WellRead false)
    (hinfos : ((cb :: rest).map WireTx.full).mapM valReadTx = some infos)
    (hcheck : checkTransactions v infos = none) :
    cb.WellRead true ∧ cb.ins.map WireIn.prevout = [nullPrevout] := by
  obtain rfl := mapM_valReadTx hwell hinfos
  refine ⟨?_, one_input_of_checkTransactions hcheck⟩
  rw [List.map_cons, List.mapM_cons] at hinfos
  obtain ⟨i, hi, -⟩ := Option.bind_eq_some_iff.mp hinfos
  exact (hwell cb List.mem_cons_self).canonical_of_valReadTx hi

/-- Every refusal of the pass has its reason. -/
theorem reason_of_checkTransactions {v : ChainView} {infos : List ValTxinfo} {reason : String}
    (h : checkTransactions v infos = some reason) : reason ≠ "" := by
  cases infos with
  | nil => cases h
  | cons cb rest =>
      rw [checkTransactions] at h
      split at h
      · obtain rfl := Option.some.inj h
        decide
      split at h
      · obtain rfl := Option.some.inj h
        decide
      split at h
      · next why hfind =>
          obtain rfl := Option.some.inj h
          obtain ⟨i, -, hi⟩ := List.exists_of_findSome?_eq_some hfind
          split at hi
          · obtain rfl := Option.some.inj hi
            decide
          split at hi
          · obtain rfl := Option.some.inj hi
            decide
          · cases hi
      split at h
      · obtain rfl := Option.some.inj h
        decide
      split at h
      · obtain rfl := Option.some.inj h
        decide
      · cases h

variable (sha256d) in
/-- No string hashed for either block gives such a hash. -/
def NoNullDigest (V B : List UInt8) : Prop :=
  ∀ x, HashedBy sha256d V x ∨ HashedBy sha256d B x → ¬ NullDigest (sha256d x)

/-- Other ids are those of an inner level: an applied block's own coinbase is not
made of two hashes. -/
theorem reached_of_applied (hV : Stored sha256d V) (hB : Stored sha256d B)
    (hheader : V.take 80 = B.take 80) (hfree : CollisionFree sha256d V B)
    (hnull : NoNullDigest sha256d V B)
    (hids : blockTxids sha256d V ≠ blockTxids sha256d B) {v : ChainView} {header : List UInt8}
    (hok : applyParsed sha256d v header V.length (varintLen (blockTxs V).length)
      ((blockTxs V).map WireTx.full) = .ok ()) :
    Relation.ReflTransGen (LevelAbove (merkleNode sha256d)) (blockTxids sha256d V)
      (blockTxids sha256d B) := by
  rcases reached_of_stored hV hB hheader hfree with hreach | hreach
  · exact hreach
  · exfalso
    obtain ⟨_, _, hholdsV⟩ := hV.holds
    obtain ⟨cb, rest, x, b, htxs, hx, hstripped⟩ :=
      stripped_of_reached hV hfree.symm hids.symm hreach
    obtain ⟨infos, hinfos, -, -, hcheck, -⟩ := applyParsed_ok hok
    have hwellV := hholdsV.wellRead
    rw [htxs] at hwellV hinfos
    obtain ⟨hwell, hins⟩ := canonical_coinbase hwellV hinfos hcheck
    exact hnull x (.inr hx) (nullDigest_of_coinbase hwell hins hstripped)

/-- The header's tree read at another depth: what passes for the first transaction
is no coinbase, and the refusal is filed against the block. -/
theorem applyParsed_blamed (hB : Stored sha256d B) (hfree : CollisionFree sha256d V B)
    (hnull : NoNullDigest sha256d V B)
    (hids : blockTxids sha256d V ≠ blockTxids sha256d B)
    (hreach : Relation.ReflTransGen (LevelAbove (merkleNode sha256d)) (blockTxids sha256d V)
      (blockTxids sha256d B)) (v : ChainView) (header : List UInt8) (blocklen consumed : Nat)
    (hdecodes : ∀ t ∈ blockTxs B, (valReadTx t.full).isSome) :
    ¬ NotBlamed (applyParsed sha256d v header blocklen consumed
      ((blockTxs B).map WireTx.full)) := by
  obtain ⟨_, _, hholdsB⟩ := hB.holds
  obtain ⟨cb, rest, x, b, htxs, hx, hstripped⟩ := stripped_of_reached hB hfree hids hreach
  obtain ⟨infos, hinfos⟩ := mapM_eq_some_of_forall
    (List.forall_mem_map.mpr hdecodes : ∀ tx ∈ (blockTxs B).map WireTx.full, _)
  have hshape : checkTransactions v infos ≠ none := by
    intro hcheck
    have hwellB := hholdsB.wellRead
    rw [htxs] at hwellB hinfos
    obtain ⟨hwell, hins⟩ := canonical_coinbase hwellB hinfos hcheck
    exact hnull x (.inl hx) (nullDigest_of_coinbase hwell hins hstripped)
  obtain ⟨reason, hreason⟩ := Option.ne_none_iff_exists'.mp hshape
  intro hnot
  rw [applyParsed, hinfos] at hnot
  split at hnot
  · simpa using hnot _ _ rfl
  simp only at hnot
  split at hnot
  · simpa using hnot _ _ rfl
  · rw [hreason] at hnot
    rcases hnot _ _ rfl with hflag | hempty
    · cases hflag
    · exact reason_of_checkTransactions hreason hempty

/-! ## Blame -/

theorem applyBlockAt_reject_iff {v : ChainView} {block : List UInt8} :
    applyBlockAt sha256d v block ≠ some .reject ↔
      if v.guardRefuses block then v.lastReject = "" ∨ v.lastMutated = true
      else NotBlamed (applyBlockInner sha256d v block) := by
  have hclass : ∀ reason mutated, (some (if mutated then FailKind.mutated
      else if reason = "" then .store else .reject) ≠ some .reject) ↔
        mutated = true ∨ reason = "" := by
    intro reason mutated
    cases mutated with
    | true => simp
    | false => by_cases hr : reason = "" <;> simp [hr]
  unfold applyBlockAt
  simp only
  by_cases hguard : v.guardRefuses block = true
  · rw [if_pos hguard, if_pos hguard]
    exact (hclass ..).trans or_comm
  · rw [if_neg hguard, if_neg hguard]
    cases hinner : applyBlockInner sha256d v block with
    | ok u => simp [NotBlamed]
    | error e =>
        refine (hclass ..).trans ⟨fun h reason mutated heq => ?_, fun h => h _ _ rfl⟩
        obtain rfl := Except.error.inj heq
        exact h

variable (sha256d) in
/-- The condition on the other bytes.  Where the ghost guard refuses them no reason
is left over; elsewhere they carry the same transaction ids, unless the header is
the genesis header or `val_read_tx` comes to one it cannot read. -/
def BlameSafe (v : ChainView) (V B : List UInt8) : Prop :=
  if v.guardRefuses B then v.lastReject = "" ∨ v.lastMutated = true
  else v.isGenesis (B.take 80) = true ∨ blockTxids sha256d V = blockTxids sha256d B ∨
    ((blockTxs B).length * 4 ≤ maxBlockWeight ∧ ∃ t ∈ blockTxs B, valReadTx t.full = none)

theorem mapM_eq_none_of_exists {txs : List (List UInt8)} (h : ∃ tx ∈ txs, valReadTx tx = none) :
    txs.mapM valReadTx = none := by
  induction txs with
  | nil =>
      obtain ⟨tx, htx, -⟩ := h
      cases htx
  | cons x txs ih =>
      rw [List.mapM_cons]
      cases hx : valReadTx x with
      | none => rfl
      | some i =>
          obtain ⟨tx, htx, hnone⟩ := h
          rcases List.mem_cons.mp htx with rfl | htx
          · rw [hnone] at hx
            cases hx
          · rw [ih ⟨tx, htx, hnone⟩]
            rfl

theorem applyParsed_undecoded {v : ChainView} {header : List UInt8} {blocklen consumed : Nat}
    {txs : List (List UInt8)} (hcount : txs.length * 4 ≤ maxBlockWeight)
    (hbad : ∃ tx ∈ txs, valReadTx tx = none) :
    NotBlamed (applyParsed sha256d v header blocklen consumed txs) := by
  intro reason mutated h
  rw [applyParsed, if_neg (by omega), mapM_eq_none_of_exists hbad] at h
  obtain ⟨rfl, rfl⟩ := by simpa using h
  exact .inl rfl

theorem notBlamed_decodeFailed : NotBlamed (.error (valDecodeFailed, true)) := by
  intro reason mutated h
  obtain ⟨rfl, rfl⟩ := by simpa using h
  exact .inl rfl

theorem Stored.inner_ok {block : List UInt8} (h : Stored sha256d block) {v : ChainView}
    (hok : applyBlockInner sha256d v block = .ok ()) :
    v.isGenesis (block.take 80) = true ∨
      (v.isGenesis (block.take 80) = false ∧ v.bitsOk (block.take 80) = true ∧
        (blockTxs block).length ≤ maxSize ∧
        applyParsed sha256d v (block.take 80) block.length (varintLen (blockTxs block).length)
          ((blockTxs block).map WireTx.full) = .ok ()) := by
  rw [h.apply_eq] at hok
  split at hok
  · cases hok
  next hsize =>
  split at hok
  · next hgenesis => exact .inl hgenesis
  next hgenesis =>
  split at hok
  · cases hok
  next hbits => exact .inr ⟨by simpa using hgenesis, by simpa using hbits, by omega, hok⟩

variable (sha256d) in
/-- The strings of `HashedBy`, listed. -/
def hashedStrings (block : List UInt8) : List (List UInt8) :=
  (blockTxs block).map WireTx.stripped ++ (blockTxs block).map WireTx.full ++
    (treePairs (merkleNode sha256d) (blockTxids sha256d block).length
      (blockTxids sha256d block)).map (fun p => p.1.1 ++ p.2.1) ++
    (treePairs (merkleNode sha256d) (blockTxs block).length
      (zero32 :: (blockTxs block).tail.map fun t => sha256d t.full)).map (fun p => p.1.1 ++ p.2.1) ++
    (((blockTxs block).head?.map fun cb => cb.witness.headD []).getD []).map fun nonce =>
      (witnessRoot sha256d ((blockTxs block).tail.map WireTx.full)).1 ++ nonce

theorem HashedBy.mem {block x : List UInt8} (h : HashedBy sha256d block x) :
    x ∈ hashedStrings sha256d block := by
  simp only [hashedStrings, List.mem_append]
  cases h with
  | txid ht => exact .inl (.inl (.inl (.inl (List.mem_map_of_mem ht))))
  | wtxid ht => exact .inl (.inl (.inl (.inr (List.mem_map_of_mem ht))))
  | node hp => exact .inl (.inl (.inr (List.mem_map_of_mem hp)))
  | witnessNode hp => exact .inl (.inr (List.mem_map_of_mem hp))
  | commitment hnonce =>
      rw [hnonce]
      exact .inr List.mem_cons_self

theorem mem_strings_of_hashed {strings : List (List UInt8)}
    (hsub : ∀ x ∈ hashedStrings sha256d V ++ hashedStrings sha256d B, x ∈ strings)
    {x : List UInt8} (hx : HashedBy sha256d V x ∨ HashedBy sha256d B x) : x ∈ strings :=
  hsub x (List.mem_append.mpr (hx.imp HashedBy.mem HashedBy.mem))

theorem collisionFree_of_nodup (strings : List (List UInt8)) (h : (strings.map sha256d).Nodup)
    (hsub : ∀ x ∈ hashedStrings sha256d V ++ hashedStrings sha256d B, x ∈ strings) :
    CollisionFree sha256d V B := fun _ hx _ hy heq =>
  List.inj_on_of_nodup_map h (mem_strings_of_hashed hsub hx) (mem_strings_of_hashed hsub hy) heq

theorem noNullDigest_of_forall (strings : List (List UInt8))
    (h : ∀ x ∈ strings, ¬ NullDigest (sha256d x))
    (hsub : ∀ x ∈ hashedStrings sha256d V ++ hashedStrings sha256d B, x ∈ strings) :
    NoNullDigest sha256d V B :=
  fun x hx => h x (mem_strings_of_hashed hsub hx)

end Pair

end Stored

/-! ## A block and its two readings -/

def sampleCoinbase : List UInt8 :=
  leBytes 4 1 ++ [1] ++ nullPrevout ++ [5, 0x02, 0xc8, 0x00, 0x44, 0x00] ++ leBytes 4 0xffffffff ++
    [1] ++ leBytes 8 5000000000 ++ [1, 0x51] ++ leBytes 4 0

/-- The inputs and outputs of a transaction that spends one coin. -/
def sampleBody : List UInt8 :=
  [1] ++ (List.range 32).map (fun i => UInt8.ofNat (i + 1)) ++ leBytes 4 0 ++ [0] ++
    leBytes 4 0xffffffff ++ [1] ++ leBytes 8 4999915698 ++ [1, 0x51]

/-- The ids of the two, side by side: a transaction of 64 bytes. -/
def sampleIds : List UInt8 :=
  leBytes 64 0x0d26800a0048260d843edc2999df5b6281232c7abbcb0d8b05cd381b573cf10b3a4c8258a01d27ca8a6b3417269b0c20df3d0474bcd06306f92cbb01a9231207

def sampleHeader : List UInt8 :=
  leBytes 4 0x20000000 ++ List.replicate 32 0 ++
    leBytes 32 0x34939afbb401f3fc50117731035df47fbb734f51d3f28f3b6e7729b9ad65bdcf ++
    leBytes 4 1700000000 ++ leBytes 4 0x207fffff ++ leBytes 4 1

def sampleBlock : List UInt8 :=
  sampleHeader ++ [2] ++ sampleCoinbase ++ (leBytes 4 1 ++ sampleBody ++ leBytes 4 0)

/-- The same header over the one transaction its root is the id of. -/
def shallowBlock : List UInt8 := sampleHeader ++ [1] ++ sampleIds

/-- The same transactions, one with a witness nothing asks for. -/
def witnessedBlock : List UInt8 :=
  sampleHeader ++ [2] ++ sampleCoinbase ++
    (leBytes 4 1 ++ [0, 1] ++ sampleBody ++ [1, 1, 0x2a] ++ leBytes 4 0)

/-- What is hashed for the three. -/
def sampleStrings : List (List UInt8) :=
  let witnessed := leBytes 4 1 ++ [0, 1] ++ sampleBody ++ [1, 1, 0x2a] ++ leBytes 4 0
  [sampleCoinbase, leBytes 4 1 ++ sampleBody ++ leBytes 4 0, witnessed, sampleIds,
    zero32.1 ++ sampleIds.drop 32, zero32.1 ++ (sha256d witnessed).1]

def samplePowCheck (header : List UInt8) : Bool :=
  leVal (sha256d header).1 ≤
    leVal ((header.drop 72).take 3) * 256 ^ (leVal ((header.drop 75).take 1) - 3)

def sampleView : ChainView where
  height := 200
  isGenesis := fun _ => false
  bitsOk := fun _ => true
  bip34Height := 1
  segwitActive := fun _ => true
  late := fun _ _ => .ok ()
  guardRefuses := fun _ => false
  lastReject := ""
  lastMutated := false

/-- What the program says of the three blocks and hashes for them. -/
theorem sample_judged :
    (consVerify sha256d samplePowCheck 100 sampleBlock = true ∧
      applyBlockAt sha256d sampleView sampleBlock = none) ∧
    (consVerify sha256d samplePowCheck 100 shallowBlock = true ∧
      applyBlockAt sha256d sampleView shallowBlock = some .reject) ∧
    (consVerify sha256d samplePowCheck 100 witnessedBlock = true ∧
      blockTxids sha256d sampleBlock = blockTxids sha256d witnessedBlock) ∧
    ((sampleStrings.map sha256d).Nodup ∧ ∀ x ∈ sampleStrings, ¬ NullDigest (sha256d x)) ∧
    ∀ x ∈ hashedStrings sha256d sampleBlock ++
        (hashedStrings sha256d shallowBlock ++ hashedStrings sha256d witnessedBlock),
      x ∈ sampleStrings := by
  refine ⟨⟨?_, ?_⟩, ⟨?_, ?_⟩, ⟨?_, ?_⟩, ⟨?_, ?_⟩, ?_⟩
  all_goals decide +kernel

theorem mem_sampleStrings {x : List UInt8} {B : List UInt8}
    (hB : hashedStrings sha256d B ⊆
      hashedStrings sha256d shallowBlock ++ hashedStrings sha256d witnessedBlock)
    (hx : x ∈ hashedStrings sha256d sampleBlock ++ hashedStrings sha256d B) :
    x ∈ sampleStrings := by
  refine sample_judged.2.2.2.2 x (List.mem_append.mpr ?_)
  exact (List.mem_append.mp hx).imp id fun h => hB h

end BitcoinMachineCode.Consensus
