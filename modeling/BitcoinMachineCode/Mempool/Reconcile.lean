import BitcoinMachineCode.Mempool.Coherence
import Mathlib.Data.List.Perm.Basic

/-!
# Rebuilding the pool after a reorganisation

`reorg_mempool_reconcile_ex`: the pool's transactions and those of the disconnected
blocks are offered again to an empty pool, pass after pass, until a pass admits
none.  Whatever the order, the pool left fits the new chain, and a transaction that
is not in it was displaced or refused in the last pass.
-/

namespace BitcoinMachineCode.Mempool

open BitcoinMachineCode.Foundation BitcoinMachineCode.Storage

/-! ## The candidates -/

def reorgMempoolMaxTx : Nat := 8192

def reorgMempoolArena : Nat := 16777216

/-- The transactions after the coinbase, while there is a slot and the arena holds. -/
def collectTxs (max : Nat) : List Rtx → List Rtx × Nat → List Rtx × Nat
  | [], st => st
  | r :: rest, (cand, used) =>
      if max ≤ cand.length then (cand, used)
      else if reorgMempoolArena < used + r.bytes.length then (cand, used)
      else collectTxs max rest (cand ++ [r], used + r.bytes.length)

/-- `collect_block_txs` over the transactions `tx_parse` reads, the coinbase first. -/
def collectBlockTxs (max : Nat) (st : List Rtx × Nat) (block : List Rtx) : List Rtx × Nat :=
  collectTxs max block.tail st

/-- The pool's own, then the disconnected blocks', oldest block first. -/
def candidates (pool : Pool) (blocks : List (List Rtx)) : List Rtx :=
  (blocks.foldl (collectBlockTxs (pool.length + reorgMempoolMaxTx)) (pool.map Node.rtx, 0)).1

/-! ## The offers -/

section Rebuild

variable {σ : Type} (P : Policy σ) (coins : Outpoint → Option UInt64)

/-- One pass over the candidates with their `done` flags: the flags and the pool
after it, and whether it admitted any. -/
def offerPass : List (Rtx × Bool) → PolState σ → List (Rtx × Bool) × PolState σ × Bool
  | [], s => ([], s, false)
  | (r, true) :: cs, s =>
      let rest := offerPass cs s
      ((r, true) :: rest.1, rest.2.1, rest.2.2)
  | (r, false) :: cs, s =>
      let offer := mpoolPolicyAdd P coins s r
      let rest := offerPass cs offer.2
      ((r, offer.1.isNone) :: rest.1, rest.2.1, offer.1.isNone || rest.2.2)

def offerLoop : Nat → List (Rtx × Bool) → PolState σ → List (Rtx × Bool) × PolState σ
  | 0, cs, s => (cs, s)
  | passes + 1, cs, s =>
      let pass := offerPass P coins cs s
      if pass.2.2 then offerLoop passes pass.1 pass.2.1 else (pass.1, pass.2.1)

def rebuilt (memory : σ) (cands : List Rtx) : List (Rtx × Bool) × PolState σ :=
  offerLoop P coins (cands.length + 1) (cands.map (·, false)) ⟨P.reset memory, []⟩

def reorgMempoolReconcileEx (s : PolState σ) (blocks : List (List Rtx)) : PolState σ :=
  (rebuilt P coins s.memory (candidates s.pool blocks)).2

/-! ## Runs of offers -/

def Offers (cands : List Rtx) : PolState σ → PolState σ → Prop :=
  Relation.ReflTransGen fun s s' => ∃ r ∈ cands, s' = (mpoolPolicyAdd P coins s r).2

/-- Offers that are all refused. -/
def Refusals (cands : List Rtx) : PolState σ → PolState σ → Prop :=
  Relation.ReflTransGen fun s s' => ∃ r ∈ cands, (mpoolPolicyAdd P coins s r).1 ≠ none ∧
    s' = (mpoolPolicyAdd P coins s r).2

variable {P coins}

theorem Refusals.offers {cands : List Rtx} {s s' : PolState σ}
    (h : Refusals P coins cands s s') : Offers P coins cands s s' :=
  Relation.ReflTransGen.mono (fun _ _ ⟨r, hr, _, heq⟩ => ⟨r, hr, heq⟩) _ _ h

/-- The transaction was admitted on the way. -/
def AdmittedIn (P : Policy σ) (coins : Outpoint → Option UInt64) (cands : List Rtx)
    (start final : PolState σ) (r : Rtx) : Prop :=
  ∃ s, Offers P coins cands start s ∧ (mpoolPolicyAdd P coins s r).1 = none ∧
    Offers P coins cands (mpoolPolicyAdd P coins s r).2 final

/-- The transaction was refused, and nothing was admitted since. -/
def RefusedLast (P : Policy σ) (coins : Outpoint → Option UInt64) (cands : List Rtx)
    (start final : PolState σ) (r : Rtx) : Prop :=
  ∃ s, Offers P coins cands start s ∧ (mpoolPolicyAdd P coins s r).1 ≠ none ∧
    Refusals P coins cands (mpoolPolicyAdd P coins s r).2 final

def pending (cs : List (Rtx × Bool)) : Nat := cs.countP (·.2 = false)

theorem pending_admitted (r : Rtx) (cs : List (Rtx × Bool)) :
    pending ((r, true) :: cs) = pending cs := by simp [pending]

theorem pending_refused (r : Rtx) (cs : List (Rtx × Bool)) :
    pending ((r, false) :: cs) = pending cs + 1 := by simp [pending]

/-- What one pass does. -/
structure PassDone (P : Policy σ) (coins : Outpoint → Option UInt64) (cands : List Rtx)
    (cs cs' : List (Rtx × Bool)) (s s' : PolState σ) (progress : Bool) : Prop where
  same : cs'.map Prod.fst = cs.map Prod.fst
  offers : Offers P coins cands s s'
  admitted : ∀ r, (r, true) ∈ cs' → (r, true) ∈ cs ∨ AdmittedIn P coins cands s s' r
  pending_le : pending cs' ≤ pending cs
  quiet : progress = false → Refusals P coins cands s s' ∧
    ∀ r, (r, false) ∈ cs' → RefusedLast P coins cands s s' r
  moved : progress = true → pending cs' < pending cs

theorem AdmittedIn.extend {cands : List Rtx} {a b d e : PolState σ} {r : Rtx}
    (hbefore : Offers P coins cands a b) (h : AdmittedIn P coins cands b d r)
    (hafter : Offers P coins cands d e) : AdmittedIn P coins cands a e r := by
  obtain ⟨s, hs, hadd, hrest⟩ := h
  exact ⟨s, hbefore.trans hs, hadd, hrest.trans hafter⟩

theorem RefusedLast.extend {cands : List Rtx} {a b d e : PolState σ} {r : Rtx}
    (hbefore : Offers P coins cands a b) (h : RefusedLast P coins cands b d r)
    (hafter : Refusals P coins cands d e) : RefusedLast P coins cands a e r := by
  obtain ⟨s, hs, hadd, hrest⟩ := h
  exact ⟨s, hbefore.trans hs, hadd, hrest.trans hafter⟩

theorem passDone (P : Policy σ) (coins : Outpoint → Option UInt64) (cands : List Rtx)
    {cs : List (Rtx × Bool)} (hsub : ∀ x ∈ cs, x.1 ∈ cands) (s : PolState σ) :
    PassDone P coins cands cs (offerPass P coins cs s).1 s (offerPass P coins cs s).2.1
      (offerPass P coins cs s).2.2 := by
  induction cs generalizing s with
  | nil =>
      exact ⟨rfl, .refl, fun _ h => absurd h List.not_mem_nil, Nat.le_refl _,
        fun _ => ⟨.refl, fun _ h => absurd h List.not_mem_nil⟩, fun h => by cases h⟩
  | cons x cs ih =>
      obtain ⟨r, done⟩ := x
      have hsub' : ∀ x ∈ cs, x.1 ∈ cands := fun x hx => hsub x (List.mem_cons_of_mem _ hx)
      cases done with
      | true =>
          have h := ih hsub' s
          refine ⟨congrArg (r :: ·) h.same, h.offers, fun r' hr' => ?_, ?_, fun hp => ?_,
            fun hp => ?_⟩
          · rcases List.mem_cons.mp hr' with heq | hr'
            · exact .inl (heq ▸ List.mem_cons_self)
            · exact (h.admitted r' hr').imp_left (List.mem_cons_of_mem _)
          · simpa [offerPass, pending_admitted] using h.pending_le
          · obtain ⟨hquiet, hleft⟩ := h.quiet hp
            refine ⟨hquiet, fun r' hr' => hleft r' ?_⟩
            simpa [offerPass] using hr'
          · simpa [offerPass, pending_admitted] using h.moved hp
      | false =>
          have hr : r ∈ cands := hsub (r, false) List.mem_cons_self
          have h := ih hsub' (mpoolPolicyAdd P coins s r).2
          have hstep : Offers P coins cands s (mpoolPolicyAdd P coins s r).2 := .single ⟨r, hr, rfl⟩
          cases hadd : (mpoolPolicyAdd P coins s r).1 with
          | none =>
              -- admitted: the flag is set, and the pass made progress
              have hflags : (offerPass P coins ((r, false) :: cs) s).1 =
                  (r, true) :: (offerPass P coins cs (mpoolPolicyAdd P coins s r).2).1 := by
                simp [offerPass, hadd]
              refine ⟨?_, hstep.trans h.offers, fun r' hr' => ?_, ?_, fun hp => ?_, fun _ => ?_⟩
              · rw [hflags]
                exact congrArg (r :: ·) h.same
              · rw [hflags] at hr'
                rcases List.mem_cons.mp hr' with heq | hr'
                · obtain ⟨rfl, -⟩ := Prod.mk.inj heq
                  exact .inr ⟨s, .refl, hadd, h.offers⟩
                · exact (h.admitted r' hr').imp (List.mem_cons_of_mem _)
                    fun hin => hin.extend hstep .refl
              · rw [hflags, pending_admitted, pending_refused]
                exact h.pending_le.trans (Nat.le_succ _)
              · simp [offerPass, hadd] at hp
              · rw [hflags, pending_admitted, pending_refused]
                exact Nat.lt_succ_of_le h.pending_le
          | some reason =>
              have hflags : (offerPass P coins ((r, false) :: cs) s).1 =
                  (r, false) :: (offerPass P coins cs (mpoolPolicyAdd P coins s r).2).1 := by
                simp [offerPass, hadd]
              have hprogress : (offerPass P coins ((r, false) :: cs) s).2.2 =
                  (offerPass P coins cs (mpoolPolicyAdd P coins s r).2).2.2 := by
                simp [offerPass, hadd]
              have hne : (mpoolPolicyAdd P coins s r).1 ≠ none := by
                rw [hadd]
                exact nofun
              refine ⟨?_, hstep.trans h.offers, fun r' hr' => ?_, ?_, fun hp => ?_, fun hp => ?_⟩
              · rw [hflags]
                exact congrArg (r :: ·) h.same
              · rw [hflags] at hr'
                rcases List.mem_cons.mp hr' with heq | hr'
                · cases heq
                · exact (h.admitted r' hr').imp (List.mem_cons_of_mem _)
                    fun hin => hin.extend hstep .refl
              · rw [hflags, pending_refused, pending_refused]
                exact Nat.succ_le_succ h.pending_le
              · obtain ⟨hquiet, hleft⟩ := h.quiet (hprogress ▸ hp)
                refine ⟨.head ⟨r, hr, hne, rfl⟩ hquiet, fun r' hr' => ?_⟩
                rw [hflags] at hr'
                rcases List.mem_cons.mp hr' with heq | hr'
                · obtain ⟨rfl, -⟩ := Prod.mk.inj heq
                  exact ⟨s, .refl, hne, hquiet⟩
                · exact (hleft r' hr').extend hstep .refl
              · rw [hflags, pending_refused, pending_refused]
                exact Nat.succ_lt_succ (h.moved (hprogress ▸ hp))

/-- Every candidate by its flag at the end, however the passes went. -/
structure LoopDone (P : Policy σ) (coins : Outpoint → Option UInt64) (cands : List Rtx)
    (cs cs' : List (Rtx × Bool)) (s s' : PolState σ) : Prop where
  same : cs'.map Prod.fst = cs.map Prod.fst
  offers : Offers P coins cands s s'
  admitted : ∀ r, (r, true) ∈ cs' → (r, true) ∈ cs ∨ AdmittedIn P coins cands s s' r
  refused : ∀ r, (r, false) ∈ cs' → RefusedLast P coins cands s s' r

/-- One pass more than there are candidates left is enough: each pass before the
last admits one. -/
theorem loopDone (cands : List Rtx) {passes : Nat} {cs : List (Rtx × Bool)}
    (hsub : ∀ x ∈ cs, x.1 ∈ cands) (s : PolState σ) (hpasses : pending cs < passes) :
    LoopDone P coins cands cs (offerLoop P coins passes cs s).1 s
      (offerLoop P coins passes cs s).2 := by
  induction passes generalizing cs s with
  | zero => omega
  | succ passes ih =>
      have h := passDone P coins cands hsub s
      unfold offerLoop
      simp only
      split
      · next hprogress =>
          have hsub' : ∀ x ∈ (offerPass P coins cs s).1, x.1 ∈ cands := by
            intro x hx
            have hx' : x.1 ∈ cs.map Prod.fst := h.same ▸ List.mem_map_of_mem hx
            obtain ⟨y, hy, heq⟩ := List.mem_map.mp hx'
            exact heq ▸ hsub y hy
          have hmoved := h.moved hprogress
          have hrest := ih hsub' (offerPass P coins cs s).2.1 (by omega)
          refine ⟨hrest.same.trans h.same, h.offers.trans hrest.offers, fun r hr => ?_,
            fun r hr => ?_⟩
          · rcases hrest.admitted r hr with hflag | hin
            · exact (h.admitted r hflag).imp_right fun hin => hin.extend .refl hrest.offers
            · exact .inr (hin.extend h.offers .refl)
          · exact (hrest.refused r hr).extend h.offers .refl
      · next hprogress =>
          obtain ⟨-, hleft⟩ := h.quiet (by simpa using hprogress)
          exact ⟨h.same, h.offers, h.admitted, hleft⟩

theorem rebuiltDone (P : Policy σ) (coins : Outpoint → Option UInt64) (memory : σ)
    (cands : List Rtx) :
    LoopDone P coins cands (cands.map (·, false)) (rebuilt P coins memory cands).1
      ⟨P.reset memory, []⟩ (rebuilt P coins memory cands).2 := by
  have hpending : pending (cands.map (·, false)) < cands.length + 1 :=
    Nat.lt_succ_of_le ((List.countP_le_length).trans_eq (List.length_map _))
  refine loopDone cands (fun x hx => ?_) _ hpending
  obtain ⟨r, hr, rfl⟩ := List.mem_map.mp hx
  exact hr

/-! ## The pool left -/

/-- Every input is a coin or another node's output, and neither another node nor a
transaction of the chain spends it; no node is a transaction of the chain. -/
structure FitsChain (c : NewChain) (pool : Pool) : Prop where
  available : ∀ n ∈ pool, ∀ o ∈ n.inputs, (c.coins o).isSome ∨
    ∃ p ∈ pool, p ≠ n ∧ p.txid = o.txid ∧ o.index.toNat < p.rtx.tx.outputs.length
  unspent : ∀ n ∈ pool, ∀ o ∈ n.inputs, (∀ n' ∈ pool, n' ≠ n → o ∉ n'.inputs) ∧
    ∀ t ∈ c.confirmed, t.inputs ≠ [nullOutpoint] → o ∉ t.inputs
  unconfirmed : ∀ n ∈ pool, ∀ t ∈ c.confirmed, n.txid ≠ t.txid

theorem Coherent.fitsChain {c : NewChain} {pool : Pool} (h : Coherent c pool) :
    FitsChain c pool where
  available n hn o ho := by
    rcases h.resolved n hn o ho with hcoin | ⟨p, hp, htxid, hindex, hlink⟩
    · exact .inl hcoin
    · refine .inr ⟨p, hp, fun heq => ?_, htxid, hindex⟩
      subst heq
      exact h.irreflexive p hn hlink
  unspent n hn o ho := by
    constructor
    · intro n' hn' hne
      refine h.exclusive n hn n' hn' (fun heq => hne ?_) o ho
      exact node_eq_of_txid_eq h.nodup hn' hn heq.symm
    · intro t ht hnull hin
      rcases h.resolved n hn o ho with hcoin | ⟨p, hp, htxid, -⟩
      · rw [c.spent t ht o hin] at hcoin
        cases hcoin
      · obtain ⟨q, hq, hqo⟩ := c.parented t ht hnull o hin
        exact h.unconfirmed p hp q hq (htxid.trans hqo.symm)
  unconfirmed := h.unconfirmed

theorem Offers.coherent {c : NewChain} {cands : List Rtx} {s s' : PolState σ}
    (hids : ∀ r ∈ cands, ∀ t ∈ c.confirmed, r.tx.txid = t.txid → r.tx.inputs = t.inputs)
    (h : Offers P c.coins cands s s') (hs : Coherent c s.pool) : Coherent c s'.pool := by
  induction h with
  | refl => exact hs
  | tail _ hstep ih =>
      obtain ⟨r, hr, rfl⟩ := hstep
      exact coherent_mpolAddCore P _ (fun _ ho => ho) ih (hids r hr)

theorem mpoolPolicyAdd_kept {c : NewChain} {s : PolState σ} {r : Rtx} (hs : Coherent c s.pool)
    (h : (mpoolPolicyAdd P c.coins s r).1 ≠ none) :
    Kept s.pool (mpoolPolicyAdd P c.coins s r).2.pool := by
  rcases mpolAddCore_cases P s.memory r (fun _ ho => ho) hs with ⟨reason, -, hkept⟩ | ⟨hnone, -⟩
  · exact hkept
  · exact absurd hnone h

theorem Refusals.kept {c : NewChain} {cands : List Rtx} {s s' : PolState σ}
    (h : Refusals P c.coins cands s s') (hs : Coherent c s.pool) : Kept s.pool s'.pool := by
  induction h with
  | refl => exact Kept.refl s.pool
  | tail _ hstep ih =>
      obtain ⟨r, hr, hne, rfl⟩ := hstep
      exact ih.trans (mpoolPolicyAdd_kept (ih.coherent c hs) hne)

theorem Kept.findOutreg_isSome {pool pool' : Pool} (hkept : Kept pool pool')
    (hnodup : (pool.map Node.txid).Nodup) {o : Outpoint}
    (h : (findOutreg pool' o).isSome) : (findOutreg pool o).isSome := by
  obtain ⟨n', hn', htxid, hindex⟩ := Mempool.findOutreg_isSome h
  obtain ⟨n, hn, hr, -⟩ := hkept.node n' hn'
  have hfind : findNode pool o.txid = some n := by
    have heq : n.txid = o.txid := by rw [← htxid, Node.txid, Node.txid, hr]
    exact heq ▸ findNode_of_mem hnodup hn
  rw [findOutreg, hfind, Option.bind_some, Option.isSome_map, hr]
  simpa using hindex

/-- In the pool at the end; or admitted on the way and displaced by a later offer; or
refused when it was offered last, by a pool that holds what the final one does and
admitted nothing since. -/
def Accounted (P : Policy σ) (coins : Outpoint → Option UInt64) (cands : List Rtx)
    (start final : PolState σ) (r : Rtx) : Prop :=
  r.tx.txid ∈ final.pool.map Node.txid ∨ AdmittedIn P coins cands start final r ∨
    ∃ s, Offers P coins cands start s ∧ (mpoolPolicyAdd P coins s r).1 ≠ none ∧
      Refusals P coins cands (mpoolPolicyAdd P coins s r).2 final ∧
      ∀ o, (findOutreg final.pool o).isSome → (findOutreg s.pool o).isSome

/-! ## What is collected -/

theorem collectTxs_eq {max : Nat} {txs cand : List Rtx} {used : Nat}
    (hslots : cand.length + txs.length ≤ max)
    (harena : used + (txs.map (·.bytes.length)).sum ≤ reorgMempoolArena) :
    collectTxs max txs (cand, used) = (cand ++ txs, used + (txs.map (·.bytes.length)).sum) := by
  induction txs generalizing cand used with
  | nil => simp [collectTxs]
  | cons r rest ih =>
      simp only [List.length_cons, List.map_cons, List.sum_cons] at hslots harena
      unfold collectTxs
      rw [if_neg (by omega), if_neg (by omega), ih (by simp; omega) (by omega)]
      simp [Nat.add_assoc]

theorem collectBlocks_eq {max : Nat} {blocks : List (List Rtx)} {cand : List Rtx} {used : Nat}
    (hslots : cand.length + (blocks.flatMap List.tail).length ≤ max)
    (harena : used + ((blocks.flatMap List.tail).map (·.bytes.length)).sum ≤ reorgMempoolArena) :
    (blocks.foldl (collectBlockTxs max) (cand, used)).1 = cand ++ blocks.flatMap List.tail := by
  induction blocks generalizing cand used with
  | nil => simp
  | cons b blocks ih =>
      simp only [List.flatMap_cons, List.length_append, List.map_append, List.sum_append]
        at hslots harena
      rw [List.foldl_cons, collectBlockTxs, collectTxs_eq (by omega) (by omega),
        ih (by rw [List.length_append]; omega) (by omega), List.flatMap_cons, List.append_assoc]

theorem collectTxs_le (max : Nat) (txs cand : List Rtx) (used : Nat) (h : cand.length ≤ max) :
    (collectTxs max txs (cand, used)).1.length ≤ max ∧
      ∀ r ∈ (collectTxs max txs (cand, used)).1, r ∈ cand ∨ r ∈ txs := by
  induction txs generalizing cand used with
  | nil => exact ⟨h, fun r hr => .inl hr⟩
  | cons x rest ih =>
      unfold collectTxs
      split
      · exact ⟨h, fun r hr => .inl hr⟩
      split
      · exact ⟨h, fun r hr => .inl hr⟩
      obtain ⟨hlen, hmem⟩ := ih (cand ++ [x]) (used + x.bytes.length)
        (by rw [List.length_append, List.length_singleton]; omega)
      refine ⟨hlen, fun r hr => ?_⟩
      rcases hmem r hr with hr | hr
      · rcases List.mem_append.mp hr with hr | hr
        · exact .inl hr
        · exact .inr (List.mem_cons.mpr (.inl (List.mem_singleton.mp hr)))
      · exact .inr (List.mem_cons_of_mem _ hr)

theorem Offers.mem_cands {c : NewChain} {cands : List Rtx} {s s' : PolState σ}
    (hids : ∀ r ∈ cands, ∀ t ∈ c.confirmed, r.tx.txid = t.txid → r.tx.inputs = t.inputs)
    (h : Offers P c.coins cands s s') (hs : Coherent c s.pool)
    (hpool : ∀ n ∈ s.pool, n.rtx ∈ cands) : ∀ n ∈ s'.pool, n.rtx ∈ cands := by
  induction h with
  | refl => exact hpool
  | @tail b _ hbefore hstep ih =>
      obtain ⟨r, hr, rfl⟩ := hstep
      have hb := Offers.coherent hids hbefore hs
      intro n hn
      rcases mpolAddCore_cases P b.memory r (fun _ ho => ho) hb with ⟨reason, -, hkept⟩ |
        ⟨-, evict, pool', -, hkept, -, -, heq⟩
      · obtain ⟨n₀, hn₀, heq, -⟩ := hkept.node n hn
        exact heq ▸ ih n₀ hn₀
      · change n ∈ (mpolAddCore P c.coins b.memory b.pool r).2 at hn
        rw [heq] at hn
        rcases List.mem_append.mp hn with hold | hnew
        · obtain ⟨n₀, hn₀, heq, -⟩ := hkept.node n hold
          exact heq ▸ ih n₀ hn₀
        · obtain rfl := List.mem_singleton.mp hnew
          exact hr

/-- In whatever order the candidates are offered, the pool left fits the new chain
and every candidate is accounted for; the disconnected transactions are all among
them where they fit the slots and the arena. -/
theorem reorgMempoolReconcileEx_accounts (P : Policy σ) (c : NewChain) (s : PolState σ)
    (blocks : List (List Rtx)) {cands : List Rtx}
    (horder : cands.Perm (candidates s.pool blocks))
    (hids : ∀ r ∈ candidates s.pool blocks, ∀ t ∈ c.confirmed,
      r.tx.txid = t.txid → r.tx.inputs = t.inputs) :
    (cands = candidates s.pool blocks →
        (rebuilt P c.coins s.memory cands).2 = reorgMempoolReconcileEx P c.coins s blocks) ∧
      FitsChain c (rebuilt P c.coins s.memory cands).2.pool ∧
      (∀ r ∈ cands, Accounted P c.coins cands ⟨P.reset s.memory, []⟩
        (rebuilt P c.coins s.memory cands).2 r) ∧
      ((blocks.flatMap List.tail).length ≤ reorgMempoolMaxTx →
        ((blocks.flatMap List.tail).map (·.bytes.length)).sum ≤ reorgMempoolArena →
        ∀ b ∈ blocks, ∀ r ∈ b.tail, r ∈ cands) := by
  have hids' : ∀ r ∈ cands, ∀ t ∈ c.confirmed, r.tx.txid = t.txid → r.tx.inputs = t.inputs :=
    fun r hr => hids r (horder.subset hr)
  have hstart : Coherent c (⟨P.reset s.memory, []⟩ : PolState σ).pool := Coherent.nil c
  have h := rebuiltDone P c.coins s.memory cands
  refine ⟨fun heq => by rw [heq]; rfl, (h.offers.coherent hids' hstart).fitsChain,
    fun r hr => ?_, fun hslots harena b hb r hr => ?_⟩
  · have hflag : r ∈ (rebuilt P c.coins s.memory cands).1.map Prod.fst := by
      rw [h.same, List.map_map]
      exact List.mem_map.mpr ⟨r, hr, rfl⟩
    obtain ⟨⟨r', done⟩, hmem, rfl⟩ := List.mem_map.mp hflag
    cases done with
    | true =>
        rcases h.admitted r' hmem with hin | hin
        · obtain ⟨_, -, heq⟩ := List.mem_map.mp hin
          cases heq
        · exact .inr (.inl hin)
    | false =>
        obtain ⟨s₁, hs₁, hne, hquiet⟩ := h.refused r' hmem
        have hcoh := hs₁.coherent hids' hstart
        have hkept := mpoolPolicyAdd_kept hcoh hne
        exact .inr (.inr ⟨s₁, hs₁, hne, hquiet, fun o ho =>
          (hkept.trans (hquiet.kept (hkept.coherent c hcoh))).findOutreg_isSome hcoh.nodup ho⟩)
  · refine horder.symm.subset ?_
    rw [candidates, collectBlocks_eq (by rw [List.length_map]; omega) (by omega)]
    exact List.mem_append_right _ (List.mem_flatMap.mpr ⟨b, hb, hr⟩)

end Rebuild

/-! ## Transactions left out -/

def sampleTxid (n : Nat) : Txid := ⟨leBytes 32 n, length_leBytes 32 n⟩

def sampleRtx (n : Nat) (inputs : List Outpoint) (values : List UInt64) : Rtx :=
  ⟨⟨sampleTxid n, inputs, values.map (⟨·, []⟩)⟩, []⟩

/-- The outputs of transaction 1 are the coins. -/
def sampleChain : NewChain where
  confirmed := [⟨sampleTxid 1, [nullOutpoint], []⟩]
  coins o := if o.txid = sampleTxid 1 then some 1000000 else none
  spent t ht o ho := by
    obtain rfl := List.mem_singleton.mp ht
    obtain rfl := List.mem_singleton.mp ho
    decide
  parented t ht hnull := by
    obtain rfl := List.mem_singleton.mp ht
    exact absurd rfl hnull

def sampleFee (txid : Txid) : Nat := [1000, 200000, 100000, 10000, 100000].getD
  (leVal txid.bytes - 10) 0

/-- Everything is standard and there is room; a replacement pays more than what it
replaces. -/
def samplePolicy : Policy Unit where
  standardChecks _ := none
  feeFloors _ _ _ _ := none
  manyClusters _ _ _ := false
  paysForRbf _ _ r evict :=
    if (evict.map sampleFee).sum < sampleFee r.tx.txid then none else some "insufficient fee"
  limits _ _ _ := none
  linkRoom _ _ _ := true
  clusterCount := 64
  clusterSize _ _ _ _ := true
  truc _ _ _ _ := .ok
  commitChecks _ _ _ _ := none
  storeFull _ _ _ := false
  worstChunk _ _ _ := []
  reset _ := ()
  remember _ _ _ _ := ()

def samplePool : Pool :=
  [⟨sampleRtx 13 [⟨sampleTxid 11, 0⟩, ⟨sampleTxid 1, 0⟩, ⟨sampleTxid 1, 2⟩] [2390000], []⟩,
    ⟨sampleRtx 14 [⟨sampleTxid 1, 2⟩, ⟨sampleTxid 12, 0⟩] [1200000], []⟩]

def sampleBlock : List Rtx :=
  [sampleRtx 2 [nullOutpoint] [5000000000], sampleRtx 10 [⟨sampleTxid 1, 0⟩] [999000],
    sampleRtx 11 [⟨sampleTxid 1, 1⟩] [400000, 400000],
    sampleRtx 12 [⟨sampleTxid 11, 1⟩] [300000]]

/-- One transaction too many for the candidate array, each over a coin of its own. -/
def floodTx (i : Nat) : Rtx := sampleRtx (i + 20) [⟨sampleTxid 1, UInt32.ofNat i⟩] [999000]

def floodBlock : List Rtx :=
  sampleRtx 2 [nullOutpoint] [5000000000] :: (List.range (reorgMempoolMaxTx + 1)).map floodTx

theorem sampleTxid_inj {i j : Nat} (hi : i < 256 ^ 32) (hj : j < 256 ^ 32)
    (h : sampleTxid i = sampleTxid j) : i = j := by
  have hval := congrArg (fun t => leVal t.bytes) h
  simp only [sampleTxid, leVal_leBytes, Nat.mod_eq_of_lt hi, Nat.mod_eq_of_lt hj] at hval
  exact hval

theorem floodTx_inj {i j : Nat} (hi : i ≤ reorgMempoolMaxTx) (hj : j ≤ reorgMempoolMaxTx)
    (h : (floodTx i).tx.txid = (floodTx j).tx.txid) : i = j := by
  simp only [reorgMempoolMaxTx] at hi hj
  have := sampleTxid_inj (by omega) (by omega) h
  omega

theorem floodTx_input_inj {i j : Nat} (hi : i ≤ reorgMempoolMaxTx) (hj : j ≤ reorgMempoolMaxTx)
    (h : (⟨sampleTxid 1, UInt32.ofNat i⟩ : Outpoint) = ⟨sampleTxid 1, UInt32.ofNat j⟩) :
    i = j := by
  simp only [reorgMempoolMaxTx] at hi hj
  have hindex := congrArg UInt32.toNat (Outpoint.mk.inj h).2
  simpa [Nat.mod_eq_of_lt (show i < 4294967296 by omega),
    Nat.mod_eq_of_lt (show j < 4294967296 by omega)] using hindex

theorem sampleTxid_ne_one {i : Nat} (hi : i ≤ reorgMempoolMaxTx) :
    (floodTx i).tx.txid ≠ sampleTxid 1 := by
  simp only [reorgMempoolMaxTx] at hi
  intro h
  have := sampleTxid_inj (by omega) (by omega) h
  omega

theorem candidates_block (block : List Rtx) :
    (candidates [] [block]).length ≤ reorgMempoolMaxTx ∧
      ∀ r ∈ candidates [] [block], r ∈ block.tail := by
  obtain ⟨hlen, hmem⟩ := collectTxs_le (0 + reorgMempoolMaxTx) block.tail [] 0 (Nat.zero_le _)
  exact ⟨hlen.trans_eq (Nat.zero_add _), fun r hr => (hmem r hr).resolve_left List.not_mem_nil⟩

theorem mem_floodCandidates {r : Rtx} (hr : r ∈ candidates [] [floodBlock]) :
    ∃ i ≤ reorgMempoolMaxTx, r = floodTx i := by
  have hmem := (candidates_block floodBlock).2 r hr
  rw [floodBlock, List.tail_cons] at hmem
  obtain ⟨i, hi, rfl⟩ := List.mem_map.mp hmem
  exact ⟨i, Nat.le_of_lt_succ (List.mem_range.mp hi), rfl⟩

/-- A flood transaction the pool does not hold is one it would admit. -/
theorem flood_admitted {s : PolState Unit} {pool : Pool} (hs : s.pool = pool)
    (hpool : ∀ n ∈ pool, ∃ i ≤ reorgMempoolMaxTx, n.rtx = floodTx i) {i : Nat}
    (hi : i ≤ reorgMempoolMaxTx) (hout : (floodTx i).tx.txid ∉ pool.map Node.txid) :
    (mpoolPolicyAdd samplePolicy sampleChain.coins s (floodTx i)).1 = none := by
  have hnode : findNode pool (sampleTxid 1) = none := by
    rw [← Option.not_isSome_iff_eq_none, findNode_isSome]
    intro hmem
    obtain ⟨n, hn, htxid⟩ := List.mem_map.mp hmem
    obtain ⟨j, hj, hr⟩ := hpool n hn
    exact sampleTxid_ne_one hj (by rw [← htxid, Node.txid, hr])
  have hfresh : findNode pool (floodTx i).tx.txid = none := by
    rw [← Option.not_isSome_iff_eq_none, findNode_isSome]
    exact hout
  have hclaim : findClaim pool ⟨sampleTxid 1, UInt32.ofNat i⟩ = none := by
    rw [findClaim, Option.map_eq_none_iff, List.find?_eq_none]
    intro n hn hin
    obtain ⟨j, hj, hr⟩ := hpool n hn
    have hin' : (⟨sampleTxid 1, UInt32.ofNat i⟩ : Outpoint) ∈ (floodTx j).tx.inputs := by
      rw [← hr]
      exact of_decide_eq_true hin
    obtain rfl := floodTx_input_inj hi hj (List.mem_singleton.mp hin')
    exact hout (List.mem_map.mpr ⟨n, hn, by rw [Node.txid, hr]⟩)
  have hinputs : (floodTx i).tx.inputs = [⟨sampleTxid 1, UInt32.ofNat i⟩] := rfl
  have hparents : collectParents pool (floodTx i).tx.inputs = [] := by
    simp [hinputs, collectParents, hnode, unseen]
  have hsum : resolveInputs sampleChain.coins pool (floodTx i).tx.inputs = some 1000000 := by
    simp [hinputs, resolveInputs, findOutreg, hnode, sampleChain]
  have hconf : conflicts pool (floodTx i).tx.inputs = [] := by
    simp [hinputs, conflicts, hclaim, unseen]
  have hchecks : admissionChecks samplePolicy sampleChain.coins () pool (floodTx i) = .ok [] := by
    have hhead : (floodTx i).tx.inputs.head? ≠ some nullOutpoint := by
      rw [hinputs]
      intro h
      have htxid : sampleTxid 1 = nullOutpoint.txid := congrArg Outpoint.txid (Option.some.inj h)
      exact absurd htxid (by decide)
    have houts : (floodTx i).tx.outputs = [⟨999000, []⟩] := rfl
    have hcluster : clusterChecks samplePolicy () pool (floodTx i) [] = none := by
      simp [clusterChecks, hparents, samplePolicy, clusterOf, search, worklist]
    have hrep : replacementChecks samplePolicy () pool (floodTx i) = .ok [] := by
      simp [replacementChecks, hconf]
    have htruc : trucChecks samplePolicy () pool (floodTx i) [] = .ok [] := rfl
    unfold admissionChecks
    rw [if_neg (by simp [hinputs, houts, mpolMaxIn]), if_neg hhead, hfresh, hsum, hrep]
    simp only [houts, bind, Except.bind, hcluster, htruc]
    rfl
  rw [mpoolPolicyAdd, hs, mpolAddCore, hchecks]
  simp only [removeNodes, List.foldl_nil, lt_irrefl, if_false]
  cases pool with
  | nil => rfl
  | cons n pool => rfl

/-- As many candidates as there are slots: one of the flood is left out. -/
theorem exists_flood_left {pool : Pool} (hnodup : (pool.map Node.txid).Nodup)
    (hpool : ∀ n ∈ pool, n.rtx ∈ candidates [] [floodBlock]) :
    ∃ i ≤ reorgMempoolMaxTx, (floodTx i).tx.txid ∉ pool.map Node.txid := by
  by_contra hall
  have hall' : ∀ i ∈ List.range (reorgMempoolMaxTx + 1),
      (floodTx i).tx.txid ∈ pool.map Node.txid := by
    intro i hi
    by_contra hout
    exact hall ⟨i, Nat.le_of_lt_succ (List.mem_range.mp hi), hout⟩
  have hids : ((List.range (reorgMempoolMaxTx + 1)).map fun i => (floodTx i).tx.txid).Nodup := by
    refine List.Nodup.map_on (fun i hi j hj h => ?_) List.nodup_range
    exact floodTx_inj (Nat.le_of_lt_succ (List.mem_range.mp hi))
      (Nat.le_of_lt_succ (List.mem_range.mp hj)) h
  have hle : reorgMempoolMaxTx + 1 ≤ pool.length := by
    have hsub : ((List.range (reorgMempoolMaxTx + 1)).map fun i => (floodTx i).tx.txid) ⊆
        pool.map Node.txid := by
      intro x hx
      obtain ⟨i, hi, rfl⟩ := List.mem_map.mp hx
      exact hall' i hi
    simpa using (List.subperm_of_subset hids hsub).length_le
  have hcands := (candidates_block floodBlock).1
  have hfew : pool.length ≤ (candidates [] [floodBlock]).length := by
    have hsub : pool.map Node.txid ⊆ (candidates [] [floodBlock]).map fun r => r.tx.txid := by
      intro x hx
      obtain ⟨n, hn, rfl⟩ := List.mem_map.mp hx
      exact List.mem_map.mpr ⟨n.rtx, hpool n hn, rfl⟩
    simpa using (List.subperm_of_subset hnodup hsub).length_le
  omega

theorem sampleIds_ok (cands : List Rtx)
    (h : ∀ r ∈ cands, r.tx.txid ≠ sampleTxid 1) :
    ∀ r ∈ cands, ∀ t ∈ sampleChain.confirmed, r.tx.txid = t.txid → r.tx.inputs = t.inputs := by
  intro r hr t ht heq
  obtain rfl := List.mem_singleton.mp ht
  exact absurd heq (h r hr)

theorem flood_not_one : ∀ r ∈ candidates [] [floodBlock], r.tx.txid ≠ sampleTxid 1 := by
  intro r hr
  obtain ⟨i, hi, rfl⟩ := mem_floodCandidates hr
  exact sampleTxid_ne_one hi

/-- Two disconnected transactions over coins of the new chain that the rebuilt pool
would admit and does not hold: one was never collected; the other was admitted, replaced
by a transaction that was replaced in turn, and not offered again. -/
theorem reconcile_leaves_admissible :
    (∃ r ∈ floodBlock.tail, (∀ o ∈ r.tx.inputs, (sampleChain.coins o).isSome) ∧
      r.tx.txid ∉ (reorgMempoolReconcileEx samplePolicy sampleChain.coins ⟨(), []⟩
        [floodBlock]).pool.map Node.txid ∧
      (mpoolPolicyAdd samplePolicy sampleChain.coins (reorgMempoolReconcileEx samplePolicy
        sampleChain.coins ⟨(), []⟩ [floodBlock]) r).1 = none) ∧
    ∃ r ∈ sampleBlock.tail, (∀ o ∈ r.tx.inputs, (sampleChain.coins o).isSome) ∧
      r.tx.txid ∉ (reorgMempoolReconcileEx samplePolicy sampleChain.coins ⟨(), samplePool⟩
        [sampleBlock]).pool.map Node.txid ∧
      (mpoolPolicyAdd samplePolicy sampleChain.coins (reorgMempoolReconcileEx samplePolicy
        sampleChain.coins ⟨(), samplePool⟩ [sampleBlock]) r).1 = none := by
  constructor
  · have hids := sampleIds_ok _ flood_not_one
    have h := rebuiltDone samplePolicy sampleChain.coins () (candidates [] [floodBlock])
    have hcoh := h.offers.coherent hids (Coherent.nil sampleChain)
    have hpool := h.offers.mem_cands hids (Coherent.nil sampleChain)
      (fun n hn => absurd hn List.not_mem_nil)
    obtain ⟨i, hi, hout⟩ := exists_flood_left hcoh.nodup hpool
    have hfinal : reorgMempoolReconcileEx samplePolicy sampleChain.coins ⟨(), []⟩ [floodBlock] =
        (rebuilt samplePolicy sampleChain.coins () (candidates [] [floodBlock])).2 := by
      rw [reorgMempoolReconcileEx]
    rw [hfinal]
    refine ⟨floodTx i, ?_, ?_, hout, ?_⟩
    · rw [floodBlock, List.tail_cons]
      exact List.mem_map_of_mem (List.mem_range.mpr (Nat.lt_succ_of_le hi))
    · intro o ho
      obtain rfl := List.mem_singleton.mp ho
      rfl
    · exact flood_admitted rfl (fun n hn => mem_floodCandidates (hpool n hn)) hi hout
  · refine ⟨sampleRtx 10 [⟨sampleTxid 1, 0⟩] [999000], by simp [sampleBlock], ?_, ?_, ?_⟩
    · decide
    · decide
    · decide

/-- The sample rebuild, in its own order. -/
theorem reorgMempoolReconcileEx_accounts_sample :
    FitsChain sampleChain (reorgMempoolReconcileEx samplePolicy sampleChain.coins
      ⟨(), samplePool⟩ [sampleBlock]).pool := by
  have hids := sampleIds_ok (candidates samplePool [sampleBlock]) (by decide)
  have h := reorgMempoolReconcileEx_accounts samplePolicy sampleChain ⟨(), samplePool⟩
    [sampleBlock] (List.Perm.refl _) hids
  exact h.1 rfl ▸ h.2.1

end BitcoinMachineCode.Mempool
