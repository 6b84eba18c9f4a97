import BitcoinMachineCode.Storage.PartialApply

/-!
# A block whose apply fails

One undo append, coin delete or coin put of a block's walk fails.  Unless the
failing append left part of its record, the rollback gives the old coin set
back.  A partial record makes the strict replay refuse the run, and then the
coins spent before it are not restored.
-/

namespace BitcoinMachineCode.Storage

open BitcoinMachineCode.Foundation

variable {h : Nat} {S : CoinSet} {recs : List UndoRec} {ks : List Outpoint}
variable {st₀ st : Live} {bytes : List UInt8}

/-! ## The walk around a failure -/

theorem liveOnOutput_frame {fault : Option OpFault} {o : Outpoint} {out : TxOut}
    {isCoinbase : Bool} {k : Outpoint}
    (hk : k ∉ created [.output o out isCoinbase]) :
    (liveOnOutput h fault st o out isCoinbase).1.coins k = st.coins k := by
  simp only [liveOnOutput]
  cases hcoin : outputCoin h isCoinbase out with
  | none => rfl
  | some c =>
      have hko : k ≠ o := by
        rintro rfl
        apply hk
        rw [created, List.mem_filterMap]
        exact ⟨_, List.mem_cons_self, by
          rw [created_output h, hcoin]
          rfl⟩
      have hput : st.coins.put o c k = st.coins k :=
        PMap.put_of_ne st.coins c hko
      have hover : (st.coins.del o).put o c k = st.coins k := by
        rw [PMap.del_put, hput]
      rcases fault with _ | n | took | took
      · simp only
        split_ifs <;> first | rfl | assumption
      · simp only
        split_ifs <;> first | rfl | assumption
      · simp only
        split_ifs <;> first | rfl | assumption
      · cases took
        · rfl
        · exact hput

theorem runEvents_outputs_frame {faults : Faults} {pos : Nat}
    {outs : List WalkEvent}
    (houts : ∀ e ∈ outs, ∃ o out isCoinbase, e = .output o out isCoinbase)
    {k : Outpoint} (hk : k ∉ created outs) :
    (runEvents h faults pos outs st).1.coins k = st.coins k := by
  induction outs generalizing st pos with
  | nil => rfl
  | cons e outs ih =>
      rw [← List.singleton_append, created_append, List.mem_append, not_or]
        at hk
      obtain ⟨o, out, isCoinbase, rfl⟩ := houts e List.mem_cons_self
      simp only [runEvents]
      rw [ih (fun e' he' => houts e' (List.mem_cons_of_mem _ he')) hk.2]
      exact liveOnOutput_frame hk.1

/-- Inputs that are there on a set are there on a larger one. -/
theorem validOn_inputs_mono {s t : CoinSet} {ins : List Outpoint}
    (hv : ValidOn h t (ins.map WalkEvent.input))
    (hsup : ∀ x c, t x = some c → s x = some c) :
    ValidOn h s (ins.map WalkEvent.input) := by
  induction ins generalizing s t with
  | nil => trivial
  | cons o ins ih =>
      obtain ⟨ho, hrest⟩ := hv
      refine ⟨ho.imp_right fun ⟨c, hc⟩ => ⟨c, hsup o c hc⟩, ih hrest ?_⟩
      intro x c hx
      simp only [applyEvent] at hx ⊢
      split_ifs at hx ⊢ with hnull
      · exact hsup x c hx
      · rw [PMap.del_apply] at hx ⊢
        split_ifs at hx ⊢ with hxo
        exact hsup x c hx

/-- The blocks' leading transactions, before any failure. -/
theorem applyTxs_leading (env : ApplyEnv) (txs done pre rest : List Tx)
    (pos : Nat)
    (hnone : ∀ p, pos ≤ p → p < pos + (walkFrom done.length pre).length →
      env.ops p = none)
    (hw : ∀ ks, (∀ o ∈ created (walkBlockTxs done), o ∈ ks) →
      Walked h st₀ st recs ks (encodeAll UndoRec.encode recs))
    (hv : ValidOn h st.coins (walkFrom done.length pre)) :
    ∃ st', applyTxs h env txs done.length pos (pre ++ rest) st =
        applyTxs h env txs (done ++ pre).length
          (pos + (walkFrom done.length pre).length) rest st' ∧
      st'.coins = applyEvents h st.coins (walkFrom done.length pre) ∧
      ∀ ks, (∀ o ∈ created (walkBlockTxs (done ++ pre)), o ∈ ks) →
        Walked h st₀ st'
          (recs ++ spentRecs h st.coins (walkFrom done.length pre)) ks
          (encodeAll UndoRec.encode
            (recs ++ spentRecs h st.coins (walkFrom done.length pre))) := by
  induction pre generalizing st recs done pos with
  | nil =>
      refine ⟨st, by simp [walkFrom], rfl, ?_⟩
      simpa [walkFrom, spentRecs] using hw
  | cons tx pre ih =>
      rw [walkFrom, validOn_append] at hv
      simp only [walkFrom, List.length_append] at hnone
      have hwalk : walkBlockTxs (done ++ [tx]) =
          walkBlockTxs done ++ walkTxIo (done.length == 0) tx := by
        simp [walkBlockTxs, walkFrom_append, walkFrom]
      have hlen : (done ++ [tx]).length = done.length + 1 := by simp
      have hfatal : (runEvents h env.ops pos (walkTxIo (done.length == 0) tx)
          st).2 = false :=
        runEvents_healthy (fun p hlow hhigh => hnone p hlow (by omega))
          (hw _ fun o ho => ho).run hv.1
      obtain ⟨⟨hcoins, -⟩, -⟩ :=
        runEvents_clean (hw _ fun o ho => ho).run hfatal
      have hw' : ∀ ks, (∀ o ∈ created (walkBlockTxs (done ++ [tx])), o ∈ ks) →
          Walked h st₀ _ _ ks _ := fun ks hks => by
        rw [hwalk, created_append] at hks
        exact (hw ks fun o ho => hks o (List.mem_append_left _ ho)).clean hfatal
          fun o ho => hks o (List.mem_append_right _ ho)
      simp only [← encodeAll_append] at hw'
      have hnone' : ∀ p, pos + (walkTxIo (done.length == 0) tx).length ≤ p →
          p < pos + (walkTxIo (done.length == 0) tx).length +
            (walkFrom (done ++ [tx]).length pre).length → env.ops p = none := by
        intro p hlow hhigh
        rw [hlen] at hhigh
        exact hnone p (by omega) (by omega)
      obtain ⟨st', heq, hst', hwst'⟩ := ih (done ++ [tx]) _ hnone' hw' (by
        rw [hcoins, hlen]
        exact hv.2)
      refine ⟨st', ?_, ?_, ?_⟩
      · simp only [List.cons_append, applyTxs, hfatal, Bool.false_eq_true,
          if_false]
        rw [← hlen, heq]
        simp only [walkFrom, List.length_append, hlen, List.append_assoc,
          List.singleton_append, List.length_cons, Nat.add_assoc]
      · rw [hst', hcoins, hlen, walkFrom, applyEvents_append]
      · intro ks hks
        have hfinal := hwst' ks (by simpa using hks)
        rw [hcoins, hlen] at hfinal
        simpa only [walkFrom, spentRecs_append, List.append_assoc] using hfinal


/-- A failing event ends its transaction's walk and brings the rollback. -/
theorem applyTxs_reach (env : ApplyEnv) {pre : List Tx} (post : List Tx)
    {tx : Tx} {es₁ es₂ : List WalkEvent} {e : WalkEvent}
    (hevs : walkTxIo (pre.length == 0) tx = es₁ ++ e :: es₂)
    (hnone : ∀ p, p < (walkBlockTxs pre ++ es₁).length → env.ops p = none)
    (hw : ∀ ks, Walked h st₀ st [] ks []) (hcoins₀ : st.coins = st₀.coins)
    (hv : ValidOn h st₀.coins (walkBlockTxs pre ++ es₁)) :
    ∃ st₁, st₁.coins = applyEvents h st₀.coins (walkBlockTxs pre ++ es₁) ∧
      (∀ ks, (∀ x ∈ created (walkBlockTxs pre ++ es₁), x ∈ ks) →
        Walked h st₀ st₁ (spentRecs h st₀.coins (walkBlockTxs pre ++ es₁)) ks
          (encodeAll UndoRec.encode
            (spentRecs h st₀.coins (walkBlockTxs pre ++ es₁)))) ∧
      ((liveOnEvent h (env.ops (walkBlockTxs pre ++ es₁).length) st₁ e).2 =
          true →
        applyTxs h env (pre ++ tx :: post) 0 0 (pre ++ tx :: post) st =
          (rollbackPartialApply h (pre ++ [tx]) env.rollbackHookOk
            (runEvents h env.ops (walkBlockTxs pre ++ es₁).length (e :: es₂)
              st₁).1, false)) := by
  rw [validOn_append] at hv
  simp only [List.length_append] at hnone ⊢
  -- the transactions before
  obtain ⟨st₂, heq, hcoins₂, hw₂⟩ := applyTxs_leading env (pre ++ tx :: post) []
    pre (tx :: post) 0
    (fun p _ hp => hnone p (by
      simp only [walkBlockTxs, List.length_nil, Nat.zero_add] at hp ⊢
      omega))
    (fun ks _ => hw ks) (by rw [hcoins₀]; exact hv.1)
  simp only [List.length_nil, List.nil_append, Nat.zero_add, hcoins₀]
    at heq hcoins₂ hw₂
  rw [← walkBlockTxs] at heq hcoins₂ hw₂
  -- the events before, in the same transaction
  have hclean : (runEvents h env.ops (walkBlockTxs pre).length es₁ st₂).2 =
      false :=
    runEvents_healthy (fun p _ hp => hnone p hp) (hw₂ _ fun x hx => hx).run
      (by rw [hcoins₂]; exact hv.2)
  refine ⟨(runEvents h env.ops (walkBlockTxs pre).length es₁ st₂).1, ?_, ?_, ?_⟩
  · obtain ⟨⟨hcoins, -⟩, -⟩ := runEvents_clean (hw₂ _ fun x hx => hx).run hclean
    rw [hcoins, hcoins₂, applyEvents_append]
  · intro ks hks
    rw [created_append] at hks
    have hclean' := (hw₂ ks fun x hx => hks x (List.mem_append_left _ hx)).clean
      hclean fun x hx => hks x (List.mem_append_right _ hx)
    rw [hcoins₂, ← encodeAll_append, ← spentRecs_append] at hclean'
    exact hclean'
  · intro hfatal
    have htake : (pre ++ tx :: post).take (pre.length + 1) = pre ++ [tx] := by
      rw [List.take_length_add_append]
      rfl
    rw [heq, applyTxs, hevs, runEvents_append, hclean]
    simp only [runEvents, hfatal, Bool.true_or, Bool.or_true, if_true, htake]

/-- The run behind an append that wrote `n` bytes of its record: the inputs
that follow in the same transaction still write theirs. -/
def cutRun (before after : List UndoRec) (r : UndoRec) (n : Nat) :
    List UInt8 :=
  encodeAll UndoRec.encode before ++ r.encode.take n ++
    encodeAll UndoRec.encode after

theorem applyTxs_cut {env : ApplyEnv} {pre post : List Tx} {tx : Tx}
    {ins₁ ins₂ : List Outpoint} {o : Outpoint} {c : Coin} {n : Nat}
    {before : List WalkEvent}
    (hbefore : before = walkBlockTxs pre ++ ins₁.map WalkEvent.input)
    (hops : env.ops = fun p =>
      if p = before.length then some (.append n) else none)
    (hins : tx.inputs = ins₁ ++ o :: ins₂) (ho : o ≠ nullOutpoint)
    (hw : ∀ ks, Walked h st₀ st [] ks []) (hcoins₀ : st.coins = st₀.coins)
    (hv : BlockValid h st₀.coins (pre ++ tx :: post))
    (hc : applyEvents h st₀.coins before o = some c) :
    Undone h st₀ (applyTxs h env (pre ++ tx :: post) 0 0 (pre ++ tx :: post)
        st).1.undoCloseCurrent ↔
      ReadsBack st₀.coins
        (spentRecs h st₀.coins before ++
          spentRecs h (applyEvents h st₀.coins before)
            (ins₂.map WalkEvent.input))
        (created (walkBlockTxs (pre ++ [tx])))
        (strictRead (cutRun (spentRecs h st₀.coins before)
          (spentRecs h (applyEvents h st₀.coins before)
            (ins₂.map WalkEvent.input)) ⟨o, c⟩ n)) := by
  generalize hafter : ins₂.map WalkEvent.input = after
  have hevs : walkTxIo (pre.length == 0) tx = ins₁.map WalkEvent.input ++
      .input o :: (after ++ outputEvents (pre.length == 0) tx) := by
    rw [walkTxIo_eq, hins, List.map_append, List.map_cons, List.append_assoc,
      hafter]
    rfl
  have hwalk : walkBlockTxs (pre ++ tx :: post) =
      before ++ (.input o :: (after ++
        (outputEvents (pre.length == 0) tx ++ walkFrom (pre.length + 1) post)))
      := by
    rw [walkBlockTxs, walkFrom_append, walkFrom, Nat.zero_add, hevs, hbefore]
    simp [walkBlockTxs]
  have hvalid := hv.valid
  rw [hwalk, validOn_append, ValidOn, validOn_append] at hvalid
  obtain ⟨hvbefore, -, hvafter, -⟩ := hvalid
  have hnone : ∀ p, p < before.length → env.ops p = none := by
    intro p hp
    rw [hops]
    exact if_neg (by omega)
  have hat : env.ops before.length = some (.append n) := by
    rw [hops]
    exact if_pos rfl
  rw [hbefore] at hvbefore hnone hat
  obtain ⟨st₁, hcoins₁, hw₁, hreach⟩ :=
    applyTxs_reach env post hevs hnone hw hcoins₀ hvbefore
  rw [← hbefore] at hcoins₁ hw₁ hreach hat
  have hc₁ : st₁.coins o = some c := by rw [hcoins₁, hc]
  -- the failing input
  generalize hst₂ : { st₁ with
    undo := (st₁.undo.undoAppendRecord h ⟨o, c⟩ (.short n)).1 } = st₂
  have hcoins₂ : st₂.coins = st₁.coins := by rw [← hst₂]
  have hstep : liveOnEvent h (some (.append n)) st₁ (.input o) =
      (st₂, true) := by
    simp [liveOnEvent, liveOnInput, ho, hc₁, hst₂]
  have hw₂ : ∀ ks, (∀ x ∈ created before, x ∈ ks) → Walked h st₀ st₂ _ ks _ :=
    fun ks hks => hst₂ ▸ (hw₁ ks hks).short ⟨o, c⟩ n
  -- the inputs behind it
  have hclean : (runEvents h env.ops (before.length + 1) after st₂).2 =
      false := by
    refine runEvents_healthy ?_ (hw₂ _ fun x hx => hx).run ?_
    · intro p hlow _
      rw [hops]
      exact if_neg (by omega)
    · rw [hcoins₂, hcoins₁, ← hafter]
      rw [← hafter] at hvafter
      refine validOn_inputs_mono hvafter fun x d hx => ?_
      simp only [applyEvent, if_neg ho, PMap.del_apply] at hx
      split_ifs at hx
      exact hx
  generalize hst₃ : (runEvents h env.ops (before.length + 1) after st₂).1 = st₃
  have hcoins₃ : st₃.coins = applyEvents h st₀.coins (before ++ after) := by
    obtain ⟨⟨hcoins, -⟩, -⟩ := runEvents_clean (hw₂ _ fun x hx => hx).run hclean
    rw [← hst₃, hcoins, hcoins₂, hcoins₁, applyEvents_append]
  have hafter₀ : created after = [] := by rw [← hafter, created_inputs]
  have hcreated : created (walkBlockTxs (pre ++ [tx])) =
      created before ++ created (outputEvents (pre.length == 0) tx) := by
    rw [walkBlockTxs, walkFrom_append, walkFrom, walkFrom, Nat.zero_add,
      walkTxIo_eq, hbefore]
    simp only [created_append, created_inputs, List.append_nil, List.nil_append,
      walkBlockTxs]
  have hw₃ : Walked h st₀
      (runEvents h env.ops (before.length + 1 + after.length)
        (outputEvents (pre.length == 0) tx) st₃).1
      (spentRecs h st₀.coins before ++
        spentRecs h (applyEvents h st₀.coins before) after)
      (created (walkBlockTxs (pre ++ [tx])))
      (cutRun (spentRecs h st₀.coins before)
        (spentRecs h (applyEvents h st₀.coins before) after) ⟨o, c⟩ n) := by
    refine Walked.outputs ?_ (fun e he => mem_outputEvents he) ?_
    · have hrest := (hw₂ (created (walkBlockTxs (pre ++ [tx]))) fun x hx => by
        rw [hcreated]
        exact List.mem_append_left _ hx).clean hclean (by simp [hafter₀])
      rwa [hst₃, hcoins₂, hcoins₁] at hrest
    · rw [hcreated]
      exact fun x hx => List.mem_append_right _ hx
  rw [hreach (by rw [hat, hstep])]
  simp only [runEvents, hat, hstep, runEvents_append, hst₃]
  refine hw₃.rollback_iff ?_ ?_ env.rollbackHookOk
  · intro k hk
    apply hv.fresh
    rw [List.append_cons, walkBlockTxs, walkFrom_append, created_append]
    exact List.mem_append_left _ hk
  · -- a spent coin is absent, and no output of the block brings it back
    intro r hr hks
    rw [hcreated, List.mem_append, not_or] at hks
    rw [runEvents_outputs_frame (fun e he => mem_outputEvents he) hks.2,
      hcoins₃]
    rw [← spentRecs_append] at hr
    apply applyEvents_spent hr
    rw [created_append, hafter₀, List.append_nil]
    exact hks.1

/-! ## Positions -/

/-- The transaction an event of the walk belongs to, and the event's number in
it. -/
def txAt : List Tx → Nat → Nat × Nat
  | [], pos => (0, pos)
  | tx :: rest, pos =>
      let len := tx.inputs.length + tx.outputs.length
      if pos < len then (0, pos)
      else
        let p := txAt rest (pos - len)
        (p.1 + 1, p.2)

/-- The inputs behind an event, in the same transaction. -/
def inputsBehind (txs : List Tx) (pos : Nat) : List Outpoint :=
  match txs[(txAt txs pos).1]? with
  | none => []
  | some tx => tx.inputs.drop ((txAt txs pos).2 + 1)

/-- The transactions up to the one an event belongs to. -/
def txsUpTo (txs : List Tx) (pos : Nat) : List Tx :=
  txs.take ((txAt txs pos).1 + 1)

@[simp] theorem length_walkTxIo (isCoinbase : Bool) (tx : Tx) :
    (walkTxIo isCoinbase tx).length =
      tx.inputs.length + tx.outputs.length := by
  simp [walkTxIo]

theorem walkFrom_at {t pos : Nat} {txs : List Tx} {e : WalkEvent}
    (hat : (walkFrom t txs)[pos]? = some e) :
    ∃ pre tx post es₁ es₂, txs = pre ++ tx :: post ∧
      walkTxIo (t + pre.length == 0) tx = es₁ ++ e :: es₂ ∧
      pos = (walkFrom t pre ++ es₁).length ∧
      txAt txs pos = (pre.length, es₁.length) := by
  induction txs generalizing t pos with
  | nil => simp [walkFrom] at hat
  | cons tx rest ih =>
      rw [walkFrom, List.getElem?_append] at hat
      split at hat
      · rename_i hlt
        obtain ⟨hlt', hget⟩ := List.getElem?_eq_some_iff.mp hat
        refine ⟨[], tx, rest, (walkTxIo (t == 0) tx).take pos,
          (walkTxIo (t == 0) tx).drop (pos + 1), rfl, ?_, ?_, ?_⟩
        · rw [← hget, List.cons_getElem_drop_succ, List.take_append_drop]
          rfl
        · simp only [walkFrom, List.nil_append, List.length_take]
          omega
        · rw [length_walkTxIo] at hlt'
          simp [txAt, hlt', List.length_take]
          omega
      · rename_i hge
        obtain ⟨pre, tx', post, es₁, es₂, hrest, hevs, hpos, hidx⟩ := ih hat
        rw [length_walkTxIo] at hge hpos hidx
        refine ⟨tx :: pre, tx', post, es₁, es₂, by rw [hrest]; rfl, ?_, ?_, ?_⟩
        · rw [← hevs, List.length_cons]
          congr 2
          omega
        · simp only [walkFrom, List.append_assoc, List.length_append,
            length_walkTxIo] at hpos ⊢
          omega
        · simp [txAt, hge, hidx]

/-- The inputs around an input event. -/
theorem walkTxIo_input {isCoinbase : Bool} {tx : Tx} {es₁ es₂ : List WalkEvent}
    {o : Outpoint} (hevs : walkTxIo isCoinbase tx = es₁ ++ .input o :: es₂) :
    ∃ ins₁ ins₂, tx.inputs = ins₁ ++ o :: ins₂ ∧
      es₁ = ins₁.map WalkEvent.input := by
  have hout : WalkEvent.input o ∉ outputEvents isCoinbase tx := by
    intro hmem
    obtain ⟨_, _, _, hbad⟩ := mem_outputEvents hmem
    cases hbad
  rw [walkTxIo_eq, List.append_eq_append_iff] at hevs
  obtain ⟨es, -, hes⟩ | ⟨es, hins, hes⟩ := hevs
  · exact absurd (hes ▸ by simp) hout
  · cases es with
    | nil =>
        rw [List.nil_append] at hes
        exact absurd (hes ▸ List.mem_cons_self) hout
    | cons e es =>
        obtain ⟨rfl, -⟩ := List.cons.inj hes
        obtain ⟨ins₁, ins₃, hsplit, rfl, hmap⟩ := List.map_eq_append_iff.mp hins
        obtain ⟨o', ins₂, rfl, ho', -⟩ := List.map_eq_cons_iff.mp hmap
        cases ho'
        exact ⟨ins₁, ins₂, hsplit, rfl⟩

theorem take_walkBlockTxs {pre : List Tx} (post : List Tx) {tx : Tx}
    {es₁ es₂ : List WalkEvent} {e : WalkEvent}
    (hevs : walkTxIo (pre.length == 0) tx = es₁ ++ e :: es₂) :
    ∃ es₃, walkBlockTxs (pre ++ tx :: post) =
        walkBlockTxs pre ++ es₁ ++ e :: es₃ ∧
      (walkBlockTxs (pre ++ tx :: post)).take
        (walkBlockTxs pre ++ es₁).length = walkBlockTxs pre ++ es₁ := by
  have hwalk : walkBlockTxs (pre ++ tx :: post) = walkBlockTxs pre ++ es₁ ++
      (e :: (es₂ ++ walkFrom (pre.length + 1) post)) := by
    rw [walkBlockTxs, walkFrom_append, walkFrom, Nat.zero_add, hevs]
    simp [walkBlockTxs]
  exact ⟨_, hwalk, by rw [hwalk, List.take_left]⟩

/-- The transactions and inputs around an input of the walk. -/
theorem walkBlockTxs_input {txs : List Tx} {pos : Nat} {o : Outpoint}
    (hat : (walkBlockTxs txs)[pos]? = some (.input o)) :
    ∃ pre tx post ins₁, txs = pre ++ tx :: post ∧
      tx.inputs = ins₁ ++ o :: inputsBehind txs pos ∧
      txsUpTo txs pos = pre ++ [tx] ∧
      (walkBlockTxs txs).take pos =
        walkBlockTxs pre ++ ins₁.map WalkEvent.input ∧
      pos = ((walkBlockTxs txs).take pos).length := by
  obtain ⟨pre, tx, post, es₁, es₂, htxs, hevs, hpos, hidx⟩ := walkFrom_at hat
  rw [Nat.zero_add] at hevs
  rw [← walkBlockTxs] at hpos
  obtain ⟨ins₁, ins₂, hins, rfl⟩ := walkTxIo_input hevs
  obtain ⟨-, -, htake⟩ := take_walkBlockTxs post hevs
  rw [← hpos, ← htxs] at htake
  refine ⟨pre, tx, post, ins₁, htxs, ?_, ?_, htake, htake ▸ hpos⟩
  · have hget : txs[pre.length]? = some tx := by simp [htxs]
    rw [inputsBehind, hidx]
    simp only [hget, hins, List.length_map]
    rw [← List.drop_drop, List.drop_left, List.drop_one, List.tail_cons]
  · rw [txsUpTo, hidx, htxs, List.take_length_add_append]
    rfl

/-! ## One failing operation -/

/-- A worker between blocks. -/
structure Idle (st : Live) : Prop where
  wellFormed : st.undo.WellFormed
  closed : st.undo.fd = none
  consistent : st.inconsistent = false

/-- What the block is verified on and applied to: a ghost of an earlier attempt
at the height has been rolled back. -/
def afterGhost (h : Nat) (blk : Block) (st : Live) : Live :=
  guarded h .healthy blk st

/-- One operation of the walk fails, and perhaps the drain before the rollback
clears the slot. -/
def ApplyEnv.failing (pos : Nat) (fault : OpFault) (hookOk : Bool) : ApplyEnv :=
  { ApplyEnv.healthy with
    ops := fun p => if p = pos then some fault else none
    rollbackHookOk := hookOk }

/-- The operation at a position can fail this way: an append that lands less
than its record and a delete at a spend, a put at a stored output. -/
def OpFault.Fits (h : Nat) (S : CoinSet) (evs : List WalkEvent) (pos : Nat) :
    OpFault → Prop
  | .append n => ∃ o c, evs[pos]? = some (.input o) ∧ o ≠ nullOutpoint ∧
      applyEvents h S (evs.take pos) o = some c ∧
      n < (UndoRec.mk o c).encode.length
  | .del _ => ∃ o, evs[pos]? = some (.input o) ∧ o ≠ nullOutpoint
  | .put _ => ∃ o out isCoinbase c,
      evs[pos]? = some (.output o out isCoinbase) ∧
      outputCoin h isCoinbase out = some c

/-- The coins spent before a position of the walk. -/
def spentBefore (h : Nat) (S : CoinSet) (txs : List Tx) (pos : Nat) :
    List UndoRec :=
  spentRecs h S ((walkBlockTxs txs).take pos)

/-- The coins the same transaction spends behind it. -/
def spentBehind (h : Nat) (S : CoinSet) (txs : List Tx) (pos : Nat) :
    List UndoRec :=
  spentRecs h (applyEvents h S ((walkBlockTxs txs).take pos))
    ((inputsBehind txs pos).map WalkEvent.input)

/-- When the rollback of a failed operation is complete.  A partial record at
the end of the run costs every older coin spent before it; behind a partial
record the reader takes what it finds for records. -/
def OpFault.HoldsWhen (h : Nat) (S : CoinSet) (txs : List Tx) (pos : Nat) :
    OpFault → Prop
  | .append n => 0 < n →
      if spentBehind h S txs pos = [] then
        ∀ r ∈ spentBefore h S txs pos, S r.o = none
      else
        ∀ o c, (walkBlockTxs txs)[pos]? = some (.input o) →
          applyEvents h S ((walkBlockTxs txs).take pos) o = some c →
          ReadsBack S (spentBefore h S txs pos ++ spentBehind h S txs pos)
            (created (walkBlockTxs (txsUpTo txs pos)))
            (strictRead (cutRun (spentBefore h S txs pos)
              (spentBehind h S txs pos) ⟨o, c⟩ n))
  | .del _ => True
  | .put _ => True

theorem applyBlockAtInner_eq {env : ApplyEnv} (hpfx : env.prefixOk = true)
    (hhook : env.ghostHookOk = true) (h : Nat) (blk : Block) (st : Live) :
    applyBlockAtInner h env blk st =
      applyBlockInner h env blk (afterGhost h blk st) := by
  rw [applyBlockAtInner, afterGhost, guarded, hpfx, hhook]
  split <;> rfl

theorem afterGhost_ready (h : Nat) (blk : Block) (hi : Idle st) :
    Ready h (afterGhost h blk st) := by
  rw [afterGhost, guarded]
  split
  · generalize hst : delCreated
      (restoreRun st (st.undo.undoReplayTolerant h)) (walkBlockTxs blk.txs) = st₁
    have hundo : st₁.undo = st.undo := by
      rw [← hst, (delCreated_frame _ _).1, (restoreRun_frame _ _).1]
    have hcons : st₁.inconsistent = false := by
      rw [← hst, (delCreated_frame _ _).2, (restoreRun_frame _ _).2,
        hi.consistent]
    simp only [rollbackUnappliedBlock, ApplyEnv.healthy, Bool.not_true,
      Bool.false_eq_true, if_false, hst]
    refine ⟨?_, ?_, UndoStore.undoDiscard_idx _ h, hcons⟩
    · rw [Live.undoDiscard_undo, hundo]
      exact hi.wellFormed.undoDiscard h true
    · rw [Live.undoDiscard_undo, hundo]
      exact UndoStore.undoDiscard_fd hi.closed h true
  · rename_i hslot
    refine ⟨hi.wellFormed, hi.closed, ?_, hi.consistent⟩
    simpa [UndoStore.undoExists] using hslot

/-- A torn run is not replayed. -/
theorem readsBack_cut {before : List UndoRec} {r : UndoRec} {n : Nat}
    (hpos : 0 < n) (hlt : n < r.encode.length)
    (hfresh : ∀ k ∈ ks, S k = none) :
    ReadsBack S before ks (strictRead (cutRun before [] r n)) ↔
      ∀ q ∈ before, S q.o = none := by
  have hread : strictRead (cutRun before [] r n) = [] := by
    simp [strictRead, cutRun, undo_framed.scan_cut before r n hpos hlt]
  rw [hread]
  constructor
  · intro hback q hq
    by_cases hks : q.o ∈ ks
    · exact hfresh _ hks
    · exact (hback q.o hks (Or.inl (List.mem_map_of_mem hq))).symm
  · rintro hnone k hks (hmem | hS)
    · obtain ⟨q, hq, rfl⟩ := List.mem_map.mp hmem
      exact (hnone q hq).symm
    · exact hS.symm

theorem walked_undoBegin (hr : Ready h st) (ks : List Outpoint) :
    Walked h st { st with undo := st.undo.undoBegin h } [] ks [] := by
  have hlog : Logged (fun s => Reversible st.coins s [] ks) st st :=
    Logged.refl (Reversible.refl st.coins ks)
  exact ⟨UndoStore.writing_undoBegin hr.wellFormed hr.noSlot hr.closed,
    hr.consistent, hlog⟩

theorem OpFault.Fits.event {evs : List WalkEvent} {pos : Nat} {fault : OpFault}
    (hfits : fault.Fits h S evs pos) : ∃ e, evs[pos]? = some e := by
  cases fault with
  | append n =>
      obtain ⟨o, c, ho, -⟩ := hfits
      exact ⟨_, ho⟩
  | del took =>
      obtain ⟨o, ho, -⟩ := hfits
      exact ⟨_, ho⟩
  | put took =>
      obtain ⟨o, out, isCoinbase, c, ho, -⟩ := hfits
      exact ⟨_, ho⟩

/-- A fault at an operation of the walk is seen. -/
theorem OpFault.Fits.fatal {evs : List WalkEvent} {pos : Nat} {fault : OpFault}
    {e : WalkEvent} (hfits : fault.Fits h S evs pos) (he : evs[pos]? = some e)
    (hv : EventValid h (applyEvents h S (evs.take pos)) e)
    (hcoins : st.coins = applyEvents h S (evs.take pos)) :
    (liveOnEvent h (some fault) st e).2 = true := by
  rw [← hcoins] at hv
  cases fault with
  | append n =>
      obtain ⟨o, c, ho, hnull, hc, -⟩ := hfits
      rw [ho] at he
      cases he
      simp [liveOnEvent, liveOnInput, hnull, hcoins, hc]
  | del took =>
      obtain ⟨o, ho, hnull⟩ := hfits
      rw [ho] at he
      cases he
      obtain hbad | ⟨c, hc⟩ := hv
      · exact absurd hbad hnull
      · simp [liveOnEvent, liveOnInput, hnull, hc]
  | put took =>
      obtain ⟨o, out, isCoinbase, c, ho, hcoin⟩ := hfits
      rw [ho] at he
      cases he
      simp [liveOnEvent, liveOnOutput, hcoin]

/-- Without a partial record the rollback is complete. -/
theorem applyTxs_failing_whole {txs : List Tx} {pos : Nat} {fault : OpFault}
    (hookOk : Bool) (hr : Ready h st) (hv : BlockValid h st.coins txs)
    (hwhole : ∀ n, fault = .append n → n = 0)
    (hfail : (applyTxs h (.failing pos fault hookOk) txs 0 0 txs
      { st with undo := st.undo.undoBegin h }).2 = false) :
    Undone h st (applyTxs h (.failing pos fault hookOk) txs 0 0 txs
      { st with undo := st.undo.undoBegin h }).1.undoCloseCurrent := by
  refine applyTxs_undone (List.nil_append txs).symm
    (fun ks _ => walked_undoBegin hr ks) hv.valid hv.fresh ?_ hfail
  intro p n hp
  simp only [ApplyEnv.failing] at hp
  split_ifs at hp
  exact hwhole n (Option.some.inj hp)

theorem applyTxs_failing_cut {txs : List Tx} {pos n : Nat} {hookOk : Bool}
    (hr : Ready h st) (hv : BlockValid h st.coins txs)
    (hfits : (OpFault.append n).Fits h st.coins (walkBlockTxs txs) pos)
    (hn : 0 < n) :
    Undone h st (applyTxs h (.failing pos (.append n) hookOk) txs 0 0 txs
        { st with undo := st.undo.undoBegin h }).1.undoCloseCurrent ↔
      (OpFault.append n).HoldsWhen h st.coins txs pos := by
  obtain ⟨o, c, ho, hnull, hc, hlt⟩ := hfits
  obtain ⟨pre, tx, post, ins₁, htxs, hins, hupto, htake, hpos⟩ :=
    walkBlockTxs_input ho
  have hops : (ApplyEnv.failing pos (.append n) hookOk).ops = fun p =>
      if p = ((walkBlockTxs txs).take pos).length then
        some (OpFault.append n) else none := by
    rw [← hpos]
    rfl
  have hfresh : ∀ k ∈ created (walkBlockTxs (pre ++ [tx])),
      st.coins k = none := by
    intro k hk
    apply hv.fresh
    rw [htxs, List.append_cons, walkBlockTxs, walkFrom_append, created_append]
    exact List.mem_append_left _ hk
  have hcut := applyTxs_cut htake hops hins hnull (walked_undoBegin hr)
    rfl (htxs ▸ hv) hc
  rw [← htxs, ← spentBefore, ← spentBehind] at hcut
  rw [hcut]
  simp only [OpFault.HoldsWhen, hn, true_imp_iff, hupto]
  split_ifs with hbehind
  · rw [hbehind, List.append_nil]
    exact readsBack_cut hn hlt hfresh
  · constructor
    · intro hback o' c' ho' hc'
      rw [ho] at ho'
      cases ho'
      rw [hc] at hc'
      cases hc'
      exact hback
    · intro hback
      exact hback o c ho hc

theorem applyTxs_failing_fails {txs : List Tx} {pos : Nat} {fault : OpFault}
    (hookOk : Bool) (hr : Ready h st) (hv : BlockValid h st.coins txs)
    (hfits : fault.Fits h st.coins (walkBlockTxs txs) pos) :
    (applyTxs h (.failing pos fault hookOk) txs 0 0 txs
      { st with undo := st.undo.undoBegin h }).2 = false := by
  obtain ⟨e, he⟩ := hfits.event
  obtain ⟨pre, tx, post, es₁, es₂, rfl, hevs, hpos, -⟩ := walkFrom_at he
  rw [Nat.zero_add] at hevs
  rw [← walkBlockTxs] at hpos
  obtain ⟨es₃, hwalk, htake⟩ := take_walkBlockTxs post hevs
  rw [← hpos] at htake
  have hvalid := hv.valid
  rw [hwalk, validOn_append] at hvalid
  obtain ⟨st₁, hcoins₁, -, hreach⟩ := applyTxs_reach
    (.failing pos fault hookOk) post hevs (fun p hp => if_neg (by omega))
    (walked_undoBegin hr) rfl hvalid.1
  have hat : (ApplyEnv.failing pos fault hookOk).ops
      (walkBlockTxs pre ++ es₁).length = some fault := if_pos hpos.symm
  rw [hreach]
  rw [hat]
  rw [← htake] at hcoins₁ hvalid
  exact hfits.fatal he hvalid.2.1 hcoins₁

/-- A spend of two older coins. -/
def twoSpends : Block :=
  ⟨false,
    [⟨Txid.ofBytes [1], [nullOutpoint], [⟨50, [0x51]⟩]⟩,
      ⟨Txid.ofBytes [2], [⟨Txid.ofBytes [8], 0⟩, ⟨Txid.ofBytes [9], 0⟩],
        [⟨7, [0x52]⟩]⟩]⟩

def twoCoins : Live :=
  ⟨fun o =>
      if o = ⟨Txid.ofBytes [8], 0⟩ ∨ o = ⟨Txid.ofBytes [9], 0⟩ then
        some sampleCoin
      else none,
    [], .empty, false⟩

theorem twoCoins_idle : Idle twoCoins :=
  ⟨UndoStore.wellFormed_empty, rfl, rfl⟩

theorem twoSpends_valid :
    BlockValid 5 (afterGhost 5 twoSpends twoCoins).coins twoSpends.txs := by
  decide

end BitcoinMachineCode.Storage
