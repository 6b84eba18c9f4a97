import BitcoinMachineCode.Storage.LsmHistory

/-!
# Adopting a merge into a manifest that has grown

A merge child works on the manifest of its fork while the foreground writes and
flushes on.  Its result is spliced in where its batch was, whatever was added
above.
-/

namespace BitcoinMachineCode.Storage

open BitcoinMachineCode.Foundation

/-! ## What the foreground does meanwhile -/

/-- Writes and flushes, and the child at its work. -/
inductive Meanwhile : Lsm → Lsm → Prop where
  | put {s s' : Lsm} (o : Outpoint) (c : Coin) (h : utxoLsmPut s o c = .new s') :
      Meanwhile s s'
  | del {s s' : Lsm} (o : Outpoint) (h : utxoLsmDel s o = some s') : Meanwhile s s'
  | flush {s : Lsm} (pub gate : Publish) : Meanwhile s (flushGeneration pub gate s).1
  | adoptFlush {s : Lsm} (pub : Publish) : Meanwhile s (fzPoll pub s)
  | childMerges {s : Lsm} : Meanwhile s (compactChildRun s)

theorem Meanwhile.sound {s s' : Lsm} (h : Meanwhile s s') (hs : s.Sound) : s'.Sound := by
  cases h with
  | put o c h => exact (hs.utxoLsmPut h).1
  | del o h => exact (hs.utxoLsmDel h).1
  | flush pub gate => exact (hs.flushGeneration pub gate).sound
  | adoptFlush pub => exact (hs.fzPoll pub).sound
  | childMerges => exact hs.compactChildRun.sound

/-- The manifest stays within its capacity and, as long as the child is out, it
only grows at its end. -/
structure Extends (s s' : Lsm) : Prop where
  cap_eq : s'.manifestCap = s.manifestCap
  within : s.manifest.length ≤ s.manifestCap → s'.manifest.length ≤ s'.manifestCap
  grows : ∀ c', s'.child = some c' →
    (∃ c, s.child = some c ∧ c'.inherited = c.inherited) ∧
      ∃ es, s'.manifest = s.manifest ++ es

theorem Extends.refl (s : Lsm) : Extends s s :=
  ⟨rfl, id, fun c hc => ⟨⟨c, hc, rfl⟩, [], (List.append_nil _).symm⟩⟩

theorem Extends.trans {s s' s'' : Lsm} (h : Extends s s') (h' : Extends s' s'') :
    Extends s s'' where
  cap_eq := h'.cap_eq.trans h.cap_eq
  within := fun hs => h'.within (h.within hs)
  grows c'' hc'' := by
    obtain ⟨⟨c', hc', hinh'⟩, es', hes'⟩ := h'.grows c'' hc''
    obtain ⟨⟨c, hc, hinh⟩, es, hes⟩ := h.grows c' hc'
    exact ⟨⟨c, hc, hinh'.trans hinh⟩, es ++ es', by rw [hes', hes, List.append_assoc]⟩

/-- A step that leaves the manifest and the child alone. -/
theorem Extends.same {s s' : Lsm} (hcap : s'.manifestCap = s.manifestCap)
    (hman : s'.manifest = s.manifest) (hchild : s'.child = s.child) : Extends s s' where
  cap_eq := hcap
  within := by rw [hman, hcap]; exact id
  grows c hc := ⟨⟨c, hchild ▸ hc, rfl⟩, [], by rw [hman, List.append_nil]⟩

/-- A step that adds a run where there is room. -/
theorem Extends.snoc {s s' : Lsm} {e : ManifestEntry}
    (hcap : s'.manifestCap = s.manifestCap) (hman : s'.manifest = s.manifest ++ [e])
    (hroom : s.manifest.length < s.manifestCap) (hchild : s'.child = s.child) :
    Extends s s' where
  cap_eq := hcap
  within _ := by rw [hman, hcap, List.length_append]; exact hroom
  grows c hc := ⟨⟨c, hchild ▸ hc, rfl⟩, [e], hman⟩

theorem compactPoll_extends (pub : Publish) (s : Lsm) : Extends s (compactPoll pub s) := by
  unfold compactPoll
  split
  · next c hc =>
      rcases compactAdopt_cases pub s c with h | h | ⟨_, _, m, _, _, hrec, _, h⟩
      · rw [h]
        exact .refl s
      · rw [h]
        exact ⟨rfl, id, fun d hd => by cases hd⟩
      · rw [h]
        exact ⟨rfl, fun _ => (reconcile_some hrec).2.2.2, fun d hd => by cases hd⟩
  · exact .refl s

theorem macFlush_extends (gate : Publish) (s : Lsm) : Extends s (macFlush gate s).1 := by
  refine (compactPoll_extends gate s).trans ?_
  unfold macFlush
  generalize compactPoll gate s = s
  simp only
  split
  · exact .same rfl rfl rfl
  split
  · exact .refl s
  next hroom =>
    split
    · exact .same rfl rfl rfl
    · exact .snoc rfl rfl (not_le.mp hroom) rfl

theorem fzPoll_extends (pub : Publish) (s : Lsm) : Extends s (fzPoll pub s) := by
  unfold fzPoll
  split
  · exact .refl s
  unfold fzAdopt
  split
  · exact .refl s
  split
  · exact .same rfl rfl rfl
  split
  · exact .same rfl rfl rfl
  next hok =>
    exact .snoc rfl rfl (not_le.mp fun h => hok (Or.inl h)) rfl

theorem utxoLsmFreeze_extends (gate : Publish) (s : Lsm) :
    Extends s (utxoLsmFreeze gate s).1 := by
  refine (compactPoll_extends gate s).trans ?_
  unfold utxoLsmFreeze
  generalize compactPoll gate s = s
  simp only
  split
  · exact .refl s
  split
  · exact .refl s
  · exact .same rfl rfl rfl

theorem flushGeneration_extends (pub gate : Publish) (s : Lsm) :
    Extends s (flushGeneration pub gate s).1 := by
  unfold flushGeneration
  split
  · unfold fzHook
    split
    · exact .refl s
    refine (fzPoll_extends pub s).trans ?_
    generalize fzPoll pub s = s
    simp only
    split
    · exact .refl s
    · refine Extends.trans ?_ (utxoLsmFreeze_extends gate _)
      exact .same rfl rfl rfl
  · exact macFlush_extends gate s

theorem compactChildRun_extends (s : Lsm) : Extends s (compactChildRun s) := by
  unfold compactChildRun compactChildMerge
  split
  · next c hc =>
      split
      · have hgrow : ∀ d : CompactChild, d.inherited = c.inherited →
            ∀ c', some d = some c' →
              (∃ c, s.child = some c ∧ c'.inherited = c.inherited) ∧
                ∃ es, s.manifest = s.manifest ++ es := by
          intro d hd c' hc'
          obtain rfl := Option.some.inj hc'
          exact ⟨⟨c, hc, hd⟩, [], (List.append_nil _).symm⟩
        split
        · exact ⟨rfl, id, hgrow _ rfl⟩
        split
        · exact ⟨rfl, id, hgrow _ rfl⟩
        · exact ⟨rfl, id, hgrow _ rfl⟩
      · exact .refl s
  · exact .refl s

theorem Meanwhile.extends {s s' : Lsm} (h : Meanwhile s s') : Extends s s' := by
  cases h with
  | put o c h =>
      obtain ⟨fill, rfl⟩ := utxoLsmPut_new h
      exact .same rfl rfl rfl
  | del o h =>
      obtain rfl := utxoLsmDel_some h
      exact .same rfl rfl rfl
  | flush pub gate => exact flushGeneration_extends pub gate s
  | adoptFlush pub => exact fzPoll_extends pub s
  | childMerges => exact compactChildRun_extends s

/-! ## The splice -/

theorem length_mergedManifest {m : List ManifestEntry} {lo k : Nat}
    (hk : 0 < k) (hle : lo + k ≤ m.length) (e : ManifestEntry) :
    (mergedManifest m lo k e).length ≤ m.length := by
  simp only [mergedManifest, List.length_append, List.length_take, List.length_cons,
    List.length_drop]
  omega

/-- Additions since the fork are reconciled. -/
theorem reconcile_isSome {cap : Nat} {cur inherited rest : List ManifestEntry}
    {lo k : Nat} {e : ManifestEntry} (hcur : cur = inherited ++ rest)
    (hnodup : (runNos cur).Nodup) (hfresh : e.runNo ∉ runNos cur)
    (hk : 0 < k) (hle : lo + k ≤ inherited.length) (hroom : cur.length ≤ cap)
    (hsucc : entsHaveSuccessor (mergedManifest inherited lo k e) = true) :
    (reconcile cap cur (mergedManifest inherited lo k e)
      (runNos (batch inherited lo k))).isSome := by
  have hknown : ∀ x ∈ inherited, x.runNo ∈ runNos cur := by
    intro x hx
    rw [hcur, runNos_append]
    exact List.mem_append_left _ (List.mem_map_of_mem hx)
  have hinh : (runNos inherited).Nodup := by
    rw [hcur, runNos_append] at hnodup
    exact (List.nodup_append.mp hnodup).1
  have hlen : ¬ (mergedManifest inherited lo k e).length < 1 := by
    simp [mergedManifest]
  have hnone : ¬ ((mergedManifest inherited lo k e).any
      fun x => x.runNo ∈ runNos (batch inherited lo k)) = true := by
    rw [List.any_eq_true]
    rintro ⟨x, hx, hin⟩
    rw [decide_eq_true_eq] at hin
    rcases mem_mergedManifest.mp hx with rfl | hx
    · obtain ⟨y, hy, heq⟩ := mem_runNos.mp hin
      exact hfresh (heq ▸ hknown y (mem_survivors_or_batch.mpr (Or.inr hy)))
    · exact survivors_disjoint_batch hinh lo k _ (List.mem_map_of_mem hx) hin
  have hunknown : (mergedManifest inherited lo k e).filter
      (fun x => x.runNo ∉ runNos cur) = [e] := by
    have hside : ∀ xs : List ManifestEntry, (∀ x ∈ xs, x ∈ inherited) →
        xs.filter (fun x => x.runNo ∉ runNos cur) = [] := by
      intro xs hxs
      rw [List.filter_eq_nil_iff]
      intro x hx
      simpa using hknown x (hxs x hx)
    rw [mergedManifest, List.filter_append, hside _ fun x => List.mem_of_mem_take,
      List.filter_cons_of_pos (by simpa using hfresh),
      hside _ fun x => List.mem_of_mem_drop]
    rfl
  have hinputs : ¬ ((runNos (batch inherited lo k)).any
      fun r => r ∉ runNos cur) = true := by
    rw [List.any_eq_true]
    rintro ⟨r, hr, hout⟩
    rw [decide_eq_true_eq] at hout
    obtain ⟨y, hy, rfl⟩ := mem_runNos.mp hr
    exact hout (hknown y (mem_survivors_or_batch.mpr (Or.inr hy)))
  have htotal : (mergedManifest inherited lo k e ++
      addedSince cur (mergedManifest inherited lo k e)
        (runNos (batch inherited lo k))).length ≤ cap := by
    rw [← splice_eq hcur hnodup hfresh hle]
    exact (length_mergedManifest hk (by rw [hcur]; simp; omega) e).trans hroom
  rw [reconcile, if_neg hlen, if_neg (by simp [hsucc]), if_neg hnone,
    if_neg (by rw [hunknown]; simp), if_neg hinputs, if_neg (not_lt.mpr htotal)]
  rfl

theorem meanwhile_invariant {s₀ s : Lsm} (h : Relation.ReflTransGen Meanwhile s₀ s)
    (hs : s₀.Sound) : s.Sound ∧ Extends s₀ s := by
  induction h with
  | refl => exact ⟨hs, .refl s₀⟩
  | tail _ hstep ih => exact ⟨hstep.sound ih.1, ih.2.trans hstep.extends⟩

theorem lsmManifestAdoptChild_cases (pub : Publish) (s : Lsm) (c : CompactChild)
    (childM : List ManifestEntry) (live : Option Int) :
    lsmManifestAdoptChild pub s c.inputs c.isFull c.oldBase childM live = (s, .failed) ∨
      ∃ m, reconcile s.manifestCap s.manifest childM c.inputs = some m ∧
        pub ≠ .failed ∧
        lsmManifestAdoptChild pub s c.inputs c.isFull c.oldBase childM live =
          ({ adoptedState s c m live s.files with child := s.child }, pub) := by
  unfold lsmManifestAdoptChild
  cases hrec : reconcile s.manifestCap s.manifest childM c.inputs with
  | none => exact Or.inl rfl
  | some m =>
      cases pub with
      | failed => exact Or.inl rfl
      | durable => exact Or.inr ⟨m, rfl, by decide, rfl⟩
      | unsynced => exact Or.inr ⟨m, rfl, by decide, rfl⟩

/-- What an adoption must leave of the manifest before it. -/
structure Spliced (s s' : Lsm) (inputs : List Nat) : Prop where
  reads_eq : ∀ o, getFromRuns s'.files o s'.manifest.reverse =
    getFromRuns s.files o s.manifest.reverse
  kept_once : ∀ r ∈ runNos s.manifest, r ∉ inputs → (runNos s'.manifest).count r = 1
  inputs_gone : ∀ r ∈ inputs, r ∉ runNos s'.manifest
  named_lt : ∀ r ∈ runNos s'.manifest, r < s'.nextRunNo
  frozen_free : ∀ fz, s'.frozen = some fz → fz.runNo ∉ runNos s'.manifest

theorem compactStartAsync_child {s : Lsm} (hidle : s.child = none) {lo k : Nat}
    {c : CompactChild} (h : (compactStartAsync s lo k).child = some c) :
    c.inherited = s.manifest := by
  unfold compactStartAsync at h
  split at h
  · rw [hidle] at h
    cases h
  · obtain rfl := Option.some.inj h
    rfl

theorem compactStartAsync_manifest (s : Lsm) (lo k : Nat) :
    (compactStartAsync s lo k).manifest = s.manifest ∧
      (compactStartAsync s lo k).manifestCap = s.manifestCap := by
  unfold compactStartAsync
  split <;> exact ⟨rfl, rfl⟩

/-- Nothing but writes and flushes since the fork: what the child inherited is
still the bottom of the manifest. -/
theorem inherited_intact {s₀ s : Lsm} (hidle : s₀.child = none) {lo k : Nat}
    (hext : Extends (compactStartAsync s₀ lo k) s) {c : CompactChild}
    (hc : s.child = some c) : ∃ rest, s.manifest = c.inherited ++ rest := by
  obtain ⟨⟨c₀, hc₀, hinh⟩, es, hes⟩ := hext.grows c hc
  refine ⟨es, ?_⟩
  rw [hes, (compactStartAsync_manifest s₀ lo k).1, hinh,
    compactStartAsync_child hidle hc₀]

/-- The merge of a sound state is reconciled with what was added since. -/
theorem Lsm.Sound.reconciles {s : Lsm} (hs : s.Sound) {c : CompactChild}
    (hc : s.child = some c) {childM : List ManifestEntry} {live : Option Int}
    (hst : c.status = .finished childM live) {rest : List ManifestEntry}
    (hcur : s.manifest = c.inherited ++ rest)
    (hroom : s.manifest.length ≤ s.manifestCap)
    (hsucc : entsHaveSuccessor childM = true) :
    (reconcile s.manifestCap s.manifest childM c.inputs).isSome := by
  have hchild := hs.child c hc
  have hbatch : ∃ keepDels,
      compactBatch c.inherited.length c.lo c.k = some (c.lo, c.k, keepDels) := by
    cases hchild.tracks with
    | lost e hmem hgone =>
        refine absurd ?_ hgone
        rw [hcur, runNos_append]
        exact List.mem_append_left _ (List.mem_map_of_mem hmem)
    | intact _ _ hout =>
        obtain ⟨keepDels, run, ho⟩ := hout childM live hst
        exact ⟨keepDels, ho.range⟩
  obtain ⟨keepDels, hbatch⟩ := hbatch
  obtain ⟨hk, hle, -⟩ := compactBatch_spec hbatch
  rw [hchild.inputs_eq]
  rw [hchild.finished childM live hst] at hsucc ⊢
  exact reconcile_isSome hcur hs.nodup hchild.not_named (by omega) hle hroom hsucc

/-- Splicing a finished merge into the manifest. -/
theorem Lsm.Sound.spliced {s : Lsm} (hs : s.Sound) {c : CompactChild}
    (hc : s.child = some c) {childM m : List ManifestEntry} {live : Option Int}
    (hst : c.status = .finished childM live)
    (hrec : reconcile s.manifestCap s.manifest childM c.inputs = some m) :
    Spliced s { adoptedState s c m live s.files with child := s.child } c.inputs := by
  have hchild := hs.child c hc
  have hkeep : KeepsRuns s (adoptedState s c m live s.files) :=
    hs.adopted hc hst hrec rfl rfl rfl rfl (advanceCounters_le _ _ _) (fun _ _ => rfl) rfl
  obtain ⟨hm, rest, keepDels, run, hcur, ho⟩ := hs.reconcile_eq hc hst hrec
  obtain ⟨-, hle, -, -⟩ := compactBatch_spec ho.range
  have hbatch : batch s.manifest c.lo c.k = batch c.inherited c.lo c.k := by
    rw [hcur, batch_append hle]
  have hinputs : c.inputs = runNos (batch s.manifest c.lo c.k) := by
    rw [hchild.inputs_eq, hbatch]
  have hruns : stackMap (runLayers s.files m) = stackMap (runLayers s.files s.manifest) :=
    hkeep.runs_eq []
  have hmem : ∀ r, r ∈ runNos m ↔ r = c.runNo ∨ r ∈ runNos (survivors s.manifest c.lo c.k) := by
    intro r
    rw [hm, (runNos_mergedManifest_perm _ _ _ _).mem_iff, List.mem_cons]
  have hnodup : (runNos m).Nodup := hkeep.sound.nodup
  refine ⟨?_, ?_, ?_, hkeep.sound.below, fun fz hfz => (hkeep.sound.frozen fz hfz).2.2⟩
  · intro o
    rw [getFromRuns_eq (fun e he => hkeep.sound.readable e (List.mem_reverse.mp he)),
      getFromRuns_eq (fun e he => hs.readable e (List.mem_reverse.mp he))]
    exact congrArg LsmAnswer.ofOption (congrFun hruns o)
  · intro r hr hout
    refine List.count_eq_one_of_mem hnodup ((hmem r).mpr (Or.inr ?_))
    obtain ⟨e, he, rfl⟩ := mem_runNos.mp hr
    rcases mem_survivors_or_batch.mp he with he | he
    · exact List.mem_map_of_mem he
    · exact absurd (hinputs ▸ List.mem_map_of_mem he) hout
  · intro r hr hin
    rcases (hmem r).mp hin with rfl | hin
    · rw [hinputs] at hr
      obtain ⟨e, he, heq⟩ := mem_runNos.mp hr
      exact hchild.not_named (heq ▸ List.mem_map_of_mem
        (mem_survivors_or_batch.mpr (Or.inr he)))
    · exact survivors_disjoint_batch hs.nodup _ _ r hin (hinputs ▸ hr)

/-- A merge started on any manifest and adopted after any writes and flushes:
refused, it leaves the state as it was; adopted, lookups answer as before and
the runs it did not merge stay.  It is adopted whenever its numbers have
successors and the manifest can be published. -/
theorem lsmManifestAdoptChild_splices {s₀ s : Lsm} (h₀ : s₀.Sound)
    (hidle : s₀.child = none) (hroom : s₀.manifest.length ≤ s₀.manifestCap)
    (lo k : Nat) (hrun : Relation.ReflTransGen Meanwhile (compactStartAsync s₀ lo k) s)
    {c : CompactChild} (hc : s.child = some c) {childM : List ManifestEntry}
    {live : Option Int} (hst : c.status = .finished childM live) (pub : Publish)
    {s' : Lsm} {rc : Publish}
    (h : lsmManifestAdoptChild pub s c.inputs c.isFull c.oldBase childM live = (s', rc)) :
    (rc = .failed → s' = s) ∧
      (rc ≠ .failed → Spliced s s' c.inputs ∧
        ∀ o, utxoLsmGet (compactAdopt pub s c) o = utxoLsmGet s o) ∧
      (entsHaveSuccessor childM = true → rc = pub) := by
  obtain ⟨hs, hext⟩ := meanwhile_invariant hrun (h₀.compactStartAsync lo k).sound
  obtain ⟨rest, hcur⟩ := inherited_intact hidle hext hc
  have hin : s.manifest.length ≤ s.manifestCap := by
    refine hext.within ?_
    rw [(compactStartAsync_manifest s₀ lo k).1, (compactStartAsync_manifest s₀ lo k).2]
    exact hroom
  have hreads : ∀ o, utxoLsmGet (compactAdopt pub s c) o = utxoLsmGet s o := by
    intro o
    have hkeep := (hs.compactAdopt pub hc).keeps
    rw [utxoLsmGet_eq hkeep.sound, utxoLsmGet_eq hs, hkeep.coins_eq]
  rcases lsmManifestAdoptChild_cases pub s c childM live with hf | ⟨m, hrec, hpub, hf⟩
  · obtain ⟨rfl, rfl⟩ := Prod.mk.inj (hf.symm.trans h)
    refine ⟨fun _ => rfl, fun hne => absurd rfl hne, fun hsucc => ?_⟩
    obtain ⟨m, hrec⟩ :=
      Option.isSome_iff_exists.mp (hs.reconciles hc hst hcur hin hsucc)
    by_contra hpub
    cases pub with
    | failed => exact hpub rfl
    | durable => simp [lsmManifestAdoptChild, hrec] at hf
    | unsynced => simp [lsmManifestAdoptChild, hrec] at hf
  · obtain ⟨rfl, rfl⟩ := Prod.mk.inj (hf.symm.trans h)
    exact ⟨fun hfail => absurd hfail hpub, fun _ => ⟨hs.spliced hc hst hrec, hreads⟩,
      fun _ => rfl⟩

def samplePut (s : Lsm) (i : UInt32) : Lsm :=
  match utxoLsmPut s (sampleOutpoint i) sampleOutput with
  | .new s' => s'
  | _ => s

def sampleFlush (s : Lsm) : Lsm := fzPoll .durable (flushGeneration .durable .durable s).1

def sampleTwoRuns : Lsm :=
  sampleFlush (samplePut (sampleFlush (samplePut (Lsm.init 8 1000 8 8 true) 0)) 1)

theorem sampleTwoRuns_sound : sampleTwoRuns.Sound := by
  have hput : ∀ (s : Lsm) (i : UInt32), s.Sound → (samplePut s i).Sound := by
    intro s i hs
    unfold samplePut
    split
    · next h => exact (hs.utxoLsmPut h).1
    · exact hs
  have hflush : ∀ s : Lsm, s.Sound → (sampleFlush s).Sound := fun s hs =>
    ((hs.flushGeneration .durable .durable).sound.fzPoll .durable).sound
  exact hflush _ (hput _ _ (hflush _ (hput _ _ (Represents.init 8 1000 8 8 true).sound)))

/-- Two runs merged while a third is flushed. -/
def sampleThirdRun : Lsm :=
  compactChildRun (sampleFlush (samplePut (compactStartAsync sampleTwoRuns 0 2) 2))

theorem lsmManifestAdoptChild_splices_third :
    sampleTwoRuns.manifest.length = 2 ∧ sampleThirdRun.manifest.length = 3 ∧
      ∃ (c : CompactChild) (childM : List ManifestEntry) (live : Option Int) (s' : Lsm),
        sampleThirdRun.child = some c ∧ c.status = .finished childM live ∧
        lsmManifestAdoptChild .durable sampleThirdRun c.inputs c.isFull c.oldBase
          childM live = (s', .durable) ∧ Spliced sampleThirdRun s' c.inputs := by
  have later : Relation.ReflTransGen Meanwhile (compactStartAsync sampleTwoRuns 0 2)
      sampleThirdRun :=
    (((Relation.ReflTransGen.refl.tail (.put (sampleOutpoint 2) sampleOutput rfl)).tail
      (.flush .durable .durable)).tail (.adoptFlush .durable)).tail .childMerges
  have hchild : ∃ (c : CompactChild) (childM : List ManifestEntry) (live : Option Int),
      sampleThirdRun.child = some c ∧ c.status = .finished childM live ∧
        entsHaveSuccessor childM = true :=
    ⟨_, _, _, rfl, rfl, by decide⟩
  obtain ⟨c, childM, live, hc, hst, hsucc⟩ := hchild
  have hadopt := lsmManifestAdoptChild_splices sampleTwoRuns_sound rfl
    (by decide) 0 2 later hc hst .durable rfl
  have hok := hadopt.2.2 hsucc
  exact ⟨by decide, by decide, c, childM, live, _, hc, hst,
    Prod.ext rfl hok, (hadopt.2.1 (by rw [hok]; decide)).1⟩

end BitcoinMachineCode.Storage
