import BitcoinMachineCode.Chain.HeaderFetch
import BitcoinMachineCode.Consensus.Sha256

/-!
# Low-work header flooding

What a fetch may leave in the store.  The hold's total is the work of the chain
it stands for as long as every page continues the held tail, and a released
chain is stored whole as long as the page that releases it is.  A page that
attaches elsewhere while others are held is counted on top of them, and a page
cut short by a transaction count is counted whole.
-/

namespace BitcoinMachineCode.Chain

open BitcoinMachineCode.Foundation
open BitcoinMachineCode.Consensus (hdrTime rd32le)

/-! ## Taking pages -/

@[simp] theorem totalWork_nil : totalWork [] = 0 := rfl

@[simp] theorem totalWork_cons (hdr : Bytes 80) (hdrs : List (Bytes 80)) :
    totalWork (hdr :: hdrs) = blockProof (hdrBits hdr) + totalWork hdrs := rfl

@[simp] theorem totalWork_append (xs ys : List (Bytes 80)) :
    totalWork (xs ++ ys) = totalWork xs + totalWork ys := by
  simp [totalWork]

theorem totalWork_le_of_isPrefix {xs ys : List (Bytes 80)} (h : xs <+: ys) :
    totalWork xs ≤ totalWork ys := by
  obtain ⟨zs, rfl⟩ := h
  rw [totalWork_append]
  omega

theorem totalWork_take_succ {store : List (Bytes 80)} {h : Nat} {hdr : Bytes 80}
    (hget : store[h]? = some hdr) :
    totalWork (store.take (h + 1)) =
      totalWork (store.take h) + blockProof (hdrBits hdr) := by
  rw [List.take_add_one, hget, totalWork_append]
  simp

@[simp] theorem pageWork_nil : pageWork [] = 0 := rfl

@[simp] theorem pageWork_cons (w : WireHeader) (ws : List WireHeader) :
    pageWork (w :: ws) = blockProof (hdrBits w.hdr) + pageWork ws := rfl

@[simp] theorem pageWork_append (xs ys : List WireHeader) :
    pageWork (xs ++ ys) = pageWork xs + pageWork ys := by
  simp [pageWork]

namespace FetchEnv

variable {env : FetchEnv} {m : Moment}

/-- Where the run overlaps the store from `h` on, an equal hash is equal work. -/
def SameWork (env : FetchEnv) (h : Nat) (ws : List WireHeader)
    (store : List (Bytes 80)) : Prop :=
  ∀ i w hdr, ws[i]? = some w → store[h + i]? = some hdr →
    env.blockHash hdr = env.blockHash w.hdr →
      blockProof (hdrBits hdr) = blockProof (hdrBits w.hdr)

theorem SameWork.of_length_le {h : Nat} {ws : List WireHeader}
    {store : List (Bytes 80)} (hle : store.length ≤ h) :
    env.SameWork h ws store := by
  intro i w hdr _ hget
  have := (List.getElem?_eq_some_iff.mp hget).1
  omega

theorem SameWork.tail {h : Nat} {w : WireHeader} {ws : List WireHeader}
    {store : List (Bytes 80)} (hsame : env.SameWork h (w :: ws) store) :
    env.SameWork (h + 1) ws store := by
  intro i w' hdr hw hget
  apply hsame (i + 1) w' hdr
  · simpa using hw
  · rwa [show h + (i + 1) = h + 1 + i by omega]

/-- What a page leaves, when it does not begin above the store. -/
structure TookSpec (h : Nat) (ws : List WireHeader) (store : List (Bytes 80))
    (t : Took) : Prop where
  grown : store <+: t.store
  added : t.store.length = store.length + t.added
  took_le : t.took ≤ ws.length
  length : t.store.length = max store.length (h + t.took)
  whole : (∀ w ∈ ws, w.txnCount = 0) → t.took = ws.length

theorem TookSpec.cons_overlap {h : Nat} {w : WireHeader} {ws : List WireHeader}
    {store : List (Bytes 80)} {t : Took} (ht : TookSpec (h + 1) ws store t) :
    TookSpec h (w :: ws) store { t with took := t.took + 1 } where
  grown := ht.grown
  added := ht.added
  took_le := by simpa using ht.took_le
  length := by
    have := ht.length
    simp only
    omega
  whole := by
    intro hzero
    have := ht.whole fun x hx => hzero x (List.mem_cons_of_mem _ hx)
    simpa using this

theorem TookSpec.cons_append {h : Nat} {w : WireHeader} {ws : List WireHeader}
    {store : List (Bytes 80)} {t : Took} (hlen : store.length = h)
    (ht : TookSpec (h + 1) ws (store ++ [w.hdr]) t) :
    TookSpec h (w :: ws) store { t with took := t.took + 1, added := t.added + 1 } where
  grown := List.IsPrefix.trans (List.prefix_append _ _) ht.grown
  added := by
    have := ht.added
    simp only [List.length_append, List.length_singleton] at this ⊢
    omega
  took_le := by simpa using ht.took_le
  length := by
    have := ht.length
    simp only [List.length_append, List.length_singleton] at this ⊢
    omega
  whole := by
    intro hzero
    have := ht.whole fun x hx => hzero x (List.mem_cons_of_mem _ hx)
    simpa using this

theorem takeHeaders_spec {have_ h : Nat} {prev : Bytes 32} {ws : List WireHeader}
    {store : List (Bytes 80)} {t : Took} (hlen : store.length = max have_ h)
    (ht : env.takeHeaders m have_ h prev ws store = some t) :
    TookSpec h ws store t := by
  induction ws generalizing h prev store t with
  | nil =>
      cases ht
      exact ⟨List.prefix_rfl, rfl, le_rfl, by simp [hlen], fun _ => rfl⟩
  | cons w ws ih =>
      unfold takeHeaders at ht
      split at ht
      · rename_i hcount
        cases ht
        refine ⟨List.prefix_rfl, rfl, by simp, by simp [hlen], ?_⟩
        intro hzero
        exact absurd (hzero w List.mem_cons_self) hcount
      · split at ht
        · cases ht
        · split at ht
          · split at ht
            · obtain ⟨t', ht', rfl⟩ := Option.map_eq_some_iff.mp ht
              exact (ih (by omega) ht').cons_overlap
            · cases ht
          · split at ht
            · obtain ⟨t', ht', rfl⟩ := Option.map_eq_some_iff.mp ht
              refine (ih ?_ ht').cons_append (by omega)
              simp only [List.length_append, List.length_singleton]
              omega
            · cases ht

/-- The work after a page: what was below it, the page, and what was above. -/
theorem takeHeaders_work {have_ h : Nat} {prev : Bytes 32} {ws : List WireHeader}
    {store : List (Bytes 80)} {t : Took} (hlen : store.length = max have_ h)
    (hsame : have_ = store.length → env.SameWork h ws store)
    (ht : env.takeHeaders m have_ h prev ws store = some t) :
    totalWork t.store = totalWork (store.take h) + pageWork (ws.take t.took) +
      totalWork (store.drop (h + t.took)) := by
  induction ws generalizing h prev store t with
  | nil =>
      cases ht
      rw [List.take_nil, pageWork_nil, Nat.add_zero, Nat.add_zero,
        ← totalWork_append, List.take_append_drop]
  | cons w ws ih =>
      unfold takeHeaders at ht
      split at ht
      · cases ht
        simp only [List.take_zero, pageWork_nil, Nat.add_zero]
        rw [← totalWork_append, List.take_append_drop]
      · split at ht
        · cases ht
        · split at ht
          · rename_i hover
            split at ht
            · rename_i hhash
              obtain ⟨t', ht', rfl⟩ := Option.map_eq_some_iff.mp ht
              obtain ⟨hdr, hget, heq⟩ := Option.map_eq_some_iff.mp hhash
              have hall : have_ = store.length := by omega
              have hwork : blockProof (hdrBits hdr) = blockProof (hdrBits w.hdr) :=
                hsame hall 0 w hdr rfl hget heq
              rw [ih (by omega) (fun _ => (hsame hall).tail) ht',
                totalWork_take_succ hget, hwork]
              simp only [List.take_succ_cons, pageWork_cons]
              rw [show h + 1 + t'.took = h + (t'.took + 1) by omega]
              omega
            · cases ht
          · rename_i hover
            split at ht
            · obtain ⟨t', ht', rfl⟩ := Option.map_eq_some_iff.mp ht
              have hlen' : (store ++ [w.hdr]).length = max have_ (h + 1) := by
                simp only [List.length_append, List.length_singleton]
                omega
              have hfull : (store ++ [w.hdr]).length ≤ h + 1 := by omega
              have hstore : store.length ≤ h := by omega
              rw [ih hlen' (by omega) ht', List.take_of_length_le hfull,
                List.drop_of_length_le (by omega), List.take_of_length_le hstore,
                List.drop_of_length_le (by omega)]
              simp only [List.take_succ_cons, pageWork_cons, totalWork_append,
                totalWork_cons, totalWork_nil]
              omega
            · cases ht

theorem dlcTakePage_spec {pos : Nat} {prev : Bytes 32} {hdrs : List WireHeader}
    {store : List (Bytes 80)} {t : Took} (hpos : pos ≤ store.length)
    (ht : env.dlcTakePage m pos prev hdrs store = some t) :
    TookSpec pos hdrs store t := by
  have hlen : store.length = max store.length pos := by omega
  exact takeHeaders_spec hlen ht

theorem dlcTakePage_work {pos : Nat} {prev : Bytes 32} {hdrs : List WireHeader}
    {store : List (Bytes 80)} {t : Took} (hpos : pos ≤ store.length)
    (hsame : env.SameWork pos hdrs store) (htook : t.took = hdrs.length)
    (hend : store.length ≤ pos + hdrs.length)
    (ht : env.dlcTakePage m pos prev hdrs store = some t) :
    totalWork t.store = totalWork (store.take pos) + pageWork hdrs := by
  have hwork := takeHeaders_work (by omega) (fun _ => hsame) ht
  rw [htook, List.take_length, List.drop_of_length_le hend] at hwork
  simpa using hwork

/-- Above the store there is no parent to read. -/
theorem dlcTakePage_gap {pos : Nat} {prev : Bytes 32} {hdrs : List WireHeader}
    {store : List (Bytes 80)} {t : Took} (hpos : store.length < pos)
    (ht : env.dlcTakePage m pos prev hdrs store = some t) :
    t = ⟨store, 0, 0⟩ := by
  cases hdrs with
  | nil =>
      cases ht
      rfl
  | cons w ws =>
      have hparent : store[pos - 1]? = none :=
        List.getElem?_eq_none (by omega)
      have hno : env.takesHeader m store pos w.hdr = false := by
        unfold takesHeader
        rw [if_neg (by omega), hparent]
        simp
      unfold dlcTakePage takeHeaders at ht
      rw [if_neg (by omega : ¬ pos < store.length), hno] at ht
      split at ht
      · cases ht
        rfl
      · split at ht
        · cases ht
        · cases ht

/-! ## The pages of the hold -/

/-- Each page begins where the one before it ends. -/
def Contiguous : Nat → List HeldPage → Prop
  | _, [] => True
  | h, p :: ps => p.pos = h ∧ Contiguous (h + p.hdrs.length) ps

def heldHeaders (ps : List HeldPage) : List WireHeader := ps.flatMap HeldPage.hdrs

theorem contiguous_concat {h : Nat} {ps : List HeldPage} {p : HeldPage}
    (hps : Contiguous h ps) (hp : p.pos = h + (heldHeaders ps).length) :
    Contiguous h (ps ++ [p]) := by
  induction ps generalizing h with
  | nil => exact ⟨hp, trivial⟩
  | cons q ps ih =>
      refine ⟨hps.1, ih hps.2 ?_⟩
      simp only [heldHeaders, List.flatMap_cons, List.length_append] at hp ⊢
      omega

/-- Released in order, contiguous pages leave the chain they describe. -/
theorem takeHeld_spec {h : Nat} {ps : List HeldPage} {store : List (Bytes 80)}
    {r : List (Bytes 80) × Nat} (hps : Contiguous h ps)
    (hzero : ∀ w ∈ heldHeaders ps, w.txnCount = 0) (hpos : h ≤ store.length)
    (hend : ∀ p ∈ ps.head?, store.length ≤ h + p.hdrs.length)
    (hsame : env.SameWork h (heldHeaders ps) store)
    (hr : env.takeHeld m ps store = some r) :
    store <+: r.1 ∧ r.1.length = store.length + r.2 ∧
      (ps ≠ [] → r.1.length = h + (heldHeaders ps).length ∧
        totalWork r.1 = totalWork (store.take h) + pageWork (heldHeaders ps)) := by
  induction ps generalizing h store r with
  | nil =>
      cases hr
      exact ⟨List.prefix_rfl, rfl, fun hne => absurd rfl hne⟩
  | cons p ps ih =>
      obtain ⟨rfl, hrest⟩ := hps
      unfold takeHeld at hr
      split at hr
      · cases hr
      · rename_i t ht
        obtain ⟨r', hr', rfl⟩ := Option.map_eq_some_iff.mp hr
        have hend' : store.length ≤ p.pos + p.hdrs.length := hend p rfl
        have hspec := dlcTakePage_spec hpos ht
        have hzero' : ∀ w ∈ p.hdrs, w.txnCount = 0 := by
          intro w hw
          apply hzero
          simp [heldHeaders, hw]
        have htook := hspec.whole hzero'
        have hlen : t.store.length = p.pos + p.hdrs.length := by
          rw [hspec.length, htook]
          omega
        have hsame' : env.SameWork p.pos p.hdrs store := by
          intro i w hdr hw
          apply hsame i w hdr
          rw [heldHeaders, List.flatMap_cons, List.getElem?_append_left]
          · exact hw
          · exact (List.getElem?_eq_some_iff.mp hw).1
        have hwork := dlcTakePage_work hpos hsame' htook hend' ht
        obtain ⟨hgrown, hadded, hall⟩ := ih hrest
          (fun w hw => hzero w (by simpa [heldHeaders] using Or.inr hw))
          (by omega) (by intro q _; omega) (SameWork.of_length_le (by omega)) hr'
        refine ⟨hspec.grown.trans hgrown, ?_, ?_⟩
        · have := hspec.added
          simp only
          omega
        · intro _
          have hsplit : heldHeaders (p :: ps) = p.hdrs ++ heldHeaders ps := rfl
          rw [hsplit, List.length_append, pageWork_append]
          by_cases hnil : ps = []
          · subst hnil
            cases hr'
            simp [hlen, hwork, heldHeaders]
          · obtain ⟨hlen', hwork'⟩ := hall hnil
            rw [List.take_of_length_le (by omega)] at hwork'
            simp only
            omega

theorem heldPageOk_counts {prev : Bytes 32} {hdrs : List WireHeader}
    (hok : env.heldPageOk prev hdrs = true) : ∀ w ∈ hdrs, w.txnCount = 0 := by
  induction hdrs generalizing prev with
  | nil => simp
  | cons w ws ih =>
      simp only [heldPageOk, Bool.and_eq_true, beq_iff_eq] at hok
      intro x hx
      rcases List.mem_cons.mp hx with rfl | hx
      · exact hok.1.1.1
      · exact ih hok.2 x hx

/-- Wherever a page attaches, the store only grows, by no more than was taken. -/
theorem dlcTakePage_grown {pos : Nat} {prev : Bytes 32} {hdrs : List WireHeader}
    {store : List (Bytes 80)} {t : Took}
    (ht : env.dlcTakePage m pos prev hdrs store = some t) :
    store <+: t.store ∧ t.store.length = store.length + t.added ∧
      t.added ≤ t.took ∧ t.took ≤ hdrs.length := by
  by_cases hpos : pos ≤ store.length
  · have hspec := dlcTakePage_spec hpos ht
    have hlength := hspec.length
    have hadded := hspec.added
    exact ⟨hspec.grown, hadded, by omega, hspec.took_le⟩
  · cases dlcTakePage_gap (by omega) ht
    exact ⟨List.prefix_rfl, rfl, le_rfl, Nat.zero_le _⟩

/-! ## The locator -/

theorem lt_of_mem_locator {store : List (Bytes 80)} {entry : Bytes 32 × Nat}
    (hmem : entry ∈ env.locator store) : entry.2 < store.length := by
  unfold locator at hmem
  split at hmem
  · cases hmem
  · obtain ⟨h, _, hentry⟩ := List.mem_filterMap.mp hmem
    obtain ⟨hdr, hget, rfl⟩ := Option.map_eq_some_iff.mp hentry
    exact (List.getElem?_eq_some_iff.mp hget).1

/-- The entry a page attaches to is the held tail or a stored header. -/
theorem attached_entry {store : List (Bytes 80)} {l : Hold} {prev : Bytes 32}
    {q : (Bytes 32 × Nat) × Nat}
    (hq : ((env.asked store l).zipIdx.find? fun q => q.1.1 = prev) = some q) :
    (l.held ≠ [] → q.2 = 0 → q.1 = (l.tailHash, l.tailHeight)) ∧
      (l.held = [] ∨ q.2 ≠ 0 → q.1.2 < store.length) ∧
      (l.held ≠ [] → prev = l.tailHash → q.2 = 0) := by
  by_cases hheld : l.held = []
  · have hasked : env.asked store l = env.locator store := by
      simp [asked, Hold.tail, hheld]
    rw [hasked] at hq
    have hmem : q.1 ∈ env.locator store :=
      List.fst_mem_of_mem_zipIdx (List.mem_of_find?_eq_some hq)
    exact ⟨fun hne => absurd hheld hne, fun _ => lt_of_mem_locator hmem,
      fun hne => absurd hheld hne⟩
  · have hasked : env.asked store l = (l.tailHash, l.tailHeight) ::
        (env.locator store).take (dlcHdrLocatorMax - 1) := by
      simp [asked, Hold.tail, hheld]
    rw [hasked, List.zipIdx_cons, List.find?_cons] at hq
    split at hq
    · cases hq
      exact ⟨fun _ _ => rfl, fun h => by simp [hheld] at h, fun _ _ => rfl⟩
    · rename_i hne
      have hmem := List.mem_of_find?_eq_some hq
      have hplace := List.le_snd_of_mem_zipIdx hmem
      have hentry := List.mem_of_mem_take (List.fst_mem_of_mem_zipIdx hmem)
      refine ⟨fun _ h0 => by omega, fun _ => lt_of_mem_locator hentry, ?_⟩
      rintro _ rfl
      simp at hne

end FetchEnv

/-! ## What a round keeps -/

/-- Held pages that stand for one chain over the stored headers below `h`, with
the total that chain would have. -/
structure HoldAt (env : FetchEnv) (store : List (Bytes 80)) (h : Nat) (l : Hold) :
    Prop where
  armed : l.armed = true
  base : h ≤ store.length
  contiguous : FetchEnv.Contiguous h l.held
  reaches : ∀ p ∈ l.held.head?, store.length < h + p.hdrs.length
  counts : ∀ w ∈ FetchEnv.heldHeaders l.held, w.txnCount = 0
  sameWork : env.SameWork h (FetchEnv.heldHeaders l.held) store
  cum : l.cum = totalWork (store.take h) + pageWork (FetchEnv.heldHeaders l.held)
  tail : l.tailHeight + 1 = h + (FetchEnv.heldHeaders l.held).length

structure FetchInv (env : FetchEnv) (have0 : Nat) (s : FetchState) : Prop where
  length : s.store.length = have0 + s.added
  paid : s.added = 0 ∨ env.minWork ≤ totalWork s.store
  idle : s.lwStarted = false → s.lw.held = []
  started : s.lwStarted = true → s.lw.held = [] →
    s.lw.armed = true ∧ env.meetsMinimum s.lw.cum = true ∧
      env.minWork ≤ totalWork s.store
  hold : s.lw.held ≠ [] → ∃ h, HoldAt env s.store h s.lw

structure EndOk (env : FetchEnv) (have0 : Nat) (e : FetchEnd) : Prop where
  bounded : have0 + dlcHdrPage ≤ e.store.length → env.minWork ≤ totalWork e.store
  hold : e.handsOver = true → e.lw.held ≠ [] → ∃ h, HoldAt env e.store h e.lw

/-- A round goes on in a good state or ends well. -/
def RoundOk (env : FetchEnv) (have0 : Nat) : Except FetchEnd FetchState → Prop
  | .ok s => FetchInv env have0 s
  | .error e => EndOk env have0 e

section Rounds

variable {env : FetchEnv} {m : Moment} {have0 : Nat} {s : FetchState}

theorem dlcHdrPage_pos : 0 < dlcHdrPage := by decide

/-- An ending that keeps the store. -/
theorem FetchInv.endOk (hinv : FetchInv env have0 s) {e : FetchEnd}
    (hstore : e.store = s.store) (hover : e.handsOver = true → e.lw = s.lw) :
    EndOk env have0 e where
  bounded := by
    intro hmany
    rw [hstore] at hmany ⊢
    have hlength := hinv.length
    have hpage := dlcHdrPage_pos
    rcases hinv.paid with hnone | hpaid
    · omega
    · exact hpaid
  hold := by
    intro hands hheld
    rw [hover hands] at hheld ⊢
    rw [hstore]
    exact hinv.hold hheld

theorem endOk_rollback (s : FetchState) : EndOk env have0 (s.rollback have0) where
  bounded := by
    intro hmany
    have hpage := dlcHdrPage_pos
    simp only [FetchState.rollback, List.length_take] at hmany
    omega
  hold := by
    intro hands
    cases hands

theorem le_of_meetsMinimum {work : Nat} (h : env.meetsMinimum work = true) :
    env.minWork ≤ work := by
  unfold FetchEnv.meetsMinimum at h
  split at h
  · omega
  · split at h
    · cases h
    · simpa using h

theorem meetsMinimum_mono {work work' : Nat} (hle : work ≤ work')
    (h : env.meetsMinimum work = true) : env.meetsMinimum work' = true := by
  unfold FetchEnv.meetsMinimum at h ⊢
  split
  · rfl
  · rename_i hset
    rw [if_neg hset] at h
    split
    · rename_i hwide
      rw [if_pos hwide] at h
      exact h
    · rename_i hwide
      rw [if_neg hwide] at h
      simp only [decide_eq_true_eq] at h ⊢
      omega

/-- A page that is let through with nothing held: it may end the fetch, or it is
a full page taken whole. -/
theorem takeCurrent_roundOk {pos : Nat} {prev : Bytes 32} {hdrs : List WireHeader}
    (hlength : s.store.length = have0 + s.added) (hstarted : s.lwStarted = true)
    (hheld : s.lw.held = []) (harmed : s.lw.armed = true)
    (hend : ∀ t, env.dlcTakePage m pos prev hdrs s.store = some t →
      t.took < hdrs.length ∨ hdrs.length < dlcHdrPage →
        have0 + dlcHdrPage ≤ t.store.length → env.minWork ≤ totalWork t.store)
    (hgo : ∀ t, env.dlcTakePage m pos prev hdrs s.store = some t →
      t.took = hdrs.length → dlcHdrPage ≤ hdrs.length →
        env.meetsMinimum s.lw.cum = true ∧ env.minWork ≤ totalWork t.store) :
    RoundOk env have0 (s.takeCurrent env m have0 pos prev hdrs) := by
  unfold FetchState.takeCurrent
  split
  · exact endOk_rollback s
  · rename_i t ht
    obtain ⟨_, hadded, _, htook⟩ := FetchEnv.dlcTakePage_grown ht
    simp only
    split
    · rename_i hlast
      simp only [Bool.or_eq_true, decide_eq_true_eq] at hlast
      exact ⟨hend t ht hlast, fun hands => by cases hands⟩
    · rename_i hfull
      simp only [Bool.or_eq_true, decide_eq_true_eq, not_or, not_lt] at hfull
      obtain ⟨hmeets, hpaid⟩ := hgo t ht (by omega) hfull.2
      refine ⟨by simp only; omega, Or.inr hpaid, ?_, ?_, ?_⟩
      · intro hno
        rw [hstarted] at hno
        cases hno
      · intro _ _
        exact ⟨harmed, hmeets, hpaid⟩
      · intro hne
        exact absurd hheld hne

/-- If a full page that is taken whole has paid, any page may be taken. -/
theorem takeCurrent_ok {pos : Nat} {prev : Bytes 32} {hdrs : List WireHeader}
    (hlength : s.store.length = have0 + s.added)
    (hpaid : s.added = 0 ∨ env.minWork ≤ totalWork s.store)
    (hpage : hdrs.length ≤ dlcHdrPage) (hstarted : s.lwStarted = true)
    (hheld : s.lw.held = []) (harmed : s.lw.armed = true)
    (hcross : hdrs.length = dlcHdrPage → env.meetsMinimum s.lw.cum = true ∧
      ∀ t, env.dlcTakePage m pos prev hdrs s.store = some t →
        t.took = hdrs.length → env.minWork ≤ totalWork t.store) :
    RoundOk env have0 (s.takeCurrent env m have0 pos prev hdrs) := by
  refine takeCurrent_roundOk hlength hstarted hheld harmed ?_ ?_
  · intro t ht hlast hmany
    obtain ⟨hgrown, hadded, hle, htook⟩ := FetchEnv.dlcTakePage_grown ht
    have hmore := totalWork_le_of_isPrefix hgrown
    rcases hpaid with hnone | hpaid
    · omega
    · omega
  · intro t ht htook hfull
    obtain ⟨hmeets, hwork⟩ := hcross (by omega)
    exact ⟨hmeets, hwork t ht htook⟩

/-- Nothing held: the page is weighed on the stored headers below it. -/
theorem settle_unheld {pos : Nat} {prev lastHash : Bytes 32} {hdrs : List WireHeader}
    (hlength : s.store.length = have0 + s.added)
    (hpaid : s.added = 0 ∨ env.minWork ≤ totalWork s.store)
    (hpage : hdrs.length ≤ dlcHdrPage) (hstarted : s.lwStarted = true)
    (hheld : s.lw.held = []) (harmed : s.lw.armed = true)
    (hpos : pos ≤ s.store.length) (hend : s.store.length < pos + hdrs.length)
    (hsame : env.SameWork pos hdrs s.store)
    (hcum : s.lw.cum = totalWork (s.store.take pos) ∨
      env.meetsMinimum s.lw.cum = true ∧ env.minWork ≤ totalWork s.store) :
    RoundOk env have0
      (FetchState.settlePage env m have0 pos prev hdrs
        { s with lw := (env.lowworkPage s.lw hdrs pos prev lastHash m.mapped).1 }
        (env.lowworkPage s.lw hdrs pos prev lastHash m.mapped).2) := by
  unfold FetchEnv.lowworkPage
  simp only [harmed, hheld, Bool.not_true, Bool.false_eq_true, if_false, if_true]
  split
  · rename_i hmeets
    refine takeCurrent_ok hlength hpaid hpage hstarted rfl rfl ?_
    intro _
    refine ⟨hmeets, ?_⟩
    intro t ht htook
    rcases hcum with hcum | ⟨_, hall⟩
    · rw [FetchEnv.dlcTakePage_work hpos hsame htook (by omega) ht, ← hcum]
      exact le_of_meetsMinimum hmeets
    · obtain ⟨hgrown, _⟩ := FetchEnv.dlcTakePage_grown ht
      exact hall.trans (totalWork_le_of_isPrefix hgrown)
  · rename_i hbelow
    have hfresh : s.lw.cum = totalWork (s.store.take pos) := by
      rcases hcum with hcum | ⟨hmet, _⟩
      · exact hcum
      · exact absurd (meetsMinimum_mono (Nat.le_add_right _ _) hmet) hbelow
    split
    · rename_i hshort
      refine takeCurrent_ok hlength hpaid hpage hstarted rfl rfl ?_
      intro hfull
      omega
    · split
      · exact endOk_rollback _
      · split
        · exact endOk_rollback _
        · simp only [FetchState.settlePage]
          split
          · rename_i hok
            refine ⟨hlength, hpaid, ?_, ?_, ?_⟩
            · intro hno
              rw [hstarted] at hno
              cases hno
            · intro _ hno
              simp at hno
            · intro _
              refine ⟨pos, rfl, hpos, ⟨rfl, trivial⟩, ?_, ?_, ?_, ?_, ?_⟩
              · intro p hp
                cases hp
                exact hend
              · simpa [FetchEnv.heldHeaders] using FetchEnv.heldPageOk_counts hok
              · simpa [FetchEnv.heldHeaders] using hsame
              · simp [FetchEnv.heldHeaders, hfresh]
              · simp only [FetchEnv.heldHeaders, List.nil_append,
                  List.flatMap_cons, List.flatMap_nil, List.append_nil]
                omega
          · exact endOk_rollback _

theorem FetchEnv.SameWork.append {h : Nat} {xs ys : List WireHeader}
    {store : List (Bytes 80)} (hsame : env.SameWork h xs store)
    (hend : store.length ≤ h + xs.length) : env.SameWork h (xs ++ ys) store := by
  intro i w hdr hw hget
  have hlt := (List.getElem?_eq_some_iff.mp hget).1
  rw [List.getElem?_append_left (by omega)] at hw
  exact hsame i w hdr hw hget

theorem HoldAt.length_lt {h : Nat} {store : List (Bytes 80)} {l : Hold}
    (hold : HoldAt env store h l) (hheld : l.held ≠ []) :
    store.length < h + (FetchEnv.heldHeaders l.held).length := by
  cases hl : l.held with
  | nil => exact absurd hl hheld
  | cons p ps =>
      have := hold.reaches p (by rw [hl]; rfl)
      simp only [FetchEnv.heldHeaders, List.flatMap_cons, List.length_append]
      omega

/-- Pages held, and one more that continues them. -/
theorem settle_held {h pos : Nat} {prev lastHash : Bytes 32} {hdrs : List WireHeader}
    (hlength : s.store.length = have0 + s.added)
    (hpaid : s.added = 0 ∨ env.minWork ≤ totalWork s.store)
    (hstarted : s.lwStarted = true) (hheld : s.lw.held ≠ [])
    (hold : HoldAt env s.store h s.lw) (hpos : pos = s.lw.tailHeight + 1)
    (hne : 0 < hdrs.length)
    (hzero : env.meetsMinimum (s.lw.cum + pageWork hdrs) = true →
      ∀ w ∈ hdrs, w.txnCount = 0) :
    RoundOk env have0
      (FetchState.settlePage env m have0 pos prev hdrs
        { s with lw := (env.lowworkPage s.lw hdrs pos prev lastHash m.mapped).1 }
        (env.lowworkPage s.lw hdrs pos prev lastHash m.mapped).2) := by
  have htail := hold.tail
  have hlt := hold.length_lt hheld
  unfold FetchEnv.lowworkPage
  simp only [hold.armed, hheld, Bool.not_true, Bool.false_eq_true, if_false]
  split
  · rename_i hmeets
    simp only [FetchState.settlePage]
    split
    · exact endOk_rollback _
    · rename_i r hr
      obtain ⟨_, hadded, hall⟩ := FetchEnv.takeHeld_spec hold.contiguous hold.counts
        hold.base (fun p hp => (hold.reaches p hp).le) hold.sameWork hr
      obtain ⟨hlen, hwork⟩ := hall hheld
      have hthere : pos = r.1.length := by omega
      have hpaid' : ∀ t, env.dlcTakePage m pos prev hdrs r.1 = some t →
          env.minWork ≤ totalWork t.store := by
        intro t ht
        have hspec := FetchEnv.dlcTakePage_spec hthere.le ht
        have hwhole := FetchEnv.dlcTakePage_work hthere.le
          (FetchEnv.SameWork.of_length_le hthere.ge) (hspec.whole (hzero hmeets))
          (by omega) ht
        simp only [hthere, List.take_length] at hwhole
        rw [hwhole, hwork, ← hold.cum]
        exact le_of_meetsMinimum hmeets
      exact takeCurrent_roundOk (by simp only; omega) hstarted rfl rfl
        (fun t ht _ _ => hpaid' t ht) (fun t ht _ _ => ⟨hmeets, hpaid' t ht⟩)
  · split
    · -- a short page below the floor is let through, but its parent is only held
      simp only [FetchState.settlePage, FetchState.takeCurrent]
      split
      · exact endOk_rollback _
      · rename_i t ht
        cases FetchEnv.dlcTakePage_gap (by omega) ht
        simp only [hne, decide_true, Bool.true_or, if_true]
        constructor
        · intro hmany
          have hpage := dlcHdrPage_pos
          simp only [FetchState.stop] at hmany ⊢
          rcases hpaid with hnone | hpaid
          · omega
          · exact hpaid
        · intro hands
          cases hands
    · split
      · exact endOk_rollback _
      · simp only [decide_false, Bool.false_and, Bool.false_eq_true, if_false,
          FetchState.settlePage]
        split
        · rename_i hok
          refine ⟨hlength, hpaid, ?_, ?_, ?_⟩
          · intro hno
            rw [hstarted] at hno
            cases hno
          · intro _ hno
            simp at hno
          · intro _
            have happ : FetchEnv.heldHeaders (s.lw.held ++ [⟨hdrs, pos, prev⟩]) =
                FetchEnv.heldHeaders s.lw.held ++ hdrs := by
              simp [FetchEnv.heldHeaders]
            refine ⟨h, rfl, hold.base, ?_, ?_, ?_, ?_, ?_, ?_⟩
            · apply FetchEnv.contiguous_concat hold.contiguous
              simp only
              omega
            · intro p hp
              apply hold.reaches p
              rwa [List.head?_append_of_ne_nil _ hheld] at hp
            · rw [happ]
              intro w hw
              rcases List.mem_append.mp hw with hw | hw
              · exact hold.counts w hw
              · exact FetchEnv.heldPageOk_counts hok w hw
            · rw [happ]
              exact hold.sameWork.append hlt.le
            · simp only [happ, pageWork_append, hold.cum]
              omega
            · rw [happ, List.length_append]
              simp only
              omega
        · exact endOk_rollback _

/-- A page that does not reach what goes wrong: while pages are held by this
fetch it continues them, the page that releases them carries no transaction
count, and no header of it has the hash of a stored one with other work. -/
structure PageClean (env : FetchEnv) (s : FetchState) (first : WireHeader)
    (hdrs : List WireHeader) : Prop where
  continues : s.lw.held ≠ [] → s.carried = false →
    hdrPrev first.hdr = s.lw.tailHash
  counts : s.lw.held ≠ [] → hdrPrev first.hdr = s.lw.tailHash →
    env.meetsMinimum (s.lw.cum + pageWork hdrs) = true → ∀ w ∈ hdrs, w.txnCount = 0
  sameWork : ∀ w ∈ hdrs, ∀ hdr ∈ s.store, env.blockHash hdr = env.blockHash w.hdr →
    blockProof (hdrBits hdr) = blockProof (hdrBits w.hdr)

def ReplyClean (env : FetchEnv) (s : FetchState) : Reply → Prop
  | .page _ hdrs => ∀ first ∈ hdrs.head?, PageClean env s first hdrs
  | _ => True

theorem FetchInv.dropUncontinued (hinv : FetchInv env have0 s) (place : Nat) :
    FetchInv env have0 (s.dropUncontinued place) := by
  unfold FetchState.dropUncontinued
  split
  · refine ⟨hinv.length, hinv.paid, fun _ => rfl, ?_, ?_⟩
    · intro hno
      cases hno
    · intro hno
      exact absurd rfl hno
  · exact hinv

@[simp] theorem dropUncontinued_store (place : Nat) :
    (s.dropUncontinued place).store = s.store := by
  unfold FetchState.dropUncontinued
  split
  · rfl
  · rfl

/-- What is still held afterwards is what was held, and the page continues it. -/
theorem held_dropUncontinued {place : Nat}
    (hplace : s.lw.held ≠ [] → s.carried = false → place = 0)
    (hheld : (s.dropUncontinued place).lw.held ≠ []) :
    (s.dropUncontinued place).lw = s.lw ∧ place = 0 := by
  unfold FetchState.dropUncontinued at hheld ⊢
  split
  · rename_i hdrop
    rw [if_pos hdrop] at hheld
    exact absurd rfl hheld
  · rename_i hkeep
    rw [if_neg hkeep] at hheld
    refine ⟨rfl, ?_⟩
    cases hcarried : s.carried with
    | false => exact hplace hheld hcarried
    | true => simpa [hcarried] using hkeep

theorem unheld_dropUncontinued {place : Nat}
    (hheld : (s.dropUncontinued place).lw.held = []) :
    s.lw.held = [] ∨ place ≠ 0 := by
  unfold FetchState.dropUncontinued at hheld
  split at hheld
  · rename_i hdrop
    right
    simp only [Bool.and_eq_true, bne_iff_ne] at hdrop
    exact hdrop.2
  · exact Or.inl hheld

theorem sameWork_of_mem {pos : Nat} {hdrs : List WireHeader} {store : List (Bytes 80)}
    (h : ∀ w ∈ hdrs, ∀ hdr ∈ store, env.blockHash hdr = env.blockHash w.hdr →
      blockProof (hdrBits hdr) = blockProof (hdrBits w.hdr)) :
    env.SameWork pos hdrs store := by
  intro i w hdr hw hget
  exact h w (List.mem_of_getElem? hw) hdr (List.mem_of_getElem? hget)

theorem round_page (hinv : FetchInv env have0 s) (hset : env.minWork ≠ 0)
    {hdrs : List WireHeader} {first : WireHeader} {lastHash : Bytes 32}
    {q : (Bytes 32 × Nat) × Nat} (hclean : PageClean env s first hdrs)
    (hpage : hdrs.length ≤ dlcHdrPage) (hne : 0 < hdrs.length)
    (hq : ((env.asked s.store s.lw).zipIdx.find? fun q =>
      q.1.1 = hdrPrev first.hdr) = some q) :
    RoundOk env have0 (s.attachPage env m have0 q.1 q.2 hdrs lastHash) := by
  obtain ⟨htail, hstored, hfirst⟩ := FetchEnv.attached_entry hq
  have hentry := List.find?_some hq
  have hinv' := hinv.dropUncontinued q.2
  have hplace : s.lw.held ≠ [] → s.carried = false → q.2 = 0 :=
    fun hheld hown => hfirst hheld (hclean.continues hheld hown)
  unfold FetchState.attachPage
  simp only [dropUncontinued_store]
  split
  · exact endOk_rollback _
  · split
    · exact hinv'.endOk (by simp) (fun hands => by cases hands)
    · rename_i hreach
      have hsame : env.SameWork (q.1.2 + 1) hdrs (s.dropUncontinued q.2).store := by
        rw [dropUncontinued_store]
        exact sameWork_of_mem hclean.sameWork
      by_cases hheld : (s.dropUncontinued q.2).lw.held = []
      · have hbelow : q.1.2 + 1 ≤ (s.dropUncontinued q.2).store.length := by
          rw [dropUncontinued_store]
          exact hstored (unheld_dropUncontinued hheld)
        unfold FetchState.startHold
        split
        · rename_i hstarted
          obtain ⟨harmed, hmeets, hpaid⟩ := hinv'.started hstarted hheld
          exact settle_unheld hinv'.length hinv'.paid hpage hstarted hheld harmed
            hbelow (by simpa using hreach) hsame
            (Or.inr ⟨hmeets, hpaid⟩)
        · exact settle_unheld (s := { s.dropUncontinued q.2 with
              lw := Hold.start
                (totalWork ((s.dropUncontinued q.2).store.take (q.1.2 + 1)))
                env.minChainWorkSet
              lwStarted := true }) hinv'.length hinv'.paid hpage rfl rfl
            (by simpa [Hold.start, FetchEnv.minChainWorkSet] using hset)
            hbelow (by simpa using hreach) hsame (Or.inl rfl)
      · obtain ⟨hlw, hzero⟩ := held_dropUncontinued hplace hheld
        have hheld' : s.lw.held ≠ [] := by rwa [hlw] at hheld
        obtain ⟨h, hold⟩ := hinv'.hold hheld
        have hstarted : (s.dropUncontinued q.2).lwStarted = true := by
          by_contra hno
          exact hheld (hinv'.idle (by simpa using hno))
        have hat := htail hheld' hzero
        have hprev : hdrPrev first.hdr = s.lw.tailHash := by
          rw [hat] at hentry
          exact (of_decide_eq_true hentry).symm
        unfold FetchState.startHold
        rw [if_pos hstarted]
        refine settle_held hinv'.length hinv'.paid hstarted hheld hold ?_ hne ?_
        · rw [hat, hlw]
        · rw [hlw]
          exact hclean.counts hheld' hprev

/-- One round, from any good state, on any reply that is clean. -/
theorem round_ok (hinv : FetchInv env have0 s) (hset : env.minWork ≠ 0) {reply : Reply}
    (hclean : ReplyClean env s reply) : RoundOk env have0 (s.round env have0 reply) := by
  have hkept : ∀ e : FetchEnd, e.store = s.store → e.lw = s.lw →
      RoundOk env have0 (.error e) :=
    fun e hstore hlw => hinv.endOk hstore fun _ => hlw
  cases reply with
  | slow => exact hkept _ rfl rfl
  | unsent => exact hkept _ rfl rfl
  | silent =>
      simp only [FetchState.round]
      split
      · exact hkept _ rfl rfl
      · split
        · exact hkept _ rfl rfl
        · exact hkept _ rfl rfl
  | malformed =>
      simp only [FetchState.round]
      split
      · exact hkept _ rfl rfl
      · exact hkept _ rfl rfl
  | page m hdrs =>
      simp only [FetchState.round]
      split
      · exact hkept _ rfl rfl
      · split
        · exact hkept _ rfl rfl
        · rename_i hpage
          split
          · rename_i first last hfirst hlast
            split
            · exact endOk_rollback s
            · rename_i q hq
              refine round_page hinv hset (hclean first hfirst) (by omega) ?_ hq
              exact List.length_pos_of_mem (List.mem_of_mem_head? hfirst)
          · exact hkept _ rfl rfl

/-- Every reply of a fetch is clean when it is read. -/
def FetchClean (env : FetchEnv) (have0 : Nat) :
    Nat → FetchState → List Reply → Prop
  | 0, _, _ => True
  | n + 1, s, replies =>
      ReplyClean env s (replies.headD .silent) ∧
        ∀ s', s.round env have0 (replies.headD .silent) = .ok s' →
          FetchClean env have0 n s' replies.tail

theorem rounds_ok (hset : env.minWork ≠ 0) {n : Nat} {replies : List Reply}
    (hinv : FetchInv env have0 s) (hclean : FetchClean env have0 n s replies) :
    EndOk env have0 (s.rounds env have0 n replies) := by
  induction n generalizing s replies with
  | zero => exact hinv.endOk rfl fun _ => rfl
  | succ n ih =>
      have hround := round_ok hinv hset hclean.1
      unfold FetchState.rounds
      split
      · rename_i e he
        rw [he] at hround
        exact hround
      · rename_i s' hs
        rw [hs] at hround
        exact ih hround (hclean.2 s' hs)

end Rounds

/-! ## Fetches in turn -/

/-- The states in which a fetch may begin, when every fetch before it in the
chain of handed-over holds was clean.  Without the flag the hold is dropped, so
the store and the hold may be anything. -/
inductive Handed (env : FetchEnv) : Session → Prop
  | fresh (store : List (Bytes 80)) (lw : Hold) : Handed env ⟨store, lw, false⟩
  | carried {d : Session} {replies : List Reply} (before : Handed env d)
      (clean : FetchClean env d.store.length dlcHdrRounds d.begin replies)
      (handed : (dlcFetchHeaders env d replies).handsOver = true) :
      Handed env ⟨(dlcFetchHeaders env d replies).store,
        (dlcFetchHeaders env d replies).lw, true⟩

theorem begin_inv {env : FetchEnv} {d : Session}
    (hold : d.carry = true → d.lw.held ≠ [] → ∃ h, HoldAt env d.store h d.lw) :
    FetchInv env d.store.length d.begin := by
  unfold Session.begin
  split
  · rename_i htaken
    simp only [Bool.and_eq_true, Bool.not_eq_true', List.isEmpty_eq_false_iff] at htaken
    refine ⟨rfl, Or.inl rfl, ?_, ?_, fun hheld => hold htaken.1 hheld⟩
    · intro hno
      cases hno
    · intro _ hheld
      exact absurd hheld htaken.2
  · refine ⟨rfl, Or.inl rfl, fun _ => rfl, ?_, ?_⟩
    · intro hno
      cases hno
    · intro hno
      exact absurd rfl hno

theorem Handed.hold {env : FetchEnv} {d : Session} (hset : env.minWork ≠ 0)
    (h : Handed env d) :
    d.carry = true → d.lw.held ≠ [] → ∃ h, HoldAt env d.store h d.lw := by
  induction h with
  | fresh store lw =>
      intro hno
      cases hno
  | carried before clean handed ih =>
      intro _
      exact (rounds_ok hset (begin_inv ih) clean).hold handed

/-- A fetch that leaves a full page or more of new headers leaves a chain that
has paid. -/
theorem fetched_page_paid (env : FetchEnv) (d : Session) (replies : List Reply)
    (before : Handed env d)
    (clean : FetchClean env d.store.length dlcHdrRounds d.begin replies)
    (many : d.store.length + 2000 ≤ (dlcFetchHeaders env d replies).store.length) :
    env.minWork ≤ totalWork (dlcFetchHeaders env d replies).store := by
  by_cases hset : env.minWork = 0
  · omega
  · exact (rounds_ok hset (begin_inv (before.hold hset)) clean).bounded many

/-! ## A page cut short -/

theorem or_shiftLeft_of_lt {a b i : Nat} (ha : a < 2 ^ i) : a ||| b <<< i = a + b * 2 ^ i := by
  rw [Nat.or_comm, ← Nat.shiftLeft_add_eq_or_of_lt ha, Nat.shiftLeft_eq]
  omega

theorem toNat_rd32le (a b c d : UInt8) (rest : List UInt8) :
    (rd32le (a :: b :: c :: d :: rest)).toNat = leVal [a, b, c, d] := by
  have ha := a.toNat_lt
  have hb := b.toNat_lt
  have hc := c.toNat_lt
  have hd := d.toNat_lt
  have hshift : ∀ (x : UInt8) (i : Nat), i ≤ 24 → x.toNat <<< i % 2 ^ 32 = x.toNat <<< i := by
    intro x i hi
    have hx := x.toNat_lt
    have hpow : 2 ^ i ≤ 2 ^ 24 := Nat.pow_le_pow_right (by decide) hi
    rw [Nat.shiftLeft_eq, Nat.mod_eq_of_lt]
    calc x.toNat * 2 ^ i ≤ 255 * 2 ^ 24 := Nat.mul_le_mul (by omega) hpow
      _ < 2 ^ 32 := by decide
  have h8 := hshift b 8 (by omega)
  have h16 := hshift c 16 (by omega)
  have h24 := hshift d 24 (by omega)
  simp only [rd32le, List.getD_cons_zero, List.getD_cons_succ, leVal_cons, leVal_nil,
    UInt32.toNat_or, UInt32.toNat_shiftLeft, UInt8.toNat_toUInt32]
  change ((a.toNat ||| b.toNat <<< 8 % 2 ^ 32) ||| c.toNat <<< 16 % 2 ^ 32) |||
    d.toNat <<< 24 % 2 ^ 32 = _
  have hab : a.toNat + b.toNat * 2 ^ 8 < 2 ^ 16 := by omega
  have habc : a.toNat + b.toNat * 2 ^ 8 + c.toNat * 2 ^ 16 < 2 ^ 24 := by omega
  rw [h8, h16, h24, or_shiftLeft_of_lt ha, or_shiftLeft_of_lt hab, or_shiftLeft_of_lt habc]
  omega

theorem hdrPrev_wireHdr (prev : Bytes 32) (root time : Nat) :
    hdrPrev (wireHdr prev root time) = prev := by
  apply Subtype.ext
  simp [hdrPrev, wireHdr, Bytes.slice, prev.2]

theorem hdrBits_wireHdr (prev : Bytes 32) (root time : Nat) :
    hdrBits (wireHdr prev root time) = 0x207fffff := by
  have hsplit : (wireHdr prev root time).1 =
      (leBytes 4 4 ++ prev.1 ++ leBytes 32 root ++ leBytes 4 time) ++
        (leBytes 4 0x207fffff ++ leBytes 4 0) := by
    simp [wireHdr]
  have hslice : ((wireHdr prev root time).slice 72 4 (by omega)).1 =
      leBytes 4 0x207fffff := by
    simp only [Bytes.slice, hsplit]
    rw [List.drop_left' (by simp [prev.2]), List.take_left' (by simp)]
  simp only [hdrBits, hslice]
  decide

theorem hdrTime_wireHdr (prev : Bytes 32) (root : Nat) {time : Nat}
    (htime : time < 256 ^ 4) :
    (hdrTime (wireHdr prev root time).1).toNat = time := by
  have hsplit : (wireHdr prev root time).1 =
      (leBytes 4 4 ++ prev.1 ++ leBytes 32 root) ++
        (leBytes 4 time ++ (leBytes 4 0x207fffff ++ leBytes 4 0)) := by
    simp [wireHdr]
  have hval := leVal_leBytes 4 time
  rw [Nat.mod_eq_of_lt htime] at hval
  rw [hdrTime, hsplit, List.drop_left' (by simp [prev.2])]
  exact (toNat_rd32le _ _ _ _ _).trans hval

theorem hdrVersion_wireHdr (prev : Bytes 32) (root time : Nat) :
    hdrVersion (wireHdr prev root time) = 4 := by
  change (rd32le [4, 0, 0, 0]).toInt32.toInt = 4
  decide

/-- A proof-of-work check that every header passes, and a floor of 4004, which
is 2002 headers of the least work. -/
def floodEnv (hash : Bytes 80 → Bytes 32) : FetchEnv where
  blockHash := hash
  powCheck _ := true
  minWork := 4004
  scriptFlags _ _ := 0xFFFF
  bip34 := 1
  bip94 := false

def floodMoment : Moment := ⟨10000, fun _ => false, fun _ => true, true⟩

/-- A chain over `genesisHdr`, one second apart. -/
def chainHdr (hash : Bytes 80 → Bytes 32) : Nat → Bytes 80
  | 0 => genesisHdr
  | n + 1 => wireHdr (hash (chainHdr hash n)) 1 (1001 + n)

def chainTo (hash : Bytes 80 → Bytes 32) : Nat → List (Bytes 80)
  | 0 => []
  | n + 1 => chainTo hash n ++ [chainHdr hash n]

/-- The headers from height `k` on, as a peer sends them. -/
def chainPage (hash : Bytes 80 → Bytes 32) : Nat → Nat → List WireHeader
  | _, 0 => []
  | k, n + 1 => ⟨chainHdr hash k, 0⟩ :: chainPage hash (k + 1) n

section Flood

variable {hash : Bytes 80 → Bytes 32}

@[simp] theorem blockHash_floodEnv : (floodEnv hash).blockHash = hash := rfl

@[simp] theorem length_chainTo (n : Nat) : (chainTo hash n).length = n := by
  induction n with
  | zero => rfl
  | succ n ih => simp [chainTo, ih]

@[simp] theorem length_chainPage (k n : Nat) : (chainPage hash k n).length = n := by
  induction n generalizing k with
  | zero => rfl
  | succ n ih => simp [chainPage, ih]

theorem getLast?_chainPage (k n : Nat) :
    (chainPage hash k (n + 1)).getLast? = some ⟨chainHdr hash (k + n), 0⟩ := by
  induction n generalizing k with
  | zero => rfl
  | succ n ih =>
      rw [chainPage, List.getLast?_cons, ih, show k + 1 + n = k + (n + 1) by omega]
      rfl

theorem getElem?_chainTo {n k : Nat} (hk : k < n) :
    (chainTo hash n)[k]? = some (chainHdr hash k) := by
  induction n with
  | zero => omega
  | succ n ih =>
      rw [chainTo]
      by_cases hlast : k = n
      · subst hlast
        rw [List.getElem?_append_right (by simp)]
        simp
      · rw [List.getElem?_append_left (by simp; omega)]
        exact ih (by omega)

theorem blockProof_chainHdr (n : Nat) : blockProof (hdrBits (chainHdr hash n)) = 2 := by
  cases n with
  | zero =>
      change blockProof (hdrBits genesisHdr) = 2
      decide
  | succ n =>
      rw [chainHdr, hdrBits_wireHdr]
      decide

@[simp] theorem totalWork_chainTo (n : Nat) : totalWork (chainTo hash n) = 2 * n := by
  induction n with
  | zero => rfl
  | succ n ih =>
      rw [chainTo, totalWork_append, ih, totalWork_cons, blockProof_chainHdr]
      simp
      omega

@[simp] theorem pageWork_chainPage (k n : Nat) : pageWork (chainPage hash k n) = 2 * n := by
  induction n generalizing k with
  | zero => rfl
  | succ n ih =>
      rw [chainPage, pageWork_cons, blockProof_chainHdr, ih]
      omega

theorem hdrPrev_chainHdr (n : Nat) :
    hdrPrev (chainHdr hash (n + 1)) = hash (chainHdr hash n) :=
  hdrPrev_wireHdr _ _ _

theorem hdrTime_chainHdr {n : Nat} (hn : n < 100000) :
    (hdrTime (chainHdr hash n).1).toNat = 1000 + n := by
  cases n with
  | zero =>
      change (hdrTime genesisHdr.1).toNat = 1000
      decide
  | succ n =>
      rw [chainHdr, hdrTime_wireHdr _ _ (by omega)]
      omega

theorem mapM_eq_some_map {α β : Type} {f : α → Option β} {g : α → β} {xs : List α}
    (h : ∀ x ∈ xs, f x = some (g x)) : xs.mapM f = some (xs.map g) := by
  induction xs with
  | nil => rfl
  | cons x xs ih =>
      rw [List.mapM_cons, h x List.mem_cons_self,
        ih fun y hy => h y (List.mem_cons_of_mem _ hy)]
      rfl

/-- The median of the window is the time of one of its headers. -/
theorem mtpAt_chainTo {k : Nat} (hk : k < 100000) :
    ∃ mtp, mtpAt ((chainTo hash (k + 1))[·]?) k = some mtp ∧ mtp ≤ 1000 + k := by
  have hget : ∀ h ∈ mtpWindow k, (chainTo hash (k + 1))[h]? = some (chainHdr hash h) := by
    intro h hh
    obtain ⟨i, _, rfl⟩ := List.mem_map.mp hh
    exact getElem?_chainTo (by omega)
  unfold mtpAt
  rw [mapM_eq_some_map hget]
  refine ⟨_, rfl, ?_⟩
  simp only
  generalize htimes : List.insertionSort (fun a b : Nat => a ≤ b) _ = times
  rw [List.getD_eq_getElem?_getD]
  cases hat : times[times.length / 2]? with
  | none => simp
  | some t =>
      have hmem := List.mem_of_getElem? hat
      rw [← htimes, List.mem_insertionSort] at hmem
      simp only [List.map_map, List.mem_map, Function.comp_apply] at hmem
      obtain ⟨h, hh, rfl⟩ := hmem
      obtain ⟨i, _, rfl⟩ := List.mem_map.mp hh
      rw [Option.getD_some, hdrTime_chainHdr (by omega)]
      omega

theorem takesHeader_chainHdr {k : Nat} (hk : k < 10000) :
    (floodEnv hash).takesHeader floodMoment (chainTo hash (k + 1)) (k + 1) (chainHdr hash (k + 1)) =
      true := by
  obtain ⟨mtp, hmtp, hle⟩ : ∃ mtp, mtpAt ((chainTo hash (k + 1))[·]?) k = some mtp ∧
      mtp ≤ 1000 + k := mtpAt_chainTo (by omega)
  have htime : (hdrTime (chainHdr hash (k + 1)).1).toNat = 1000 + (k + 1) :=
    hdrTime_chainHdr (by omega)
  have hver : hdrVersion (chainHdr hash (k + 1)) = 4 := hdrVersion_wireHdr _ _ _
  have hctx : hdrContextualOk (k + 1) (chainHdr hash (k + 1)) mtp floodMoment.now
      ((floodEnv hash).scriptFlags (k + 1) (hash (chainHdr hash (k + 1))))
      (floodEnv hash).bip34 = none := by
    simp only [hdrContextualOk, htime, hver, floodMoment, hdrMaxFutureBlockTime]
    rw [if_neg (by omega), if_neg (by omega), if_neg (by omega), if_neg (by omega),
      if_neg (by omega)]
  have hparent : (chainTo hash (k + 1))[k]? = some (chainHdr hash k) :=
    getElem?_chainTo (Nat.lt_succ_self k)
  simp only [FetchEnv.takesHeader, blockHash_floodEnv, Nat.succ_ne_zero, if_false, Nat.add_sub_cancel,
    hmtp, hparent, hctx]
  rfl

theorem takeHeaders_chainPage {k n have_ : Nat} (hhave : have_ ≤ k + 1)
    (hn : k + n < 10000) :
    (floodEnv hash).takeHeaders floodMoment have_ (k + 1) (hash (chainHdr hash k))
      (chainPage hash (k + 1) n) (chainTo hash (k + 1)) = some ⟨chainTo hash (k + 1 + n), n, n⟩ := by
  induction n generalizing k with
  | zero => rfl
  | succ n ih =>
      rw [chainPage, FetchEnv.takeHeaders, if_neg (by simp),
        if_neg (by simp [hdrPrev_chainHdr]), if_neg (by omega),
        if_pos (takesHeader_chainHdr (by omega))]
      have hrest := ih (k := k + 1) (by omega) (by omega)
      rw [show chainTo hash (k + 1) ++ [chainHdr hash (k + 1)] =
          chainTo hash (k + 1 + 1) from rfl, blockHash_floodEnv, hrest, show k + 1 + 1 + n = k + 1 + (n + 1) by omega]
      rfl

theorem heldPageOk_chainPage (k n : Nat) :
    (floodEnv hash).heldPageOk (hash (chainHdr hash k)) (chainPage hash (k + 1) n) =
      true := by
  induction n generalizing k with
  | zero => rfl
  | succ n ih =>
      simp only [chainPage, FetchEnv.heldPageOk, hdrPrev_chainHdr, blockHash_floodEnv,
        ih (k + 1)]
      simp [floodEnv]

/-- Genesis is stored and nothing is held. -/
def floodSession (hash : Bytes 80 → Bytes 32) : Session := ⟨chainTo hash 1, Hold.start 0 true, false⟩

/-- A full page over genesis, and one header after it with this transaction
count. -/
def floodReplies (hash : Bytes 80 → Bytes 32) (count : UInt8) : List Reply :=
  [.page floodMoment (chainPage hash 1 dlcHdrPage),
    .page floodMoment [⟨chainHdr hash (dlcHdrPage + 1), count⟩]]

/-- The page is held: `n` headers, with genesis two short of the floor. -/
def floodHeld (hash : Bytes 80 → Bytes 32) (n : Nat) : FetchState :=
  ⟨chainTo hash 1, ⟨true, 2 + 2 * n, [⟨chainPage hash 1 n, 1, hash genesisHdr⟩],
    hash (chainHdr hash n), n⟩, 0, true, false⟩

theorem locator_genesis :
    (floodEnv hash).locator (chainTo hash 1) = [(hash genesisHdr, 0)] := by
  simp [FetchEnv.locator, chainTo, chainHdr, locatorHeights, dlcHdrLocatorMax]

theorem floodHeld_of_first {n : Nat} (hn : n + 1 = dlcHdrPage) :
    (floodSession hash).begin.round (floodEnv hash) 1 (.page floodMoment (chainPage hash 1 (n + 1))) =
      .ok (floodHeld hash (n + 1)) := by
  have hbegin : (floodSession hash).begin = ⟨chainTo hash 1, Hold.start 0 true, 0, false, false⟩ := rfl
  have hasked : (floodEnv hash).asked (chainTo hash 1) (Hold.start 0 true) =
      [(hash genesisHdr, 0)] := by
    rw [← locator_genesis]
    rfl
  have hprev : hdrPrev (chainHdr hash 1) = hash genesisHdr :=
    hdrPrev_chainHdr 0
  have hpage : dlcHdrPage = 2000 := rfl
  rw [hbegin]
  simp only [FetchState.round, locator_genesis, length_chainPage, getLast?_chainPage,
    hasked, blockHash_floodEnv]
  rw [if_neg (by simp), if_neg (by omega)]
  simp only [chainPage, List.head?_cons, List.zipIdx_cons, List.zipIdx_nil,
    List.find?_cons, hprev, decide_true]
  rw [← chainPage]
  simp only [FetchState.attachPage, FetchState.dropUncontinued, Bool.false_and,
    Bool.false_eq_true, if_false, length_chainPage, length_chainTo,
    FetchState.startHold]
  rw [if_neg (by omega), if_neg (by omega)]
  have hweighed : (floodEnv hash).lowworkPage
      (Hold.start (totalWork ((chainTo hash 1).take (0 + 1))) (floodEnv hash).minChainWorkSet)
      (chainPage hash 1 (n + 1)) (0 + 1) (hash genesisHdr)
      (hash (chainHdr hash (1 + n))) floodMoment.mapped =
        ((floodHeld hash (n + 1)).lw, .hold) := by
    rw [List.take_of_length_le (by simp), totalWork_chainTo]
    simp only [FetchEnv.lowworkPage, Hold.start, pageWork_chainPage,
      length_chainPage, hn, Nat.lt_irrefl, floodHeld, floodMoment, Nat.add_comm 1 n,
      Nat.mul_one]
    rfl
  rw [hweighed]
  simp only [FetchState.settlePage]
  exact if_pos (heldPageOk_chainPage 0 (n + 1))

/-- The floor is crossed, and the held page stored. -/
def floodReleased (hash : Bytes 80 → Bytes 32) (n : Nat) : FetchState :=
  ⟨chainTo hash (n + 1), ⟨true, 4 + 2 * n, [], hash (chainHdr hash n), n⟩, n, true,
    false⟩

theorem floodReleased_of_second {n : Nat} (hn : n = dlcHdrPage) (count : UInt8) :
    (floodHeld hash n).round (floodEnv hash) 1 (.page floodMoment [⟨chainHdr hash (n + 1), count⟩]) =
      (floodReleased hash n).takeCurrent (floodEnv hash) floodMoment 1 (n + 1)
        (hash (chainHdr hash n)) [⟨chainHdr hash (n + 1), count⟩] := by
  have hpage : dlcHdrPage = 2000 := rfl
  have htaken : (floodEnv hash).takeHeld floodMoment (floodHeld hash n).lw.held (chainTo hash 1) =
      some (chainTo hash (n + 1), n) := by
    have hone : (floodEnv hash).takeHeaders floodMoment 1 (0 + 1)
        (hash (chainHdr hash 0)) (chainPage hash (0 + 1) n) (chainTo hash (0 + 1)) =
          some ⟨chainTo hash (0 + 1 + n), n, n⟩ :=
      takeHeaders_chainPage (by omega) (by omega)
    rw [show 0 + 1 + n = n + 1 by omega] at hone
    simp only [floodHeld, FetchEnv.takeHeld, FetchEnv.dlcTakePage, length_chainTo]
    rw [show genesisHdr = chainHdr hash 0 from rfl, hone]
    simp
  have hmeets : (floodEnv hash).meetsMinimum (4 + 2 * n) = true := by
    rw [hn]
    rfl
  have hwork : pageWork [⟨chainHdr hash (n + 1), count⟩] = 2 := by
    simp [blockProof_chainHdr]
  have hasked : (floodEnv hash).asked (chainTo hash 1) (floodHeld hash n).lw =
      (hash (chainHdr hash n), n) :: [(hash genesisHdr, 0)] := by
    simp only [FetchEnv.asked, Hold.tail, floodHeld, locator_genesis]
    rfl
  have hstore : (floodHeld hash n).store = chainTo hash 1 := rfl
  simp only [FetchState.round, hstore, locator_genesis, hasked, blockHash_floodEnv]
  rw [if_neg (by simp), if_neg (by simp [dlcHdrPage])]
  simp only [List.head?_cons, List.getLast?_singleton, List.zipIdx_cons, List.find?_cons,
    hdrPrev_chainHdr, decide_true]
  have hdrop : (floodHeld hash n).dropUncontinued 0 = floodHeld hash n := rfl
  have hstart : FetchState.startHold (floodEnv hash) (floodHeld hash n) (n + 1) =
      floodHeld hash n := rfl
  have hweighed : (floodEnv hash).lowworkPage (floodHeld hash n).lw
      [⟨chainHdr hash (n + 1), count⟩] (n + 1) (hash (chainHdr hash n))
      (hash (chainHdr hash (n + 1))) floodMoment.mapped =
        ({ (floodHeld hash n).lw with cum := 4 + 2 * n }, .release) := by
    have hcum : 2 + 2 * n + 2 = 4 + 2 * n := by omega
    simp only [FetchEnv.lowworkPage, floodHeld, hwork, hcum, hmeets]
    rfl
  simp only [FetchState.attachPage, hdrop, hstart, hstore, length_chainTo,
    List.length_singleton, hweighed]
  rw [if_neg (by omega), if_neg (by omega)]
  have hadded : (floodHeld hash n).added + n = n := Nat.zero_add n
  simp only [FetchState.settlePage, htaken, hadded]
  rfl

/-- A transaction count in it stops the page before its first header. -/
theorem flooded_of_cut {n : Nat} {count : UInt8} (hcount : count ≠ 0) :
    (floodReleased hash n).takeCurrent (floodEnv hash) floodMoment 1 (n + 1)
      (hash (chainHdr hash n)) [⟨chainHdr hash (n + 1), count⟩] =
        .error (floodReleased hash n).stop := by
  simp only [FetchState.takeCurrent, FetchEnv.dlcTakePage, FetchEnv.takeHeaders]
  rw [if_pos hcount]
  rfl

/-- Without one the chain that crossed the floor is stored. -/
theorem stored_of_whole {n : Nat} (hn : n = dlcHdrPage) :
    (floodReleased hash n).takeCurrent (floodEnv hash) floodMoment 1 (n + 1)
      (hash (chainHdr hash n)) [⟨chainHdr hash (n + 1), 0⟩] =
        .error { floodReleased hash n with
          store := chainTo hash (n + 2), added := n + 1 }.stop := by
  have hpage : dlcHdrPage = 2000 := rfl
  have htaken : (floodEnv hash).takeHeaders floodMoment (n + 1) (n + 1)
      (hash (chainHdr hash n)) (chainPage hash (n + 1) 1) (chainTo hash (n + 1)) =
        some ⟨chainTo hash (n + 1 + 1), 1, 1⟩ :=
    takeHeaders_chainPage le_rfl (by omega)
  simp only [FetchState.takeCurrent, FetchEnv.dlcTakePage, floodReleased, length_chainTo]
  rw [show [(⟨chainHdr hash (n + 1), 0⟩ : WireHeader)] = chainPage hash (n + 1) 1 from rfl,
    htaken]
  rfl

theorem hold_first : (floodSession hash).begin.round (floodEnv hash) 1
    (.page floodMoment (chainPage hash 1 dlcHdrPage)) = .ok (floodHeld hash dlcHdrPage) :=
  floodHeld_of_first (n := 1999) rfl

theorem floodReplies_end {count : UInt8} {e : FetchEnd}
    (hlast : (floodReleased hash dlcHdrPage).takeCurrent (floodEnv hash) floodMoment 1
      (dlcHdrPage + 1) (hash (chainHdr hash dlcHdrPage))
      [⟨chainHdr hash (dlcHdrPage + 1), count⟩] = .error e) :
    dlcFetchHeaders (floodEnv hash) (floodSession hash) (floodReplies hash count) = e := by
  have hsecond : (floodHeld hash dlcHdrPage).round (floodEnv hash) 1
      (.page floodMoment [⟨chainHdr hash (dlcHdrPage + 1), count⟩]) = .error e :=
    (floodReleased_of_second rfl count).trans hlast
  have hone : (floodSession hash).store.length = 1 := rfl
  rw [dlcFetchHeaders, hone, show dlcHdrRounds = 998 + 1 + 1 from rfl, FetchState.rounds]
  simp only [floodReplies, List.headD_cons, hold_first, List.tail_cons, FetchState.rounds,
    hsecond]

theorem blockProof_of_mem_chainPage {k n : Nat} {w : WireHeader}
    (hw : w ∈ chainPage hash k n) : blockProof (hdrBits w.hdr) = 2 := by
  induction n generalizing k with
  | zero => cases hw
  | succ n ih =>
      rcases List.mem_cons.mp hw with rfl | hw
      · exact blockProof_chainHdr k
      · exact ih hw

theorem blockProof_of_mem_genesis {hdr : Bytes 80} (hmem : hdr ∈ chainTo hash 1) :
    blockProof (hdrBits hdr) = 2 := by
  cases List.mem_singleton.mp hmem
  exact @blockProof_chainHdr hash 0

theorem floodReplies_clean :
    FetchClean (floodEnv hash) 1 dlcHdrRounds (floodSession hash).begin
      (floodReplies hash 0) := by
  rw [show dlcHdrRounds = 998 + 1 + 1 from rfl]
  refine ⟨?_, ?_⟩
  · intro first _
    refine ⟨fun hheld => absurd rfl hheld, fun hheld => absurd rfl hheld, ?_⟩
    intro w hw hdr hhdr _
    rw [blockProof_of_mem_chainPage hw, blockProof_of_mem_genesis hhdr]
  · intro s' hs
    have hround : (floodSession hash).begin.round (floodEnv hash) 1
        (.page floodMoment (chainPage hash 1 dlcHdrPage)) = .ok s' := hs
    rw [hold_first] at hround
    cases hround
    refine ⟨?_, ?_⟩
    · intro first hfirst
      cases hfirst
      refine ⟨fun _ _ => hdrPrev_chainHdr _, ?_, ?_⟩
      · intro _ _ _ w hw
        cases List.mem_singleton.mp hw
        rfl
      · intro w hw hdr hhdr _
        cases List.mem_singleton.mp hw
        rw [blockProof_of_mem_genesis hhdr, blockProof_chainHdr]
    · intro s' hs
      have hround : (floodHeld hash dlcHdrPage).round (floodEnv hash) 1
          (.page floodMoment [⟨chainHdr hash (dlcHdrPage + 1), 0⟩]) = .ok s' := hs
      rw [floodReleased_of_second rfl, stored_of_whole rfl] at hround
      cases hround

end Flood

/-- `block_hash` -/
def blockHash (hdr : Bytes 80) : Bytes 32 := Consensus.sha256d hdr.1

/-- The same page and one header more: both are stored, and the floor is met. -/
theorem released_page_paid :
    (floodEnv blockHash).minWork ≤ totalWork (dlcFetchHeaders (floodEnv blockHash)
      (floodSession blockHash) (floodReplies blockHash 0)).store := by
  refine fetched_page_paid _ _ _ (Handed.fresh _ _) floodReplies_clean ?_
  rw [floodReplies_end (stored_of_whole rfl)]
  simp only [FetchState.stop, floodSession, length_chainTo]
  decide

/-- With a transaction count in the one header, 2000 headers are stored and stay
two short of the floor. -/
theorem flooded_below_floor :
    (floodSession blockHash).store.length + 2000 ≤
      (dlcFetchHeaders (floodEnv blockHash) (floodSession blockHash)
        (floodReplies blockHash 1)).store.length ∧
    totalWork (dlcFetchHeaders (floodEnv blockHash) (floodSession blockHash)
        (floodReplies blockHash 1)).store < (floodEnv blockHash).minWork := by
  rw [floodReplies_end (flooded_of_cut (by decide))]
  simp only [FetchState.stop, floodReleased, floodSession, length_chainTo,
    totalWork_chainTo]
  exact ⟨by decide, by decide⟩

end BitcoinMachineCode.Chain
