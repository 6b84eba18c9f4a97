import BitcoinMachineCode.Chain.HdrTree
import Mathlib.Data.Finset.Max
import Mathlib.Data.List.Nodup

/-!
# Whole branches in a bounded table

A full table gives up its lightest tip, "a branch's end, never its middle".
The tip is chosen before the new header is placed, so it can be the header the
new one extends: then the child stays and its parent is gone.  That is the only
way a branch is cut; hashes stay unique and the heaviest header stays in every
history of offers and prunes.
-/

namespace BitcoinMachineCode.Chain

open BitcoinMachineCode.Foundation

/-! ## Histories -/

inductive HdrOp where
  | add (hdr : Bytes 80) (height : Int64) (work : BitVec 128) (ntx : UInt32)
  | pruneBelow (height : Int64)

/-- The table with the headers it ever accepted and those of them that no prune
has dropped since. -/
structure Past where
  tree : HdrTree
  seen : List Entry
  kept : List Entry

/-- A chain directory without a fork file, opened. -/
def Past.init : Past := ⟨⟨[], true, none, none⟩, [], []⟩

variable (blockHash : Bytes 80 → Bytes 32)

def Past.step (p : Past) : HdrOp → Past
  | .add hdr height work ntx =>
      let out := p.tree.hdrtreeAddNtx blockHash hdr height work ntx
      let e := fill (blockHash hdr) hdr height work ntx
      if out.2 = 1 then ⟨out.1, p.seen ++ [e], p.kept ++ [e]⟩
      else { p with tree := out.1 }
  | .pruneBelow height =>
      let dropped := p.tree.entries.filter fun e => e.height < height
      ⟨(p.tree.hdrtreePruneBelow height).1, p.seen,
        p.kept.filter fun x => ∀ e ∈ dropped, e.hash ≠ x.hash⟩

def Past.run (ops : List HdrOp) : Past :=
  ops.foldl (Past.step blockHash) Past.init

def Holds (entries : List Entry) (x : Entry) : Prop :=
  ∃ e ∈ entries, e.hash = x.hash ∧ e.work = x.work

/-- `work` is the cumulative work through the header. -/
def CumulativeWork (seen : List Entry) : Prop :=
  ∀ x ∈ seen, ∀ y ∈ seen, y.prev = x.hash → x.work < y.work

def TipOf (seen : List Entry) (x : Entry) : Prop :=
  ∀ y ∈ seen, y.prev ≠ x.hash

/-- One operation leaves every branch whole, every hash once and the heaviest
tip in place. -/
structure Intact (p : Past) (op : HdrOp) : Prop where
  branch : ∀ hdr height work ntx, op = .add hdr height work ntx →
    ∀ x ∈ p.tree.entries,
      (∀ e ∈ (p.step blockHash op).tree.entries, e.hash ≠ x.hash) →
      ∀ c ∈ (p.step blockHash op).tree.entries, c.prev ≠ x.hash
  parent : ∀ hdr height work ntx, op = .add hdr height work ntx →
    (∃ x ∈ p.tree.entries, x.hash = hdrPrev hdr) →
    ∃ x ∈ (p.step blockHash op).tree.entries, x.hash = hdrPrev hdr
  unique : ((p.step blockHash op).tree.entries.map Entry.hash).Nodup
  heaviest : ∀ x ∈ (p.step blockHash op).kept,
    (∀ y ∈ (p.step blockHash op).seen, y.work ≤ x.work) →
    Holds (p.step blockHash op).tree.entries x
  heaviestTip : CumulativeWork (p.step blockHash op).seen →
    ∀ x ∈ (p.step blockHash op).kept, TipOf (p.step blockHash op).seen x →
      (∀ y ∈ (p.step blockHash op).seen,
        TipOf (p.step blockHash op).seen y → y.work ≤ x.work) →
      Holds (p.step blockHash op).tree.entries x

/-- The table is full and the tip it gives up is the parent of the header that
takes its place. -/
def EvictsParent (p : Past) : HdrOp → Prop
  | .add hdr _ work _ => ∃ v i,
      HdrTree.Evicts blockHash p.tree hdr work v i ∧ v.hash = hdrPrev hdr
  | .pruneBelow _ => False

/-! ## Replacing one entry -/

theorem mem_set_cases {es : List Entry} {i : Nat} {e c : Entry}
    (h : c ∈ es.set i e) : c = e ∨ ∃ k, k ≠ i ∧ es[k]? = some c := by
  obtain ⟨k, hk⟩ := List.mem_iff_getElem?.mp h
  rw [List.getElem?_set] at hk
  by_cases hki : i = k
  · rw [if_pos hki] at hk
    split at hk
    · exact Or.inl (Option.some.inj hk).symm
    · cases hk
  · rw [if_neg hki] at hk
    exact Or.inr ⟨k, Ne.symm hki, hk⟩

theorem mem_set_of_ne {es : List Entry} {i k : Nat} {e c : Entry}
    (hki : k ≠ i) (hk : es[k]? = some c) : c ∈ es.set i e := by
  apply List.mem_iff_getElem?.mpr
  exact ⟨k, by rw [List.getElem?_set_ne (Ne.symm hki), hk]⟩

theorem mem_set_self {es : List Entry} {i : Nat} {v e : Entry}
    (hi : es[i]? = some v) : e ∈ es.set i e := by
  obtain ⟨hlt, -⟩ := List.getElem?_eq_some_iff.mp hi
  exact List.mem_set hlt e

theorem map_hash_set {es : List Entry} {i : Nat} {v e : Entry}
    (hi : es[i]? = some v) (hsame : e.hash = v.hash) :
    (es.set i e).map Entry.hash = es.map Entry.hash := by
  obtain ⟨hlt, hget⟩ := List.getElem?_eq_some_iff.mp hi
  rw [List.map_set, hsame, ← hget, ← List.getElem_map Entry.hash,
    List.set_getElem_self]
  simpa using hlt

/-! ## What holds in every history -/

/-- The invariant: an accepted header is still there unless a heavier one was
accepted or a prune dropped it. -/
structure Past.Good (p : Past) : Prop where
  loaded : p.tree.loaded = true
  unique : (p.tree.entries.map Entry.hash).Nodup
  subset : ∀ x ∈ p.kept, x ∈ p.seen
  present : ∀ x ∈ p.kept,
    Holds p.tree.entries x ∨ ∃ y ∈ p.seen, x.work < y.work

variable {blockHash} {p : Past}

theorem Past.good_init : Past.init.Good :=
  ⟨rfl, by simp [init], by simp [init], by simp [init]⟩

variable (blockHash) in
/-- An offer read back from the history: nothing accepted and at most one entry
completed, or accepted in a tip's place, or accepted at the end. -/
theorem Past.Good.step_add (hp : p.Good) (hdr : Bytes 80) (height : Int64)
    (work : BitVec 128) (ntx : UInt32) :
    let e := fill (blockHash hdr) hdr height work ntx
    let p' := p.step blockHash (.add hdr height work ntx)
    p'.tree.loaded = true ∧
    (p' = p ∨
    (∃ known i, p.tree.entries[i]? = some known ∧
      p'.tree.entries =
        p.tree.entries.set i (HdrTree.complete hdr ntx known) ∧
      p'.seen = p.seen ∧ p'.kept = p.kept) ∨
    (∃ v i, HdrTree.Evicts blockHash p.tree hdr work v i ∧
      p'.tree.entries = p.tree.entries.set i e ∧
      p'.seen = p.seen ++ [e] ∧ p'.kept = p.kept ++ [e]) ∨
    (p.tree.find (blockHash hdr) = none ∧
      p'.tree.entries = p.tree.entries ++ [e] ∧
      p'.seen = p.seen ++ [e] ∧ p'.kept = p.kept ++ [e])) := by
  intro e p'
  have hadd : p.tree.hdrtreeAddNtx blockHash hdr height work ntx =
      p.tree.addLoaded blockHash hdr height work ntx := by
    rw [HdrTree.hdrtreeAddNtx, if_pos hp.loaded]
  have hcases := HdrTree.addLoaded_cases blockHash p.tree hdr height work ntx
  simp only [← hadd] at hcases
  rcases hcases with ⟨htree, hrc⟩ | ⟨known, i, hi, htree, hrc⟩ |
      ⟨v, i, hev, htree, hrc⟩ | ⟨hfresh, -, htree, hrc⟩
  · have hp' : p' = p := by simp [p', step, hrc, htree]
    exact ⟨hp' ▸ hp.loaded, Or.inl hp'⟩
  · refine ⟨?_, Or.inr (Or.inl ⟨known, i, hi, ?_⟩)⟩ <;>
      simp [p', step, hrc, htree, HdrTree.rewrite, hp.loaded]
  · refine ⟨?_, Or.inr (Or.inr (Or.inl ⟨v, i, hev, ?_⟩))⟩ <;>
      simp [p', step, hrc, htree, HdrTree.rewrite, hp.loaded, e]
  · refine ⟨?_, Or.inr (Or.inr (Or.inr ⟨hfresh, ?_⟩))⟩ <;>
      simp [p', step, hrc, htree, hp.loaded, e]

theorem Holds.set_of_same {es : List Entry} {x v e : Entry} {i : Nat}
    (hx : Holds es x) (hi : es[i]? = some v) (hhash : e.hash = v.hash)
    (hwork : e.work = v.work) : Holds (es.set i e) x := by
  obtain ⟨c, hc, hch, hcw⟩ := hx
  obtain ⟨k, hk⟩ := List.mem_iff_getElem?.mp hc
  by_cases hki : k = i
  · subst hki
    obtain rfl : c = v := Option.some.inj (hk.symm.trans hi)
    exact ⟨e, mem_set_self hi, hhash.trans hch, hwork.trans hcw⟩
  · exact ⟨c, mem_set_of_ne hki hk, hch, hcw⟩

/-- The entry given up is lighter than the one that takes its place. -/
theorem Holds.set_of_heavier {es : List Entry} {x v e : Entry} {i : Nat}
    (hx : Holds es x) (hi : es[i]? = some v) (hwork : v.work < e.work) :
    Holds (es.set i e) x ∨ x.work < e.work := by
  obtain ⟨c, hc, hch, hcw⟩ := hx
  obtain ⟨k, hk⟩ := List.mem_iff_getElem?.mp hc
  by_cases hki : k = i
  · subst hki
    obtain rfl : c = v := Option.some.inj (hk.symm.trans hi)
    exact Or.inr (hcw ▸ hwork)
  · exact Or.inl ⟨c, mem_set_of_ne hki hk, hch, hcw⟩

theorem nodup_hash_set {es : List Entry} {e : Entry} {i : Nat}
    (hnodup : (es.map Entry.hash).Nodup) (hfresh : ∀ c ∈ es, c.hash ≠ e.hash) :
    ((es.set i e).map Entry.hash).Nodup := by
  rw [List.map_set]
  refine hnodup.set ?_
  rw [List.mem_map]
  rintro ⟨c, hc, hhash⟩
  exact hfresh c hc hhash

theorem nodup_hash_append {es : List Entry} {e : Entry}
    (hnodup : (es.map Entry.hash).Nodup) (hfresh : ∀ c ∈ es, c.hash ≠ e.hash) :
    ((es ++ [e]).map Entry.hash).Nodup := by
  rw [List.map_append, List.map_singleton, List.nodup_append]
  refine ⟨hnodup, List.nodup_singleton _, ?_⟩
  intro a ha b hb
  obtain ⟨c, hc, rfl⟩ := List.mem_map.mp ha
  rw [List.mem_singleton.mp hb]
  exact hfresh c hc

theorem Past.Good.add (hp : p.Good) (hdr : Bytes 80) (height : Int64)
    (work : BitVec 128) (ntx : UInt32) :
    (p.step blockHash (.add hdr height work ntx)).Good := by
  obtain ⟨hloaded, hcases⟩ :=
    hp.step_add blockHash hdr height work ntx
  rcases hcases with hsame | ⟨known, i, hi, hentries, hseen, hkept⟩ |
      ⟨v, i, hev, hentries, hseen, hkept⟩ | ⟨hfresh, hentries, hseen, hkept⟩
  · rw [hsame]
    exact hp
  · refine ⟨hloaded, ?_, ?_, ?_⟩
    · rw [hentries, map_hash_set (e := HdrTree.complete hdr ntx known) hi rfl]
      exact hp.unique
    · rw [hseen, hkept]
      exact hp.subset
    · rw [hseen, hkept, hentries]
      intro x hx
      exact (hp.present x hx).imp_left fun h => h.set_of_same hi rfl rfl
  · refine ⟨hloaded, ?_, ?_, ?_⟩
    · rw [hentries]
      exact nodup_hash_set hp.unique (HdrTree.find_none.mp hev.fresh)
    · rw [hseen, hkept]
      intro x hx
      rcases List.mem_append.mp hx with hx | hx
      · exact List.mem_append_left _ (hp.subset x hx)
      · exact List.mem_append_right _ hx
    · rw [hseen, hkept, hentries]
      have hi := (HdrTree.victim_some hev.lightest).1
      intro x hx
      rcases List.mem_append.mp hx with hx | hx
      · rcases hp.present x hx with h | ⟨y, hy, hlt⟩
        · refine (h.set_of_heavier hi hev.heavier).imp_right fun hlt => ?_
          exact ⟨_, List.mem_append_right _ List.mem_cons_self, hlt⟩
        · exact Or.inr ⟨y, List.mem_append_left _ hy, hlt⟩
      · rw [List.mem_singleton.mp hx]
        exact Or.inl ⟨_, mem_set_self hi, rfl, rfl⟩
  · refine ⟨hloaded, ?_, ?_, ?_⟩
    · rw [hentries]
      exact nodup_hash_append hp.unique (HdrTree.find_none.mp hfresh)
    · rw [hseen, hkept]
      intro x hx
      rcases List.mem_append.mp hx with hx | hx
      · exact List.mem_append_left _ (hp.subset x hx)
      · exact List.mem_append_right _ hx
    · rw [hseen, hkept, hentries]
      intro x hx
      rcases List.mem_append.mp hx with hx | hx
      · rcases hp.present x hx with ⟨c, hc, h⟩ | ⟨y, hy, hlt⟩
        · exact Or.inl ⟨c, List.mem_append_left _ hc, h⟩
        · exact Or.inr ⟨y, List.mem_append_left _ hy, hlt⟩
      · rw [List.mem_singleton.mp hx]
        exact Or.inl ⟨_, List.mem_append_right _ List.mem_cons_self, rfl, rfl⟩

theorem pruneBelow_entries (t : HdrTree) (height : Int64) :
    (t.hdrtreePruneBelow height).1.entries =
      t.entries.filter (fun e => ¬ e.height < height) ∧
    (t.hdrtreePruneBelow height).1.loaded = t.loaded := by
  rw [HdrTree.hdrtreePruneBelow]
  by_cases hnone : t.entries.length -
      (t.entries.filter fun e => ¬ e.height < height).length = 0
  · simp only [hnone, if_pos]
    refine ⟨(List.filter_eq_self.mpr ?_).symm, trivial⟩
    apply List.length_filter_eq_length_iff.mp
    have hle := List.length_filter_le
      (fun e : Entry => decide (¬ e.height < height)) t.entries
    omega
  · simp only [hnone, if_neg, not_false_eq_true, HdrTree.rewrite, and_self]

theorem Past.Good.pruneBelow (hp : p.Good) (height : Int64) :
    (p.step blockHash (.pruneBelow height)).Good := by
  obtain ⟨hentries, hloaded⟩ := pruneBelow_entries p.tree height
  refine ⟨hloaded.trans hp.loaded, ?_, ?_, ?_⟩
  · simp only [step, hentries]
    exact hp.unique.sublist (List.filter_sublist.map _)
  · intro x hx
    exact hp.subset x (List.mem_filter.mp hx).1
  · intro x hx
    obtain ⟨hx, hnot⟩ := List.mem_filter.mp hx
    refine (hp.present x hx).imp_left ?_
    rintro ⟨c, hc, hhash, hwork⟩
    refine ⟨c, ?_, hhash, hwork⟩
    simp only [step, hentries]
    refine List.mem_filter.mpr ⟨hc, ?_⟩
    -- a dropped entry with this hash would have taken `x` out of `kept`
    by_contra hlow
    have hdropped : c ∈ p.tree.entries.filter fun e => e.height < height :=
      List.mem_filter.mpr ⟨hc, by simpa using hlow⟩
    exact (of_decide_eq_true hnot) c hdropped hhash

variable (blockHash) in
theorem Past.Good.step (hp : p.Good) (op : HdrOp) :
    (p.step blockHash op).Good := by
  cases op with
  | add hdr height work ntx => exact hp.add hdr height work ntx
  | pruneBelow height => exact hp.pruneBelow height

theorem Past.good_run (ops : List HdrOp) : (run blockHash ops).Good := by
  induction ops using List.reverseRecOn with
  | nil => exact good_init
  | append_singleton ops op ih =>
      rw [run, List.foldl_append]
      exact ih.step blockHash op

theorem Past.Good.index_unique (hp : p.Good) {x y : Entry} {i k : Nat}
    (hx : p.tree.entries[k]? = some x) (hy : p.tree.entries[i]? = some y)
    (hhash : x.hash = y.hash) : k = i := by
  obtain ⟨hk, -⟩ := List.getElem?_eq_some_iff.mp hx
  refine (List.getElem?_inj (by simpa using hk) hp.unique).mp ?_
  rw [List.getElem?_map, List.getElem?_map, hx, hy, Option.map_some,
    Option.map_some, hhash]

/-! ## Branches -/

/-- An entry that a full table gives up has no child left, unless the header
that takes its place is one. -/
theorem Past.Good.child_of_evicted {hdr : Bytes 80} {work : BitVec 128}
    {e v x c : Entry} {i : Nat} (hev : HdrTree.Evicts blockHash p.tree hdr work v i)
    (hx : x ∈ p.tree.entries)
    (hgone : ∀ c ∈ p.tree.entries.set i e, c.hash ≠ x.hash)
    (hc : c ∈ p.tree.entries.set i e) :
    x = v ∧ (c = e ∨ c.prev ≠ x.hash) := by
  obtain ⟨hi, htip⟩ := HdrTree.victim_some hev.lightest
  obtain ⟨k, hk⟩ := List.mem_iff_getElem?.mp hx
  have hki : k = i := by
    by_contra hki
    exact hgone x (mem_set_of_ne hki hk) rfl
  subst hki
  obtain rfl : x = v := Option.some.inj (hk.symm.trans hi)
  refine ⟨rfl, (mem_set_cases hc).imp_right ?_⟩
  rintro ⟨j, hj, hget⟩
  exact HdrTree.isTip_iff.mp htip j c hget hj

theorem Past.Good.branch (hp : p.Good) (hdr : Bytes 80) (height : Int64)
    (work : BitVec 128) (ntx : UInt32)
    (hkeeps : ¬ EvictsParent blockHash p (.add hdr height work ntx))
    {x c : Entry} (hx : x ∈ p.tree.entries)
    (hgone : ∀ e ∈ (p.step blockHash (.add hdr height work ntx)).tree.entries,
      e.hash ≠ x.hash)
    (hc : c ∈ (p.step blockHash (.add hdr height work ntx)).tree.entries) :
    c.prev ≠ x.hash := by
  obtain ⟨-, hcases⟩ := hp.step_add blockHash hdr height work ntx
  rcases hcases with hsame | ⟨known, i, hi, hentries, -, -⟩ |
      ⟨v, i, hev, hentries, -, -⟩ | ⟨-, hentries, -, -⟩
  · rw [hsame] at hgone
    exact absurd rfl (hgone x hx)
  · rw [hentries] at hgone
    have hheld : Holds p.tree.entries x := ⟨x, hx, rfl, rfl⟩
    obtain ⟨d, hd, hhash, -⟩ := hheld.set_of_same
      (e := HdrTree.complete hdr ntx known) hi rfl rfl
    exact absurd hhash (hgone d hd)
  · rw [hentries] at hgone hc
    obtain ⟨rfl, rfl | hprev⟩ := child_of_evicted hev hx hgone hc
    · intro hchild
      exact hkeeps ⟨x, i, hev, hchild.symm⟩
    · exact hprev
  · rw [hentries] at hgone
    exact absurd rfl (hgone x (List.mem_append_left _ hx))

theorem Past.Good.parent (hp : p.Good) (hdr : Bytes 80) (height : Int64)
    (work : BitVec 128) (ntx : UInt32)
    (hkeeps : ¬ EvictsParent blockHash p (.add hdr height work ntx))
    {x : Entry} (hx : x ∈ p.tree.entries) (hprev : x.hash = hdrPrev hdr) :
    ∃ x ∈ (p.step blockHash (.add hdr height work ntx)).tree.entries,
      x.hash = hdrPrev hdr := by
  obtain ⟨-, hcases⟩ := hp.step_add blockHash hdr height work ntx
  have hheld : Holds p.tree.entries x := ⟨x, hx, rfl, rfl⟩
  rcases hcases with hsame | ⟨known, i, hi, hentries, -, -⟩ |
      ⟨v, i, hev, hentries, -, -⟩ | ⟨-, hentries, -, -⟩
  · rw [hsame]
    exact ⟨x, hx, hprev⟩
  · rw [hentries]
    obtain ⟨d, hd, hhash, -⟩ := hheld.set_of_same
      (e := HdrTree.complete hdr ntx known) hi rfl rfl
    exact ⟨d, hd, hhash.trans hprev⟩
  · rw [hentries]
    obtain ⟨k, hk⟩ := List.mem_iff_getElem?.mp hx
    by_cases hki : k = i
    · -- the tip given up would be the parent
      subst hki
      have hi := (HdrTree.victim_some hev.lightest).1
      obtain rfl : x = v := Option.some.inj (hk.symm.trans hi)
      exact absurd ⟨x, k, hev, hprev⟩ hkeeps
    · exact ⟨x, mem_set_of_ne hki hk, hprev⟩
  · rw [hentries]
    exact ⟨x, List.mem_append_left _ hx, hprev⟩

/-- Under cumulative work the heaviest tip is the heaviest header. -/
theorem le_of_heaviestTip {seen : List Entry} (hcum : CumulativeWork seen)
    {x : Entry} (hmax : ∀ y ∈ seen, TipOf seen y → y.work ≤ x.work)
    {y : Entry} (hy : y ∈ seen) : y.work ≤ x.work := by
  classical
  have hne : seen.toFinset.Nonempty := ⟨y, by simpa using hy⟩
  obtain ⟨m, hm, hheaviest⟩ :=
    Finset.exists_max_image seen.toFinset (fun e => e.work.toNat) hne
  rw [List.mem_toFinset] at hm
  have htip : TipOf seen m := by
    intro c hc hprev
    have hlt := BitVec.lt_def.mp (hcum m hm c hc hprev)
    have hle := hheaviest c (by simpa using hc)
    omega
  have hmx := BitVec.le_def.mp (hmax m hm htip)
  have hym := hheaviest y (by simpa using hy)
  exact BitVec.le_def.mpr (by omega)

theorem Past.Good.holds (hp : p.Good) {x : Entry} (hx : x ∈ p.kept)
    (hmax : ∀ y ∈ p.seen, y.work ≤ x.work) : Holds p.tree.entries x := by
  rcases hp.present x hx with h | ⟨y, hy, hlt⟩
  · exact h
  · have hle := BitVec.le_def.mp (hmax y hy)
    have hlt := BitVec.lt_def.mp hlt
    omega

theorem Past.Good.intact (hp : p.Good) {op : HdrOp}
    (hkeeps : ¬ EvictsParent blockHash p op) : Intact blockHash p op := by
  have hp' := hp.step blockHash op
  refine ⟨?_, ?_, hp'.unique, fun x hx => hp'.holds hx, ?_⟩
  · rintro hdr height work ntx rfl x hx hgone c hc
    exact hp.branch hdr height work ntx hkeeps hx hgone hc
  · rintro hdr height work ntx rfl ⟨x, hx, hprev⟩
    exact hp.parent hdr height work ntx hkeeps hx hprev
  · intro hcum x hx htip hmax
    exact hp'.holds hx fun y hy => le_of_heaviestTip hcum hmax hy

/-- The header offered replaces its own parent, so the parent is in the table
before the offer and not after it. -/
theorem Past.Good.not_intact (hp : p.Good) {op : HdrOp}
    (hevicts : EvictsParent blockHash p op) : ¬ Intact blockHash p op := by
  cases op with
  | pruneBelow height => exact hevicts.elim
  | add hdr height work ntx =>
      obtain ⟨v, i, hev, hprev⟩ := hevicts
      intro hintact
      have hi := (HdrTree.victim_some hev.lightest).1
      have hv := List.mem_of_getElem? hi
      obtain ⟨x, hx, hxprev⟩ := hintact.parent hdr height work ntx rfl
        ⟨v, hv, hprev⟩
      have hentries :
          (p.step blockHash (.add hdr height work ntx)).tree.entries =
            p.tree.entries.set i (fill (blockHash hdr) hdr height work ntx) := by
        simp [Past.step, HdrTree.hdrtreeAddNtx, hp.loaded, hev.addLoaded,
          HdrTree.rewrite]
      rw [hentries] at hx
      rw [← hprev] at hxprev
      rcases mem_set_cases hx with rfl | ⟨k, hki, hk⟩
      · exact HdrTree.find_none.mp hev.fresh v hv hxprev.symm
      · exact hki (hp.index_unique hk hi hxprev)

variable (blockHash) in
/-- Every step of a history leaves the tree intact exactly when no step has a
full table give up the parent of the header it takes. -/
theorem hdrtreeAdd_intact_iff (ops : List HdrOp) :
    (∀ before op after, ops = before ++ op :: after →
      Intact blockHash (Past.run blockHash before) op) ↔
    (∀ before op after, ops = before ++ op :: after →
      ¬ EvictsParent blockHash (Past.run blockHash before) op) := by
  constructor
  · intro hintact before op after hops hevicts
    exact (Past.good_run before).not_intact hevicts
      (hintact before op after hops)
  · intro hkeeps before op after hops
    exact (Past.good_run before).intact (hkeeps before op after hops)

/-! ## One long branch -/

/-- A header over `prev`, told apart by its merkle root. -/
def linkHdr (prev : Bytes 32) (root : Nat) : Bytes 80 :=
  ⟨leBytes 4 1 ++ (prev.1 ++ (leBytes 32 root ++ leBytes 12 0)), by
    simp [prev.2]⟩

theorem hdrPrev_linkHdr (prev : Bytes 32) (root : Nat) :
    hdrPrev (linkHdr prev root) = prev := by
  apply Subtype.ext
  have hdrop : (linkHdr prev root).1.drop 4 =
      prev.1 ++ (leBytes 32 root ++ leBytes 12 0) :=
    List.drop_left' (length_leBytes 4 1)
  change ((linkHdr prev root).1.drop 4).take 32 = prev.1
  rw [hdrop, List.take_left' prev.2]

section LongBranch

variable (blockHash)

def branchHdr : Nat → Bytes 80
  | 0 => linkHdr (Bytes.ofList 32 []) 1
  | n + 1 => linkHdr (blockHash (branchHdr n)) (n + 2)

def branchOp (n : Nat) : HdrOp :=
  .add (branchHdr blockHash n) (Int64.ofNat n) (BitVec.ofNat 128 (n + 1)) 0

def branchEntry (n : Nat) : Entry :=
  fill (blockHash (branchHdr blockHash n)) (branchHdr blockHash n)
    (Int64.ofNat n) (BitVec.ofNat 128 (n + 1)) 0

/-- The first `n` headers of one branch, each over the one before it. -/
def branchOps (n : Nat) : List HdrOp := (List.range n).map (branchOp blockHash)

/-- The branch's hashes differ, and none is the null hash. -/
def CollisionFree : Prop :=
  (∀ i ≤ hdrtreeMax, ∀ j ≤ hdrtreeMax,
    blockHash (branchHdr blockHash i) = blockHash (branchHdr blockHash j) →
      i = j) ∧
  ∀ i ≤ hdrtreeMax, blockHash (branchHdr blockHash i) ≠ Bytes.ofList 32 []

theorem run_branchOps_succ (n : Nat) :
    Past.run blockHash (branchOps blockHash (n + 1)) =
      (Past.run blockHash (branchOps blockHash n)).step blockHash
        (branchOp blockHash n) := by
  simp [Past.run, branchOps, List.range_succ]

variable {blockHash}

theorem find_branch (hfree : CollisionFree blockHash) {n : Nat}
    (hn : n ≤ hdrtreeMax) {t : HdrTree}
    (ht : t.entries = (List.range n).map (branchEntry blockHash)) :
    t.find (blockHash (branchHdr blockHash n)) = none := by
  rw [HdrTree.find_none, ht]
  intro e he
  obtain ⟨i, hi, rfl⟩ := List.mem_map.mp he
  have hlt : i < n := List.mem_range.mp hi
  intro hhash
  have heq := hfree.1 i (by omega) n hn hhash
  omega

theorem run_branchOps (hfree : CollisionFree blockHash) {n : Nat}
    (hn : n ≤ hdrtreeMax) :
    (Past.run blockHash (branchOps blockHash n)).tree.entries =
      (List.range n).map (branchEntry blockHash) := by
  induction n with
  | zero => rfl
  | succ n ih =>
      have ht := ih (by omega)
      have hgood : (Past.run blockHash (branchOps blockHash n)).Good :=
        Past.good_run _
      have hroom : (Past.run blockHash
          (branchOps blockHash n)).tree.entries.length < hdrtreeMax := by
        rw [ht, List.length_map, List.length_range]
        exact hn
      rw [run_branchOps_succ]
      simp [branchOp, Past.step, HdrTree.hdrtreeAddNtx, hgood.loaded,
        HdrTree.addLoaded_append blockHash _ _ _
          (find_branch hfree (by omega) ht) hroom, ht, List.range_succ,
        branchEntry]

theorem branchEntry_prev_succ (n : Nat) :
    (branchEntry blockHash (n + 1)).prev = (branchEntry blockHash n).hash :=
  hdrPrev_linkHdr _ _

/-- The last header of the branch is its only tip. -/
theorem isTip_branch (hfree : CollisionFree blockHash) {n i : Nat}
    (hn : n < hdrtreeMax) (hi : i ≤ n) :
    HdrTree.isTip ((List.range (n + 1)).map (branchEntry blockHash))
      (branchEntry blockHash i, i) = true ↔ i = n := by
  rw [HdrTree.isTip_iff]
  constructor
  · intro htip
    by_contra hne
    have hnext : ((List.range (n + 1)).map (branchEntry blockHash))[i + 1]? =
        some (branchEntry blockHash (i + 1)) := by
      rw [List.getElem?_map, List.getElem?_range (by omega), Option.map_some]
    exact htip (i + 1) _ hnext (by omega) (branchEntry_prev_succ i)
  · rintro rfl k x hx -
    rw [List.getElem?_map, Option.map_eq_some_iff] at hx
    obtain ⟨j, hj, rfl⟩ := hx
    obtain ⟨hk, hkj⟩ := List.getElem?_eq_some_iff.mp hj
    rw [List.getElem_range] at hkj
    subst hkj
    rw [List.length_range] at hk
    cases k with
    | zero =>
        intro hprev
        have hnull : (branchEntry blockHash 0).prev = Bytes.ofList 32 [] :=
          hdrPrev_linkHdr _ _
        exact hfree.2 i (by omega) (hprev.symm.trans hnull)
    | succ k =>
        rw [branchEntry_prev_succ]
        intro hhash
        have heq := hfree.1 k (by omega) i (by omega) hhash
        omega

theorem branch_evictsParent (hfree : CollisionFree blockHash) :
    EvictsParent blockHash
      (Past.run blockHash (branchOps blockHash hdrtreeMax))
      (branchOp blockHash hdrtreeMax) := by
  have ht := run_branchOps hfree (le_refl hdrtreeMax)
  have hlast : ∀ i ≤ hdrtreeMax - 1, _ := fun i hi =>
    isTip_branch (n := hdrtreeMax - 1) hfree (by decide) hi
  have hsucc : hdrtreeMax - 1 + 1 = hdrtreeMax := by decide
  rw [hsucc] at hlast
  have hget : ∀ i < hdrtreeMax,
      ((List.range hdrtreeMax).map (branchEntry blockHash))[i]? =
        some (branchEntry blockHash i) := by
    intro i hi
    rw [List.getElem?_map, List.getElem?_range hi, Option.map_some]
  obtain ⟨v, i, hv⟩ : ∃ v i, HdrTree.victim
      ((List.range hdrtreeMax).map (branchEntry blockHash)) = some (v, i) := by
    cases hv : HdrTree.victim
        ((List.range hdrtreeMax).map (branchEntry blockHash)) with
    | some p => exact ⟨p.1, p.2, rfl⟩
    | none =>
        have hnone := HdrTree.victim_none hv (hget (hdrtreeMax - 1) (by decide))
        rw [(hlast _ le_rfl).mpr rfl] at hnone
        cases hnone
  obtain ⟨hi, htip⟩ := HdrTree.victim_some hv
  obtain ⟨hlen, -⟩ := List.getElem?_eq_some_iff.mp hi
  rw [List.length_map, List.length_range] at hlen
  obtain rfl : branchEntry blockHash i = v :=
    Option.some.inj ((hget i hlen).symm.trans hi)
  have hi' : i = hdrtreeMax - 1 := (hlast i (by omega)).mp htip
  subst hi'
  refine ⟨_, _, ⟨find_branch hfree le_rfl ht, ?_, by rw [ht]; exact hv, ?_⟩, ?_⟩
  · rw [ht, List.length_map, List.length_range]
  · change BitVec.ofNat 128 (hdrtreeMax - 1 + 1) <
      BitVec.ofNat 128 (hdrtreeMax + 1)
    decide
  · exact (branchEntry_prev_succ (hdrtreeMax - 1)).symm

end LongBranch

/-- Stands in for the double SHA-256: the merkle root field. -/
def rootHash (hdr : Bytes 80) : Bytes 32 := hdr.slice 36 32 (by omega)

theorem rootHash_linkHdr (prev : Bytes 32) (root : Nat) :
    leVal (rootHash (linkHdr prev root)).1 = root % 256 ^ 32 := by
  have hdrop : (linkHdr prev root).1.drop 36 =
      leBytes 32 root ++ leBytes 12 0 := by
    change (leBytes 4 1 ++ (prev.1 ++ (leBytes 32 root ++ leBytes 12 0))).drop
      (4 + 32) = _
    rw [← List.drop_drop, List.drop_left' (length_leBytes 4 1),
      List.drop_left' prev.2]
  change leVal (((linkHdr prev root).1.drop 36).take 32) = _
  rw [hdrop, List.take_left' (length_leBytes 32 root), leVal_leBytes]

theorem rootHash_branchHdr {n : Nat} (hn : n ≤ hdrtreeMax) :
    leVal (rootHash (branchHdr rootHash n)).1 = n + 1 := by
  have hlink : ∃ prev, branchHdr rootHash n = linkHdr prev (n + 1) := by
    cases n with
    | zero => exact ⟨_, rfl⟩
    | succ n => exact ⟨_, rfl⟩
  obtain ⟨prev, hlink⟩ := hlink
  rw [hlink, rootHash_linkHdr]
  apply Nat.mod_eq_of_lt
  have hmax : hdrtreeMax + 1 < 256 ^ 32 := by decide
  omega

theorem collisionFree_rootHash : CollisionFree rootHash := by
  constructor
  · intro i hi j hj hhash
    have hi' := rootHash_branchHdr hi
    rw [hhash, rootHash_branchHdr hj] at hi'
    omega
  · intro i hi hnull
    have hi' := rootHash_branchHdr hi
    rw [hnull] at hi'
    have hzero : leVal (Bytes.ofList 32 []).1 = 0 := by decide
    omega

/-- A branch one header longer than the table: the last header takes the place
of the one before it. -/
theorem long_branch_loses_parent :
    ¬ ∀ before op after,
      branchOps rootHash (hdrtreeMax + 1) = before ++ op :: after →
        Intact rootHash (Past.run rootHash before) op := by
  intro hintact
  have hops : branchOps rootHash (hdrtreeMax + 1) =
      branchOps rootHash hdrtreeMax ++ branchOp rootHash hdrtreeMax :: [] := by
    rw [branchOps, List.range_succ, List.map_append]
    rfl
  exact (Past.good_run _).not_intact (branch_evictsParent collisionFree_rootHash)
    (hintact _ _ _ hops)

end BitcoinMachineCode.Chain
