import BitcoinMachineCode.Storage.IndexRunFile

/-!
# Index runs across a merge

`irs_refresh` of `daemon/index_runs.c` takes the runs in a directory, of which it holds 64, and
passes over those inside another's range: they are inputs that a merge left behind.  The merge
of `daemon/merge_index_runs.c` writes one run over all it found, gives it its name and only then
removes the inputs.  A crash leaves some first file operations done.
-/

namespace BitcoinMachineCode.Storage.IndexRuns

open BitcoinMachineCode.Foundation KWay

abbrev Dir : Type := List (Name × List UInt8)

def irsMaxRuns : Nat := 64

/-! ## The active runs -/

def Name.isRun : Name → Bool
  | .base => true
  | .run _ _ => true
  | .tmp _ _ => false

def openEntry (f : Fmt) (e : Name × List UInt8) : Option IRun :=
  if e.1.isRun then irsOpenRun f e.1 e.2 else none

/-- The scan of a directory in the order it is listed, as far as there is room. -/
def scan (f : Fmt) (listing : Dir) : List IRun := (listing.filterMap (openEntry f)).take irsMaxRuns

def Name.le : Name → Name → Bool
  | .base, _ => true
  | .run _ _, .base => false
  | .run a b, .run c d => a < c || (a = c && b ≤ d)
  | .run _ _, .tmp _ _ => true
  | .tmp _ _, .base => false
  | .tmp _ _, .run _ _ => false
  | .tmp a b, .tmp c d => a < c || (a = c && b ≤ d)

def cmpRun (x y : IRun) : Bool :=
  if x.first ≠ y.first then x.first < y.first
  else if x.last ≠ y.last then x.last < y.last
  else x.path.le y.path

/-- Another run of the array has run `i`, here `r`, inside its range; of equal ranges the
later one stays. -/
def covered (found : List IRun) (i : Nat) (r : IRun) : Bool :=
  found.zipIdx.any fun q => q.2 ≠ i && q.1.first ≤ r.first && r.last ≤ q.1.last &&
    !(q.1.first = r.first && q.1.last = r.last && q.2 < i)

/-- The last loop of `irs_refresh`: what stays moves to the front of the array it reads. -/
def sift : Nat → Nat → List IRun → Nat → List IRun → List IRun × List IRun
  | 0, _, found, keep, sup => (found.take keep, sup)
  | n + 1, i, found, keep, sup =>
      match found[i]? with
      | none => (found.take keep, sup)
      | some r =>
          if covered found i r then sift n (i + 1) found keep (sup ++ [r])
          else sift n (i + 1) (found.set keep r) (keep + 1) sup

/-- The runs in use, and the ones inside them. -/
def irsRefresh (f : Fmt) (listing : Dir) : List IRun × List IRun :=
  let found := (scan f listing).insertionSort fun x y => cmpRun x y
  sift found.length 0 found 0 []

def recordsOf (rs : List IRun) : List (List UInt8) := (rs.map IRun.recs).flatten

/-! ## The merge -/

inductive FsOp where
  | write (name : Name) (bytes : List UInt8)
  | rename (old new : Name)
  | unlink (name : Name)

def FsOp.apply (dir : Dir) : FsOp → Dir
  | .write name bytes => dir.filter (·.1 ≠ name) ++ [(name, bytes)]
  | .rename old new =>
      match dir.find? (·.1 = old) with
      | none => dir
      | some e => dir.filter (fun d => d.1 ≠ old ∧ d.1 ≠ new) ++ [(new, e.2)]
  | .unlink name => dir.filter (·.1 ≠ name)

def lowest (r : IRun) (rs : List IRun) : Nat := rs.foldl (fun m x => if x.first < m then x.first else m) r.first

def highest (r : IRun) (rs : List IRun) : Nat := rs.foldl (fun m x => if m < x.last then x.last else m) r.last

def unlinks (rs : List IRun) : List FsOp := rs.map fun r => .unlink r.path

/-- The output is written without its header, with it, and named. -/
def publish (f : Fmt) (lo hi : Nat) (recs : List (List UInt8)) : List FsOp :=
  [.write (.tmp lo hi) (List.replicate irsHdr 0 ++ runBody f recs), .write (.tmp lo hi) (runFile f lo hi recs),
    .rename (.tmp lo hi) (.run lo hi)]

/-- The file operations of `main`, by how the directory was listed. -/
def mergeOps (f : Fmt) (listing : Dir) : List FsOp :=
  match irsRefresh f listing with
  | (r :: s :: rest, sup) =>
      let active := r :: s :: rest
      let lo := lowest r active
      let hi := highest r active
      if active.any fun x => x.path = .run lo hi then []
      else publish f lo hi (mergeAll (recLt f) (active.map IRun.recs)) ++ (unlinks active ++ unlinks sup)
  | (_, sup) => unlinks sup

/-! ## Collections of runs -/

def Apart (r s : IRun) : Prop := r.last < s.first ∨ s.last < r.first

/-- Runs of one index, each sorted and named for its range, or the base; the ranges do not
meet.  A file has less than 2^63 bytes, and so have all together. -/
structure Runs (ix : Index) where
  entries : Dir
  opens : ∀ e ∈ entries, ∃ r, openEntry ix.fmt e = some r ∧
    (e.1 = .base ∨ e.1 = .run r.first r.last) ∧ Ordered (recLt ix.fmt) r.recs
  names : (entries.map Prod.fst).Nodup
  apart : (entries.filterMap (openEntry ix.fmt)).Pairwise Apart
  size : (entries.map fun e => e.2.length).sum < 2 ^ 63

namespace Runs

variable {ix : Index}

def runs (c : Runs ix) : List IRun := c.entries.filterMap (openEntry ix.fmt)

def records (c : Runs ix) : List (List UInt8) := recordsOf c.runs

/-- The directory after the first `k` operations of a merge. -/
def crashed (ix : Index) (dir listing : Dir) (k : Nat) : Dir :=
  ((mergeOps ix.fmt listing).take k).foldl FsOp.apply dir

def merged (ix : Index) (dir listing : Dir) : Dir := (mergeOps ix.fmt listing).foldl FsOp.apply dir

/-- A file that opens as a run with these records, in order, and with a sparse table that
names them. -/
def WellMerged (ix : Index) (lo hi : Nat) (recs : List (List UInt8)) : Prop :=
  ∃ m, irsOpenRun ix.fmt (.run lo hi) (runFile ix.fmt lo hi recs) = some m ∧ m.recs = recs ∧
    Ordered (recLt ix.fmt) recs ∧ SparseNames ix.fmt (runFile ix.fmt lo hi recs) m

/-- Wherever a merge stops, what is then active, and what is active after a further merge, has
every record once; and what a merge writes is sorted, with its sparse table right. -/
def Survives (c : Runs ix) : Prop :=
  (∀ listing, listing.Perm c.entries → ∀ k,
    (∀ again, again.Perm (crashed ix c.entries listing k) →
      (recordsOf (irsRefresh ix.fmt again).1).Perm c.records) ∧
    ∀ second, second.Perm (crashed ix c.entries listing k) →
      ∀ again, again.Perm (merged ix (crashed ix c.entries listing k) second) →
        (recordsOf (irsRefresh ix.fmt again).1).Perm c.records) ∧
  ∀ listing, listing.Perm c.entries → ∀ r s rest sup, irsRefresh ix.fmt listing = (r :: s :: rest, sup) →
    WellMerged ix (lowest r (r :: s :: rest)) (highest r (r :: s :: rest))
      (mergeAll (recLt ix.fmt) ((r :: s :: rest).map IRun.recs))

end Runs

/-! ## Which runs stay -/

theorem covered_eq_false {found : List IRun} {i : Nat} {r : IRun}
    (h : ∀ q j, found[j]? = some q → j ≠ i → q.first ≤ r.first → r.last ≤ q.last →
      q.first = r.first ∧ q.last = r.last ∧ j < i) : covered found i r = false := by
  unfold covered
  rw [List.any_eq_false]
  rintro ⟨q, j⟩ hq
  have hj := List.mem_zipIdx_iff_getElem?.mp hq
  simp only [Bool.and_eq_true, decide_eq_true_eq, Bool.not_eq_true', Bool.and_eq_false_imp, decide_eq_false_iff_not]
  rintro ⟨⟨⟨hne, hfirst⟩, hlast⟩, hlater⟩
  obtain ⟨heq, heq', hlt⟩ := h q j hj hne hfirst hlast
  exact hlater ⟨heq, heq'⟩ hlt

theorem covered_of_wider {found : List IRun} {i j : Nat} {q r : IRun} (hj : found[j]? = some q) (hne : j ≠ i)
    (hfirst : q.first ≤ r.first) (hlast : r.last ≤ q.last) (hwider : ¬ (q.first = r.first ∧ q.last = r.last)) :
    covered found i r = true := by
  unfold covered
  rw [List.any_eq_true]
  refine ⟨(q, j), List.mem_zipIdx_iff_getElem?.mpr hj, ?_⟩
  simp only [Bool.and_eq_true, decide_eq_true_eq, Bool.not_eq_true', Bool.and_eq_false_imp, decide_eq_false_iff_not]
  exact ⟨⟨⟨hne, hfirst⟩, hlast⟩, fun h => absurd h hwider⟩

theorem Apart.symm {r s : IRun} (h : Apart r s) : Apart s r := Or.symm h

/-- Runs that do not meet all stay. -/
theorem sift_of_apart {found : List IRun} (hapart : found.Pairwise Apart) (hrange : ∀ r ∈ found, r.first ≤ r.last)
    {n i : Nat} (sup : List IRun) (hn : i + n = found.length) : sift n i found i sup = (found, sup) := by
  induction n generalizing i with
  | zero => simp [sift, ← hn]
  | succ n ih =>
      have hi : i < found.length := by omega
      have hself : found[i]? = some found[i] := List.getElem?_eq_getElem hi
      have hcovered : covered found i found[i] = false := by
        apply covered_eq_false
        intro q j hj hne hfirst hlast
        exfalso
        obtain ⟨hj', rfl⟩ := List.getElem?_eq_some_iff.mp hj
        have hq := hrange _ (List.getElem_mem hj')
        have hr := hrange _ (List.getElem_mem hi)
        rcases Nat.lt_or_gt_of_ne hne with hlt | hgt
        · rcases List.pairwise_iff_getElem.mp hapart j i hj' hi hlt with h | h <;> omega
        · rcases List.pairwise_iff_getElem.mp hapart i j hi hj' hgt with h | h <;> omega
      unfold sift
      simp only [hself, hcovered, Bool.false_eq_true, if_false, List.set_getElem_self]
      exact ih (by omega)

/-- The wide run has every other one strictly inside its range. -/
def Inside (m r : IRun) : Prop :=
  m.first ≤ r.first ∧ r.last ≤ m.last ∧ ¬ (m.first = r.first ∧ m.last = r.last)

theorem sift_behind {m : IRun} {found : List IRun} (hfirst : found[0]? = some m) {n i : Nat} {sup : List IRun}
    (hn : i + n = found.length) (hi : 0 < i) (hin : ∀ r ∈ found.drop i, Inside m r) :
    sift n i found 1 sup = ([m], sup ++ found.drop i) := by
  induction n generalizing i sup with
  | zero =>
      have htake : found.take 1 = [m] := by
        cases found with
        | nil => simp at hfirst
        | cons x found =>
            obtain rfl : x = m := by simpa using hfirst
            rfl
      rw [sift, htake, List.drop_of_length_le (by omega), List.append_nil]
  | succ n ih =>
      have hlt : i < found.length := by omega
      have hself : found[i]? = some found[i] := List.getElem?_eq_getElem hlt
      have hdrop : found.drop i = found[i] :: found.drop (i + 1) := List.drop_eq_getElem_cons hlt
      rw [hdrop, List.forall_mem_cons] at hin
      obtain ⟨⟨h₁, h₂, h₃⟩, hrest⟩ := hin
      unfold sift
      simp only [hself, covered_of_wider hfirst (by omega : (0 : Nat) ≠ i) h₁ h₂ h₃, if_true]
      rw [ih (by omega) (by omega) hrest, hdrop, List.append_assoc]
      rfl

/-- Of runs inside a wide one, the wide one stays. -/
theorem sift_of_inside {m : IRun} {before mid after : List IRun}
    (hin : ∀ r ∈ before ++ mid ++ after, Inside m r) :
    sift (mid.length + 1 + after.length) before.length (before ++ mid ++ m :: after) 0 before =
      ([m], before ++ mid ++ after) := by
  induction mid generalizing before with
  | nil =>
      have hself : (before ++ [] ++ m :: after)[before.length]? = some m := by simp
      have hcovered : covered (before ++ [] ++ m :: after) before.length m = false := by
        apply covered_eq_false
        intro q j hj hne hfirst hlast
        exfalso
        have hmem : q ∈ before ++ [] ++ after := by
          have hq := List.mem_of_getElem? hj
          simp only [List.append_nil, List.mem_append, List.mem_cons] at hq ⊢
          rcases hq with hq | rfl | hq
          · exact .inl hq
          · rw [List.append_nil] at hj
            rcases Nat.lt_or_gt_of_ne hne with hlt | hgt
            · rw [List.getElem?_append_left hlt] at hj
              exact .inl (List.mem_of_getElem? hj)
            · rw [List.getElem?_append_right hgt.le,
                show j - before.length = (j - before.length - 1) + 1 by omega, List.getElem?_cons_succ] at hj
              exact .inr (List.mem_of_getElem? hj)
          · exact .inr hq
        obtain ⟨h₁, h₂, h₃⟩ := hin q hmem
        exact h₃ ⟨by omega, by omega⟩
      rw [List.length_nil, Nat.zero_add, Nat.add_comm 1]
      unfold sift
      simp only [hself, hcovered, Bool.false_eq_true, if_false]
      have hset : ((before ++ [] ++ m :: after).set 0 m)[0]? = some m := by
        simp
      have hdrop : ((before ++ [] ++ m :: after).set 0 m).drop (before.length + 1) = after := by
        rw [List.drop_set_of_lt (by omega)]
        simp
      rw [sift_behind hset (by simp; omega) (by omega), hdrop, List.append_nil]
      rw [hdrop]
      exact fun r hr => hin r (by simp [hr])
  | cons r mid ih =>
      have hself : (before ++ r :: mid ++ m :: after)[before.length]? = some r := by simp
      have hm : (before ++ r :: mid ++ m :: after)[before.length + mid.length + 1]? = some m := by
        rw [List.getElem?_append_right (by simp; omega)]
        simp [show before.length + mid.length + 1 - (before.length + (mid.length + 1)) = 0 by omega]
      obtain ⟨h₁, h₂, h₃⟩ := hin r (by simp)
      rw [List.length_cons, show mid.length + 1 + 1 + after.length = (mid.length + 1 + after.length) + 1 by omega]
      unfold sift
      have hcovered := covered_of_wider hm (show before.length + mid.length + 1 ≠ before.length by omega) h₁ h₂ h₃
      simp only [hself, hcovered, if_true]
      have hnext := @ih (before ++ [r]) (by simpa using hin)
      simpa using hnext

/-! ## What the operations do to the runs -/

/-- The runs a directory has, in its order. -/
def view (f : Fmt) (dir : Dir) : List IRun := dir.filterMap (openEntry f)

theorem openEntry_eq_some {f : Fmt} {e : Name × List UInt8} {r : IRun} (h : openEntry f e = some r) :
    e.1.isRun = true ∧ irsOpenRun f e.1 e.2 = some r := by
  unfold openEntry at h
  split at h
  · exact ⟨‹_›, h⟩
  · cases h

theorem path_of_openEntry {f : Fmt} {e : Name × List UInt8} {r : IRun} (h : openEntry f e = some r) :
    r.path = e.1 :=
  (irsOpenRun_eq_some (openEntry_eq_some h).2).1

theorem mem_view {f : Fmt} {dir : Dir} {r : IRun} :
    r ∈ view f dir ↔ ∃ e ∈ dir, openEntry f e = some r := by
  simp [view]

theorem view_filter (f : Fmt) (dir : Dir) (keep : Name → Bool) :
    view f (dir.filter fun e => keep e.1) = (view f dir).filter fun r => keep r.path := by
  induction dir with
  | nil => rfl
  | cons e dir ih =>
      unfold view at ih ⊢
      cases hopen : openEntry f e with
      | none => by_cases hkeep : keep e.1 = true <;> simp [hopen, hkeep, ih]
      | some r =>
          have hpath := path_of_openEntry hopen
          by_cases hkeep : keep e.1 = true <;> simp [hopen, hkeep, hpath, ih]

theorem view_append (f : Fmt) (dir more : Dir) : view f (dir ++ more) = view f dir ++ view f more :=
  List.filterMap_append

theorem isRun_of_mem_view {f : Fmt} {dir : Dir} {r : IRun} (h : r ∈ view f dir) : r.path.isRun = true := by
  obtain ⟨e, -, he⟩ := mem_view.mp h
  rw [path_of_openEntry he]
  exact (openEntry_eq_some he).1

theorem view_write_tmp (f : Fmt) (dir : Dir) (lo hi : Nat) (bytes : List UInt8) :
    view f (FsOp.apply dir (.write (.tmp lo hi) bytes)) = view f dir := by
  unfold FsOp.apply
  have hfilter := view_filter f dir fun n => decide (n ≠ .tmp lo hi)
  rw [view_append, hfilter]
  have hkeep : (view f dir).filter (fun r => decide (r.path ≠ .tmp lo hi)) = view f dir := by
    refine List.filter_eq_self.mpr fun r hr => ?_
    have hrun := isRun_of_mem_view hr
    rw [decide_eq_true_eq]
    intro heq
    rw [heq] at hrun
    cases hrun
  rw [hkeep]
  simp [view, openEntry, Name.isRun]

/-- The three operations that put a new run in place. -/
theorem view_publish (f : Fmt) (dir : Dir) (lo hi : Nat) (recs : List (List UInt8)) :
    view f ((publish f lo hi recs).foldl FsOp.apply dir) =
      (view f dir).filter (fun r => decide (r.path ≠ .run lo hi)) ++
        (irsOpenRun f (.run lo hi) (runFile f lo hi recs)).toList := by
  simp only [publish, List.foldl_cons, List.foldl_nil]
  generalize hdir' : FsOp.apply dir (.write (.tmp lo hi) (List.replicate irsHdr 0 ++ runBody f recs)) = dir'
  have hview' : view f dir' = view f dir := by
    rw [← hdir']
    exact view_write_tmp ..
  have hfind : (FsOp.apply dir' (.write (.tmp lo hi) (runFile f lo hi recs))).find? (fun e => decide (e.1 = .tmp lo hi)) =
      some (.tmp lo hi, runFile f lo hi recs) := by
    have hnone : (dir'.filter fun e => decide (e.1 ≠ .tmp lo hi)).find? (fun e => decide (e.1 = .tmp lo hi)) = none := by
      rw [List.find?_eq_none]
      intro e he
      simpa using (List.mem_filter.mp he).2
    simp only [FsOp.apply, List.find?_append, hnone, Option.none_or]
    simp
  have hwritten := view_write_tmp f dir' lo hi (runFile f lo hi recs)
  generalize FsOp.apply dir' (.write (.tmp lo hi) (runFile f lo hi recs)) = dir₂ at hfind hwritten
  have hkeep := view_filter f dir₂ fun n => decide (n ≠ .tmp lo hi ∧ n ≠ .run lo hi)
  simp only [FsOp.apply, hfind]
  rw [view_append, hkeep, hwritten, hview']
  congr 1
  · refine List.filter_congr fun r hr => ?_
    have hrun := isRun_of_mem_view hr
    have hne : r.path ≠ .tmp lo hi := by
      intro heq
      rw [heq] at hrun
      cases hrun
    simp [hne]

theorem view_unlinks (f : Fmt) (dir : Dir) (xs : List IRun) :
    view f ((unlinks xs).foldl FsOp.apply dir) =
      (view f dir).filter fun r => decide (r.path ∉ xs.map IRun.path) := by
  induction xs generalizing dir with
  | nil => simp [unlinks]
  | cons x xs ih =>
      have hfirst := view_filter f dir fun n => decide (n ≠ x.path)
      have hrest := ih (FsOp.apply dir (.unlink x.path))
      simp only [unlinks, List.map_cons, List.foldl_cons] at hrest ⊢
      rw [hrest]
      simp only [FsOp.apply]
      rw [hfirst, List.filter_filter]
      refine List.filter_congr fun r _ => ?_
      by_cases hx : r.path = x.path <;> simp [hx]

theorem take_unlinks (xs : List IRun) (k : Nat) : (unlinks xs).take k = unlinks (xs.take k) := by
  simp [unlinks, List.map_take]

/-- Where a merge may stop: with nothing named yet, or with the new run and some inputs gone. -/
theorem view_publish_take (f : Fmt) (dir : Dir) (lo hi : Nat) (recs : List (List UInt8)) (xs : List IRun) (k : Nat) :
    view f (((publish f lo hi recs ++ unlinks xs).take k).foldl FsOp.apply dir) = view f dir ∨
      ∃ ys, ys <+: xs ∧ view f (((publish f lo hi recs ++ unlinks xs).take k).foldl FsOp.apply dir) =
        ((view f dir).filter (fun r => decide (r.path ≠ .run lo hi)) ++
          (irsOpenRun f (.run lo hi) (runFile f lo hi recs)).toList).filter
            fun r => decide (r.path ∉ ys.map IRun.path) := by
  match k with
  | 0 => exact .inl rfl
  | 1 => exact .inl (view_write_tmp ..)
  | 2 => exact .inl ((view_write_tmp ..).trans (view_write_tmp ..))
  | k + 3 =>
      right
      refine ⟨xs.take k, List.take_prefix .., ?_⟩
      have htake : (publish f lo hi recs ++ unlinks xs).take (k + 3) = publish f lo hi recs ++ unlinks (xs.take k) := by
        rw [← take_unlinks]
        rfl
      rw [htake, List.foldl_append, view_unlinks, view_publish]

/-! ## The merged run -/

theorem recordsOf_perm {rs qs : List IRun} (h : rs.Perm qs) : (recordsOf rs).Perm (recordsOf qs) :=
  (h.map IRun.recs).flatten

theorem length_recordsOf_le {rs qs : List IRun} (h : rs.Subperm qs) :
    (recordsOf rs).length ≤ (recordsOf qs).length := by
  obtain ⟨ls, hperm, hsub⟩ := h
  rw [← (recordsOf_perm hperm).length_eq]
  exact ((hsub.map IRun.recs).flatten).length_le

theorem mem_recordsOf {rs : List IRun} {x : List UInt8} : x ∈ recordsOf rs ↔ ∃ r ∈ rs, x ∈ r.recs := by
  simp [recordsOf]

theorem lowest_le (r : IRun) (rs : List IRun) : lowest r rs ≤ r.first ∧ (∀ x ∈ rs, lowest r rs ≤ x.first) ∧
    (lowest r rs = r.first ∨ ∃ x ∈ rs, lowest r rs = x.first) := by
  unfold lowest
  generalize r.first = m
  induction rs generalizing m with
  | nil => simp
  | cons x rs ih =>
      obtain ⟨hm, hall, hfrom⟩ := ih (if x.first < m then x.first else m)
      simp only [List.foldl_cons, List.forall_mem_cons]
      split at hm <;> rename_i hlt <;> simp only [hlt, if_true, if_false] at hm hall hfrom ⊢
      · refine ⟨by omega, ⟨hm, hall⟩, .inr ?_⟩
        rcases hfrom with heq | ⟨y, hy, heq⟩
        · exact ⟨x, by simp, heq⟩
        · exact ⟨y, by simp [hy], heq⟩
      · refine ⟨hm, ⟨by omega, hall⟩, hfrom.imp id ?_⟩
        rintro ⟨y, hy, heq⟩
        exact ⟨y, by simp [hy], heq⟩

theorem le_highest (r : IRun) (rs : List IRun) : r.last ≤ highest r rs ∧ (∀ x ∈ rs, x.last ≤ highest r rs) ∧
    (highest r rs = r.last ∨ ∃ x ∈ rs, highest r rs = x.last) := by
  unfold highest
  generalize r.last = m
  induction rs generalizing m with
  | nil => simp
  | cons x rs ih =>
      obtain ⟨hm, hall, hfrom⟩ := ih (if m < x.last then x.last else m)
      simp only [List.foldl_cons, List.forall_mem_cons]
      split at hm <;> rename_i hlt <;> simp only [hlt, if_true, if_false] at hm hall hfrom ⊢
      · refine ⟨by omega, ⟨hm, hall⟩, .inr ?_⟩
        rcases hfrom with heq | ⟨y, hy, heq⟩
        · exact ⟨x, by simp, heq⟩
        · exact ⟨y, by simp [hy], heq⟩
      · refine ⟨hm, ⟨by omega, hall⟩, hfrom.imp id ?_⟩
        rintro ⟨y, hy, heq⟩
        exact ⟨y, by simp [hy], heq⟩

section Output

variable {ix : Index} {dir : Dir} {r : IRun} {rest : List IRun}

theorem recs_of_mem_view {x : IRun} (h : x ∈ view ix.fmt dir) :
    x.first ≤ x.last ∧ x.last < 2 ^ 32 ∧ Sized ix.fmt x.recs := by
  obtain ⟨e, -, he⟩ := mem_view.mp h
  obtain ⟨-, hrange, hlast, -, hsized, -⟩ := irsOpenRun_eq_some (openEntry_eq_some he).2
  exact ⟨hrange, hlast, hsized⟩

/-- The records of a directory take no more room than its files. -/
theorem size_recordsOf_view (ix : Index) (dir : Dir) :
    (recordsOf (view ix.fmt dir)).length * ix.fmt.recBytes ≤ (dir.map fun e => e.2.length).sum := by
  induction dir with
  | nil => simp [view, recordsOf]
  | cons e dir ih =>
      rw [List.map_cons, List.sum_cons]
      cases hopen : openEntry ix.fmt e with
      | none =>
          have hview : view ix.fmt (e :: dir) = view ix.fmt dir := by simp [view, hopen]
          rw [hview]
          omega
      | some x =>
          have hview : view ix.fmt (e :: dir) = x :: view ix.fmt dir := by simp [view, hopen]
          obtain ⟨-, -, -, -, -, hroom⟩ := irsOpenRun_eq_some (openEntry_eq_some hopen).2
          rw [hview]
          simp only [recordsOf, List.map_cons, List.flatten_cons, List.length_append, Nat.add_mul] at ih ⊢
          omega

/-- What a merge of some runs of a directory writes can be opened. -/
theorem open_output (hsub : (r :: rest).Subperm (view ix.fmt dir))
    (hsize : (dir.map fun e => e.2.length).sum < 2 ^ 63) :
    Sized ix.fmt (mergeAll (recLt ix.fmt) ((r :: rest).map IRun.recs)) ∧
      irsHdr + (mergeAll (recLt ix.fmt) ((r :: rest).map IRun.recs)).length * ix.fmt.recBytes < 2 ^ 64 ∧
      lowest r (r :: rest) ≤ highest r (r :: rest) ∧ highest r (r :: rest) < 2 ^ 32 := by
  have hperm : (mergeAll (recLt ix.fmt) ((r :: rest).map IRun.recs)).Perm (recordsOf (r :: rest)) :=
    mergeAll_perm (strictWeak_recLt _) _
  have hmem : ∀ x ∈ r :: rest, x ∈ view ix.fmt dir := fun x hx => hsub.subset hx
  refine ⟨?_, ?_, ?_, ?_⟩
  · intro x hx
    obtain ⟨q, hq, hxq⟩ := mem_recordsOf.mp (hperm.mem_iff.mp hx)
    exact (recs_of_mem_view (hmem q hq)).2.2 x hxq
  · rw [hperm.length_eq]
    have hle := Nat.mul_le_mul_right ix.fmt.recBytes (length_recordsOf_le hsub)
    have hroom := size_recordsOf_view ix dir
    have hhdr : irsHdr = 48 := rfl
    omega
  · have hr := recs_of_mem_view (hmem r (by simp))
    have hlow := (lowest_le r (r :: rest)).1
    have hhigh := (le_highest r (r :: rest)).1
    omega
  · rcases (le_highest r (r :: rest)).2.2 with heq | ⟨x, hx, heq⟩
    · rw [heq]
      exact (recs_of_mem_view (hmem r (by simp))).2.1
    · rw [heq]
      exact (recs_of_mem_view (hmem x hx)).2.1

end Output

namespace Runs

variable {ix : Index} (c : Runs ix)

/-- A run over all of the collection. -/
structure Over (m : IRun) : Prop where
  path : m.path = .run m.first m.last
  inside : ∀ r ∈ c.runs, Inside m r
  first_mem : ∃ r ∈ c.runs, m.first = r.first
  last_mem : ∃ r ∈ c.runs, m.last = r.last
  records : m.recs.Perm c.records

/-- The runs of the collection, or a run over all of them beside some. -/
def Good (dir : Dir) : Prop :=
  (view ix.fmt dir).Perm c.runs ∨
    ∃ m rest, c.Over m ∧ (view ix.fmt dir).Perm (m :: rest) ∧ rest.Subperm c.runs

variable {c}

theorem mem_runs {r : IRun} (h : r ∈ c.runs) :
    r.first ≤ r.last ∧ (r.path = .base ∨ r.path = .run r.first r.last) ∧ Ordered (recLt ix.fmt) r.recs := by
  obtain ⟨e, he, hopen⟩ := mem_view.mp (show r ∈ view ix.fmt c.entries from h)
  obtain ⟨r', hr', hname, hordered⟩ := c.opens e he
  rw [hopen] at hr'
  obtain rfl := Option.some_inj.mp hr'
  rw [path_of_openEntry hopen]
  exact ⟨(recs_of_mem_view h).1, hname, hordered⟩

theorem Over.path_ne {m r : IRun} (h : c.Over m) (hr : r ∈ c.runs) : r.path ≠ m.path := by
  rw [h.path]
  rcases (mem_runs hr).2.1 with hpath | hpath
  · rw [hpath]
    nofun
  · rw [hpath]
    intro heq
    obtain ⟨hfirst, hlast⟩ := Name.run.inj heq
    exact (h.inside r hr).2.2 ⟨hfirst.symm, hlast.symm⟩

theorem length_runs (c : Runs ix) : c.runs.length = c.entries.length := by
  have hall : ∀ dir : Dir, (∀ e ∈ dir, ∃ r, openEntry ix.fmt e = some r) →
      (dir.filterMap (openEntry ix.fmt)).length = dir.length := by
    intro dir
    induction dir with
    | nil => simp
    | cons e dir ih =>
        intro h
        rw [List.forall_mem_cons] at h
        obtain ⟨⟨r, hr⟩, hrest⟩ := h
        simp [hr, ih hrest]
  exact hall c.entries fun e he => (c.opens e he).imp fun r hr => hr.1

/-- Runs of the collection do not meet, in whatever order. -/
theorem apart_of_subperm {rs : List IRun} (h : rs.Subperm c.runs) : rs.Pairwise Apart := by
  obtain ⟨ls, hperm, hsub⟩ := h
  exact (hperm.pairwise_iff Apart.symm).mp (c.apart.sublist hsub)

/-- A refresh that sees runs of the collection only keeps all it sees. -/
theorem refresh_of_subperm {listing : Dir} (h : (scan ix.fmt listing).Subperm c.runs) :
    (irsRefresh ix.fmt listing).1.Perm (scan ix.fmt listing) ∧ (irsRefresh ix.fmt listing).2 = [] := by
  have hperm := (scan ix.fmt listing).perm_insertionSort fun x y => cmpRun x y
  generalize hfound : (scan ix.fmt listing).insertionSort (fun x y => cmpRun x y) = found at hperm
  have hsub : found.Subperm c.runs := hperm.subperm.trans h
  have hsift := sift_of_apart (apart_of_subperm hsub) (fun r hr => (mem_runs (hsub.subset hr)).1) []
    (Nat.zero_add found.length)
  unfold irsRefresh
  simp only [hfound, hsift]
  exact ⟨hperm, trivial⟩

/-- A refresh that sees a run over the collection, and beside it runs of the collection, keeps
that one. -/
theorem refresh_of_over {listing : Dir} {m : IRun} {rest : List IRun} (hm : c.Over m)
    (hscan : (scan ix.fmt listing).Perm (m :: rest)) (hrest : rest.Subperm c.runs) :
    (irsRefresh ix.fmt listing).1 = [m] ∧ (irsRefresh ix.fmt listing).2.Perm rest := by
  have hperm := (scan ix.fmt listing).perm_insertionSort fun x y => cmpRun x y
  generalize hfound : (scan ix.fmt listing).insertionSort (fun x y => cmpRun x y) = found at hperm
  have hmem : m ∈ found := (hperm.trans hscan).mem_iff.mpr (by simp)
  obtain ⟨before, after, rfl⟩ := List.append_of_mem hmem
  have hothers : (before ++ after).Perm rest :=
    (List.perm_cons m).mp (List.perm_middle.symm.trans (hperm.trans hscan))
  have hin : ∀ r ∈ ([] : List IRun) ++ before ++ after, Inside m r := by
    intro r hr
    exact hm.inside r (hrest.subset (hothers.mem_iff.mp (by simpa using hr)))
  have hsift := sift_of_inside hin
  have hlen : (before ++ m :: after).length = before.length + 1 + after.length := by
    simp
    omega
  unfold irsRefresh
  simp only [hfound, hlen]
  simp only [List.length_nil, List.nil_append] at hsift
  rw [hsift]
  exact ⟨rfl, hothers⟩

/-- What a refresh can find in a good directory. -/
theorem Good.refresh {dir listing : Dir} (h : c.Good dir) (hmax : c.runs.length ≤ irsMaxRuns)
    (hlisting : listing.Perm dir) :
    ((irsRefresh ix.fmt listing).1.Perm c.runs ∧ (irsRefresh ix.fmt listing).2 = []) ∨
      ∃ m, c.Over m ∧ (irsRefresh ix.fmt listing).1 = [m] ∧ (irsRefresh ix.fmt listing).2.Subperm c.runs ∧
        m ∈ view ix.fmt dir := by
  have hview : (view ix.fmt listing).Perm (view ix.fmt dir) := hlisting.filterMap _
  rcases h with hruns | ⟨m, rest, hm, hperm, hrest⟩
  · left
    have hall : scan ix.fmt listing = view ix.fmt listing := by
      refine List.take_of_length_le ?_
      rw [← view, (hview.trans hruns).length_eq]
      exact hmax
    obtain ⟨hactive, hsup⟩ := refresh_of_subperm (hall ▸ (hview.trans hruns).subperm)
    rw [hall] at hactive
    exact ⟨hactive.trans (hview.trans hruns), hsup⟩
  · have hall : (view ix.fmt listing).Perm (m :: rest) := hview.trans hperm
    have hsub : (scan ix.fmt listing).Subperm (m :: rest) :=
      ((List.take_sublist irsMaxRuns _).subperm).trans hall.subperm
    by_cases hmem : m ∈ scan ix.fmt listing
    · right
      have hscan : (scan ix.fmt listing).Perm (m :: (scan ix.fmt listing).erase m) := List.perm_cons_erase hmem
      have hothers : ((scan ix.fmt listing).erase m).Subperm c.runs := by
        have herase := hsub.erase m
        rw [List.erase_cons_head] at herase
        exact herase.trans hrest
      obtain ⟨hactive, hsup⟩ := refresh_of_over hm hscan hothers
      exact ⟨m, hm, hactive, hsup.subperm.trans hothers, hperm.mem_iff.mpr (by simp)⟩
    · -- the listing is longer than the scan, so all of the collection is still there
      left
      have hscan : (scan ix.fmt listing).Subperm rest := by
        have herase := hsub.erase m
        rwa [List.erase_cons_head, List.erase_of_not_mem hmem] at herase
      have hlong : (scan ix.fmt listing).length = irsMaxRuns := by
        by_contra hshort
        refine hmem ?_
        have hwhole : scan ix.fmt listing = view ix.fmt listing := by
          refine List.take_of_length_le ?_
          rw [← view]
          simp only [scan, List.length_take] at hshort
          rw [← view] at hshort
          omega
        rw [hwhole]
        exact hall.mem_iff.mpr (by simp)
      have hfull : (scan ix.fmt listing).Perm c.runs :=
        (hscan.trans hrest).perm_of_length_le (by omega)
      obtain ⟨hactive, hsup⟩ := refresh_of_subperm hfull.subperm
      exact ⟨hactive.trans hfull, hsup⟩

theorem Good.records {dir listing : Dir} (h : c.Good dir) (hmax : c.runs.length ≤ irsMaxRuns)
    (hlisting : listing.Perm dir) : (recordsOf (irsRefresh ix.fmt listing).1).Perm c.records := by
  rcases h.refresh hmax hlisting with ⟨hactive, -⟩ | ⟨m, hm, hactive, -, -⟩
  · exact recordsOf_perm hactive
  · rw [hactive]
    simpa [recordsOf] using hm.records

theorem Over.range_eq {m m' : IRun} (h : c.Over m) (h' : c.Over m') : m.first = m'.first ∧ m.last = m'.last := by
  obtain ⟨r₁, hr₁, h₁⟩ := h.first_mem
  obtain ⟨r₂, hr₂, h₂⟩ := h'.first_mem
  obtain ⟨r₃, hr₃, h₃⟩ := h.last_mem
  obtain ⟨r₄, hr₄, h₄⟩ := h'.last_mem
  have i₁ := (h'.inside r₁ hr₁).1
  have i₂ := (h.inside r₂ hr₂).1
  have i₃ := (h'.inside r₃ hr₃).2.1
  have i₄ := (h.inside r₄ hr₄).2.1
  omega

theorem Over.not_mem {m : IRun} (h : c.Over m) : m ∉ c.runs :=
  fun hm => (h.inside m hm).2.2 ⟨rfl, rfl⟩

/-- What a merge of all runs writes is a run over the collection. -/
theorem over_output {r s : IRun} {rest : List IRun} (hactive : (r :: s :: rest).Perm c.runs) :
    ∃ m, irsOpenRun ix.fmt (.run (lowest r (r :: s :: rest)) (highest r (r :: s :: rest)))
        (runFile ix.fmt (lowest r (r :: s :: rest)) (highest r (r :: s :: rest))
          (mergeAll (recLt ix.fmt) ((r :: s :: rest).map IRun.recs))) = some m ∧ c.Over m ∧
      m.path = .run (lowest r (r :: s :: rest)) (highest r (r :: s :: rest)) := by
  obtain ⟨hsized, hroom, hrange, hlast⟩ := @open_output ix c.entries r (s :: rest) hactive.subperm c.size
  obtain ⟨-, hlow, hlow'⟩ := lowest_le r (r :: s :: rest)
  obtain ⟨-, hhigh, hhigh'⟩ := le_highest r (r :: s :: rest)
  have hmem : ∀ {x}, x ∈ r :: s :: rest ↔ x ∈ c.runs := hactive.mem_iff
  have hapart := apart_of_subperm hactive.subperm
  obtain ⟨hr, hrest⟩ := List.pairwise_cons.mp hapart
  refine ⟨_, irsOpenRun_runFile _ hsized hrange hlast hroom, ⟨rfl, ?_, ?_, ?_, ?_⟩, rfl⟩
  · intro x hx
    have hx' := hmem.mpr hx
    refine ⟨hlow x hx', hhigh x hx', ?_⟩
    rintro ⟨hfirst, hlast'⟩
    -- another run lies inside the range as well, and does not meet this one
    obtain ⟨y, hy, hxy⟩ : ∃ y ∈ r :: s :: rest, Apart x y := by
      rcases List.mem_cons.mp hx' with rfl | hx'
      · exact ⟨s, by simp, hr s (by simp)⟩
      · exact ⟨r, by simp, (hr x hx').symm⟩
    have hy₁ := hlow y hy
    have hy₂ := hhigh y hy
    have hy₃ := (mem_runs (hmem.mp hy)).1
    simp only at hfirst hlast'
    rcases hxy with h | h <;> omega
  · rcases hlow' with heq | ⟨x, hx, heq⟩
    · exact ⟨r, hmem.mp (by simp), heq⟩
    · exact ⟨x, hmem.mp hx, heq⟩
  · rcases hhigh' with heq | ⟨x, hx, heq⟩
    · exact ⟨r, hmem.mp (by simp), heq⟩
    · exact ⟨x, hmem.mp hx, heq⟩
  · exact (mergeAll_perm (strictWeak_recLt _) _).trans (recordsOf_perm hactive)

theorem Good.of_view {dir dir' : Dir} (h : c.Good dir) (hview : view ix.fmt dir' = view ix.fmt dir) : c.Good dir' := by
  unfold Good
  rw [hview]
  exact h

/-- Without the runs named like the output, what is left are runs of the collection. -/
theorem Good.others {dir : Dir} {m : IRun} (h : c.Good dir) (hm : c.Over m) :
    ((view ix.fmt dir).filter fun r => decide (r.path ≠ m.path)).Subperm c.runs := by
  rcases h with hruns | ⟨m', rest, hm', hperm, hrest⟩
  · exact (List.filter_sublist.subperm).trans hruns.subperm
  · have hsame : m'.path = m.path := by
      rw [hm'.path, hm.path, (hm'.range_eq hm).1, (hm'.range_eq hm).2]
    have hfilter := hperm.filter fun r => decide (r.path ≠ m.path)
    rw [List.filter_cons_of_neg (by simp [hsame])] at hfilter
    exact hfilter.subperm.trans (List.filter_sublist.subperm.trans hrest)

/-- Wherever a merge over a good directory stops, it leaves a good one. -/
theorem Good.crashed {dir listing : Dir} (h : c.Good dir) (hmax : c.runs.length ≤ irsMaxRuns)
    (hlisting : listing.Perm dir) (k : Nat) : c.Good (crashed ix dir listing k) := by
  unfold Runs.crashed mergeOps
  rcases h.refresh hmax hlisting with ⟨hactive, hsup⟩ | ⟨m, hm, hactive, hsup, hmem⟩
  · generalize irsRefresh ix.fmt listing = res at hactive hsup
    obtain ⟨active, sup⟩ := res
    simp only at hactive hsup
    subst hsup
    match active, hactive with
    | [], _ => simpa [unlinks] using h
    | [_], _ => simpa [unlinks] using h
    | r :: s :: rest, hactive =>
        simp only
        split
        case isTrue => simpa using h
        case isFalse =>
          obtain ⟨m, hopen, hm, hpath⟩ := over_output hactive
          have hunlinks : unlinks (r :: s :: rest) ++ unlinks [] = unlinks (r :: s :: rest) := List.append_nil _
          rw [hunlinks]
          rcases view_publish_take ix.fmt dir (lowest r (r :: s :: rest)) (highest r (r :: s :: rest))
            (mergeAll (recLt ix.fmt) ((r :: s :: rest).map IRun.recs)) (r :: s :: rest) k with hsame | ⟨ys, hys, hview⟩
          · exact h.of_view hsame
          · right
            rw [hopen, ← hpath] at hview
            have hkeep : m.path ∉ ys.map IRun.path := by
              intro hin
              obtain ⟨y, hy, heq⟩ := List.mem_map.mp hin
              exact hm.path_ne (hactive.mem_iff.mp (hys.subset hy)) heq
            refine ⟨m, ((view ix.fmt dir).filter fun r => decide (r.path ≠ m.path)).filter
              fun r => decide (r.path ∉ ys.map IRun.path), hm, ?_, List.filter_sublist.subperm.trans (h.others hm)⟩
            rw [hview, List.filter_append, Option.toList_some, List.filter_cons_of_pos (by simpa using hkeep)]
            exact List.perm_append_singleton ..
  · generalize irsRefresh ix.fmt listing = res at hactive hsup
    obtain ⟨active, sup⟩ := res
    simp only at hactive hsup
    subst hactive
    simp only
    rw [take_unlinks]
    right
    rcases h with hruns | ⟨m', rest, hm', hperm, hrest⟩
    · exact absurd (hruns.mem_iff.mp hmem) hm.not_mem
    · have heq : m = m' := by
        rcases List.mem_cons.mp (hperm.mem_iff.mp hmem) with heq | hin
        · exact heq
        · exact absurd (hrest.subset hin) hm.not_mem
      subst heq
      have hkeep : m.path ∉ (sup.take k).map IRun.path := by
        intro hin
        obtain ⟨y, hy, heq⟩ := List.mem_map.mp hin
        exact hm.path_ne (hsup.subset (List.mem_of_mem_take hy)) heq
      have hfilter := hperm.filter fun r => decide (r.path ∉ (sup.take k).map IRun.path)
      rw [List.filter_cons_of_pos (by simpa using hkeep)] at hfilter
      exact ⟨m, _, hm, view_unlinks ix.fmt dir (sup.take k) ▸ hfilter, List.filter_sublist.subperm.trans hrest⟩

theorem crashed_length (ix : Index) (dir listing : Dir) :
    Runs.crashed ix dir listing (mergeOps ix.fmt listing).length = merged ix dir listing := by
  unfold Runs.crashed merged
  rw [List.take_length]

/-! ## Empty runs -/

theorem mem_sift {n i keep : Nat} {found sup : List IRun} {r : IRun} (h : r ∈ (sift n i found keep sup).1) :
    r ∈ found := by
  induction n generalizing i found keep sup with
  | zero => exact List.mem_of_mem_take h
  | succ n ih =>
      unfold sift at h
      split at h
      · exact List.mem_of_mem_take h
      next q hq =>
        split at h
        · exact ih h
        · rcases List.mem_or_eq_of_mem_set (ih h) with hmem | rfl
          · exact hmem
          · exact List.mem_of_getElem? hq

theorem mem_refresh {f : Fmt} {listing : Dir} {r : IRun} (h : r ∈ (irsRefresh f listing).1) : r ∈ view f listing := by
  have hmem := mem_sift h
  rw [List.mem_insertionSort] at hmem
  exact List.mem_of_mem_take hmem

/-- No run of the directory has a record. -/
def Bare (ix : Index) (dir : Dir) : Prop := ∀ r ∈ view ix.fmt dir, r.recs = []

theorem Bare.perm {dir listing : Dir} (h : Bare ix dir) (hlisting : listing.Perm dir) : Bare ix listing :=
  fun r hr => h r ((hlisting.filterMap _).mem_iff.mp hr)

theorem Bare.records {dir : Dir} (h : Bare ix dir) : recordsOf (irsRefresh ix.fmt dir).1 = [] := by
  unfold recordsOf
  rw [List.flatten_eq_nil_iff]
  intro l hl
  obtain ⟨r, hr, rfl⟩ := List.mem_map.mp hl
  exact h r (mem_refresh hr)

theorem Bare.crashed {dir listing : Dir} (h : Bare ix dir) (hlisting : listing.Perm dir) (k : Nat) :
    Bare ix (Runs.crashed ix dir listing k) := by
  have hmem : ∀ r ∈ (irsRefresh ix.fmt listing).1, r ∈ view ix.fmt listing := fun r hr => mem_refresh hr
  have hrecords := (h.perm hlisting).records
  unfold Runs.crashed mergeOps
  generalize irsRefresh ix.fmt listing = res at hmem hrecords
  obtain ⟨active, sup⟩ := res
  have hsup : Bare ix (((unlinks sup).take k).foldl FsOp.apply dir) := by
    intro r hr
    rw [take_unlinks, view_unlinks] at hr
    exact h r (List.mem_of_mem_filter hr)
  match active, hmem, hrecords with
  | [], _, _ => exact hsup
  | [_], _, _ => exact hsup
  | r :: s :: rest, hmem, hrecords =>
      simp only
      split
      case isTrue => simpa using h
      case isFalse =>
        have hnil : mergeAll (recLt ix.fmt) ((r :: s :: rest).map IRun.recs) = [] := by
          have hperm := mergeAll_perm (strictWeak_recLt ix.fmt) ((r :: s :: rest).map IRun.recs)
          rw [show ((r :: s :: rest).map IRun.recs).flatten = [] from hrecords] at hperm
          exact hperm.eq_nil
        have hrange : lowest r (r :: s :: rest) ≤ highest r (r :: s :: rest) ∧
            highest r (r :: s :: rest) < 2 ^ 32 := by
          have hlow := (lowest_le r (r :: s :: rest)).1
          obtain ⟨hhigh, -, hfrom⟩ := le_highest r (r :: s :: rest)
          have hr := recs_of_mem_view (hmem r (by simp))
          refine ⟨by omega, ?_⟩
          rcases hfrom with heq | ⟨x, hx, heq⟩
          · omega
          · have hx' := recs_of_mem_view (hmem x hx)
            omega
        have hopen := @irsOpenRun_runFile ix (lowest r (r :: s :: rest)) (highest r (r :: s :: rest)) []
          (.run (lowest r (r :: s :: rest)) (highest r (r :: s :: rest))) (by simp [Sized]) hrange.1 hrange.2
          (by simp [irsHdr])
        have hxs : unlinks (r :: s :: rest) ++ unlinks sup = unlinks (r :: s :: rest ++ sup) := by simp [unlinks]
        rw [hnil, hxs]
        rcases view_publish_take ix.fmt dir (lowest r (r :: s :: rest)) (highest r (r :: s :: rest)) []
          (r :: s :: rest ++ sup) k with hsame | ⟨ys, -, hview⟩
        · intro x hx
          rw [hsame] at hx
          exact h x hx
        · intro x hx
          rw [hview, hopen] at hx
          rcases List.mem_append.mp (List.mem_of_mem_filter hx) with hx | hx
          · exact h x (List.mem_of_mem_filter hx)
          · obtain rfl : x = _ := by simpa using hx
            rfl

/-! ## When a collection survives -/

theorem scan_subperm {listing : Dir} (hlisting : listing.Perm c.entries) :
    (scan ix.fmt listing).Subperm c.runs :=
  (List.take_sublist irsMaxRuns _).subperm.trans (hlisting.filterMap _).subperm

theorem wellMerged {listing : Dir} (hlisting : listing.Perm c.entries) {r s : IRun} {rest sup : List IRun}
    (hrefresh : irsRefresh ix.fmt listing = (r :: s :: rest, sup)) :
    WellMerged ix (lowest r (r :: s :: rest)) (highest r (r :: s :: rest))
      (mergeAll (recLt ix.fmt) ((r :: s :: rest).map IRun.recs)) := by
  have hsub := scan_subperm hlisting
  have hactive := (refresh_of_subperm hsub).1
  rw [hrefresh] at hactive
  have hruns : (r :: s :: rest).Subperm c.runs := hactive.subperm.trans hsub
  obtain ⟨hsized, hroom, hrange, hlast⟩ := @open_output ix c.entries r (s :: rest) hruns c.size
  refine ⟨_, irsOpenRun_runFile _ hsized hrange hlast hroom, rfl, ?_, sparseNames_runFile _ hsized hroom⟩
  refine ordered_mergeAll (strictWeak_recLt _) fun l hl => ?_
  obtain ⟨q, hq, rfl⟩ := List.mem_map.mp hl
  exact (mem_runs (hruns.subset hq)).2.2

theorem survives_of_few (hmax : c.entries.length ≤ irsMaxRuns) : c.Survives := by
  rw [← length_runs] at hmax
  have hstart : c.Good c.entries := .inl (List.Perm.refl _)
  refine ⟨fun listing hlisting k => ?_, fun listing hlisting r s rest sup => wellMerged hlisting⟩
  have hcrashed := hstart.crashed hmax hlisting k
  refine ⟨fun again hagain => hcrashed.records hmax hagain, fun second hsecond again hagain => ?_⟩
  have hmerged := hcrashed.crashed hmax hsecond (mergeOps ix.fmt second).length
  rw [crashed_length] at hmerged
  exact hmerged.records hmax hagain

theorem survives_of_bare (hbare : ∀ r ∈ c.runs, r.recs = []) : c.Survives := by
  have hstart : Bare ix c.entries := hbare
  have hnil : c.records = [] := by
    unfold Runs.records recordsOf
    rw [List.flatten_eq_nil_iff]
    intro l hl
    obtain ⟨r, hr, rfl⟩ := List.mem_map.mp hl
    exact hbare r hr
  refine ⟨fun listing hlisting k => ?_, fun listing hlisting r s rest sup => wellMerged hlisting⟩
  have hcrashed := hstart.crashed hlisting k
  rw [hnil]
  refine ⟨fun again hagain => ?_, fun second hsecond again hagain => ?_⟩
  · rw [(hcrashed.perm hagain).records]
  · have hmerged := hcrashed.crashed hsecond (mergeOps ix.fmt second).length
    rw [crashed_length] at hmerged
    rw [(hmerged.perm hagain).records]

/-- A run listed after 64 others is not seen. -/
theorem not_survives (hmax : irsMaxRuns < c.entries.length) {r : IRun} (hr : r ∈ c.runs) (hrecs : r.recs ≠ []) :
    ¬ c.Survives := by
  rintro ⟨hcrash, -⟩
  obtain ⟨e, he, hopen⟩ := mem_view.mp (show r ∈ view ix.fmt c.entries from hr)
  obtain ⟨before, after, hentries⟩ := List.append_of_mem he
  have hlisting : (before ++ after ++ [e]).Perm c.entries := by
    rw [hentries]
    exact (List.perm_append_singleton ..).trans List.perm_middle.symm
  have hperm := (hcrash c.entries (List.Perm.refl _) 0).1 _ hlisting
  have hview : view ix.fmt (before ++ after ++ [e]) = view ix.fmt (before ++ after) ++ [r] := by
    rw [view_append]
    simp [view, hopen]
  have hruns : (view ix.fmt (before ++ after) ++ [r]).Perm c.runs := hview ▸ hlisting.filterMap _
  have hlong : irsMaxRuns ≤ (view ix.fmt (before ++ after)).length := by
    have hlen := hruns.length_eq
    rw [length_runs, List.length_append, List.length_singleton] at hlen
    omega
  have hscan : scan ix.fmt (before ++ after ++ [e]) = (view ix.fmt (before ++ after)).take irsMaxRuns := by
    rw [scan, ← view, hview, List.take_append_of_le_length hlong]
  have hactive := recordsOf_perm (refresh_of_subperm (scan_subperm hlisting)).1
  have hlen := (hactive.symm.trans hperm).length_eq
  rw [hscan] at hlen
  have hle := length_recordsOf_le (List.take_sublist irsMaxRuns (view ix.fmt (before ++ after))).subperm
  have htotal := (recordsOf_perm hruns).length_eq
  simp only [recordsOf, List.map_append, List.flatten_append, List.length_append, List.map_cons, List.map_nil,
    List.flatten_cons, List.flatten_nil, List.append_nil] at htotal hle hlen
  have hpos := List.length_pos_iff.mpr hrecs
  unfold Runs.records recordsOf at hlen
  omega

/-- Merges are safe for up to 64 runs, and beyond that only where there is nothing to lose. -/
theorem survives_iff (c : Runs ix) :
    c.Survives ↔ c.entries.length ≤ irsMaxRuns ∨ ∀ r ∈ c.runs, r.recs = [] := by
  constructor
  · intro hsurvives
    by_contra hnot
    simp only [not_or, not_le, not_forall] at hnot
    obtain ⟨hmax, r, hr, hrecs⟩ := hnot
    exact not_survives hmax hr hrecs hsurvives
  · rintro (hmax | hbare)
    · exact survives_of_few hmax
    · exact survives_of_bare hbare

/-! ## A run too many -/

def oneRecord : List (List UInt8) := [List.replicate 20 0]

def heightRun (h : Nat) : IRun := ⟨.run h h, 1, 68, 1, h, h, oneRecord⟩

def heightEntry (h : Nat) : Name × List UInt8 := (.run h h, runFile Index.txindex.fmt h h oneRecord)

theorem open_heightEntry {h : Nat} (hh : h < 2 ^ 32) :
    openEntry Index.txindex.fmt (heightEntry h) = some (heightRun h) := by
  have hopen := @irsOpenRun_runFile .txindex h h oneRecord (.run h h) (by simp [Sized, oneRecord, Index.fmt])
    le_rfl hh (by decide)
  unfold openEntry
  rw [if_pos (by rfl)]
  exact hopen

/-- A run for each of `n` heights. -/
def heights (n : Nat) : Dir := (List.range n).map heightEntry

theorem view_heights {n : Nat} (hn : n ≤ 65) :
    view Index.txindex.fmt (heights n) = (List.range n).map heightRun := by
  induction n with
  | zero => rfl
  | succ n ih =>
      have hlast : openEntry Index.txindex.fmt (heightEntry n) = some (heightRun n) := open_heightEntry (by omega)
      rw [heights, List.range_succ, List.map_append, view_append, ← heights, ih (by omega), List.map_append]
      simp only [view, List.map_cons, List.map_nil, List.filterMap_cons, hlast, List.filterMap_nil]

theorem length_runFile_oneRecord (h : Nat) : (runFile Index.txindex.fmt h h oneRecord).length = 84 := by
  rw [runFile, List.length_append, length_runHeader]
  rfl

def sixtyFive : Runs .txindex where
  entries := heights 65
  opens := by
    intro e he
    obtain ⟨h, hh, rfl⟩ := List.mem_map.mp he
    have hlt := List.mem_range.mp hh
    exact ⟨_, open_heightEntry (by omega), .inr rfl, List.pairwise_singleton ..⟩
  names := by
    unfold heights
    rw [List.map_map]
    refine (List.nodup_range).map_on fun a _ b _ hab => ?_
    exact (Name.run.inj hab).1
  apart := by
    have hview := @view_heights 65 le_rfl
    unfold view at hview
    rw [hview, List.pairwise_map]
    exact List.pairwise_lt_range.imp fun hab => .inl hab
  size := by
    unfold heights
    rw [List.map_map]
    simp only [Function.comp_def, heightEntry, length_runFile_oneRecord]
    simp

theorem sixtyFive_lost : ¬ ∀ (ix : Index) (c : Runs ix), c.Survives := by
  intro hall
  have hview := @view_heights 65 le_rfl
  have hmem : heightRun 0 ∈ sixtyFive.runs := by
    change _ ∈ view Index.txindex.fmt (heights 65)
    rw [hview]
    exact List.mem_map.mpr ⟨0, by simp, rfl⟩
  have hlen : irsMaxRuns < sixtyFive.entries.length := by
    change irsMaxRuns < (heights 65).length
    simp [heights, irsMaxRuns]
  exact not_survives hlen hmem (by simp [heightRun, oneRecord]) (hall .txindex sixtyFive)

end Runs

end BitcoinMachineCode.Storage.IndexRuns
