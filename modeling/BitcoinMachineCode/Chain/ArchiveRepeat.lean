import BitcoinMachineCode.Chain.ArchiveRebuild

/-!
# A second reindexing

The first reindexing may put a copy of the tip's frame behind whatever the highest file ends in.
Whether a second one finds the same depends on how the scan gets over the bytes before that
copy: what was left of a frame cut short can be a whole frame now that more bytes follow.
-/

namespace BitcoinMachineCode.Chain.Reindex

open Foundation Consensus

variable {magic : UInt32} {file : List UInt8} {p q : Nat}

/-! ## Going over a file -/

/-- From place to place in a file: behind a frame where one begins, a byte on elsewhere. -/
inductive Comes (magic : UInt32) (file : List UInt8) : Nat → Nat → Prop
  | here {p : Nat} : Comes magic file p p
  | frame {p q : Nat} : FrameAt magic file p → Comes magic file (p + 8 + rd32 file p) q →
      Comes magic file p q
  | slide {p q : Nat} : ¬ FrameAt magic file p → Comes magic file (p + 1) q → Comes magic file p q

theorem Comes.le (h : Comes magic file p q) : p ≤ q := by
  induction h with
  | here => exact Nat.le_refl _
  | frame _ _ ih => omega
  | slide _ _ ih => omega

theorem Comes.trans {r : Nat} (h : Comes magic file p q) (hr : Comes magic file q r) :
    Comes magic file p r := by
  induction h with
  | here => exact hr
  | frame hframe _ ih => exact .frame hframe (ih hr)
  | slide hno _ ih => exact .slide hno (ih hr)

/-- There is one way over a file. -/
theorem Comes.rest {r : Nat} (h : Comes magic file p q) (hr : Comes magic file p r) (hle : q ≤ r) :
    Comes magic file q r := by
  induction h with
  | here => exact hr
  | frame hframe hrest ih =>
      cases hr with
      | here =>
          have := hrest.le
          omega
      | frame _ hr => exact ih hr hle
      | slide hno _ => exact absurd hframe hno
  | slide hno hrest ih =>
      cases hr with
      | here =>
          have := hrest.le
          omega
      | frame hframe _ => exact absurd hframe hno
      | slide _ hr => exact ih hr hle

theorem comes_of_clear (hq : p ≤ q) (h : ∀ i, p ≤ i → i < q → ¬ FrameAt magic file i) :
    Comes magic file p q := by
  induction hn : q - p generalizing p with
  | zero =>
      obtain rfl : p = q := by omega
      exact .here
  | succ n ih =>
      refine .slide (h p (Nat.le_refl _) (by omega)) (ih (by omega) (fun i hi => h i (by omega)) ?_)
      omega

/-- The scan comes to every frame it finds. -/
theorem comes_of_mem_scanAt {x : Nat × Nat} (h : x ∈ scanAt magic file p) :
    Comes magic file p x.1 := by
  induction hn : file.length - p using Nat.strong_induction_on generalizing p with
  | _ n ih =>
      subst hn
      by_cases hroom : p + 88 ≤ file.length
      · by_cases hframe : FrameAt magic file p
        · rw [scanAt_frame hframe] at h
          rcases List.mem_cons.mp h with rfl | h
          · exact .here
          · exact .frame hframe (ih _ (by omega) h rfl)
        · obtain ⟨hpast, hclear⟩ := resync_spec hroom hframe
          rw [scanAt_resync hroom hframe] at h
          exact (comes_of_clear (Nat.le_of_lt hpast) hclear).trans (ih _ (by omega) h rfl)
      · rw [scanAt_end (by omega)] at h
        cases h

/-! ## Bytes before and behind -/

theorem rd32_append_left {more : List UInt8} (h : p + 4 ≤ file.length) :
    rd32 (file ++ more) p = rd32 file p := by
  rw [rd32, pread_append_left more h]
  rfl

/-- A frame that ends within the file is one whatever follows. -/
theorem frameAt_append_left {more : List UInt8} (h : p + 8 + rd32 (file ++ more) p ≤ file.length) :
    FrameAt magic (file ++ more) p ↔ FrameAt magic file p := by
  have hrd : rd32 (file ++ more) p = rd32 file p := rd32_append_left (by omega)
  have hmagic : OccursAt (magicBytes magic) (file ++ more) (p + 4) ↔
      OccursAt (magicBytes magic) file (p + 4) := by
    unfold OccursAt
    rw [length_magicBytes, pread_append_left more (by omega)]
  rw [hrd] at h
  constructor
  · rintro ⟨hocc, hleast, hmost, -⟩
    rw [hrd] at hleast hmost
    exact ⟨hmagic.mp hocc, hleast, hmost, h⟩
  · rintro ⟨hocc, hleast, hmost, -⟩
    rw [← hrd] at hleast hmost
    refine ⟨hmagic.mpr hocc, hleast, hmost, ?_⟩
    rw [hrd, List.length_append]
    omega

theorem FrameAt.append {more : List UInt8} (h : FrameAt magic file p) :
    FrameAt magic (file ++ more) p := by
  have hfits := h.fits
  refine (frameAt_append_left ?_).mpr h
  rw [rd32_append_left (by omega)]
  exact hfits

theorem rd32_append_right (front rest : List UInt8) (p : Nat) :
    rd32 (front ++ rest) (front.length + p) = rd32 rest p := by
  rw [rd32, pread_append_right]
  rfl

theorem frameAt_append_right (front rest : List UInt8) (p : Nat) :
    FrameAt magic (front ++ rest) (front.length + p) ↔ FrameAt magic rest p := by
  have hrd := rd32_append_right front rest p
  have hmagic : OccursAt (magicBytes magic) (front ++ rest) (front.length + p + 4) ↔
      OccursAt (magicBytes magic) rest (p + 4) := by
    rw [Nat.add_assoc]
    exact occursAt_append_right ..
  constructor
  · rintro ⟨hocc, hleast, hmost, hfits⟩
    rw [hrd] at hleast hmost hfits
    rw [List.length_append] at hfits
    exact ⟨hmagic.mp hocc, hleast, hmost, by omega⟩
  · rintro ⟨hocc, hleast, hmost, hfits⟩
    rw [← hrd] at hleast hmost hfits
    refine ⟨hmagic.mpr hocc, hleast, hmost, ?_⟩
    rw [List.length_append]
    omega

theorem comes_append_right (front rest : List UInt8) :
    Comes magic (front ++ rest) (front.length + p) (front.length + q) ↔ Comes magic rest p q := by
  constructor
  · intro h
    generalize hp : front.length + p = p' at h
    generalize hq : front.length + q = q' at h
    induction h generalizing p with
    | here =>
        obtain rfl : p = q := by omega
        exact .here
    | frame hframe hrest ih =>
        subst hp
        rw [rd32_append_right] at ih
        exact .frame ((frameAt_append_right ..).mp hframe) (ih (by omega) hq)
    | slide hno hrest ih =>
        subst hp
        exact .slide (mt (frameAt_append_right ..).mpr hno) (ih (by omega) hq)
  · intro h
    induction h with
    | here => exact .here
    | frame hframe hrest ih =>
        refine .frame ((frameAt_append_right ..).mpr hframe) ?_
        rw [rd32_append_right]
        convert ih using 1
        omega
    | slide hno hrest ih =>
        exact .slide (mt (frameAt_append_right ..).mp hno) ih

/-- Where the end of the shorter file is come to, the longer one has the same frames up to it. -/
theorem Comes.scanAt_append {more : List UInt8}
    (h : Comes magic (file ++ more) p file.length) :
    scanAt magic (file ++ more) p =
      scanAt magic file p ++ scanAt magic (file ++ more) file.length := by
  generalize hq : file.length = q at h
  induction h with
  | @here p =>
      have hend : scanAt magic file p = [] := scanAt_end (by omega)
      rw [hend, List.nil_append]
  | @frame p q hframe hrest ih =>
      have hend := hrest.le
      have hframe' := (frameAt_append_left (by omega)).mp hframe
      have hrd : rd32 (file ++ more) p = rd32 file p := rd32_append_left (by omega)
      rw [scanAt_frame hframe, ih hq, scanAt_frame hframe', hrd]
      rfl
  | @slide p q hno hrest ih =>
      have hno' : ¬ FrameAt magic file p := fun hframe => hno hframe.append
      have hslide : ∀ {bytes : List UInt8}, ¬ FrameAt magic bytes p →
          scanAt magic bytes p = scanAt magic bytes (p + 1) := fun hnone =>
        scanAt_slide (Nat.le_succ p) fun i hi hlt => by
          obtain rfl : i = p := by omega
          exact hnone
      rw [hslide hno, hslide hno', ih hq]

/-! ## The entries of the second scan -/

variable {dir : Dir} {genesis : List UInt8} {maxFile : Nat}

theorem rxEnt_move {fno pos size fno' pos' : Nat} {header : List UInt8} {x : RxEnt}
    (h : rxEnt fno pos size header = some x) :
    rxEnt fno' pos' size header = some { x with file := fno', pos := pos' } := by
  unfold rxEnt at h ⊢
  dsimp only at h ⊢
  split at h
  · next hpow =>
      obtain rfl := Option.some.inj h
      rw [if_pos hpow]
  · cases h

/-- One file goes on in another. -/
theorem blkFilesFrom_update {k fno missing : Nat} {more : List UInt8}
    (hmax : (dir maxFile).isSome) :
    blkFilesFrom (Function.update dir maxFile (some more)) k fno missing =
      (blkFilesFrom dir k fno missing).map fun f => if f.1 = maxFile then (f.1, more) else f := by
  induction k generalizing fno missing with
  | zero => rfl
  | succ k ih =>
      rw [blkFilesFrom, blkFilesFrom]
      by_cases hfno : fno = maxFile
      · subst hfno
        obtain ⟨file, hfile⟩ := Option.isSome_iff_exists.mp hmax
        rw [Function.update_self, hfile]
        dsimp only
        rw [List.map_cons, if_pos rfl, ih]
      · rw [Function.update_of_ne hfno]
        cases dir fno with
        | none =>
            dsimp only
            split
            · rfl
            · exact ih
        | some file =>
            dsimp only
            rw [List.map_cons, if_neg hfno, ih]

theorem blkFilesFrom_sorted {k fno missing : Nat} :
    (∀ f ∈ blkFilesFrom dir k fno missing, fno ≤ f.1) ∧
      (blkFilesFrom dir k fno missing).Pairwise fun a b => a.1 < b.1 := by
  induction k generalizing fno missing with
  | zero => exact ⟨List.forall_mem_nil _, .nil⟩
  | succ k ih =>
      rw [blkFilesFrom]
      split
      · split
        · exact ⟨List.forall_mem_nil _, .nil⟩
        · obtain ⟨hle, hsorted⟩ := @ih (fno + 1) (missing + 1)
          exact ⟨fun f hf => Nat.le_of_succ_le (hle f hf), hsorted⟩
      · obtain ⟨hle, hsorted⟩ := @ih (fno + 1) 0
        refine ⟨fun f hf => ?_, List.pairwise_cons.mpr ⟨hle, hsorted⟩⟩
        rcases List.mem_cons.mp hf with rfl | hf
        · exact Nat.le_refl _
        · exact Nat.le_of_succ_le (hle f hf)

/-- The files of the second scan: the highest one has grown. -/
theorem blkFiles_update {more : List UInt8}
    (hlast : (blkFiles dir).getLast? = some (maxFile, file)) :
    ∃ before, blkFiles dir = before ++ [(maxFile, file)] ∧
      blkFiles (Function.update dir maxFile (some more)) = before ++ [(maxFile, more)] := by
  obtain ⟨before, hsplit⟩ := List.getLast?_eq_some_iff.mp hlast
  have hmax : dir maxFile = some file := mem_blkFilesFrom (List.mem_of_getLast? hlast)
  refine ⟨before, hsplit, ?_⟩
  have hsorted := (@blkFilesFrom_sorted dir 65536 0 0).2
  rw [← blkFiles, hsplit] at hsorted
  have hbelow := (List.pairwise_append.mp hsorted).2.2
  unfold blkFiles
  rw [blkFilesFrom_update (by rw [hmax]; rfl), ← blkFiles, hsplit, List.map_append]
  congr 1
  · refine (List.map_congr_left fun f hf => if_neg ?_).trans (List.map_id' before)
    exact Nat.ne_of_lt (hbelow f hf _ (List.mem_singleton_self _))
  · rw [List.map_singleton, if_pos rfl]

/-- The second scan finds the copy of the tip and nothing else that is new. -/
theorem scanDir_update {more : List UInt8} {t : RxEnt}
    (hlast : (blkFiles dir).getLast? = some (maxFile, file))
    (hcomes : Comes magic (file ++ more) 0 file.length)
    (hframe : FrameAt magic more 0) (hend : 8 + rd32 more 0 = more.length)
    (hent : rxEnt maxFile file.length (rd32 more 0) (pread more 8 80) = some t) :
    scanDir magic (Function.update dir maxFile (some (file ++ more))) =
      scanDir magic dir ++ [t] := by
  obtain ⟨before, hbefore, hafter⟩ := @blkFiles_update _ _ _ (file ++ more) hlast
  have hframe' := (frameAt_append_right file more 0).mpr hframe
  have hrd := rd32_append_right file more 0
  have hone : scanAt magic (file ++ more) file.length = [(file.length, rd32 more 0)] := by
    rw [Nat.add_zero] at hframe' hrd
    rw [scanAt_frame hframe', hrd, scanAt_end]
    rw [List.length_append]
    omega
  have hscan : scanFile magic (file ++ more) =
      scanFile magic file ++ [(file.length, rd32 more 0)] := by
    rw [scanFile, hcomes.scanAt_append, hone]
    rfl
  have hents : fileEnts magic (maxFile, file ++ more) = fileEnts magic (maxFile, file) ++ [t] := by
    unfold fileEnts
    dsimp only
    rw [hscan, List.filterMap_append]
    refine congrArg₂ (· ++ ·) ?_ ?_
    · refine List.filterMap_congr fun x hx => ?_
      obtain ⟨hx, -⟩ := mem_scanFrom hx
      have hfits := hx.fits
      have hleast := hx.least
      rw [pread_append_left more (by omega)]
    · have hheader : pread (file ++ more) (file.length + 8) 80 = pread more 8 80 :=
        pread_append_right ..
      rw [List.filterMap_cons_some (by dsimp only; rw [hheader]; exact hent)]
      rfl
  unfold scanDir
  rw [hbefore, hafter, List.flatMap_append, List.flatMap_append, List.flatMap_singleton,
    List.flatMap_singleton, hents, List.append_assoc]

/-! ## The blocks of the second run -/

/-- The same blocks, perhaps at other places. -/
structure SameBlocks (e e' : List RxEnt) : Prop where
  hash_eq : e'.map RxEnt.hash = e.map RxEnt.hash
  prev_eq : e'.map RxEnt.prev = e.map RxEnt.prev
  bits_eq : e'.map RxEnt.bits = e.map RxEnt.bits

variable {e e' : List RxEnt}

theorem sameBlocks_set {i : Nat} {t t' : RxEnt} (ht : e[i]? = some t) (hhash : t'.hash = t.hash)
    (hprev : t'.prev = t.prev) (hbits : t'.bits = t.bits) : SameBlocks e (e.set i t') :=
  ⟨map_set_eq _ ht hhash, map_set_eq _ ht hprev, map_set_eq _ ht hbits⟩

theorem SameBlocks.findIdx_eq (h : SameBlocks e e') (k : List UInt8) :
    e'.findIdx? (fun y => decide (y.hash = k)) = e.findIdx? fun y => decide (y.hash = k) := by
  have hmap : ∀ l : List RxEnt, (l.map RxEnt.hash).findIdx? (fun y => decide (y = k)) =
      l.findIdx? fun y => decide (y.hash = k) := fun l => List.findIdx?_map ..
  rw [← hmap, ← hmap, h.hash_eq]

theorem SameBlocks.parentIn_eq (h : SameBlocks e e') (g : Nat) : parentIn e' g = parentIn e g := by
  funext i
  have hprev : (e'[i]?).map RxEnt.prev = (e[i]?).map RxEnt.prev := by
    rw [← List.getElem?_map, ← List.getElem?_map, h.prev_eq]
  have hbind : ∀ l : List RxEnt,
      ((l[i]?).bind fun x => e.findIdx? fun y => decide (y.hash = x.prev)) =
        ((l[i]?).map RxEnt.prev).bind fun k => e.findIdx? fun y => decide (y.hash = k) := by
    intro l
    cases l[i]? <;> rfl
  unfold parentIn
  simp only [h.findIdx_eq]
  rw [hbind e', hbind e, hprev]

theorem SameBlocks.walkTree_eq (h : SameBlocks e e') (g : Nat) :
    walkTree (parentIn e' g) e' g = walkTree (parentIn e g) e g := by
  have hlen : e'.length = e.length := by simpa using congrArg List.length h.hash_eq
  have hwork : entWork e' = entWork e := by
    funext i
    have hbits : (e'[i]?).map RxEnt.bits = (e[i]?).map RxEnt.bits := by
      rw [← List.getElem?_map, ← List.getElem?_map, h.bits_eq]
    have hmap : ∀ l : List RxEnt, entWork l i = (((l[i]?).map RxEnt.bits).map blockWork).getD 0 :=
      fun l => by rw [Option.map_map]; rfl
    rw [hmap, hmap, hbits]
  unfold walkTree
  rw [hlen, hwork, h.parentIn_eq]

/-- What a successful rebuilding went through. -/
structure Rebuilt (dir : Dir) (maxFile : Nat) (e : List RxEnt) (genesis : List UInt8)
    (r : Reindexed) (g : Nat) (w : Walk (BitVec 128)) (t t' : RxEnt) : Prop where
  root : e.findIdx? (fun y => decide (y.hash = genesis)) = some g
  walked : walkTree (parentIn e g) e g = some w
  best : e[w.best]? = some t
  tip : appendTip dir maxFile t = (r.dir, t', r.tipReappended)
  files : r = writeFiles r.dir (e.set w.best t') (parentIn e g) w r.tipReappended

theorem exists_rebuilt {r : Reindexed} (h : rebuildOf dir maxFile e genesis = some r) :
    ∃ g w t t', Rebuilt dir maxFile e genesis r g w t t' := by
  unfold rebuildOf at h
  split at h
  · cases h
  next g hg =>
  unfold finish at h
  split at h
  · cases h
  next w hw =>
  split at h
  · cases h
  next t ht =>
  generalize happend : appendTip dir maxFile t = out at h
  obtain ⟨dir', t', reappended⟩ := out
  obtain rfl := Option.some.inj h
  exact ⟨g, w, t, t', hg, hw, ht, happend, rfl⟩

theorem appendTip_of_last {t : RxEnt} (hmax : dir maxFile = some file) (hfile : t.file = maxFile)
    (hend : t.pos + 8 + t.size = file.length) : appendTip dir maxFile t = (dir, t, false) := by
  unfold appendTip
  rw [hmax]
  exact if_pos ⟨hfile, hend⟩

/-- With the tip's entry at the copy the files come out the same and nothing is appended. -/
theorem Rebuilt.again {r : Reindexed} {g : Nat} {w : Walk (BitVec 128)} {t t' : RxEnt}
    (h : Rebuilt dir maxFile e genesis r g w t t') (htip : TipLast dir r.dir maxFile t t') :
    rebuildOf r.dir maxFile (e.set w.best t') genesis =
      some { r with tipReappended := false } := by
  obtain ⟨hhash, hprev, hbits, -⟩ := htip.same
  have hsame := sameBlocks_set h.best hhash hprev hbits
  have hbest : (e.set w.best t')[w.best]? = some t' :=
    List.getElem?_set_self (List.getElem?_eq_some_iff.mp h.best).1
  obtain ⟨file', hstands, hend, -⟩ := htip.stands
  have hfile' := hstands.file_eq
  rw [htip.file_eq] at hfile'
  have hkeep := appendTip_of_last hfile' htip.file_eq hend
  unfold rebuildOf
  rw [hsame.findIdx_eq, h.root]
  dsimp only
  unfold finish
  rw [hsame.walkTree_eq, h.walked]
  dsimp only
  rw [hbest]
  dsimp only
  rw [hkeep, hsame.parentIn_eq, List.set_set]
  have hfiles := h.files
  generalize r.tipReappended = reappended at hfiles
  rw [hfiles]
  rfl

/-! ## Both runs -/

theorem archiveReindex_eq_some {r : Reindexed}
    (hlast : (blkFiles dir).getLast? = some (maxFile, file))
    (h : archiveReindex magic genesis dir = some r) :
    ∃ g w t t', Rebuilt dir maxFile (copies (scanDir magic dir)) genesis r g w t t' := by
  have hne : scanDir magic dir ≠ [] := by
    intro hnil
    unfold archiveReindex at h
    rw [hlast, hnil] at h
    cases h
  rw [archiveReindex_eq hlast hne] at h
  exact exists_rebuilt h

theorem Rebuilt.best_mem {r : Reindexed} {g : Nat} {w : Walk (BitVec 128)} {t t' : RxEnt}
    (h : Rebuilt dir maxFile (copies e) genesis r g w t t') : t ∈ e :=
  (((copies_spec e).2 t).mp (List.mem_of_getElem? h.best)).mem

/-- A frame by itself. -/
theorem FrameAt.cut (h : FrameAt magic file p) :
    FrameAt magic (pread file p (rd32 file p + 8)) 0 ∧
      rd32 (pread file p (rd32 file p + 8)) 0 = rd32 file p ∧
      (pread file p (rd32 file p + 8)).length = rd32 file p + 8 := by
  have hfits := h.fits
  have hrd : rd32 (pread file p (rd32 file p + 8)) 0 = rd32 file p := by
    rw [rd32, pread_pread (by omega)]
    rfl
  have hlen : (pread file p (rd32 file p + 8)).length = rd32 file p + 8 := by
    rw [length_pread]
    omega
  refine ⟨⟨?_, by rw [hrd]; exact h.least, by rw [hrd]; exact h.most, ?_⟩, hrd, hlen⟩
  · rw [occursAt_pread (by rw [length_magicBytes]; omega)]
    exact h.magicAt
  · rw [hrd, hlen]
    omega

/-- The second run finds the chain of the first, writes the same records and appends nothing. -/
def Repeats (magic : UInt32) (genesis : List UInt8) (r : Reindexed) : Prop :=
  ∃ r', archiveReindex magic genesis r.dir = some r' ∧ r'.tip = r.tip ∧ r'.index = r.index ∧
    r'.headers = r.headers ∧ r'.chainwork = r.chainwork ∧ r'.dir = r.dir ∧
    r'.tipReappended = false

theorem keepLast_of_best (hnodup : (e.map RxEnt.hash).Nodup) {i : Nat} {t t' : RxEnt}
    (ht : e[i]? = some t) (hhash : t'.hash = t.hash) : keepLast e t' = e.set i t' := by
  rw [keepLast, findIdx?_hash hnodup ht hhash.symm]

theorem repeats_of_comes {r : Reindexed} {file' : List UInt8}
    (hlast : (blkFiles dir).getLast? = some (maxFile, file))
    (hr : archiveReindex magic genesis dir = some r) (hfile' : r.dir maxFile = some file')
    (hcomes : Comes magic file' 0 file.length) : Repeats magic genesis r := by
  obtain ⟨g, w, t, t', hrebuilt⟩ := archiveReindex_eq_some hlast hr
  have hmax : dir maxFile = some file := mem_blkFilesFrom (List.mem_of_getLast? hlast)
  obtain ⟨tfile, htfile, -, hframe, hsize, hent⟩ := exists_frame hrebuilt.best_mem
  obtain ⟨tfile', hstands⟩ := mem_scanDir hrebuilt.best_mem
  have htip := appendTip_spec hmax hstands
  have happend := hrebuilt.tip
  rw [happend] at htip
  unfold appendTip at happend
  rw [hmax, htfile, Option.getD_some, Option.getD_some] at happend
  dsimp only at happend
  split at happend
  · obtain ⟨hdir, -, hflag⟩ := Prod.mk.inj happend |>.imp id Prod.mk.inj
    exact ⟨r, by rw [← hdir]; exact hr, rfl, rfl, rfl, rfl, rfl, hflag.symm⟩
  · obtain ⟨hdir, ht', hflag⟩ := Prod.mk.inj happend |>.imp id Prod.mk.inj
    rw [hsize] at hdir
    obtain ⟨hcut, hrd, hlen⟩ := hframe.cut
    have hleast := hframe.least
    have hheader : pread (pread tfile t.pos (rd32 tfile t.pos + 8)) 8 80 =
        pread tfile (t.pos + 8) 80 := pread_pread (by omega)
    generalize pread tfile t.pos (rd32 tfile t.pos + 8) = more at *
    have hgrown : file' = file ++ more := by
      rw [← hdir, Function.update_self] at hfile'
      exact (Option.some.inj hfile').symm
    subst hgrown
    have hmoved : rxEnt maxFile file.length (rd32 more 0) (pread more 8 80) = some t' := by
      rw [hrd, ← hsize, hheader, ← ht']
      exact rxEnt_move hent
    have hscan := scanDir_update hlast hcomes hcut (by omega) hmoved
    obtain ⟨before, -, hafter⟩ := @blkFiles_update _ _ _ (file ++ more) hlast
    rw [hdir] at hscan hafter
    have hlast' : (blkFiles r.dir).getLast? = some (maxFile, file ++ more) := by
      rw [hafter, List.getLast?_concat]
    refine ⟨{ r with tipReappended := false }, ?_, rfl, rfl, rfl, rfl, rfl, rfl⟩
    rw [archiveReindex_eq hlast' (by rw [hscan]; simp), hscan, copies_concat,
      keepLast_of_best (copies_spec _).1 hrebuilt.best htip.same.1]
    exact hrebuilt.again htip

theorem last_of_index_eq {chain chain' : List RxEnt} {x y : RxEnt} (hx : x.hash.length = 32)
    (hy : y.hash.length = 32)
    (h : (chain ++ [x]).flatMap indexRecord = (chain' ++ [y]).flatMap indexRecord) :
    indexRecord x = indexRecord y := by
  rw [List.flatMap_append, List.flatMap_append, List.flatMap_singleton, List.flatMap_singleton] at h
  exact (List.append_inj' h (by rw [length_indexRecord hx, length_indexRecord hy])).2

theorem size_eq_of_indexRecord {x y : RxEnt} (h : indexRecord x = indexRecord y)
    (hx : x.size ≤ rxMaxFrame) (hy : y.size ≤ rxMaxFrame) : x.size = y.size := by
  have hbytes := (List.append_inj' h (by simp)).2
  have hval := congrArg leVal hbytes
  have hmax : rxMaxFrame = 8388608 := rfl
  rw [leVal_leBytes, leVal_leBytes, Nat.mod_eq_of_lt (by omega), Nat.mod_eq_of_lt (by omega)] at hval
  exact hval

/-- The chain and the tip of a run that succeeded. -/
theorem exists_best {r : Reindexed} (hlast : (blkFiles dir).getLast? = some (maxFile, file))
    (hr : archiveReindex magic genesis dir = some r) :
    ∃ front tip tip', Best dir maxFile (LastCopy (scanDir magic dir)) genesis r front tip tip' ∧
      tip ∈ scanDir magic dir ∧ TipLast dir r.dir maxFile tip tip' := by
  obtain ⟨g, w, t, t', hrebuilt⟩ := archiveReindex_eq_some hlast hr
  obtain ⟨hg, hkey, -⟩ := List.findIdx?_eq_some_iff_getElem.mp hrebuilt.root
  have hgenesis : ∃ x ∈ scanDir magic dir, x.hash = genesis :=
    ⟨_, (((copies_spec _).2 _).mp (List.getElem_mem hg)).mem, by simpa using hkey⟩
  obtain ⟨r', front, tip, tip', hr', hbest⟩ := archiveReindex_best hgenesis hlast
  obtain rfl := Option.some.inj (hr.symm.trans hr')
  have hmem := (hbest.chain.stored_of_mem tip (by simp)).mem
  obtain ⟨tfile, hstands⟩ := mem_scanDir hmem
  have hmax : dir maxFile = some file := mem_blkFilesFrom (List.mem_of_getLast? hlast)
  have htip := appendTip_spec hmax hstands
  rw [hbest.tip_eq] at htip
  exact ⟨front, tip, tip', hbest, hmem, htip⟩

/-- A tip that was not put last stands last, and the scan comes to its end. -/
theorem comes_end_of_kept {dir' : Dir} {t t' : RxEnt} (hmax : dir maxFile = some file)
    (ht : t ∈ scanDir magic dir) (h : appendTip dir maxFile t = (dir', t', false)) :
    dir' = dir ∧ t' = t ∧ t.pos + 8 + t.size = file.length ∧
      Comes magic file 0 t.pos ∧ Comes magic file t.pos file.length := by
  obtain ⟨tfile, htfile, hscan, hframe, hsize, -⟩ := exists_frame ht
  unfold appendTip at h
  rw [hmax, Option.getD_some] at h
  dsimp only at h
  split at h
  · next hend =>
      obtain ⟨hfile, hpos⟩ := hend
      obtain ⟨hdir, ht', -⟩ := Prod.mk.inj h |>.imp id Prod.mk.inj
      rw [hfile, hmax] at htfile
      obtain rfl := Option.some.inj htfile
      refine ⟨hdir.symm, ht'.symm, hpos, comes_of_mem_scanAt hscan, .frame hframe ?_⟩
      rw [← hsize, hpos]
      exact .here
  · cases (Prod.mk.inj (Prod.mk.inj h).2).2

theorem appendTip_moved {dir' : Dir} {t t' : RxEnt} (hmax : dir maxFile = some file)
    (h : appendTip dir maxFile t = (dir', t', true)) :
    ∃ more, dir' = Function.update dir maxFile (some (file ++ more)) ∧ t'.pos = file.length := by
  unfold appendTip at h
  rw [hmax, Option.getD_some] at h
  dsimp only at h
  split at h
  · cases (Prod.mk.inj (Prod.mk.inj h).2).2
  · obtain ⟨hdir, ht', -⟩ := Prod.mk.inj h |>.imp id Prod.mk.inj
    exact ⟨_, hdir.symm, by rw [← ht']⟩

theorem size_le_of_mem {x : RxEnt} (h : x ∈ scanDir magic dir) : x.size ≤ rxMaxFrame := by
  obtain ⟨file, -, -, hframe, hsize, -⟩ := exists_frame h
  rw [hsize]
  exact hframe.most

theorem comes_of_repeats {r : Reindexed} {file' : List UInt8}
    (hlast : (blkFiles dir).getLast? = some (maxFile, file))
    (hr : archiveReindex magic genesis dir = some r) (hfile' : r.dir maxFile = some file')
    (h : Repeats magic genesis r) : Comes magic file' 0 file.length := by
  obtain ⟨front, tip, tip', hbest, hmem, htip⟩ := exists_best hlast hr
  have hmax : dir maxFile = some file := mem_blkFilesFrom (List.mem_of_getLast? hlast)
  have htipeq := hbest.tip_eq
  cases hflag : r.tipReappended with
  | false =>
      rw [hflag] at htipeq
      obtain ⟨hdir, -, -, hto, hfrom⟩ := comes_end_of_kept hmax hmem htipeq
      rw [hdir, hmax] at hfile'
      obtain rfl := Option.some.inj hfile'
      exact hto.trans hfrom
  | true =>
      rw [hflag] at htipeq
      obtain ⟨more, hdir, hpos⟩ := appendTip_moved hmax htipeq
      obtain ⟨before, -, hafter⟩ := @blkFiles_update _ _ _ (file ++ more) hlast
      rw [hdir, Function.update_self] at hfile'
      obtain rfl := Option.some.inj hfile'
      rw [← hdir] at hafter
      have hlast' : (blkFiles r.dir).getLast? = some (maxFile, file ++ more) := by
        rw [hafter, List.getLast?_concat]
      have hmax' : r.dir maxFile = some (file ++ more) := by rw [hdir, Function.update_self]
      -- the second tip stands last in the grown file, and it has the size of the first
      obtain ⟨r', hr', -, hindex, -, -, -, hkept⟩ := h
      obtain ⟨front₂, tip₂, tip₂', hbest₂, hmem₂, -⟩ := exists_best hlast' hr'
      have htipeq₂ := hbest₂.tip_eq
      rw [hkept] at htipeq₂
      obtain ⟨-, rfl, hend₂, hto, -⟩ := comes_end_of_kept hmax' hmem₂ htipeq₂
      obtain ⟨file', hstands, hend, -⟩ := htip.stands
      have hgrown := hstands.file_eq
      rw [htip.file_eq, hmax'] at hgrown
      obtain rfl := Option.some.inj hgrown
      obtain ⟨file₂, hstands₂⟩ := mem_scanDir hmem₂
      rw [hbest.written.index_eq, hbest₂.written.index_eq] at hindex
      have hrecord := last_of_index_eq hstands₂.hash_length hstands.hash_length hindex
      have hsize := size_eq_of_indexRecord hrecord (size_le_of_mem hmem₂)
        (by rw [htip.same.2.2.2]; exact size_le_of_mem hmem)
      have hsame : tip₂'.pos = file.length := by omega
      rw [hsame] at hto
      exact hto

/-- What the first run leaves is found again exactly when a scan of the grown file comes to its
old end. -/
theorem repeats_iff_comes {r : Reindexed} {file' : List UInt8}
    (hlast : (blkFiles dir).getLast? = some (maxFile, file))
    (hr : archiveReindex magic genesis dir = some r) (hfile' : r.dir maxFile = some file') :
    Repeats magic genesis r ↔ Comes magic file' 0 file.length :=
  ⟨comes_of_repeats hlast hr hfile', repeats_of_comes hlast hr hfile'⟩

/-! ## Files that end in a frame cut short -/

theorem comes_laid {blocks : List (List UInt8)} (hsized : ∀ b ∈ blocks, BlockSized b)
    (rest : List UInt8) :
    Comes bmcFrameMagic (laid (blocks.map .frame) ++ rest) 0 (laid (blocks.map .frame)).length := by
  induction blocks with
  | nil => exact .here
  | cons b blocks ih =>
      obtain ⟨hb, hblocks⟩ := List.forall_mem_cons.mp hsized
      have hfile : laid ((b :: blocks).map .frame) ++ rest =
          frameBytes b ++ (laid (blocks.map .frame) ++ rest) := by
        rw [List.map_cons, laid_cons, List.append_assoc]
        rfl
      have hlen : (laid ((b :: blocks).map .frame)).length =
          (frameBytes b).length + (laid (blocks.map .frame)).length := by
        rw [List.map_cons, laid_cons, List.length_append]
        rfl
      have hframe := frameAt_frameBytes hb [] (laid (blocks.map .frame) ++ rest)
      have hrd := rd32_frameBytes hb [] (laid (blocks.map .frame) ++ rest)
      rw [hfile, hlen]
      refine .frame hframe ?_
      have hrest := (comes_append_right (frameBytes b) (laid (blocks.map .frame) ++ rest)).mpr
        (ih hblocks)
      rw [List.nil_append, List.length_nil] at hrd
      rw [hrd]
      rw [Nat.add_zero, length_frameBytes] at hrest
      rw [Nat.zero_add, length_frameBytes]
      exact hrest

/-- Going over whole frames leaves what stands behind them. -/
theorem comes_behind_iff {blocks : List (List UInt8)} (hsized : ∀ b ∈ blocks, BlockSized b)
    (rest : List UInt8) (n : Nat) :
    Comes bmcFrameMagic (laid (blocks.map .frame) ++ rest) 0
        ((laid (blocks.map .frame)).length + n) ↔ Comes bmcFrameMagic rest 0 n := by
  have hover := comes_laid hsized rest
  rw [← @comes_append_right bmcFrameMagic 0 n (laid (blocks.map .frame)) rest, Nat.add_zero]
  constructor
  · intro h
    exact hover.rest h (Nat.le_add_right _ _)
  · intro h
    exact hover.trans h

/-- After complete frames and what was left of one more, a second run repeats the first exactly
when going over what stands behind the complete frames comes to the end of what was left. -/
theorem archiveReindex_repeats_iff {r : Reindexed} {blocks : List (List UInt8)}
    {torn : List UInt8} (hsized : ∀ b ∈ blocks, BlockSized b)
    (hlast : (blkFiles dir).getLast? = some (maxFile, laid (blocks.map .frame) ++ torn))
    (hr : archiveReindex bmcFrameMagic genesis dir = some r) :
    ∃ more, r.dir maxFile = some (laid (blocks.map .frame) ++ (torn ++ more)) ∧
      (Repeats bmcFrameMagic genesis r ↔
        Comes bmcFrameMagic (torn ++ more) 0 torn.length) := by
  obtain ⟨front, tip, tip', -, -, htip⟩ := exists_best hlast hr
  have hmax := mem_blkFilesFrom (List.mem_of_getLast? hlast)
  obtain ⟨more, hmore⟩ := htip.extends_dir _ _ hmax
  rw [List.append_assoc] at hmore
  refine ⟨more, hmore, ?_⟩
  rw [repeats_iff_comes hlast hr hmore, List.length_append]
  exact comes_behind_iff hsized _ _

/-- What was left of a frame that the bytes behind it make whole is gone over at once. -/
theorem not_comes_of_whole {torn more block rest : List UInt8} (hblock : BlockSized block)
    (hcut : frameBytes block = torn ++ rest) (hrest : rest ≠ []) (hmagic : 8 ≤ torn.length)
    (hwhole : 8 + block.length ≤ torn.length + more.length) :
    ¬ Comes bmcFrameMagic (torn ++ more) 0 torn.length := by
  have hlen := congrArg List.length hcut
  rw [length_frameBytes, List.length_append] at hlen
  have hpos := List.length_pos_of_ne_nil hrest
  have hframe := frameAt_frameBytes hblock [] []
  rw [List.nil_append, List.append_nil, hcut, List.length_nil] at hframe
  have hrd := rd32_frameBytes hblock [] []
  rw [List.nil_append, List.append_nil, hcut, List.length_nil] at hrd
  have hrd' : rd32 (torn ++ more) 0 = block.length := by
    rw [rd32_append_left (by omega), ← hrd, rd32_append_left (by omega)]
  have hocc : OccursAt (magicBytes bmcFrameMagic) (torn ++ more) (0 + 4) := by
    have := hframe.magicAt
    rw [occursAt_append_left _ (by rw [length_magicBytes]; omega)] at this ⊢
    exact this
  have hframe' : FrameAt bmcFrameMagic (torn ++ more) 0 := by
    refine ⟨hocc, by rw [hrd']; exact hblock.1, by rw [hrd']; exact hblock.2, ?_⟩
    rw [hrd', List.length_append]
    omega
  intro h
  generalize torn.length = q at h hlen hmagic
  cases h with
  | here => omega
  | frame _ h =>
      have := h.le
      omega
  | slide hno _ => exact hno hframe'

/-! ## A frame that the tip's copy completes -/

/-- Bytes as they are read, 32 of them at a time. -/
def bytesOf (words : List Nat) : List UInt8 := words.flatMap fun w => (leBytes 32 w).reverse

/-- The genesis block of the main chain. -/
def mainBlock0 : List UInt8 :=
  mainGenesis ++
    bytesOf
      [0x0101000000010000000000000000000000000000000000000000000000000000,
       0x000000000000ffffffff4d04ffff001d0104455468652054696d65732030332f,
       0x4a616e2f32303039204368616e63656c6c6f72206f6e206272696e6b206f6620,
       0x7365636f6e64206261696c6f757420666f722062616e6b73ffffffff0100f205,
       0x2a01000000434104678afdb0fe5548271967f1a67130b7105cd6a828e03909a6,
       0x7962e0ea1f61deb649f6bc3f4cef38c4f35504e51ec112de5c384df7ba0b8d57] ++
    (leBytes 13 0x8a4c702b6bf11d5fac00000000).reverse

/-- The block after it. -/
def mainBlock1 : List UInt8 :=
  bytesOf
      [0x010000006fe28c0ab6f1b372c1a6a246ae63f74f931e8365e15a089c68d61900,
       0x00000000982051fd1e4ba744bbbe680e1fee14677ba1a3c3540bf7b1cdb606e8,
       0x57233e0e61bc6649ffff001d01e3629901010000000100000000000000000000,
       0x00000000000000000000000000000000000000000000ffffffff0704ffff001d,
       0x0104ffffffff0100f2052a0100000043410496b538e853519c726a2c91e61ec1,
       0x1600ae1390813a627c66fb8be7947be63c52da7589379515d4e0a604f8141781] ++
    (leBytes 23 0xe62294721166bf621e73a82cbf2342c858eeac00000000).reverse

def stoppedTorn : List UInt8 := (frameBytes mainBlock1).take 100

/-- A node that stopped after 100 bytes of the frame of its second block. -/
def stoppedDir : Dir := fun n =>
  if n = 0 then some (laid ([mainBlock0].map .frame) ++ stoppedTorn) else none

theorem stoppedDir_last :
    (blkFiles stoppedDir).getLast? =
      some (0, laid ([mainBlock0].map .frame) ++ stoppedTorn) := rfl

theorem mainBlock0_sized : ∀ b ∈ [mainBlock0], BlockSized b := by
  intro b hb
  rw [List.mem_singleton.mp hb]
  set_option maxRecDepth 4000 in
  exact ⟨by decide, by decide⟩

theorem stoppedDir_run :
    (archiveReindex bmcFrameMagic (sha256d mainGenesis).1 stoppedDir).map (fun r => r.dir 0) =
      some (some (laid ([mainBlock0].map .frame) ++ (stoppedTorn ++ frameBytes mainBlock0))) := by
  decide +kernel

theorem archiveReindex_repeats_iff_stopped :
    ∃ r more, archiveReindex bmcFrameMagic (sha256d mainGenesis).1 stoppedDir = some r ∧
      r.dir 0 = some (laid ([mainBlock0].map .frame) ++ (stoppedTorn ++ more)) ∧
      (Repeats bmcFrameMagic (sha256d mainGenesis).1 r ↔
        Comes bmcFrameMagic (stoppedTorn ++ more) 0 stoppedTorn.length) := by
  obtain ⟨r, hr, -⟩ := Option.map_eq_some_iff.mp stoppedDir_run
  obtain ⟨more, hmore⟩ := archiveReindex_repeats_iff mainBlock0_sized stoppedDir_last hr
  exact ⟨r, more, hr, hmore⟩

/-- With the copy of the genesis block behind it the second block seems complete. -/
theorem not_repeats_stopped :
    ∃ r, archiveReindex bmcFrameMagic (sha256d mainGenesis).1 stoppedDir = some r ∧
      ¬ Repeats bmcFrameMagic (sha256d mainGenesis).1 r := by
  obtain ⟨r, hr, hdir⟩ := Option.map_eq_some_iff.mp stoppedDir_run
  refine ⟨r, hr, fun h => ?_⟩
  have hcomes := comes_of_repeats stoppedDir_last hr hdir h
  rw [List.length_append, comes_behind_iff mainBlock0_sized] at hcomes
  refine not_comes_of_whole ⟨?_, ?_⟩ (List.take_append_drop 100 (frameBytes mainBlock1)).symm
    ?_ ?_ ?_ hcomes
  set_option maxRecDepth 4000 in
  all_goals decide

end BitcoinMachineCode.Chain.Reindex
