import BitcoinMachineCode.Chain.ArchiveReindex
import BitcoinMachineCode.Consensus.Compact

/-!
# The files a reindexing leaves

What the three files hold after the walk: the records of the chain to the best block by height.
Over block files of frames and junk this is the chain with the most work among the frames whose
headers have the work they state.
-/

namespace BitcoinMachineCode.Chain.Reindex

open Foundation Consensus

variable {e : List RxEnt} {genesis : List UInt8} {dir : Dir} {g : Nat}

/-! ## Records of a path -/

/-- The work up to each height. -/
def cumulative (chain : List RxEnt) : List (BitVec 128) :=
  (List.range chain.length).map fun k => workOf (chain.take (k + 1))

def workRecord (work : BitVec 128) : List UInt8 := leBytes 16 work.toNat

theorem cumulative_concat (chain : List RxEnt) (y : RxEnt) :
    cumulative (chain ++ [y]) = cumulative chain ++ [workOf (chain ++ [y])] := by
  unfold cumulative
  rw [List.length_append, List.length_singleton, List.range_succ, List.map_append,
    List.map_singleton]
  have hwhole : (chain ++ [y]).take (chain.length + 1) = chain ++ [y] :=
    List.take_of_length_le (by simp)
  rw [hwhole]
  refine congrArg (· ++ _) (List.map_congr_left fun k hk => ?_)
  rw [List.take_append_of_le_length (List.mem_range.mp hk)]

/-- The index, the headers and the work of a chain, each record at its height. -/
structure Written (r : Reindexed) (chain : List RxEnt) : Prop where
  tip_eq : r.tip + 1 = chain.length
  index_eq : r.index = chain.flatMap indexRecord
  headers_eq : r.headers = chain.flatMap (headerRecord r.dir)
  chainwork_eq : r.chainwork = (cumulative chain).flatMap workRecord

theorem map_height_eq_descending {par : Nat → Option Nat} {height : Nat → Nat}
    {record : Nat → List UInt8} {i : Nat} {path : List Nat} (h : Descends par g i path)
    (hheight : ∀ i path, Descends par g i path → height i + 1 = path.length) :
    path.reverse.map (fun c => (height c, record c)) = descending (path.map record) := by
  induction h with
  | root =>
      have := hheight g [g] .root
      have hzero : height g = 0 := by simpa using this
      simp [descending, hzero]
  | @step p i path hrest hp ih =>
      have hi := hheight i _ (hrest.step hp)
      have hlen : height i = (path.map record).length := by simpa using hi
      rw [List.reverse_append, List.map_append, List.map_append, ih]
      rw [List.map_singleton, descending_concat, ← hlen]
      rfl

theorem map_chainOf {path : List Nat} (f : RxEnt → List UInt8) (h : ∀ c ∈ path, c < e.length) :
    path.map (fun c => ((e[c]?).map f).getD []) = (chainOf e path).map f := by
  induction path with
  | nil => rfl
  | cons c path ih =>
      obtain ⟨hc, hrest⟩ := List.forall_mem_cons.mp h
      have hget : e[c]? = some e[c] := List.getElem?_eq_getElem hc
      have hcons : chainOf e (c :: path) = e[c] :: chainOf e path := List.filterMap_cons_some hget
      rw [List.map_cons, ih hrest, hcons, hget]
      rfl

theorem length_chainOf {path : List Nat} (h : ∀ c ∈ path, c < e.length) :
    (chainOf e path).length = path.length := by
  have := congrArg List.length (map_chainOf RxEnt.hash h)
  simpa using this.symm

theorem map_value_eq_cumulative {value : Nat → BitVec 128} {i : Nat} {path : List Nat}
    (hpar : ∀ i p, parentIn e g i = some p → i < e.length) (hg : g < e.length)
    (h : Descends (parentIn e g) g i path)
    (hvalue : ∀ i path, Descends (parentIn e g) g i path → value i = workOf (chainOf e path)) :
    path.map value = cumulative (chainOf e path) := by
  have hone : ∀ (i : Nat) (hi : i < e.length), chainOf e [i] = [e[i]] := by
    intro i hi
    simp [chainOf, hi]
  induction h with
  | root =>
      rw [List.map_singleton, hvalue g [g] .root, hone g hg]
      rfl
  | @step p i path hrest hp ih =>
      have hi := hpar i p hp
      rw [List.map_append, List.map_singleton, ih, hvalue i _ (hrest.step hp),
        chainOf_concat (List.getElem?_eq_getElem hi), cumulative_concat]

theorem workOf_congr {chain chain' : List RxEnt}
    (h : chain.map RxEnt.bits = chain'.map RxEnt.bits) : workOf chain = workOf chain' := by
  have hbits : ∀ c : List RxEnt, workOf c =
      match c.map RxEnt.bits with
      | [] => 0
      | b :: bs => bs.foldl (fun v b => chainworkAdd v (blockWork b)) (blockWork b) := by
    intro c
    cases c with
    | nil => rfl
    | cons x rest => simp [workOf, List.foldl_map]
  rw [hbits, hbits, h]

theorem cumulative_congr {chain chain' : List RxEnt}
    (h : chain.map RxEnt.bits = chain'.map RxEnt.bits) : cumulative chain = cumulative chain' := by
  have hlen : chain.length = chain'.length := by simpa using congrArg List.length h
  unfold cumulative
  rw [hlen]
  refine List.map_congr_left fun k _ => workOf_congr ?_
  rw [List.map_take, List.map_take, h]

theorem length_indexRecord {x : RxEnt} (h : x.hash.length = 32) : (indexRecord x).length = 48 := by
  simp [indexRecord, h]

theorem length_headerRecord {x : RxEnt} {file : List UInt8} (h : StandsIn dir x file) :
    (headerRecord dir x).length = 112 := by
  have hfits := h.fits
  have hleast := h.least
  rw [headerRecord, h.file_eq, List.length_append, h.hash_length, Option.getD_some, length_pread]
  omega

theorem forall_mem_map_length {chain : List RxEnt} {f : RxEnt → List UInt8} {width : Nat}
    (h : ∀ x ∈ chain, (f x).length = width) : ∀ r ∈ chain.map f, r.length = width := by
  intro r hr
  obtain ⟨x, hx, rfl⟩ := List.mem_map.mp hr
  exact h x hx

/-- The records written on the way from the best block back to genesis. -/
theorem writeFiles_written {e' : List RxEnt} {w : Walk (BitVec 128)} {path : List Nat}
    (hnodup : (e.map RxEnt.hash).Nodup) (hg : g < e.length)
    (hpath : Descends (parentIn e g) g w.best path)
    (hvalue : ∀ i path, Descends (parentIn e g) g i path → w.value i = workOf (chainOf e path))
    (hheight : ∀ i path, Descends (parentIn e g) g i path → w.height i + 1 = path.length)
    (hbits : e'.map RxEnt.bits = e.map RxEnt.bits)
    (hstands : ∀ x ∈ chainOf e' path, ∃ file, StandsIn dir x file) (reappended : Bool) :
    Written (writeFiles dir e' (parentIn e g) w reappended) (chainOf e' path) := by
  have hpar : ∀ i p, parentIn e g i = some p → i < e.length := fun i p => parentIn_lt hnodup
  have hlen : e'.length = e.length := by simpa using congrArg List.length hbits
  have hlt : ∀ c ∈ path, c < e'.length := by
    rw [hlen]
    exact hpath.lt hg hpar
  have hclimb : climb (parentIn e g) e'.length (some w.best) = path.reverse := by
    refine climb_eq (parentIn_root e g) hpath ?_
    rw [hlen]
    exact hpath.length_le (parentIn_root e g) hg hpar
  have htip := hheight _ _ hpath
  have hlength := length_chainOf hlt
  have hrecords : ∀ (width : Nat) (f : RxEnt → List UInt8),
      (∀ x ∈ chainOf e' path, (f x).length = width) →
      writeAt width (path.reverse.map fun c => (w.height c, ((e'[c]?).map f).getD []))
        (zeros ((w.height w.best + 1) * width)) = (chainOf e' path).flatMap f := by
    intro width f hf
    rw [map_height_eq_descending hpath hheight, map_chainOf f hlt,
      writeAt_descending (forall_mem_map_length hf), ← List.flatMap_def]
    simp [zeros, htip, hlength]
  refine ⟨?_, ?_, ?_, ?_⟩
  · rw [hlength]
    exact htip
  · unfold writeFiles
    rw [hclimb]
    refine hrecords 48 indexRecord fun x hx => ?_
    obtain ⟨file, hfile⟩ := hstands x hx
    exact length_indexRecord hfile.hash_length
  · unfold writeFiles
    rw [hclimb]
    refine hrecords 112 (headerRecord dir) fun x hx => ?_
    obtain ⟨file, hfile⟩ := hstands x hx
    exact length_headerRecord hfile
  · have hsums : cumulative (chainOf e' path) = path.map w.value := by
      rw [map_value_eq_cumulative hpar hg hpath hvalue]
      refine cumulative_congr ?_
      rw [chainOf, chainOf, List.map_filterMap, List.map_filterMap]
      simp only [← List.getElem?_map, hbits]
    unfold writeFiles
    rw [hclimb, hsums, List.flatMap_map]
    dsimp only
    rw [map_height_eq_descending hpath hheight, writeAt_descending, ← List.flatMap_def]
    · rfl
    · intro r hr
      obtain ⟨c, -, rfl⟩ := List.mem_map.mp hr
      exact length_leBytes ..
    · simp [zeros, htip]

/-! ## The best chain -/

theorem Descends.exists_front {par : Nat → Option Nat} {i : Nat} {path : List Nat}
    (hg : par g = none) (h : Descends par g i path) : ∃ front, path = front ++ [i] ∧ i ∉ front := by
  cases h with
  | root => exact ⟨[], rfl, List.not_mem_nil⟩
  | @step p i path hrest hp => exact ⟨path, rfl, hrest.fresh hg hp⟩

theorem chainOf_set {front : List Nat} {i : Nat} {t : RxEnt} (hi : i < e.length)
    (hfresh : i ∉ front) : chainOf (e.set i t) (front ++ [i]) = chainOf e front ++ [t] := by
  rw [chainOf_concat (List.getElem?_set_self hi)]
  refine congrArg (· ++ [t]) (List.filterMap_congr fun c hc => ?_)
  refine List.getElem?_set_ne fun heq => ?_
  rw [heq] at hfresh
  exact hfresh hc

/-- What the reindexing of a row of blocks comes to: the chain with the most work is written, its
last block where `appendTip` leaves it. -/
structure Best (dir : Dir) (maxFile : Nat) (stored : RxEnt → Prop) (genesis : List UInt8)
    (r : Reindexed) (front : List RxEnt) (tip tip' : RxEnt) : Prop where
  chain : ChainTo stored genesis (front ++ [tip]) tip
  most : ∀ other x, ChainTo stored genesis other x →
    (workOf other).toNat ≤ (workOf (front ++ [tip])).toNat
  tip_eq : appendTip dir maxFile tip = (r.dir, tip', r.tipReappended)
  written : Written r (front ++ [tip'])

theorem rebuildOf_best {maxFile : Nat} {last : List UInt8} (hnodup : (e.map RxEnt.hash).Nodup)
    (hgenesis : ∃ x ∈ e, x.hash = genesis) (hmax : dir maxFile = some last)
    (hstands : ∀ x ∈ e, ∃ file, StandsIn dir x file) :
    ∃ r front tip tip', rebuildOf dir maxFile e genesis = some r ∧
      Best dir maxFile (· ∈ e) genesis r front tip tip' := by
  obtain ⟨y₀, hy₀, hgenesis⟩ := hgenesis
  obtain ⟨g, hg, rfl⟩ := List.getElem_of_mem hy₀
  have hroot : e[g]? = some e[g] := List.getElem?_eq_getElem hg
  have hfind := findIdx?_hash hnodup hroot hgenesis
  obtain ⟨w, path, hwalk, hpath, hall⟩ := walkTree_spec hnodup hroot hgenesis
  obtain ⟨t, ht, hchain⟩ := chainTo_of_descends hnodup hroot hgenesis hpath
  obtain ⟨hbest, rfl⟩ := List.getElem?_eq_some_iff.mp ht
  obtain ⟨front, rfl, hfresh⟩ := Descends.exists_front (parentIn_root e g) hpath
  rw [chainOf_concat ht] at hchain
  obtain ⟨tfile, htstands⟩ := hstands _ (List.getElem_mem hbest)
  have htip := appendTip_spec hmax htstands
  generalize happend : appendTip dir maxFile e[w.best] = out at htip
  obtain ⟨dir', t', reappended⟩ := out
  have hwritten := chainOf_set (t := t') hbest hfresh
  refine ⟨writeFiles dir' (e.set w.best t') (parentIn e g) w reappended, chainOf e front,
    e[w.best], t', ?_, hchain, fun other x hother => ?_, happend, ?_⟩
  · unfold rebuildOf finish
    rw [hfind]
    dsimp only
    rw [hwalk]
    dsimp only
    rw [ht]
    dsimp only
    rw [happend]
  · obtain ⟨i, opath, -, hopath, rfl⟩ := descends_of_chainTo hnodup hroot hgenesis hother
    obtain ⟨hvalue, -, hle⟩ := hall i opath hopath
    rw [hvalue, (hall _ _ hpath).1, chainOf_concat ht] at hle
    exact hle
  · rw [← hwritten]
    refine writeFiles_written hnodup hg hpath (fun i p h => (hall i p h).1)
      (fun i p h => (hall i p h).2.1) ?_ (fun x hx => ?_) reappended
    · exact map_set_eq RxEnt.bits ht htip.same.2.2.1
    · rw [hwritten] at hx
      rcases List.mem_append.mp hx with hx | hx
      · obtain ⟨c, -, hc⟩ := List.mem_filterMap.mp hx
        obtain ⟨file, hfile⟩ := hstands x (List.mem_of_getElem? hc)
        exact hfile.extends htip.extends_dir
      · obtain ⟨file', hfile', -, -⟩ := htip.stands
        rw [List.mem_singleton.mp hx]
        exact ⟨file', hfile'⟩

theorem archiveReindex_best {magic : UInt32} {maxFile : Nat} {last : List UInt8}
    (hgenesis : ∃ x ∈ scanDir magic dir, x.hash = genesis)
    (hlast : (blkFiles dir).getLast? = some (maxFile, last)) :
    ∃ r front tip tip', archiveReindex magic genesis dir = some r ∧
      Best dir maxFile (LastCopy (scanDir magic dir)) genesis r front tip tip' := by
  obtain ⟨hnodup, hmem⟩ := copies_spec (scanDir magic dir)
  obtain ⟨x, hx, hxgenesis⟩ := hgenesis
  obtain ⟨y, hy, hyx⟩ := exists_lastCopy hx
  have hmax : dir maxFile = some last := mem_blkFilesFrom (List.mem_of_getLast? hlast)
  have hstored : (· ∈ copies (scanDir magic dir)) = LastCopy (scanDir magic dir) :=
    funext fun x => propext (hmem x)
  rw [archiveReindex_eq hlast (List.ne_nil_of_mem hx), ← hstored]
  refine rebuildOf_best hnodup ⟨y, (hmem y).mpr hy, hyx.trans hxgenesis⟩ hmax fun x hx => ?_
  exact mem_scanDir ((hmem x).mp hx).mem

/-! ## The work a header states -/

theorem mantissa_lt (bits : UInt32) : (bits &&& 0x007fffff).toNat < 2 ^ 23 := by
  rw [UInt32.toNat_and]
  exact Nat.lt_of_le_of_lt Nat.and_le_right (by decide)

theorem setCompact_of_ge {bits : UInt32} (hthree : 3 ≤ (bits >>> 24).toNat)
    (hfit : (bits >>> 24).toNat ≤ 32) :
    setCompact bits = (bits &&& 0x007fffff).toNat * 256 ^ ((bits >>> 24).toNat - 3) := by
  unfold setCompact nWord nSize
  rcases Nat.eq_or_lt_of_le hthree with heq | hgt
  · rw [if_pos (by omega), if_pos (by omega), ← heq]
    simp
  rw [if_neg (by omega), if_neg (by omega), Nat.shiftLeft_eq, Nat.pow_mul]
  refine Nat.mod_eq_of_lt ?_
  calc (bits &&& 0x007fffff).toNat * (2 ^ 8) ^ ((bits >>> 24).toNat - 3)
      < 2 ^ 23 * (2 ^ 8) ^ ((bits >>> 24).toNat - 3) :=
        Nat.mul_lt_mul_of_pos_right (mantissa_lt bits) (by positivity)
    _ ≤ 2 ^ 23 * (2 ^ 8) ^ 29 :=
        Nat.mul_le_mul_left _ (Nat.pow_le_pow_right (by decide) (by omega))
    _ ≤ 2 ^ 256 := by decide

theorem leVal_rxTarget {bits : UInt32} {target : List UInt8} (h : rxTarget bits = some target) :
    target.length = 32 ∧ leVal target = setCompact bits := by
  have hmant := mantissa_lt bits
  unfold rxTarget at h
  dsimp only at h
  split at h
  · cases h
  split at h
  · next hexp =>
      obtain rfl := Option.some.inj h
      refine ⟨by simp, ?_⟩
      unfold setCompact nWord nSize
      rw [leVal_append, leVal_leBytes, leVal_replicate_zero, if_pos hexp, if_pos hexp, Nat.mul_zero,
        Nat.add_zero]
      refine Nat.mod_eq_of_lt ?_
      rw [Nat.shiftRight_eq_div_pow]
      exact Nat.lt_of_le_of_lt (Nat.div_le_self _ _) (by omega)
  next hexp =>
  split at h
  · cases h
  obtain rfl := Option.some.inj h
  constructor
  · simp only [List.length_append, List.length_replicate, length_leBytes]
    omega
  rw [setCompact_of_ge (by omega) (by omega), leVal_append, leVal_append, leVal_leBytes,
    leVal_replicate_zero, leVal_replicate_zero, List.length_replicate,
    Nat.mod_eq_of_lt (by omega), Nat.zero_add, Nat.mul_zero, Nat.add_zero, Nat.mul_comm]

/-- The hash is at most the target that the header states. -/
theorem rxPowOk_iff {hash : List UInt8} {bits : UInt32} (h : hash.length = 32) :
    rxPowOk hash bits = true ↔
      (rxTarget bits).isSome ∧ leVal hash ≤ setCompact bits := by
  unfold rxPowOk
  cases htarget : rxTarget bits with
  | none => simp
  | some target =>
      obtain ⟨hlen, hval⟩ := leVal_rxTarget htarget
      have hgreater := beGreater_iff hash.reverse target.reverse (by simp [h, hlen])
      rw [beVal_reverse, beVal_reverse, hval] at hgreater
      dsimp only
      rw [Bool.not_eq_true', ← Bool.not_eq_true, hgreater]
      simp

/-- The expected number of hashes for a header with these bits. -/
def proofOf (bits : UInt32) : Nat := 2 ^ 256 / (setCompact bits + 1)

def realWork (chain : List RxEnt) : Nat := (chain.map fun x => proofOf x.bits).sum

theorem toNat_and_of_sign {bits : UInt32} (h : bits &&& 0x00800000 = 0) :
    (bits &&& 0x00ffffff).toNat = (bits &&& 0x007fffff).toNat := by
  have hmask : (0x00ffffff : UInt32).toNat =
      (0x007fffff : UInt32).toNat ||| (0x00800000 : UInt32).toNat := by
    decide
  have hclear : bits.toNat &&& (0x00800000 : UInt32).toNat = 0 := by
    rw [← UInt32.toNat_and, h]
    rfl
  rw [UInt32.toNat_and, UInt32.toNat_and, hmask, Nat.and_or_distrib_left, hclear, Nat.or_zero]

theorem rxTarget_isSome {bits : UInt32} (h : (rxTarget bits).isSome) :
    bits &&& 0x00800000 = 0 ∧ (bits &&& 0x007fffff).toNat ≠ 0 ∧ (bits >>> 24).toNat ≤ 32 := by
  unfold rxTarget at h
  dsimp only at h
  split at h
  · cases h
  next hvalid =>
  simp only [not_or, not_ne_iff] at hvalid
  refine ⟨hvalid.1, hvalid.2.1, ?_⟩
  split at h
  · omega
  split at h
  · cases h
  · omega

/-- The work that is summed up is the low half of the real one. -/
theorem blockWork_of_target {bits : UInt32} (h : (rxTarget bits).isSome) :
    (blockWork bits).toNat ≤ proofOf bits ∧
      (proofOf bits < 2 ^ 128 → (blockWork bits).toNat = proofOf bits) := by
  obtain ⟨hsign, hne, hexp⟩ := rxTarget_isSome h
  have hmant := mantissa_lt bits
  rw [blockWork_toNat]
  unfold blockProof proofOf
  dsimp only
  by_cases hsmall : (bits >>> 24).toNat < 3
  · -- the target of so small an exponent is below 2^16, and block_work takes it for zero
    have hzero : compactToTarget bits = 0 := if_pos hsmall
    have hlow : setCompact bits < 2 ^ 16 := by
      unfold setCompact nWord nSize
      rw [if_pos (by omega), if_pos (by omega), Nat.shiftRight_eq_div_pow]
      calc (bits &&& 0x007fffff).toNat / 2 ^ (8 * (3 - (bits >>> 24).toNat))
          ≤ (bits &&& 0x007fffff).toNat / 2 ^ 8 :=
            Nat.div_le_div_left (Nat.pow_le_pow_right (by decide) (by omega)) (by decide)
        _ < 2 ^ 16 := by omega
    have hproof : 2 ^ 256 / 2 ^ 16 ≤ 2 ^ 256 / (setCompact bits + 1) :=
      Nat.div_le_div_left hlow (Nat.succ_pos _)
    rw [if_pos hzero]
    refine ⟨Nat.zero_le _, fun hlt => ?_⟩
    have : 2 ^ 128 ≤ 2 ^ 256 / 2 ^ 16 := by decide
    omega
  · have hsame : compactToTarget bits = setCompact bits := by
      rw [setCompact_of_ge (by omega) hexp, ← toNat_and_of_sign hsign]
      unfold compactToTarget
      dsimp only
      rw [if_neg hsmall, if_neg (by omega)]
    have hpos : setCompact bits ≠ 0 := by
      rw [setCompact_of_ge (by omega) hexp]
      exact Nat.mul_ne_zero hne (by positivity)
    rw [hsame, if_neg hpos]
    exact ⟨Nat.mod_le _ _, fun hlt => Nat.mod_eq_of_lt hlt⟩

theorem totalWork_le_realWork {chain : List RxEnt}
    (h : ∀ x ∈ chain, (rxTarget x.bits).isSome) : totalWork chain ≤ realWork chain :=
  List.sum_le_sum fun x hx => (blockWork_of_target (h x hx)).1

theorem totalWork_eq_realWork {chain : List RxEnt}
    (h : ∀ x ∈ chain, (rxTarget x.bits).isSome) (hlt : realWork chain < 2 ^ 128) :
    totalWork chain = realWork chain := by
  refine congrArg List.sum (List.map_congr_left fun x hx => (blockWork_of_target (h x hx)).2 ?_)
  refine Nat.lt_of_le_of_lt ?_ hlt
  exact List.single_le_sum (fun _ _ => Nat.zero_le _) _ (List.mem_map_of_mem hx)

/-! ## Block files of frames and junk -/

/-- The block files of an archive by number: frames and junk, and what is left of a frame cut
short. -/
structure Archive where
  files : Nat → Option (List Seg × List UInt8)
  layout : ∀ n segs torn, files n = some (segs, torn) → Layout (laid segs ++ torn) segs torn
  lt : ∀ n, (files n).isSome → n < 65536
  near : ∀ n m, (files n).isSome → m + rxMaxMissing ≤ n →
    ∃ k, m ≤ k ∧ k < m + rxMaxMissing ∧ (files k).isSome

def Archive.toDir (A : Archive) : Dir := fun n => (A.files n).map fun f => laid f.1 ++ f.2

/-- The frames of a file whose headers have the work they state. -/
def segFrames (n : Nat) (segs : List Seg) : List RxEnt :=
  (framesOf 0 segs).filterMap fun f => rxEnt n f.1 f.2.length (f.2.take 80)

def Archive.frames (A : Archive) : List RxEnt :=
  (List.range 65536).flatMap fun n =>
    match A.files n with
    | none => []
    | some f => segFrames n f.1

def Archive.Highest (A : Archive) (n : Nat) : Prop :=
  (A.files n).isSome ∧ ∀ m, (A.files m).isSome → m ≤ n

/-- The present files of a range of numbers. -/
def present (dir : Dir) (fno k : Nat) : List (Nat × List UInt8) :=
  (List.range' fno k).filterMap fun n => (dir n).map fun file => (n, file)

theorem present_succ (fno k : Nat) :
    present dir fno (k + 1) =
      ((dir fno).map fun file => (fno, file)).toList ++ present dir (fno + 1) k := by
  unfold present
  rw [List.range'_succ, List.filterMap_cons]
  cases dir fno <;> rfl

theorem present_eq_nil {fno k : Nat} (h : ∀ n, fno ≤ n → dir n = none) : present dir fno k = [] := by
  unfold present
  refine List.filterMap_eq_nil_iff.mpr fun n hn => ?_
  rw [h n (List.mem_range'_1.mp hn).1]
  rfl

/-- No present file is passed over. -/
theorem blkFilesFrom_eq {k fno missing : Nat} (hmissing : missing < rxMaxMissing)
    (hle : missing ≤ fno) (habsent : ∀ n, fno - missing ≤ n → n < fno → dir n = none)
    (hnear : ∀ n m, (dir n).isSome → m + rxMaxMissing ≤ n →
      ∃ k, m ≤ k ∧ k < m + rxMaxMissing ∧ (dir k).isSome) :
    blkFilesFrom dir k fno missing = present dir fno k := by
  induction k generalizing fno missing with
  | zero => rfl
  | succ k ih =>
      rw [blkFilesFrom, present_succ]
      cases hfile : dir fno with
      | some file =>
          rw [ih (by decide) (Nat.zero_le _) fun n hn hlt => absurd hlt (by omega)]
          rfl
      | none =>
          have habsent' : ∀ n, fno + 1 - (missing + 1) ≤ n → n < fno + 1 → dir n = none := by
            intro n hn hlt
            rcases Nat.lt_or_eq_of_le (Nat.le_of_lt_succ hlt) with hlt | rfl
            · exact habsent n (by omega) hlt
            · exact hfile
          dsimp only
          split
          · next hmany =>
              rw [present_eq_nil]
              · rfl
              intro n hn
              by_contra hne
              obtain ⟨j, hj, hjlt, hjsome⟩ := hnear n (fno - missing)
                (Option.ne_none_iff_isSome.mp hne) (by omega)
              rw [habsent' j (by omega) (by omega)] at hjsome
              cases hjsome
          · next hfew =>
              rw [ih (by omega) (by omega) habsent']
              rfl

theorem mem_framesOf {segs : List Seg} {off : Nat} {f : Nat × List UInt8}
    (h : f ∈ framesOf off segs) :
    ∃ front back, laid segs = front ++ (frameBytes f.2 ++ back) ∧ f.1 = off + front.length ∧
      Seg.frame f.2 ∈ segs := by
  induction segs generalizing off with
  | nil => cases h
  | cons s segs ih =>
      have hnext : ∀ width, width = s.bytes.length → f ∈ framesOf (off + width) segs →
          ∃ front back, laid (s :: segs) = front ++ (frameBytes f.2 ++ back) ∧
            f.1 = off + front.length ∧ Seg.frame f.2 ∈ s :: segs := by
        rintro width rfl hf
        obtain ⟨front, back, hlaid, hpos, hmem⟩ := ih hf
        refine ⟨s.bytes ++ front, back, ?_, ?_, List.mem_cons_of_mem _ hmem⟩
        · rw [laid_cons, hlaid, List.append_assoc]
        · rw [hpos, List.length_append, Nat.add_assoc]
      cases s with
      | frame block =>
          rcases List.mem_cons.mp h with rfl | h
          · exact ⟨[], laid segs, rfl, rfl, List.mem_cons_self⟩
          · exact hnext _ (length_frameBytes block).symm h
      | junk bytes => exact hnext _ rfl h

theorem fileEnts_eq {n : Nat} {file torn : List UInt8} {segs : List Seg}
    (h : Layout file segs torn) : fileEnts bmcFrameMagic (n, file) = segFrames n segs := by
  unfold fileEnts segFrames
  rw [h.scanFile_eq, List.filterMap_map]
  refine List.filterMap_congr fun f hf => ?_
  obtain ⟨front, back, hlaid, hpos, hmem⟩ := mem_framesOf hf
  have hsized := (h.sized _ hmem).1
  have hsplit : file = (front ++ (leBytes 4 f.2.length ++ magicBytes bmcFrameMagic)) ++
      (f.2 ++ (back ++ torn)) := by
    rw [h.bytes_eq, hlaid, frameBytes]
    simp
  have hat : f.1 + 8 = (front ++ (leBytes 4 f.2.length ++ magicBytes bmcFrameMagic)).length + 0 := by
    rw [hpos]
    simp
  have hheader : pread file (f.1 + 8) 80 = f.2.take 80 := by
    rw [hsplit, hat, pread_append_right, pread, List.drop_zero,
      List.take_append_of_le_length hsized]
  dsimp only [Function.comp]
  rw [hheader]

theorem Archive.toDir_isSome (A : Archive) (n : Nat) :
    (A.toDir n).isSome = (A.files n).isSome := by
  unfold Archive.toDir
  exact Option.isSome_map ..

theorem Archive.blkFiles_eq (A : Archive) : blkFiles A.toDir = present A.toDir 0 65536 := by
  refine blkFilesFrom_eq (by decide) (Nat.zero_le _) (fun n _ hlt => absurd hlt (by omega)) ?_
  intro n m hn hm
  rw [A.toDir_isSome] at hn
  obtain ⟨k, hk, hlt, hsome⟩ := A.near n m hn hm
  exact ⟨k, hk, hlt, by rw [A.toDir_isSome]; exact hsome⟩

theorem Archive.scanDir_eq (A : Archive) : scanDir bmcFrameMagic A.toDir = A.frames := by
  unfold scanDir Archive.frames
  rw [A.blkFiles_eq, present, List.range_eq_range']
  induction List.range' 0 65536 with
  | nil => rfl
  | cons n ns ih =>
      rw [List.flatMap_cons, ← ih]
      cases hfile : A.files n with
      | none =>
          have habsent : A.toDir n = none := by rw [Archive.toDir, hfile]; rfl
          rw [List.filterMap_cons_none (by rw [habsent]; rfl)]
          rfl
      | some f =>
          have hthere : A.toDir n = some (laid f.1 ++ f.2) := by rw [Archive.toDir, hfile]; rfl
          rw [List.filterMap_cons_some (by rw [hthere]; rfl), List.flatMap_cons,
            fileEnts_eq (A.layout n f.1 f.2 hfile)]

theorem mem_present {fno k : Nat} {f : Nat × List UInt8} :
    f ∈ present dir fno k ↔ fno ≤ f.1 ∧ f.1 < fno + k ∧ dir f.1 = some f.2 := by
  unfold present
  rw [List.mem_filterMap]
  constructor
  · rintro ⟨n, hn, hf⟩
    obtain ⟨file, hfile, rfl⟩ := Option.map_eq_some_iff.mp hf
    obtain ⟨hle, hlt⟩ := List.mem_range'_1.mp hn
    exact ⟨hle, hlt, hfile⟩
  · rintro ⟨hle, hlt, hfile⟩
    exact ⟨f.1, List.mem_range'_1.mpr ⟨hle, hlt⟩, by rw [hfile]; rfl⟩

theorem present_sorted (fno k : Nat) : (present dir fno k).Pairwise fun a b => a.1 < b.1 := by
  induction k generalizing fno with
  | zero => exact .nil
  | succ k ih =>
      rw [present_succ]
      refine List.pairwise_append.mpr ⟨?_, ih _, fun a ha b hb => ?_⟩
      · cases dir fno with
        | none => exact .nil
        | some file => exact List.pairwise_singleton ..
      · obtain ⟨file, -, rfl⟩ := Option.map_eq_some_iff.mp (Option.mem_toList.mp ha)
        have := (mem_present.mp hb).1
        dsimp only
        omega

/-- The last file the scan opens is the highest one. -/
theorem Archive.exists_highest (A : Archive) {n : Nat} (h : (A.files n).isSome) :
    ∃ maxFile last, (blkFiles A.toDir).getLast? = some (maxFile, last) ∧ A.Highest maxFile := by
  have hmem : ∀ m, (A.files m).isSome → ∃ file, (m, file) ∈ present A.toDir 0 65536 := by
    intro m hm
    rw [← A.toDir_isSome] at hm
    obtain ⟨file, hfile⟩ := Option.isSome_iff_exists.mp hm
    rw [A.toDir_isSome] at hm
    exact ⟨file, mem_present.mpr ⟨Nat.zero_le _, by simpa using A.lt m hm, hfile⟩⟩
  rw [A.blkFiles_eq]
  obtain ⟨file, hfile⟩ := hmem n h
  have hne := List.ne_nil_of_mem hfile
  refine ⟨_, _, List.getLast?_eq_some_getLast hne, ?_, fun m hm => ?_⟩
  · have hlast := mem_present.mp (List.getLast_mem hne)
    rw [← A.toDir_isSome, hlast.2.2]
    rfl
  · obtain ⟨file', hfile'⟩ := hmem m hm
    have hsorted := @present_sorted A.toDir 0 65536
    rw [← List.dropLast_concat_getLast hne] at hfile' hsorted
    rcases List.mem_append.mp hfile' with hfile' | hfile'
    · have := (List.pairwise_append.mp hsorted).2.2 _ hfile' _ (List.mem_singleton_self _)
      exact Nat.le_of_lt this
    · rw [← List.mem_singleton.mp hfile']

/-! ## The chain with the most work -/

theorem ChainTo.stored_of_mem {stored : RxEnt → Prop} {chain : List RxEnt} {x : RxEnt}
    (h : ChainTo stored genesis chain x) : ∀ z ∈ chain, stored z := by
  induction h with
  | start hx _ => exact fun z hz => List.mem_singleton.mp hz ▸ hx
  | grow _ hy _ _ ih =>
      intro z hz
      rcases List.mem_append.mp hz with hz | hz
      · exact ih z hz
      · exact List.mem_singleton.mp hz ▸ hy

/-- No chain has more work, in the 16 bytes that are kept of it and, where these hold it, in
full. -/
def Heaviest (stored : RxEnt → Prop) (genesis : List UInt8) (chain : List RxEnt) : Prop :=
  ∀ other x, ChainTo stored genesis other x →
    (workOf other).toNat ≤ (workOf chain).toNat ∧
      (realWork other < 2 ^ 128 → realWork other ≤ realWork chain)

theorem heaviest_of_most {stored : RxEnt → Prop} {chain : List RxEnt}
    (hvalid : ∀ x, stored x → (rxTarget x.bits).isSome)
    (hchain : ∀ x ∈ chain, (rxTarget x.bits).isSome)
    (hmost : ∀ other x, ChainTo stored genesis other x →
      (workOf other).toNat ≤ (workOf chain).toNat) : Heaviest stored genesis chain := by
  intro other x hother
  have hle := hmost other x hother
  refine ⟨hle, fun hlt => ?_⟩
  have hexact := totalWork_eq_realWork (fun z hz => hvalid z (hother.stored_of_mem z hz)) hlt
  rw [workOf_toNat, workOf_toNat, hexact] at hle
  calc realWork other ≤ totalWork chain := by omega
    _ ≤ realWork chain := totalWork_le_realWork hchain

/-- Copies of one block have one header. -/
def OneHeader (e : List RxEnt) : Prop :=
  ∀ x ∈ e, ∀ y ∈ e, x.hash = y.hash → x.prev = y.prev ∧ x.bits = y.bits

/-- A chain over any copies is one over the last copies. -/
theorem ChainTo.lastCopies (hone : OneHeader e) {chain : List RxEnt} {x : RxEnt}
    (h : ChainTo (· ∈ e) genesis chain x) :
    ∃ chain' x', ChainTo (LastCopy e) genesis chain' x' ∧ x'.hash = x.hash ∧
      chain'.map RxEnt.hash = chain.map RxEnt.hash ∧
      chain'.map RxEnt.bits = chain.map RxEnt.bits := by
  induction h with
  | @start x hx hgenesis =>
      obtain ⟨y, hy, hyx⟩ := exists_lastCopy hx
      have hbits := (hone y hy.mem x hx hyx).2
      exact ⟨[y], y, .start hy (hyx.trans hgenesis), hyx, by simp [hyx], by simp [hbits]⟩
  | @grow chain x y hchain hy hprev hfresh ih =>
      obtain ⟨chain', x', hchain', hx', hhash, hbits⟩ := ih
      obtain ⟨z, hz, hzy⟩ := exists_lastCopy hy
      obtain ⟨hzprev, hzbits⟩ := hone z hz.mem y hy hzy
      refine ⟨chain' ++ [z], z, hchain'.grow hz ?_ fun w hw heq => ?_, hzy, ?_, ?_⟩
      · rw [hzprev, hprev, hx']
      · have hmem := List.mem_map_of_mem (f := RxEnt.hash) hw
        rw [hhash] at hmem
        obtain ⟨v, hv, hvw⟩ := List.mem_map.mp hmem
        exact hfresh v hv (hvw.trans (heq.trans hzy))
      · rw [List.map_append, List.map_append, hhash, List.map_singleton, List.map_singleton, hzy]
      · rw [List.map_append, List.map_append, hbits, List.map_singleton, List.map_singleton, hzbits]

theorem Heaviest.all_copies {chain : List RxEnt} (hone : OneHeader e)
    (h : Heaviest (LastCopy e) genesis chain) : Heaviest (· ∈ e) genesis chain := by
  intro other x hother
  obtain ⟨other', x', hother', -, -, hbits⟩ := hother.lastCopies hone
  have hreal : realWork other' = realWork other := by
    have := congrArg (fun bs => (List.map proofOf bs).sum) hbits
    simpa [realWork, Function.comp_def] using this
  rw [← workOf_congr hbits, ← hreal]
  exact h other' x' hother'

theorem rxTarget_of_mem {magic : UInt32} {x : RxEnt} (h : x ∈ scanDir magic dir) :
    (rxTarget x.bits).isSome := by
  obtain ⟨file, -, -, -, -, hent⟩ := exists_frame h
  obtain ⟨hpow, -, -, -, hhash⟩ := rxEnt_eq_some hent
  have hlen : x.hash.length = 32 := by
    rw [hhash]
    exact (sha256d _).2
  exact ((rxPowOk_iff hlen).mp hpow).1

theorem mem_archive_frames {A : Archive} {x : RxEnt} (h : x ∈ A.frames) :
    (A.files x.file).isSome := by
  rw [← A.scanDir_eq] at h
  obtain ⟨file, hfile⟩ := mem_scanDir h
  rw [← A.toDir_isSome, hfile.file_eq]
  rfl

/-- A reindexing writes the heaviest chain of the archive, every block by its last copy, and
leaves the frame of the tip last in the highest file. -/
theorem archiveReindex_heaviest (A : Archive) (genesis : List UInt8)
    (hgenesis : ∃ x ∈ A.frames, x.hash = genesis) :
    ∃ r maxFile front tip tip', archiveReindex bmcFrameMagic genesis A.toDir = some r ∧
      ChainTo (LastCopy A.frames) genesis (front ++ [tip]) tip ∧
      Heaviest (LastCopy A.frames) genesis (front ++ [tip]) ∧
      (OneHeader A.frames → Heaviest (· ∈ A.frames) genesis (front ++ [tip])) ∧
      Written r (front ++ [tip']) ∧ (∀ x ∈ front ++ [tip'], ∃ file, StandsIn r.dir x file) ∧
      A.Highest maxFile ∧ TipLast A.toDir r.dir maxFile tip tip' := by
  have hscan := A.scanDir_eq
  obtain ⟨x, hx, hxgenesis⟩ := hgenesis
  obtain ⟨maxFile, last, hlast, hhighest⟩ := A.exists_highest (mem_archive_frames hx)
  rw [← hscan] at hx
  obtain ⟨r, front, tip, tip', hr, hchain, hmost, htip, hwritten⟩ :=
    archiveReindex_best ⟨x, hx, hxgenesis⟩ hlast
  have hmax : A.toDir maxFile = some last := mem_blkFilesFrom (List.mem_of_getLast? hlast)
  have hstored := hchain.stored_of_mem
  have hheaviest := heaviest_of_most (fun x hx => rxTarget_of_mem (LastCopy.mem hx))
    (fun x hx => rxTarget_of_mem (hstored x hx).mem) hmost
  obtain ⟨file, htipfile⟩ := mem_scanDir (hstored tip (by simp)).mem
  have htiplast := appendTip_spec hmax htipfile
  rw [htip] at htiplast
  rw [hscan] at hchain hheaviest hstored
  refine ⟨r, maxFile, front, tip, tip', hr, hchain, hheaviest, hheaviest.all_copies, hwritten,
    fun x hx => ?_, hhighest, htiplast⟩
  rcases List.mem_append.mp hx with hx | hx
  · have hmem := (hstored x (List.mem_append_left _ hx)).mem
    rw [← hscan] at hmem
    obtain ⟨file, hfile⟩ := mem_scanDir hmem
    exact hfile.extends htiplast.extends_dir
  · obtain ⟨file', hfile', -, -⟩ := htiplast.stands
    rw [List.mem_singleton.mp hx]
    exact ⟨file', hfile'⟩

/-- The header of the genesis block of the main chain. -/
def mainGenesis : List UInt8 :=
  leBytes 4 1 ++ zeros 32 ++
    (leBytes 32 0x3ba3edfd7a7b12b27ac72c3e67768f617fc81bc3888a51323a9fb8aa4b1e5e4a).reverse ++
    leBytes 4 1231006505 ++ leBytes 4 0x1d00ffff ++ leBytes 4 2083236893

def sampleSegs : List Seg := [.junk [1, 2, 3], .frame mainGenesis]

def sampleTorn : List UInt8 := (frameBytes mainGenesis).take 20

theorem sampleTorn_torn : Torn sampleTorn := by
  refine ⟨⟨mainGenesis, (frameBytes mainGenesis).drop 20, ⟨by decide, by decide⟩,
    by decide, (List.take_append_drop 20 _).symm⟩, fun i hi => ?_⟩
  have hbound : i + 4 ≤ 20 := hi.bound (magicBytes_ne_nil _)
  have hall : ∀ j < 17, pread sampleTorn j 4 = magicBytes bmcFrameMagic → j = 4 := by
    decide
  exact hall i (by omega) hi

theorem sampleSegs_layout : Layout (laid sampleSegs ++ sampleTorn) sampleSegs sampleTorn := by
  refine ⟨rfl, fun block hblock => ?_, fun before bytes after hsegs i hi => ?_, .inr sampleTorn_torn⟩
  · have : block = mainGenesis := by simpa [sampleSegs] using hblock
    rw [this]
    exact ⟨by decide, by decide⟩
  · have hall : ∀ j < 3, pread (laid sampleSegs ++ sampleTorn) j 4 ≠ magicBytes bmcFrameMagic := by
      decide
    rcases before with _ | ⟨s, _ | ⟨s', before⟩⟩
    · obtain ⟨hjunk, -⟩ := List.cons.inj hsegs
      obtain rfl := Seg.junk.inj hjunk
      right
      by_contra hlt
      simp only [laid, List.flatMap_nil, List.length_nil] at hlt
      exact hall i (by simpa using hlt) hi
    · simp [sampleSegs] at hsegs
    · simp [sampleSegs] at hsegs

/-- One file with junk before the genesis block and a frame cut short behind it. -/
def sampleArchive : Archive where
  files n := if n = 0 then some (sampleSegs, sampleTorn) else none
  layout n segs torn h := by
    split at h
    · obtain ⟨rfl, rfl⟩ := Prod.mk.inj (Option.some.inj h)
      exact sampleSegs_layout
    · cases h
  lt n h := by
    split at h
    · omega
    · cases h
  near n m h hm := by
    split at h
    · simp only [rxMaxMissing] at hm
      omega
    · cases h

theorem archiveReindex_sample :
    ∃ r maxFile front tip tip',
      archiveReindex bmcFrameMagic (sha256d mainGenesis).1 sampleArchive.toDir = some r ∧
      ChainTo (LastCopy sampleArchive.frames) (sha256d mainGenesis).1 (front ++ [tip]) tip ∧
      Written r (front ++ [tip']) ∧ TipLast sampleArchive.toDir r.dir maxFile tip tip' := by
  have hent : (rxEnt 0 3 80 mainGenesis).isSome = true := by decide +kernel
  obtain ⟨x, hx⟩ := Option.isSome_iff_exists.mp hent
  have hhash : x.hash = (sha256d mainGenesis).1 := (rxEnt_eq_some hx).2.2.2.2
  have hframes : x ∈ sampleArchive.frames := by
    refine List.mem_flatMap.mpr ⟨0, by simp, List.mem_filterMap.mpr ⟨(3, mainGenesis), ?_, ?_⟩⟩
    · exact List.mem_singleton_self _
    · have hsize : mainGenesis.length = 80 := by decide
      dsimp only
      rw [List.take_of_length_le (by omega), hsize]
      exact hx
  obtain ⟨r, maxFile, front, tip, tip', hr, hchain, -, -, hwritten, -, -, htip⟩ :=
    archiveReindex_heaviest sampleArchive _ ⟨x, hframes, hhash⟩
  exact ⟨r, maxFile, front, tip, tip', hr, hchain, hwritten, htip⟩

end BitcoinMachineCode.Chain.Reindex
