import BitcoinMachineCode.Mempool.Linearize
import BitcoinMachineCode.Foundation.RealDiagram
import Mathlib.Data.Rat.Floor

/-!
# Chunks and the diagrams they draw

`mpc_chunk_linearization` cuts an order into consecutive groups, and no other cut draws a
diagram that is higher anywhere.  `mpc_diagram_at_least_as_good` compares two orders of one
cluster at the corners of the second only, in whole satoshis.
-/

namespace BitcoinMachineCode.Mempool

open Foundation

/-- A run of members with its totals. -/
def chunkOf (cl : Cluster) (group : List (Fin cl.n)) : Chunk cl.n :=
  ⟨group.toFinset, (group.map cl.fee).sum, (group.map cl.weight).sum⟩

/-- The fee at each real weight, flat after the last chunk. -/
noncomputable def diagramAt {n : Nat} (chunks : List (Chunk n)) (x : ℝ) : ℝ :=
  heightAt (chunks.map Chunk.segment) x

/-- The fee that the chunks get into the budget `bw`, with a slice of the one it ends in. -/
def feeWithin {n : Nat} (bw : Nat) : List (Chunk n) → Nat → Int → Int
  | [], _, af => af
  | c :: ca, aw, af =>
      if u64 (aw + c.weight) ≤ bw then feeWithin bw ca (u64 (aw + c.weight)) (i128 (af + c.fee))
      else
        let room := u64 (bw + 2 ^ 64 - aw)
        if room ≠ 0 ∧ c.weight ≠ 0 then i128 (af + (i128 (c.fee * room)).tdiv c.weight) else af

/-- The walk along the second diagram, at weight `bw` and fee `bf`. -/
def atLeastFrom {n : Nat} (ca : List (Chunk n)) : List (Chunk n) → Nat → Nat → Bool
  | [], _, _ => true
  | c :: cb, bw, bf =>
      let bw := u64 (bw + c.weight)
      let bf := u64 (bf + c.fee)
      if feeWithin bw ca 0 0 < bf then false else atLeastFrom ca cb bw bf

def mpcDiagramAtLeastAsGood (cl : Cluster) (a b : List (Fin cl.n)) : Bool :=
  match mpcChunkLinearization cl a, mpcChunkLinearization cl b with
  | some ca, some cb => atLeastFrom ca cb 0 0
  | _, _ => false

variable {cl : Cluster}

/-! ## The chunks are consecutive -/

theorem chunkOf_append (h : Small cl) {p g : List (Fin cl.n)} (hnodup : (p ++ g).Nodup) :
    (⟨(chunkOf cl g).members ∪ (chunkOf cl p).members,
      u64 ((chunkOf cl g).fee + (chunkOf cl p).fee),
      u64 ((chunkOf cl g).weight + (chunkOf cl p).weight)⟩ : Chunk cl.n) = chunkOf cl (p ++ g) := by
  have hsum : ∀ f : Fin cl.n → Nat, (g.map f).sum + (p.map f).sum = ((p ++ g).map f).sum := by
    intro f
    rw [List.map_append, List.sum_append, add_comm]
  have htotal : ∀ f : Fin cl.n → Nat, ((p ++ g).map f).sum ≤ ∑ i, f i := by
    intro f
    rw [← List.sum_toFinset f hnodup]
    exact sum_le_total f _
  unfold chunkOf
  simp only
  rw [hsum, hsum, u64_of_lt (lt_of_le_of_lt (htotal _) h.fee),
    u64_of_lt (lt_of_le_of_lt (htotal _) h.weight), List.toFinset_append, Finset.union_comm]

theorem absorbChunk_groups (h : Small cl) {out : List (List (Fin cl.n))} {g : List (Fin cl.n)}
    (hout : [] ∉ out) (hg : g ≠ []) (hnodup : (out.reverse.flatten ++ g).Nodup) :
    ∃ out' : List (List (Fin cl.n)),
      absorbChunk (out.map (chunkOf cl)) (chunkOf cl g) = out'.map (chunkOf cl) ∧
        [] ∉ out' ∧ out'.reverse.flatten = out.reverse.flatten ++ g := by
  induction out generalizing g with
  | nil => exact ⟨[g], rfl, by simpa using hg.symm, by simp⟩
  | cons p out ih =>
      rw [List.mem_cons, not_or] at hout
      have hsplit : (p :: out).reverse.flatten ++ g = out.reverse.flatten ++ (p ++ g) := by simp
      rw [hsplit] at hnodup ⊢
      rw [List.map_cons]
      unfold absorbChunk
      split
      · rw [chunkOf_append h (List.nodup_append.mp hnodup).2.1]
        exact ih hout.2 (fun hnil => hg (List.append_eq_nil_iff.mp hnil).2) hnodup
      · refine ⟨g :: p :: out, rfl, ?_, by simp⟩
        rw [List.mem_cons, List.mem_cons, not_or, not_or]
        exact ⟨hg.symm, hout⟩

theorem mpcChunkLinearization_groups (h : Small cl) {lin : List (Fin cl.n)} (hnodup : lin.Nodup)
    (hlen : lin.length = cl.n) :
    ∃ groups : List (List (Fin cl.n)),
      mpcChunkLinearization cl lin = some (groups.map (chunkOf cl)) ∧ [] ∉ groups ∧
      groups.flatten = lin := by
  have hfold : ∀ (rest : List (Fin cl.n)) (out : List (List (Fin cl.n))), [] ∉ out →
      (out.reverse.flatten ++ rest).Nodup →
      ∃ out' : List (List (Fin cl.n)),
        (rest.map (memberChunk cl)).foldl absorbChunk (out.map (chunkOf cl)) =
          out'.map (chunkOf cl) ∧ [] ∉ out' ∧
        out'.reverse.flatten = out.reverse.flatten ++ rest := by
    intro rest
    induction rest with
    | nil => exact fun out hout _ => ⟨out, rfl, hout, by simp⟩
    | cons i rest ih =>
        intro out hout hnodup
        have hsplit : out.reverse.flatten ++ i :: rest = (out.reverse.flatten ++ [i]) ++ rest := by
          simp
        rw [hsplit] at hnodup ⊢
        obtain ⟨mid, heq, hmid, hflat⟩ := absorbChunk_groups h hout (List.cons_ne_nil i [])
          (List.nodup_append.mp hnodup).1
        have hmember : chunkOf cl [i] = memberChunk cl i := by simp [chunkOf, memberChunk]
        rw [← hflat] at hnodup ⊢
        obtain ⟨out', heq', hout', hflat'⟩ := ih mid hmid hnodup
        refine ⟨out', ?_, hout', hflat'⟩
        rw [List.map_cons, List.foldl_cons, ← hmember, heq]
        exact heq'
  obtain ⟨out, heq, hout, hflat⟩ := hfold lin [] List.not_mem_nil (by simpa using hnodup)
  refine ⟨out.reverse, ?_, by simpa using hout, by simpa using hflat⟩
  unfold mpcChunkLinearization
  rw [if_pos ⟨hnodup, hlen⟩, List.map_reverse]
  exact congrArg (fun out => some out.reverse) heq

/-! ## No cut is better -/

theorem segment_chunkOf (group : List (Fin cl.n)) :
    (chunkOf cl group).segment = total (group.map (single cl.fee cl.weight)) := by
  unfold chunkOf Chunk.segment total
  simp only [List.map_map]
  congr 1
  · induction group with
    | nil => rfl
    | cons i group ih =>
        simp only [List.map_cons, List.sum_cons, Nat.cast_add]
        rw [ih]
        rfl
  · induction group with
    | nil => rfl
    | cons i group ih =>
        simp only [List.map_cons, List.sum_cons, Nat.cast_add]
        rw [ih]
        rfl

theorem segments_chunkOf (groups : List (List (Fin cl.n))) :
    (groups.map (chunkOf cl)).map Chunk.segment =
      (groups.map fun g => g.map (single cl.fee cl.weight)).map total := by
  rw [List.map_map, List.map_map]
  exact List.map_congr_left fun g _ => segment_chunkOf g

theorem forward_chunkOf (hw : ∀ i, 0 < cl.weight i) {groups : List (List (Fin cl.n))}
    (hne : [] ∉ groups) : Forward ((groups.map (chunkOf cl)).map Chunk.segment) := by
  intro s hs
  rw [List.map_map] at hs
  obtain ⟨g, hg, rfl⟩ := List.mem_map.mp hs
  cases g with
  | nil => exact absurd hg hne
  | cons i g =>
      have := hw i
      refine Nat.cast_pos.mpr ?_
      simp only [chunkOf, List.map_cons, List.sum_cons]
      omega

/-- What is known of the diagram of the chunks of an order. -/
theorem chunks_spec (h : Small cl) (hw : ∀ i, 0 < cl.weight i) {lin : List (Fin cl.n)}
    {chunks : List (Chunk cl.n)} (hchunks : mpcChunkLinearization cl lin = some chunks) :
    Forward (chunks.map Chunk.segment) ∧ Falling (chunks.map Chunk.segment) ∧
      (∀ s ∈ chunks.map Chunk.segment, 0 ≤ s.rise) ∧
      ∀ r, peak r (chunks.map Chunk.segment) = peak r (lin.map (single cl.fee cl.weight)) := by
  have hvalid : lin.Nodup ∧ lin.length = cl.n := by
    by_contra hnot
    unfold mpcChunkLinearization at hchunks
    rw [if_neg hnot] at hchunks
    cases hchunks
  obtain ⟨chunks', heq, hseg⟩ := mpcChunkLinearization_spec h hw hvalid.1 hvalid.2
  obtain rfl : chunks' = chunks := Option.some.inj (heq.symm.trans hchunks)
  rw [hseg]
  obtain ⟨hfwd, hfall, hpeak⟩ := joined_spec (forward_single (fun i _ => hw i) fun i (_ : i ∈ lin) => Finset.mem_univ i)
  exact ⟨hfwd, hfall, rise_nonneg_joined (rise_nonneg_single lin), hpeak⟩

theorem not_below_iff {n : Nat} (c d : Chunk n) :
    ¬ Segment.Below c.segment d.segment ↔ d.fee * c.weight ≤ c.fee * d.weight := by
  simp only [Segment.Below, Chunk.segment, not_lt]
  norm_cast

theorem nodup_of_perm {lin : List (Fin cl.n)} (h : lin.Perm (List.finRange cl.n)) :
    lin.Nodup ∧ lin.length = cl.n := by
  refine ⟨h.nodup_iff.mpr (List.nodup_finRange _), ?_⟩
  rw [h.length_eq, List.length_finRange]

/-- The chunks of an order are consecutive and have their exact totals, their feerates do
not increase, and no other cut of the order has a diagram that is higher anywhere. -/
theorem mpcChunkLinearization_best_cut (cl : Cluster) (hw : ∀ i, 0 < cl.weight i)
    (hsmall : Small cl) (lin : List (Fin cl.n)) (hlin : lin.Perm (List.finRange cl.n)) :
    ∃ groups : List (List (Fin cl.n)),
      mpcChunkLinearization cl lin = some (groups.map (chunkOf cl)) ∧
      [] ∉ groups ∧ groups.flatten = lin ∧
      ((groups.map (chunkOf cl)).Pairwise fun c d => d.fee * c.weight ≤ c.fee * d.weight) ∧
      ∀ cuts : List (List (Fin cl.n)), [] ∉ cuts → cuts.flatten = lin → ∀ x : ℝ, 0 ≤ x →
        diagramAt (cuts.map (chunkOf cl)) x ≤ diagramAt (groups.map (chunkOf cl)) x := by
  obtain ⟨hnodup, hlen⟩ := nodup_of_perm hlin
  obtain ⟨groups, hchunks, hne, hflat⟩ := mpcChunkLinearization_groups hsmall hnodup hlen
  obtain ⟨hfwd, hfall, hrise, hpeak⟩ := chunks_spec hsmall hw hchunks
  refine ⟨groups, hchunks, hne, hflat, ?_, fun cuts hcuts hcut x hx => ?_⟩
  · refine (List.pairwise_map.mp hfall).imp fun {c d} hnot => ?_
    exact (not_below_iff c d).mp hnot
  · have hcutfwd := forward_chunkOf hw hcuts
    refine (heightAt_le_iff hcutfwd hfwd).mpr (fun y hy => ?_) x hx
    refine height_le_of_peak_le hcutfwd hfwd hfall hrise (fun r _ => ?_) hy
    calc peak r ((cuts.map (chunkOf cl)).map Chunk.segment)
        = peak r ((cuts.map fun g => g.map (single cl.fee cl.weight)).map total) := by
          rw [segments_chunkOf]
      _ ≤ peak r (cuts.map fun g => g.map (single cl.fee cl.weight)).flatten :=
          peak_map_total_le r _
      _ = peak r (lin.map (single cl.fee cl.weight)) := by rw [← List.map_flatten, hcut]
      _ = peak r ((groups.map (chunkOf cl)).map Chunk.segment) := (hpeak r).symm

def sampleOrder : List (Fin sampleCluster.n) := List.finRange 3

theorem mpcChunkLinearization_best_cut_sample :
    ∃ groups : List (List (Fin sampleCluster.n)),
      mpcChunkLinearization sampleCluster sampleOrder =
        some (groups.map (chunkOf sampleCluster)) ∧
      [] ∉ groups ∧ groups.flatten = sampleOrder ∧
      ((groups.map (chunkOf sampleCluster)).Pairwise fun c d =>
        d.fee * c.weight ≤ c.fee * d.weight) ∧
      ∀ cuts : List (List (Fin sampleCluster.n)), [] ∉ cuts → cuts.flatten = sampleOrder →
        ∀ x : ℝ, 0 ≤ x → diagramAt (cuts.map (chunkOf sampleCluster)) x ≤
          diagramAt (groups.map (chunkOf sampleCluster)) x :=
  mpcChunkLinearization_best_cut sampleCluster (by decide) ⟨by decide, by decide, by decide⟩
    sampleOrder (List.Perm.refl _)

/-! ## Comparing two orders -/

/-- The fee within a budget is the height of the diagram there, rounded down. -/
theorem feeWithin_eq (h : Small cl) {ca : List (Chunk cl.n)} (bw aw af : Nat)
    (hpos : ∀ c ∈ ca, 0 < c.weight) (hfee : af + (ca.map Chunk.fee).sum ≤ ∑ i, cl.fee i)
    (hweight : aw + (ca.map Chunk.weight).sum ≤ ∑ i, cl.weight i) (hle : aw ≤ bw)
    (hbw : bw < 2 ^ 64) :
    feeWithin bw ca aw af = af + ⌊height (ca.map Chunk.segment) (bw - aw : Nat)⌋ := by
  induction ca generalizing aw af with
  | nil => simp [feeWithin]
  | cons c ca ih =>
      have hc := hpos c List.mem_cons_self
      have hrest : ∀ d ∈ ca, 0 < d.weight := fun d hd => hpos d (List.mem_cons_of_mem _ hd)
      have hfwd : Forward ((c :: ca).map Chunk.segment) := by
        intro s hs
        obtain ⟨d, hd, rfl⟩ := List.mem_map.mp hs
        exact Nat.cast_pos.mpr (hpos d hd)
      simp only [List.map_cons, List.sum_cons] at hfee hweight hfwd ⊢
      have htotal := h.weight
      have htotal' := h.fee
      unfold feeWithin
      rw [u64_of_lt (x := aw + c.weight) (by omega)]
      by_cases hfit : aw + c.weight ≤ bw
      · have hsum : i128 ((af : Int) + c.fee) = (af + c.fee : Nat) := by
          rw [← Int.natCast_add]
          exact i128_of_lt (by omega) (by omega)
        have hrun : c.segment.run ≤ ((bw - aw : Nat) : ℚ) := by
          unfold Chunk.segment
          exact Nat.cast_le.mpr (by omega)
        have hstep : ((bw - aw : Nat) : ℚ) - c.segment.run = (bw - (aw + c.weight) : Nat) := by
          unfold Chunk.segment
          rw [← Nat.sub_sub, Nat.cast_sub (by omega : c.weight ≤ bw - aw)]
        rw [if_pos hfit, hsum, ih _ _ hrest (by omega) (by omega) hfit,
          height_cons_of_run_le hfwd hrun, hstep]
        have hrise : c.segment.rise = ((c.fee : Int) : ℚ) := by
          unfold Chunk.segment
          push_cast
          rfl
        rw [hrise, Int.floor_intCast_add]
        push_cast
        ring
      · have hroom : u64 (bw + 2 ^ 64 - aw) = bw - aw := by
          unfold u64
          omega
        have hslice : height (c.segment :: ca.map Chunk.segment) (bw - aw : Nat) =
            ((c.fee * (bw - aw) : Nat) : ℚ) / (c.weight : ℚ) := by
          rw [height_cons, if_pos]
          · unfold Chunk.segment
            push_cast
            rfl
          · unfold Chunk.segment
            exact Nat.cast_le.mpr (by omega)
        have hprod : c.fee * (bw - aw) < 2 ^ 127 := h.mul_lt (by omega) (by omega)
        have hquot : c.fee * (bw - aw) / c.weight ≤ c.fee := by
          refine Nat.div_le_of_le_mul ?_
          rw [mul_comm c.weight]
          exact Nat.mul_le_mul_left _ (by omega)
        have hfloor : ⌊((c.fee * (bw - aw) : Nat) : ℚ) / (c.weight : ℚ)⌋ =
            ((c.fee * (bw - aw) / c.weight : Nat) : Int) := by
          rw [Rat.floor_natCast_div_natCast]
          rfl
        rw [if_neg hfit, hroom, hslice, hfloor]
        simp only
        by_cases hzero : bw - aw = 0
        · rw [if_neg (by omega), hzero]
          simp
        · rw [if_pos ⟨hzero, hc.ne'⟩, i128_mul hprod, ← Int.ofNat_tdiv, ← Int.natCast_add]
          generalize c.fee * (bw - aw) / c.weight = slice at hquot
          exact i128_of_lt (by omega) (by omega)

/-- What is summed up in each chunk is summed up over the members. -/
theorem sum_chunks {f : Chunk cl.n → Nat} {m : Fin cl.n → Nat}
    (hf : ∀ group, f (chunkOf cl group) = (group.map m).sum) (groups : List (List (Fin cl.n))) :
    ((groups.map (chunkOf cl)).map f).sum = (groups.flatten.map m).sum := by
  induction groups with
  | nil => rfl
  | cons g groups ih =>
      simp only [List.map_cons, List.sum_cons, List.flatten_cons, List.map_append, List.sum_append]
      rw [ih, hf]

theorem sum_fee_chunks (groups : List (List (Fin cl.n))) :
    ((groups.map (chunkOf cl)).map Chunk.fee).sum = (groups.flatten.map cl.fee).sum :=
  sum_chunks (fun _ => rfl) groups

theorem sum_weight_chunks (groups : List (List (Fin cl.n))) :
    ((groups.map (chunkOf cl)).map Chunk.weight).sum = (groups.flatten.map cl.weight).sum :=
  sum_chunks (fun _ => rfl) groups

theorem within_chunks (h : Small cl) (hw : ∀ i, 0 < cl.weight i) {lin : List (Fin cl.n)}
    (hlin : lin.Perm (List.finRange cl.n)) :
    ∃ chunks, mpcChunkLinearization cl lin = some chunks ∧ Within cl chunks 0 0 := by
  obtain ⟨hnodup, hlen⟩ := nodup_of_perm hlin
  obtain ⟨groups, hchunks, hne, hflat⟩ := mpcChunkLinearization_groups h hnodup hlen
  have htotal : ∀ f : Fin cl.n → Nat, (lin.map f).sum ≤ ∑ i, f i := by
    intro f
    rw [← List.sum_toFinset f hnodup]
    exact sum_le_total f _
  refine ⟨_, hchunks, ?_, ?_, fun c hc => ?_⟩
  · rw [sum_fee_chunks, hflat, add_zero]
    exact htotal cl.fee
  · rw [sum_weight_chunks, hflat, add_zero]
    exact htotal cl.weight
  · have hrun := forward_chunkOf hw hne c.segment (List.mem_map_of_mem hc)
    exact Nat.cast_pos.mp hrun

/-- The walk asks the question at every corner. -/
theorem atLeastFrom_iff (h : Small cl) {ca cb : List (Chunk cl.n)} (hca : Within cl ca 0 0)
    {bw bf : Nat} (hcb : Within cl cb bf bw) :
    atLeastFrom ca cb bw bf = true ↔ ∀ c p q, cb = p ++ c :: q →
      (bf : ℚ) + (((p ++ [c]).map Chunk.segment).map Segment.rise).sum ≤
        height (ca.map Chunk.segment) (bw + (((p ++ [c]).map Chunk.segment).map Segment.run).sum) := by
  induction cb generalizing bw bf with
  | nil => simp [atLeastFrom]
  | cons d cb ih =>
      have hfee := hcb.fee
      have hweight := hcb.weight
      simp only [List.map_cons, List.sum_cons] at hfee hweight
      have htotal := h.weight
      have htotal' := h.fee
      have hnext : Within cl cb (bf + d.fee) (bw + d.weight) :=
        ⟨by omega, by omega, fun c hc => hcb.pos c (List.mem_cons_of_mem _ hc)⟩
      unfold atLeastFrom
      rw [u64_of_lt (x := bw + d.weight) (by omega), u64_of_lt (x := bf + d.fee) (by omega)]
      simp only
      have hfits := feeWithin_eq h (bw + d.weight) 0 0 hca.pos
        (by simpa using hca.fee) (by simpa using hca.weight) (Nat.zero_le _) (by omega)
      have hhere : ¬ feeWithin (bw + d.weight) ca 0 0 < ((bf + d.fee : Nat) : Int) ↔
          (bf : ℚ) + (([d].map Chunk.segment).map Segment.rise).sum ≤
            height (ca.map Chunk.segment)
              (bw + (([d].map Chunk.segment).map Segment.run).sum) := by
        rw [Nat.cast_zero] at hfits
        rw [hfits, not_lt, zero_add, Int.le_floor]
        simp [Chunk.segment]
      have hshift : ∀ p : List (Chunk cl.n),
          (bf : ℚ) + (((d :: p).map Chunk.segment).map Segment.rise).sum =
            ((bf + d.fee : Nat) : ℚ) + ((p.map Chunk.segment).map Segment.rise).sum ∧
          (bw : ℚ) + (((d :: p).map Chunk.segment).map Segment.run).sum =
            ((bw + d.weight : Nat) : ℚ) + ((p.map Chunk.segment).map Segment.run).sum := by
        intro p
        simp only [List.map_cons, List.sum_cons, Chunk.segment]
        push_cast
        constructor <;> ring
      by_cases hlt : feeWithin (bw + d.weight) ca 0 0 < ((bf + d.fee : Nat) : Int)
      · rw [if_pos hlt]
        simp only [Bool.false_eq_true, false_iff]
        intro hall
        exact hhere.mpr (hall d [] cb rfl) hlt
      · rw [if_neg hlt, ih hnext]
        constructor
        · intro hall c p q heq
          cases p with
          | nil =>
              obtain ⟨rfl, -⟩ := List.cons.inj heq
              exact hhere.mp hlt
          | cons e p =>
              obtain ⟨rfl, hrest⟩ := List.cons.inj heq
              rw [List.cons_append, (hshift _).1, (hshift _).2]
              exact hall c p q hrest
        · intro hall c p q heq
          have := hall c (d :: p) q (by rw [heq]; rfl)
          rw [List.cons_append, (hshift _).1, (hshift _).2] at this
          exact this

theorem atLeastFrom_iff_diagramAt (h : Small cl) (hw : ∀ i, 0 < cl.weight i)
    {a b : List (Fin cl.n)} {ca cb : List (Chunk cl.n)}
    (ha : mpcChunkLinearization cl a = some ca) (hb : mpcChunkLinearization cl b = some cb)
    (hca : Within cl ca 0 0) (hcb : Within cl cb 0 0) :
    atLeastFrom ca cb 0 0 = true ↔ ∀ x : ℝ, 0 ≤ x → diagramAt cb x ≤ diagramAt ca x := by
  obtain ⟨hfwd, hfall, hrise, -⟩ := chunks_spec h hw ha
  obtain ⟨hfwd', -, -, -⟩ := chunks_spec h hw hb
  unfold diagramAt
  rw [heightAt_le_iff hfwd' hfwd, height_le_iff_corners hfwd' hfwd hfall hrise,
    atLeastFrom_iff h hca hcb]
  simp only [Nat.cast_zero, zero_add]
  constructor
  · rintro hall p ⟨q, heq⟩
    obtain ⟨front, back, rfl, rfl, rfl⟩ := List.append_eq_map_iff.mp heq
    rcases List.eq_nil_or_concat front with rfl | ⟨front, c, rfl⟩
    · simp [height_zero hfwd]
    · rw [List.concat_eq_append]
      exact hall c front back (by simp)
  · rintro hall c p q rfl
    exact hall _ ⟨(q.map Chunk.segment), by simp⟩

theorem perm_of_chunked {lin : List (Fin cl.n)} {chunks : List (Chunk cl.n)}
    (h : mpcChunkLinearization cl lin = some chunks) : lin.Perm (List.finRange cl.n) := by
  have hvalid : lin.Nodup ∧ lin.length = cl.n := by
    by_contra hnot
    unfold mpcChunkLinearization at h
    rw [if_neg hnot] at h
    cases h
  have hall : lin.toFinset = Finset.univ := by
    refine Finset.eq_univ_of_card _ ?_
    rw [List.toFinset_card_of_nodup hvalid.1, hvalid.2, Fintype.card_fin]
  refine (List.perm_ext_iff_of_nodup hvalid.1 (List.nodup_finRange _)).mpr fun i => ?_
  rw [← List.mem_toFinset, hall]
  simp

theorem atLeastAsGood_of_chunks {a b : List (Fin cl.n)} {ca cb : List (Chunk cl.n)}
    (ha : mpcChunkLinearization cl a = some ca) (hb : mpcChunkLinearization cl b = some cb) :
    mpcDiagramAtLeastAsGood cl a b = atLeastFrom ca cb 0 0 := by
  unfold mpcDiagramAtLeastAsGood
  rw [ha, hb]

/-- An answer of yes was given about two orders of the members. -/
theorem perm_of_atLeastAsGood {a b : List (Fin cl.n)} (h : mpcDiagramAtLeastAsGood cl a b = true) :
    a.Perm (List.finRange cl.n) ∧ b.Perm (List.finRange cl.n) := by
  unfold mpcDiagramAtLeastAsGood at h
  split at h
  · next ha hb => exact ⟨perm_of_chunked ha, perm_of_chunked hb⟩
  · cases h

/-- The answer is yes exactly when the first diagram is nowhere below the second, so each
order is at least as good as itself and the relation is transitive. -/
theorem mpcDiagramAtLeastAsGood_iff (cl : Cluster) (hw : ∀ i, 0 < cl.weight i)
    (hsmall : Small cl) :
    (∀ a b : List (Fin cl.n), a.Perm (List.finRange cl.n) → b.Perm (List.finRange cl.n) →
      ∃ ca cb, mpcChunkLinearization cl a = some ca ∧ mpcChunkLinearization cl b = some cb ∧
        (mpcDiagramAtLeastAsGood cl a b = true ↔
          ∀ x : ℝ, 0 ≤ x → diagramAt cb x ≤ diagramAt ca x)) ∧
    (∀ a : List (Fin cl.n), a.Perm (List.finRange cl.n) → mpcDiagramAtLeastAsGood cl a a = true) ∧
    ∀ a b c : List (Fin cl.n), mpcDiagramAtLeastAsGood cl a b = true →
      mpcDiagramAtLeastAsGood cl b c = true → mpcDiagramAtLeastAsGood cl a c = true := by
  have hiff : ∀ a b : List (Fin cl.n), a.Perm (List.finRange cl.n) →
      b.Perm (List.finRange cl.n) →
      ∃ ca cb, mpcChunkLinearization cl a = some ca ∧ mpcChunkLinearization cl b = some cb ∧
        (mpcDiagramAtLeastAsGood cl a b = true ↔
          ∀ x : ℝ, 0 ≤ x → diagramAt cb x ≤ diagramAt ca x) := by
    intro a b hperm hperm'
    obtain ⟨ca, ha, hca⟩ := within_chunks hsmall hw hperm
    obtain ⟨cb, hb, hcb⟩ := within_chunks hsmall hw hperm'
    refine ⟨ca, cb, ha, hb, ?_⟩
    rw [atLeastAsGood_of_chunks ha hb]
    exact atLeastFrom_iff_diagramAt hsmall hw ha hb hca hcb
  refine ⟨hiff, fun a hperm => ?_, fun a b c hab hbc => ?_⟩
  · obtain ⟨ca, ca', ha, ha', hyes⟩ := hiff a a hperm hperm
    obtain rfl := Option.some.inj (ha.symm.trans ha')
    exact hyes.mpr fun x _ => le_rfl
  · obtain ⟨hpa, hpb⟩ := perm_of_atLeastAsGood hab
    obtain ⟨-, hpc⟩ := perm_of_atLeastAsGood hbc
    obtain ⟨ca, cb, ha, hb, hab'⟩ := hiff a b hpa hpb
    obtain ⟨cb', cc, hb', hc, hbc'⟩ := hiff b c hpb hpc
    obtain ⟨ca', cc', ha', hc', hac'⟩ := hiff a c hpa hpc
    obtain rfl := Option.some.inj (hb.symm.trans hb')
    obtain rfl := Option.some.inj (ha.symm.trans ha')
    obtain rfl := Option.some.inj (hc.symm.trans hc')
    exact hac'.mpr fun x hx => (hbc'.mp hbc x hx).trans (hab'.mp hab x hx)

theorem mpcDiagramAtLeastAsGood_iff_sample :
    ∃ ca cb, mpcChunkLinearization sampleCluster sampleOrder.reverse = some ca ∧
      mpcChunkLinearization sampleCluster sampleOrder = some cb ∧
      ∀ x : ℝ, 0 ≤ x → diagramAt cb x ≤ diagramAt ca x := by
  obtain ⟨ca, cb, ha, hb, hyes⟩ := (mpcDiagramAtLeastAsGood_iff sampleCluster (by decide)
    ⟨by decide, by decide, by decide⟩).1 sampleOrder.reverse sampleOrder
      (List.reverse_perm _) (List.Perm.refl _)
  exact ⟨ca, cb, ha, hb, hyes.mp (by decide)⟩

end BitcoinMachineCode.Mempool
