import BitcoinMachineCode.Foundation.Closure
import Mathlib.Data.List.FinRange

/-!
# Clusters of transactions

The members of a cluster by their indices, with the set of ancestors of each (itself
included), its fee and its weight.  An order of the members is split into chunks, and the
best order is made by cutting off the ancestor-closed set of the highest feerate again and
again.  Sets are bit masks in the source; sums of fees and of weights are kept in 64 bits
and products in 128, with a sign.
-/

namespace BitcoinMachineCode.Mempool

open Foundation Vertex

structure Cluster where
  n : Nat
  ancestors : Fin n → Finset (Fin n)
  fee : Fin n → Nat
  weight : Fin n → Nat

def u64 (x : Nat) : Nat := x % 2 ^ 64

def i128 (x : Int) : Int := x.bmod (2 ^ 128)

def mpcFeerateCmp (feeA wtA feeB wtB : Nat) : Int :=
  if wtA = 0 ∧ wtB = 0 then 0
  else if wtA = 0 then -1
  else if wtB = 0 then 1
  else
    let l := i128 (feeA * wtB)
    let r := i128 (feeB * wtA)
    if l < r then -1 else if r < l then 1 else 0

/-- The loop of `mpc_is_topological` from what is seen on. -/
def topologicalFrom (cl : Cluster) : Finset (Fin cl.n) → List (Fin cl.n) → Bool
  | seen, [] => decide (seen = Finset.univ)
  | seen, idx :: lin =>
      if idx ∈ seen then false
      else if ¬ (cl.ancestors idx).erase idx ⊆ seen then false
      else topologicalFrom cl (insert idx seen) lin

def mpcIsTopological (cl : Cluster) (lin : List (Fin cl.n)) : Bool := topologicalFrom cl ∅ lin

structure Chunk (n : Nat) where
  members : Finset (Fin n)
  fee : Nat
  weight : Nat

/-- The new chunk on top of those so far, which it absorbs while its feerate is higher. -/
def absorbChunk {n : Nat} : List (Chunk n) → Chunk n → List (Chunk n)
  | [], nc => [nc]
  | prev :: out, nc =>
      if 0 < mpcFeerateCmp nc.fee nc.weight prev.fee prev.weight then
        absorbChunk out
          ⟨nc.members ∪ prev.members, u64 (nc.fee + prev.fee), u64 (nc.weight + prev.weight)⟩
      else nc :: prev :: out

def memberChunk (cl : Cluster) (idx : Fin cl.n) : Chunk cl.n :=
  ⟨{idx}, cl.fee idx, cl.weight idx⟩

def mpcChunkLinearization (cl : Cluster) (lin : List (Fin cl.n)) : Option (List (Chunk cl.n)) :=
  if lin.Nodup ∧ lin.length = cl.n then
    some ((lin.map (memberChunk cl)).foldl absorbChunk []).reverse
  else none

def mpcSetTotals (cl : Cluster) (set : Finset (Fin cl.n)) : Nat × Nat :=
  (u64 (∑ i ∈ set, cl.fee i), u64 (∑ i ∈ set, cl.weight i))

/-- The vertices as the source numbers them. -/
def vertices (n : Nat) : List (Vertex (Fin n)) := (List.finRange n).map member ++ [source, sink]

/-- The part of `rem` on the source's side of the smallest cut, and its weight; none when
the search for the cut does not end. -/
def mpcMaxClosure (cl : Cluster) (rem : Finset (Fin cl.n)) (p : Fin cl.n → Int) :
    Option (Finset (Fin cl.n) × Int) :=
  let pos := positive rem p
  let inf := pos + 1
  let fuel := pos.toNat + 1
  (maxFlow (vertices cl.n) source sink inf fuel fuel
    (closureCap cl.ancestors rem p inf) 0).map fun (cap, flow) =>
      (reached (levels (openArc cap) (vertices cl.n) source), pos - flow)

/-- The best set so far, with its fee and its weight. -/
structure Best (n : Nat) where
  set : Finset (Fin n)
  fee : Nat
  weight : Nat

def bestAncestorStep (cl : Cluster) (rem : Finset (Fin cl.n)) (best : Best cl.n)
    (i : Fin cl.n) : Option (Best cl.n) :=
  if i ∉ rem then some best
  else
    let set := cl.ancestors i ∩ rem
    if i ∉ set then none
    else
      let totals := mpcSetTotals cl set
      if best.set = ∅ ∨ 0 < mpcFeerateCmp totals.1 totals.2 best.fee best.weight ∨
          (mpcFeerateCmp totals.1 totals.2 best.fee best.weight = 0 ∧ totals.2 < best.weight) then
        some ⟨set, totals.1, totals.2⟩
      else some best

def bestAncestorSet (cl : Cluster) (rem : Finset (Fin cl.n)) : Option (Best cl.n) :=
  (List.finRange cl.n).foldlM (bestAncestorStep cl rem) ⟨∅, 0, 0⟩

/-- What each member has above the current ratio. -/
def excessAt (cl : Cluster) (rem : Finset (Fin cl.n)) (best : Best cl.n) (v : Fin cl.n) : Int :=
  if v ∈ rem then
    i128 (i128 (cl.fee v * best.weight) - i128 (best.fee * cl.weight v))
  else 0

/-- The rounds that look for a closed set of a higher feerate. -/
def dinkelbach (cl : Cluster) (rem : Finset (Fin cl.n)) : Nat → Best cl.n → Option (Best cl.n)
  | 0, best => some best
  | rounds + 1, best =>
      if best.weight = 0 then some best
      else
        match mpcMaxClosure cl rem (excessAt cl rem best) with
        | none => none
        | some (s, val) =>
            if val ≤ 0 ∨ s = ∅ then some best
            else
              let totals := mpcSetTotals cl s
              if mpcFeerateCmp totals.1 totals.2 best.fee best.weight ≤ 0 then some best
              else dinkelbach cl rem rounds ⟨s, totals.1, totals.2⟩

/-- The lowest index to do whose ancestors in the set are placed. -/
def nextPlaced (cl : Cluster) (best placed todo : Finset (Fin cl.n)) : Option (Fin cl.n) :=
  (List.finRange cl.n).find? fun i =>
    decide (i ∈ todo) && decide ((cl.ancestors i ∩ best).erase i ⊆ placed)

def emit (cl : Cluster) (best : Finset (Fin cl.n)) :
    Nat → Finset (Fin cl.n) → Finset (Fin cl.n) → List (Fin cl.n) → Option (List (Fin cl.n))
  | 0, _, todo, lin => if todo = ∅ then some lin else none
  | k + 1, placed, todo, lin =>
      if todo = ∅ then some lin
      else
        match nextPlaced cl best placed todo with
        | none => none
        | some i => emit cl best k (insert i placed) (todo.erase i) (lin ++ [i])

def mpcMaxCluster : Nat := 64

/-- The rounds of `mpc_linearize_optimal` while something remains. -/
def linearizeLoop (cl : Cluster) :
    Nat → Finset (Fin cl.n) → List (Fin cl.n) → Option (List (Fin cl.n))
  | 0, rem, lin => if rem = ∅ then some lin else none
  | k + 1, rem, lin =>
      if rem = ∅ then some lin
      else do
        let first ← bestAncestorSet cl rem
        if first.set = ∅ then none
        else
          let best ← dinkelbach cl rem (4 * mpcMaxCluster) first
          let lin ← emit cl best.set cl.n ∅ best.set lin
          linearizeLoop cl k (rem \ best.set) lin

def mpcLinearizeOptimal (cl : Cluster) : Option (List (Fin cl.n)) :=
  if mpcMaxCluster < cl.n then none
  else do
    let lin ← linearizeLoop cl cl.n Finset.univ []
    if lin.length = cl.n then some lin else none

/-! ## Sizes -/

/-- No sum of fees or weights leaves 64 bits and no product of the two leaves 128. -/
structure Small (cl : Cluster) : Prop where
  fee : ∑ i, cl.fee i < 2 ^ 64
  weight : ∑ i, cl.weight i < 2 ^ 64
  product : (∑ i, cl.fee i) * (∑ i, cl.weight i) < 2 ^ 127

theorem u64_of_lt {x : Nat} (h : x < 2 ^ 64) : u64 x = x := Nat.mod_eq_of_lt h

theorem i128_of_lt {x : Int} (hlow : -2 ^ 127 ≤ x) (hhigh : x < 2 ^ 127) : i128 x = x := by
  unfold i128
  refine Int.bmod_eq_of_le ?_ ?_
  · norm_num at hlow ⊢
    omega
  · norm_num at hhigh ⊢
    omega

theorem i128_mul {a b : Nat} (h : a * b < 2 ^ 127) : i128 ((a : Int) * b) = (a * b : Nat) := by
  rw [← Int.natCast_mul]
  refine i128_of_lt ?_ ?_
  · have := Int.natCast_nonneg (a * b)
    omega
  · exact_mod_cast h

/-- With positive weights and products in range the feerates are compared as fractions. -/
theorem mpcFeerateCmp_pos_iff {feeA wtA feeB wtB : Nat} (hA : 0 < wtA) (hB : 0 < wtB)
    (hl : feeA * wtB < 2 ^ 127) (hr : feeB * wtA < 2 ^ 127) :
    0 < mpcFeerateCmp feeA wtA feeB wtB ↔ feeB * wtA < feeA * wtB := by
  unfold mpcFeerateCmp
  rw [if_neg (by omega), if_neg hA.ne', if_neg hB.ne', i128_mul hl, i128_mul hr]
  simp only [Nat.cast_lt]
  split
  · next h => simp [h.le]
  · split
    · next h => simp [h]
    · next h => simp [h]

theorem mpcFeerateCmp_neg_iff {feeA wtA feeB wtB : Nat} (hA : 0 < wtA) (hB : 0 < wtB)
    (hl : feeA * wtB < 2 ^ 127) (hr : feeB * wtA < 2 ^ 127) :
    mpcFeerateCmp feeA wtA feeB wtB < 0 ↔ feeA * wtB < feeB * wtA := by
  unfold mpcFeerateCmp
  rw [if_neg (by omega), if_neg hA.ne', if_neg hB.ne', i128_mul hl, i128_mul hr]
  simp only [Nat.cast_lt]
  split
  · next h => simp [h]
  · next h =>
      split
      · next h' => simp [h'.le]
      · simp [h]

variable {cl : Cluster}

theorem sum_le_total (f : Fin cl.n → Nat) (set : Finset (Fin cl.n)) : ∑ i ∈ set, f i ≤ ∑ i, f i :=
  Finset.sum_le_sum_of_subset (Finset.subset_univ set)

theorem Small.mul_lt (h : Small cl) {f w : Nat} (hf : f ≤ ∑ i, cl.fee i)
    (hw : w ≤ ∑ i, cl.weight i) : f * w < 2 ^ 127 :=
  lt_of_le_of_lt (Nat.mul_le_mul hf hw) h.product

theorem Small.setTotals (h : Small cl) (set : Finset (Fin cl.n)) :
    mpcSetTotals cl set = (∑ i ∈ set, cl.fee i, ∑ i ∈ set, cl.weight i) := by
  unfold mpcSetTotals
  rw [u64_of_lt (lt_of_le_of_lt (sum_le_total _ set) h.fee),
    u64_of_lt (lt_of_le_of_lt (sum_le_total _ set) h.weight)]

/-! ## Orders and chunks -/

theorem topologicalFrom_iff {seen : Finset (Fin cl.n)} {lin : List (Fin cl.n)} :
    topologicalFrom cl seen lin = true ↔
      lin.Nodup ∧ (∀ i ∈ lin, i ∉ seen) ∧ (∀ i, i ∈ seen ∨ i ∈ lin) ∧
        ∀ pre i post, lin = pre ++ i :: post → ∀ u ∈ cl.ancestors i, u ≠ i → u ∈ seen ∨ u ∈ pre := by
  induction lin generalizing seen with
  | nil =>
      simp only [topologicalFrom, decide_eq_true_eq, List.nodup_nil, List.not_mem_nil, or_false]
      constructor
      · rintro rfl
        exact ⟨trivial, nofun, fun i => Finset.mem_univ i, fun pre i post h => by simp at h⟩
      · rintro ⟨-, -, hall, -⟩
        exact Finset.eq_univ_iff_forall.mpr hall
  | cons idx lin ih =>
      unfold topologicalFrom
      split
      · next hin =>
          simp only [Bool.false_eq_true, false_iff]
          rintro ⟨-, hnew, -⟩
          exact hnew idx List.mem_cons_self hin
      · next hout =>
          split
          · next hanc =>
              simp only [Bool.false_eq_true, false_iff]
              rintro ⟨-, -, -, hbefore⟩
              refine hanc fun u hu => ?_
              obtain ⟨hne, hu⟩ := Finset.mem_erase.mp hu
              rcases hbefore [] idx lin rfl u hu hne with hu | hu
              · exact hu
              · exact absurd hu List.not_mem_nil
          · next hanc =>
              rw [not_not] at hanc
              rw [ih, List.nodup_cons]
              constructor
              · rintro ⟨hnodup, hnew, hall, hbefore⟩
                refine ⟨⟨fun hmem => hnew idx hmem (Finset.mem_insert_self _ _), hnodup⟩,
                  fun i hi => ?_, fun i => ?_, fun pre i post heq u hu hne => ?_⟩
                · rcases List.mem_cons.mp hi with rfl | hi
                  · exact hout
                  · exact fun hseen => hnew i hi (Finset.mem_insert_of_mem hseen)
                · rcases hall i with hseen | hmem
                  · rcases Finset.mem_insert.mp hseen with rfl | hseen
                    · exact .inr List.mem_cons_self
                    · exact .inl hseen
                  · exact .inr (List.mem_cons_of_mem _ hmem)
                · cases pre with
                  | nil =>
                      obtain ⟨rfl, -⟩ := List.cons.inj heq
                      exact .inl (hanc (Finset.mem_erase.mpr ⟨hne, hu⟩))
                  | cons v pre =>
                      obtain ⟨rfl, htail⟩ := List.cons.inj heq
                      rcases hbefore pre i post htail u hu hne with hseen | hmem
                      · rcases Finset.mem_insert.mp hseen with rfl | hseen
                        · exact .inr List.mem_cons_self
                        · exact .inl hseen
                      · exact .inr (List.mem_cons_of_mem _ hmem)
              · rintro ⟨⟨hidx, hnodup⟩, hnew, hall, hbefore⟩
                refine ⟨hnodup, fun i hi hseen => ?_, fun i => ?_, fun pre i post heq u hu hne => ?_⟩
                · rcases Finset.mem_insert.mp hseen with rfl | hseen
                  · exact hidx hi
                  · exact hnew i (List.mem_cons_of_mem _ hi) hseen
                · rcases hall i with hseen | hmem
                  · exact .inl (Finset.mem_insert_of_mem hseen)
                  · rcases List.mem_cons.mp hmem with rfl | hmem
                    · exact .inl (Finset.mem_insert_self _ _)
                    · exact .inr hmem
                · rcases hbefore (idx :: pre) i post (by rw [heq]; rfl) u hu hne with hseen | hmem
                  · exact .inl (Finset.mem_insert_of_mem hseen)
                  · rcases List.mem_cons.mp hmem with rfl | hmem
                    · exact .inl (Finset.mem_insert_self _ _)
                    · exact .inr hmem

theorem mpcIsTopological_iff {lin : List (Fin cl.n)} :
    mpcIsTopological cl lin = true ↔ Topological cl.ancestors Finset.univ lin := by
  unfold mpcIsTopological
  rw [topologicalFrom_iff]
  constructor
  · rintro ⟨hnodup, -, hall, hbefore⟩
    refine ⟨hnodup, ?_, fun pre i post heq u hu _ hne => ?_⟩
    · refine Finset.eq_univ_iff_forall.mpr fun i => List.mem_toFinset.mpr ?_
      exact (hall i).resolve_left (Finset.notMem_empty i)
    · exact .inr ((hbefore pre i post heq u hu hne).resolve_left (Finset.notMem_empty u))
  · rintro ⟨hnodup, hall, hbefore⟩
    refine ⟨hnodup, fun i _ => Finset.notMem_empty i, fun i => .inr ?_,
      fun pre i post heq u hu hne => .inr ?_⟩
    · exact List.mem_toFinset.mp (hall ▸ Finset.mem_univ i)
    · exact (hbefore pre i post heq u hu (Finset.mem_univ u) hne).resolve_left List.not_mem_nil

/-- The segment of a chunk in the fee diagram. -/
def Chunk.segment {n : Nat} (c : Chunk n) : Segment := ⟨c.fee, c.weight⟩

/-- Chunks and what is still to come keep within the totals. -/
structure Within (cl : Cluster) (out : List (Chunk cl.n)) (fee weight : Nat) : Prop where
  fee : (out.map Chunk.fee).sum + fee ≤ ∑ i, cl.fee i
  weight : (out.map Chunk.weight).sum + weight ≤ ∑ i, cl.weight i
  pos : ∀ c ∈ out, 0 < c.weight

theorem absorbChunk_spec (h : Small cl) {out : List (Chunk cl.n)} {nc : Chunk cl.n}
    {fee weight : Nat} (hin : Within cl out (nc.fee + fee) (nc.weight + weight))
    (hpos : 0 < nc.weight) :
    (absorbChunk out nc).map Chunk.segment = absorb (out.map Chunk.segment) nc.segment ∧
      Within cl (absorbChunk out nc) fee weight := by
  induction out generalizing nc with
  | nil =>
      refine ⟨rfl, ?_, ?_, ?_⟩
      · simpa [absorbChunk] using hin.fee
      · simpa [absorbChunk] using hin.weight
      · intro c hc
        rw [List.mem_singleton.mp hc]
        exact hpos
  | cons prev out ih =>
      have hfee := hin.fee
      have hweight := hin.weight
      have hprev := hin.pos prev List.mem_cons_self
      simp only [List.map_cons, List.sum_cons] at hfee hweight
      have hcmp := mpcFeerateCmp_pos_iff hpos hprev
        (h.mul_lt (f := nc.fee) (w := prev.weight) (by omega) (by omega))
        (h.mul_lt (f := prev.fee) (w := nc.weight) (by omega) (by omega))
      have hbelow : Segment.Below prev.segment nc.segment ↔
          prev.fee * nc.weight < nc.fee * prev.weight := by
        simp only [Segment.Below, Chunk.segment]
        norm_cast
      unfold absorbChunk
      simp only [List.map_cons, absorb]
      split
      · next hlt =>
          rw [if_pos (hbelow.mpr (hcmp.mp hlt))]
          have hfit : nc.fee + prev.fee < 2 ^ 64 := lt_of_le_of_lt (by omega) h.fee
          have hfit' : nc.weight + prev.weight < 2 ^ 64 := lt_of_le_of_lt (by omega) h.weight
          rw [u64_of_lt hfit, u64_of_lt hfit']
          have hsum : Chunk.segment
              (⟨nc.members ∪ prev.members, nc.fee + prev.fee, nc.weight + prev.weight⟩ :
                Chunk cl.n) = prev.segment + nc.segment := by
            unfold Chunk.segment
            push_cast
            rw [add_comm (nc.fee : ℚ), add_comm (nc.weight : ℚ)]
            rfl
          rw [← hsum]
          refine ih ⟨?_, ?_, fun c hc => hin.pos c (List.mem_cons_of_mem _ hc)⟩ ?_
          · simp only
            omega
          · simp only
            omega
          · exact Nat.add_pos_left hpos _
      · next hnot =>
          rw [if_neg fun hb => hnot (hcmp.mpr (hbelow.mp hb))]
          refine ⟨rfl, ?_, ?_, ?_⟩
          · simp only [List.map_cons, List.sum_cons]
            omega
          · simp only [List.map_cons, List.sum_cons]
            omega
          · intro c hc
            rcases List.mem_cons.mp hc with rfl | hc
            · exact hpos
            · exact hin.pos c hc

/-- The chunks of an order are its segments joined up. -/
theorem mpcChunkLinearization_spec (h : Small cl) (hw : ∀ i, 0 < cl.weight i)
    {lin : List (Fin cl.n)} (hnodup : lin.Nodup) (hlen : lin.length = cl.n) :
    ∃ chunks, mpcChunkLinearization cl lin = some chunks ∧
      chunks.map Chunk.segment = joined (lin.map (single cl.fee cl.weight)) := by
  refine ⟨_, if_pos ⟨hnodup, hlen⟩, ?_⟩
  have hfold : ∀ (rest : List (Fin cl.n)) (out : List (Chunk cl.n)),
      Within cl out (rest.map cl.fee).sum (rest.map cl.weight).sum →
      ((rest.map (memberChunk cl)).foldl absorbChunk out).map Chunk.segment =
        (rest.map (single cl.fee cl.weight)).foldl absorb (out.map Chunk.segment) := by
    intro rest
    induction rest with
    | nil => exact fun _ _ => rfl
    | cons i rest ih =>
        intro out hin
        have hnew : Within cl out ((memberChunk cl i).fee + (rest.map cl.fee).sum)
            ((memberChunk cl i).weight + (rest.map cl.weight).sum) := hin
        obtain ⟨heq, hin'⟩ := absorbChunk_spec h hnew (hw i)
        rw [List.map_cons, List.foldl_cons, ih _ hin', heq]
        rfl
  have htotal : ∀ f : Fin cl.n → Nat, (lin.map f).sum ≤ ∑ i, f i := by
    intro f
    rw [← List.sum_toFinset f hnodup]
    exact sum_le_total f _
  rw [List.map_reverse, hfold lin [] ⟨by simpa using htotal cl.fee, by simpa using htotal cl.weight,
    nofun⟩]
  rfl

end BitcoinMachineCode.Mempool
