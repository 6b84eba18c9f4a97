import BitcoinMachineCode.Foundation.Digits
import BitcoinMachineCode.Foundation.StableSort

/-!
# The radix sort of a flush

`mac_rsort_desc` of `bitcoin_utxo_lsm.asm`: compact entries of the descriptors are sorted by the most
significant digit first between two buffers, and the descriptors are gathered in their order.
-/

namespace BitcoinMachineCode.Storage

open Foundation

/-- A descriptor of 64 bytes; the outpoint key is the first 36. -/
structure Desc where
  bytes : List UInt8
  len : bytes.length = 64

/-- A field of the descriptor as a big-endian number. -/
def Desc.field (d : Desc) (off n : Nat) : Nat := beVal ((d.bytes.drop off).take n)

/-- The outpoint key. -/
def Desc.key (d : Desc) : Nat := d.field 0 36

/-- A compact entry: the first 12 bytes of the key and the place of the descriptor. -/
structure RsEntry where
  hi : UInt64
  lo : UInt32
  idx : UInt32
  deriving Inhabited

def rsEntryOf (i : Nat) (d : Desc) : RsEntry where
  hi := UInt64.ofNat (d.field 0 8)
  lo := UInt32.ofNat (d.field 8 4)
  idx := UInt32.ofNat i

def rsInsMax : Nat := 32

def rsMaxDepth : Nat := 72

section Radix

variable (a : Nat → Desc)

/-- The width of a level's digit. -/
def rsWidth (n bitoff : Nat) : Nat :=
  let w := if n < 65536 then 8 else 12
  if bitoff < 96 then if w ≤ 96 - bitoff then w else 96 - bitoff else 8

/-- The three ways to read a digit: from the high word, from both words, and from the descriptor. -/
def rsDigit (bitoff w : Nat) (e : RsEntry) : Nat :=
  if bitoff < 96 then
    if bitoff + w ≤ 64 then (e.hi.toNat >>> (64 - (bitoff + w))) &&& (2 ^ w - 1)
    else
      ((e.hi.toNat * 2 ^ 64 + (e.lo.toNat * 2 ^ 32 + e.idx.toNat)) >>> (128 - (bitoff + w))) % 2 ^ 64 &&& (2 ^ w - 1)
  else ((a e.idx.toNat).bytes.getD (bitoff >>> 3) 0).toNat

/-- `mac_rs_gt` -/
def macRsGt (x y : RsEntry) : Bool :=
  let dx := a x.idx.toNat
  let dy := a y.idx.toNat
  if x.hi ≠ y.hi then decide (y.hi < x.hi)
  else if x.lo ≠ y.lo then decide (y.lo < x.lo)
  else if dx.field 12 8 ≠ dy.field 12 8 then decide (dy.field 12 8 < dx.field 12 8)
  else if dx.field 20 8 ≠ dy.field 20 8 then decide (dy.field 20 8 < dx.field 20 8)
  else decide (dy.field 28 8 < dx.field 28 8)

/-- The two compact buffers; the second is where the order must end. -/
abbrev RsMem : Type := Bool → Nat → RsEntry

def window (buf : Nat → RsEntry) (off n : Nat) : List RsEntry := items (fun i => buf (off + i)) n

def putWindow (side : Bool) (off : Nat) (xs : List RsEntry) (mem : RsMem) : RsMem := fun s i =>
  if s = side ∧ off ≤ i ∧ i < off + xs.length then xs.getD (i - off) default else mem s i

/-- `mac_rs_isort` -/
def macRsIsort (src : Bool) (off n : Nat) (mem : RsMem) : RsMem :=
  putWindow src off (sortBack (fun v x => macRsGt a x v) (window (mem src) off n)) mem

def leafCopy (src : Bool) (off n : Nat) (mem : RsMem) : RsMem :=
  if src then mem else putWindow true off (window (mem false) off n) mem

/-- One bucket after the scatter; its end is known, and its start is the end before. -/
def bucketStep (sortBucket : Bool → Nat → Nat → RsMem → RsMem) (src : Bool) (off : Nat) (ends : Nat → Nat)
    (p : RsMem × Nat) (d : Nat) : RsMem × Nat :=
  let size := ends d - p.2
  if size = 0 then (p.1, ends d)
  else if size = 1 then
    (if src then putWindow true (off + p.2) [p.1 false (off + p.2)] p.1 else p.1, ends d)
  else (sortBucket (!src) (off + p.2) size p.1, ends d)

theorem rsWidth_pos (n bitoff : Nat) : 0 < rsWidth n bitoff := by
  simp only [rsWidth]
  split_ifs <;> omega

/-- `mac_rsort_rec` on the entries at `off` of one buffer. -/
def macRsortRec (bitoff depth : Nat) (src : Bool) (off n : Nat) (mem : RsMem) : RsMem :=
  if bitoff < 288 then
    if n ≤ rsInsMax ∨ rsMaxDepth ≤ depth then leafCopy src off n (macRsIsort a src off n mem)
    else
      let w := rsWidth n bitoff
      let digit := rsDigit a bitoff w
      let view := fun i => mem src (off + i)
      let cnt := histogram digit view n
      if (List.range (2 ^ w)).any fun d => cnt d == n then macRsortRec (bitoff + w) depth src off n mem
      else
        let s := scatterFrom digit view n ((fun i => mem (!src) (off + i)), starts (2 ^ w) cnt)
        ((List.range (2 ^ w)).foldl
          (bucketStep (macRsortRec (bitoff + w) (depth + 1)) src off s.2)
          (putWindow (!src) off (items s.1 n) mem, 0)).1
  else leafCopy src off n mem
termination_by 288 - bitoff
decreasing_by
  all_goals exact Nat.sub_lt_sub_left ‹_› (Nat.lt_add_of_pos_right (rsWidth_pos _ _))

/-! ## Values of entries -/

/-- The key that an entry stands for. -/
def rsVal (e : RsEntry) : Nat := (e.hi.toNat * 2 ^ 32 + e.lo.toNat) * 2 ^ 192 + (a e.idx.toNat).field 12 24

theorem Desc.field_lt (d : Desc) (off n : Nat) : d.field off n < 256 ^ n := by
  refine (beVal_lt _).trans_le (Nat.pow_le_pow_right (by decide) ?_)
  simp

theorem Desc.field_add (d : Desc) {off m n : Nat} (h : off + m + n ≤ 64) :
    d.field off (m + n) = d.field off m * 256 ^ n + d.field (off + m) n := by
  have hlen : ((d.bytes.drop (off + m)).take n).length = n := by
    rw [List.length_take, List.length_drop, d.len]
    omega
  rw [Desc.field, List.take_add, beVal_append, List.drop_drop, hlen]
  rfl

theorem Desc.field_one (d : Desc) {off : Nat} (h : off < 64) : d.field off 1 = (d.bytes.getD off 0).toNat := by
  have hlt : off < d.bytes.length := by rw [d.len]; exact h
  rw [Desc.field, List.drop_eq_getElem_cons hlt, List.take_succ_cons, List.take_zero]
  simp [List.getD, hlt]

/-- A byte of a field. -/
theorem Desc.field_byte (d : Desc) {off m n : Nat} (h : off + m + 1 + n ≤ 64) :
    d.field off (m + 1 + n) / 256 ^ n % 256 = (d.bytes.getD (off + m) 0).toNat := by
  have hlow := d.field_lt (off + (m + 1)) n
  have hbyte := (d.bytes.getD (off + m) 0).toNat_lt
  rw [d.field_add (by omega), d.field_add (by omega), d.field_one (by omega), Nat.add_comm (_ * 256 ^ n),
    Nat.add_mul_div_right _ _ (Nat.pow_pos (by decide)), Nat.div_eq_of_lt hlow, Nat.zero_add, Nat.pow_one,
    Nat.mul_comm, Nat.mul_add_mod, Nat.mod_eq_of_lt hbyte]

theorem rsVal_rsEntryOf {i : Nat} (hi : i < 2 ^ 32) : rsVal a (rsEntryOf i (a i)) = (a i).key := by
  have hhi : (a i).field 0 8 < 2 ^ 64 := (a i).field_lt 0 8
  have hlo : (a i).field 8 4 < 2 ^ 32 := (a i).field_lt 8 4
  have hidx : (UInt32.ofNat i).toNat = i := by
    rw [UInt32.toNat_ofNat']
    exact Nat.mod_eq_of_lt hi
  rw [Desc.key, show (36 : Nat) = 8 + 4 + 24 from rfl, (a i).field_add (by decide), (a i).field_add (by decide)]
  simp only [rsVal, rsEntryOf, hidx, UInt64.toNat_ofNat', UInt32.toNat_ofNat', Nat.mod_eq_of_lt hhi,
    Nat.mod_eq_of_lt hlo]
  rfl

theorem rsVal_lt (e : RsEntry) : rsVal a e < 2 ^ 288 := by
  have hhi := e.hi.toNat_lt
  have hlo := e.lo.toNat_lt
  have hlow : (a e.idx.toNat).field 12 24 < 2 ^ 192 := (a e.idx.toNat).field_lt 12 24
  rw [rsVal]
  omega

/-- Without the part that is read through the descriptor. -/
theorem rsVal_div (e : RsEntry) : rsVal a e / 2 ^ 192 = e.hi.toNat * 2 ^ 32 + e.lo.toNat := by
  have hlow : (a e.idx.toNat).field 12 24 < 2 ^ 192 := (a e.idx.toNat).field_lt 12 24
  rw [rsVal, Nat.add_comm, Nat.add_mul_div_right _ _ (Nat.two_pow_pos 192), Nat.div_eq_of_lt hlow, Nat.zero_add]

theorem div_pow_split (x : Nat) {m n : Nat} (h : m ≤ n) : x / 2 ^ n = x / 2 ^ m / 2 ^ (n - m) := by
  rw [Nat.div_div_eq_div_mul, ← Nat.pow_add]
  congr 2
  omega

/-- Which offsets levels start at. -/
def RsAligned (bitoff : Nat) : Prop := bitoff ≤ 288 ∧ (96 ≤ bitoff → bitoff % 8 = 0)

theorem rsAligned_next {n bitoff : Nat} (h : RsAligned bitoff) (hlt : bitoff < 288) :
    RsAligned (bitoff + rsWidth n bitoff) := by
  have := h.2
  simp only [RsAligned, rsWidth]
  split_ifs <;> omega

/-- However it is read, the digit is the next one of the key. -/
theorem rsDigit_eq {n bitoff : Nat} (h : RsAligned bitoff) (hlt : bitoff < 288) (e : RsEntry) :
    rsDigit a bitoff (rsWidth n bitoff) e = topDigit (rsVal a) 288 bitoff (rsWidth n bitoff) e := by
  rw [rsDigit, topDigit]
  by_cases h96 : bitoff < 96
  · have hw : bitoff + rsWidth n bitoff ≤ 96 := by
      simp only [rsWidth, if_pos h96]
      split_ifs <;> omega
    have hw64 : rsWidth n bitoff ≤ 64 := by
      simp only [rsWidth]
      split_ifs <;> omega
    generalize rsWidth n bitoff = w at hw hw64 ⊢
    have htop : rsVal a e / 2 ^ (288 - bitoff - w) =
        (e.hi.toNat * 2 ^ 32 + e.lo.toNat) / 2 ^ (96 - (bitoff + w)) := by
      rw [div_pow_split _ (show 192 ≤ 288 - bitoff - w by omega), rsVal_div,
        show 288 - bitoff - w - 192 = 96 - (bitoff + w) by omega]
    rw [if_pos h96, htop]
    split_ifs with h64
    · have hlo := e.lo.toNat_lt
      have hword : (e.hi.toNat * 2 ^ 32 + e.lo.toNat) / 2 ^ 32 = e.hi.toNat := by omega
      rw [Nat.and_two_pow_sub_one_eq_mod, Nat.shiftRight_eq_div_pow,
        div_pow_split _ (show 32 ≤ 96 - (bitoff + w) by omega), hword,
        show 96 - (bitoff + w) - 32 = 64 - (bitoff + w) by omega]
    · have hidx := e.idx.toNat_lt
      have hwords : (e.hi.toNat * 2 ^ 64 + (e.lo.toNat * 2 ^ 32 + e.idx.toNat)) / 2 ^ 32 =
          e.hi.toNat * 2 ^ 32 + e.lo.toNat := by omega
      rw [Nat.and_two_pow_sub_one_eq_mod, Nat.shiftRight_eq_div_pow,
        Nat.mod_mod_of_dvd _ (Nat.pow_dvd_pow 2 hw64), div_pow_split _ (show 32 ≤ 128 - (bitoff + w) by omega),
        hwords, show 128 - (bitoff + w) - 32 = 96 - (bitoff + w) by omega]
  · have hw : rsWidth n bitoff = 8 := by simp [rsWidth, h96]
    obtain ⟨k, rfl⟩ : ∃ k, bitoff = 8 * k := ⟨bitoff / 8, by have := h.2 (by omega); omega⟩
    have hk : 12 ≤ k ∧ k < 36 := by omega
    have hbyte := @Desc.field_byte (a e.idx.toNat) 12 (k - 12) (35 - k) (by omega)
    rw [show k - 12 + 1 + (35 - k) = 24 by omega, show 12 + (k - 12) = k by omega] at hbyte
    have hpow : (2 : Nat) ^ (288 - 8 * k - 8) = 256 ^ (35 - k) := by
      rw [show (256 : Nat) = 2 ^ 8 from rfl, ← Nat.pow_mul]
      congr 1
      omega
    have hsplit : rsVal a e = (a e.idx.toNat).field 12 24 +
        ((e.hi.toNat * 2 ^ 32 + e.lo.toNat) * 256 ^ (24 - (35 - k) - 1) * 256) * 256 ^ (35 - k) := by
      have : (2 : Nat) ^ 192 = 256 ^ (24 - (35 - k) - 1) * 256 * 256 ^ (35 - k) := by
        rw [← Nat.pow_succ, ← Nat.pow_add, show (256 : Nat) = 2 ^ 8 from rfl, ← Nat.pow_mul]
        congr 1
        omega
      rw [rsVal, this]
      ring
    rw [if_neg h96, hw, hpow, hsplit, Nat.add_mul_div_right _ _ (Nat.pow_pos (by decide)),
      show (2 : Nat) ^ 8 = 256 from rfl, Nat.add_mul_mod_self_right, hbyte, Nat.shiftRight_eq_div_pow,
      show 8 * k / 2 ^ 3 = k by omega]

/-- Two words in turn compare as the number they make. -/
theorem lt_words_iff {b p q x y : Nat} (hx : x < b) (hy : y < b) :
    p * b + x < q * b + y ↔ p < q ∨ p = q ∧ x < y := by
  rcases Nat.lt_trichotomy p q with hlt | rfl | hlt
  · have := Nat.mul_le_mul_right b (Nat.succ_le_of_lt hlt)
    rw [Nat.succ_mul] at this
    simp only [hlt, true_or, iff_true]
    omega
  · simp
  · have := Nat.mul_le_mul_right b (Nat.succ_le_of_lt hlt)
    rw [Nat.succ_mul] at this
    have hne : ¬ p < q ∧ p ≠ q := by omega
    simp only [hne.1, hne.2, false_or, false_and, iff_false]
    omega

theorem Desc.field_words (d : Desc) :
    d.field 12 24 = (d.field 12 8 * 2 ^ 64 + d.field 20 8) * 2 ^ 64 + d.field 28 8 := by
  rw [show (24 : Nat) = 8 + 8 + 8 from rfl, d.field_add (by decide), d.field_add (by decide)]
  rfl

/-- The comparison of the insertion sort is that of the keys. -/
theorem macRsGt_eq (x y : RsEntry) : macRsGt a x y = decide (rsVal a y < rsVal a x) := by
  have hword : ∀ (d : Desc) (off : Nat), d.field off 8 < 2 ^ 64 := fun d off => d.field_lt off 8
  have hlow : ∀ d : Desc, d.field 12 24 < 2 ^ 192 := fun d => d.field_lt 12 24
  have hlo : ∀ e : RsEntry, e.lo.toNat < 2 ^ 32 := fun e => e.lo.toNat_lt
  rw [Bool.eq_iff_iff, decide_eq_true_eq, rsVal, rsVal, lt_words_iff (hlow _) (hlow _),
    lt_words_iff (hlo _) (hlo _), Desc.field_words, Desc.field_words, lt_words_iff (hword _ _) (hword _ _),
    lt_words_iff (hword _ _) (hword _ _)]
  have hx := hlo x
  have hy := hlo y
  have hx' := hword (a x.idx.toNat) 20
  have hy' := hword (a y.idx.toNat) 20
  simp only [macRsGt, UInt64.lt_iff_toNat_lt, UInt32.lt_iff_toNat_lt, ← UInt64.toNat_inj, ← UInt32.toNat_inj, ne_eq]
  split_ifs <;> simp only [decide_eq_true_eq] <;> omega

/-! ## Windows of the buffers -/

@[simp] theorem length_window (buf : Nat → RsEntry) (off n : Nat) : (window buf off n).length = n := by
  simp [window]

theorem window_append (buf : Nat → RsEntry) (off m n : Nat) :
    window buf off (m + n) = window buf off m ++ window buf (off + m) n := by
  simp [window, items, List.range_add, Nat.add_assoc]

theorem window_congr {buf buf' : Nat → RsEntry} {off n : Nat} (h : ∀ i, off ≤ i → i < off + n → buf i = buf' i) :
    window buf off n = window buf' off n := by
  apply List.map_congr_left
  intro i hi
  have := List.mem_range.mp hi
  exact h _ (Nat.le_add_right _ _) (by omega)

theorem window_putWindow (side : Bool) (off : Nat) (xs : List RsEntry) (mem : RsMem) :
    window (putWindow side off xs mem side) off xs.length = xs := by
  apply List.ext_getElem
  · simp
  · intro i hi hi'
    simp [window, items, putWindow, hi', List.getD]

theorem putWindow_frame {side : Bool} {off : Nat} {xs : List RsEntry} {mem : RsMem} {s : Bool} {i : Nat}
    (h : s ≠ side ∨ i < off ∨ off + xs.length ≤ i) : putWindow side off xs mem s i = mem s i := by
  rw [putWindow, if_neg]
  rintro ⟨hs, hoff, hlen⟩
  rcases h with h | h | h
  · exact h hs
  · omega
  · omega

/-! ## One level -/

/-- The entries of a window end sorted in the second buffer, and nothing outside the window changes. -/
structure Sorts (mem mem' : RsMem) (src : Bool) (off n : Nat) : Prop where
  frame : ∀ s i, i < off ∨ off + n ≤ i → mem' s i = mem s i
  sorted : StableSorted (rsVal a) (window (mem src) off n) (window (mem' true) off n)

variable {a}

theorem sorts_leafCopy {mem mem' : RsMem} {src : Bool} {off n : Nat}
    (hframe : ∀ s i, i < off ∨ off + n ≤ i → mem' s i = mem s i)
    (h : StableSorted (rsVal a) (window (mem src) off n) (window (mem' src) off n)) :
    Sorts a mem (leafCopy src off n mem') src off n := by
  cases src with
  | true => exact ⟨hframe, h⟩
  | false =>
      constructor
      · intro s i hi
        rw [leafCopy, if_neg Bool.false_ne_true, putWindow_frame (by simp; omega)]
        exact hframe s i hi
      · have hput := window_putWindow true off (window (mem' false) off n) mem'
        rw [length_window] at hput
        rw [leafCopy, if_neg Bool.false_ne_true, hput]
        exact h

theorem sorts_isort (mem : RsMem) (src : Bool) (off n : Nat) :
    Sorts a mem (leafCopy src off n (macRsIsort a src off n mem)) src off n := by
  have hlen : (sortBack (fun v x => macRsGt a x v) (window (mem src) off n)).length = n := by
    rw [(sortBack_perm _).length_eq, length_window]
  apply sorts_leafCopy
  · intro s i hi
    rw [macRsIsort]
    apply putWindow_frame
    rw [hlen]
    exact .inr hi
  · have hput := window_putWindow src off (sortBack (fun v x => macRsGt a x v) (window (mem src) off n)) mem
    rw [hlen] at hput
    rw [macRsIsort, hput]
    exact StableSorted.sortBack (fun x y => macRsGt_eq a y x) _

/-- A bucket is sorted, whatever its size. -/
theorem sorts_bucketStep {sortBucket : Bool → Nat → Nat → RsMem → RsMem} {src : Bool} {off : Nat} {ends : Nat → Nat}
    {p : RsMem × Nat} {d : Nat}
    (h : Sorts a p.1 (sortBucket (!src) (off + p.2) (ends d - p.2) p.1) (!src) (off + p.2) (ends d - p.2)) :
    Sorts a p.1 (bucketStep sortBucket src off ends p d).1 (!src) (off + p.2) (ends d - p.2) := by
  simp only [bucketStep]
  split_ifs with hzero hone hsrc
  · rw [hzero]
    exact ⟨fun _ _ _ => rfl, StableSorted.of_const (by simp [window, items])⟩
  · rw [hone]
    subst hsrc
    have hcopy : putWindow true (off + p.2) [p.1 false (off + p.2)] p.1 = leafCopy false (off + p.2) 1 p.1 := by
      simp [leafCopy, window, items]
    simp only [hcopy]
    apply sorts_leafCopy fun _ _ _ => rfl
    apply StableSorted.of_const
    simp [window, items]
  · rw [hone]
    obtain rfl : src = false := by simpa using hsrc
    refine ⟨fun _ _ _ => rfl, StableSorted.of_const ?_⟩
    simp [window, items]
  · exact h

/-- What the scatter leaves in the other buffer. -/
theorem window_scatter {digit : RsEntry → Nat} {view : Nat → RsEntry} (dst : Nat → RsEntry) {n m : Nat}
    (hkeys : ∀ x ∈ items view n, digit x < m) {d : Nat} (hd : d < m) :
    (scatterFrom digit view n (dst, starts m (histogram digit view n))).2 d = below digit (items view n) (d + 1) ∧
      window (scatterFrom digit view n (dst, starts m (histogram digit view n))).1 (below digit (items view n) d)
        (bucket digit (items view n) d).length = bucket digit (items view n) d := by
  have hscattered := scattered_scatterFrom hkeys
    (s := (dst, starts m (histogram digit view n))) (fun b hb => starts_histogram view n hb) le_rfl
  refine ⟨(hscattered.next d hd).trans (below_succ _ d).symm, ?_⟩
  apply List.ext_getElem
  · simp
  · intro i hi hi'
    simpa [window, items] using hscattered.placed d hd i _ (List.getElem?_eq_getElem hi')

/-- What holds when the buckets before `d` are sorted; `mem₀` is the memory after the scatter. -/
structure BucketsDone (a : Nat → Desc) (digit : RsEntry → Nat) (xs : List RsEntry) (off : Nat) (mem₀ : RsMem) (d : Nat)
    (p : RsMem × Nat) : Prop where
  start : p.2 = below digit xs d
  frame : ∀ s i, i < off ∨ off + below digit xs d ≤ i → p.1 s i = mem₀ s i
  sorted : StableSorted (rsVal a) (buckets digit d xs) (window (p.1 true) off (below digit xs d))

theorem BucketsDone.step {digit : RsEntry → Nat} {xs : List RsEntry} {src : Bool} {off d : Nat} {mem₀ : RsMem}
    {p : RsMem × Nat} {ends : Nat → Nat} {sortBucket : Bool → Nat → Nat → RsMem → RsMem}
    (h : BucketsDone a digit xs off mem₀ d p) (hends : ends d = below digit xs (d + 1))
    (hbucket : window (mem₀ (!src)) (off + below digit xs d) (bucket digit xs d).length = bucket digit xs d)
    (hsort : ∀ mem : RsMem, window (mem (!src)) (off + below digit xs d) (bucket digit xs d).length = bucket digit xs d →
      Sorts a mem (sortBucket (!src) (off + below digit xs d) (bucket digit xs d).length mem) (!src)
        (off + below digit xs d) (bucket digit xs d).length)
    (hle : ∀ x ∈ buckets digit d xs, ∀ y ∈ bucket digit xs d, rsVal a x ≤ rsVal a y) :
    BucketsDone a digit xs off mem₀ (d + 1) (bucketStep sortBucket src off ends p d) := by
  have hsucc : below digit xs (d + 1) = below digit xs d + (bucket digit xs d).length := below_succ xs d
  have hsize : ends d - p.2 = (bucket digit xs d).length := by
    rw [hends, h.start, hsucc]
    omega
  have hwin : window (p.1 (!src)) (off + below digit xs d) (bucket digit xs d).length = bucket digit xs d :=
    (window_congr fun i hi _ => h.frame _ i (.inr hi)).trans hbucket
  have hstep : Sorts a p.1 (bucketStep sortBucket src off ends p d).1 (!src) (off + below digit xs d)
      (bucket digit xs d).length := by
    have hsorts : Sorts a p.1 (bucketStep sortBucket src off ends p d).1 (!src) (off + p.2) (ends d - p.2) := by
      apply sorts_bucketStep
      rw [hsize, h.start]
      exact hsort p.1 hwin
    rwa [hsize, h.start] at hsorts
  constructor
  · have : (bucketStep sortBucket src off ends p d).2 = ends d := by
      simp only [bucketStep]
      split_ifs <;> rfl
    rw [this, hends]
  · intro s i hi
    rw [hstep.frame s i (by omega), h.frame s i (by omega)]
  · have hbefore : window ((bucketStep sortBucket src off ends p d).1 true) off (below digit xs d) =
        window (p.1 true) off (below digit xs d) := by
      apply window_congr
      intro i _ hi
      exact hstep.frame true i (.inl hi)
    have hbuckets : buckets digit (d + 1) xs = buckets digit d xs ++ bucket digit xs d := by
      simp [buckets, List.range_succ]
    have hlast := hstep.sorted
    rw [hwin] at hlast
    rw [hsucc, window_append, hbefore, hbuckets]
    exact h.sorted.append hlast hle

theorem rsWidth_le {n bitoff : Nat} (h : RsAligned bitoff) (hlt : bitoff < 288) : bitoff + rsWidth n bitoff ≤ 288 :=
  (rsAligned_next h hlt).1

/-- All buckets in turn. -/
theorem bucketsDone_foldl {w bitoff off n : Nat} {src : Bool} {mem : RsMem}
    (sortBucket : Bool → Nat → Nat → RsMem → RsMem) (hw : bitoff + w ≤ 288)
    (hshared : SharedTop (rsVal a) 288 bitoff (window (mem src) off n))
    (hsort : ∀ side off n (mem : RsMem), SharedTop (rsVal a) 288 (bitoff + w) (window (mem side) off n) →
      Sorts a mem (sortBucket side off n mem) side off n)
    {s : (Nat → RsEntry) × (Nat → Nat)}
    (hs : s = scatterFrom (topDigit (rsVal a) 288 bitoff w) (fun i => mem src (off + i)) n
      ((fun i => mem (!src) (off + i)),
        starts (2 ^ w) (histogram (topDigit (rsVal a) 288 bitoff w) (fun i => mem src (off + i)) n)))
    {d : Nat} (hd : d ≤ 2 ^ w) :
    BucketsDone a (topDigit (rsVal a) 288 bitoff w) (window (mem src) off n) off
      (putWindow (!src) off (items s.1 n) mem) d
      ((List.range d).foldl (bucketStep sortBucket src off s.2) (putWindow (!src) off (items s.1 n) mem, 0)) := by
  have hkeys : ∀ x ∈ window (mem src) off n, topDigit (rsVal a) 288 bitoff w x < 2 ^ w := fun x _ => topDigit_lt x
  induction d with
  | zero =>
      constructor
      · simp [below]
      · intro s i _
        rfl
      · simp only [below, Nat.not_lt_zero, decide_false, List.countP_false]
        exact StableSorted.of_const (by simp [buckets])
  | succ d ih =>
      obtain ⟨hends, hplaced⟩ := window_scatter (fun i => mem (!src) (off + i)) hkeys (show d < 2 ^ w by omega)
      have hbelow : below (topDigit (rsVal a) 288 bitoff w) (window (mem src) off n) d +
          (bucket (topDigit (rsVal a) 288 bitoff w) (window (mem src) off n) d).length ≤ n := by
        rw [← below_succ]
        exact List.countP_le_length.trans (length_window _ _ _).le
      have hbucket : window (putWindow (!src) off (items s.1 n) mem (!src))
          (off + below (topDigit (rsVal a) 288 bitoff w) (window (mem src) off n) d)
          (bucket (topDigit (rsVal a) 288 bitoff w) (window (mem src) off n) d).length =
            bucket (topDigit (rsVal a) 288 bitoff w) (window (mem src) off n) d := by
        refine Eq.trans ?_ hplaced
        apply List.map_congr_left
        intro i hi
        have hi' := List.mem_range.mp hi
        have hin : below (topDigit (rsVal a) 288 bitoff w) (window (mem src) off n) d + i < n := by omega
        simp only [putWindow, length_items, Nat.add_assoc, true_and]
        rw [if_pos (by omega), Nat.add_sub_cancel_left, hs]
        simp [items, List.getD, hin]
        rfl
      rw [List.range_succ, List.foldl_append]
      apply (ih (by omega)).step (hs ▸ hends) hbucket
      · intro mem' hmem'
        apply hsort
        rw [hmem']
        exact hshared.bucket hw d
      · intro x hx y hy
        have hx' := (List.mem_filter.mp ((buckets_perm_filter _ _ d).mem_iff.mp hx))
        have hy' := List.mem_filter.mp hy
        simp only [decide_eq_true_eq] at hx' hy'
        exact (hshared.lt_of_topDigit_lt hw hx'.1 hy'.1 (hx'.2.trans_eq hy'.2.symm)).le

/-- A bucket that holds every entry: the digit is the same everywhere. -/
theorem sharedTop_of_histogram {w bitoff n d : Nat} {view : Nat → RsEntry} (hw : bitoff + w ≤ 288)
    (hshared : SharedTop (rsVal a) 288 bitoff (items view n))
    (hfull : histogram (topDigit (rsVal a) 288 bitoff w) view n d = n) :
    SharedTop (rsVal a) 288 (bitoff + w) (items view n) := by
  rw [histogram_eq] at hfull
  have hall : ∀ x ∈ items view n, topDigit (rsVal a) 288 bitoff w x = d := by
    have hlen : (bucket (topDigit (rsVal a) 288 bitoff w) (items view n) d).length = (items view n).length := by
      rw [hfull, length_items]
    simpa using List.length_filter_eq_length_iff.mp hlen
  apply hshared.of_topDigit hw
  intro x hx y hy
  rw [hall x hx, hall y hy]

theorem sorts_macRsortRec {bitoff depth : Nat} {src : Bool} {off n : Nat} {mem : RsMem} (halign : RsAligned bitoff)
    (hshared : SharedTop (rsVal a) 288 bitoff (window (mem src) off n)) :
    Sorts a mem (macRsortRec a bitoff depth src off n mem) src off n := by
  induction hk : 288 - bitoff using Nat.strong_induction_on generalizing bitoff depth src off n mem with
  | _ k ih =>
  rw [macRsortRec]
  by_cases hlt : bitoff < 288
  · rw [if_pos hlt]
    by_cases hleaf : n ≤ rsInsMax ∨ rsMaxDepth ≤ depth
    · rw [if_pos hleaf]
      exact sorts_isort mem src off n
    · have hdigit : rsDigit a bitoff (rsWidth n bitoff) = topDigit (rsVal a) 288 bitoff (rsWidth n bitoff) :=
        funext fun e => rsDigit_eq a halign hlt e
      have hw := rsWidth_le (n := n) halign hlt
      have hnext := rsAligned_next (n := n) halign hlt
      have hpos := rsWidth_pos n bitoff
      rw [if_neg hleaf]
      simp only [hdigit]
      split
      · next hany =>
          obtain ⟨d, -, hfull⟩ := List.any_eq_true.mp hany
          exact ih _ (by omega) hnext (sharedTop_of_histogram hw hshared (by simpa using hfull)) rfl
      · -- the buckets, sorted one by one, end as the whole window
        have hdone := bucketsDone_foldl (macRsortRec a (bitoff + rsWidth n bitoff) (depth + 1)) hw hshared
          (fun side off' n' mem' hshared' => ih _ (by omega) hnext hshared' rfl) rfl le_rfl
        have hall : below (topDigit (rsVal a) 288 bitoff (rsWidth n bitoff)) (window (mem src) off n)
            (2 ^ rsWidth n bitoff) = n := by
          rw [below_all fun x _ => topDigit_lt x, length_window]
        constructor
        · intro s i hi
          rw [hdone.frame s i (by rw [hall]; exact hi)]
          exact putWindow_frame (.inr (by rwa [length_items]))
        · have hsorted := hdone.sorted
          rw [hall] at hsorted
          apply hsorted.of_buckets
          · intro x _ y _ hval
            rw [topDigit, topDigit, hval]
          · exact fun x _ => topDigit_lt x
  · rw [if_neg hlt]
    exact sorts_leafCopy (fun _ _ _ => rfl) (hshared.stableSorted (by omega))

/-! ## The gather -/

/-- A cell of 16 bytes of the scratch buffer: a compact entry, or a quarter of a descriptor. -/
inductive RsCell where
  | entry (e : RsEntry)
  | part (bytes : List UInt8)

def RsCell.bytes : RsCell → List UInt8
  | .part bytes => bytes
  | .entry _ => []

variable (a)

/-- The scratch buffer of `4n` cells after the sort: the two compact buffers are its upper half. -/
def scratch (n : Nat) (mem : RsMem) (c : Nat) : RsCell :=
  if 3 * n ≤ c then .entry (mem true (c - 3 * n))
  else if 2 * n ≤ c then .entry (mem false (c - 2 * n))
  else .part []

/-- One descriptor is copied to its place, over cells that may have held entries. -/
def gatherStep (n : Nat) (b : Nat → RsCell) (j : Nat) : Nat → RsCell :=
  match b (3 * n + j) with
  | .entry e => fun c =>
      if 4 * j ≤ c ∧ c < 4 * j + 4 then .part (((a e.idx.toNat).bytes.drop (16 * (c - 4 * j))).take 16) else b c
  | .part _ => b

/-- What is copied back to the descriptors' array. -/
def descBytes (b : Nat → RsCell) (j : Nat) : List UInt8 :=
  (b (4 * j)).bytes ++ (b (4 * j + 1)).bytes ++ (b (4 * j + 2)).bytes ++ (b (4 * j + 3)).bytes

/-- `mac_rsort_desc`: the array's bytes afterwards; `old` is what the compact buffers hold before. -/
def macRsortDesc (n : Nat) (old : RsMem) : List (List UInt8) :=
  if n ≤ 1 then (items a n).map Desc.bytes
  else
    let mem := putWindow false 0 (items (fun i => rsEntryOf i (a i)) n) old
    let mem := macRsortRec a 0 0 false 0 n mem
    let b := (List.range n).foldl (gatherStep a n) (scratch n mem)
    (List.range n).map (descBytes b)

variable {a}

theorem gatherStep_entry {n j : Nat} {b : Nat → RsCell} {e : RsEntry} (h : b (3 * n + j) = .entry e) (c : Nat) :
    gatherStep a n b j c =
      if 4 * j ≤ c ∧ c < 4 * j + 4 then .part (((a e.idx.toNat).bytes.drop (16 * (c - 4 * j))).take 16) else b c := by
  rw [gatherStep, h]

/-- The gather never writes an entry that it has yet to read. -/
theorem foldl_gatherStep {n : Nat} {mem : RsMem} {j : Nat} (hj : j ≤ n) (c : Nat) :
    (List.range j).foldl (gatherStep a n) (scratch n mem) c =
      if c < 4 * j then .part (((a (mem true (c / 4)).idx.toNat).bytes.drop (16 * (c % 4))).take 16)
      else scratch n mem c := by
  induction j generalizing c with
  | zero => rfl
  | succ j ih =>
      have hentry : (List.range j).foldl (gatherStep a n) (scratch n mem) (3 * n + j) = .entry (mem true j) := by
        rw [ih (by omega), if_neg (by omega), scratch, if_pos (by omega), Nat.add_sub_cancel_left]
      rw [List.range_succ, List.foldl_append, List.foldl_cons, List.foldl_nil, gatherStep_entry hentry]
      by_cases hin : 4 * j ≤ c ∧ c < 4 * j + 4
      · rw [if_pos hin, if_pos (by omega), show c / 4 = j by omega, show c % 4 = c - 4 * j by omega]
      · rw [if_neg hin, ih (by omega)]
        by_cases hlt : c < 4 * j
        · rw [if_pos hlt, if_pos (by omega)]
        · rw [if_neg hlt, if_neg (by omega)]

theorem Desc.bytes_quarters (d : Desc) :
    d.bytes.take 16 ++ (d.bytes.drop 16).take 16 ++ (d.bytes.drop 32).take 16 ++ (d.bytes.drop 48).take 16 =
      d.bytes := by
  rw [← List.take_add, ← List.take_add, ← List.take_add]
  exact List.take_of_length_le d.len.le

theorem descBytes_gather {n : Nat} {mem : RsMem} {j : Nat} (hj : j < n) :
    descBytes ((List.range n).foldl (gatherStep a n) (scratch n mem)) j = (a (mem true j).idx.toNat).bytes := by
  have hcell : ∀ q < 4, ((List.range n).foldl (gatherStep a n) (scratch n mem) (4 * j + q)).bytes =
      ((a (mem true j).idx.toNat).bytes.drop (16 * q)).take 16 := by
    intro q hq
    rw [foldl_gatherStep le_rfl, if_pos (by omega), show (4 * j + q) / 4 = j by omega,
      show (4 * j + q) % 4 = q by omega]
    rfl
  have hzero := hcell 0 (by decide)
  rw [Nat.add_zero] at hzero
  rw [descBytes, hzero, hcell 1 (by decide), hcell 2 (by decide), hcell 3 (by decide)]
  exact (a (mem true j).idx.toNat).bytes_quarters

/-- The order of the entries is that of the descriptors they stand for. -/
theorem stableSorted_descs {n : Nat} (hn : n < 2 ^ 32) {es : List RsEntry}
    (h : StableSorted (rsVal a) (items (fun i => rsEntryOf i (a i)) n) es) :
    StableSorted Desc.key (items a n) (es.map fun e => a e.idx.toNat) := by
  have hidx : ∀ i < n, (rsEntryOf i (a i)).idx.toNat = i := by
    intro i hi
    rw [rsEntryOf, UInt32.toNat_ofNat']
    exact Nat.mod_eq_of_lt (hi.trans hn)
  have hkey : StableSorted (fun e => (a e.idx.toNat).key) (items (fun i => rsEntryOf i (a i)) n) es := by
    apply h.congr
    intro e he
    obtain ⟨i, hi, rfl⟩ := List.mem_map.mp he
    have hi' := List.mem_range.mp hi
    rw [rsVal_rsEntryOf a (hi'.trans hn), hidx i hi']
  have hmap : (items (fun i => rsEntryOf i (a i)) n).map (fun e => a e.idx.toNat) = items a n := by
    rw [items, List.map_map]
    apply List.map_congr_left
    intro i hi
    exact congrArg a (hidx i (List.mem_range.mp hi))
  rw [← hmap]
  exact hkey.map

/-- The sort leaves the stable order of the descriptors by their keys, which is what a merge sort leaves. -/
theorem radix_sort_stable (a : Nat → Desc) (n : Nat) (hn : n < 2 ^ 32) (old : RsMem) :
    ∃ out : List Desc, macRsortDesc a n old = out.map Desc.bytes ∧ out.Perm (items a n) ∧
      (out.Pairwise fun x y => x.key ≤ y.key) ∧
      (∀ k, (out.filter fun x => x.key = k) = (items a n).filter fun x => x.key = k) ∧
      out = (items a n).mergeSort fun x y => decide (x.key ≤ y.key) := by
  suffices h : ∃ out, macRsortDesc a n old = out.map Desc.bytes ∧ StableSorted Desc.key (items a n) out by
    obtain ⟨out, hout, hsorted⟩ := h
    refine ⟨out, hout, ?_, hsorted.sorted, hsorted.stable, hsorted.eq_mergeSort⟩
    rw [hsorted.eq_mergeSort]
    exact List.mergeSort_perm _ _
  by_cases hone : n ≤ 1
  · refine ⟨items a n, by rw [macRsortDesc, if_pos hone], StableSorted.of_const ?_⟩
    obtain rfl | rfl : n = 0 ∨ n = 1 := by omega
    · simp [items]
    · simp [items]
  · let mem₀ := putWindow false 0 (items (fun i => rsEntryOf i (a i)) n) old
    let mem := macRsortRec a 0 0 false 0 n mem₀
    have hwin : window (mem₀ false) 0 n = items (fun i => rsEntryOf i (a i)) n := by
      have hput := window_putWindow false 0 (items (fun i => rsEntryOf i (a i)) n) old
      rwa [length_items] at hput
    have hsorts : Sorts a mem₀ mem false 0 n := by
      apply sorts_macRsortRec ⟨by decide, by decide⟩
      intro x _ y _
      rw [Nat.div_eq_of_lt (rsVal_lt a x), Nat.div_eq_of_lt (rsVal_lt a y)]
    have hsorted := hsorts.sorted
    rw [hwin] at hsorted
    refine ⟨_, ?_, stableSorted_descs hn hsorted⟩
    have hgather : macRsortDesc a n old =
        (List.range n).map (descBytes ((List.range n).foldl (gatherStep a n) (scratch n mem))) := by
      rw [macRsortDesc, if_neg hone]
    rw [hgather, window, items, List.map_map, List.map_map]
    apply List.map_congr_left
    intro j hj
    simpa using descBytes_gather (List.mem_range.mp hj)

/-- Descriptors whose keys fall. -/
def fallingDescs (i : Nat) : Desc where
  bytes := UInt8.ofNat (255 - i) :: List.replicate 63 0
  len := by simp

theorem radix_sort_stable_three :
    (3 : Nat) < 2 ^ 32 ∧ ∃ out : List Desc, macRsortDesc fallingDescs 3 (fun _ _ => default) = out.map Desc.bytes ∧
      out.Perm (items fallingDescs 3) ∧ (out.Pairwise fun x y => x.key ≤ y.key) ∧
      (∀ k, (out.filter fun x => x.key = k) = (items fallingDescs 3).filter fun x => x.key = k) ∧
      out = (items fallingDescs 3).mergeSort fun x y => decide (x.key ≤ y.key) :=
  ⟨by decide, radix_sort_stable fallingDescs 3 (by decide) _⟩

end Radix

end BitcoinMachineCode.Storage
