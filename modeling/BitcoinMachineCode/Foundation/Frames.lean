import Mathlib.Data.List.Infix

/-!
# Framed byte logs

An append-only log of records whose reader takes one frame after another from
the front of the bytes, until a stop mark, the end, or something that is not a
whole frame.  A log format is its `next` function with the laws of `Framed`;
what a reader then finds in a log that was written record by record, and cut
anywhere, follows for every format.
-/

namespace BitcoinMachineCode.Foundation

/-- What stands at the front of the bytes. -/
inductive Head (α : Type*) where
  | stop
  | torn
  | frame (a : α) (rest : List UInt8)

variable {α : Type*}

/-- The records up to the first thing that is not one, and whether that was a
broken frame. -/
def scanFuel (next : List UInt8 → Head α) : Nat → List UInt8 → List α × Bool
  | 0, _ => ([], false)
  | fuel + 1, bytes =>
      match next bytes with
      | .stop => ([], false)
      | .torn => ([], true)
      | .frame a rest =>
          let r := scanFuel next fuel rest
          (a :: r.1, r.2)

def scan (next : List UInt8 → Head α) (bytes : List UInt8) : List α × Bool :=
  scanFuel next (bytes.length + 1) bytes

def encodeAll (encode : α → List UInt8) (rs : List α) : List UInt8 :=
  rs.flatMap encode

@[simp] theorem encodeAll_nil (encode : α → List UInt8) :
    encodeAll encode [] = [] := rfl

@[simp] theorem encodeAll_cons (encode : α → List UInt8) (r : α)
    (rs : List α) : encodeAll encode (r :: rs) = encode r ++ encodeAll encode rs :=
  rfl

theorem encodeAll_append (encode : α → List UInt8) (xs ys : List α) :
    encodeAll encode (xs ++ ys) = encodeAll encode xs ++ encodeAll encode ys :=
  List.flatMap_append

/-- The longest run of leading records that lies before byte `n`. -/
def wholeBefore (encode : α → List UInt8) : List α → Nat → List α
  | [], _ => []
  | r :: rs, n =>
      if (encode r).length ≤ n then
        r :: wholeBefore encode rs (n - (encode r).length)
      else []

theorem wholeBefore_length_le (encode : α → List UInt8) (rs : List α)
    (n : Nat) : (encodeAll encode (wholeBefore encode rs n)).length ≤ n := by
  induction rs generalizing n with
  | nil => simp [wholeBefore]
  | cons r rs ih =>
      rw [wholeBefore]
      split
      · have hrest := ih (n - (encode r).length)
        rw [encodeAll_cons, List.length_append]
        omega
      · simp

theorem exists_wholeBefore_append (encode : α → List UInt8) (rs : List α)
    (n : Nat) : ∃ lost, rs = wholeBefore encode rs n ++ lost := by
  induction rs generalizing n with
  | nil => exact ⟨[], rfl⟩
  | cons r rs ih =>
      rw [wholeBefore]
      split
      · obtain ⟨lost, hlost⟩ := ih (n - (encode r).length)
        exact ⟨lost, congrArg (List.cons r) hlost⟩
      · exact ⟨r :: rs, rfl⟩

theorem take_take_wholeBefore (encode : α → List UInt8) (rs : List α)
    (n : Nat) :
    ((encodeAll encode rs).take n).take
        (encodeAll encode (wholeBefore encode rs n)).length =
      encodeAll encode (wholeBefore encode rs n) := by
  obtain ⟨lost, hlost⟩ := exists_wholeBefore_append encode rs n
  rw [List.take_take, Nat.min_eq_left (wholeBefore_length_le encode rs n)]
  conv_lhs => rw [hlost, encodeAll_append]
  rw [← hlost]
  exact List.take_left

/-- No longer run of leading records lies before the cut. -/
theorem wholeBefore_append (encode : α → List UInt8) (rs lost : List α)
    {n : Nat} (hfit : (encodeAll encode rs).length ≤ n) :
    wholeBefore encode (rs ++ lost) n =
      rs ++ wholeBefore encode lost (n - (encodeAll encode rs).length) := by
  induction rs generalizing n with
  | nil => simp
  | cons r rs ih =>
      rw [encodeAll_cons, List.length_append] at hfit
      rw [List.cons_append, wholeBefore, if_pos (by omega), ih (by omega),
        encodeAll_cons, List.length_append, Nat.sub_sub]
      rfl

/-- A reader that takes every written record back whole, and takes a record
that was cut for nothing else. -/
structure Framed (next : List UInt8 → Head α) (encode : α → List UInt8) :
    Prop where
  next_nil : next [] = .stop
  next_encode : ∀ a rest, next (encode a ++ rest) = .frame a rest
  next_cut : ∀ a n, 0 < n → n < (encode a).length →
    next ((encode a).take n) = .torn
  next_shorter : ∀ bytes a rest, next bytes = .frame a rest →
    rest.length < bytes.length

namespace Framed

variable {next : List UInt8 → Head α} {encode : α → List UInt8}

theorem scanFuel_congr (hf : Framed next encode) (fuel fuel' : Nat)
    (bytes : List UInt8) (h : bytes.length < fuel)
    (h' : bytes.length < fuel') :
    scanFuel next fuel bytes = scanFuel next fuel' bytes := by
  induction fuel generalizing fuel' bytes with
  | zero => omega
  | succ fuel ih =>
      cases fuel' with
      | zero => omega
      | succ fuel' =>
          simp only [scanFuel]
          cases hnext : next bytes with
          | stop => rfl
          | torn => rfl
          | frame a rest =>
              have hlt := hf.next_shorter bytes a rest hnext
              simp only [ih fuel' rest (by omega) (by omega)]

theorem scan_stop {bytes : List UInt8} (h : next bytes = .stop) :
    scan next bytes = ([], false) := by
  simp [scan, scanFuel, h]

theorem scan_torn {bytes : List UInt8} (h : next bytes = .torn) :
    scan next bytes = ([], true) := by
  simp [scan, scanFuel, h]

theorem scan_nil (hf : Framed next encode) : scan next [] = ([], false) :=
  scan_stop hf.next_nil

theorem scan_encode (hf : Framed next encode) (a : α) (rest : List UInt8) :
    scan next (encode a ++ rest) =
      (a :: (scan next rest).1, (scan next rest).2) := by
  have hlt := hf.next_shorter _ a rest (hf.next_encode a rest)
  have hrest : scanFuel next (encode a ++ rest).length rest = scan next rest :=
    hf.scanFuel_congr _ _ rest hlt (by omega)
  rw [scan, scanFuel, hf.next_encode]
  simp only [hrest]

/-- Whole records are read back, whatever follows them. -/
theorem scan_encodeAll (hf : Framed next encode) (rs : List α)
    (tail : List UInt8) :
    scan next (encodeAll encode rs ++ tail) =
      (rs ++ (scan next tail).1, (scan next tail).2) := by
  induction rs with
  | nil => rfl
  | cons r rs ih =>
      rw [encodeAll_cons, List.append_assoc, hf.scan_encode, ih]
      rfl

theorem scan_whole (hf : Framed next encode) (rs : List α) :
    scan next (encodeAll encode rs) = (rs, false) := by
  have h := hf.scan_encodeAll rs []
  rw [List.append_nil, hf.scan_nil] at h
  simpa using h

/-- A stop mark hides everything behind it. -/
theorem scan_stopped (hf : Framed next encode) (rs : List α)
    {mark tail : List UInt8} (hmark : next (mark ++ tail) = .stop) :
    scan next (encodeAll encode rs ++ (mark ++ tail)) = (rs, false) := by
  rw [hf.scan_encodeAll, scan_stop hmark]
  simp

/-- A log cut inside its last record reads as the records before it. -/
theorem scan_cut (hf : Framed next encode) (rs : List α) (a : α) (n : Nat)
    (hpos : 0 < n) (hlt : n < (encode a).length) :
    scan next (encodeAll encode rs ++ (encode a).take n) = (rs, true) := by
  have htorn : scan next ((encode a).take n) = ([], true) := scan_torn (hf.next_cut a n hpos hlt)
  rw [hf.scan_encodeAll, htorn]
  simp

/-- A log cut anywhere reads as its whole records before the cut, and as torn
unless the cut was at the end of one. -/
theorem scan_take (hf : Framed next encode) (rs : List α) {n : Nat}
    (hn : n ≤ (encodeAll encode rs).length) :
    scan next ((encodeAll encode rs).take n) =
      (wholeBefore encode rs n,
        decide ((encodeAll encode (wholeBefore encode rs n)).length < n)) := by
  induction rs generalizing n with
  | nil =>
      have hzero : n = 0 := by simpa using hn
      rw [hzero, List.take_zero, hf.scan_nil]
      rfl
  | cons r rs ih =>
      rw [encodeAll_cons, List.length_append] at hn
      rw [wholeBefore, encodeAll_cons, List.take_append]
      by_cases hfit : (encode r).length ≤ n
      · rw [if_pos hfit, List.take_of_length_le hfit, hf.scan_encode,
          ih (by omega), encodeAll_cons, List.length_append]
        refine Prod.ext rfl (decide_eq_decide.mpr ?_)
        omega
      · rw [if_neg hfit, Nat.sub_eq_zero_of_le (by omega), List.take_zero,
          List.append_nil, encodeAll_nil, List.length_nil]
        rcases Nat.eq_zero_or_pos n with rfl | hpos
        · rw [List.take_zero, hf.scan_nil]
          rfl
        · rw [scan_torn (hf.next_cut r n hpos (by omega))]
          simp [hpos]

/-- A cut log reads as some of its records, and as those that were whole. -/
theorem scan_take_subset (hf : Framed next encode) (rs : List α)
    {mark : List UInt8} (hmark : ∀ n, (scan next (mark.take n)).1 = [])
    (n : Nat) {r : α}
    (hr : r ∈ (scan next ((encodeAll encode rs ++ mark).take n)).1) :
    r ∈ rs := by
  induction rs generalizing n with
  | nil =>
      rw [encodeAll_nil, List.nil_append, hmark n] at hr
      cases hr
  | cons a rs ih =>
      rw [encodeAll_cons, List.append_assoc, List.take_append] at hr
      rcases Nat.lt_or_ge n (encode a).length with hlt | hge
      · -- the cut is inside the first record
        rw [Nat.sub_eq_zero_of_le hlt.le, List.take_zero, List.append_nil] at hr
        rcases Nat.eq_zero_or_pos n with rfl | hpos
        · rw [List.take_zero, hf.scan_nil] at hr
          cases hr
        · rw [scan_torn (hf.next_cut a n hpos hlt)] at hr
          cases hr
      · rw [List.take_of_length_le hge, hf.scan_encode] at hr
        rcases List.mem_cons.mp hr with rfl | hr
        · exact List.mem_cons_self
        · exact List.mem_cons_of_mem _ (ih _ hr)

theorem mem_scan_take (hf : Framed next encode) (rs : List α)
    (rest : List UInt8) {n : Nat} (hn : (encodeAll encode rs).length ≤ n)
    {r : α} (hr : r ∈ rs) :
    r ∈ (scan next ((encodeAll encode rs ++ rest).take n)).1 := by
  rw [List.take_append, List.take_of_length_le hn, hf.scan_encodeAll]
  exact List.mem_append_left _ hr

end Framed

end BitcoinMachineCode.Foundation
