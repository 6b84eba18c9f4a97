import BitcoinMachineCode.Chain.BlockFilter
import BitcoinMachineCode.Wallet.Psbt

/-!
# What a built block filter decodes to

The reduction keeps the first of each kind, the radix sort sorts, and the word-wise writer
leaves the packed bits, so the bytes are the BIP158 filter of the distinct elements.  The
count has no nine-byte form: from 2^32 distinct elements on it is written short.
-/

namespace BitcoinMachineCode.Chain

open BitcoinMachineCode.Foundation Consensus Wallet

/-! ## The distinct elements -/

theorem tszFrom_eq_two_pow (k least j : Nat) : ∃ i, tszFrom k least (2 ^ j) = 2 ^ i := by
  induction k generalizing j with
  | zero => exact ⟨j, rfl⟩
  | succ k ih =>
      simp only [tszFrom]
      split
      · rw [← pow_succ']
        exact ih (j + 1)
      · exact ⟨j, rfl⟩

theorem le_tszFrom {k least tsz : Nat} (htsz : 0 < tsz) (h : least ≤ tsz + k) : least ≤ tszFrom k least tsz := by
  induction k generalizing tsz with
  | zero => exact h
  | succ k ih =>
      simp only [tszFrom]
      split
      case isTrue => exact ih (by omega) (by omega)
      case isFalse hge => omega

theorem tableSize_eq_two_pow (n : Nat) : ∃ i, tableSize n = 2 ^ i := tszFrom_eq_two_pow _ _ 0

theorem lt_tableSize (n : Nat) : n < tableSize n := by
  have hle : 2 * n + 2 ≤ tableSize n := le_tszFrom Nat.one_pos (by omega)
  omega

theorem and_tableSize (n x : Nat) : x &&& (tableSize n - 1) = x % tableSize n := by
  obtain ⟨i, hi⟩ := tableSize_eq_two_pow n
  rw [hi, Nat.and_two_pow_sub_one_eq_mod]

section Dedup

variable {k0 k1 : UInt64} {els : List (List UInt8)} {d : Dedup} {n : Nat}

/-- Where a stored element is compared by its hash and its bytes, the bytes decide. -/
def Dedup.Hashed (k0 k1 : UInt64) (d : Dedup) : Prop := ∀ v < d.w, d.h v = bfSiphash k0 k1 (d.el v)

def Dedup.Stored (k0 k1 : UInt64) (tsz : Nat) (d : Dedup) : Prop :=
  Probed (fun e => (bfSiphash k0 k1 e).toNat) tsz d.el d.tab d.w

theorem probeSlot_found {k pos v : Nat} {e : List UInt8} (honly : ∀ i v, d.tab i = some v → v < d.w)
    (hhash : d.Hashed k0 k1) (hfind : probeFind (tableSize n) d.el d.tab e k pos = some v) :
    probeSlot d (tableSize n) (bfSiphash k0 k1 e) e k pos = none := by
  induction k generalizing pos with
  | zero => rfl
  | succ k ih =>
      rw [probeFind] at hfind
      rw [probeSlot]
      cases htab : d.tab pos with
      | none => simp [htab] at hfind
      | some j =>
          simp only [htab] at hfind ⊢
          split at hfind
          case isTrue heq =>
            rw [if_pos ⟨by rw [hhash j (honly pos j htab), heq], heq⟩]
          case isFalse hne =>
            rw [if_neg (fun h => hne h.2), and_tableSize]
            exact ih hfind

theorem probeSlot_free (k0 k1 : UInt64) {k pos : Nat} {e : List UInt8} (hpos : pos < tableSize n)
    (hfind : probeFind (tableSize n) d.el d.tab e k pos = none)
    (hfree : ∃ j < k, d.tab ((pos + j) % tableSize n) = none) :
    ∃ p, probeSlot d (tableSize n) (bfSiphash k0 k1 e) e k pos = some p ∧
      probePut (tableSize n) d.tab d.w k pos = Function.update d.tab p (some d.w) := by
  induction k generalizing pos with
  | zero =>
      obtain ⟨j, hj, -⟩ := hfree
      omega
  | succ k ih =>
      rw [probeFind] at hfind
      rw [probeSlot, probePut]
      cases htab : d.tab pos with
      | none => exact ⟨pos, rfl, rfl⟩
      | some j =>
          simp only [htab] at hfind ⊢
          split at hfind
          case isTrue => cases hfind
          case isFalse hne =>
            rw [if_neg (fun h => hne h.2), and_tableSize]
            refine ih (Nat.mod_lt _ (Nat.zero_lt_of_lt hpos)) hfind ?_
            obtain ⟨j', hj', hnone⟩ := hfree
            cases j' with
            | zero =>
                rw [Nat.add_zero, Nat.mod_eq_of_lt hpos, htab] at hnone
                cases hnone
            | succ j' =>
                refine ⟨j', by omega, ?_⟩
                rw [Nat.mod_add_mod, Nat.add_assoc, Nat.add_comm 1 j']
                exact hnone

/-- After `i` elements: those kept are the distinct ones of them, and the rest is untouched. -/
structure Dedup.Kept (k0 k1 : UInt64) (els : List (List UInt8)) (i : Nat) (d : Dedup) : Prop where
  stored : d.Stored k0 k1 (tableSize els.length)
  hashed : d.Hashed k0 k1
  le : d.w ≤ i
  rest : ∀ j, i ≤ j → d.el j = els.getD j []
  mem : ∀ e, e ∈ items d.el d.w ↔ e ∈ els.take i

theorem mem_items {α : Type*} {f : Nat → α} {m : Nat} {a : α} : a ∈ items f m ↔ ∃ j < m, f j = a := by
  simp [items]

theorem items_update_last {α : Type*} (f : Nat → α) (m : Nat) (a : α) :
    items (Function.update f m a) (m + 1) = items f m ++ [a] := by
  rw [items_succ, Function.update_self]
  congr 1
  apply List.map_congr_left
  intro i hi
  have hne : i ≠ m := by
    have hlt := List.mem_range.mp hi
    omega
  rw [Function.update_of_ne hne]

theorem Dedup.Kept.step {i : Nat} (h : d.Kept k0 k1 els i) (hi : i < els.length) :
    (dedupStep k0 k1 (tableSize els.length) d i).Kept k0 k1 els (i + 1) := by
  have he : d.el i = els[i] := by
    rw [h.rest i le_rfl, List.getD_eq_getElem _ _ hi]
  have htake : els.take (i + 1) = els.take i ++ [els[i]] := by
    rw [List.take_add_one, List.getElem?_eq_getElem hi]
    rfl
  have hroom : d.w < tableSize els.length := by
    have hlt := lt_tableSize els.length
    have hle := h.le
    omega
  have hpos : (bfSiphash k0 k1 (d.el i)).toNat % tableSize els.length < tableSize els.length :=
    Nat.mod_lt _ (by omega)
  rw [dedupStep, and_tableSize]
  cases hfind : probeFind (tableSize els.length) d.el d.tab (d.el i) (tableSize els.length)
      ((bfSiphash k0 k1 (d.el i)).toNat % tableSize els.length) with
  | some v =>
      obtain ⟨hv, hkey⟩ := (Probed.find_eq_some_iff h.stored).mp hfind
      rw [probeSlot_found h.stored.only h.hashed hfind]
      refine ⟨h.stored, h.hashed, h.le.trans (Nat.le_succ i), fun j hj => h.rest j (by omega), fun e => ?_⟩
      have hmem : els[i] ∈ els.take i := (h.mem _).mp (mem_items.mpr ⟨v, hv, hkey.trans he⟩)
      rw [h.mem e, htake, List.mem_append, List.mem_singleton]
      constructor
      · exact .inl
      · rintro (hold | rfl)
        · exact hold
        · exact hmem
  | none =>
      have hnew : ∀ v < d.w, d.el v ≠ d.el i := by
        intro v hv heq
        rw [(Probed.find_eq_some_iff h.stored).mpr ⟨hv, heq⟩] at hfind
        cases hfind
      obtain ⟨j, hj, hfree⟩ := Probed.exists_free h.stored hroom ((bfSiphash k0 k1 (d.el i)).toNat)
      obtain ⟨p, hslot, hput⟩ := probeSlot_free k0 k1 hpos hfind
        ⟨j, hj, by rw [Nat.mod_add_mod]; exact hfree⟩
      rw [hslot]
      have hkeep : ∀ v < d.w, Function.update d.el d.w (d.el i) v = d.el v := fun v hv =>
        Function.update_of_ne (Nat.ne_of_lt hv) ..
      refine ⟨?_, ?_, ?_, ?_, ?_⟩
      · have hprobed := Probed.congr h.stored hkeep
        have hputs := hprobed.put hroom (fun v hv => by
          rw [hkeep v hv, Function.update_self]
          exact hnew v hv)
        rw [Function.update_self, hput] at hputs
        exact hputs
      · intro v hv
        rcases Nat.lt_succ_iff_lt_or_eq.mp hv with hv | rfl
        · simp only
          rw [hkeep v hv, Function.update_of_ne (Nat.ne_of_lt hv)]
          exact h.hashed v hv
        · simp
      · exact Nat.succ_le_succ h.le
      · intro j hj
        have hne : j ≠ d.w := by
          have hle := h.le
          omega
        simp only
        rw [Function.update_of_ne hne]
        exact h.rest j (by omega)
      · intro e
        rw [items_update_last, List.mem_append, h.mem e, htake, List.mem_append, he]

theorem kept_dedupAll (k0 k1 : UInt64) (els : List (List UInt8)) :
    (dedupAll k0 k1 els).Kept k0 k1 els els.length := by
  have hall : ∀ i ≤ els.length, Dedup.Kept k0 k1 els i ((List.range i).foldl (dedupStep k0 k1 (tableSize els.length))
      ⟨fun _ => none, fun i => els.getD i [], fun _ => 0, 0⟩) := by
    intro i hi
    induction i with
    | zero => exact ⟨probed_empty, nofun, le_rfl, fun _ _ => rfl, by simp [items]⟩
    | succ i ih =>
        rw [List.range_succ, List.foldl_append]
        exact (ih (by omega)).step hi
  exact hall els.length le_rfl

/-- What is kept are the distinct elements. -/
theorem kept_perm_dedup (k0 k1 : UInt64) (els : List (List UInt8)) :
    (items (dedupAll k0 k1 els).el (dedupAll k0 k1 els).w).Perm els.dedup := by
  have h := kept_dedupAll k0 k1 els
  refine (List.perm_ext_iff_of_nodup ?_ els.nodup_dedup).mpr fun e => ?_
  · refine List.Nodup.map_on ?_ List.nodup_range
    intro v hv v' hv' heq
    exact h.stored.key_inj v (List.mem_range.mp hv) v' (List.mem_range.mp hv') heq
  · rw [h.mem e, List.take_length, List.mem_dedup]

theorem w_dedupAll (k0 k1 : UInt64) (els : List (List UInt8)) : (dedupAll k0 k1 els).w = els.dedup.length := by
  simpa using (kept_perm_dedup k0 k1 els).length_eq

theorem items_h_dedupAll (k0 k1 : UInt64) (els : List (List UInt8)) :
    items (dedupAll k0 k1 els).h (dedupAll k0 k1 els).w =
      (items (dedupAll k0 k1 els).el (dedupAll k0 k1 els).w).map (bfSiphash k0 k1) := by
  rw [items, items, List.map_map]
  apply List.map_congr_left
  intro v hv
  exact (kept_dedupAll k0 k1 els).hashed v (List.mem_range.mp hv)

end Dedup

/-! ## The sort -/

theorem byteKey_eq {pass : Nat} (hpass : pass < 8) (v : UInt64) : byteKey pass v = digit UInt64.toNat 256 pass v := by
  have hshift : (UInt64.ofNat (8 * pass)).toNat = 8 * pass := by
    simpa using Nat.mod_eq_of_lt (show 8 * pass < 2 ^ 64 by omega)
  have hpow : 256 ^ pass = 2 ^ (8 * pass) := by rw [pow_mul]; rfl
  have hmask : (0xff : UInt64).toNat = 2 ^ 8 - 1 := rfl
  rw [byteKey, digit, UInt64.toNat_and, UInt64.toNat_shiftRight, hshift, Nat.mod_eq_of_lt (by omega : 8 * pass < 64),
    hmask, Nat.and_two_pow_sub_one_eq_mod, Nat.shiftRight_eq_div_pow, hpow]

/-- The passes done so far have sorted by as many bytes. -/
structure Sorting (n : Nat) (h : Nat → UInt64) (k : Nat) (src : Nat → UInt64) : Prop where
  perm : (items src n).Perm (items h n)
  sorted : SortedTo UInt64.toNat 256 k (items src n)

theorem Sorting.pass {n k : Nat} {h : Nat → UInt64} {s : (Nat → UInt64) × (Nat → UInt64)} (hs : Sorting n h k s.1)
    (hk : k < 8) : Sorting n h (k + 1) (radixPass n s k).1 := by
  have hkey : byteKey k = digit UInt64.toNat 256 k := funext (byteKey_eq hk)
  have hlt : ∀ x ∈ items s.1 n, digit UInt64.toNat 256 k x < 256 := fun x _ => Nat.mod_lt _ (by decide)
  unfold radixPass
  rw [hkey]
  split
  case isTrue hzero =>
    refine ⟨hs.perm, hs.sorted.skip ?_⟩
    rw [histogram_eq, bucket, ← List.countP_eq_length_filter] at hzero
    nth_rewrite 2 [← length_items s.1 n] at hzero
    simpa using List.countP_eq_length.mp hzero
  case isFalse =>
    have hitems := items_countingPass s.1 s.2 hlt
    refine ⟨?_, ?_⟩
    · rw [hitems]
      exact (buckets_perm hlt).trans hs.perm
    · rw [hitems]
      exact hs.sorted.buckets (by decide)

theorem items_bfRadixSort (h tmp : Nat → UInt64) (n : Nat) :
    (items (bfRadixSort h tmp n) n).Perm (items h n) ∧
      (items (bfRadixSort h tmp n) n).Pairwise fun a b => a.toNat ≤ b.toNat := by
  have hall : ∀ k ≤ 8, Sorting n h k ((List.range k).foldl (radixPass n) (h, tmp)).1 := by
    intro k hk
    induction k with
    | zero => exact ⟨List.Perm.refl _, sortedTo_zero _⟩
    | succ k ih =>
        rw [List.range_succ, List.foldl_append]
        exact (ih (by omega)).pass (by omega)
  obtain ⟨hperm, hsorted⟩ := hall 8 le_rfl
  exact ⟨hperm, hsorted.pairwise fun v _ => v.toNat_lt⟩

/-! ## The bit writer -/

namespace BitWriter

variable {w : BitWriter} {done pending : List Bool}

/-- The bits so far: those in whole bytes of the buffer and those still held back.  A writer
without room stays where it is. -/
def Wrote (w : BitWriter) (done pending : List Bool) : Prop :=
  (w.overflow = false ∧ 8 ∣ done.length ∧ done.length / 8 ≤ w.cap ∧ w.bitpos = done.length ∧
      w.nacc = pending.length ∧ w.acc % 2 ^ pending.length = bitsVal pending ∧
      items w.out (done.length / 8) = packBits done) ∨
    (w.overflow = true ∧ w.bitpos / 8 = w.cap ∧ w.cap < (done ++ pending).length / 8)

theorem packBits_append_dvd {xs : List Bool} (hxs : 8 ∣ xs.length) (ys : List Bool) :
    packBits (xs ++ ys) = packBits xs ++ packBits ys := by
  obtain ⟨k, hk⟩ := hxs
  induction k generalizing xs with
  | zero =>
      rw [List.length_eq_zero_iff.mp hk]
      rfl
  | succ k ih =>
      have hfront : (xs.take 8).length = 8 := by simp; omega
      have hback : (xs.drop 8).length = 8 * k := by simp; omega
      rw [← List.take_append_drop 8 xs, List.append_assoc, packBits_append hfront, packBits_append hfront, ih hback]
      rfl

theorem packBits_byte {bs : List Bool} (hne : bs ≠ []) (hle : bs.length ≤ 8) : packBits bs = [packByte bs] := by
  have hpos : 0 < bs.length := List.length_pos_iff.mpr hne
  have hone : (bs.length + 7) / 8 = 1 := by omega
  simp [packBits, hone, List.take_of_length_le hle]

theorem Wrote.emit (h : w.Wrote done pending) :
    ∃ done' pending', done' ++ pending' = done ++ pending ∧ w.emit.Wrote done' pending' ∧ w.emit.cap = w.cap ∧
      (w.emit.overflow = false → pending'.length < 8) := by
  induction hn : w.nacc using Nat.strong_induction_on generalizing w done pending with
  | _ n ih =>
      rw [BitWriter.emit]
      split
      case isFalse hshort =>
        refine ⟨done, pending, rfl, h, rfl, ?_⟩
        rcases h with ⟨-, -, -, -, hnacc, -, -⟩ | ⟨hover, -, -⟩
        · intro _
          omega
        · intro hno
          rw [hover] at hno
          cases hno
      case isTrue hlong =>
        split
        case isTrue hfull =>
          refine ⟨done, pending, rfl, .inr ⟨rfl, ?_, ?_⟩, rfl, by simp⟩
          · rcases h with ⟨-, -, hcap, hpos, -, -, -⟩ | ⟨-, hpos, -⟩
            · change w.bitpos / 8 = w.cap
              omega
            · exact hpos
          · rcases h with ⟨-, hdvd, hcap, hpos, hnacc, -, -⟩ | ⟨-, -, hlt⟩
            · change w.cap < (done ++ pending).length / 8
              rw [List.length_append]
              omega
            · exact hlt
        case isFalse hroom =>
          rcases h with ⟨hover, hdvd, hcap, hpos, hnacc, hacc, hout⟩ | ⟨-, hpos, -⟩
          · have hlen : (pending.take 8).length = 8 := by simp; omega
            have hdrop : (pending.drop 8).length = pending.length - 8 := by simp
            have hbyte : UInt8.ofNat (w.acc / 2 ^ (w.nacc - 8)) = packByte (pending.take 8) := by
              have hsplit := bitsVal_append (pending.take 8) (pending.drop 8)
              have hlow := bitsVal_lt (pending.drop 8)
              rw [List.take_append_drop] at hsplit
              have hval : w.acc / 2 ^ (w.nacc - 8) % 2 ^ 8 = bitsVal (pending.take 8) := by
                rw [← Nat.mod_mul_right_div_self, ← pow_add, hnacc, ← hdrop,
                  show (pending.drop 8).length + 8 = pending.length by omega, hacc, hsplit,
                  Nat.add_comm, Nat.add_mul_div_right _ _ (Nat.two_pow_pos _), Nat.div_eq_of_lt hlow, Nat.zero_add]
              rw [packByte, hlen, Nat.sub_self, pow_zero, Nat.mul_one, ← hval]
              apply UInt8.toNat_inj.mp
              simp
            have hnext : BitWriter.Wrote
                { w with
                  out := Function.update w.out (w.bitpos / 8) (UInt8.ofNat (w.acc / 2 ^ (w.nacc - 8)))
                  nacc := w.nacc - 8
                  bitpos := w.bitpos + 8 } (done ++ pending.take 8) (pending.drop 8) := by
              have hdone : (done ++ pending.take 8).length = done.length + 8 := by
                rw [List.length_append, hlen]
              refine .inl ⟨hover, ?_, ?_, ?_, ?_, ?_, ?_⟩
              · rw [hdone]
                omega
              · rw [hdone]
                change (done.length + 8) / 8 ≤ w.cap
                omega
              · rw [hdone]
                change w.bitpos + 8 = done.length + 8
                omega
              · change w.nacc - 8 = _
                omega
              · have hsplit := bitsVal_append (pending.take 8) (pending.drop 8)
                have hlow := bitsVal_lt (pending.drop 8)
                rw [List.take_append_drop] at hsplit
                have hdvd' : 2 ^ (pending.drop 8).length ∣ 2 ^ pending.length := Nat.pow_dvd_pow 2 (by omega)
                change w.acc % _ = _
                rw [← Nat.mod_mod_of_dvd _ hdvd', hacc, hsplit, Nat.add_comm, Nat.add_mul_mod_self_right,
                  Nat.mod_eq_of_lt hlow]
              · have hcount : (done.length + 8) / 8 = w.bitpos / 8 + 1 := by omega
                rw [hdone, hcount, items_update_last, hbyte, packBits_append_dvd hdvd,
                  packBits_byte (by intro hnil; rw [hnil] at hlen; cases hlen) hlen.le, hpos, hout]
            obtain ⟨done', pending', hbits, hwrote, hcap', hshort⟩ := ih (w.nacc - 8) (by omega) hnext rfl
            refine ⟨done', pending', ?_, hwrote, hcap', hshort⟩
            rw [hbits, List.append_assoc, List.take_append_drop]
          · omega

/-- The writer has put these bits. -/
def Has (w : BitWriter) (bits : List Bool) : Prop :=
  ∃ done pending, done ++ pending = bits ∧ w.Wrote done pending ∧ (w.overflow = false → pending.length < 8)

theorem has_new (cap : Nat) : Has ⟨fun _ => 0, cap, 0, false, 0, 0⟩ [] :=
  ⟨[], [], rfl, .inl ⟨rfl, by simp, by simp, rfl, rfl, by simp [Nat.mod_one], by simp [items, packBits]⟩, by simp⟩

variable {bits : List Bool}

theorem Has.put (h : w.Has bits) (v : Nat) {n : Nat} (hn : n ≤ 32) :
    (w.put v n).Has (bits ++ toBits n v) ∧ (w.put v n).cap = w.cap := by
  obtain ⟨done, pending, rfl, hwrote, hshort⟩ := h
  have hnext : BitWriter.Wrote
      { w with acc := ((w.acc <<< n) ||| (v % 2 ^ n)) % 2 ^ 64, nacc := w.nacc + n } done (pending ++ toBits n v) := by
    rcases hwrote with ⟨hover, hdvd, hcap, hpos, hnacc, hacc, hout⟩ | ⟨hover, hpos, hlt⟩
    · have hlen := hshort hover
      refine .inl ⟨hover, hdvd, hcap, hpos, by simp [hnacc], ?_, hout⟩
      have hdvd' : 2 ^ (pending ++ toBits n v).length ∣ 2 ^ 64 := Nat.pow_dvd_pow 2 (by simp; omega)
      change ((w.acc <<< n) ||| (v % 2 ^ n)) % 2 ^ 64 % _ = _
      have hlow : v % 2 ^ n < 2 ^ n := Nat.mod_lt _ (Nat.two_pow_pos n)
      rw [Nat.mod_mod_of_dvd _ hdvd', ← Nat.shiftLeft_add_eq_or_of_lt hlow, Nat.shiftLeft_eq, bitsVal_append,
        bitsVal_toBits, length_toBits, ← hacc, List.length_append, length_toBits, pow_add]
      have hmul : w.acc * 2 ^ n % (2 ^ pending.length * 2 ^ n) = w.acc % 2 ^ pending.length * 2 ^ n :=
        Nat.mul_mod_mul_right ..
      have hfit : w.acc % 2 ^ pending.length * 2 ^ n + v % 2 ^ n < 2 ^ pending.length * 2 ^ n := by
        have hacc' := Nat.mod_lt w.acc (Nat.two_pow_pos pending.length)
        calc w.acc % 2 ^ pending.length * 2 ^ n + v % 2 ^ n
            < w.acc % 2 ^ pending.length * 2 ^ n + 2 ^ n := by omega
          _ = (w.acc % 2 ^ pending.length + 1) * 2 ^ n := by ring
          _ ≤ 2 ^ pending.length * 2 ^ n := Nat.mul_le_mul_right _ hacc'
      rw [Nat.add_mod, hmul, Nat.mod_eq_of_lt (show v % 2 ^ n < 2 ^ pending.length * 2 ^ n by omega),
        Nat.mod_eq_of_lt hfit]
    · refine .inr ⟨hover, hpos, ?_⟩
      change w.cap < _
      simp only [List.length_append] at hlt ⊢
      omega
  obtain ⟨done', pending', hbits, hwrote', hcap', hshort'⟩ := hnext.emit
  refine ⟨⟨done', pending', ?_, hwrote', hshort'⟩, hcap'⟩
  rw [hbits, List.append_assoc]

theorem toBits_ones (n : Nat) : toBits n (2 ^ n - 1) = List.replicate n true := by
  have hbits := toBits_bitsVal (List.replicate n true)
  rwa [List.length_replicate, bitsVal_replicate_true] at hbits

theorem Has.ones (h : w.Has bits) (q : Nat) :
    (w.ones q).Has (bits ++ List.replicate q true) ∧ (w.ones q).cap = w.cap := by
  induction q using Nat.strong_induction_on generalizing w bits with
  | _ q ih =>
      rw [BitWriter.ones]
      split
      case isTrue hlong =>
        obtain ⟨hput, hcap⟩ := h.put 0xffffffff (n := 32) le_rfl
        obtain ⟨hrest, hcap'⟩ := ih (q - 32) (by omega) hput
        have hsplit : List.replicate q true = toBits 32 0xffffffff ++ List.replicate (q - 32) true := by
          rw [show (0xffffffff : Nat) = 2 ^ 32 - 1 by norm_num, toBits_ones, List.replicate_append_replicate,
            Nat.add_sub_cancel' hlong]
        rw [hsplit, ← List.append_assoc]
        exact ⟨hrest, hcap'.trans hcap⟩
      case isFalse hshort =>
        split
        case isTrue hzero =>
          subst hzero
          simpa using h
        case isFalse =>
          have hput := h.put (2 ^ q - 1) (n := q) (by omega)
          rwa [toBits_ones] at hput

theorem Has.delta (h : w.Has bits) (d : UInt64) :
    (w.delta d).Has (bits ++ riceBits 19 d.toNat) ∧ (w.delta d).cap = w.cap := by
  have hq : (d >>> 19).toNat = d.toNat / 2 ^ 19 := by
    rw [UInt64.toNat_shiftRight, Nat.shiftRight_eq_div_pow]
    rfl
  have hr : (d &&& 0x7ffff).toNat = d.toNat % 2 ^ 19 := by
    rw [UInt64.toNat_and, show (0x7ffff : UInt64).toNat = 2 ^ 19 - 1 from rfl, Nat.and_two_pow_sub_one_eq_mod]
  have hlow : toBits 19 (d.toNat % 2 ^ 19) = toBits 19 d.toNat := by
    have hleft := toBits_bitsVal (toBits 19 d.toNat)
    rwa [length_toBits, bitsVal_toBits] at hleft
  obtain ⟨h1, hcap1⟩ := h.ones (d.toNat / 2 ^ 19)
  obtain ⟨h2, hcap2⟩ := h1.put 0 (n := 1) (by decide)
  obtain ⟨h3, hcap3⟩ := h2.put (d.toNat % 2 ^ 19) (n := 19) (by decide)
  rw [BitWriter.delta, hq, hr]
  refine ⟨?_, hcap3.trans (hcap2.trans hcap1)⟩
  rw [hlow, show toBits 1 0 = [false] from rfl] at h3
  simpa [riceBits] using h3

/-- The end of the stream: the bytes are the packed bits if they fit. -/
theorem Has.finish (h : w.Has bits) :
    (w.finish.overflow = true ∧ w.cap < (bits.length + 7) / 8) ∨
      (w.finish.overflow = false ∧ (bits.length + 7) / 8 ≤ w.cap ∧
        items w.finish.out ((w.finish.bitpos + 7) / 8) = packBits bits) := by
  obtain ⟨done, pending, rfl, hwrote, hshort⟩ := h
  rw [List.length_append]
  unfold BitWriter.finish
  rcases hwrote with ⟨hover, hdvd, hcap, hpos, hnacc, hacc, hout⟩ | ⟨hover, hpos, hlt⟩
  · have hlen := hshort hover
    split
    case isTrue hzero =>
      have hnil : pending = [] := List.length_eq_zero_iff.mp (by omega)
      subst hnil
      have hcount : (w.bitpos + 7) / 8 = done.length / 8 := by omega
      refine .inr ⟨hover, by simp; omega, ?_⟩
      rw [hcount, hout, List.append_nil]
    case isFalse hsome =>
      have hne : pending ≠ [] := by
        intro hnil
        rw [hnil] at hnacc
        exact hsome hnacc
      split
      case isTrue hfull => exact .inl ⟨rfl, by omega⟩
      case isFalse hroom =>
        refine .inr ⟨hover, by omega, ?_⟩
        have hcount : (w.bitpos + w.nacc + 7) / 8 = w.bitpos / 8 + 1 := by omega
        have hbyte : UInt8.ofNat (w.acc <<< (8 - w.nacc)) = packByte pending := by
          have hmod : w.acc * 2 ^ (8 - w.nacc) % 2 ^ 8 = w.acc % 2 ^ w.nacc * 2 ^ (8 - w.nacc) := by
            rw [← Nat.mul_mod_mul_right, ← pow_add, Nat.add_sub_cancel' (by omega)]
          rw [packByte, ← hacc, ← hnacc, ← hmod, Nat.shiftLeft_eq]
          apply UInt8.toNat_inj.mp
          simp
        simp only
        rw [hcount, items_update_last, hbyte, packBits_append_dvd hdvd, packBits_byte hne hlen.le, hpos, hout]
  · refine .inl ⟨?_, by rw [List.length_append] at hlt; omega⟩
    split
    · exact hover
    · rw [if_pos (by omega)]

end BitWriter

/-! ## The bytes -/

/-- The count as it is written where there is room. -/
def shortCount (n : Nat) : List UInt8 :=
  if n < 0xfd then [UInt8.ofNat n] else if n ≤ 0xffff then 0xfd :: leBytes 2 n else 0xfe :: leBytes 4 n

theorem filterHeader_eq (n cap : Nat) :
    filterHeader n cap = if (shortCount n).length ≤ cap then some (shortCount n) else none := by
  unfold filterHeader shortCount
  split
  · split <;> split <;> simp_all
  · split
    · split <;> split <;> simp_all
      omega
    · split <;> split <;> simp_all
      omega

def riceStream (vs : List Nat) : List Bool := (deltas 0 vs).flatMap (riceBits 19)

theorem has_writeDeltas {w : BitWriter} {bits : List Bool} (h : w.Has bits) {prev : UInt64} {hs : List UInt64}
    (hsorted : (prev :: hs).Pairwise fun a b => a.toNat ≤ b.toNat) :
    ((hs.foldl (fun s h => (s.1.delta (h - s.2), h)) (w, prev)).1).Has
        (bits ++ (deltas prev.toNat (hs.map UInt64.toNat)).flatMap (riceBits 19)) ∧
      ((hs.foldl (fun s h => (s.1.delta (h - s.2), h)) (w, prev)).1).cap = w.cap := by
  induction hs generalizing w bits prev with
  | nil => simpa [deltas] using h
  | cons v hs ih =>
      obtain ⟨hle, htail⟩ := List.pairwise_cons.mp hsorted
      have hd : (v - prev).toNat = v.toNat - prev.toNat :=
        UInt64.toNat_sub_of_le _ _ (UInt64.le_iff_toNat_le.mpr (hle v List.mem_cons_self))
      obtain ⟨hdelta, hcap⟩ := h.delta (v - prev)
      obtain ⟨hrest, hcap'⟩ := ih hdelta htail
      rw [hd] at hrest
      refine ⟨?_, hcap'.trans hcap⟩
      simpa [deltas, List.append_assoc] using hrest

section Build

variable (k0 k1 : UInt64) (els : List (List UInt8))

theorem sortedHashes_perm :
    (sortedHashes k0 k1 els).Perm
      (els.dedup.map fun e => bfMap (bfSiphash k0 k1 e) (UInt64.ofNat els.dedup.length * 784931)) := by
  have hitems : ∀ nm, items (fun i => bfMap ((dedupAll k0 k1 els).h i) nm) (dedupAll k0 k1 els).w =
      (items (dedupAll k0 k1 els).el (dedupAll k0 k1 els).w).map fun e => bfMap (bfSiphash k0 k1 e) nm := by
    intro nm
    have hmap := congrArg (List.map fun h => bfMap h nm) (items_h_dedupAll k0 k1 els)
    rw [items, List.map_map, List.map_map] at hmap
    exact hmap
  refine (items_bfRadixSort _ _ _).1.trans ?_
  rw [hitems, w_dedupAll]
  have hperm := kept_perm_dedup k0 k1 els
  rw [w_dedupAll] at hperm
  exact hperm.map _

theorem sortedHashes_sorted : (sortedHashes k0 k1 els).Pairwise fun a b => a.toNat ≤ b.toNat :=
  (items_bfRadixSort _ _ _).2

/-- The stream of the sorted hashes. -/
def streamOf : List Bool := riceStream ((sortedHashes k0 k1 els).map UInt64.toNat)

theorem bfBuildHashed_eq (cap : Nat) :
    bfBuildHashed k0 k1 els cap =
      if (shortCount els.dedup.length).length + ((streamOf k0 k1 els).length + 7) / 8 ≤ cap then
        some (shortCount els.dedup.length ++ packBits (streamOf k0 k1 els))
      else none := by
  have hsorted : ((0 : UInt64) :: sortedHashes k0 k1 els).Pairwise fun a b => a.toNat ≤ b.toNat :=
    List.pairwise_cons.mpr ⟨fun v _ => Nat.zero_le v.toNat, sortedHashes_sorted k0 k1 els⟩
  have hhas := has_writeDeltas (BitWriter.has_new (cap - (shortCount els.dedup.length).length)) hsorted
  obtain ⟨hbits, hcap⟩ := hhas
  rw [List.nil_append] at hbits
  change (writeDeltas _ _).Has (streamOf k0 k1 els) at hbits
  change (writeDeltas _ _).cap = cap - (shortCount els.dedup.length).length at hcap
  rw [bfBuildHashed, w_dedupAll, filterHeader_eq]
  by_cases hroom : (shortCount els.dedup.length).length ≤ cap
  · simp only [if_pos hroom]
    rcases hbits.finish with ⟨hover, hlt⟩ | ⟨hover, hle, hout⟩
    · rw [hcap] at hlt
      rw [if_pos hover, if_neg (by omega)]
    · rw [hcap] at hle
      rw [if_neg (by simp [hover]), if_pos (by omega), hout]
  · simp only [if_neg hroom]
    rw [if_neg (by omega)]

/-! ## The filter of a set -/

/-- The sorted values of the distinct elements. -/
def filterValues : List Nat :=
  (els.dedup.map fun e => (bfSiphash k0 k1 e).toNat * (els.dedup.length * 784931) / 2 ^ 64).mergeSort

/-- The filter as BIP158 has it. -/
def filterEncoding : List UInt8 := wrVarint els.dedup.length ++ packBits (riceStream (filterValues k0 k1 els))

/-- A count, and as many values behind it. -/
def readFilter (bytes : List UInt8) : Option (Nat × List Nat) :=
  match readVarint false false bytes with
  | none => none
  | some (n, rest) => ((readRice 19).times n (unpackBits rest)).map fun x => (n, runningSums 0 x.1)

/-- The filter is written if it fits the buffer, and read back. -/
def FilterBuilt (cap : Nat) : Prop :=
  match bfBuildHashed k0 k1 els cap with
  | none => cap < (filterEncoding k0 k1 els).length
  | some out => (filterEncoding k0 k1 els).length ≤ cap ∧
      readFilter out = some (els.dedup.length, filterValues k0 k1 els)

variable {k0 k1 els}

theorem toNat_range {n : Nat} (hn : n < 2 ^ 32) : (UInt64.ofNat n * 784931).toNat = n * 784931 := by
  have hlen : (UInt64.ofNat n).toNat = n := by
    rw [UInt64.toNat_ofNat', Nat.mod_eq_of_lt (by omega)]
  have hm : (784931 : UInt64).toNat = 784931 := by simp
  rw [UInt64.toNat_mul, hlen, hm, Nat.mod_eq_of_lt (by omega)]

theorem toNat_bfMap (h nm : UInt64) : (bfMap h nm).toNat = h.toNat * nm.toNat / 2 ^ 64 := by
  have hlt : h.toNat * nm.toNat < 2 ^ 64 * 2 ^ 64 := Nat.mul_lt_mul'' h.toNat_lt nm.toNat_lt
  rw [bfMap, UInt64.toNat_ofNat', Nat.mod_eq_of_lt (Nat.div_lt_of_lt_mul hlt)]

theorem sortedHashes_values (hn : els.dedup.length < 2 ^ 32) :
    (sortedHashes k0 k1 els).map UInt64.toNat = filterValues k0 k1 els := by
  have hperm : ((sortedHashes k0 k1 els).map UInt64.toNat).Perm (filterValues k0 k1 els) := by
    have hvalues := (sortedHashes_perm k0 k1 els).map UInt64.toNat
    simp only [List.map_map, Function.comp_def, toNat_bfMap, toNat_range hn] at hvalues
    exact hvalues.trans (List.mergeSort_perm _ _).symm
  refine List.Perm.eq_of_pairwise' (r := (· ≤ ·)) ?_ ?_ hperm
  · rw [List.pairwise_map]
    exact sortedHashes_sorted k0 k1 els
  · have hsorted := @List.pairwise_mergeSort Nat (fun a b => decide (a ≤ b)) (by simp; omega) (by simp; omega)
      (els.dedup.map fun e => (bfSiphash k0 k1 e).toNat * (els.dedup.length * 784931) / 2 ^ 64)
    simpa [filterValues] using hsorted

theorem shortCount_eq {n : Nat} (hn : n < 2 ^ 32) : shortCount n = wrVarint n := by
  unfold shortCount wrVarint
  rw [if_pos (show n ≤ 0xffffffff by omega)]

theorem readFilter_encoding (hn : els.dedup.length < 2 ^ 32) :
    readFilter (filterEncoding k0 k1 els) = some (els.dedup.length, filterValues k0 k1 els) := by
  have hcount : readVarint false false (filterEncoding k0 k1 els) =
      some (els.dedup.length, packBits (riceStream (filterValues k0 k1 els))) :=
    takes_wrVarint (by omega) _
  have hlen : (filterValues k0 k1 els).length = els.dedup.length := by simp [filterValues]
  obtain ⟨pad, hpad⟩ := unpackBits_packBits (riceStream (filterValues k0 k1 els))
  have hread := takes_readRices 19 (deltas 0 (filterValues k0 k1 els)) (List.replicate pad false)
  rw [length_deltas, hlen] at hread
  have hsums : runningSums 0 (deltas 0 (filterValues k0 k1 els)) = filterValues k0 k1 els := by
    refine runningSums_deltas (List.pairwise_cons.mpr ⟨fun v _ => Nat.zero_le v, ?_⟩)
    have hsorted := sortedHashes_sorted k0 k1 els
    rw [← sortedHashes_values hn, List.pairwise_map]
    exact hsorted
  rw [readFilter, hcount]
  simp only
  rw [hpad, riceStream, hread]
  simp [hsums]

theorem filterBuilt_of_lt (hn : els.dedup.length < 2 ^ 32) (cap : Nat) : FilterBuilt k0 k1 els cap := by
  have hbytes : shortCount els.dedup.length ++ packBits (streamOf k0 k1 els) = filterEncoding k0 k1 els := by
    rw [shortCount_eq hn, streamOf, sortedHashes_values hn, filterEncoding]
  have hlen : (shortCount els.dedup.length).length + ((streamOf k0 k1 els).length + 7) / 8 =
      (filterEncoding k0 k1 els).length := by
    rw [← hbytes, List.length_append, length_packBits]
  rw [FilterBuilt, bfBuildHashed_eq, hlen, hbytes]
  by_cases hfits : (filterEncoding k0 k1 els).length ≤ cap
  · simp only [if_pos hfits]
    exact ⟨hfits, readFilter_encoding hn⟩
  · simp only [if_neg hfits]
    omega

/-- A count written short is not the count. -/
theorem readFilter_short {n m : Nat} (hn : 2 ^ 32 ≤ n) {rest : List UInt8} {vs : List Nat}
    (h : readFilter (shortCount n ++ rest) = some (m, vs)) : m ≠ n := by
  have hshort : shortCount n = 0xfe :: leBytes 4 n := by
    unfold shortCount
    rw [if_neg (by omega), if_neg (by omega)]
  have hcount : readVarint false false (shortCount n ++ rest) = some (leVal (leBytes 4 n), rest) := by
    have htakes : (readVarint false false).Takes (0xfe :: leBytes 4 n) (leVal (leBytes 4 n)) :=
      takes_varint_wide (by decide) (length_leBytes 4 n) nofun nofun
    rw [hshort]
    exact htakes rest
  have hlt : leVal (leBytes 4 n) < 256 ^ 4 := by
    have hle := leVal_lt (leBytes 4 n)
    rwa [length_leBytes] at hle
  rw [readFilter, hcount] at h
  obtain ⟨x, -, hx⟩ := Option.map_eq_some_iff.mp h
  have hm : leVal (leBytes 4 n) = m := congrArg Prod.fst hx
  omega

theorem not_filterBuilt_of_le (k0 k1 : UInt64) (hn : 2 ^ 32 ≤ els.dedup.length) : ∃ cap, ¬ FilterBuilt k0 k1 els cap := by
  refine ⟨(shortCount els.dedup.length).length + ((streamOf k0 k1 els).length + 7) / 8, fun h => ?_⟩
  rw [FilterBuilt, bfBuildHashed_eq, if_pos le_rfl] at h
  exact readFilter_short hn h.2 rfl

end Build

/-- The eight-byte strings of the first numbers. -/
def numbered (n : Nat) : List (List UInt8) := (List.range n).map (leBytes 8)

theorem length_dedup_numbered {n : Nat} (hn : n ≤ 2 ^ 64) : (numbered n).dedup.length = n := by
  have hnodup : (numbered n).Nodup := by
    refine List.Nodup.map_on ?_ List.nodup_range
    intro a ha b hb hab
    have hval := congrArg leVal hab
    rw [leVal_leBytes, leVal_leBytes] at hval
    have ha' := List.mem_range.mp ha
    have hb' := List.mem_range.mp hb
    rwa [Nat.mod_eq_of_lt (by omega), Nat.mod_eq_of_lt (by omega)] at hval
  rw [hnodup.dedup]
  simp [numbered]

theorem not_filterBuilt_numbered {n : Nat} (hle : 2 ^ 32 ≤ n) (hn : n ≤ 2 ^ 64) :
    ¬ ∀ cap, FilterBuilt 0 0 (numbered n) cap := by
  intro h
  have hlen : 2 ^ 32 ≤ (numbered n).dedup.length := by rwa [length_dedup_numbered hn]
  obtain ⟨cap, hcap⟩ := not_filterBuilt_of_le 0 0 hlen
  exact hcap (h cap)

end BitcoinMachineCode.Chain
