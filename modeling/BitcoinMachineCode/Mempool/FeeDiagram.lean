import BitcoinMachineCode.Foundation.RealDiagram
import BitcoinMachineCode.Mempool.Cluster

/-!
# Comparing two lists of chunks

`mpol_compare_chunks` walks along two diagrams at once.  It looks at each corner of either
one, in the order of their sizes, and asks on which side of the other diagram it lies; the
difference of the two is a line between corners, so this decides every real size.
-/

namespace BitcoinMachineCode.Mempool

open Foundation

structure MpolFf where
  fee : UInt64
  size : UInt64
  deriving DecidableEq, Repr

/-- One side of the walk: the chunks it has not reached and what the others add up to. -/
structure WalkSide where
  rest : List MpolFf
  accFee : Int
  accSize : Int
  deriving DecidableEq, Repr

def WalkSide.pointFee (s : WalkSide) (c : MpolFf) : Int := i128 (s.accFee + c.fee.toNat)
def WalkSide.pointSize (s : WalkSide) (c : MpolFf) : Int := i128 (s.accSize + c.size.toNat)

/-- The side behind its next chunk `c`. -/
def WalkSide.past (s : WalkSide) (c : MpolFf) (rest : List MpolFf) : WalkSide :=
  ⟨rest, s.pointFee c, s.pointSize c⟩

def cmpOf (l r : Int) : Int := if r < l then 1 else if l < r then -1 else 0

/-- The next point of side `p` against side `o`: against the slope of its next chunk, or
against a slope of 0 where it has none. -/
def slopeCmp (p : WalkSide) (c : MpolFf) (o : WalkSide) : Int :=
  let sapf := i128 (p.pointFee c - o.accFee)
  let saps := i128 (p.pointSize c - o.accSize)
  match o.rest with
  | [] => cmpOf sapf 0
  | d :: _ =>
      let sabf := i128 (o.pointFee d - o.accFee)
      let sabs := i128 (o.pointSize d - o.accSize)
      cmpOf (i128 (sapf * sabs)) (i128 (sabf * saps))

/-- Side `o` goes along where its next point has the same size. -/
def skipEqual (p : WalkSide) (c : MpolFf) (o : WalkSide) : WalkSide :=
  match o.rest with
  | [] => o
  | d :: rest => if o.pointSize d = p.pointSize c then o.past d rest else o

/-- Whether the next point is taken on the second side. -/
def sideOf (s₀ s₁ : WalkSide) : Bool :=
  match s₀.rest, s₁.rest with
  | c₀ :: _, c₁ :: _ => s₁.pointSize c₁ < s₀.pointSize c₀
  | rest, _ => rest.isEmpty

def compareLoop : Nat → WalkSide → WalkSide → Bool → Bool → Int
  | 0, _, _, b₀, b₁ => b₀.toNat - b₁.toNat
  | fuel + 1, s₀, s₁, b₀, b₁ =>
      if sideOf s₀ s₁ then
        match s₁.rest with
        | [] => b₀.toNat - b₁.toNat
        | c :: rest =>
            let cmp := slopeCmp s₁ c s₀
            let b₀ := b₀ || decide (cmp < 0)
            let b₁ := b₁ || decide (0 < cmp)
            if b₀ && b₁ then 2
            else compareLoop fuel (skipEqual s₁ c s₀) (s₁.past c rest) b₀ b₁
      else
        match s₀.rest with
        | [] => b₀.toNat - b₁.toNat
        | c :: rest =>
            let cmp := slopeCmp s₀ c s₁
            let b₀ := b₀ || decide (0 < cmp)
            let b₁ := b₁ || decide (cmp < 0)
            if b₀ && b₁ then 2
            else compareLoop fuel (s₀.past c rest) (skipEqual s₀ c s₁) b₀ b₁

/-- Every round takes a chunk, so the number of chunks is fuel enough. -/
def mpolCompareChunks (c₀ c₁ : List MpolFf) : Int :=
  compareLoop (c₀.length + c₁.length) ⟨c₀, 0, 0⟩ ⟨c₁, 0, 0⟩ false false

/-! ## The diagrams -/

def MpolFf.segment (c : MpolFf) : Segment := ⟨c.fee.toNat, c.size.toNat⟩

/-- The fee at each real size, flat after the last chunk. -/
noncomputable def feeAt (chunks : List MpolFf) (x : ℝ) : ℝ :=
  heightAt (chunks.map MpolFf.segment) x

/-- The diagram as a side has it before it. -/
noncomputable def WalkSide.graph (s : WalkSide) (x : ℝ) : ℝ :=
  s.accFee + feeAt s.rest (x - s.accSize)

def feeSum (chunks : List MpolFf) : Nat := (chunks.map fun c => c.fee.toNat).sum
def sizeSum (chunks : List MpolFf) : Nat := (chunks.map fun c => c.size.toNat).sum

/-- The sums stay within `F` and `S`, and the sizes to come are positive. -/
structure WalkSide.Within (s : WalkSide) (F S : Int) : Prop where
  fee_nonneg : 0 ≤ s.accFee
  size_nonneg : 0 ≤ s.accSize
  fee_le : s.accFee + feeSum s.rest ≤ F
  size_le : s.accSize + sizeSum s.rest ≤ S
  sizes : ∀ c ∈ s.rest, 0 < c.size

/-- The products of the walk stay within 128 bits. -/
structure Bounded (F S : Int) : Prop where
  fee : F < 2 ^ 127
  size : S < 2 ^ 127
  product : F * S < 2 ^ 127

section Side

variable {F S : Int} {p o s : WalkSide} {c : MpolFf} {rest : List MpolFf}

theorem forward_segments {chunks : List MpolFf} (h : ∀ c ∈ chunks, 0 < c.size) :
    Forward (chunks.map MpolFf.segment) := by
  intro t ht
  obtain ⟨c, hc, rfl⟩ := List.mem_map.mp ht
  have hpos : 0 < c.size.toNat := UInt64.lt_iff_toNat_lt.mp (h c hc)
  exact Nat.cast_pos.mpr hpos

theorem WalkSide.Within.head (h : s.Within F S) (hrest : s.rest = c :: rest) :
    s.accFee + c.fee.toNat ≤ F ∧ s.accSize + c.size.toNat ≤ S ∧ 0 < c.size.toNat := by
  have hfee := h.fee_le
  have hsize := h.size_le
  have hpos : 0 < c.size.toNat :=
    UInt64.lt_iff_toNat_lt.mp (h.sizes c (by rw [hrest]; exact List.mem_cons_self))
  simp only [hrest, feeSum, sizeSum, List.map_cons, List.sum_cons, Nat.cast_add] at hfee hsize
  omega

theorem WalkSide.Within.point (hb : Bounded F S) (h : s.Within F S) (hrest : s.rest = c :: rest) :
    s.pointFee c = s.accFee + c.fee.toNat ∧ s.pointSize c = s.accSize + c.size.toNat := by
  obtain ⟨hfee, hsize, -⟩ := h.head hrest
  have := h.fee_nonneg
  have := h.size_nonneg
  have := hb.fee
  have := hb.size
  exact ⟨i128_of_lt (by omega) (by omega), i128_of_lt (by omega) (by omega)⟩

theorem WalkSide.Within.past (hb : Bounded F S) (h : s.Within F S) (hrest : s.rest = c :: rest) :
    (s.past c rest).Within F S := by
  obtain ⟨hpf, hps⟩ := h.point hb hrest
  have hfee := h.fee_le
  have hsize := h.size_le
  have := h.fee_nonneg
  have := h.size_nonneg
  simp only [hrest, feeSum, sizeSum, List.map_cons, List.sum_cons, Nat.cast_add] at hfee hsize
  refine ⟨?_, ?_, ?_, ?_, fun d hd => h.sizes d (by rw [hrest]; exact List.mem_cons_of_mem _ hd)⟩
  · simp only [WalkSide.past, hpf]
    omega
  · simp only [WalkSide.past, hps]
    omega
  · simp only [WalkSide.past, hpf, feeSum]
    omega
  · simp only [WalkSide.past, hps, sizeSum]
    omega

/-- Up to its next point a side is a line. -/
theorem WalkSide.Within.graph_line (hb : Bounded F S) (h : s.Within F S) (hrest : s.rest = c :: rest)
    {x : ℝ} (hx : x ≤ s.pointSize c) :
    s.graph x = s.accFee + c.fee.toNat / c.size.toNat * (x - s.accSize) := by
  obtain ⟨-, hps⟩ := h.point hb hrest
  rw [hps] at hx
  push_cast at hx
  unfold WalkSide.graph feeAt
  rw [hrest, List.map_cons, heightAt, if_pos (by simp only [MpolFf.segment, Rat.cast_natCast]; linarith)]
  simp only [MpolFf.segment, Rat.cast_natCast]
  ring

/-- From its next point on a side is the side behind it. -/
theorem WalkSide.Within.graph_past (hb : Bounded F S) (h : s.Within F S) (hrest : s.rest = c :: rest)
    {x : ℝ} (hx : s.pointSize c ≤ x) : (s.past c rest).graph x = s.graph x := by
  obtain ⟨hpf, hps⟩ := h.point hb hrest
  have hfwd := forward_segments h.sizes
  rw [hrest, List.map_cons] at hfwd
  unfold WalkSide.graph feeAt
  simp only [WalkSide.past]
  rw [hps] at hx
  push_cast at hx
  rw [hrest, List.map_cons, heightAt_cons_of_run_le hfwd
    (by simp only [MpolFf.segment, Rat.cast_natCast]; linarith), hpf, hps]
  simp only [MpolFf.segment, Rat.cast_natCast]
  push_cast
  ring_nf

theorem graph_of_rest_nil (hrest : s.rest = []) (x : ℝ) : s.graph x = s.accFee := by
  unfold WalkSide.graph feeAt
  rw [hrest]
  simp [heightAt]

theorem cmpOf_pos {l r : Int} : 0 < cmpOf l r ↔ r < l := by
  unfold cmpOf
  split_ifs <;> omega

theorem cmpOf_neg {l r : Int} : cmpOf l r < 0 ↔ l < r := by
  unfold cmpOf
  split_ifs <;> omega

/-- The next point of the side lies beyond `t`. -/
def Beyond (s : WalkSide) (t : Int) : Prop := ∀ c rest, s.rest = c :: rest → t < s.pointSize c

/-- The point of `p` is the first to come. -/
def FirstOf (p : WalkSide) (c : MpolFf) (o : WalkSide) : Prop :=
  ∀ d rest, o.rest = d :: rest → p.pointSize c ≤ o.pointSize d

theorem i128_product (hb : Bounded F S) {x y : Int} (hlow : -F ≤ x) (hhigh : x ≤ F) (hy : 0 ≤ y)
    (hyS : y ≤ S) : i128 (x * y) = x * y := by
  have hF : 0 ≤ F := by omega
  have hbound : F * y ≤ F * S := mul_le_mul_of_nonneg_left hyS hF
  have hup : x * y ≤ F * y := mul_le_mul_of_nonneg_right hhigh hy
  have hdown : -F * y ≤ x * y := mul_le_mul_of_nonneg_right hlow hy
  have := hb.product
  rw [neg_mul] at hdown
  exact i128_of_lt (by omega) (by omega)

/-- The comparison of slopes asks where the point lies. -/
theorem slopeCmp_spec (hb : Bounded F S) (hp : p.Within F S) (ho : o.Within F S)
    (hrest : p.rest = c :: rest) (hahead : Beyond p o.accSize) (hfirst : FirstOf p c o) :
    (0 < slopeCmp p c o ↔ o.graph (p.pointSize c) < p.pointFee c) ∧
      (slopeCmp p c o < 0 ↔ (p.pointFee c : ℝ) < o.graph (p.pointSize c)) := by
  obtain ⟨hpf, hps⟩ := hp.point hb hrest
  obtain ⟨hpfle, hpsle, -⟩ := hp.head hrest
  have hfee := hp.fee_nonneg
  have hsize := hp.size_nonneg
  have hofee := ho.fee_nonneg
  have hosize := ho.size_nonneg
  have hFlt := hb.fee
  have hSlt := hb.size
  have hsapf : i128 (p.pointFee c - o.accFee) = p.pointFee c - o.accFee := by
    have := ho.fee_le
    exact i128_of_lt (by omega) (by omega)
  have hsaps : i128 (p.pointSize c - o.accSize) = p.pointSize c - o.accSize := by
    have := ho.size_le
    exact i128_of_lt (by omega) (by omega)
  have hpast := hahead c rest hrest
  unfold slopeCmp
  rw [hsapf, hsaps]
  cases horest : o.rest with
  | nil =>
      simp only
      rw [graph_of_rest_nil horest, cmpOf_pos, cmpOf_neg, Int.cast_lt, Int.cast_lt]
      omega
  | cons d orest =>
      obtain ⟨hbf, hbs⟩ := ho.point hb horest
      obtain ⟨hbfle, hbsle, hpos⟩ := ho.head horest
      simp only
      rw [hbf, hbs, add_sub_cancel_left, add_sub_cancel_left,
        i128_of_lt (show -2 ^ 127 ≤ ((d.fee.toNat : Nat) : Int) by omega) (by omega),
        i128_of_lt (show -2 ^ 127 ≤ ((d.size.toNat : Nat) : Int) by omega) (by omega),
        i128_product hb (by omega) (by omega) (by omega) (by omega),
        i128_product hb (by omega) (by omega) (by omega) (by omega), cmpOf_pos, cmpOf_neg]
      have hline := ho.graph_line hb horest (Int.cast_le.mpr (hfirst d orest horest))
      have hdpos : (0 : ℝ) < d.size.toNat := Nat.cast_pos.mpr hpos
      -- both sides of the comparison, multiplied by the run of the other side's chunk
      have hscaled : d.size.toNat * o.graph (p.pointSize c) =
          d.size.toNat * (o.accFee : ℝ) + d.fee.toNat * (p.pointSize c - o.accSize) := by
        rw [hline]
        field_simp
      have hscale : ∀ y : ℝ, (o.graph (p.pointSize c) < y ↔
          d.size.toNat * o.graph (p.pointSize c) < d.size.toNat * y) ∧
          (y < o.graph (p.pointSize c) ↔
            d.size.toNat * y < d.size.toNat * o.graph (p.pointSize c)) :=
        fun y => ⟨(mul_lt_mul_iff_right₀ hdpos).symm, (mul_lt_mul_iff_right₀ hdpos).symm⟩
      rw [(hscale _).1, (hscale _).2, hscaled, ← Int.cast_lt (R := ℝ), ← Int.cast_lt (R := ℝ)]
      push_cast
      constructor
      · constructor <;> intro h <;> linarith
      · constructor <;> intro h <;> linarith

/-- What a round that takes the point of `p` leaves. -/
structure Rounded (F S : Int) (p o p' o' : WalkSide) (b : Int) : Prop where
  withinP : p'.Within F S
  withinO : o'.Within F S
  beyondP : Beyond p' b
  beyondO : Beyond o' b
  reachP : p'.accSize = b
  reachO : o'.accSize ≤ b
  graphP : ∀ x : ℝ, b ≤ x → p'.graph x = p.graph x
  graphO : ∀ x : ℝ, b ≤ x → o'.graph x = o.graph x

theorem rounded (hb : Bounded F S) (hp : p.Within F S) (ho : o.Within F S)
    (hrest : p.rest = c :: rest) (hahead : Beyond p o.accSize) (hfirst : FirstOf p c o) :
    Rounded F S p o (p.past c rest) (skipEqual p c o) (p.pointSize c) := by
  have hpast := hahead c rest hrest
  have hwithin := hp.past hb hrest
  have hbeyond : ∀ {s : WalkSide} {b : Int}, s.Within F S → s.accSize = b → Beyond s b := by
    intro s b hs hreach d rest hd
    obtain ⟨-, hsize⟩ := hs.point hb hd
    obtain ⟨-, -, hpos⟩ := hs.head hd
    omega
  unfold skipEqual
  cases horest : o.rest with
  | nil =>
      refine ⟨hwithin, ho, hbeyond hwithin rfl, fun d r hd => ?_, rfl, hpast.le,
        fun x hx => hp.graph_past hb hrest hx, fun x _ => rfl⟩
      rw [horest] at hd
      cases hd
  | cons d orest =>
      simp only
      split
      · next heq =>
          have howithin := ho.past hb horest
          refine ⟨hwithin, howithin, hbeyond hwithin rfl, hbeyond howithin heq, rfl, heq.le,
            fun x hx => hp.graph_past hb hrest hx, fun x hx => ?_⟩
          exact ho.graph_past hb horest (by rw [heq]; exact hx)
      · next hne =>
          refine ⟨hwithin, ho, hbeyond hwithin rfl, fun e r he => ?_, rfl, hpast.le,
            fun x hx => hp.graph_past hb hrest hx, fun x _ => rfl⟩
          obtain ⟨rfl, rfl⟩ := List.cons.inj (horest.symm.trans he)
          exact lt_of_le_of_ne (hfirst d orest horest) (Ne.symm hne)

theorem WalkSide.Within.exists_line (hb : Bounded F S) (h : s.Within F S) {b : Int}
    (hnext : ∀ c rest, s.rest = c :: rest → b ≤ s.pointSize c) :
    ∃ q r : ℝ, ∀ x : ℝ, x ≤ b → s.graph x = q + r * x := by
  cases hrest : s.rest with
  | nil => exact ⟨s.accFee, 0, fun x _ => by rw [graph_of_rest_nil hrest, zero_mul, add_zero]⟩
  | cons c rest =>
      refine ⟨s.accFee - c.fee.toNat / c.size.toNat * s.accSize, c.fee.toNat / c.size.toNat,
        fun x hx => ?_⟩
      rw [h.graph_line hb hrest (hx.trans (Int.cast_le.mpr (hnext c rest hrest)))]
      ring

theorem WalkSide.Within.graph_start (h : s.Within F S) : s.graph s.accSize = s.accFee := by
  unfold WalkSide.graph feeAt
  rw [sub_self, heightAt_zero (forward_segments h.sizes), add_zero]

/-- Side `p` is above side `o` somewhere from `t` on. -/
def Over (p o : WalkSide) (t : Int) : Prop := ∃ x : ℝ, t ≤ x ∧ o.graph x < p.graph x

/-- The walk at size `t`: the sides so far, and that what is true at `t` has been noticed. -/
structure Standing (F S : Int) (p o : WalkSide) (t : Int) (bp bo : Bool) : Prop where
  withinP : p.Within F S
  withinO : o.Within F S
  beyondP : Beyond p t
  beyondO : Beyond o t
  reachP : p.accSize ≤ t
  reachO : o.accSize ≤ t
  noticedP : o.graph t < p.graph t → bp = true
  noticedO : p.graph t < o.graph t → bo = true

theorem Standing.swap {t : Int} {bp bo : Bool} (h : Standing F S p o t bp bo) :
    Standing F S o p t bo bp :=
  ⟨h.withinO, h.withinP, h.beyondO, h.beyondP, h.reachO, h.reachP, h.noticedO, h.noticedP⟩

theorem Over.past_iff {p' o' : WalkSide} {b : Int} (hr : Rounded F S p o p' o' b) :
    (Over p o b ↔ Over p' o' b) ∧ (Over o p b ↔ Over o' p' b) := by
  constructor
  · constructor <;> rintro ⟨x, hx, hlt⟩ <;> refine ⟨x, hx, ?_⟩
    · rwa [hr.graphP x hx, hr.graphO x hx]
    · rwa [hr.graphP x hx, hr.graphO x hx] at hlt
  · constructor <;> rintro ⟨x, hx, hlt⟩ <;> refine ⟨x, hx, ?_⟩
    · rwa [hr.graphP x hx, hr.graphO x hx]
    · rwa [hr.graphP x hx, hr.graphO x hx] at hlt

/-- Between the size reached and the next point nothing new is to be seen. -/
theorem over_iff (hb : Bounded F S) {t b : Int} (hp : p.Within F S) (ho : o.Within F S) (htb : t ≤ b)
    (hnextP : ∀ c rest, p.rest = c :: rest → b ≤ p.pointSize c)
    (hnextO : ∀ c rest, o.rest = c :: rest → b ≤ o.pointSize c) :
    Over p o t ↔ o.graph t < p.graph t ∨ Over p o b := by
  obtain ⟨q, r, hpline⟩ := hp.exists_line hb hnextP
  obtain ⟨q', r', holine⟩ := ho.exists_line hb hnextO
  exact exists_lt_iff_of_lines (Int.cast_le.mpr htb) (fun x _ hx => hpline x hx)
    fun x _ hx => holine x hx

/-- A round notices what there is to notice at its point. -/
theorem noticed_iff {a seen b b' left left' : Prop} (hleft : left ↔ seen ∨ left') (hseen : seen → b)
    (hb' : b' ↔ b ∨ a) (ha : a → left') : b ∨ left ↔ b' ∨ left' := by
  tauto

theorem Standing.round (hb : Bounded F S) {t : Int} {bp bo : Bool} (h : Standing F S p o t bp bo)
    (hrest : p.rest = c :: rest) (hfirst : FirstOf p c o) :
    Standing F S (p.past c rest) (skipEqual p c o) (p.pointSize c)
        (bp || decide (0 < slopeCmp p c o)) (bo || decide (slopeCmp p c o < 0)) ∧
      ((bp = true ∨ Over p o t) ↔
        ((bp || decide (0 < slopeCmp p c o)) = true ∨
          Over (p.past c rest) (skipEqual p c o) (p.pointSize c))) ∧
      ((bo = true ∨ Over o p t) ↔
        ((bo || decide (slopeCmp p c o < 0)) = true ∨
          Over (skipEqual p c o) (p.past c rest) (p.pointSize c))) := by
  have hahead : Beyond p o.accSize := fun d r hd => h.reachO.trans_lt (h.beyondP d r hd)
  have hr := rounded hb h.withinP h.withinO hrest hahead hfirst
  obtain ⟨hpos, hneg⟩ := slopeCmp_spec hb h.withinP h.withinO hrest hahead hfirst
  have hpoint : (p.past c rest).graph (p.pointSize c) = p.pointFee c := hr.withinP.graph_start
  rw [← hpoint, ← hr.graphO _ le_rfl] at hpos hneg
  have htb : t ≤ p.pointSize c := (h.beyondP c rest hrest).le
  have hnextP : ∀ d r, p.rest = d :: r → p.pointSize c ≤ p.pointSize d := by
    intro d r hd
    rw [(List.cons.inj (hrest.symm.trans hd)).1]
  obtain ⟨hpastP, hpastO⟩ := Over.past_iff hr
  have hoverP := over_iff hb h.withinP h.withinO htb hnextP hfirst
  have hoverO := over_iff hb h.withinO h.withinP htb hfirst hnextP
  rw [hpastP] at hoverP
  rw [hpastO] at hoverO
  refine ⟨⟨hr.withinP, hr.withinO, hr.beyondP, hr.beyondO, hr.reachP.le, hr.reachO, ?_, ?_⟩, ?_, ?_⟩
  · intro hlt
    rw [Bool.or_eq_true, decide_eq_true_eq]
    exact .inr (hpos.mpr hlt)
  · intro hlt
    rw [Bool.or_eq_true, decide_eq_true_eq]
    exact .inr (hneg.mpr hlt)
  · refine noticed_iff hoverP h.noticedP ?_ fun hlt => ⟨_, le_rfl, hpos.mp hlt⟩
    rw [Bool.or_eq_true, decide_eq_true_eq]
  · refine noticed_iff hoverO h.noticedO ?_ fun hlt => ⟨_, le_rfl, hneg.mp hlt⟩
    rw [Bool.or_eq_true, decide_eq_true_eq]

/-- With nothing left on either side the difference stays as it is. -/
theorem Standing.not_over {t : Int} {bp bo : Bool} (h : Standing F S p o t bp bo) (hp : p.rest = [])
    (ho : o.rest = []) : (bp = true ↔ bp = true ∨ Over p o t) := by
  refine ⟨.inl, fun hor => hor.elim id fun ⟨x, _, hlt⟩ => h.noticedP ?_⟩
  rw [graph_of_rest_nil hp, graph_of_rest_nil ho] at hlt ⊢
  exact hlt

def verdictOf (b₀ b₁ : Bool) : Int := if b₀ && b₁ then 2 else b₀.toNat - b₁.toNat

theorem length_skipEqual_le (p : WalkSide) (c : MpolFf) (o : WalkSide) :
    (skipEqual p c o).rest.length ≤ o.rest.length := by
  unfold skipEqual
  split
  · exact le_rfl
  · next d orest horest =>
      split
      · rw [horest]
        exact Nat.le_succ _
      · exact le_rfl

theorem sideOf_true {s₀ s₁ : WalkSide} (h : sideOf s₀ s₁ = true) :
    (s₁.rest = [] → s₀.rest = []) ∧ ∀ c rest, s₁.rest = c :: rest → FirstOf s₁ c s₀ := by
  unfold sideOf at h
  constructor
  · intro hnil
    rw [hnil] at h
    cases hrest : s₀.rest with
    | nil => rfl
    | cons d rest =>
        rw [hrest] at h
        cases h
  · intro c rest hrest d rest' hd
    rw [hrest, hd] at h
    exact (of_decide_eq_true h).le

theorem sideOf_false {s₀ s₁ : WalkSide} (h : ¬ sideOf s₀ s₁ = true) :
    s₀.rest ≠ [] ∧ ∀ c rest, s₀.rest = c :: rest → FirstOf s₀ c s₁ := by
  unfold sideOf at h
  constructor
  · intro hnil
    rw [hnil] at h
    exact h rfl
  · intro c rest hrest d rest' hd
    rw [hrest, hd] at h
    exact not_lt.mp fun hlt => h (decide_eq_true hlt)

/-- The answer says which side is above the other from `t` on, or was before. -/
def Answers (s₀ s₁ : WalkSide) (t : Int) (b₀ b₁ : Bool) (answer : Int) : Prop :=
  ∃ f₀ f₁ : Bool, answer = verdictOf f₀ f₁ ∧
    (f₀ = true ↔ b₀ = true ∨ Over s₀ s₁ t) ∧ (f₁ = true ↔ b₁ = true ∨ Over s₁ s₀ t)

theorem Standing.answers_end {s₀ s₁ : WalkSide} {t : Int} {b₀ b₁ : Bool}
    (h : Standing F S s₀ s₁ t b₀ b₁) (hboth : (b₀ && b₁) = false) (h₀ : s₀.rest = [])
    (h₁ : s₁.rest = []) : Answers s₀ s₁ t b₀ b₁ (b₀.toNat - b₁.toNat) := by
  refine ⟨b₀, b₁, ?_, h.not_over h₀ h₁, h.swap.not_over h₁ h₀⟩
  unfold verdictOf
  rw [hboth]
  rfl

/-- The walk goes on, or stops because each side has been above the other. -/
theorem Answers.back {s₀ s₁ s₀' s₁' : WalkSide} {t b : Int} {b₀ b₁ b₀' b₁' : Bool} {answer : Int}
    (h₀ : b₀ = true ∨ Over s₀ s₁ t ↔ b₀' = true ∨ Over s₀' s₁' b)
    (h₁ : b₁ = true ∨ Over s₁ s₀ t ↔ b₁' = true ∨ Over s₁' s₀' b)
    (hrest : (b₀' && b₁') = false → Answers s₀' s₁' b b₀' b₁' answer) :
    Answers s₀ s₁ t b₀ b₁ (if b₀' && b₁' then 2 else answer) := by
  cases hboth : b₀' && b₁' with
  | true =>
      rw [Bool.and_eq_true] at hboth
      exact ⟨true, true, rfl, iff_of_true rfl (h₀.mpr (.inl hboth.1)),
        iff_of_true rfl (h₁.mpr (.inl hboth.2))⟩
  | false =>
      obtain ⟨f₀, f₁, heq, hf₀, hf₁⟩ := hrest hboth
      exact ⟨f₀, f₁, heq, hf₀.trans h₀.symm, hf₁.trans h₁.symm⟩

theorem compareLoop_spec (hb : Bounded F S) {fuel : Nat} {s₀ s₁ : WalkSide} {t : Int}
    {b₀ b₁ : Bool} (h : Standing F S s₀ s₁ t b₀ b₁) (hfuel : s₀.rest.length + s₁.rest.length ≤ fuel)
    (hboth : (b₀ && b₁) = false) :
    Answers s₀ s₁ t b₀ b₁ (compareLoop fuel s₀ s₁ b₀ b₁) := by
  induction fuel generalizing s₀ s₁ t b₀ b₁ with
  | zero =>
      exact h.answers_end hboth (List.length_eq_zero_iff.mp (by omega))
        (List.length_eq_zero_iff.mp (by omega))
  | succ fuel ih =>
      unfold compareLoop
      by_cases hside : sideOf s₀ s₁ = true
      · obtain ⟨hnil, hfirst⟩ := sideOf_true hside
        rw [if_pos hside]
        split
        · next hrest => exact h.answers_end hboth (hnil hrest) hrest
        · next c rest hrest =>
            obtain ⟨hstand, h₁, h₀⟩ := h.swap.round hb hrest (hfirst c rest hrest)
            refine Answers.back h₀ h₁ (ih hstand.swap ?_)
            have hskip := length_skipEqual_le s₁ c s₀
            rw [hrest, List.length_cons] at hfuel
            simp only [WalkSide.past]
            omega
      · obtain ⟨hne, hfirst⟩ := sideOf_false hside
        rw [if_neg hside]
        split
        · next hrest => exact absurd hrest hne
        · next c rest hrest =>
            obtain ⟨hstand, h₀, h₁⟩ := h.round hb hrest (hfirst c rest hrest)
            refine Answers.back h₀ h₁ (ih hstand ?_)
            have hskip := length_skipEqual_le s₀ c s₁
            rw [hrest, List.length_cons] at hfuel
            simp only [WalkSide.past]
            omega

end Side

/-! ## The four answers -/

/-- The counts are `int`s, and no product of a sum of fees and a sum of sizes leaves 128 bits. -/
structure SumsFit (c₀ c₁ : List MpolFf) : Prop where
  count₀ : c₀.length < 2 ^ 31
  count₁ : c₁.length < 2 ^ 31
  product : (feeSum c₀ + feeSum c₁) * (sizeSum c₀ + sizeSum c₁) < 2 ^ 127

theorem sum_toNat_le (chunks : List MpolFf) (f : MpolFf → UInt64) :
    (chunks.map fun c => (f c).toNat).sum ≤ chunks.length * 2 ^ 64 := by
  induction chunks with
  | nil => simp
  | cons c chunks ih =>
      have hc := (f c).toNat_lt
      rw [List.map_cons, List.sum_cons, List.length_cons]
      omega

theorem SumsFit.bounded {c₀ c₁ : List MpolFf} (h : SumsFit c₀ c₁) :
    Bounded (feeSum c₀ + feeSum c₁ : Nat) (sizeSum c₀ + sizeSum c₁ : Nat) := by
  have hcount₀ := h.count₀
  have hcount₁ := h.count₁
  have hfee₀ := sum_toNat_le c₀ MpolFf.fee
  have hfee₁ := sum_toNat_le c₁ MpolFf.fee
  have hsize₀ := sum_toNat_le c₀ MpolFf.size
  have hsize₁ := sum_toNat_le c₁ MpolFf.size
  refine ⟨?_, ?_, by exact_mod_cast h.product⟩
  · unfold feeSum
    omega
  · unfold sizeSum
    omega

/-- For chunks of positive sizes the four answers are the four ways two diagrams can lie,
compared at every real size. -/
theorem mpolCompareChunks_iff {c₀ c₁ : List MpolFf} (hpos₀ : ∀ c ∈ c₀, 0 < c.size)
    (hpos₁ : ∀ c ∈ c₁, 0 < c.size) (hfit : SumsFit c₀ c₁) :
    (mpolCompareChunks c₀ c₁ = 1 ↔
      (∃ x : ℝ, 0 ≤ x ∧ feeAt c₁ x < feeAt c₀ x) ∧ ∀ x : ℝ, 0 ≤ x → feeAt c₁ x ≤ feeAt c₀ x) ∧
    (mpolCompareChunks c₀ c₁ = -1 ↔
      (∃ x : ℝ, 0 ≤ x ∧ feeAt c₀ x < feeAt c₁ x) ∧ ∀ x : ℝ, 0 ≤ x → feeAt c₀ x ≤ feeAt c₁ x) ∧
    (mpolCompareChunks c₀ c₁ = 0 ↔ ∀ x : ℝ, 0 ≤ x → feeAt c₀ x = feeAt c₁ x) ∧
    (mpolCompareChunks c₀ c₁ = 2 ↔
      (∃ x : ℝ, 0 ≤ x ∧ feeAt c₁ x < feeAt c₀ x) ∧ ∃ x : ℝ, 0 ≤ x ∧ feeAt c₀ x < feeAt c₁ x) := by
  have hgraph : ∀ chunks : List MpolFf, ∀ x : ℝ,
      (⟨chunks, 0, 0⟩ : WalkSide).graph x = feeAt chunks x := by
    intro chunks x
    simp [WalkSide.graph]
  have hwithin : ∀ chunks : List MpolFf, (∀ c ∈ chunks, 0 < c.size) →
      feeSum chunks ≤ feeSum c₀ + feeSum c₁ → sizeSum chunks ≤ sizeSum c₀ + sizeSum c₁ →
      (⟨chunks, 0, 0⟩ : WalkSide).Within (feeSum c₀ + feeSum c₁ : Nat)
        (sizeSum c₀ + sizeSum c₁ : Nat) := by
    intro chunks hpos hfee hsize
    refine ⟨le_rfl, le_rfl, ?_, ?_, hpos⟩
    · simp only
      omega
    · simp only
      omega
  have hw₀ := hwithin c₀ hpos₀ (Nat.le_add_right _ _) (Nat.le_add_right _ _)
  have hw₁ := hwithin c₁ hpos₁ (Nat.le_add_left _ _) (Nat.le_add_left _ _)
  have hbeyond : ∀ {s : WalkSide}, s.Within (feeSum c₀ + feeSum c₁ : Nat)
      (sizeSum c₀ + sizeSum c₁ : Nat) → s.accSize = 0 → Beyond s 0 := by
    intro s hs hzero c rest hrest
    obtain ⟨-, hsize⟩ := hs.point hfit.bounded hrest
    obtain ⟨-, -, hpos⟩ := hs.head hrest
    omega
  have hstart : Standing (feeSum c₀ + feeSum c₁ : Nat) (sizeSum c₀ + sizeSum c₁ : Nat)
      ⟨c₀, 0, 0⟩ ⟨c₁, 0, 0⟩ 0 false false := by
    have hzero₀ := hw₀.graph_start
    have hzero₁ := hw₁.graph_start
    simp only at hzero₀ hzero₁
    refine ⟨hw₀, hw₁, hbeyond hw₀ rfl, hbeyond hw₁ rfl, le_rfl, le_rfl, fun hlt => ?_, fun hlt => ?_⟩
    · rw [hzero₀, hzero₁] at hlt
      exact absurd hlt (lt_irrefl _)
    · rw [hzero₀, hzero₁] at hlt
      exact absurd hlt (lt_irrefl _)
  obtain ⟨f₀, f₁, heq, hf₀, hf₁⟩ := compareLoop_spec hfit.bounded hstart le_rfl rfl
  simp only [Over, hgraph, Int.cast_zero, Bool.false_eq_true, false_or] at hf₀ hf₁
  have hnever₀ : (∀ x : ℝ, 0 ≤ x → feeAt c₀ x ≤ feeAt c₁ x) ↔ f₀ = false := by
    rw [← Bool.not_eq_true, hf₀]
    push Not
    rfl
  have hnever₁ : (∀ x : ℝ, 0 ≤ x → feeAt c₁ x ≤ feeAt c₀ x) ↔ f₁ = false := by
    rw [← Bool.not_eq_true, hf₁]
    push Not
    rfl
  have hequal : (∀ x : ℝ, 0 ≤ x → feeAt c₀ x = feeAt c₁ x) ↔ f₀ = false ∧ f₁ = false := by
    rw [← hnever₀, ← hnever₁]
    exact ⟨fun h => ⟨fun x hx => (h x hx).le, fun x hx => (h x hx).ge⟩,
      fun h x hx => le_antisymm (h.1 x hx) (h.2 x hx)⟩
  rw [show mpolCompareChunks c₀ c₁ = verdictOf f₀ f₁ from heq, ← hf₀, ← hf₁, hnever₀, hnever₁, hequal]
  cases f₀ <;> cases f₁ <;> decide

/-- Ten satoshis in one unit against eighteen in three: each is above the other somewhere. -/
theorem mpolCompareChunks_crossing :
    (∃ x : ℝ, 0 ≤ x ∧ feeAt [⟨18, 3⟩] x < feeAt [⟨10, 1⟩] x) ∧
      ∃ x : ℝ, 0 ≤ x ∧ feeAt [⟨10, 1⟩] x < feeAt [⟨18, 3⟩] x :=
  (mpolCompareChunks_iff (by decide) (by decide) ⟨by decide, by decide, by decide⟩).2.2.2.mp
    (by decide)

end BitcoinMachineCode.Mempool
