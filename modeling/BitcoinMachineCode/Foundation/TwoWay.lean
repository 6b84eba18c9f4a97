import Mathlib

/-!
# Two ascending lists side by side

A walk over two lists in the order of their keys, which takes the lesser front or both at
once.  Either list may end for good or break off: a list that has broken off is noticed only
while the other one still goes on.
-/

namespace BitcoinMachineCode.Foundation

variable {G δ κ : Type*} [LinearOrder κ] (key : G → κ) (left right : G → List δ)
  (both : G → G → List δ)

/-- What the walk reports; none where it meets the end of a list that has broken off. -/
def twoWay : List G → Bool → List G → Bool → Option (List δ)
  | [], _, [], _ => some []
  | g :: gs, a, [], b => if b then (twoWay gs a [] b).map (left g ++ ·) else none
  | [], a, h :: hs, b => if a then (twoWay [] a hs b).map (right h ++ ·) else none
  | g :: gs, a, h :: hs, b =>
      if key g < key h then (twoWay gs a (h :: hs) b).map (left g ++ ·)
      else if key h < key g then (twoWay (g :: gs) a hs b).map (right h ++ ·)
      else (twoWay gs a hs b).map (both g h ++ ·)
termination_by gs _ hs _ => gs.length + hs.length

variable {key left right both} {gs hs : List G} {a b : Bool}

/-- The first list has broken off before a key of the second. -/
def BrokenOff (key : G → κ) (gs : List G) (a : Bool) (hs : List G) : Prop :=
  a = false ∧ ∃ h ∈ hs, ∀ g ∈ gs, key g < key h

theorem brokenOff_nil (gs : List G) (a : Bool) : ¬ BrokenOff key gs a [] := by
  rintro ⟨-, h, hh, -⟩
  exact absurd hh List.not_mem_nil

theorem brokenOff_cons_left {g h : G} {hs : List G} (hgh : key g < key h)
    (hasc : ∀ k ∈ hs, key h < key k) :
    BrokenOff key (g :: gs) a (h :: hs) ↔ BrokenOff key gs a (h :: hs) := by
  refine and_congr_right fun _ => exists_congr fun k => and_congr_right fun hk => ?_
  have hle : key g < key k := by
    rcases List.mem_cons.mp hk with rfl | hk
    · exact hgh
    · exact hgh.trans (hasc k hk)
  constructor
  · exact fun hall x hx => hall x (List.mem_cons_of_mem _ hx)
  · intro hall x hx
    rcases List.mem_cons.mp hx with rfl | hx
    · exact hle
    · exact hall x hx

theorem brokenOff_cons_right {g h : G} (hgh : ¬ key g < key h) :
    BrokenOff key (g :: gs) a (h :: hs) ↔ BrokenOff key (g :: gs) a hs := by
  refine and_congr_right fun _ => ⟨?_, ?_⟩
  · rintro ⟨k, hk, hall⟩
    rcases List.mem_cons.mp hk with rfl | hk
    · exact absurd (hall g List.mem_cons_self) hgh
    · exact ⟨k, hk, hall⟩
  · rintro ⟨k, hk, hall⟩
    exact ⟨k, List.mem_cons_of_mem _ hk, hall⟩

theorem brokenOff_cons_both {g h : G} (hgh : key g = key h) (hasc : ∀ k ∈ hs, key h < key k) :
    BrokenOff key (g :: gs) a (h :: hs) ↔ BrokenOff key gs a hs := by
  rw [brokenOff_cons_right (by rw [hgh]; exact lt_irrefl _)]
  refine and_congr_right fun _ => exists_congr fun k => and_congr_right fun hk => ?_
  constructor
  · exact fun hall x hx => hall x (List.mem_cons_of_mem _ hx)
  · intro hall x hx
    rcases List.mem_cons.mp hx with rfl | hx
    · rw [hgh]
      exact hasc k hk
    · exact hall x hx

def Ascending (key : G → κ) (gs : List G) : Prop := gs.Pairwise fun g h => key g < key h

theorem Ascending.head {g : G} (h : Ascending key (g :: gs)) : ∀ k ∈ gs, key g < key k :=
  (List.pairwise_cons.mp h).1

theorem Ascending.tail {g : G} (h : Ascending key (g :: gs)) : Ascending key gs :=
  (List.pairwise_cons.mp h).2

theorem Ascending.key_inj (h : Ascending key gs) {g k : G} (hg : g ∈ gs) (hk : k ∈ gs)
    (heq : key g = key k) : g = k := by
  have hnodup : (gs.map key).Nodup := List.pairwise_map.mpr (h.imp fun hlt => hlt.ne)
  exact List.inj_on_of_nodup_map hnodup hg hk heq

/-- A break is noticed exactly when the other list goes on past the last key before it. -/
theorem twoWay_eq_none_iff (hgs : Ascending key gs) (hhs : Ascending key hs) :
    twoWay key left right both gs a hs b = none ↔
      BrokenOff key gs a hs ∨ BrokenOff key hs b gs := by
  fun_induction twoWay key left right both gs a hs b with
  | case1 a b => simp [brokenOff_nil]
  | case2 g gs a ih =>
      rw [Option.map_eq_none_iff, ih hgs.tail hhs]
      simp [BrokenOff]
  | case3 g gs a b hb =>
      refine iff_of_true rfl (.inr ⟨Bool.not_eq_true _ ▸ hb, g, List.mem_cons_self, ?_⟩)
      exact fun h hh => absurd hh List.not_mem_nil
  | case4 h hs b ih =>
      rw [Option.map_eq_none_iff, ih hgs hhs.tail]
      simp [BrokenOff]
  | case5 a h hs b ha =>
      refine iff_of_true rfl (.inl ⟨Bool.not_eq_true _ ▸ ha, h, List.mem_cons_self, ?_⟩)
      exact fun g hg => absurd hg List.not_mem_nil
  | case6 g gs a h hs b hlt ih =>
      rw [Option.map_eq_none_iff, ih hgs.tail hhs, brokenOff_cons_left hlt hhs.head,
        brokenOff_cons_right hlt.not_gt]
  | case7 g gs a h hs b hnot hlt ih =>
      rw [Option.map_eq_none_iff, ih hgs hhs.tail, brokenOff_cons_left hlt hgs.head,
        brokenOff_cons_right hnot]
  | case8 g gs a h hs b hnot hnot' ih =>
      have heq : key g = key h := le_antisymm (not_lt.mp hnot') (not_lt.mp hnot)
      rw [Option.map_eq_none_iff, ih hgs.tail hhs.tail, brokenOff_cons_both heq hhs.head,
        brokenOff_cons_both heq.symm hgs.head]

/-! ## What is reported -/

/-- Reported of a member of the one list alone, of the other, or of two with one key. -/
def Reported (key : G → κ) (left right : G → List δ) (both : G → G → List δ) (gs hs : List G)
    (x : δ) : Prop :=
  (∃ g ∈ gs, (∀ h ∈ hs, key h ≠ key g) ∧ x ∈ left g) ∨
    (∃ h ∈ hs, (∀ g ∈ gs, key g ≠ key h) ∧ x ∈ right h) ∨
    ∃ g ∈ gs, ∃ h ∈ hs, key g = key h ∧ x ∈ both g h

omit [LinearOrder κ] in
theorem reported_swap {x : δ} :
    Reported key left right both gs hs x ↔
      Reported key right left (fun h g => both g h) hs gs x := by
  unfold Reported
  constructor
  · rintro (h | h | ⟨g, hg, k, hk, heq, hx⟩)
    · exact .inr (.inl h)
    · exact .inl h
    · exact .inr (.inr ⟨k, hk, g, hg, heq.symm, hx⟩)
  · rintro (h | h | ⟨k, hk, g, hg, heq, hx⟩)
    · exact .inr (.inl h)
    · exact .inl h
    · exact .inr (.inr ⟨g, hg, k, hk, heq.symm, hx⟩)

omit [LinearOrder κ] in
theorem reported_cons_left {g : G} {x : δ} (hnone : ∀ h ∈ hs, key g ≠ key h) :
    Reported key left right both (g :: gs) hs x ↔
      x ∈ left g ∨ Reported key left right both gs hs x := by
  unfold Reported
  constructor
  · rintro (⟨k, hk, hout, hx⟩ | ⟨h, hh, hout, hx⟩ | ⟨k, hk, h, hh, heq, hx⟩)
    · rcases List.mem_cons.mp hk with rfl | hk
      · exact .inl hx
      · exact .inr (.inl ⟨k, hk, hout, hx⟩)
    · exact .inr (.inr (.inl ⟨h, hh, fun k hk => hout k (List.mem_cons_of_mem _ hk), hx⟩))
    · rcases List.mem_cons.mp hk with rfl | hk
      · exact absurd heq (hnone h hh)
      · exact .inr (.inr (.inr ⟨k, hk, h, hh, heq, hx⟩))
  · rintro (hx | ⟨k, hk, hout, hx⟩ | ⟨h, hh, hout, hx⟩ | ⟨k, hk, h, hh, heq, hx⟩)
    · exact .inl ⟨g, List.mem_cons_self, fun h hh => (hnone h hh).symm, hx⟩
    · exact .inl ⟨k, List.mem_cons_of_mem _ hk, hout, hx⟩
    · refine .inr (.inl ⟨h, hh, fun k hk => ?_, hx⟩)
      rcases List.mem_cons.mp hk with rfl | hk
      · exact hnone h hh
      · exact hout k hk
    · exact .inr (.inr ⟨k, List.mem_cons_of_mem _ hk, h, hh, heq, hx⟩)

omit [LinearOrder κ] in
theorem reported_cons_right {h : G} {x : δ} (hnone : ∀ g ∈ gs, key h ≠ key g) :
    Reported key left right both gs (h :: hs) x ↔
      x ∈ right h ∨ Reported key left right both gs hs x := by
  rw [reported_swap, reported_cons_left hnone, reported_swap]

theorem reported_cons_both {g h : G} {x : δ} (heq : key g = key h)
    (hgs : ∀ k ∈ gs, key g < key k) (hhs : ∀ k ∈ hs, key h < key k) :
    Reported key left right both (g :: gs) (h :: hs) x ↔
      x ∈ both g h ∨ Reported key left right both gs hs x := by
  have hgs' : ∀ k ∈ gs, key k ≠ key h := fun k hk hkh => by
    have := hgs k hk
    rw [hkh, heq] at this
    exact lt_irrefl _ this
  have hhs' : ∀ k ∈ hs, key k ≠ key g := fun k hk hkg => by
    have := hhs k hk
    rw [hkg, heq] at this
    exact lt_irrefl _ this
  unfold Reported
  constructor
  · rintro (⟨k, hk, hout, hx⟩ | ⟨k, hk, hout, hx⟩ | ⟨k, hk, l, hl, hkl, hx⟩)
    · rcases List.mem_cons.mp hk with rfl | hk
      · exact absurd heq.symm (hout h List.mem_cons_self)
      · exact .inr (.inl ⟨k, hk, fun l hl => hout l (List.mem_cons_of_mem _ hl), hx⟩)
    · rcases List.mem_cons.mp hk with rfl | hk
      · exact absurd heq (hout g List.mem_cons_self)
      · exact .inr (.inr (.inl ⟨k, hk, fun l hl => hout l (List.mem_cons_of_mem _ hl), hx⟩))
    · rcases List.mem_cons.mp hk with rfl | hk
      · rcases List.mem_cons.mp hl with rfl | hl
        · exact .inl hx
        · exact absurd hkl.symm (hhs' l hl)
      · rcases List.mem_cons.mp hl with rfl | hl
        · exact absurd hkl (hgs' k hk)
        · exact .inr (.inr (.inr ⟨k, hk, l, hl, hkl, hx⟩))
  · rintro (hx | ⟨k, hk, hout, hx⟩ | ⟨k, hk, hout, hx⟩ | ⟨k, hk, l, hl, hkl, hx⟩)
    · exact .inr (.inr ⟨g, List.mem_cons_self, h, List.mem_cons_self, heq, hx⟩)
    · refine .inl ⟨k, List.mem_cons_of_mem _ hk, fun l hl => ?_, hx⟩
      rcases List.mem_cons.mp hl with rfl | hl
      · exact (hgs' k hk).symm
      · exact hout l hl
    · refine .inr (.inl ⟨k, List.mem_cons_of_mem _ hk, fun l hl => ?_, hx⟩)
      rcases List.mem_cons.mp hl with rfl | hl
      · exact (hhs' k hk).symm
      · exact hout l hl
    · exact .inr (.inr
        ⟨k, List.mem_cons_of_mem _ hk, l, List.mem_cons_of_mem _ hl, hkl, hx⟩)

/-- Two whole lists are reported in full. -/
theorem mem_twoWay (hgs : Ascending key gs) (hhs : Ascending key hs) {l : List δ}
    (h : twoWay key left right both gs a hs b = some l) {x : δ} :
    x ∈ l ↔ Reported key left right both gs hs x := by
  fun_induction twoWay key left right both gs a hs b generalizing l with
  | case1 a b =>
      obtain rfl := Option.some.inj h
      simp [Reported]
  | case2 g gs a ih =>
      obtain ⟨m, hm, rfl⟩ := Option.map_eq_some_iff.mp h
      rw [List.mem_append, ih hgs.tail hhs hm, reported_cons_left nofun]
  | case3 g gs a b hb => cases h
  | case4 k hs b ih =>
      obtain ⟨m, hm, rfl⟩ := Option.map_eq_some_iff.mp h
      rw [List.mem_append, ih hgs hhs.tail hm, reported_cons_right nofun]
  | case5 a k hs b ha => cases h
  | case6 g gs a k hs b hlt ih =>
      obtain ⟨m, hm, rfl⟩ := Option.map_eq_some_iff.mp h
      rw [List.mem_append, ih hgs.tail hhs hm, reported_cons_left fun x hx => ?_]
      rcases List.mem_cons.mp hx with rfl | hx
      · exact hlt.ne
      · exact (hlt.trans (hhs.head x hx)).ne
  | case7 g gs a k hs b hnot hlt ih =>
      obtain ⟨m, hm, rfl⟩ := Option.map_eq_some_iff.mp h
      rw [List.mem_append, ih hgs hhs.tail hm, reported_cons_right fun x hx => ?_]
      rcases List.mem_cons.mp hx with rfl | hx
      · exact hlt.ne
      · exact (hlt.trans (hgs.head x hx)).ne
  | case8 g gs a k hs b hnot hnot' ih =>
      obtain ⟨m, hm, rfl⟩ := Option.map_eq_some_iff.mp h
      have heq : key g = key k := le_antisymm (not_lt.mp hnot') (not_lt.mp hnot)
      rw [List.mem_append, ih hgs.tail hhs.tail hm, reported_cons_both heq hgs.head hhs.head]

/-- The reports carry the keys they are about, and those of one key or pair are distinct. -/
structure Tagged (key : G → κ) (left right : G → List δ) (both : G → G → List δ) (tag : δ → κ)
    (gs hs : List G) : Prop where
  left : ∀ g ∈ gs, (left g).Nodup ∧ ∀ x ∈ left g, tag x = key g
  right : ∀ h ∈ hs, (right h).Nodup ∧ ∀ x ∈ right h, tag x = key h
  both : ∀ g ∈ gs, ∀ h ∈ hs, key g = key h → (both g h).Nodup ∧ ∀ x ∈ both g h, tag x = key g

variable {tag : δ → κ}

omit [LinearOrder κ] in
theorem Tagged.mono {gs' hs' : List G} (h : Tagged key left right both tag gs hs)
    (hgs : gs' ⊆ gs) (hhs : hs' ⊆ hs) : Tagged key left right both tag gs' hs' :=
  ⟨fun g hg => h.left g (hgs hg), fun k hk => h.right k (hhs hk),
    fun g hg k hk => h.both g (hgs hg) k (hhs hk)⟩

theorem Tagged.lt {x : δ} {t : κ} (h : Tagged key left right both tag gs hs)
    (hgs : ∀ g ∈ gs, t < key g) (hhs : ∀ k ∈ hs, t < key k)
    (hx : Reported key left right both gs hs x) : t < tag x := by
  rcases hx with ⟨g, hg, -, hx⟩ | ⟨k, hk, -, hx⟩ | ⟨g, hg, k, hk, heq, hx⟩
  · rw [(h.left g hg).2 x hx]
    exact hgs g hg
  · rw [(h.right k hk).2 x hx]
    exact hhs k hk
  · rw [(h.both g hg k hk heq).2 x hx]
    exact hgs g hg

theorem nodup_append_of_lt {p m : List δ} {t : κ} (hp : p.Nodup) (hm : m.Nodup)
    (htag : ∀ x ∈ p, tag x = t) (hlt : ∀ x ∈ m, t < tag x) : (p ++ m).Nodup := by
  refine List.nodup_append.mpr ⟨hp, hm, fun x hx y hy hxy => ?_⟩
  have := hlt y hy
  rw [← hxy, htag x hx] at this
  exact lt_irrefl t this

/-- Nothing is reported twice. -/
theorem nodup_twoWay (hgs : Ascending key gs) (hhs : Ascending key hs)
    (htag : Tagged key left right both tag gs hs) {l : List δ}
    (h : twoWay key left right both gs a hs b = some l) : l.Nodup := by
  fun_induction twoWay key left right both gs a hs b generalizing l with
  | case1 a b =>
      obtain rfl := Option.some.inj h
      exact List.nodup_nil
  | case2 g gs a ih =>
      obtain ⟨m, hm, rfl⟩ := Option.map_eq_some_iff.mp h
      have hrest := htag.mono (List.subset_cons_self g gs) (List.Subset.refl [])
      obtain ⟨hpiece, hkey⟩ := htag.left g List.mem_cons_self
      refine nodup_append_of_lt hpiece (ih hgs.tail hhs hrest hm) hkey fun x hx => ?_
      exact hrest.lt hgs.head nofun ((mem_twoWay hgs.tail hhs hm).mp hx)
  | case3 g gs a b hb => cases h
  | case4 k hs b ih =>
      obtain ⟨m, hm, rfl⟩ := Option.map_eq_some_iff.mp h
      have hrest := htag.mono (List.Subset.refl []) (List.subset_cons_self k hs)
      obtain ⟨hpiece, hkey⟩ := htag.right k List.mem_cons_self
      refine nodup_append_of_lt hpiece (ih hgs hhs.tail hrest hm) hkey fun x hx => ?_
      exact hrest.lt nofun hhs.head ((mem_twoWay hgs hhs.tail hm).mp hx)
  | case5 a k hs b ha => cases h
  | case6 g gs a k hs b hlt ih =>
      obtain ⟨m, hm, rfl⟩ := Option.map_eq_some_iff.mp h
      have hrest := htag.mono (List.subset_cons_self g gs) (List.Subset.refl (k :: hs))
      obtain ⟨hpiece, hkey⟩ := htag.left g List.mem_cons_self
      refine nodup_append_of_lt hpiece (ih hgs.tail hhs hrest hm) hkey fun x hx => ?_
      refine hrest.lt hgs.head (fun y hy => ?_) ((mem_twoWay hgs.tail hhs hm).mp hx)
      rcases List.mem_cons.mp hy with rfl | hy
      · exact hlt
      · exact hlt.trans (hhs.head y hy)
  | case7 g gs a k hs b hnot hlt ih =>
      obtain ⟨m, hm, rfl⟩ := Option.map_eq_some_iff.mp h
      have hrest := htag.mono (List.Subset.refl (g :: gs)) (List.subset_cons_self k hs)
      obtain ⟨hpiece, hkey⟩ := htag.right k List.mem_cons_self
      refine nodup_append_of_lt hpiece (ih hgs hhs.tail hrest hm) hkey fun x hx => ?_
      refine hrest.lt (fun y hy => ?_) hhs.head ((mem_twoWay hgs hhs.tail hm).mp hx)
      rcases List.mem_cons.mp hy with rfl | hy
      · exact hlt
      · exact hlt.trans (hgs.head y hy)
  | case8 g gs a k hs b hnot hnot' ih =>
      obtain ⟨m, hm, rfl⟩ := Option.map_eq_some_iff.mp h
      have heq : key g = key k := le_antisymm (not_lt.mp hnot') (not_lt.mp hnot)
      have hrest := htag.mono (List.subset_cons_self g gs) (List.subset_cons_self k hs)
      obtain ⟨hpiece, hkey⟩ := htag.both g List.mem_cons_self k List.mem_cons_self heq
      refine nodup_append_of_lt hpiece (ih hgs.tail hhs.tail hrest hm) hkey fun x hx => ?_
      refine hrest.lt hgs.head (fun y hy => ?_) ((mem_twoWay hgs.tail hhs.tail hm).mp hx)
      rw [heq]
      exact hhs.head y hy

end BitcoinMachineCode.Foundation
