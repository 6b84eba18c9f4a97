import Mathlib.Data.List.Nodup
import Mathlib.Logic.Function.Basic
import Mathlib.Tactic

/-!
# Walking a forest

Nodes are indices and each has at most one parent.  The children of a node hang in a list that
is threaded through the nodes themselves, a walk from a root goes over them with a stack, sums
a value along the way down and keeps the first node of the highest rank.
-/

namespace BitcoinMachineCode.Foundation

variable (par : Nat → Option Nat)

/-! ## Children and siblings -/

structure Links where
  child : Nat → Option Nat
  sibling : Nat → Option Nat

/-- A node goes in front of the children its parent has. -/
def linkOne (l : Links) (i : Nat) : Links :=
  match par i with
  | none => l
  | some p =>
      { child := Function.update l.child p (some i)
        sibling := Function.update l.sibling i (l.child p) }

def linkAll (n : Nat) : Links :=
  (List.range n).foldl (linkOne par) ⟨fun _ => none, fun _ => none⟩

/-- The list of children from its first one on. -/
def follow (sibling : Nat → Option Nat) : Nat → Option Nat → List Nat
  | 0, _ => []
  | _ + 1, none => []
  | k + 1, some c => c :: follow sibling k (sibling c)

def childrenBelow (p m : Nat) : List Nat := (List.range m).filter fun i => par i = some p

variable {par}

theorem childrenBelow_succ (p m : Nat) :
    childrenBelow par p (m + 1) =
      if par m = some p then childrenBelow par p m ++ [m] else childrenBelow par p m := by
  unfold childrenBelow
  rw [List.range_succ, List.filter_append]
  split
  · next h => simp [h]
  · next h => simp [h]

theorem mem_childrenBelow {p m i : Nat} : i ∈ childrenBelow par p m ↔ i < m ∧ par i = some p := by
  simp [childrenBelow]

theorem nodup_childrenBelow (p m : Nat) : (childrenBelow par p m).Nodup :=
  (List.nodup_range).filter _

theorem linkAll_succ (m : Nat) : linkAll par (m + 1) = linkOne par (linkAll par m) m := by
  unfold linkAll
  rw [List.range_succ, List.foldl_append]
  rfl

theorem linkAll_spec (m : Nat) :
    (∀ p, (linkAll par m).child p = (childrenBelow par p m).getLast?) ∧
      ∀ i < m, ∀ p, par i = some p →
        (linkAll par m).sibling i = (childrenBelow par p i).getLast? := by
  induction m with
  | zero => exact ⟨fun _ => rfl, nofun⟩
  | succ m ih =>
      obtain ⟨hchild, hsibling⟩ := ih
      rw [linkAll_succ, linkOne]
      cases hm : par m with
      | none =>
          refine ⟨fun p => ?_, fun i hi p hp => ?_⟩
          · rw [childrenBelow_succ, if_neg (by rw [hm]; nofun)]
            exact hchild p
          · rcases Nat.lt_succ_iff_lt_or_eq.mp hi with hlt | rfl
            · exact hsibling i hlt p hp
            · rw [hm] at hp
              cases hp
      | some q =>
          dsimp only
          refine ⟨fun p => ?_, fun i hi p hp => ?_⟩
          · rw [childrenBelow_succ, hm]
            by_cases hpq : p = q
            · rw [hpq, Function.update_self, if_pos rfl, List.getLast?_concat]
            · rw [Function.update_of_ne hpq, if_neg fun h => hpq (Option.some.inj h).symm]
              exact hchild p
          · rcases Nat.lt_succ_iff_lt_or_eq.mp hi with hlt | rfl
            · rw [Function.update_of_ne hlt.ne]
              exact hsibling i hlt p hp
            · rw [Function.update_self, hchild, Option.some.inj (hm.symm.trans hp)]

theorem childrenBelow_of_getLast? {p m c : Nat} (h : (childrenBelow par p m).getLast? = some c) :
    c < m ∧ par c = some p ∧ childrenBelow par p m = childrenBelow par p c ++ [c] := by
  induction m with
  | zero => cases h
  | succ m ih =>
      rw [childrenBelow_succ] at h ⊢
      split at h
      · next hm =>
          rw [List.getLast?_concat] at h
          obtain rfl := Option.some.inj h
          exact ⟨Nat.lt_succ_self _, hm, by rw [if_pos hm]⟩
      · next hm =>
          obtain ⟨hlt, hc, heq⟩ := ih h
          exact ⟨by omega, hc, by rw [if_neg hm, heq]⟩

theorem follow_eq {sibling : Nat → Option Nat} {p n : Nat}
    (hsibling : ∀ i < n, par i = some p → sibling i = (childrenBelow par p i).getLast?) {k m : Nat}
    (hk : m ≤ k) (hm : m ≤ n) :
    follow sibling k (childrenBelow par p m).getLast? = (childrenBelow par p m).reverse := by
  induction k generalizing m with
  | zero =>
      obtain rfl : m = 0 := by omega
      rfl
  | succ k ih =>
      cases hlast : (childrenBelow par p m).getLast? with
      | none =>
          rw [List.getLast?_eq_none_iff.mp hlast]
          rfl
      | some c =>
          obtain ⟨hlt, hc, heq⟩ := childrenBelow_of_getLast? hlast
          rw [follow, hsibling c (by omega) hc, ih (by omega) (by omega), heq,
            List.reverse_append]
          rfl

/-- The list at a node holds its children, the last one first. -/
theorem follow_linkAll (p n : Nat) :
    follow (linkAll par n).sibling n ((linkAll par n).child p) =
      (childrenBelow par p n).reverse := by
  obtain ⟨hchild, hsibling⟩ := @linkAll_spec par n
  rw [hchild]
  exact follow_eq (fun i hi hp => hsibling i hi p hp) (Nat.le_refl n) (Nat.le_refl n)

/-! ## The walk -/

variable {W : Type*} (add : W → W → W) (weight : Nat → W) (rank : W → Nat)

structure Walk (W : Type*) where
  value : Nat → W
  height : Nat → Nat
  best : Nat

def visitChild (cur : Nat) (s : Walk W × List Nat) (c : Nat) : Walk W × List Nat :=
  ({ s.1 with
      value := Function.update s.1.value c (add (s.1.value cur) (weight c))
      height := Function.update s.1.height c (s.1.height cur + 1) },
    c :: s.2)

/-- One node after another from the stack, as long as the rounds last. -/
def walk (children : Nat → List Nat) : Nat → List Nat → Walk W → Option (Walk W)
  | 0, _, _ => none
  | _ + 1, [], s => some s
  | k + 1, cur :: stack, s =>
      let s := if rank (s.value s.best) < rank (s.value cur) then { s with best := cur } else s
      let next := (children cur).foldl (visitChild add weight cur) (s, stack)
      walk children k next.2 next.1

def startWalk [Inhabited W] (g : Nat) : Walk W :=
  { value := Function.update (fun _ => default) g (weight g), height := fun _ => 0, best := g }

variable {add weight rank}

theorem foldl_visitChild (cur : Nat) (cs : List Nat) (hcur : cur ∉ cs) (s : Walk W)
    (stack : List Nat) :
    (cs.foldl (visitChild add weight cur) (s, stack)).2 = cs.reverse ++ stack ∧
      (cs.foldl (visitChild add weight cur) (s, stack)).1.best = s.best ∧
      ∀ x, ((cs.foldl (visitChild add weight cur) (s, stack)).1.value x =
          if x ∈ cs then add (s.value cur) (weight x) else s.value x) ∧
        (cs.foldl (visitChild add weight cur) (s, stack)).1.height x =
          if x ∈ cs then s.height cur + 1 else s.height x := by
  induction cs generalizing s stack with
  | nil => simp
  | cons c cs ih =>
      obtain ⟨hne, hcur'⟩ := not_or.mp (mt List.mem_cons.mpr hcur)
      obtain ⟨hstack, hbest, hvals⟩ := ih hcur' (visitChild add weight cur (s, stack) c).1
        (visitChild add weight cur (s, stack) c).2
      rw [List.foldl_cons]
      refine ⟨?_, hbest, fun x => ?_⟩
      · rw [hstack, List.reverse_cons, List.append_assoc]
        rfl
      · obtain ⟨hvalue, hheight⟩ := hvals x
        rw [hvalue, hheight]
        simp only [visitChild, Function.update_of_ne hne, List.mem_cons]
        by_cases hx : x ∈ cs
        · simp [hx]
        · by_cases hxc : x = c
          · simp [hxc]
          · simp [hx, hxc]

/-- The way down from the root to a node. -/
inductive Descends (par : Nat → Option Nat) (g : Nat) : Nat → List Nat → Prop
  | root : Descends par g g [g]
  | step {p i : Nat} {path : List Nat} : Descends par g p path → par i = some p →
      Descends par g i (path ++ [i])

/-- The value of a path, its weights summed from the root down. -/
def pathValue (add : W → W → W) (weight : Nat → W) : List Nat → Option W
  | [] => none
  | g :: rest => some (rest.foldl (fun v c => add v (weight c)) (weight g))

variable {g : Nat}

theorem Descends.ne_nil {i : Nat} {path : List Nat} (h : Descends par g i path) : path ≠ [] := by
  cases h with
  | root => exact List.cons_ne_nil _ _
  | step _ _ => exact List.append_ne_nil_of_right_ne_nil _ (List.cons_ne_nil _ _)

theorem Descends.unique {i : Nat} {path path' : List Nat} (hg : par g = none)
    (h : Descends par g i path) (h' : Descends par g i path') : path = path' := by
  induction h generalizing path' with
  | root =>
      cases h' with
      | root => rfl
      | step _ hp =>
          rw [hg] at hp
          cases hp
  | step _ hp ih =>
      cases h' with
      | root =>
          rw [hg] at hp
          cases hp
      | step hrest hp' =>
          obtain rfl := Option.some.inj (hp.symm.trans hp')
          rw [ih hrest]

theorem Descends.of_mem {i j : Nat} {path : List Nat} (h : Descends par g i path) (hj : j ∈ path) :
    ∃ path', Descends par g j path' ∧ path'.length ≤ path.length := by
  induction h with
  | root =>
      obtain rfl := List.mem_singleton.mp hj
      exact ⟨[j], .root, Nat.le_refl _⟩
  | step hrest hp ih =>
      rcases List.mem_append.mp hj with hj | hj
      · obtain ⟨path', hpath', hlen⟩ := ih hj
        exact ⟨path', hpath', hlen.trans (by simp)⟩
      · rw [List.mem_singleton.mp hj]
        exact ⟨_, hrest.step hp, Nat.le_refl _⟩

/-- A path never comes to a node twice. -/
theorem Descends.fresh {p i : Nat} {path : List Nat} (hg : par g = none)
    (h : Descends par g p path) (hp : par i = some p) : i ∉ path := by
  intro hi
  obtain ⟨path', hpath', hlen⟩ := h.of_mem hi
  rw [hpath'.unique hg (h.step hp), List.length_append, List.length_singleton] at hlen
  omega

theorem Descends.nodup {i : Nat} {path : List Nat} (hg : par g = none)
    (h : Descends par g i path) : path.Nodup := by
  induction h with
  | root => exact List.nodup_singleton g
  | step hrest hp ih =>
      refine List.nodup_append.mpr ⟨ih, List.nodup_singleton _, ?_⟩
      rintro x hx y hy rfl
      rw [List.mem_singleton.mp hy] at hx
      exact hrest.fresh hg hp hx

theorem Descends.lt {n i : Nat} {path : List Nat} (hgn : g < n)
    (hpar : ∀ i p, par i = some p → i < n) (h : Descends par g i path) : ∀ j ∈ path, j < n := by
  induction h with
  | root => exact fun j hj => List.mem_singleton.mp hj ▸ hgn
  | step _ hp ih =>
      intro j hj
      rcases List.mem_append.mp hj with hj | hj
      · exact ih j hj
      · exact List.mem_singleton.mp hj ▸ hpar _ _ hp

theorem Descends.length_le {n i : Nat} {path : List Nat} (hg : par g = none) (hgn : g < n)
    (hpar : ∀ i p, par i = some p → i < n) (h : Descends par g i path) : path.length ≤ n := by
  have hsub : path ⊆ List.range n := fun j hj => List.mem_range.mpr (h.lt hgn hpar j hj)
  calc path.length ≤ (List.range n).length := ((h.nodup hg).subperm hsub).length_le
    _ = n := List.length_range

theorem pathValue_concat {path : List Nat} {v : W} (h : pathValue add weight path = some v)
    (c : Nat) : pathValue add weight (path ++ [c]) = some (add v (weight c)) := by
  cases path with
  | nil => cases h
  | cons a path =>
      obtain rfl := Option.some.inj h
      simp [pathValue]

/-- What the walk has found out of a node. -/
def Settled (par : Nat → Option Nat) (add : W → W → W) (weight : Nat → W) (g : Nat) (s : Walk W)
    (i : Nat) : Prop :=
  ∃ path, Descends par g i path ∧ pathValue add weight path = some (s.value i) ∧
    s.height i + 1 = path.length

/-- The walk between two rounds: the nodes it has dealt with and those on the stack. -/
structure Walking (par : Nat → Option Nat) (add : W → W → W) (weight : Nat → W) (rank : W → Nat)
    (g : Nat) (done stack : List Nat) (s : Walk W) : Prop where
  nodup : (done ++ stack).Nodup
  settled : ∀ i ∈ done ++ stack, Settled par add weight g s i
  children : ∀ d ∈ done, ∀ i, par i = some d → i ∈ done ++ stack
  parents : ∀ i ∈ done ++ stack, i = g ∨ ∃ p ∈ done, par i = some p
  root : g ∈ done ++ stack
  best_mem : s.best ∈ done ++ stack
  best_le : ∀ d ∈ done, rank (s.value d) ≤ rank (s.value s.best)

theorem Walking.start [Inhabited W] (g : Nat) :
    Walking par add weight rank g [] [g] (startWalk weight g) where
  nodup := List.nodup_singleton g
  settled i hi := by
    obtain rfl := List.mem_singleton.mp hi
    refine ⟨[i], .root, ?_, rfl⟩
    simp [pathValue, startWalk]
  children := nofun
  parents i hi := .inl (List.mem_singleton.mp hi)
  root := List.mem_singleton_self g
  best_mem := List.mem_singleton_self g
  best_le := nofun

/-- The candidate after a node was looked at. -/
theorem Walking.prefer {done stack : List Nat} {cur : Nat} {s : Walk W}
    (h : Walking par add weight rank g done (cur :: stack) s) :
    ∃ b ∈ done ++ cur :: stack,
      (if rank (s.value s.best) < rank (s.value cur) then { s with best := cur } else s) =
        { s with best := b } ∧
      ∀ d ∈ done ++ [cur], rank (s.value d) ≤ rank (s.value b) := by
  by_cases hgt : rank (s.value s.best) < rank (s.value cur)
  · refine ⟨cur, by simp, if_pos hgt, fun d hd => ?_⟩
    rcases List.mem_append.mp hd with hd | hd
    · exact (h.best_le d hd).trans hgt.le
    · rw [List.mem_singleton.mp hd]
  · refine ⟨s.best, h.best_mem, if_neg hgt, fun d hd => ?_⟩
    rcases List.mem_append.mp hd with hd | hd
    · exact h.best_le d hd
    · rw [List.mem_singleton.mp hd]
      exact Nat.not_lt.mp hgt

theorem Walking.round {done stack : List Nat} {cur n : Nat} {s : Walk W} (hg : par g = none)
    (hpar : ∀ i p, par i = some p → i < n)
    (h : Walking par add weight rank g done (cur :: stack) s) {b : Nat}
    (hb : b ∈ done ++ cur :: stack)
    (hbest : ∀ d ∈ done ++ [cur], rank (s.value d) ≤ rank (s.value b))
    {next : Walk W × List Nat}
    (hnext : next = (childrenBelow par cur n).reverse.foldl (visitChild add weight cur)
      ({ s with best := b }, stack)) :
    Walking par add weight rank g (done ++ [cur]) next.2 next.1 := by
  set cs := (childrenBelow par cur n).reverse with hcs
  have hmemcs : ∀ c, c ∈ cs ↔ par c = some cur := fun c => by
    rw [hcs, List.mem_reverse, mem_childrenBelow]
    exact and_iff_right_of_imp (hpar c cur)
  have hcur : cur ∈ done ++ cur :: stack := by simp
  have hcurdone : cur ∉ done := fun hmem =>
    (List.nodup_append.mp h.nodup).2.2 cur hmem cur List.mem_cons_self rfl
  -- a child is on the stack or behind us only when its parent is behind us
  have hfresh : ∀ c ∈ cs, c ∉ done ++ cur :: stack := by
    intro c hc hmem
    have hc' := (hmemcs c).mp hc
    rcases h.parents c hmem with rfl | ⟨p, hp, hpc⟩
    · rw [hg] at hc'
      cases hc'
    · obtain rfl := Option.some.inj (hpc.symm.trans hc')
      exact hcurdone hp
  obtain ⟨hstack, hbestEq, hvals⟩ := @foldl_visitChild W add weight cur cs
    (fun hmem => hfresh cur hmem hcur) { s with best := b } stack
  rw [← hnext] at hstack hbestEq
  have hold : ∀ x ∈ done ++ cur :: stack,
      next.1.value x = s.value x ∧ next.1.height x = s.height x := by
    intro x hx
    have hx' : x ∉ cs := fun hmem => hfresh x hmem hx
    obtain ⟨hvalue, hheight⟩ := hvals x
    rw [← hnext, if_neg hx'] at hvalue hheight
    exact ⟨hvalue, hheight⟩
  have hperm : ((done ++ [cur]) ++ next.2).Perm (cs.reverse ++ (done ++ cur :: stack)) := by
    rw [hstack, List.append_assoc, List.singleton_append]
    refine List.Perm.trans ?_ (List.perm_append_comm_assoc done cs.reverse (cur :: stack))
    exact (List.perm_middle.symm).append_left done
  have hmem : ∀ x, x ∈ (done ++ [cur]) ++ next.2 ↔ x ∈ cs ∨ x ∈ done ++ cur :: stack := fun x => by
    rw [hperm.mem_iff, List.mem_append, List.mem_reverse]
  refine ⟨?_, fun x hx => ?_, fun d hd i hi => ?_, fun x hx => ?_, ?_, ?_, fun d hd => ?_⟩
  · refine hperm.nodup_iff.mpr (List.nodup_append.mpr ⟨?_, h.nodup, ?_⟩)
    · rw [List.nodup_reverse, hcs, List.nodup_reverse]
      exact nodup_childrenBelow cur n
    · rintro c hc x hx rfl
      exact hfresh c (List.mem_reverse.mp hc) hx
  · rcases (hmem x).mp hx with hx | hx
    · obtain ⟨path, hpath, hvalue, hheight⟩ := h.settled cur hcur
      obtain ⟨hvalue', hheight'⟩ := hvals x
      rw [← hnext, if_pos hx] at hvalue' hheight'
      refine ⟨path ++ [x], hpath.step ((hmemcs x).mp hx), ?_, ?_⟩
      · rw [hvalue']
        exact pathValue_concat hvalue x
      · rw [hheight', List.length_append, ← hheight]
        rfl
    · obtain ⟨path, hpath, hvalue, hheight⟩ := h.settled x hx
      obtain ⟨hvalue', hheight'⟩ := hold x hx
      exact ⟨path, hpath, by rw [hvalue', hvalue], by rw [hheight', hheight]⟩
  · rw [hmem]
    rcases List.mem_append.mp hd with hd | hd
    · exact .inr (h.children d hd i hi)
    · rw [List.mem_singleton.mp hd] at hi
      exact .inl ((hmemcs i).mpr hi)
  · rcases (hmem x).mp hx with hx | hx
    · exact .inr ⟨cur, by simp, (hmemcs x).mp hx⟩
    · rcases h.parents x hx with hroot | ⟨p, hp, hxp⟩
      · exact .inl hroot
      · exact .inr ⟨p, List.mem_append_left _ hp, hxp⟩
  · exact (hmem g).mpr (.inr h.root)
  · rw [hbestEq]
    exact (hmem b).mpr (.inr hb)
  · rw [hbestEq]
    have hd' : d ∈ done ++ cur :: stack := by
      rcases List.mem_append.mp hd with hd | hd
      · exact List.mem_append_left _ hd
      · rw [List.mem_singleton.mp hd]
        exact hcur
    rw [(hold d hd').1, (hold b hb).1]
    exact hbest d hd

theorem Walking.done_lt {done stack : List Nat} {n : Nat} {s : Walk W} (hgn : g < n)
    (hpar : ∀ i p, par i = some p → i < n)
    (h : Walking par add weight rank g done stack s) : done.length ≤ n := by
  have hsub : done ⊆ List.range n := by
    intro i hi
    rw [List.mem_range]
    rcases h.parents i (List.mem_append_left _ hi) with rfl | ⟨p, -, hp⟩
    · exact hgn
    · exact hpar i p hp
  have hnodup : done.Nodup := (List.nodup_append.mp h.nodup).1
  calc done.length ≤ (List.range n).length := (hnodup.subperm hsub).length_le
    _ = n := List.length_range

theorem Walking.run {n : Nat} (hg : par g = none) (hgn : g < n)
    (hpar : ∀ i p, par i = some p → i < n) {children : Nat → List Nat}
    (hchildren : ∀ i, children i = (childrenBelow par i n).reverse) {k : Nat}
    {done stack : List Nat} {s : Walk W} (h : Walking par add weight rank g done stack s)
    (hk : n < done.length + k) :
    ∃ done' s', walk add weight rank children k stack s = some s' ∧
      Walking par add weight rank g done' [] s' := by
  induction k generalizing done stack s with
  | zero =>
      have := h.done_lt hgn hpar
      omega
  | succ k ih =>
      cases stack with
      | nil => exact ⟨done, s, rfl, h⟩
      | cons cur stack =>
          obtain ⟨b, hb, hprefer, hbest⟩ := h.prefer
          rw [walk, hprefer, hchildren]
          exact ih (h.round hg hpar hb hbest rfl) (by simp; omega)

/-- The walk comes to every node under the root and ends at one of the highest rank. -/
theorem walk_spec [Inhabited W] {n : Nat} (hg : par g = none) (hgn : g < n)
    (hpar : ∀ i p, par i = some p → i < n) {children : Nat → List Nat}
    (hchildren : ∀ i, children i = (childrenBelow par i n).reverse) :
    ∃ s, walk add weight rank children (n + 1) [g] (startWalk weight g) = some s ∧
      (∃ path, Descends par g s.best path) ∧
      ∀ i path, Descends par g i path →
        pathValue add weight path = some (s.value i) ∧ s.height i + 1 = path.length ∧
          rank (s.value i) ≤ rank (s.value s.best) := by
  have hstart : Walking par add weight rank g [] [g] (startWalk weight g) := .start g
  obtain ⟨done, s, hwalk, h⟩ := hstart.run hg hgn hpar hchildren (k := n + 1) (by simp)
  have hall : ∀ i path, Descends par g i path → i ∈ done := by
    intro i path hi
    induction hi with
    | root => simpa using h.root
    | step _ hp ih => simpa using h.children _ ih _ hp
  refine ⟨s, hwalk, ?_, fun i path hi => ?_⟩
  · obtain ⟨path, hpath, -, -⟩ := h.settled s.best h.best_mem
    exact ⟨path, hpath⟩
  · have hmem := hall i path hi
    obtain ⟨path', hpath', hvalue, hheight⟩ := h.settled i (List.mem_append_left _ hmem)
    rw [hi.unique hg hpath']
    exact ⟨hvalue, hheight, h.best_le i hmem⟩

/-! ## The way back up -/

/-- From a node to its parent and on. -/
def climb (par : Nat → Option Nat) : Nat → Option Nat → List Nat
  | 0, _ => []
  | _ + 1, none => []
  | k + 1, some c => c :: climb par k (par c)

theorem climb_eq {i k : Nat} {path : List Nat} (hg : par g = none) (h : Descends par g i path)
    (hk : path.length ≤ k) : climb par k (some i) = path.reverse := by
  induction h generalizing k with
  | root =>
      obtain ⟨k, rfl⟩ := Nat.exists_eq_add_of_le' hk
      rw [List.length_singleton, climb, hg]
      cases k <;> rfl
  | step _ hp ih =>
      rw [List.length_append, List.length_singleton] at hk
      obtain ⟨k, rfl⟩ := Nat.exists_eq_add_of_le' (Nat.le_trans (Nat.le_add_left 1 _) hk)
      rw [climb, hp, ih (by omega), List.reverse_append]
      rfl

end BitcoinMachineCode.Foundation
