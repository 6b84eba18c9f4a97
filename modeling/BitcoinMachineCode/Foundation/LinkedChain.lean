import Mathlib.Data.List.Chain

/-!
# Chains known by their top

Where every element names the one below it, two chains that have one element at one height are
the same up to that height.
-/

namespace BitcoinMachineCode.Foundation

variable {α : Type*} {R : α → α → Prop} {P : α → Prop}

theorem take_eq_of_top (hunique : ∀ a b c, P a → P b → R a c → R b c → a = b) {xs ys : List α}
    (hxs : xs.IsChain R) (hys : ys.IsChain R) (hpx : ∀ x ∈ xs, P x) (hpy : ∀ y ∈ ys, P y) {n : Nat}
    {a : α} (hx : xs[n]? = some a) (hy : ys[n]? = some a) : xs.take (n + 1) = ys.take (n + 1) := by
  induction n generalizing a with
  | zero => simp [List.take_add_one, hx, hy]
  | succ n ih =>
      obtain ⟨hlt, htop⟩ := List.getElem?_eq_some_iff.mp hx
      obtain ⟨hlt', htop'⟩ := List.getElem?_eq_some_iff.mp hy
      have hx' : xs[n]? = some xs[n] := List.getElem?_eq_getElem _
      have hy' : ys[n]? = some ys[n] := List.getElem?_eq_getElem _
      -- the element above names one element below
      have hlink := hxs.getElem n hlt
      have hlink' := hys.getElem n hlt'
      rw [htop] at hlink
      rw [htop'] at hlink'
      have hbelow : xs[n] = ys[n] :=
        hunique _ _ a (hpx _ (List.getElem_mem _)) (hpy _ (List.getElem_mem _)) hlink hlink'
      have hrest := ih hx' (hbelow ▸ hy')
      simp only [@List.take_add_one _ _ (n + 1), hx, hy, hrest]

end BitcoinMachineCode.Foundation
