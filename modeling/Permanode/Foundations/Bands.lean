import Mathlib.Algebra.BigOperators.Intervals
import Mathlib.Algebra.BigOperators.Group.List.Basic
import Mathlib.Order.Lattice.Nat

/-!
# Foundations/Bands — sums of step functions

    bounds   a₀ ≤ a₁ ≤ … ≤ aₙ ≤ top
    bands    [a₀, a₁) · [a₁, a₂) · … · [aₙ, top)

A function that is constant on each band is summed band by band (`sum_bands`): what is left of the
band from where the sum starts, times the value at its lower edge.
-/

namespace Bands

open Finset

variable {α M : Type} [AddCommMonoid M]

/-- Each bound with the next one, `top` after the last. -/
def bands (top : α) : List α → List (α × α)
  | [] => []
  | [a] => [(a, top)]
  | a :: b :: l => (a, b) :: bands top (b :: l)

/-- The bands, read off by position. -/
theorem bands_eq_zipIdx (top : α) (l : List α) :
    bands top l = l.zipIdx.map fun x => (x.1, l[x.2 + 1]?.getD top) := by
  have hoff : ∀ (l : List α) (n : ℕ), bands top l
      = (l.zipIdx n).map fun x => (x.1, l[x.2 + 1 - n]?.getD top) := by
    intro l
    induction l with
    | nil => exact fun _ => rfl
    | cons a l ih =>
      intro n
      rw [List.zipIdx_cons, List.map_cons]
      rcases l with _ | ⟨b, l⟩
      · simp [bands]
      · rw [bands, ih (n + 1)]
        refine congrArg₂ _ ?_ (List.map_congr_left fun x hx => ?_)
        · simp
        · have hle := (List.mem_zipIdx hx).1
          rw [show x.2 + 1 - n = (x.2 + 1 - (n + 1)) + 1 by omega, List.getElem?_cons_succ]
  exact hoff l 0

/-- The part of a band from `lo` on. -/
theorem sum_Ico_const {f : ℕ → M} (lo : ℕ) {a b : ℕ} (hf : ∀ s, a ≤ s → s < b → f s = f a) :
    ∑ s ∈ Ico (max lo a) b, f s = (b - max lo a) • f a := by
  have hconst : ∀ s ∈ Ico (max lo a) b, f s = f a := fun s hs =>
    hf s ((le_max_right _ _).trans (mem_Ico.mp hs).1) (mem_Ico.mp hs).2
  rw [sum_congr rfl hconst, sum_const, Nat.card_Ico]

/-- **A step function, summed band by band** from `lo` on. -/
theorem sum_bands (key : α → ℕ) (f : ℕ → M) (lo : ℕ) (top : α) : ∀ (a : α) (l : List α),
    (a :: l ++ [top]).Pairwise (fun x y => key x ≤ key y) →
    (∀ p ∈ bands top (a :: l), ∀ s, key p.1 ≤ s → s < key p.2 → f s = f (key p.1)) →
      ((bands top (a :: l)).map fun p => (key p.2 - max lo (key p.1)) • f (key p.1)).sum
        = ∑ s ∈ Ico (max lo (key a)) (key top), f s
  | a, [], _, hf => by
      rw [bands, List.map_singleton, List.sum_singleton,
        sum_Ico_const lo (hf (a, top) (by simp [bands]))]
  | a, b :: l, hsorted, hf => by
      obtain ⟨ha, hsorted⟩ := List.pairwise_cons.mp hsorted
      have hab : key a ≤ key b := ha b (by simp)
      have hbt : key b ≤ key top := (List.pairwise_cons.mp hsorted).1 top (by simp)
      have hrest := sum_bands key f lo top b l hsorted fun p hp => hf p (List.mem_cons_of_mem _ hp)
      have hband := sum_Ico_const lo (hf (a, b) List.mem_cons_self)
      rw [bands, List.map_cons, List.sum_cons, hrest, ← hband]
      rcases le_total lo (key b) with hlo | hlo
      · rw [max_eq_right hlo, sum_Ico_consecutive f (max_le hlo hab) hbt]
      · -- the first band is behind `lo`
        rw [max_eq_left (hab.trans hlo), max_eq_left hlo, Ico_eq_empty hlo.not_gt,
          sum_empty, zero_add]

end Bands
