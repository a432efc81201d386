import Mathlib.Order.Bounds.Basic
import Mathlib.Order.Lattice.Nat
import Mathlib.Tactic.SplitIfs

/-!
# Foundations/Search — halving an interval

`bisect probe a b` looks for the least number from `a` on that satisfies a property which, once it
holds, holds on: it asks `probe` at the middle and keeps the half with the answer.  A probe may go
without an answer, and the search with it.

**`bisect_isLeast`**: the answer is the least such number, if there is one up to `b`.
-/

namespace Search

/-- `while a < b`: the half that holds the answer. -/
def bisect (probe : ℕ → Option Bool) (a b : ℕ) : Option ℕ :=
  if a < b then do
    let mid := a + (b - a) / 2
    if ← probe mid then bisect probe a mid else bisect probe (mid + 1) b
  else some a
termination_by b - a

variable {p : ℕ → Prop} [DecidablePred p] {probe : ℕ → Option Bool}

theorem bisect_of_lt {a b : ℕ} (h : a < b) {yes : Bool}
    (hmid : probe (a + (b - a) / 2) = some yes) :
    bisect probe a b = if yes then bisect probe a (a + (b - a) / 2)
      else bisect probe (a + (b - a) / 2 + 1) b := by
  rw [bisect, if_pos h]
  dsimp only
  rw [hmid]
  rfl

theorem bisect_of_le {a b : ℕ} (h : b ≤ a) : bisect probe a b = some a := by
  rw [bisect, if_neg h.not_gt]

/-- **The search finds the least number with the property.** -/
theorem bisect_isLeast {a b : ℕ} (hmono : ∀ i j, a ≤ i → i ≤ j → p i → p j)
    (hprobe : ∀ m, a ≤ m → m < b → probe m = some (decide (p m))) (htop : p (max a b)) :
    ∃ r, bisect probe a b = some r ∧ IsLeast {n | a ≤ n ∧ p n} r := by
  induction hn : b - a using Nat.strong_induction_on generalizing a b with
  | _ n ih =>
    rcases Nat.lt_or_ge a b with hlt | hge
    · have hmid := hprobe (a + (b - a) / 2) (by omega) (by omega)
      rw [max_eq_right hlt.le] at htop
      rw [bisect_of_lt hlt hmid]
      generalize hm : a + (b - a) / 2 = mid at hmid ⊢
      by_cases hp : p mid
      · rw [if_pos (decide_eq_true hp)]
        refine ih (mid - a) (by omega) hmono (fun m hm hmb => hprobe m hm (by omega)) ?_ rfl
        rwa [max_eq_right (by omega)]
      · rw [if_neg (by simpa using hp)]
        have hb : p (max (mid + 1) b) := by rwa [max_eq_right (by omega)]
        obtain ⟨r, hr, ⟨hle, hpr⟩, hleast⟩ := ih (b - (mid + 1)) (by omega)
          (fun i j hi => hmono i j (by omega)) (fun m hm => hprobe m (by omega)) hb rfl
        refine ⟨r, hr, ⟨by omega, hpr⟩, fun k hk => hleast ⟨?_, hk.2⟩⟩
        -- the property does not hold up to the middle
        by_contra hlow
        exact hp (hmono k mid hk.1 (by omega) hk.2)
    · rw [max_eq_left hge] at htop
      exact ⟨a, bisect_of_le hge, ⟨le_rfl, htop⟩, fun k hk => hk.1⟩

end Search
