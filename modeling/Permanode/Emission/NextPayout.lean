import Mathlib.Order.Bounds.Basic
import Permanode.Emission.Shares

/-!
# Emission/NextPayout — the payout after a height

`next_development_payout_height` of `core/src/emission.rs` computes the height a payout comes next
at; whether a block pays is another function's rule.  Below `2⁶³` no sum or product leaves the 64
bits, and the two agree: three ways of paying,

    whole days before the fork  ·  whole intervals from it on  ·  the end of the allocation

of which the computation takes the first that comes.
-/

namespace Permanode

/-! ## The computation -/

/-- A `u64` sum or product, which wraps around. -/
def wrap64 (n : ℕ) : ℕ := n % 2 ^ 64

/-- The next height at which a development payout is minted, `none` once the allocation has
ended. -/
def nextDevelopmentPayoutHeight (height : ℕ) : Option ℕ :=
  let legacy := wrap64 ((height / blocksPerDay + 1) * blocksPerDay)
  if height < v2ActivationHeight - 1 ∧ legacy < v2ActivationHeight then some legacy
  else
    let base := v2ActivationHeight - 1
    let from_ := max height base
    let next := wrap64 (base + wrap64 (((from_ - base) / v2BlocksPerDay + 1) * v2BlocksPerDay))
    if next ≤ developmentAllocationEndHeight then some next
    else if height < developmentAllocationEndHeight ∧ finalPartialPayoutBlocks ≠ 0 then
      some developmentAllocationEndHeight
    else none

/-! ## The rule -/

/-- **When a block pays**, in one condition on its height. -/
theorem isDevelopmentPayoutHeight_iff {k : ℕ} : isDevelopmentPayoutHeight k = true
    ↔ 1 ≤ k ∧ k < 210537 ∧ 4320 ∣ k ∨ 210537 ≤ k ∧ k ≤ 3223778 ∧ 2880 ∣ k - 210536
      ∨ k = 3223778 := by
  have hfork := v2ActivationHeight_eq
  have hend := developmentAllocationEndHeight_eq
  rcases Nat.eq_zero_or_pos k with rfl | hpos
  · exact iff_of_false (by decide) (by omega)
  by_cases hv2 : v2ActivationHeight ≤ k
  · rw [isDevelopmentPayoutHeight_v2 hv2, regularPayout_iff, hend]
    omega
  · rw [isDevelopmentPayoutHeight_legacy hpos (by omega), blocksPerDay_eq]
    omega

/-! ## They agree -/

variable {height : ℕ}

/-- The end of the first whole interval after a height, from the fork on. -/
def nextInterval (height : ℕ) : ℕ :=
  v2ActivationHeight - 1
    + ((max height (v2ActivationHeight - 1) - (v2ActivationHeight - 1)) / v2BlocksPerDay + 1)
      * v2BlocksPerDay

theorem nextInterval_eq (height : ℕ) :
    nextInterval height = 210536 + ((max height 210536 - 210536) / 2880 + 1) * 2880 := by
  rw [nextInterval, v2BlocksPerDay_eq, v2ActivationHeight_eq]

theorem wrap64_of_lt {n : ℕ} (h : n < 2 ^ 64) : wrap64 n = n := Nat.mod_eq_of_lt h

/-- The computation without wrapping. -/
theorem nextDevelopmentPayoutHeight_eq (h : height < 2 ^ 63) :
    nextDevelopmentPayoutHeight height
      = if height < v2ActivationHeight - 1
            ∧ (height / blocksPerDay + 1) * blocksPerDay < v2ActivationHeight then
          some ((height / blocksPerDay + 1) * blocksPerDay)
        else if nextInterval height ≤ developmentAllocationEndHeight then some (nextInterval height)
        else if height < developmentAllocationEndHeight then some developmentAllocationEndHeight
        else none := by
  have hpartial : finalPartialPayoutBlocks ≠ 0 := by decide
  have hday : (height / blocksPerDay + 1) * blocksPerDay < 2 ^ 64 := by
    rw [blocksPerDay_eq]
    omega
  have hnext : nextInterval height < 2 ^ 64 := by
    rw [nextInterval, v2BlocksPerDay_eq, v2ActivationHeight_eq]
    omega
  have hinterval := lt_of_le_of_lt (Nat.le_add_left _ _) hnext
  have hwrap := wrap64_of_lt hnext
  unfold nextInterval at hwrap ⊢
  simp only [nextDevelopmentPayoutHeight, wrap64_of_lt hday, wrap64_of_lt hinterval, hwrap,
    hpartial, ne_eq, not_false_eq_true, and_true]

/-- A height it names pays, and none before it does. -/
theorem isLeast_of_next {p : ℕ} (h : height < 2 ^ 63)
    (hp : nextDevelopmentPayoutHeight height = some p) :
    IsLeast {k | height < k ∧ isDevelopmentPayoutHeight k = true} p := by
  rw [nextDevelopmentPayoutHeight_eq h, nextInterval_eq, developmentAllocationEndHeight_eq,
    v2ActivationHeight_eq, blocksPerDay_eq] at hp
  simp only [isDevelopmentPayoutHeight_iff]
  split_ifs at hp with hlegacy hregular hlast
  all_goals
    obtain rfl := Option.some.inj hp
    refine ⟨⟨by omega, by omega⟩, ?_⟩
    rintro k ⟨hk, hpay⟩
    omega

/-- If it names none, none pays any more. -/
theorem no_payout_of_next (h : height < 2 ^ 63) (hnone : nextDevelopmentPayoutHeight height = none)
    {k : ℕ} (hk : height < k) : isDevelopmentPayoutHeight k = false := by
  rw [nextDevelopmentPayoutHeight_eq h, nextInterval_eq, developmentAllocationEndHeight_eq,
    v2ActivationHeight_eq, blocksPerDay_eq] at hnone
  rw [Bool.eq_false_iff, ne_eq, isDevelopmentPayoutHeight_iff]
  split_ifs at hnone with hlegacy hregular hlast
  omega

/-- **The next payout is the least height above that pays**, and there is none exactly if no height
above pays. -/
theorem nextDevelopmentPayoutHeight_isLeast (height : ℕ) (h : height < 2 ^ 63) :
    (∀ p, nextDevelopmentPayoutHeight height = some p
        ↔ IsLeast {k | height < k ∧ isDevelopmentPayoutHeight k = true} p)
      ∧ (nextDevelopmentPayoutHeight height = none
        ↔ ∀ k, height < k → isDevelopmentPayoutHeight k = false) := by
  rcases hnext : nextDevelopmentPayoutHeight height with _ | q
  · have hnone : ∀ k, height < k → isDevelopmentPayoutHeight k = false := fun k =>
      no_payout_of_next h hnext
    refine ⟨fun p => iff_of_false (Option.some_ne_none p).symm fun hp => ?_, iff_of_true rfl hnone⟩
    exact Bool.false_ne_true ((hnone p hp.1.1).symm.trans hp.1.2)
  · have hq := isLeast_of_next h hnext
    refine ⟨fun p => ⟨fun hp => Option.some.inj hp ▸ hq, fun hp => ?_⟩, ?_⟩
    · rw [hq.unique hp]
    · refine iff_of_false (Option.some_ne_none q) fun hnone => ?_
      exact Bool.false_ne_true ((hnone q hq.1.1).symm.trans hq.1.2)

/-- Across the fork the next multiple of a day is passed over. -/
theorem nextDevelopmentPayoutHeight_isLeast_fork :
    IsLeast {k | 207360 < k ∧ isDevelopmentPayoutHeight k = true} 213416 :=
  ((nextDevelopmentPayoutHeight_isLeast 207360 (by decide)).1 213416).mp (by decide)

end Permanode
