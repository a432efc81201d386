import Mathlib.Algebra.BigOperators.Ring.Finset
import Mathlib.Data.Nat.Find
import Permanode.Emission.ClosedForms

/-!
# Emission/Shares — no development share is lost

From the fork on a payout covers the blocks since the one before it: a whole interval, which lies in
one tier because tiers are whole numbers of intervals, or the rest up to the end of the allocation
(`payoutInterval`).  So what was paid by a payout height is what was earned by it, and nothing is
earned or paid after the end.

**`developmentShares_paid`**: at a payout height, and from the end of the allocation on, what was
emitted since the fork is the sum of the gross subsidies.
-/

namespace Permanode

open Finset

/-! ## The payout before a height -/

/-- The last payout height below `height`, from the fork on; the block before the fork if there is
none. -/
def payoutBefore (height : ℕ) : ℕ :=
  max (v2ActivationHeight - 1)
    (Nat.findGreatest (fun k => v2Active k ∧ isDevelopmentPayoutHeight k) (height - 1))

/-- A payout, or the start of v2, with no payout between it and the height. -/
theorem payoutBefore_eq {p height : ℕ}
    (hp : p = v2ActivationHeight - 1 ∨ v2ActivationHeight ≤ p ∧ isDevelopmentPayoutHeight p)
    (hlt : p < height)
    (hnone : ∀ k, v2ActivationHeight ≤ k → p < k → k < height → ¬ isDevelopmentPayoutHeight k) :
    payoutBefore height = p := by
  have hfork := v2ActivationHeight_eq
  refine le_antisymm (max_le (by omega) ?_) ?_
  · by_contra hgt
    obtain ⟨hv2, hpay⟩ := Nat.findGreatest_of_ne_zero rfl (by omega : Nat.findGreatest
      (fun k => v2Active k ∧ isDevelopmentPayoutHeight k) (height - 1) ≠ 0)
    have hle := Nat.findGreatest_le (P := fun k => v2Active k ∧ isDevelopmentPayoutHeight k)
      (height - 1)
    exact hnone _ (of_decide_eq_true hv2) (by omega) (by omega) hpay
  · obtain rfl | ⟨hv2, hpay⟩ := hp
    · exact le_max_left _ _
    · exact le_max_of_le_right (Nat.le_findGreatest (by omega) ⟨decide_eq_true hv2, hpay⟩)

theorem regularPayout_iff {k : ℕ} : RegularPayout k ↔ 2880 ∣ k - 210536 := by
  rw [RegularPayout, v2BlocksPerDay_eq, v2ActivationHeight_eq]

/-- The payout of `height` covers the blocks after `p`, all of one tier and without a payout of
their own. -/
structure PayoutInterval (p height : ℕ) : Prop where
  lt : p < height
  fork : v2ActivationHeight - 1 ≤ p
  le_end : height ≤ developmentAllocationEndHeight
  count : payoutCount height = some (height - p)
  tier : ∀ k, p < k → k ≤ height → tierOf k = tierOf height
  none : ∀ k, p < k → k < height → ¬ RegularPayout k
  start : p = v2ActivationHeight - 1 ∨ v2ActivationHeight ≤ p ∧ RegularPayout p

namespace PayoutInterval

variable {p height : ℕ} (h : PayoutInterval p height)
include h

theorem not_payout {k : ℕ} (hpk : p < k) (hkh : k < height) : ¬ isDevelopmentPayoutHeight k := by
  have hfork := h.fork
  have hend := h.le_end
  rw [isDevelopmentPayoutHeight_v2 (by omega)]
  rintro (⟨hr, -⟩ | rfl)
  · exact h.none k hpk hkh hr
  · omega

theorem start_payout :
    p = v2ActivationHeight - 1 ∨ v2ActivationHeight ≤ p ∧ isDevelopmentPayoutHeight p := by
  refine h.start.imp_right fun ⟨hv2, hr⟩ => ⟨hv2, ?_⟩
  exact (isDevelopmentPayoutHeight_v2 hv2).mpr (.inl ⟨hr, h.lt.le.trans h.le_end⟩)

theorem payoutBefore_eq : payoutBefore height = p :=
  Permanode.payoutBefore_eq h.start_payout h.lt fun _ _ => h.not_payout

end PayoutInterval

/-- **A payout covers the blocks since the one before it**: a whole interval, or what is left at the
end of the allocation. -/
theorem payoutInterval {height : ℕ} (hv2 : v2ActivationHeight ≤ height)
    (hpay : isDevelopmentPayoutHeight height) : PayoutInterval (payoutBefore height) height := by
  suffices h : ∃ p, PayoutInterval p height by
    obtain ⟨p, h⟩ := h
    rwa [h.payoutBefore_eq]
  have hfork := v2ActivationHeight_eq
  have hlast := developmentAllocationEndHeight_eq
  obtain ⟨hr, hend⟩ | rfl := (isDevelopmentPayoutHeight_v2 hv2).mp hpay
  · have hd := regularPayout_iff.mp hr
    have hcount : payoutCount height = some 2880 := by
      rw [payoutCount, if_pos hr, v2BlocksPerDay_eq]
    refine ⟨height - 2880, by omega, by omega, hend, ?_, fun k hk hkh => ?_,
      fun k hk hkh hrk => ?_, ?_⟩
    · rw [hcount]
      exact congrArg some (by omega)
    · rw [tierOf, tierOf, v2RewardIntervalBlocks_eq, hfork]
      omega
    · have hdk := regularPayout_iff.mp hrk
      omega
    · by_cases hfirst : height = 213416
      · exact .inl (by omega)
      · refine .inr ⟨by omega, regularPayout_iff.mpr ?_⟩
        rw [Nat.sub_right_comm]
        exact Nat.dvd_sub hd (Nat.dvd_refl 2880)
  · have hcount : payoutCount developmentAllocationEndHeight
        = some (developmentAllocationEndHeight - 3223016) := by
      rw [payoutCount, if_neg not_regularPayout_end, if_pos rfl]
      rfl
    refine ⟨3223016, by omega, by omega, le_rfl, hcount, fun k hk hkh => ?_,
      fun k hk hkh hrk => ?_, .inr ⟨by omega, by decide⟩⟩
    · rw [tierOf, tierOf, v2RewardIntervalBlocks_eq, hfork]
      omega
    · have hdk := regularPayout_iff.mp hrk
      omega

/-! ## What is paid is what was earned -/

variable (logSlots : ℕ → UInt32)

/-- One fund's share of a block. -/
def shareAt (k : ℕ) : ℕ := (developmentAllocationAt k (logSlots k)).shareEach

theorem shareAt_v2 {k : ℕ} (hv2 : v2ActivationHeight ≤ k)
    (hend : k ≤ developmentAllocationEndHeight) :
    shareAt logSlots k = shareOf (v2Reward (tierOf k)) := by
  rw [shareAt, allocation_v2 hv2 _ hend]

theorem shareAt_after {k : ℕ} (hend : developmentAllocationEndHeight < k) :
    shareAt logSlots k = 0 := by rw [shareAt, allocation_after hend]

/-- **A payout is the sum of the shares since the one before it.** -/
theorem payoutEach_eq {height : ℕ} (hv2 : v2ActivationHeight ≤ height)
    (hpay : isDevelopmentPayoutHeight height) :
    (developmentAllocationAt height (logSlots height)).payoutEach
      = some (∑ k ∈ Ioc (payoutBefore height) height, shareAt logSlots k) := by
  have h := payoutInterval hv2 hpay
  have hshare : ∀ k ∈ Ioc (payoutBefore height) height,
      shareAt logSlots k = shareOf (v2Reward (tierOf height)) := by
    intro k hk
    rw [mem_Ioc] at hk
    have hfork := h.fork
    rw [shareAt_v2 logSlots (by omega) (hk.2.trans h.le_end), h.tier k hk.1 hk.2]
  rw [allocation_v2 hv2 _ h.le_end, h.count, sum_congr rfl hshare, sum_const, Nat.card_Ioc,
    Nat.nsmul_eq_mul, Option.map_some, Nat.mul_comm (shareOf _)]

theorem developmentPayout_eq_zero {k : ℕ} (hv2 : v2ActivationHeight ≤ k)
    (hpay : ¬ isDevelopmentPayoutHeight k) : developmentPayout k (logSlots k) = 0 := by
  rw [isDevelopmentPayoutHeight_v2 hv2, not_or] at hpay
  rw [developmentPayout_v2 hv2, if_neg hpay.1, if_neg hpay.2]

/-- What the blocks since the fork paid by a payout height is what they earned. -/
theorem sum_developmentPayout (height : ℕ) (h : height = v2ActivationHeight - 1
    ∨ v2ActivationHeight ≤ height ∧ isDevelopmentPayoutHeight height) :
    ∑ k ∈ Ioc (v2ActivationHeight - 1) height, developmentPayout k (logSlots k)
      = ∑ k ∈ Ioc (v2ActivationHeight - 1) height, 2 * shareAt logSlots k := by
  induction height using Nat.strong_induction_on with
  | _ height ih =>
    obtain rfl | ⟨hv2, hpay⟩ := h
    · rw [Ioc_self, sum_empty, sum_empty]
    have hint := payoutInterval hv2 hpay
    have hbefore := ih _ hint.lt hint.start_payout
    have hown : ∑ k ∈ Ioc (payoutBefore height) height, developmentPayout k (logSlots k)
        = developmentPayout height (logSlots height) := by
      refine sum_eq_single_of_mem height (mem_Ioc.mpr ⟨hint.lt, le_rfl⟩) fun k hk hne => ?_
      rw [mem_Ioc] at hk
      have hfork := hint.fork
      exact developmentPayout_eq_zero logSlots (by omega) (hint.not_payout hk.1 (by omega))
    rw [← sum_Ioc_consecutive _ hint.fork hint.lt.le, hbefore, hown, developmentPayout,
      payoutEach_eq logSlots hv2 hpay, Option.map_some, Option.getD_some, mul_sum,
      sum_Ioc_consecutive _ hint.fork hint.lt.le]

/-- So it is from the end of the allocation on. -/
theorem sum_developmentPayout_after {height : ℕ} (h : developmentAllocationEndHeight ≤ height) :
    ∑ k ∈ Ioc (v2ActivationHeight - 1) height, developmentPayout k (logSlots k)
      = ∑ k ∈ Ioc (v2ActivationHeight - 1) height, 2 * shareAt logSlots k := by
  have hfork : v2ActivationHeight - 1 ≤ developmentAllocationEndHeight := by decide
  have hend := sum_developmentPayout logSlots developmentAllocationEndHeight
    (.inr ⟨by decide, (isDevelopmentPayoutHeight_v2 (by decide)).mpr (.inr rfl)⟩)
  rw [← sum_Ioc_consecutive _ hfork h, hend, ← sum_Ioc_consecutive _ hfork h]
  refine congrArg _ (sum_congr rfl fun k hk => ?_)
  rw [mem_Ioc] at hk
  rw [shareAt_after logSlots hk.1, developmentPayout, allocation_after hk.1]
  rfl

/-- A block's miner gets what the funds do not. -/
theorem minerSubsidy_add_shares {k : ℕ} (hv2 : v2ActivationHeight ≤ k) :
    minerSubsidy k (logSlots k) + 2 * shareAt logSlots k = blockRewardAt k (logSlots k) := by
  rw [minerSubsidy_v2 hv2, blockRewardAt_v2 hv2]
  split_ifs with hend
  · rw [shareAt_v2 logSlots hv2 hend, shareOf]
    have hshare : 2 * (v2Reward (tierOf k) / developmentShareDenominator)
      ≤ v2Reward (tierOf k) := by
      rw [developmentShareDenominator]
      omega
    omega
  · rw [shareAt_after logSlots (by omega), Nat.mul_zero, Nat.add_zero]

/-- **No development share is lost or created**: at a payout height, and from the end of the
allocation on, what was emitted since the fork is what its blocks grossed; and a payout is what each
fund earned since the payout before it. -/
theorem developmentShares_paid :
    (∀ (height : ℕ) (expansions : List ℕ), v2ActivationHeight ≤ height →
        isDevelopmentPayoutHeight height ∨ developmentAllocationEndHeight ≤ height →
          let v2 := emittedV2Between v2ActivationHeight height
          emittedSplitUpTo height expansions
              = (emittedSplitUpTo (v2ActivationHeight - 1) expansions).add v2
            ∧ v2.miner + v2.development
              = ∑ k ∈ Icc v2ActivationHeight height, blockRewardAt k (logSlots k))
      ∧ ∀ height, v2ActivationHeight ≤ height → isDevelopmentPayoutHeight height →
          (developmentAllocationAt height (logSlots height)).payoutEach
            = some (∑ k ∈ Ioc (payoutBefore height) height, shareAt logSlots k) := by
  refine ⟨fun height expansions hv2 h => ⟨?_, ?_⟩, fun height => payoutEach_eq logSlots⟩
  · have hactive : v2Active height = true := decide_eq_true hv2
    have hbefore : ¬ v2Active (v2ActivationHeight - 1) = true := by decide
    rw [emittedSplitUpTo, emittedSplitUpTo, if_pos hactive, if_neg hbefore,
      min_eq_right (by omega), min_self]
  · have hIcc : Icc v2ActivationHeight height = Ioc (v2ActivationHeight - 1) height := by
      ext k
      have hfork := v2ActivationHeight_eq
      rw [mem_Icc, mem_Ioc]
      omega
    have hpaid := h.elim (fun hpay => sum_developmentPayout logSlots height (.inr ⟨hv2, hpay⟩))
      (sum_developmentPayout_after logSlots)
    rw [emittedV2Between_eq hv2 logSlots, splitSum, hIcc]
    dsimp only
    rw [hpaid, ← sum_add_distrib]
    refine sum_congr rfl fun k hk => minerSubsidy_add_shares logSlots ?_
    exact (mem_Icc.mp (hIcc ▸ hk)).1

/-- The first payout of v2. -/
theorem developmentShares_paid_first :
    (emittedV2Between v2ActivationHeight 213416).miner
        + (emittedV2Between v2ActivationHeight 213416).development
      = ∑ k ∈ Icc v2ActivationHeight 213416, blockRewardAt k logSlotsGenesis
    ∧ (developmentAllocationAt 213416 logSlotsGenesis).payoutEach
      = some (∑ k ∈ Ioc (payoutBefore 213416) 213416, shareAt (fun _ => logSlotsGenesis) k) :=
  ⟨((developmentShares_paid fun _ => logSlotsGenesis).1 213416 [] (by decide) (.inl (by decide))).2,
    (developmentShares_paid fun _ => logSlotsGenesis).2 213416 (by decide) (by decide)⟩

end Permanode
