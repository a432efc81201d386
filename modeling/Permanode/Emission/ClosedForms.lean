import Permanode.Emission.Schedule
import Permanode.Foundations.Counting

/-!
# Emission/ClosedForms — the closed forms are block-by-block sums

Before the fork the loop walks from one state expansion to the next; between two of them every block
has the same subsidy, and the payouts are the multiples of a day.  From the fork on the heights fall
into tiers of whole payout intervals, so a regular payout belongs to one tier.

**`emittedSplitUpTo_eq`**: what the closed forms say was minted up to a height is the sum over its
blocks.
-/

namespace Permanode

open Finset

/-! ## The constants -/

theorem developmentAllocationEndHeight_eq : developmentAllocationEndHeight = 3223778 := by decide

theorem legacyDevelopmentAllocationEndHeight_eq :
    legacyDevelopmentAllocationEndHeight = 4730400 := by decide

theorem blocksPerDay_eq : blocksPerDay = 4320 := by decide

theorem v2BlocksPerDay_eq : v2BlocksPerDay = 2880 := by decide

theorem v2RewardIntervalBlocks_eq : v2RewardIntervalBlocks = 1051200 := by decide

theorem v2ActivationHeight_eq : v2ActivationHeight = 210537 := rfl

/-! ## One block -/

/-- A share of a subsidy. -/
def shareOf (subsidy : ℕ) : ℕ := subsidy / developmentShareDenominator

theorem allocation_legacy {k : ℕ} (hk : 1 ≤ k) (hlt : k < v2ActivationHeight) (ls : UInt32) :
    developmentAllocationAt k ls =
      { active := true
        payoutDue := k % blocksPerDay = 0
        shareEach := shareOf (blockReward ls)
        payoutEach := if k % blocksPerDay = 0 then some (shareOf (blockReward ls) * blocksPerDay)
          else none
        minerSubsidy := blockReward ls - 2 * shareOf (blockReward ls) } := by
  have hv2 : v2Active k = false := decide_eq_false (by omega)
  have hend : ¬ (k = 0 ∨ legacyDevelopmentAllocationEndHeight < k) := by
    have := legacyDevelopmentAllocationEndHeight_eq
    have := v2ActivationHeight_eq
    omega
  simp [developmentAllocationAt, blockRewardAt, v2Tier, hv2, hend, shareOf]

/-- The tier of a height from the fork on. -/
def tierOf (k : ℕ) : ℕ := min ((k - v2ActivationHeight) / v2RewardIntervalBlocks) 8

theorem blockRewardAt_v2 {k : ℕ} (hk : v2ActivationHeight ≤ k) (ls : UInt32) :
    blockRewardAt k ls = v2Reward (tierOf k) := by
  have hv2 : v2Active k = true := decide_eq_true hk
  rw [blockRewardAt, v2Tier, if_pos hv2]
  rfl

/-- A payout of a whole interval falls on a height. -/
def RegularPayout (k : ℕ) : Prop :=
  v2BlocksPerDay ∣ k - (v2ActivationHeight - 1)

instance (k : ℕ) : Decidable (RegularPayout k) := by unfold RegularPayout; infer_instance

/-- The partial payout that ends the allocation is none of a whole interval. -/
theorem not_regularPayout_end : ¬ RegularPayout developmentAllocationEndHeight := by decide

/-- How many shares the payout of a height covers, if there is one. -/
def payoutCount (k : ℕ) : Option ℕ :=
  if RegularPayout k then some v2BlocksPerDay
  else if k = developmentAllocationEndHeight then some finalPartialPayoutBlocks
  else none

theorem payoutCount_eq (k : ℕ) :
    (if k = v2ActivationHeight then none
      else if (k - (v2ActivationHeight - 1)) % v2BlocksPerDay = 0 then some v2BlocksPerDay
      else if k = developmentAllocationEndHeight then
        some ((k - (v2ActivationHeight - 1)) % v2BlocksPerDay)
      else none) = payoutCount k := by
  have hdvd : RegularPayout k ↔ (k - (v2ActivationHeight - 1)) % v2BlocksPerDay = 0 :=
    Nat.dvd_iff_mod_eq_zero
  simp only [payoutCount, ← hdvd]
  split_ifs with h₁ h₂ h₃ h₄ h₅
  · exact absurd (h₁ ▸ h₂) (by decide)
  · exact absurd (h₁.symm.trans h₃) (by decide)
  · rfl
  · rfl
  · rw [h₅, finalPartialPayoutBlocks]
  · rfl

theorem allocation_v2 {k : ℕ} (hk : v2ActivationHeight ≤ k) (ls : UInt32)
    (hend : k ≤ developmentAllocationEndHeight) :
    developmentAllocationAt k ls =
      { active := true
        payoutDue := (payoutCount k).isSome
        shareEach := shareOf (v2Reward (tierOf k))
        payoutEach := (payoutCount k).map fun blocks => shareOf (v2Reward (tierOf k)) * blocks
        minerSubsidy := v2Reward (tierOf k) - 2 * shareOf (v2Reward (tierOf k)) } := by
  have hv2 : v2Active k = true := decide_eq_true hk
  simp only [developmentAllocationAt, hv2, not_true_eq_false, if_false, if_neg hend.not_gt,
    blockRewardAt_v2 hk, payoutCount_eq, shareOf]

theorem allocation_after {k : ℕ} (hend : developmentAllocationEndHeight < k) (ls : UInt32) :
    developmentAllocationAt k ls =
      { active := false
        payoutDue := false
        shareEach := 0
        payoutEach := none
        minerSubsidy := v2Reward (tierOf k) } := by
  have hk : v2ActivationHeight ≤ k := by
    have := developmentAllocationEndHeight_eq
    have := v2ActivationHeight_eq
    omega
  have hv2 : v2Active k = true := decide_eq_true hk
  simp only [developmentAllocationAt, hv2, not_true_eq_false, if_false, if_pos hend,
    blockRewardAt_v2 hk]

/-- What a block from the fork on mints for its miner. -/
theorem minerSubsidy_v2 {k : ℕ} (hk : v2ActivationHeight ≤ k) (ls : UInt32) :
    minerSubsidy k ls = if k ≤ developmentAllocationEndHeight then
        v2Reward (tierOf k) - 2 * shareOf (v2Reward (tierOf k))
      else v2Reward (tierOf k) := by
  split_ifs with hend
  · rw [minerSubsidy, allocation_v2 hk ls hend]
  · rw [minerSubsidy, allocation_after (by omega) ls]

/-- What a block from the fork on pays to the funds: a whole interval, the last part of one, or
nothing. -/
theorem developmentPayout_v2 {k : ℕ} (hk : v2ActivationHeight ≤ k) (ls : UInt32) :
    developmentPayout k ls
      = (if RegularPayout k ∧ k ≤ developmentAllocationEndHeight then
          2 * (shareOf (v2Reward (tierOf k)) * v2BlocksPerDay) else 0)
        + if k = developmentAllocationEndHeight then
            2 * (shareOf (v2Reward (tierOf k)) * finalPartialPayoutBlocks) else 0 := by
  by_cases hend : k ≤ developmentAllocationEndHeight
  · rw [developmentPayout, allocation_v2 hk ls hend]
    dsimp only
    rw [payoutCount]
    by_cases hr : RegularPayout k
    · have hne : k ≠ developmentAllocationEndHeight := by
        rintro rfl
        exact not_regularPayout_end hr
      rw [if_pos hr, if_pos ⟨hr, hend⟩, if_neg hne, Option.map_some, Option.map_some,
        Option.getD_some, Nat.add_zero]
    · have hregular : ¬ (RegularPayout k ∧ k ≤ developmentAllocationEndHeight) := fun h => hr h.1
      rw [if_neg hr, if_neg hregular, Nat.zero_add]
      by_cases hlast : k = developmentAllocationEndHeight
      · rw [if_pos hlast, if_pos hlast, Option.map_some, Option.map_some, Option.getD_some]
      · rw [if_neg hlast, if_neg hlast, Option.map_none, Option.map_none, Option.getD_none]
  · rw [developmentPayout, allocation_after (by omega) ls, if_neg fun h => hend h.2,
      if_neg fun h => hend h.le]
    rfl

/-! ## Payouts in an interval -/

/-- The multiples of a day up to a height. -/
theorem card_legacyPayouts {a b : ℕ} (h : a ≤ b) :
    #{k ∈ Ioc a b | k % blocksPerDay = 0} = b / blocksPerDay - a / blocksPerDay := by
  simpa only [Nat.sub_zero, Nat.dvd_iff_mod_eq_zero] using
    card_filter_dvd_sub (d := blocksPerDay) (Nat.zero_le a) h

/-- **The regular payouts of an interval** from the fork on. -/
theorem v2RegularPayoutsIn_eq {lo hi : ℕ} (hlo : v2ActivationHeight ≤ lo) :
    v2RegularPayoutsIn lo hi
      = #{k ∈ Icc lo hi | RegularPayout k ∧ k ≤ developmentAllocationEndHeight} := by
  have hfilter : {k ∈ Icc lo hi | RegularPayout k ∧ k ≤ developmentAllocationEndHeight}
      = {k ∈ Ioc (lo - 1) (min hi developmentAllocationEndHeight) | RegularPayout k} := by
    ext k
    rw [v2ActivationHeight_eq] at hlo
    simp only [mem_filter, mem_Icc, mem_Ioc, le_min_iff]
    constructor
    · rintro ⟨⟨h₁, h₂⟩, h₃, h₄⟩
      exact ⟨⟨by omega, h₂, h₄⟩, h₃⟩
    · rintro ⟨⟨h₁, h₂, h₄⟩, h₃⟩
      exact ⟨⟨by omega, h₂⟩, h₃, h₄⟩
  rw [hfilter, v2RegularPayoutsIn, max_eq_left hlo]
  dsimp only
  generalize min hi developmentAllocationEndHeight = top
  rw [v2BlocksPerDay_eq]
  split_ifs with hlt
  · rw [Ioc_eq_empty (by omega), filter_empty, card_empty]
  · have hcard := card_filter_dvd_sub (d := 2880) (c := v2ActivationHeight - 1) (a := lo - 1)
      (by omega) (b := top) (by omega)
    rw [v2ActivationHeight_eq] at hlo hcard ⊢
    simp only [RegularPayout, v2BlocksPerDay_eq, v2ActivationHeight_eq]
    rw [hcard]
    omega

/-! ## Sums over blocks -/

/-- What the blocks of a set mint, given their state sizes. -/
def splitSum (s : Finset ℕ) (logSlots : ℕ → UInt32) : EmissionSplit :=
  ⟨∑ k ∈ s, minerSubsidy k (logSlots k), ∑ k ∈ s, developmentPayout k (logSlots k)⟩

theorem EmissionSplit.empty_add (a : EmissionSplit) : EmissionSplit.add {} a = a := by
  simp only [add, Nat.zero_add]

theorem EmissionSplit.add_empty (a : EmissionSplit) : a.add {} = a := rfl

theorem EmissionSplit.add_assoc (a b c : EmissionSplit) : (a.add b).add c = a.add (b.add c) := by
  simp only [add, Nat.add_assoc]

theorem splitSum_empty (ls : ℕ → UInt32) : splitSum ∅ ls = {} := rfl

theorem splitSum_congr {s : Finset ℕ} {ls ls' : ℕ → UInt32} (h : ∀ k ∈ s, ls k = ls' k) :
    splitSum s ls = splitSum s ls' := by
  have hminer : ∑ k ∈ s, minerSubsidy k (ls k) = ∑ k ∈ s, minerSubsidy k (ls' k) :=
    sum_congr rfl fun k hk => by rw [h k hk]
  have hdevelopment : ∑ k ∈ s, developmentPayout k (ls k) = ∑ k ∈ s, developmentPayout k (ls' k) :=
    sum_congr rfl fun k hk => by rw [h k hk]
  rw [splitSum, splitSum, hminer, hdevelopment]

theorem splitSum_union {s t : Finset ℕ} (h : Disjoint s t) (ls : ℕ → UInt32) :
    splitSum (s ∪ t) ls = (splitSum s ls).add (splitSum t ls) := by
  rw [splitSum, sum_union h, sum_union h]
  rfl

theorem splitSum_Ico {a b c : ℕ} (hab : a ≤ b) (hbc : b ≤ c) (ls : ℕ → UInt32) :
    splitSum (Ico a c) ls = (splitSum (Ico a b) ls).add (splitSum (Ico b c) ls) := by
  rw [← Ico_union_Ico_eq_Ico hab hbc, splitSum_union (Ico_disjoint_Ico_consecutive a b c)]

/-! ## Before the fork -/

/-- **Blocks at one state size.** -/
theorem emittedLegacyRange_eq {lo hi : ℕ} (hlo : 1 ≤ lo) (h : lo < hi)
    (hhi : hi ≤ v2ActivationHeight) (ls : UInt32) :
    emittedLegacyRange lo (hi - 1) ls = splitSum (Ico lo hi) fun _ => ls := by
  have hblock : ∀ k ∈ Ico lo hi, 1 ≤ k ∧ k < v2ActivationHeight := by
    intro k hk
    have := mem_Ico.mp hk
    omega
  have hminer : ∑ k ∈ Ico lo hi, minerSubsidy k ls
      = (hi - lo) * (blockReward ls - 2 * shareOf (blockReward ls)) := by
    rw [sum_congr rfl fun k hk => by
      rw [minerSubsidy, allocation_legacy (hblock k hk).1 (hblock k hk).2], sum_const,
      Nat.nsmul_eq_mul, Nat.card_Ico]
  have hpayout : ∀ k ∈ Ico lo hi, developmentPayout k ls
      = if k % blocksPerDay = 0 then 2 * (shareOf (blockReward ls) * blocksPerDay) else 0 := by
    intro k hk
    rw [developmentPayout, allocation_legacy (hblock k hk).1 (hblock k hk).2]
    dsimp only
    split_ifs <;> rfl
  have hIco : Ico lo hi = Ioc (lo - 1) (hi - 1) := by
    ext k
    rw [mem_Ico, mem_Ioc]
    omega
  rw [splitSum, hminer, sum_congr rfl hpayout, sum_ite_const, hIco,
    card_legacyPayouts (by omega), emittedLegacyRange, if_neg (by omega)]
  have hn : hi - 1 - lo + 1 = hi - lo := by omega
  dsimp only
  rw [hn, ← shareOf]
  simp only [Nat.mul_assoc]

/-- The walk over the state expansions: `todo` are those still to come. -/
theorem emittedLegacyLoop_eq {height : ℕ} (hheight : height < v2ActivationHeight) :
    ∀ (todo : List ℕ) (start : ℕ) (ls : UInt32) (total : EmissionSplit), 1 ≤ start →
      start ≤ height + 1 → todo.Pairwise (· ≤ ·) → (∀ e ∈ todo, start ≤ e ∧ e ≤ height) →
      emittedLegacyLoop (todo ++ [height + 1]) start ls total
        = total.add (splitSum (Ico start (height + 1))
          fun k => ls + UInt32.ofNat (todo.countP (· ≤ k)))
  | [], start, ls, total, hstart, hle, _, _ => by
      have hls : ∀ k ∈ Ico start (height + 1),
        ls + UInt32.ofNat (([] : List ℕ).countP (· ≤ k)) = ls :=
        fun _ _ => UInt32.add_zero ls
      rw [splitSum_congr hls, List.nil_append, emittedLegacyLoop, emittedLegacyLoop]
      split_ifs with hlt
      · rw [emittedLegacyRange_eq hstart hlt (by omega)]
      · rw [Ico_eq_empty (by omega), splitSum_empty, EmissionSplit.add_empty]
  | next :: todo, start, ls, total, hstart, hle, hsorted, hin => by
      obtain ⟨hnext, hsorted⟩ := List.pairwise_cons.mp hsorted
      obtain ⟨hsn, hnh⟩ := hin next List.mem_cons_self
      rw [List.cons_append, emittedLegacyLoop, emittedLegacyLoop_eq hheight todo next (ls + 1) _
        (by omega) (by omega) hsorted fun e he =>
        ⟨hnext e he, (hin e (List.mem_cons_of_mem _ he)).2⟩]
      -- blocks before the expansion see none of the list, those after it see it
      have hbefore : ∀ k ∈ Ico start next,
          ls + UInt32.ofNat ((next :: todo).countP (· ≤ k)) = ls := by
        intro k hk
        have hzero : (next :: todo).countP (· ≤ k) = 0 := by
          rw [List.countP_eq_zero]
          intro e he
          have hlt := (mem_Ico.mp hk).2
          rcases List.mem_cons.mp he with rfl | he
          · simpa using hlt
          · have := hnext e he
            simp only [decide_eq_true_eq]
            omega
        rw [hzero]
        exact UInt32.add_zero ls
      have hafter : ∀ k ∈ Ico next (height + 1), ls + UInt32.ofNat ((next :: todo).countP (· ≤ k))
          = ls + 1 + UInt32.ofNat (todo.countP (· ≤ k)) := by
        intro k hk
        rw [List.countP_cons_of_pos (by simpa using (mem_Ico.mp hk).1), Nat.add_comm,
          UInt32.ofNat_add, ← UInt32.add_assoc]
        rfl
      rw [splitSum_Ico hsn (show next ≤ height + 1 by omega), splitSum_congr hbefore,
        splitSum_congr hafter, ← EmissionSplit.add_assoc]
      by_cases hlt : start < next
      · rw [if_pos hlt, emittedLegacyRange_eq hstart hlt (by omega)]
      · rw [if_neg hlt, Ico_eq_empty hlt, splitSum_empty, EmissionSplit.add_empty]

/-! ## From the fork on -/

/-- The heights of a tier, among those from the fork to `height`. -/
def tierBlocks (height tier : ℕ) : Finset ℕ := {k ∈ Icc v2ActivationHeight height | tierOf k = tier}

/-- **A tier is an interval**: whole reward intervals, the last one without an end. -/
theorem tierBlocks_eq {height tier : ℕ} (ht : tier < v2RewardsMicronoid.length) :
    tierBlocks height tier
      = Icc (max (v2TierFirstHeight tier) v2ActivationHeight)
        (if tier + 1 = v2RewardsMicronoid.length then height
          else min (v2TierFirstHeight (tier + 1) - 1) height) := by
  have hlen : v2RewardsMicronoid.length = 9 := rfl
  rw [hlen] at ht ⊢
  ext k
  rw [tierBlocks, mem_filter, mem_Icc, mem_Icc, tierOf, v2TierFirstHeight, v2TierFirstHeight,
    v2RewardIntervalBlocks_eq, v2ActivationHeight_eq]
  split_ifs <;> omega

/-- The blocks of an interval within the allocation. -/
theorem card_filter_le {first last bound : ℕ} :
    #{k ∈ Icc first last | k ≤ bound}
      = if first ≤ min last bound then min last bound - first + 1 else 0 := by
  have hfilter : {k ∈ Icc first last | k ≤ bound} = Icc first (min last bound) := by
    ext k
    rw [mem_filter, mem_Icc, mem_Icc, le_min_iff, and_assoc]
  rw [hfilter, Nat.card_Icc]
  split_ifs <;> omega

/-- What a tier mints for the miners: the subsidy within the allocation, the reward after it. -/
theorem sum_minerSubsidy_tier {first last bound a b : ℕ} (h : first ≤ last) :
    (∑ k ∈ Icc first last, if k ≤ bound then a else b)
      = #{k ∈ Icc first last | k ≤ bound} * a
        + (last - first + 1 - #{k ∈ Icc first last | k ≤ bound}) * b := by
  have hcard : last - first + 1 - #{k ∈ Icc first last | k ≤ bound}
      = #{k ∈ Icc first last | ¬ k ≤ bound} := by
    have hboth := card_filter_add_card_filter_not (s := Icc first last) (· ≤ bound)
    rw [Nat.card_Icc] at hboth
    omega
  rw [sum_ite, sum_const, sum_const, Nat.nsmul_eq_mul, Nat.nsmul_eq_mul, hcard]

/-- **One tier.** -/
theorem emittedV2Tier_eq {height tier : ℕ} (ht : tier < v2RewardsMicronoid.length)
    (ls : ℕ → UInt32) :
    emittedV2Tier v2ActivationHeight height tier = splitSum (tierBlocks height tier) ls := by
  have hblock : ∀ k ∈ tierBlocks height tier, v2ActivationHeight ≤ k ∧ tierOf k = tier :=
    fun k hk => ⟨(mem_Icc.mp (mem_filter.mp hk).1).1, (mem_filter.mp hk).2⟩
  have hminer : ∀ k ∈ tierBlocks height tier, minerSubsidy k (ls k)
      = if k ≤ developmentAllocationEndHeight then
          v2Reward tier - 2 * shareOf (v2Reward tier) else v2Reward tier := by
    intro k hk
    rw [minerSubsidy_v2 (hblock k hk).1, (hblock k hk).2]
  have hdevelopment : ∀ k ∈ tierBlocks height tier, developmentPayout k (ls k)
      = (if RegularPayout k ∧ k ≤ developmentAllocationEndHeight then
          2 * (shareOf (v2Reward tier) * v2BlocksPerDay) else 0)
        + if k = developmentAllocationEndHeight then
            2 * (shareOf (v2Reward tier) * finalPartialPayoutBlocks) else 0 := by
    intro k hk
    rw [developmentPayout_v2 (hblock k hk).1, (hblock k hk).2]
  rw [splitSum, sum_congr rfl hminer, sum_congr rfl hdevelopment, sum_add_distrib, sum_ite_const,
    sum_ite_eq', tierBlocks_eq ht, emittedV2Tier]
  dsimp only
  generalize hfirst : max (v2TierFirstHeight tier) v2ActivationHeight = first
  generalize (if tier + 1 = v2RewardsMicronoid.length then height
    else min (v2TierFirstHeight (tier + 1) - 1) height) = last
  have hlo : v2ActivationHeight ≤ first := hfirst ▸ le_max_right _ _
  by_cases hlt : last < first
  · rw [if_pos hlt, Icc_eq_empty (by omega), sum_empty, filter_empty, card_empty,
      if_neg (notMem_empty _), Nat.zero_mul]
    rfl
  · have hend : (finalPartialPayoutBlocks ≠ 0 ∧ first ≤ developmentAllocationEndHeight
        ∧ developmentAllocationEndHeight ≤ last) ↔
        developmentAllocationEndHeight ∈ Icc first last := by
      rw [mem_Icc]
      exact and_iff_right (by decide)
    rw [if_neg hlt, sum_minerSubsidy_tier (by omega), card_filter_le, ← v2RegularPayoutsIn_eq hlo]
    simp only [hend, shareOf, Nat.mul_assoc]

/-- **From the fork on**: the tiers cover the heights. -/
theorem emittedV2Between_eq {height : ℕ} (h : v2ActivationHeight ≤ height) (ls : ℕ → UInt32) :
    emittedV2Between v2ActivationHeight height = splitSum (Icc v2ActivationHeight height) ls := by
  -- after the first `n` tiers, the blocks of these tiers are summed up
  have htiers : ∀ n ≤ v2RewardsMicronoid.length,
      (List.range n).foldl
          (fun total tier => total.add (emittedV2Tier v2ActivationHeight height tier)) {}
        = splitSum {k ∈ Icc v2ActivationHeight height | tierOf k < n} ls := by
    intro n hn
    induction n with
    | zero =>
      rw [filter_false_of_mem fun k _ => Nat.not_lt_zero _]
      rfl
    | succ n ih =>
      have hunion : {k ∈ Icc v2ActivationHeight height | tierOf k < n + 1}
          = {k ∈ Icc v2ActivationHeight height | tierOf k < n} ∪ tierBlocks height n := by
        ext k
        simp only [tierBlocks, mem_union, mem_filter, Nat.lt_succ_iff_lt_or_eq, and_or_left]
      have hdisjoint : Disjoint {k ∈ Icc v2ActivationHeight height | tierOf k < n}
          (tierBlocks height n) := by
        rw [tierBlocks, disjoint_filter]
        intro k _ hlt heq
        omega
      rw [List.range_succ, List.foldl_append, ih (by omega), List.foldl_cons, List.foldl_nil,
        emittedV2Tier_eq (by omega) ls, hunion, splitSum_union hdisjoint]
  have hall : {k ∈ Icc v2ActivationHeight height | tierOf k < v2RewardsMicronoid.length}
      = Icc v2ActivationHeight height := by
    refine filter_true_of_mem fun k _ => ?_
    have hlen : v2RewardsMicronoid.length = 9 := rfl
    rw [hlen, tierOf]
    omega
  rw [emittedV2Between, if_neg h.not_gt, htiers _ le_rfl, hall]

/-! ## Both eras -/

theorem Ico_one_eq_Icc (n : ℕ) : Ico 1 (n + 1) = Icc 1 n := by
  ext k
  rw [mem_Ico, mem_Icc, Nat.lt_succ_iff]

/-- The state size of a height: one more for each expansion up to it. -/
def logSlotsAt (expansions : List ℕ) (k : ℕ) : UInt32 :=
  logSlotsGenesis + UInt32.ofNat (expansions.countP (· ≤ k))

/-- **Before the fork**: the loop sums up the blocks. -/
theorem emittedLegacyUpTo_eq {height : ℕ} (h : height < v2ActivationHeight) {expansions : List ℕ}
    (hsorted : expansions.Pairwise (· ≤ ·)) (hpos : ∀ e ∈ expansions, 1 ≤ e) :
    emittedLegacyUpTo height expansions = splitSum (Icc 1 height) (logSlotsAt expansions) := by
  have hbounds : ∀ e ∈ expansions.filter (· ≤ height), 1 ≤ e ∧ e ≤ height := by
    intro e he
    obtain ⟨he, hle⟩ := List.mem_filter.mp he
    exact ⟨hpos e he, of_decide_eq_true hle⟩
  have hcount : ∀ k ∈ Ico 1 (height + 1),
      logSlotsGenesis + UInt32.ofNat ((expansions.filter (· ≤ height)).countP (· ≤ k))
        = logSlotsAt expansions k := by
    intro k hk
    have hle : k ≤ height := Nat.lt_succ_iff.mp (mem_Ico.mp hk).2
    rw [logSlotsAt, List.countP_filter]
    congr 2
    refine List.countP_congr fun e _ => ?_
    simp only [Bool.and_eq_true, decide_eq_true_eq]
    omega
  rw [emittedLegacyUpTo, emittedLegacyLoop_eq h _ 1 logSlotsGenesis {} le_rfl (by omega)
    (hsorted.filter _) hbounds, EmissionSplit.empty_add, splitSum_congr hcount, Ico_one_eq_Icc]

/-- **What the closed forms say was minted up to a height is the sum over its blocks.** -/
theorem emittedSplitUpTo_eq_splitSum (height : ℕ) {expansions : List ℕ}
    (hsorted : expansions.Pairwise (· ≤ ·)) (hpos : ∀ e ∈ expansions, 1 ≤ e) :
    emittedSplitUpTo height expansions = splitSum (Icc 1 height) (logSlotsAt expansions) := by
  rw [emittedSplitUpTo, emittedLegacyUpTo_eq (lt_of_le_of_lt (min_le_right _ _) (by decide))
    hsorted hpos]
  by_cases hv2 : v2ActivationHeight ≤ height
  · have hactive : v2Active height = true := decide_eq_true hv2
    have hunion : Icc 1 height
        = Icc 1 (v2ActivationHeight - 1) ∪ Icc v2ActivationHeight height := by
      ext k
      rw [mem_union, mem_Icc, mem_Icc, mem_Icc]
      have := v2ActivationHeight_eq
      omega
    have hdisjoint : Disjoint (Icc 1 (v2ActivationHeight - 1)) (Icc v2ActivationHeight height) := by
      rw [disjoint_left]
      intro k h₁ h₂
      rw [mem_Icc] at h₁ h₂
      have := v2ActivationHeight_eq
      omega
    rw [if_pos hactive, min_eq_right (by omega), emittedV2Between_eq hv2 (logSlotsAt expansions),
      hunion, splitSum_union hdisjoint]
  · have hactive : ¬ v2Active height = true := by
      rw [v2Active, decide_eq_true_eq]
      exact hv2
    rw [if_neg hactive, min_eq_left (by omega)]

/-! ## Payout heights -/

theorem isDevelopmentPayoutHeight_legacy {k : ℕ} (hk : 1 ≤ k) (hlt : k < v2ActivationHeight) :
    isDevelopmentPayoutHeight k = true ↔ k % blocksPerDay = 0 := by
  rw [isDevelopmentPayoutHeight, allocation_legacy hk hlt]
  exact decide_eq_true_iff

theorem isDevelopmentPayoutHeight_v2 {k : ℕ} (hk : v2ActivationHeight ≤ k) :
    isDevelopmentPayoutHeight k = true
      ↔ (RegularPayout k ∧ k ≤ developmentAllocationEndHeight)
        ∨ k = developmentAllocationEndHeight := by
  by_cases hend : k ≤ developmentAllocationEndHeight
  · rw [isDevelopmentPayoutHeight, allocation_v2 hk _ hend]
    dsimp only
    rw [payoutCount]
    by_cases hr : RegularPayout k
    · rw [if_pos hr]
      exact iff_of_true rfl (.inl ⟨hr, hend⟩)
    · rw [if_neg hr]
      by_cases hlast : k = developmentAllocationEndHeight
      · rw [if_pos hlast]
        exact iff_of_true rfl (.inr hlast)
      · rw [if_neg hlast]
        exact iff_of_false Bool.false_ne_true (by tauto)
  · rw [isDevelopmentPayoutHeight, allocation_after (by omega)]
    refine iff_of_false Bool.false_ne_true ?_
    rintro (⟨_, h⟩ | rfl)
    · exact hend h
    · exact hend le_rfl

/-- The payout heights: whole days before the fork, whole intervals after it, and the end of the
allocation. -/
theorem payoutHeights_eq (height : ℕ) :
    {k ∈ Icc 1 height | isDevelopmentPayoutHeight k = true}
      = {k ∈ Ioc 0 (min height (v2ActivationHeight - 1)) | k % blocksPerDay = 0}
        ∪ ({k ∈ Icc v2ActivationHeight height |
              RegularPayout k ∧ k ≤ developmentAllocationEndHeight}
          ∪ {k ∈ Icc v2ActivationHeight height | k = developmentAllocationEndHeight}) := by
  have hfork : 0 < v2ActivationHeight := by decide
  ext k
  simp only [mem_union, mem_filter, mem_Icc, mem_Ioc, le_min_iff]
  by_cases hv2 : v2ActivationHeight ≤ k
  · rw [isDevelopmentPayoutHeight_v2 hv2, ← and_or_left]
    constructor
    · rintro ⟨⟨_, h⟩, hk⟩
      exact .inr ⟨⟨hv2, h⟩, hk⟩
    · rintro (⟨⟨_, _, h⟩, _⟩ | ⟨⟨_, h⟩, hk⟩)
      · omega
      · exact ⟨⟨by omega, h⟩, hk⟩
  · constructor
    · rintro ⟨⟨h₁, h⟩, hk⟩
      exact .inl ⟨⟨h₁, h, by omega⟩, (isDevelopmentPayoutHeight_legacy h₁ (by omega)).mp hk⟩
    · rintro (⟨⟨h₁, h, _⟩, hk⟩ | ⟨⟨h, _⟩, _⟩ | ⟨⟨h, _⟩, _⟩)
      · exact ⟨⟨h₁, h⟩, (isDevelopmentPayoutHeight_legacy h₁ (by omega)).mpr hk⟩
      · exact absurd h hv2
      · exact absurd h hv2

/-- **The payout heights, counted.** -/
theorem card_payoutHeights (height : ℕ) :
    #{k ∈ Icc 1 height | isDevelopmentPayoutHeight k = true}
      = developmentPayoutBlocksUpTo height := by
  have hdisjoint : Disjoint {k ∈ Ioc 0 (min height (v2ActivationHeight - 1)) | k % blocksPerDay = 0}
      ({k ∈ Icc v2ActivationHeight height | RegularPayout k ∧ k ≤ developmentAllocationEndHeight}
        ∪ {k ∈ Icc v2ActivationHeight height | k = developmentAllocationEndHeight}) := by
    rw [disjoint_left]
    intro k h₁ h₂
    have hlt := (mem_Ioc.mp (mem_filter.mp h₁).1).2
    have hle : v2ActivationHeight ≤ k := by
      rcases mem_union.mp h₂ with h | h <;> exact (mem_Icc.mp (mem_filter.mp h).1).1
    have hfork : 0 < v2ActivationHeight := by decide
    omega
  have hlast : Disjoint
      {k ∈ Icc v2ActivationHeight height | RegularPayout k ∧ k ≤ developmentAllocationEndHeight}
      {k ∈ Icc v2ActivationHeight height | k = developmentAllocationEndHeight} := by
    rw [disjoint_filter]
    rintro k _ ⟨hr, _⟩ rfl
    exact not_regularPayout_end hr
  have hend : #{k ∈ Icc v2ActivationHeight height | k = developmentAllocationEndHeight}
      = if developmentAllocationEndHeight ≤ height then 1 else 0 := by
    have hfork : v2ActivationHeight ≤ developmentAllocationEndHeight := by decide
    rw [filter_eq']
    simp only [mem_Icc, hfork, true_and]
    split_ifs <;> rfl
  rw [payoutHeights_eq, card_union_of_disjoint hdisjoint, card_union_of_disjoint hlast, hend,
    card_legacyPayouts (Nat.zero_le _), ← v2RegularPayoutsIn_eq le_rfl, Nat.zero_div, Nat.sub_zero,
    developmentPayoutBlocksUpTo]
  have hrest : finalPartialPayoutBlocks ≠ 0 := by decide
  simp only [hrest, ne_eq, not_false_eq_true, true_and]
  split_ifs <;> rfl

/-! ## The schedule -/

/-- **The closed forms equal the block-by-block sum**, for every height and every list of state
expansions in order. -/
theorem emittedSplitUpTo_eq (height : ℕ) (expansions : List ℕ)
    (hsorted : expansions.Pairwise (· ≤ ·)) (hpos : ∀ e ∈ expansions, 1 ≤ e) :
    (emittedSplitUpTo height expansions).miner
        = ∑ k ∈ Icc 1 height, minerSubsidy k (logSlotsAt expansions k)
      ∧ (emittedSplitUpTo height expansions).development
        = ∑ k ∈ Icc 1 height, developmentPayout k (logSlotsAt expansions k)
      ∧ developmentPayoutBlocksUpTo height
        = #{k ∈ Icc 1 height | isDevelopmentPayoutHeight k = true} := by
  rw [emittedSplitUpTo_eq_splitSum height hsorted hpos]
  exact ⟨rfl, rfl, (card_payoutHeights height).symm⟩

/-- The schedule with the state expanding twice at one height before the fork. -/
theorem emittedSplitUpTo_eq_expanded :
    (emittedSplitUpTo 4000000 [150000, 150000]).miner
        = ∑ k ∈ Icc 1 4000000, minerSubsidy k (logSlotsAt [150000, 150000] k)
      ∧ (emittedSplitUpTo 4000000 [150000, 150000]).development
        = ∑ k ∈ Icc 1 4000000, developmentPayout k (logSlotsAt [150000, 150000] k)
      ∧ developmentPayoutBlocksUpTo 4000000
        = #{k ∈ Icc 1 4000000 | isDevelopmentPayoutHeight k = true} :=
  emittedSplitUpTo_eq 4000000 [150000, 150000] (by decide) (by decide)

end Permanode
