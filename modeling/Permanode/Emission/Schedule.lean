import Permanode.Indexer.Store

/-!
# Emission/Schedule — the protocol's emission schedule

`core/src/emission.rs`: what a block mints, and the closed forms for what was minted up to a height.
Heights and amounts are natural numbers, since no sum or product of the source leaves its type; the
state size is the source's `u32`, which wraps around.
-/

namespace Permanode

/-! ## Constants -/

/-- `MICRONOID_PER_NOID`. -/
def micronoidPerNoid : ℕ := 1000000

/-- `BASE_REWARD_MICRONOID`. -/
def baseRewardMicronoid : ℕ := 50 * micronoidPerNoid

/-- `FLOOR_REWARD_MICRONOID`. -/
def floorRewardMicronoid : ℕ := micronoidPerNoid

/-- `LOG_SLOTS_GENESIS`. -/
def logSlotsGenesis : UInt32 := 24

/-- Target block interval before the fork, in seconds. -/
def legacyBlockTime : ℕ := 20

/-- Target block interval from the fork on, in seconds. -/
def v2BlockTime : ℕ := 30

/-- `BLOCKS_PER_DAY`, also the payout interval before the fork. -/
def blocksPerDay : ℕ := 24 * 60 * 60 / legacyBlockTime

/-- `V2_BLOCKS_PER_DAY`, also the payout interval from the fork on. -/
def v2BlocksPerDay : ℕ := 24 * 60 * 60 / v2BlockTime

/-- `V2_REWARD_INTERVAL_BLOCKS`. -/
def v2RewardIntervalBlocks : ℕ := 365 * v2BlocksPerDay

/-- `V2_REWARDS_MICRONOID`, tier by tier. -/
def v2RewardsMicronoid : List ℕ :=
  [16000000, 11300000, 8000000, 5650000, 4000000, 2830000, 2000000, 1410000, 1000000]

/-- `DEVELOPMENT_ALLOCATION_DURATION_SECONDS`. -/
def developmentAllocationDurationSeconds : ℕ := 86400 * 365 * 3

/-- `LEGACY_DEVELOPMENT_ALLOCATION_END_HEIGHT`. -/
def legacyDevelopmentAllocationEndHeight : ℕ := blocksPerDay * 365 * 3

/-- The last block of the development allocation. -/
def developmentAllocationEndHeight : ℕ :=
  (v2ActivationHeight - 1)
    + (developmentAllocationDurationSeconds - (v2ActivationHeight - 1) * legacyBlockTime)
      / v2BlockTime

/-- `DEVELOPMENT_SHARE_DENOMINATOR`. -/
def developmentShareDenominator : ℕ := 20

/-! ## One block -/

/-- The subsidy before the fork, at a state size. -/
def blockReward (logSlots : UInt32) : ℕ :=
  max (baseRewardMicronoid >>> min (logSlots.toNat - logSlotsGenesis.toNat) 63) floorRewardMicronoid

/-- The reward interval of a height, `none` before the fork. -/
def v2Tier (height : ℕ) : Option ℕ :=
  if v2Active height then
    some (min ((height - v2ActivationHeight) / v2RewardIntervalBlocks)
      (v2RewardsMicronoid.length - 1))
  else none

/-- The first height of a tier. -/
def v2TierFirstHeight (tier : ℕ) : ℕ := v2ActivationHeight + tier * v2RewardIntervalBlocks

/-- The reward of an interval. -/
def v2Reward (tier : ℕ) : ℕ := v2RewardsMicronoid.getD tier 0

/-- The reward of a block: of its tier from the fork on, of the state size before. -/
def blockRewardAt (height : ℕ) (logSlots : UInt32) : ℕ :=
  match v2Tier height with
  | some tier => v2Reward tier
  | none => blockReward logSlots

/-- `DevelopmentAllocation`. -/
structure DevelopmentAllocation where
  active : Bool
  payoutDue : Bool
  shareEach : ℕ
  payoutEach : Option ℕ
  minerSubsidy : ℕ
  deriving DecidableEq, Repr

/-- `development_allocation_at`: what a block pays and who gets it. -/
def developmentAllocationAt (height : ℕ) (logSlots : UInt32) : DevelopmentAllocation :=
  let subsidy := blockRewardAt height logSlots
  let inactive : DevelopmentAllocation :=
    { active := false
      payoutDue := false
      shareEach := 0
      payoutEach := none
      minerSubsidy := subsidy }
  let shareEach := subsidy / developmentShareDenominator
  if ¬ v2Active height then
    if height = 0 ∨ legacyDevelopmentAllocationEndHeight < height then inactive
    else
      let payoutDue : Bool := height % blocksPerDay = 0
      { active := true
        payoutDue
        shareEach
        payoutEach := if payoutDue then some (shareEach * blocksPerDay) else none
        minerSubsidy := subsidy - 2 * shareEach }
  else if developmentAllocationEndHeight < height then inactive
  else
    let elapsed := height - (v2ActivationHeight - 1)
    let count :=
      if height = v2ActivationHeight then none
      else if elapsed % v2BlocksPerDay = 0 then some v2BlocksPerDay
      else if height = developmentAllocationEndHeight then some (elapsed % v2BlocksPerDay)
      else none
    { active := true
      payoutDue := count.isSome
      shareEach
      payoutEach := count.map fun blocks => shareEach * blocks
      minerSubsidy := subsidy - 2 * shareEach }

/-- What the miner's coinbase mints, fees aside. -/
def minerSubsidy (height : ℕ) (logSlots : UInt32) : ℕ :=
  (developmentAllocationAt height logSlots).minerSubsidy

/-- The development payout of a block, both funds together. -/
def developmentPayout (height : ℕ) (logSlots : UInt32) : ℕ :=
  ((developmentAllocationAt height logSlots).payoutEach.map fun each => 2 * each).getD 0

/-- Whether a payout is due at a height. -/
def isDevelopmentPayoutHeight (height : ℕ) : Bool :=
  (developmentAllocationAt height logSlotsGenesis).payoutDue

/-! ## Closed forms -/

/-- The blocks the last payout is for. -/
def finalPartialPayoutBlocks : ℕ :=
  (developmentAllocationEndHeight - (v2ActivationHeight - 1)) % v2BlocksPerDay

/-- The regular payouts from the fork on in `lo..=hi`. -/
def v2RegularPayoutsIn (lo hi : ℕ) : ℕ :=
  let base := v2ActivationHeight - 1
  let hi := min hi developmentAllocationEndHeight
  let lo := max lo v2ActivationHeight
  if hi < lo then 0
  else
    let kMax := (hi - base) / v2BlocksPerDay
    -- `div_ceil`
    let kMin := (lo - base + (v2BlocksPerDay - 1)) / v2BlocksPerDay
    kMax + 1 - kMin

/-- The blocks in `1..=height` that carry a development payout. -/
def developmentPayoutBlocksUpTo (height : ℕ) : ℕ :=
  let legacy := min height (v2ActivationHeight - 1) / blocksPerDay
  let v2 := v2RegularPayoutsIn v2ActivationHeight height
  if finalPartialPayoutBlocks ≠ 0 ∧ developmentAllocationEndHeight ≤ height then legacy + (v2 + 1)
  else legacy + v2

/-- What was minted, by recipient. -/
structure EmissionSplit where
  miner : ℕ := 0
  development : ℕ := 0
  deriving DecidableEq, Repr

/-- Two splits together. -/
def EmissionSplit.add (a b : EmissionSplit) : EmissionSplit :=
  ⟨a.miner + b.miner, a.development + b.development⟩

/-- Heights `lo..=hi` before the fork, at one state size. -/
def emittedLegacyRange (lo hi : ℕ) (logSlots : UInt32) : EmissionSplit :=
  if hi < lo then {}
  else
    let subsidy := blockReward logSlots
    let share := blockReward logSlots / developmentShareDenominator
    let n := hi - lo + 1
    let payoutBlocks := hi / blocksPerDay - (lo - 1) / blocksPerDay
    { miner := n * (subsidy - 2 * share)
      development := payoutBlocks * 2 * share * blocksPerDay }

/-- The loop of `emitted_legacy_up_to` over the bounds of the state sizes. -/
def emittedLegacyLoop : List ℕ → ℕ → UInt32 → EmissionSplit → EmissionSplit
  | [], _, _, total => total
  | next :: bounds, start, logSlots, total =>
    emittedLegacyLoop bounds next (logSlots + 1)
      (if start < next then total.add (emittedLegacyRange start (next - 1) logSlots) else total)

/-- `emitted_legacy_up_to`: the emission before the fork, from expansion to expansion. -/
def emittedLegacyUpTo (height : ℕ) (expansions : List ℕ) : EmissionSplit :=
  emittedLegacyLoop ((expansions.filter (· ≤ height)) ++ [height + 1]) 1 logSlotsGenesis {}

/-- One tier's part of `emitted_v2_between`. -/
def emittedV2Tier (lo hi tier : ℕ) : EmissionSplit :=
  let first := max (v2TierFirstHeight tier) lo
  let last := if tier + 1 = v2RewardsMicronoid.length then hi
    else min (v2TierFirstHeight (tier + 1) - 1) hi
  if last < first then {}
  else
    let reward := v2Reward tier
    let share := v2Reward tier / developmentShareDenominator
    let devLast := min last developmentAllocationEndHeight
    let devBlocks := if first ≤ devLast then devLast - first + 1 else 0
    let plainBlocks := last - first + 1 - devBlocks
    let lastPayout :=
      if finalPartialPayoutBlocks ≠ 0 ∧ first ≤ developmentAllocationEndHeight
          ∧ developmentAllocationEndHeight ≤ last then
        2 * share * finalPartialPayoutBlocks
      else 0
    { miner := devBlocks * (reward - 2 * share) + plainBlocks * reward
      development := v2RegularPayoutsIn first last * 2 * share * v2BlocksPerDay + lastPayout }

/-- Heights `lo..=hi` from the fork on. -/
def emittedV2Between (lo hi : ℕ) : EmissionSplit :=
  if hi < lo then {}
  else (List.range v2RewardsMicronoid.length).foldl
    (fun total tier => total.add (emittedV2Tier lo hi tier)) {}

/-- What has been minted for heights `1..=height`. -/
def emittedSplitUpTo (height : ℕ) (expansions : List ℕ) : EmissionSplit :=
  let total := emittedLegacyUpTo (min height (v2ActivationHeight - 1)) expansions
  if v2Active height then total.add (emittedV2Between v2ActivationHeight height) else total

end Permanode
