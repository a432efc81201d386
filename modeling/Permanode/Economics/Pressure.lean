import Permanode.Emission.Schedule
import Permanode.Foundations.Bands

/-!
# Economics/Pressure — what filling the state burns

The fee model of `core/src/fees.rs`, and `pressure_thresholds` and `min_burn_bands` of
`permanode/src/serve.rs`: the slots up to the expansion threshold, cut at the pressure thresholds
into bands of one price.

**`minBurnBands_sum`**: the bands come to what the slots burn one by one.
-/

namespace Permanode

/-! ## The fee model -/

/-- `STATE_GROWTH_FEE_BASE`. -/
def stateGrowthFeeBase : ℕ := 2500

/-- `PRESSURE_LOW_BPS`. -/
def pressureLowBps : ℕ := 5000

/-- `PRESSURE_HIGH_BPS`. -/
def pressureHighBps : ℕ := 7500

/-- `PRESSURE_EXTREME_BPS`. -/
def pressureExtremeBps : ℕ := 9000

/-- Occupancy of the state in basis points: 128-bit arithmetic, cut to 64 bits. -/
def occupancyBps (activeSlotCount logSlots : ℕ) : ℕ :=
  let capacity := max (if logSlots < 128 then 2 ^ logSlots else 2 ^ 128 - 1) 1
  min (activeSlotCount * 10000) (2 ^ 128 - 1) / capacity % 2 ^ 64

/-- 1x below 50 % occupancy, 2x from 50 %, 4x from 75 %, 8x from 90 %. -/
def pressureMultiplier (activeSlotCount logSlots : ℕ) : ℕ :=
  let bps := occupancyBps activeSlotCount logSlots
  if pressureExtremeBps ≤ bps then 8
  else if pressureHighBps ≤ bps then 4
  else if pressureLowBps ≤ bps then 2
  else 1

/-- The burn of a new slot at an occupancy. -/
def stateGrowthFeePerSlot (activeSlotCount logSlots : ℕ) : ℕ :=
  min (stateGrowthFeeBase * pressureMultiplier activeSlotCount logSlots) (2 ^ 64 - 1)

/-! ## Thresholds and bands -/

/-- `PressureThreshold`. -/
structure PressureThreshold where
  pct : ℕ
  slots : ℕ
  multiplier : ℕ
  deriving DecidableEq, Repr

/-- The occupancies from which the fee is multiplied. -/
def pressureThresholds (capacity : ℕ) : List PressureThreshold :=
  [(pressureLowBps, 2), (pressureHighBps, 4), (pressureExtremeBps, 8)].map fun (bps, multiplier) =>
    { pct := bps / 100
      -- `div_ceil`
      slots := (capacity * bps + (10000 - 1)) / 10000 % 2 ^ 64
      multiplier }

/-- `BurnBand`. -/
structure BurnBand where
  fromPct : ℕ
  toPct : ℕ
  multiplier : ℕ
  slotsToFill : ℕ
  perSlotMicronoid : ℕ
  burnMicronoid : String
  deriving DecidableEq, Repr

/-- The lower edges of the bands, with their percentage. -/
def bandBounds (thresholds : List PressureThreshold) (expansionThreshold : ℕ) : List (ℕ × ℕ) :=
  (0, 0) :: (thresholds.filter fun t => t.slots < expansionThreshold).map fun t => (t.pct, t.slots)

/-- `min_burn_bands`: what filling the state up to the expansion burns at least, band by band. -/
def minBurnBands (active logSlots : ℕ) (thresholds : List PressureThreshold)
    (expansionThreshold : ℕ) : List BurnBand :=
  let bounds := bandBounds thresholds expansionThreshold
  bounds.zipIdx.map fun ((fromPct, fromSlots), i) =>
    let to_ := bounds[i + 1]?.getD (pressureHighBps / 100, expansionThreshold)
    let lo := max active fromSlots
    let slotsToFill := to_.2 - lo
    let perSlot := stateGrowthFeePerSlot fromSlots logSlots
    { fromPct
      toPct := to_.1
      multiplier := pressureMultiplier fromSlots logSlots
      slotsToFill
      perSlotMicronoid := perSlot
      burnMicronoid := Nat.repr (slotsToFill * perSlot) }

/-! ## Multipliers and slots -/

variable {logSlots s : ℕ}

/-- **A tier is reached where the occupancy reaches its edge.** -/
theorem le_pressureMultiplier_iff {bps multiplier : ℕ}
    (h : (bps, multiplier) ∈ [(pressureLowBps, 2), (pressureHighBps, 4), (pressureExtremeBps, 8)]) :
    multiplier ≤ pressureMultiplier s logSlots ↔ bps ≤ occupancyBps s logSlots := by
  simp only [List.mem_cons, Prod.mk.injEq, List.not_mem_nil, or_false] at h
  unfold pressureMultiplier pressureLowBps pressureHighBps pressureExtremeBps at *
  dsimp only
  rcases h with ⟨rfl, rfl⟩ | ⟨rfl, rfl⟩ | ⟨rfl, rfl⟩ <;> split_ifs <;> omega

theorem occupancyBps_eq (hlow : 24 ≤ logSlots) (hhigh : logSlots ≤ 63) (hs : s < 2 ^ 64) :
    occupancyBps s logSlots = s * 10000 / 2 ^ logSlots := by
  have hpow : 2 ^ 24 ≤ 2 ^ logSlots := Nat.pow_le_pow_right (by decide) hlow
  have hmin : min (s * 10000) (2 ^ 128 - 1) = s * 10000 := min_eq_left (by omega)
  have hfit : s * 10000 / 2 ^ logSlots < 2 ^ 64 := by
    refine lt_of_le_of_lt (Nat.div_le_div_left hpow (by decide)) ?_
    omega
  rw [occupancyBps, if_pos (by omega), hmin, max_eq_left (by omega), Nat.mod_eq_of_lt hfit]

/-- The first slot count at an edge, in slots. -/
theorem le_occupancyBps_iff {bps : ℕ} (hlow : 24 ≤ logSlots) (hhigh : logSlots ≤ 63)
    (hs : s < 2 ^ 64) :
    bps ≤ occupancyBps s logSlots ↔ (2 ^ logSlots * bps + (10000 - 1)) / 10000 ≤ s := by
  rw [occupancyBps_eq hlow hhigh hs, Nat.le_div_iff_mul_le (by positivity), Nat.mul_comm bps]
  generalize 2 ^ logSlots * bps = n
  omega

/-- The edges fit the 64 bits. -/
theorem threshold_lt {bps : ℕ} (hhigh : logSlots ≤ 63) (hbps : bps ≤ 9000) :
    (2 ^ logSlots * bps + (10000 - 1)) / 10000 < 2 ^ 64 := by
  have hpow : 2 ^ logSlots ≤ 2 ^ 63 := Nat.pow_le_pow_right (by decide) hhigh
  have hmul := Nat.mul_le_mul hpow hbps
  omega

/-- **Each threshold is the least slot count at which its multiplier is reached.** -/
theorem pressureThresholds_isLeast (hlow : 24 ≤ logSlots) (hhigh : logSlots ≤ 63) :
    ∀ t ∈ pressureThresholds (2 ^ logSlots),
      IsLeast {s | t.multiplier ≤ pressureMultiplier s logSlots} t.slots := by
  intro t ht
  obtain ⟨⟨bps, multiplier⟩, hmem, rfl⟩ := List.mem_map.mp ht
  have hbps : bps ≤ 9000 := by
    simp only [List.mem_cons, Prod.mk.injEq, List.not_mem_nil, or_false] at hmem
    rcases hmem with ⟨rfl, -⟩ | ⟨rfl, -⟩ | ⟨rfl, -⟩ <;> decide
  have hlt := threshold_lt hhigh hbps
  dsimp only
  rw [Nat.mod_eq_of_lt hlt]
  constructor
  · exact (le_pressureMultiplier_iff hmem).mpr ((le_occupancyBps_iff hlow hhigh hlt).mpr le_rfl)
  · intro s hs
    rcases Nat.lt_or_ge s (2 ^ 64) with hfit | hbig
    · exact (le_occupancyBps_iff hlow hhigh hfit).mp ((le_pressureMultiplier_iff hmem).mp hs)
    · exact hlt.le.trans hbig

/-! ## The bands -/

/-- A capacity in quarters. -/
theorem exists_quarter (hlow : 24 ≤ logSlots) : ∃ quarter, 2 ^ logSlots = 4 * quarter := by
  obtain ⟨n, rfl⟩ := Nat.exists_eq_add_of_le hlow
  exact ⟨2 ^ (n + 22), by rw [pow_add, pow_add]; omega⟩

/-- **Two bands lead to the expansion threshold**: up to half of the capacity, and on to three
quarters. -/
theorem bandBounds_eq {capacity quarter : ℕ} (hc : capacity = 4 * quarter) (hpos : 0 < quarter)
    (hfit : capacity < 2 ^ 64) :
    bandBounds (pressureThresholds capacity) (capacity / 4 * 3) = [(0, 0), (50, 2 * quarter)] := by
  have hlow : (capacity * 5000 + (10000 - 1)) / 10000 % 2 ^ 64 = 2 * quarter := by
    have hvalue : (capacity * 5000 + (10000 - 1)) / 10000 = 2 * quarter := by omega
    rw [hvalue, Nat.mod_eq_of_lt (by omega)]
  have hhigh : (capacity * 7500 + (10000 - 1)) / 10000 % 2 ^ 64 = 3 * quarter := by
    have hvalue : (capacity * 7500 + (10000 - 1)) / 10000 = 3 * quarter := by omega
    rw [hvalue, Nat.mod_eq_of_lt (by omega)]
  have hextreme : 3 * quarter ≤ (capacity * 9000 + (10000 - 1)) / 10000 % 2 ^ 64 := by
    rw [Nat.mod_eq_of_lt (by omega)]
    omega
  have hexpand : capacity / 4 * 3 = 3 * quarter := by omega
  have hin : 2 * quarter < 3 * quarter := by omega
  simp only [bandBounds, pressureThresholds, pressureLowBps, pressureHighBps, pressureExtremeBps,
    List.map_cons, List.map_nil, hlow, hhigh, hexpand, List.filter_cons, List.filter_nil, hin,
    lt_irrefl, hextreme.not_gt, decide_true, decide_false, if_true, Bool.false_eq_true, if_false]

/-- What the slots of a band burn, all at the price of its lower edge. -/
theorem minBurnBands_eq (active logSlots : ℕ) (thresholds : List PressureThreshold)
    (expansionThreshold : ℕ) :
    (minBurnBands active logSlots thresholds expansionThreshold).map
        (fun b => b.slotsToFill * b.perSlotMicronoid)
      = (Bands.bands (75, expansionThreshold) (bandBounds thresholds expansionThreshold)).map
        fun p => (p.2.2 - max active p.1.2) * stateGrowthFeePerSlot p.1.2 logSlots := by
  rw [Bands.bands_eq_zipIdx, minBurnBands, List.map_map, List.map_map]
  rfl

/-- The price below half of the capacity, and from there to three quarters. -/
theorem stateGrowthFeePerSlot_eq {quarter : ℕ} (hlow : 24 ≤ logSlots) (hhigh : logSlots ≤ 63)
    (hc : 2 ^ logSlots = 4 * quarter) (hs : s < 3 * quarter) :
    stateGrowthFeePerSlot s logSlots = if s < 2 * quarter then 2500 else 5000 := by
  have hpow : 2 ^ logSlots ≤ 2 ^ 63 := Nat.pow_le_pow_right (by decide) hhigh
  have hfit : s < 2 ^ 64 := by omega
  have hextreme : ¬ pressureExtremeBps ≤ occupancyBps s logSlots := by
    rw [le_occupancyBps_iff hlow hhigh hfit, pressureExtremeBps, hc]
    omega
  have hmiddle : ¬ pressureHighBps ≤ occupancyBps s logSlots := by
    rw [le_occupancyBps_iff hlow hhigh hfit, pressureHighBps, hc]
    omega
  have hedge : pressureLowBps ≤ occupancyBps s logSlots ↔ ¬ s < 2 * quarter := by
    rw [le_occupancyBps_iff hlow hhigh hfit, pressureLowBps, hc]
    omega
  rw [stateGrowthFeePerSlot, pressureMultiplier, if_neg hextreme, if_neg hmiddle]
  by_cases hhalf : s < 2 * quarter
  · rw [if_neg (hedge.not.mpr (not_not.mpr hhalf)), if_pos hhalf]
    rfl
  · rw [if_pos (hedge.mpr hhalf), if_neg hhalf]
    rfl

/-- The price is that of the lower edge all through a band. -/
theorem fee_const {quarter : ℕ} (hlow : 24 ≤ logSlots) (hhigh : logSlots ≤ 63)
    (hc : 2 ^ logSlots = 4 * quarter) :
    ∀ p ∈ Bands.bands (75, 3 * quarter) [(0, 0), (50, 2 * quarter)],
      ∀ s, p.1.2 ≤ s → s < p.2.2 →
        stateGrowthFeePerSlot s logSlots = stateGrowthFeePerSlot p.1.2 logSlots := by
  intro p hp s hs hlt
  simp only [Bands.bands, List.mem_cons, List.not_mem_nil, or_false] at hp
  rcases hp with rfl | rfl
  · dsimp only at hs hlt ⊢
    rw [stateGrowthFeePerSlot_eq hlow hhigh hc (by omega), if_pos hlt,
      stateGrowthFeePerSlot_eq hlow hhigh hc (by omega), if_pos (by omega)]
  · dsimp only at hs hlt ⊢
    rw [stateGrowthFeePerSlot_eq hlow hhigh hc hlt, if_neg (by omega),
      stateGrowthFeePerSlot_eq hlow hhigh hc (by omega), if_neg (by omega)]

/-- **The bands equal the slot-by-slot burn**: the thresholds name the least slot counts of their
multipliers, and the slots of each band at its price come to what the slots burn one by one. -/
theorem minBurnBands_sum (logSlots active : ℕ) (hlow : 24 ≤ logSlots) (hhigh : logSlots ≤ 63) :
    (∀ t ∈ pressureThresholds (2 ^ logSlots),
        IsLeast {s | t.multiplier ≤ pressureMultiplier s logSlots} t.slots)
      ∧ ((minBurnBands active logSlots (pressureThresholds (2 ^ logSlots))
            (2 ^ logSlots / 4 * 3)).map fun b => b.slotsToFill * b.perSlotMicronoid).sum
        = ∑ s ∈ Finset.Ico active (2 ^ logSlots / 4 * 3), stateGrowthFeePerSlot s logSlots := by
  refine ⟨pressureThresholds_isLeast hlow hhigh, ?_⟩
  obtain ⟨quarter, hc⟩ := exists_quarter hlow
  have hpos : 0 < 2 ^ logSlots := by positivity
  have hpow : 2 ^ logSlots ≤ 2 ^ 63 := Nat.pow_le_pow_right (by decide) hhigh
  have hexpand : 2 ^ logSlots / 4 * 3 = 3 * quarter := by omega
  have hsum := Bands.sum_bands Prod.snd (fun s => stateGrowthFeePerSlot s logSlots) active
    (75, 3 * quarter) (0, 0) [(50, 2 * quarter)] ?_ (fee_const hlow hhigh hc)
  · simp only [Nat.nsmul_eq_mul, Nat.max_zero] at hsum
    rw [minBurnBands_eq, bandBounds_eq hc (by omega) (by omega), hexpand]
    exact hsum
  simp only [List.cons_append, List.nil_append, List.pairwise_cons, List.mem_cons,
    List.not_mem_nil, or_false, forall_eq_or_imp, forall_eq, List.Pairwise.nil, and_true,
    IsEmpty.forall_iff, implies_true]
  omega

/-- The state of genesis, one slot from half full. -/
theorem minBurnBands_sum_genesis :
    ((minBurnBands (2 ^ 23 - 1) 24 (pressureThresholds (2 ^ 24)) (2 ^ 24 / 4 * 3)).map
        fun b => b.slotsToFill * b.perSlotMicronoid).sum
      = ∑ s ∈ Finset.Ico (2 ^ 23 - 1) (2 ^ 24 / 4 * 3), stateGrowthFeePerSlot s 24 :=
  (minBurnBands_sum 24 (2 ^ 23 - 1) (by decide) (by decide)).2

end Permanode
