import Permanode.Emission.ClosedForms
import Permanode.Foundations.Search
import Permanode.Node.Rpc

/-!
# Economics/Expansions — when the state expanded

`expansion_heights` of `permanode/src/serve.rs`: the first heights of the state sizes, each searched
for from the one before on, and kept until the state expands again.  What the schedule says was
minted is computed from them.

**`expansionRun_firstHeights`**: on a chain whose state never shrinks every call returns the first
heights, and with them the closed form is the sum over the blocks at their own state sizes.
-/

namespace Permanode

open Finset

/-! ## The search -/

/-- `.ok()??`: the header, if there is an answer with one. -/
def HeaderCall.header? (getBlockHeader : HeaderCall) (height : ℕ) : Option BlockHeaderInfo :=
  (getBlockHeader height).toOption.join

/-- The smallest height in `lo..=tip` with a state size of `level` or more. -/
def firstAtLevel (getBlockHeader : HeaderCall) (level lo tip : ℕ) : Option ℕ :=
  Search.bisect
    (fun mid => (getBlockHeader.header? mid).map fun h => decide (level ≤ h.logSlots.toNat)) lo tip

/-- The loop over the levels. -/
def expansionLoop (getBlockHeader : HeaderCall) (tip : ℕ) : List ℕ → ℕ → Option (List ℕ)
  | [], _ => some []
  | level :: levels, lo => do
    let a ← firstAtLevel getBlockHeader level lo tip
    let heights ← expansionLoop getBlockHeader tip levels a
    return a :: heights

/-- `AppState::expansions`: the heights, and the state size they were computed for. -/
abbrev ExpansionsCache := Option (UInt32 × List ℕ)

/-- The first heights of the state sizes above that of genesis, up to the current one, and the cache
after the call. -/
def expansionHeights (cache : ExpansionsCache) (getBlockHeader : HeaderCall)
    (currentLogSlots : UInt32) (tip : ℕ) : Option (List ℕ) × ExpansionsCache :=
  match cache.filter fun kept => kept.1 = currentLogSlots with
  | some (_, heights) => (some heights, cache)
  | none =>
    let levels := List.range' (logSlotsGenesis.toNat + 1)
      (currentLogSlots.toNat - logSlotsGenesis.toNat)
    match expansionLoop getBlockHeader tip levels 1 with
    | some heights => (some heights, some (currentLogSlots, heights))
    | none => (none, cache)

/-- `emitted_up_to`. -/
def emittedUpTo (height : ℕ) (expansions : List ℕ) : ℕ :=
  let split := emittedSplitUpTo height expansions
  split.miner + split.development

/-! ## Calls on a growing chain -/

/-- One call, with the header calls it makes. -/
structure ExpansionCall where
  tip : ℕ
  currentLogSlots : UInt32
  getBlockHeader : HeaderCall

/-- The answers of a sequence of calls. -/
def expansionRun : ExpansionsCache → List ExpansionCall → List (Option (List ℕ))
  | _, [] => []
  | cache, c :: calls =>
    let (heights, cache) := expansionHeights cache c.getBlockHeader c.currentLogSlots c.tip
    heights :: expansionRun cache calls

/-- The state sizes of a chain: from block 1 on they never decrease, and start at that of genesis or
more. -/
structure Expanding (logSlots : ℕ → UInt32) : Prop where
  mono : ∀ i j, 1 ≤ i → i ≤ j → (logSlots i).toNat ≤ (logSlots j).toNat
  start : logSlotsGenesis.toNat ≤ (logSlots 1).toNat

/-- A call at a height of the chain, with all its header calls answered.  On the bare genesis block
the state is no larger than after block 1. -/
structure ExpansionCall.Answered (logSlots : ℕ → UInt32) (c : ExpansionCall) : Prop where
  current : c.currentLogSlots = logSlots c.tip
  genesis : c.tip = 0 → (logSlots 0).toNat ≤ (logSlots 1).toNat
  headers : ∀ h ≤ c.tip, ∃ header, c.getBlockHeader h = .ok (some header)
    ∧ header.logSlots = logSlots h

/-- The first heights of the `n` state sizes above `base`. -/
structure FirstHeights (logSlots : ℕ → UInt32) (base n : ℕ) (heights : List ℕ) : Prop where
  length_eq : heights.length = n
  isLeast : ∀ (i : ℕ) (hi : i < heights.length),
    IsLeast {h | 1 ≤ h ∧ base + 1 + i ≤ (logSlots h).toNat} heights[i]

/-! ## One call -/

theorem ExpansionCall.Answered.header? {logSlots : ℕ → UInt32} {c : ExpansionCall}
    (hc : c.Answered logSlots) {h : ℕ} (hle : h ≤ c.tip) :
    ∃ header, c.getBlockHeader.header? h = some header ∧ header.logSlots = logSlots h := by
  obtain ⟨header, hheader, hls⟩ := hc.headers h hle
  refine ⟨header, ?_, hls⟩
  unfold HeaderCall.header?
  rw [hheader]
  rfl

section Call

variable {logSlots : ℕ → UInt32} (h : Expanding logSlots)
include h

/-- One level, searched for from a height that is no later than its first. -/
theorem Expanding.firstAtLevel {c : ExpansionCall} (hc : c.Answered logSlots) {level lo : ℕ}
    (hlo : 1 ≤ lo) (htop : level ≤ (logSlots (max lo c.tip)).toNat)
    (hfirst : ∀ k, 1 ≤ k → level ≤ (logSlots k).toNat → lo ≤ k) :
    ∃ a, Permanode.firstAtLevel c.getBlockHeader level lo c.tip = some a
      ∧ IsLeast {k | 1 ≤ k ∧ level ≤ (logSlots k).toNat} a := by
  have hprobe : ∀ mid, lo ≤ mid → mid < c.tip →
      (c.getBlockHeader.header? mid).map (fun h => decide (level ≤ h.logSlots.toNat))
        = some (decide (level ≤ (logSlots mid).toNat)) := by
    intro mid _ hmid
    obtain ⟨header, hheader, hls⟩ := hc.header? hmid.le
    rw [hheader, Option.map_some, hls]
  have hmono : ∀ i j, lo ≤ i → i ≤ j → level ≤ (logSlots i).toNat → level ≤ (logSlots j).toNat :=
    fun i j hi hij hp => hp.trans (h.mono i j (hlo.trans hi) hij)
  obtain ⟨a, ha, ⟨hle, hlevel⟩, hleast⟩ := Search.bisect_isLeast hmono hprobe htop
  exact ⟨a, ha, ⟨hlo.trans hle, hlevel⟩, fun k hk => hleast ⟨hfirst k hk.1 hk.2, hk.2⟩⟩

/-- **The loop returns the first heights of its levels.** -/
theorem Expanding.expansionLoop {c : ExpansionCall} (hc : c.Answered logSlots) :
    ∀ (n level lo : ℕ), 1 ≤ lo → lo ≤ max 1 c.tip →
      level + n ≤ (logSlots (max 1 c.tip)).toNat + 1 →
      (∀ k, 1 ≤ k → level ≤ (logSlots k).toNat → lo ≤ k) →
        ∃ heights, Permanode.expansionLoop c.getBlockHeader c.tip (List.range' level n) lo
            = some heights
          ∧ heights.length = n
          ∧ ∀ (i : ℕ) (hi : i < heights.length),
            IsLeast {k | 1 ≤ k ∧ level + i ≤ (logSlots k).toNat} heights[i]
  | 0, level, lo, _, _, _, _ => ⟨[], rfl, rfl, fun i hi => absurd hi (Nat.not_lt_zero i)⟩
  | n + 1, level, lo, hlo, hle, htop, hfirst => by
      have hmax : max lo c.tip = max 1 c.tip := by omega
      obtain ⟨a, ha, hleast⟩ := h.firstAtLevel hc hlo (by rw [hmax]; omega) hfirst
      have hbelow : a ≤ max 1 c.tip := hleast.2 ⟨le_max_left _ _, by omega⟩
      -- the next level is not reached before this one
      obtain ⟨heights, hrest, hlen, hat⟩ := Expanding.expansionLoop hc n (level + 1) a
        hleast.1.1 hbelow (by omega) fun k hk hlevel => hleast.2 ⟨hk, by omega⟩
      refine ⟨a :: heights, ?_, congrArg Nat.succ hlen, fun i hi => ?_⟩
      · rw [List.range'_succ, Permanode.expansionLoop, ha]
        simp only [Option.bind_eq_bind, Option.bind_some, hrest, Option.pure_def]
      · rcases i with _ | i
        · exact hleast
        · have hnext := hat i (by simpa using hi)
          rwa [Nat.add_right_comm, Nat.add_assoc] at hnext

/-- A call without the cache returns the first heights. -/
theorem Expanding.expansionLoop_call {c : ExpansionCall} (hc : c.Answered logSlots) :
    ∃ heights, Permanode.expansionLoop c.getBlockHeader c.tip
        (List.range' (logSlotsGenesis.toNat + 1)
          (c.currentLogSlots.toNat - logSlotsGenesis.toNat)) 1 = some heights
      ∧ FirstHeights logSlots logSlotsGenesis.toNat
        (c.currentLogSlots.toNat - logSlotsGenesis.toNat) heights := by
  have hcurrent : c.currentLogSlots.toNat ≤ (logSlots (max 1 c.tip)).toNat := by
    rw [hc.current]
    rcases Nat.eq_zero_or_pos c.tip with hzero | hpos
    · rw [hzero]
      exact hc.genesis hzero
    · rw [max_eq_right hpos]
  have hstart := h.start.trans (h.mono 1 (max 1 c.tip) le_rfl (le_max_left _ _))
  obtain ⟨heights, hloop, hlen, hat⟩ := h.expansionLoop hc
    (c.currentLogSlots.toNat - logSlotsGenesis.toNat) (logSlotsGenesis.toNat + 1) 1 le_rfl
    (le_max_left _ _) (by omega) fun k hk _ => hk
  exact ⟨heights, hloop, hlen, hat⟩

/-- **What is kept are the first heights for the size it is kept for.** -/
def CacheHolds (logSlots : ℕ → UInt32) (cache : ExpansionsCache) : Prop :=
  ∀ size heights, cache = some (size, heights) →
    FirstHeights logSlots logSlotsGenesis.toNat (size.toNat - logSlotsGenesis.toNat) heights

/-- **One call**: it returns the first heights, and keeps no others. -/
theorem Expanding.expansionHeights {c : ExpansionCall} (hc : c.Answered logSlots)
    {cache : ExpansionsCache} (hcache : CacheHolds logSlots cache) :
    ∃ heights cache', Permanode.expansionHeights cache c.getBlockHeader c.currentLogSlots c.tip
        = (some heights, cache')
      ∧ FirstHeights logSlots logSlotsGenesis.toNat
        (c.currentLogSlots.toNat - logSlotsGenesis.toNat) heights
      ∧ CacheHolds logSlots cache' := by
  rcases hkept : cache.filter fun kept => kept.1 = c.currentLogSlots with _ | ⟨size, heights⟩
  · obtain ⟨heights, hloop, hfirst⟩ := h.expansionLoop_call hc
    refine ⟨heights, some (c.currentLogSlots, heights), ?_, hfirst, ?_⟩
    · simp only [Permanode.expansionHeights, hkept, hloop]
    · intro size heights' heq
      obtain ⟨rfl, rfl⟩ := Prod.mk.inj (Option.some.inj heq)
      exact hfirst
  · obtain ⟨heq, hsize⟩ := Option.filter_eq_some_iff.mp hkept
    refine ⟨heights, cache, ?_, ?_, hcache⟩
    · simp only [Permanode.expansionHeights, hkept]
    · rw [← of_decide_eq_true hsize]
      exact hcache size heights heq

end Call

/-! ## What was minted -/

section Minted

variable {logSlots : ℕ → UInt32}

/-- The first heights of the sizes up to the one at a height give every block up to it its own
size. -/
theorem FirstHeights.logSlotsAt {base n : ℕ} {heights : List ℕ}
    (hfirst : FirstHeights logSlots base n heights)
    (hbase : base = logSlotsGenesis.toNat) (h : Expanding logSlots) {k : ℕ} (hk : 1 ≤ k)
    (hn : (logSlots k).toNat ≤ base + n) :
    Permanode.logSlotsAt heights k = logSlots k := by
  have hcount : heights.countP (· ≤ k) = (logSlots k).toNat - base := by
    refine countP_eq_of_first (by rw [hfirst.length_eq]; omega) fun i hi => ?_
    obtain ⟨⟨hpos, hlevel⟩, hleast⟩ := hfirst.isLeast i hi
    rw [decide_eq_true_eq]
    constructor
    · intro hle
      have := h.mono _ _ hpos hle
      omega
    · intro hlt
      exact hleast ⟨hk, by omega⟩
  have hstart := h.start.trans (h.mono 1 k le_rfl hk)
  rw [Permanode.logSlotsAt, hcount, hbase, ← UInt32.toNat_inj, UInt32.toNat_add,
    UInt32.toNat_ofNat', Nat.add_mod_mod]
  rw [Nat.add_sub_cancel' hstart]
  exact Nat.mod_eq_of_lt (logSlots k).toNat_lt

/-- **What the closed form says was minted is the sum over the blocks**, each at its own size. -/
theorem FirstHeights.emittedUpTo {n : ℕ} {heights : List ℕ}
    (hfirst : FirstHeights logSlots logSlotsGenesis.toNat n heights) (h : Expanding logSlots)
    {tip : ℕ} (hn : (logSlots tip).toNat ≤ logSlotsGenesis.toNat + n) :
    Permanode.emittedUpTo tip heights
      = ∑ k ∈ Icc 1 tip, (minerSubsidy k (logSlots k) + developmentPayout k (logSlots k)) := by
  have hsorted : heights.Pairwise (· ≤ ·) := by
    rw [List.pairwise_iff_getElem]
    intro i j hi hj hij
    obtain ⟨⟨hpos, hlevel⟩, -⟩ := hfirst.isLeast j hj
    exact (hfirst.isLeast i hi).2 ⟨hpos, by omega⟩
  have hpos : ∀ e ∈ heights, 1 ≤ e := by
    intro e he
    obtain ⟨i, hi, rfl⟩ := List.mem_iff_getElem.mp he
    exact (hfirst.isLeast i hi).1.1
  have hown : ∀ k ∈ Icc 1 tip, Permanode.logSlotsAt heights k = logSlots k := by
    intro k hk
    obtain ⟨hk, hkt⟩ := mem_Icc.mp hk
    exact hfirst.logSlotsAt rfl h hk ((h.mono k tip hk hkt).trans hn)
  obtain ⟨hminer, hdevelopment, -⟩ := emittedSplitUpTo_eq tip heights hsorted hpos
  rw [Permanode.emittedUpTo, hminer, hdevelopment, ← sum_add_distrib]
  exact sum_congr rfl fun k hk => by rw [hown k hk]

end Minted

/-! ## A sequence of calls -/

/-- **Every call returns the first heights of the state sizes**, whatever calls were made before it;
and with them the closed form is the sum over all blocks. -/
theorem expansionRun_firstHeights (logSlots : ℕ → UInt32) (h : Expanding logSlots)
    (calls : List ExpansionCall) (hcalls : ∀ c ∈ calls, c.Answered logSlots) :
    List.Forall₂ (fun c result => ∃ heights, result = some heights
        ∧ FirstHeights logSlots 24 (c.currentLogSlots.toNat - 24) heights
        ∧ emittedUpTo c.tip heights
          = ∑ k ∈ Icc 1 c.tip, (minerSubsidy k (logSlots k) + developmentPayout k (logSlots k)))
      calls (expansionRun none calls) := by
  suffices hrun : ∀ (calls : List ExpansionCall) (cache : ExpansionsCache),
      (∀ c ∈ calls, c.Answered logSlots) → CacheHolds logSlots cache →
        List.Forall₂ (fun c result => ∃ heights, result = some heights
            ∧ FirstHeights logSlots 24 (c.currentLogSlots.toNat - 24) heights
            ∧ emittedUpTo c.tip heights = ∑ k ∈ Icc 1 c.tip,
              (minerSubsidy k (logSlots k) + developmentPayout k (logSlots k)))
          calls (expansionRun cache calls) by
    exact hrun calls none hcalls fun _ _ heq => absurd heq (Option.some_ne_none _).symm
  intro calls
  induction calls with
  | nil => exact fun _ _ _ => .nil
  | cons c calls ih =>
    intro cache hcalls hcache
    have hc := hcalls c List.mem_cons_self
    obtain ⟨heights, cache', hcall, hfirst, hcache'⟩ := h.expansionHeights hc hcache
    have hrest := ih cache' (fun c' hc' => hcalls c' (List.mem_cons_of_mem _ hc')) hcache'
    rw [expansionRun, hcall]
    refine .cons ⟨heights, rfl, hfirst, hfirst.emittedUpTo h ?_⟩ hrest
    rw [hc.current]
    exact Nat.sub_le_iff_le_add'.mp le_rfl

/-- A state that expands twice in block 3 and once more in block 5. -/
def jumpingSlots (height : ℕ) : UInt32 := if height < 3 then 24 else if height < 5 then 26 else 27

/-- A call on its chain. -/
def jumpingCall (tip : ℕ) : ExpansionCall where
  tip := tip
  currentLogSlots := jumpingSlots tip
  getBlockHeader h := .ok (some ⟨h, "", "", "", "", 0, "", "", "", jumpingSlots h, 0, 0⟩)

example : expansionRun none ([2, 4, 9].map jumpingCall)
    = [some [], some [3, 3], some [3, 3, 5]] := by
  decide +kernel

theorem expanding_jumpingSlots : Expanding jumpingSlots where
  mono i j _ hij := by
    unfold jumpingSlots
    split_ifs <;> first | omega | decide
  start := by decide

/-- A level skipped, and a tip at the size of the call before. -/
theorem expansionRun_firstHeights_jumping :
    List.Forall₂ (fun c result => ∃ heights, result = some heights
        ∧ FirstHeights jumpingSlots 24 (c.currentLogSlots.toNat - 24) heights
        ∧ emittedUpTo c.tip heights = ∑ k ∈ Icc 1 c.tip,
          (minerSubsidy k (jumpingSlots k) + developmentPayout k (jumpingSlots k)))
      ([2, 4, 9, 12].map jumpingCall) (expansionRun none ([2, 4, 9, 12].map jumpingCall)) :=
  expansionRun_firstHeights jumpingSlots expanding_jumpingSlots _ fun c hc => by
    obtain ⟨tip, -, rfl⟩ := List.mem_map.mp hc
    exact ⟨rfl, fun _ => by decide, fun h _ => ⟨_, rfl, rfl⟩⟩

end Permanode
