import Permanode.Economics.BurnHistory
import Permanode.Economics.Expansions

/-!
# Economics/Estimates — the burn before the records begin

The end of `get_economics` (`permanode/src/serve.rs`): the samples below the first one whose burn is
measured, the anchor, get an estimate, scaled by the outputs transactions had created
(`user_mints`).  The anchor is a sampled header, or the tip, which is put behind the samples by hand
with no mint counter of its own.

**`economicsHistory_estimates_iff`**: the estimates meet the anchor unless they hang on such a tip.
-/

namespace Permanode

/-- A `u128` product, which wraps around. -/
def wrap128 (n : ℕ) : ℕ := n % 2 ^ 128

/-- Live outputs created by transactions up to a sample: the mints less what consensus minted, one
output for each block and two more for each payout. -/
def userMints (sample : HeaderSample) : ℕ :=
  sample.allocCounter.toNat - (sample.height + 2 * developmentPayoutBlocksUpTo sample.height)

/-- `EconomicsPoint`, its amounts as numbers. -/
structure EconomicsPoint where
  height : ℕ
  issuedMicronoid : ℕ
  burnedMicronoid : Option ℕ
  burnedEstimateMicronoid : Option ℕ
  deriving DecidableEq, Repr

/-! ## The history -/

/-- The samples, with the tip behind them unless it is the last. -/
def withTip (samples : List HeaderSample) (tip : ℕ) (activeSlotCount : UInt64) :
    List HeaderSample :=
  if samples.getLast?.all fun p => p.height ≠ tip then samples ++ [⟨tip, activeSlotCount, 0⟩]
  else samples

/-- The point of a sample before it is estimated. -/
def economicsPoint (expansions : List ℕ) (p : BurnPoint) : EconomicsPoint where
  height := p.height
  issuedMicronoid := emittedUpTo p.height expansions
  burnedMicronoid := if p.known then some p.remaining else none
  burnedEstimateMicronoid := none

/-- `anchor_burn * user_mints(sample) / anchor_mints`. -/
def scaledBurn (anchorBurn anchorMints : ℕ) (sample : HeaderSample) : ℕ :=
  if 0 < anchorMints then wrap128 (anchorBurn * userMints sample) / anchorMints else 0

/-- The estimate of the point at a position, `anchor` being that of the first measured one. -/
def estimatePoint (anchor anchorBurn anchorMints i : ℕ) (x : EconomicsPoint × HeaderSample) :
    EconomicsPoint :=
  if i < anchor then
    { x.1 with burnedEstimateMicronoid := some (scaledBurn anchorBurn anchorMints x.2) }
  else if i = anchor then { x.1 with burnedEstimateMicronoid := some anchorBurn }
  else x.1

/-- The estimates up to the first measured point. -/
def estimated (samples : List HeaderSample) (history : List EconomicsPoint) : List EconomicsPoint :=
  match history.findIdx? fun p => p.burnedMicronoid.isSome with
  | none => history
  | some anchor =>
    let anchorBurn := (history[anchor]?.bind EconomicsPoint.burnedMicronoid).getD 0
    let anchorMints := samples[anchor]?.elim 0 userMints
    (history.zip samples).mapIdx (estimatePoint anchor anchorBurn anchorMints)

/-- `economics_history`: the samples with the tip, what was burned up to each, and the estimates in
between. -/
def economicsHistory (samples : List HeaderSample) (tip : ℕ) (activeSlotCount : UInt64)
    (burns : List RecordedBurn) (burned : ℕ) (expansions : List ℕ) : List EconomicsPoint :=
  let samples := withTip samples tip activeSlotCount
  estimated samples ((burnWalk burns burned tip samples).map (economicsPoint expansions))

/-! ## The estimates -/

section Estimated

variable {point : HeaderSample → EconomicsPoint}

/-- A list passed with its positions, on which the function does not depend. -/
theorem mapIdx_map_eq {α β γ : Type} {f : α → β} {p : α → γ} {g : ℕ → γ → β} {l : List α}
    (h : ∀ i < l.length, ∀ a, g i (p a) = f a) : (l.map p).mapIdx g = l.map f := by
  refine List.ext_getElem (by simp) fun i hi _ => ?_
  rw [List.getElem_mapIdx, List.getElem_map, List.getElem_map, h i (by simpa using hi)]

/-- **What the estimates are**: the points before the first measured one are scaled to it. -/
theorem estimated_append {before after : List HeaderSample} {a : HeaderSample} {b : ℕ}
    (hbefore : ∀ s ∈ before, (point s).burnedMicronoid = none)
    (ha : (point a).burnedMicronoid = some b) :
    estimated (before ++ a :: after) ((before ++ a :: after).map point)
      = (before.map fun s =>
          { point s with burnedEstimateMicronoid := some (scaledBurn b (userMints a) s) })
        ++ { point a with burnedEstimateMicronoid := some b } :: after.map point := by
  have hnone : before.findIdx? (fun s => (point s).burnedMicronoid.isSome) = none :=
    List.findIdx?_eq_none_iff.mpr fun s hs => by rw [hbefore s hs]; rfl
  have hidx : ((before ++ a :: after).map point).findIdx?
      (fun p => p.burnedMicronoid.isSome) = some before.length := by
    rw [List.findIdx?_map, List.findIdx?_append, List.findIdx?_cons]
    simp only [Function.comp_def, hnone, ha, Option.isSome_some, if_true, Option.map_some,
      Option.none_or, Nat.zero_add]
  have hat : (before ++ a :: after)[before.length]? = some a := by simp
  unfold estimated
  rw [hidx]
  dsimp only
  rw [List.getElem?_map, hat, Option.map_some, Option.bind_some, ha, Option.getD_some,
    Option.elim_some, ← List.map_prod_right_eq_zip, List.map_append, List.map_cons,
    List.mapIdx_append, List.mapIdx_cons, List.length_map, Nat.zero_add]
  congr 1
  · refine mapIdx_map_eq fun i hi s => ?_
    rw [estimatePoint, if_pos hi]
  · refine congrArg₂ _ ?_ (mapIdx_map_eq fun i _ s => ?_)
    · rw [estimatePoint, if_neg (lt_irrefl _), if_pos rfl]
      dsimp only
      rw [ha]
    · rw [estimatePoint, if_neg (by omega), if_neg (by omega)]

end Estimated

/-! ## The anchor -/

/-- A header as a sample. -/
def sampleOf (header : ℕ → BlockHeaderInfo) (height : ℕ) : HeaderSample :=
  ⟨height, (header height).activeSlotCount, (header height).allocCounter⟩

/-- The user mints of a height, by the mint counter of its header. -/
def mintsAt (header : ℕ → BlockHeaderInfo) (height : ℕ) : ℕ := userMints (sampleOf header height)

/-- The height of the first sample whose burn is known. -/
def anchorHeight (burns : List RecordedBurn) (tip : ℕ) (heights : List ℕ) : ℕ :=
  (heights.find? (burnKnown burns tip)).getD tip

/-- The samples with the tip, cut at the first one whose burn is known. -/
structure AnchoredAt (header : ℕ → BlockHeaderInfo) (burns : List RecordedBurn) (tip : ℕ)
    (heights : List ℕ) (samples : List HeaderSample) (before : List ℕ) (a : HeaderSample)
    (after : List HeaderSample) : Prop where
  split : samples = before.map (sampleOf header) ++ a :: after
  unknown : ∀ h ∈ before, burnKnown burns tip h = false
  known : burnKnown burns tip a.height = true
  height : a.height = anchorHeight burns tip heights
  before_iff : ∀ h, h ∈ before ↔ h ∈ heights ∧ h < anchorHeight burns tip heights
  mints : userMints a
    = if anchorHeight burns tip heights ∈ heights then
        mintsAt header (anchorHeight burns tip heights)
      else 0
  ascending : samples.Pairwise fun s s' => s.height < s'.height

section Anchor

variable {header : ℕ → BlockHeaderInfo} {burns : List RecordedBurn} {tip : ℕ} {heights : List ℕ}

theorem burnKnown_tip : burnKnown burns tip tip = true := burnKnown_iff.mpr (.inr rfl)

theorem pairwise_samples (hasc : heights.Pairwise (· < ·)) :
    (heights.map (sampleOf header)).Pairwise fun s s' => s.height < s'.height :=
  List.pairwise_map.mpr hasc

/-- A tip among the samples is the last of them. -/
theorem getLast?_of_mem (hasc : heights.Pairwise (· < ·)) (htip : ∀ h ∈ heights, h ≤ tip)
    (hmem : tip ∈ heights) : heights.getLast? = some tip := by
  obtain ⟨as, bs, rfl⟩ := List.append_of_mem hmem
  rcases bs with _ | ⟨b, bs⟩
  · exact List.getLast?_concat
  · have hlt := (List.pairwise_cons.mp (List.pairwise_append.mp hasc).2.1).1 b List.mem_cons_self
    exact absurd (htip b (by simp)) hlt.not_ge

/-- **The tip is put behind the samples unless it is one.** -/
theorem withTip_eq (hasc : heights.Pairwise (· < ·)) (htip : ∀ h ∈ heights, h ≤ tip)
    (activeSlotCount : UInt64) :
    withTip (heights.map (sampleOf header)) tip activeSlotCount
      = heights.map (sampleOf header)
        ++ if tip ∈ heights then [] else [⟨tip, activeSlotCount, 0⟩] := by
  rw [withTip, List.getLast?_map]
  by_cases hmem : tip ∈ heights
  · rw [if_pos hmem, getLast?_of_mem hasc htip hmem, List.append_nil]
    simp [sampleOf]
  · rw [if_neg hmem, if_pos]
    rw [Option.all_map, Option.all_eq_true]
    intro h hh
    have hne : h ≠ tip := fun heq => hmem (heq ▸ List.mem_of_getLast? hh)
    exact decide_eq_true hne

theorem withTip_ascending (hasc : heights.Pairwise (· < ·)) (htip : ∀ h ∈ heights, h ≤ tip)
    (activeSlotCount : UInt64) :
    (withTip (heights.map (sampleOf header)) tip activeSlotCount).Pairwise
      fun s s' => s.height < s'.height := by
  rw [withTip_eq hasc htip]
  split_ifs with hmem
  · rw [List.append_nil]
    exact pairwise_samples hasc
  · refine List.pairwise_append.mpr ⟨pairwise_samples hasc, List.pairwise_singleton _ _, ?_⟩
    intro s hs s' hs'
    obtain ⟨h, hh, rfl⟩ := List.mem_map.mp hs
    rw [List.mem_singleton.mp hs']
    refine lt_of_le_of_ne (htip h hh) fun heq => hmem ?_
    rwa [← show h = tip from heq]

/-- **Every history has an anchor**: a sampled header, or the tip put behind the samples. -/
theorem exists_anchor (hasc : heights.Pairwise (· < ·)) (htip : ∀ h ∈ heights, h ≤ tip)
    (activeSlotCount : UInt64) :
    ∃ before a after, AnchoredAt header burns tip heights
      (withTip (heights.map (sampleOf header)) tip activeSlotCount) before a after := by
  have hascending : (withTip (heights.map (sampleOf header)) tip activeSlotCount).Pairwise _ :=
    withTip_ascending hasc htip activeSlotCount
  rcases hfind : heights.find? (burnKnown burns tip) with _ | k
  · have hunknown : ∀ h ∈ heights, burnKnown burns tip h = false := by
      simpa using List.find?_eq_none.mp hfind
    have hmem : tip ∉ heights := fun h => Bool.false_ne_true
      ((hunknown tip h).symm.trans burnKnown_tip)
    have hanchor : anchorHeight burns tip heights = tip := by
      rw [anchorHeight, hfind, Option.getD_none]
    refine ⟨heights, ⟨tip, activeSlotCount, 0⟩, [], ?_, hunknown, burnKnown_tip, hanchor.symm,
      fun h => ?_, ?_, hascending⟩
    · rw [withTip_eq hasc htip, if_neg hmem]
    · rw [hanchor]
      exact ⟨fun hh => ⟨hh, lt_of_le_of_ne (htip h hh) fun heq => hmem (heq ▸ hh)⟩, And.left⟩
    · rw [hanchor, if_neg hmem]
      exact Nat.zero_sub _
  · obtain ⟨hk, as, bs, hsplit, hunknown⟩ := List.find?_eq_some_iff_append.mp hfind
    have hanchor : anchorHeight burns tip heights = k := by
      rw [anchorHeight, hfind, Option.getD_some]
    have hmem : k ∈ heights := by simp [hsplit]
    refine ⟨as, sampleOf header k, bs.map (sampleOf header)
      ++ if tip ∈ heights then [] else [⟨tip, activeSlotCount, 0⟩], ?_, ?_, hk, hanchor.symm,
      fun h => ?_, ?_, hascending⟩
    · rw [withTip_eq hasc htip]
      conv_lhs => rw [hsplit]
      rw [List.map_append, List.map_cons, List.append_assoc, List.cons_append, hsplit]
    · simpa using hunknown
    · rw [hanchor, hsplit, List.mem_append, List.mem_cons]
      rw [hsplit] at hasc
      obtain ⟨-, hafter, hbefore⟩ := List.pairwise_append.mp hasc
      constructor
      · exact fun hh => ⟨.inl hh, hbefore h hh k List.mem_cons_self⟩
      · rintro ⟨hh | rfl | hh, hlt⟩
        · exact hh
        · exact absurd hlt (lt_irrefl _)
        · exact absurd hlt ((List.pairwise_cons.mp hafter).1 h hh).not_gt
    · rw [hanchor, if_pos hmem, mintsAt]

end Anchor

/-! ## When the estimates meet the anchor -/

/-- **The estimates meet the anchor**: every point before the first one with a measured burn carries
that burn, scaled by the user mints of the two headers and rounded down. -/
def MeetsAnchor (header : ℕ → BlockHeaderInfo) (history : List EconomicsPoint) : Prop :=
  ∀ before anchor after b, history = before ++ anchor :: after →
    (∀ p ∈ before, p.burnedMicronoid = none) → anchor.burnedMicronoid = some b →
      ∀ p ∈ before, p.burnedEstimateMicronoid
        = some (b * mintsAt header p.height / mintsAt header anchor.height)

/-- **The anchor is a sampled header**, and no product leaves the 128 bits — or nothing is to be
seen of it, since an estimate rounds down to nothing or the anchor counts no user mint. -/
def AnchorServes (header : ℕ → BlockHeaderInfo) (burns : List RecordedBurn) (burned tip : ℕ)
    (heights : List ℕ) : Prop :=
  let anchor := anchorHeight burns tip heights
  let anchorBurn := burned - burnsAbove burns anchor
  ∀ h ∈ heights, h < anchor → mintsAt header anchor = 0
    ∨ anchorBurn * mintsAt header h < if anchor ∈ heights then 2 ^ 128 else mintsAt header anchor

/-- A cut at the first entry that passes a test is unique. -/
theorem split_unique {α : Type} {q : α → Bool} {before before' after after' : List α} {a a' : α}
    (heq : before ++ a :: after = before' ++ a' :: after') (hbefore : ∀ x ∈ before, q x = false)
    (hbefore' : ∀ x ∈ before', q x = false) (ha : q a = true) (ha' : q a' = true) :
    before = before' ∧ a = a' ∧ after = after' := by
  have htake : ∀ {l r : List α} {x : α}, (∀ y ∈ l, q y = false) → q x = true →
      (l ++ x :: r).takeWhile (fun y => !q y) = l := by
    intro l r x hl hx
    rw [List.takeWhile_append_of_pos fun y hy => by rw [hl y hy]; rfl,
      List.takeWhile_cons_of_neg (by simp [hx]), List.append_nil]
  have hsame : before = before' := by
    rw [← htake (r := after) hbefore ha, heq, htake hbefore' ha']
  subst hsame
  exact ⟨rfl, List.cons.inj (List.append_cancel_left heq)⟩

/-- The estimates of a history that is cut at its anchor. -/
theorem meetsAnchor_iff {header : ℕ → BlockHeaderInfo} {before after : List EconomicsPoint}
    {anchor : EconomicsPoint} {b : ℕ} (hbefore : ∀ p ∈ before, p.burnedMicronoid = none)
    (hanchor : anchor.burnedMicronoid = some b) :
    MeetsAnchor header (before ++ anchor :: after) ↔ ∀ p ∈ before, p.burnedEstimateMicronoid
      = some (b * mintsAt header p.height / mintsAt header anchor.height) := by
  refine ⟨fun h => h before anchor after b rfl hbefore hanchor, ?_⟩
  intro h before' anchor' after' b' heq hbefore' hanchor'
  obtain ⟨rfl, rfl, -⟩ := split_unique (q := fun p => p.burnedMicronoid.isSome) heq
    (fun p hp => by rw [hbefore p hp]; rfl) (fun p hp => by rw [hbefore' p hp]; rfl)
    (by rw [hanchor]; rfl) (by rw [hanchor']; rfl)
  obtain rfl := Option.some.inj (hanchor.symm.trans hanchor')
  exact h

/-- A wrapped quotient is the exact one if and only if nothing wrapped. -/
theorem scaledBurn_eq_iff {b m : ℕ} (hm : m < 2 ^ 128) (s : HeaderSample) :
    scaledBurn b m s = b * userMints s / m ↔ m = 0 ∨ b * userMints s < 2 ^ 128 := by
  rw [scaledBurn, wrap128]
  generalize b * userMints s = x
  rcases Nat.eq_zero_or_pos m with rfl | hpos
  · exact iff_of_true (by rw [if_neg (lt_irrefl 0), Nat.div_zero]) (.inl rfl)
  rw [if_pos hpos, or_iff_right hpos.ne']
  constructor
  · intro heq
    by_contra hbig
    -- what wraps loses at least one multiple of the divisor
    have hle : x % 2 ^ 128 + m ≤ x := by
      have := Nat.mod_add_div x (2 ^ 128)
      have hquot : 1 ≤ x / 2 ^ 128 := Nat.div_pos (not_lt.mp hbig) (Nat.two_pow_pos _)
      omega
    have hmore := Nat.div_le_div_right (c := m) hle
    rw [Nat.add_div_right _ hpos, ← heq] at hmore
    exact absurd hmore (Nat.lt_succ_self _).not_ge
  · intro hlt
    rw [Nat.mod_eq_of_lt hlt]

theorem userMints_lt (s : HeaderSample) : userMints s < 2 ^ 128 := by
  have := s.allocCounter.toNat_lt
  rw [userMints]
  omega

/-- One estimate: scaled by the anchor's own header, or by the counter of a tip put there by
hand. -/
theorem AnchoredAt.scaledBurn_iff {header : ℕ → BlockHeaderInfo} {burns : List RecordedBurn}
    {tip : ℕ} {heights before : List ℕ} {samples after : List HeaderSample} {a : HeaderSample}
    (h : AnchoredAt header burns tip heights samples before a after) (b k : ℕ) :
    scaledBurn b (userMints a) (sampleOf header k)
        = b * mintsAt header k / mintsAt header (anchorHeight burns tip heights)
      ↔ mintsAt header (anchorHeight burns tip heights) = 0
        ∨ b * mintsAt header k < if anchorHeight burns tip heights ∈ heights then 2 ^ 128
          else mintsAt header (anchorHeight burns tip heights) := by
  rw [h.mints]
  split_ifs with hmem
  · exact scaledBurn_eq_iff (userMints_lt _) (sampleOf header k)
  · rw [scaledBurn, if_neg (lt_irrefl 0), eq_comm]
    exact Nat.div_eq_zero_iff

/-- **The estimates meet the anchor exactly if the anchor serves.** -/
theorem economicsHistory_estimates_iff (header : ℕ → BlockHeaderInfo) (heights : List ℕ)
    (hasc : heights.Pairwise (· < ·)) (tip : ℕ) (htip : ∀ h ∈ heights, h ≤ tip)
    (burns : List RecordedBurn) (hburns : burns.Pairwise fun b c => b.1 ≤ c.1) (burned : ℕ)
    (activeSlotCount : UInt64) (expansions : List ℕ) :
    MeetsAnchor header (economicsHistory (heights.map (sampleOf header)) tip activeSlotCount burns
        burned expansions)
      ↔ AnchorServes header burns burned tip heights := by
  obtain ⟨before, a, after, h⟩ : ∃ before a after,
    AnchoredAt header burns tip heights _ before a after :=
    exists_anchor hasc htip activeSlotCount
  let point : HeaderSample → EconomicsPoint :=
    fun s => economicsPoint expansions (burnPoint burns burned tip s)
  have hunknown : ∀ s ∈ before.map (sampleOf header), (point s).burnedMicronoid = none := by
    intro s hs
    obtain ⟨k, hk, rfl⟩ := List.mem_map.mp hs
    exact if_neg (Bool.eq_false_iff.mp (h.unknown k hk))
  have hknown : (point a).burnedMicronoid = some (burned - burnsAbove burns a.height) :=
    if_pos h.known
  rw [economicsHistory, burnWalk_eq hburns h.ascending, List.map_map, h.split,
    show economicsPoint expansions ∘ burnPoint burns burned tip = point from rfl,
    estimated_append hunknown hknown, meetsAnchor_iff (b := burned - burnsAbove burns a.height)]
  · rw [List.forall_mem_map, List.forall_mem_map]
    refine (forall₂_congr fun k _ => ?_).trans ⟨fun hall k hk hlt =>
      hall k ((h.before_iff k).mpr ⟨hk, hlt⟩), fun hall k hk =>
      hall k ((h.before_iff k).mp hk).1 ((h.before_iff k).mp hk).2⟩
    have hone := h.scaledBurn_iff (burned - burnsAbove burns a.height) k
    rw [h.height] at hone
    refine Iff.trans ?_ hone
    rw [Option.some.injEq, ← h.height]
    rfl
  · intro p hp
    obtain ⟨s, hs, rfl⟩ := List.mem_map.mp hp
    exact hunknown s hs
  · exact hknown

/-! ## A permanode that has just started -/

/-- A chain on which every block creates one output besides its coinbase. -/
def mintHeaders (height : ℕ) : BlockHeaderInfo :=
  ⟨height, "", "", "", "", 0, "", "", "", 24, 0, UInt64.ofNat (2 * height)⟩

/-- **With the records beginning above the last sampled header the anchor is the tip**, which counts
no mint: the estimate at 512 is nothing instead of 1200 · 512 / 600. -/
theorem economicsHistory_started : ¬ MeetsAnchor mintHeaders
    (economicsHistory ([0, 512].map (sampleOf mintHeaders)) 600 7 [(590, 5)] 1200 []) := by
  have hhistory : economicsHistory ([0, 512].map (sampleOf mintHeaders)) 600 7 [(590, 5)] 1200 []
      = [⟨0, 0, none, some 0⟩, ⟨512, 23040000000, none, some 0⟩]
        ++ ⟨600, 27000000000, some 1200, some 1200⟩ :: [] := by decide +kernel
  rw [hhistory, meetsAnchor_iff (b := 1200) (by decide) rfl]
  intro h
  have hestimate := Option.some.inj (h ⟨512, 23040000000, none, some 0⟩ (by simp))
  revert hestimate
  decide +kernel

/-- With a sampled header among the records the estimates meet it. -/
theorem economicsHistory_estimates_sampled : MeetsAnchor mintHeaders
    (economicsHistory ([0, 512, 1024].map (sampleOf mintHeaders)) 1030 7 [(1024, 5), (1025, 3)] 1200
      []) := by
  refine (economicsHistory_estimates_iff mintHeaders [0, 512, 1024] (by decide) 1030 (by decide)
    [(1024, 5), (1025, 3)] (by decide) 1200 7 []).mpr ?_
  unfold AnchorServes
  decide +kernel

end Permanode
