import Permanode.Foundations.Grid
import Permanode.Node.Rpc

/-!
# Economics/Samples — header samples at a growing step

`sampled_state_history` of `permanode/src/serve.rs`: every 512th header up to the tip, or every
1,024th, 2,048th, … once that would be more than 2,400 samples.  What was sampled is kept between
calls: it is thinned when the step doubles and extended when the tip moves on — and never cut when
the tip falls.

**`sampledStateHistory_iff`**: a call returns the samples up to its tip exactly if no earlier call
sampled beyond it.
-/

namespace Permanode

/-- `HISTORY_STEP`. -/
def historyStep : ℕ := 512

/-- `HISTORY_MAX_POINTS`. -/
def historyMaxPoints : ℕ := 2400

/-- `HeaderSample`: the two permanent header fields the charts are built from. -/
structure HeaderSample where
  height : ℕ
  activeSlotCount : UInt64
  allocCounter : UInt64
  deriving DecidableEq, Repr

/-- `StateHistory`. -/
structure StateHistory where
  step : ℕ := 0
  points : List HeaderSample := []
  deriving DecidableEq, Repr

/-! ## One call -/

/-- `points.retain(|p| p.height % step == 0)`. -/
def retainMultiples (step : ℕ) (points : List HeaderSample) : List HeaderSample :=
  points.filter fun p => p.height % step = 0

namespace StateHistory

/-- The first call sets the step. -/
def started (cache : StateHistory) : StateHistory :=
  if cache.step = 0 then { cache with step := historyStep } else cache

/-- The loop that doubles the step and keeps the points on it. -/
def thinned (tip : ℕ) (cache : StateHistory) : StateHistory :=
  if historyMaxPoints < tip / cache.step then
    thinned tip ⟨cache.step * 2, retainMultiples (cache.step * 2) cache.points⟩
  else cache
termination_by tip / cache.step
decreasing_by
  rw [← Nat.div_div_eq_div_mul]
  omega

theorem step_started_pos (cache : StateHistory) : 0 < cache.started.step := by
  rw [started]
  split_ifs with h
  · exact Nat.succ_pos _
  · exact Nat.pos_of_ne_zero h

theorem step_thinned_pos {tip : ℕ} {cache : StateHistory} (h : 0 < cache.step) :
    0 < (cache.thinned tip).step := by
  fun_induction thinned tip cache with
  | case1 cache _ ih => exact ih (Nat.mul_pos h (by decide))
  | case2 cache _ => exact h

end StateHistory

/-- The loop that asks for the headers from `next` on; what it has sampled stays when a call
fails. -/
def extendSamples (getBlockHeader : HeaderCall) (tip step : ℕ) (hstep : 0 < step) (next : ℕ)
    (points : List HeaderSample) : List HeaderSample × Except String Unit :=
  if next ≤ tip then
    match getBlockHeader next with
    | .error e => (points, .error e)
    | .ok none => (points, .ok ())
    | .ok (some header) => extendSamples getBlockHeader tip step hstep (next + step)
        (points ++ [⟨next, header.activeSlotCount, header.allocCounter⟩])
  else (points, .ok ())
termination_by tip + 1 - next

/-- The samples up to `tip` with their step, and the cache after the call. -/
def sampledStateHistory (cache : StateHistory) (getBlockHeader : HeaderCall) (tip : ℕ) :
    StateHistory × Except String (ℕ × List HeaderSample) :=
  let cache' := cache.started.thinned tip
  let next := cache'.points.getLast?.elim 0 fun p => p.height + cache'.step
  let (points, outcome) := extendSamples getBlockHeader tip cache'.step
    (StateHistory.step_thinned_pos cache.step_started_pos) next cache'.points
  ({ cache' with points }, outcome.map fun _ => (cache'.step, points))

/-! ## What the cache holds -/

/-- The first `n` samples at a step, by their heights. -/
def OnGrid (step n : ℕ) (points : List HeaderSample) : Prop :=
  points.map HeaderSample.height = grid step n

theorem OnGrid.retain {step n : ℕ} {points : List HeaderSample} (h : OnGrid step n points)
    (hstep : 0 < step) :
    OnGrid (step * 2) ((n + 1) / 2) (retainMultiples (step * 2) points) := by
  rw [OnGrid, ← filter_grid hstep, ← h, List.filter_map]
  rfl

theorem OnGrid.next {step n : ℕ} {points : List HeaderSample} (h : OnGrid step n points) :
    (points.getLast?.elim 0 fun p => p.height + step) = n * step := by
  have hlast := getLast?_grid step n
  rw [← h, List.getLast?_map] at hlast
  rcases n with _ | n
  · rw [if_pos rfl, Option.map_eq_none_iff] at hlast
    rw [hlast, Nat.zero_mul]
    rfl
  · rw [if_neg (Nat.succ_ne_zero n), Option.map_eq_some_iff] at hlast
    obtain ⟨p, hp, hheight⟩ := hlast
    rw [hp, Option.elim_some, hheight, Nat.add_sub_cancel, Nat.succ_mul]

/-- How many samples there are up to a height at a step; none before the first call. -/
def samplesUpTo (step : ℕ) (reach : Option ℕ) : ℕ := reach.elim 0 fun height => height / step + 1

theorem samplesUpTo_double (step : ℕ) (reach : Option ℕ) :
    (samplesUpTo step reach + 1) / 2 = samplesUpTo (step * 2) reach := by
  rcases reach with _ | height
  · exact Nat.div_eq_of_lt (by decide : 0 + 1 < 2)
  · rw [samplesUpTo, samplesUpTo, Option.elim_some, Option.elim_some, ← Nat.div_div_eq_div_mul]
    omega

/-- **What the cache holds after calls up to a height**, or after none: the step for that height,
and the samples at it up to that height. -/
structure StateHistory.Holds (cache : StateHistory) (reach : Option ℕ) : Prop where
  step : cache.step = reach.elim 0 fun height => spacing historyStep historyMaxPoints height
  points : OnGrid cache.step (samplesUpTo cache.step reach) cache.points

theorem StateHistory.holds_empty : ({} : StateHistory).Holds none := ⟨rfl, rfl⟩

/-! ## The loops -/

/-- **Thinning** takes the step to the one for the tip, if it is below that, and keeps the samples
at it. -/
theorem StateHistory.thinned_spec (tip : ℕ) (reach : Option ℕ) : ∀ (cache : StateHistory) (k : ℕ),
    cache.step = historyStep * 2 ^ k →
    OnGrid cache.step (samplesUpTo cache.step reach) cache.points →
      (cache.thinned tip).step
          = historyStep * 2 ^ max k (doublings historyStep historyMaxPoints tip)
        ∧ OnGrid (cache.thinned tip).step (samplesUpTo (cache.thinned tip).step reach)
          (cache.thinned tip).points := by
  intro cache
  induction hn : tip / cache.step using Nat.strong_induction_on generalizing cache with
  | _ n ih =>
    intro k hstep hgrid
    have hk : doublings historyStep historyMaxPoints tip ≤ k ↔ _ := doublings_le_iff (by decide)
    rw [← hstep] at hk
    rw [thinned]
    split_ifs with hmore
    · have hpos : 0 < cache.step := by
        rw [hstep]
        exact Nat.mul_pos (by decide) (Nat.two_pow_pos k)
      have hless : tip / (cache.step * 2) < n := by
        rw [← Nat.div_div_eq_div_mul]
        omega
      have hdouble : cache.step * 2 = historyStep * 2 ^ (k + 1) := by
        rw [hstep, Nat.mul_assoc, Nat.pow_succ]
      have hretained := hgrid.retain hpos
      rw [samplesUpTo_double] at hretained
      have hmax : max k (doublings historyStep historyMaxPoints tip)
          = max (k + 1) (doublings historyStep historyMaxPoints tip) := by omega
      rw [hmax]
      exact ih _ hless ⟨cache.step * 2, _⟩ rfl (k + 1) hdouble hretained
    · have hmax : max k (doublings historyStep historyMaxPoints tip) = k := by omega
      rw [hmax]
      exact ⟨hstep, hgrid⟩

/-- **Extending** adds the samples up to the tip. -/
theorem extendSamples_spec {getBlockHeader : HeaderCall} {tip step : ℕ} (hstep : 0 < step)
    (hserved : ∀ h ≤ tip, ∃ header, getBlockHeader h = .ok (some header)) :
    ∀ (n : ℕ) (points : List HeaderSample), OnGrid step n points →
      ∃ points', extendSamples getBlockHeader tip step hstep (n * step) points = (points', .ok ())
        ∧ OnGrid step (max n (tip / step + 1)) points' := by
  intro n
  induction hm : tip / step + 1 - n generalizing n with
  | zero =>
    intro points hgrid
    have hpast : ¬ n * step ≤ tip := by
      rw [← Nat.le_div_iff_mul_le hstep]
      omega
    rw [extendSamples, if_neg hpast, max_eq_left (by omega)]
    exact ⟨points, rfl, hgrid⟩
  | succ m ih =>
    intro points hgrid
    have hnext : n * step ≤ tip := by
      rw [← Nat.le_div_iff_mul_le hstep]
      omega
    obtain ⟨header, hheader⟩ := hserved (n * step) hnext
    rw [extendSamples, if_pos hnext, hheader]
    dsimp only
    have hmore : OnGrid step (n + 1)
        (points ++ [⟨n * step, header.activeSlotCount, header.allocCounter⟩]) := by
      rw [OnGrid, List.map_append, hgrid, grid_succ]
      rfl
    obtain ⟨points', hloop, hon⟩ := ih (n + 1) (by omega) _ hmore
    rw [Nat.succ_mul] at hloop
    have hmax : max n (tip / step + 1) = max (n + 1) (tip / step + 1) := by omega
    rw [hmax]
    exact ⟨points', hloop, hon⟩

/-! ## One call -/

theorem doublings_zero : doublings historyStep historyMaxPoints 0 = 0 :=
  Nat.le_zero.mp ((doublings_le_iff (by decide)).mpr (by decide))

theorem StateHistory.Holds.started {cache : StateHistory} {reach : Option ℕ}
    (h : cache.Holds reach) :
    cache.started.step = spacing historyStep historyMaxPoints (reach.getD 0)
      ∧ OnGrid cache.started.step (samplesUpTo cache.started.step reach) cache.started.points := by
  obtain ⟨hstep, hpoints⟩ := h
  rcases reach with _ | height
  · have hzero : cache.step = 0 := hstep
    rw [StateHistory.started, if_pos hzero]
    refine ⟨?_, hpoints⟩
    rw [Option.getD_none, spacing, doublings_zero]
    rfl
  · have hpos : cache.step ≠ 0 := by
      rw [hstep]
      exact (Nat.mul_pos (by decide) (Nat.two_pow_pos _)).ne'
    rw [StateHistory.started, if_neg hpos]
    exact ⟨hstep, hpoints⟩

/-- The samples up to one height and up to another. -/
theorem max_samplesUpTo (step : ℕ) (reach : Option ℕ) (tip : ℕ) :
    max (samplesUpTo step reach) (tip / step + 1)
      = samplesUpTo step (some (max (reach.getD 0) tip)) := by
  rcases reach with _ | height
  · rw [Option.getD_none, Nat.zero_max]
    exact Nat.zero_max _
  · change max (height / step + 1) (tip / step + 1) = max height tip / step + 1
    rcases le_total height tip with hle | hle
    · have := Nat.div_le_div_right (c := step) hle
      rw [max_eq_right hle, max_eq_right (by omega)]
    · have := Nat.div_le_div_right (c := step) hle
      rw [max_eq_left hle, max_eq_left (by omega)]

/-- **One call** returns what the cache then holds: the samples up to the highest tip so far. -/
theorem StateHistory.Holds.sampledStateHistory {cache : StateHistory} {reach : Option ℕ}
    (h : cache.Holds reach) {getBlockHeader : HeaderCall} {tip : ℕ}
    (hserved : ∀ h ≤ tip, ∃ header, getBlockHeader h = .ok (some header)) :
    ∃ cache' : StateHistory, Permanode.sampledStateHistory cache getBlockHeader tip
        = (cache', .ok (cache'.step, cache'.points))
      ∧ cache'.Holds (some (max (reach.getD 0) tip)) := by
  obtain ⟨hstep, hpoints⟩ := h.started
  obtain ⟨hstep, hpoints⟩ := StateHistory.thinned_spec tip reach cache.started _ hstep hpoints
  rw [← doublings_max (by decide), ← spacing] at hstep
  obtain ⟨points, hloop, hon⟩ := extendSamples_spec
    (StateHistory.step_thinned_pos cache.step_started_pos) hserved _ _ hpoints
  rw [max_samplesUpTo] at hon
  refine ⟨⟨(cache.started.thinned tip).step, points⟩, ?_, hstep, hon⟩
  rw [Permanode.sampledStateHistory]
  dsimp only
  rw [hpoints.next, hloop]
  rfl

/-! ## A sequence of calls -/

/-- One call, with the headers it is served. -/
structure SampleCall where
  tip : ℕ
  getBlockHeader : HeaderCall

/-- A header is served for every height up to the tip. -/
def SampleCall.Served (c : SampleCall) : Prop :=
  ∀ h ≤ c.tip, ∃ header, c.getBlockHeader h = .ok (some header)

/-- The answers of a sequence of calls. -/
def sampleRun : StateHistory → List SampleCall → List (Except String (ℕ × List HeaderSample))
  | _, [] => []
  | cache, c :: calls =>
    let (cache, answer) := sampledStateHistory cache c.getBlockHeader c.tip
    answer :: sampleRun cache calls

/-- **What a call at a tip is to return**: a step that is 512 doubled, of which the tip takes at
most 2,400, and the samples at its multiples up to the tip. -/
def SampledUpTo (tip : ℕ) (answer : Except String (ℕ × List HeaderSample)) : Prop :=
  ∃ k points, answer = .ok (historyStep * 2 ^ k, points)
    ∧ tip / (historyStep * 2 ^ k) ≤ historyMaxPoints
    ∧ OnGrid (historyStep * 2 ^ k) (tip / (historyStep * 2 ^ k) + 1) points

/-- The highest tip of a sequence of calls. -/
def highestTip (calls : List SampleCall) : ℕ := (calls.map SampleCall.tip).foldl max 0

/-- No sample of an earlier call lies above the tip of this one: no multiple of the step for the
highest tip so far is above this tip and within an earlier one. -/
def NoneAbove (earlier : List SampleCall) (c : SampleCall) : Prop :=
  let step := spacing historyStep historyMaxPoints (highestTip (earlier ++ [c]))
  ∀ c' ∈ earlier, c'.tip / step ≤ c.tip / step

theorem highestTip_concat (calls : List SampleCall) (c : SampleCall) :
    highestTip (calls ++ [c]) = max (highestTip calls) c.tip := by
  rw [highestTip, List.map_append, List.foldl_append]
  rfl

theorem le_highestTip (calls : List SampleCall) : ∀ c ∈ calls, c.tip ≤ highestTip calls := by
  induction calls using List.reverseRecOn with
  | nil => exact fun c hc => absurd hc List.not_mem_nil
  | append_singleton calls c ih =>
    intro c' hc'
    rw [highestTip_concat]
    rcases List.mem_append.mp hc' with hc' | hc'
    · exact (ih c' hc').trans (le_max_left _ _)
    · rw [List.mem_singleton.mp hc']
      exact le_max_right _ _

/-- The highest tip is a tip. -/
theorem exists_highestTip (calls : List SampleCall) :
    highestTip calls = 0 ∨ ∃ c ∈ calls, c.tip = highestTip calls := by
  induction calls using List.reverseRecOn with
  | nil => exact .inl rfl
  | append_singleton calls c ih =>
    rw [highestTip_concat]
    rcases le_total (highestTip calls) c.tip with hle | hle
    · rw [max_eq_right hle]
      exact .inr ⟨c, by simp, rfl⟩
    · rw [max_eq_left hle]
      refine ih.imp_right fun hc => ?_
      obtain ⟨c', hc', heq⟩ := hc
      exact ⟨c', List.mem_append_left _ hc', heq⟩

/-- The highest tip lies above a call's samples exactly if some earlier call's does. -/
theorem noneAbove_iff {earlier : List SampleCall} {c : SampleCall} {step : ℕ}
    (hstep : step = spacing historyStep historyMaxPoints (max (highestTip earlier) c.tip)) :
    NoneAbove earlier c ↔ max (highestTip earlier) c.tip / step = c.tip / step := by
  rw [NoneAbove, highestTip_concat, ← hstep]
  constructor
  · intro hnone
    rcases le_total (highestTip earlier) c.tip with hle | hle
    · rw [max_eq_right hle]
    rw [max_eq_left hle]
    refine le_antisymm ?_ (Nat.div_le_div_right hle)
    rcases exists_highestTip earlier with hzero | ⟨c', hc', heq⟩
    · rw [hzero, Nat.zero_div]
      exact Nat.zero_le _
    · rw [← heq]
      exact hnone c' hc'
  · intro heq c' hc'
    rw [← heq]
    exact Nat.div_le_div_right ((le_highestTip earlier c' hc').trans (le_max_left _ _))

/-- **A call returns the samples up to its tip exactly if no earlier call sampled beyond it.** -/
theorem StateHistory.Holds.sampledUpTo_iff {cache' : StateHistory} {height tip : ℕ}
    (h : cache'.Holds (some (max height tip)))
    {answer : Except String (ℕ × List HeaderSample)}
    (hanswer : answer = .ok (cache'.step, cache'.points)) :
    SampledUpTo tip answer ↔ max height tip / cache'.step = tip / cache'.step := by
  have hstep : cache'.step
      = historyStep * 2 ^ doublings historyStep historyMaxPoints (max height tip) := h.step
  constructor
  · rintro ⟨k, points, heq, -, hon⟩
    rw [hanswer] at heq
    obtain ⟨hk, rfl⟩ := Prod.mk.inj (Except.ok.inj heq)
    rw [← hk] at hon
    exact Nat.succ.inj (grid_injective (h.points.symm.trans hon))
  · intro heq
    refine ⟨_, cache'.points, by rw [hanswer, hstep], ?_, ?_⟩
    · rw [← hstep, ← heq, h.step]
      exact div_spacing_le historyStep historyMaxPoints _
    · rw [← hstep, ← heq]
      exact h.points

/-- **In a sequence of calls each returns the samples up to its tip**, if and only if at each no
earlier call has sampled beyond the tip. -/
theorem sampleRun_iff (calls : List SampleCall) (hserved : ∀ c ∈ calls, c.Served) :
    List.Forall₂ (fun c answer => SampledUpTo c.tip answer) calls (sampleRun {} calls)
      ↔ ∀ earlier c later, calls = earlier ++ c :: later → NoneAbove earlier c := by
  suffices hrun : ∀ (calls earlier : List SampleCall) (cache : StateHistory) (reach : Option ℕ),
      (∀ c ∈ calls, c.Served) → cache.Holds reach → reach.getD 0 = highestTip earlier →
        (List.Forall₂ (fun c answer => SampledUpTo c.tip answer) calls (sampleRun cache calls)
          ↔ ∀ between c later, calls = between ++ c :: later → NoneAbove (earlier ++ between) c) by
    exact hrun calls [] {} none hserved StateHistory.holds_empty rfl
  intro calls
  induction calls with
  | nil =>
    intro earlier cache reach _ _ _
    refine iff_of_true .nil fun between c later heq => absurd heq.symm ?_
    exact List.append_ne_nil_of_right_ne_nil _ (List.cons_ne_nil _ _)
  | cons c calls ih =>
    intro earlier cache reach hserved hholds hreach
    obtain ⟨cache', hcall, hholds'⟩ := hholds.sampledStateHistory (hserved c List.mem_cons_self)
    rw [hreach] at hholds'
    have hthis : SampledUpTo c.tip _ ↔ _ := hholds'.sampledUpTo_iff rfl
    rw [← noneAbove_iff hholds'.step] at hthis
    have hrest := ih (earlier ++ [c]) cache' _
      (fun c' hc' => hserved c' (List.mem_cons_of_mem _ hc')) hholds'
      (highestTip_concat earlier c).symm
    rw [sampleRun, hcall, List.forall₂_cons, hthis, hrest]
    constructor
    · rintro ⟨hnone, hlater⟩ between c' later heq
      rcases between with _ | ⟨b, between⟩
      · obtain ⟨rfl, -⟩ := List.cons.inj heq
        rwa [List.append_nil]
      · obtain ⟨rfl, hcalls⟩ := List.cons.inj heq
        have := hlater between c' later hcalls
        rwa [List.append_assoc] at this
    · intro hall
      refine ⟨?_, fun between c' later heq => ?_⟩
      · have := hall [] c calls rfl
        rwa [List.append_nil] at this
      · have := hall (c :: between) c' later (congrArg _ heq)
        rwa [List.append_cons] at this

/-! ## A tip that falls -/

/-- A chain's headers. -/
def plainHeaders : HeaderCall := fun h => .ok (some ⟨h, "", "", "", "", 0, "", "", "", 24, 0, 0⟩)

/-- Calls at two tips, the second below the first. -/
def fallingCalls : List SampleCall := [⟨1024, plainHeaders⟩, ⟨600, plainHeaders⟩]

/-- **After a reorg to a shorter chain the samples reach beyond the tip**: at 600 the third of them
is at 1,024. -/
theorem sampleRun_falling :
    (∀ c ∈ fallingCalls, c.Served)
      ∧ ¬ List.Forall₂ (fun c answer => SampledUpTo c.tip answer) fallingCalls
        (sampleRun {} fallingCalls) := by
  have hrun : sampleRun {} fallingCalls
      = [.ok (512, [⟨0, 0, 0⟩, ⟨512, 0, 0⟩, ⟨1024, 0, 0⟩]),
        .ok (512, [⟨0, 0, 0⟩, ⟨512, 0, 0⟩, ⟨1024, 0, 0⟩])] := by decide +kernel
  refine ⟨fun c hc h _ => ?_, fun hall => ?_⟩
  · simp only [fallingCalls, List.mem_cons, List.not_mem_nil, or_false] at hc
    rcases hc with rfl | rfl <;> exact ⟨_, rfl⟩
  · rw [hrun, fallingCalls, List.forall₂_cons, List.forall₂_cons] at hall
    obtain ⟨-, ⟨k, points, heq, -, hon⟩, -⟩ := hall
    obtain ⟨hstep, rfl⟩ := Prod.mk.inj (Except.ok.inj heq)
    rw [← hstep] at hon
    exact absurd (congrArg List.length hon) (by decide)

/-- Calls at two tips, the second below the first and within the same step. -/
def steadyCalls : List SampleCall := [⟨1500, plainHeaders⟩, ⟨1100, plainHeaders⟩]

/-- The samples of a tip that falls within a step. -/
theorem sampleRun_steady :
    List.Forall₂ (fun c answer => SampledUpTo c.tip answer) steadyCalls
      (sampleRun {} steadyCalls) := by
  have hserved : ∀ c ∈ steadyCalls, c.Served := by
    intro c hc h _
    simp only [steadyCalls, List.mem_cons, List.not_mem_nil, or_false] at hc
    rcases hc with rfl | rfl <;> exact ⟨_, rfl⟩
  refine (sampleRun_iff steadyCalls hserved).mpr fun earlier c later heq => ?_
  rcases earlier with _ | ⟨a, _ | ⟨b, earlier⟩⟩
  · exact fun _ hc' => absurd hc' List.not_mem_nil
  · obtain ⟨rfl, hrest⟩ := List.cons.inj heq
    obtain ⟨rfl, -⟩ := List.cons.inj hrest
    unfold NoneAbove
    decide +kernel
  · have hlen := congrArg List.length heq
    simp [steadyCalls] at hlen

end Permanode
