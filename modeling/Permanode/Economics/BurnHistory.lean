import Mathlib.Algebra.BigOperators.Group.List.Basic
import Mathlib.Algebra.Order.Sub.Basic
import Mathlib.Data.List.Sort
import Permanode.Economics.Samples
import Permanode.Queries.Stats

/-!
# Economics/BurnHistory — the burn walked back from the tip

The middle of `get_economics` (`permanode/src/serve.rs`): the samples are passed from the tip down,
a second index runs down the recorded burns, and what was burned above a sample is taken off the
total.

    samples     s₀ <  s₁  <   s₂   = tip
    recorded        b₀ ≤ b₁ ≤ b₂ ≤ b₃

**`burnWalk_eq`**: each sample gets the total less the burns recorded above it.
-/

namespace Permanode

/-- A recorded block's height and burn. -/
abbrev RecordedBurn := ℕ × ℕ

/-- `burn_by_block`, as the walk takes it (`as u128`). -/
def Db.recordedBurns (db : Db) : List RecordedBurn := db.burnByBlock.map fun b => (b.1, b.2.toNat)

/-- **The recorded burns ascend by height.** -/
theorem Db.recordedBurns_ascending (db : Db) :
    db.recordedBurns.Pairwise fun b c => b.1 ≤ c.1 := by
  have hsorted := List.pairwise_insertionSort (fun b c : BlockRow => b.height ≤ c.height)
    db.rewardedBlocks
  exact List.pairwise_map.mpr (List.pairwise_map.mpr hsorted)

/-- What the walk says of a sample: the burn up to it, and whether the records know it. -/
structure BurnPoint where
  height : ℕ
  remaining : ℕ
  known : Bool
  deriving DecidableEq, Repr

/-! ## The walk -/

/-- `while idx > 0 && burn_by_block[idx - 1].0 > height`: the index and what remains. -/
def takeBack (burns : List RecordedBurn) (height : ℕ) : ℕ → ℕ → ℕ × ℕ
  | 0, remaining => (0, remaining)
  | idx + 1, remaining =>
    match burns[idx]? with
    | some burn =>
      if height < burn.1 then takeBack burns height idx (remaining - burn.2)
      else (idx + 1, remaining)
    | none => (idx + 1, remaining)

/-- Whether the burn at a height is known: the records reach it, or it is the tip. -/
def burnKnown (burns : List RecordedBurn) (tip height : ℕ) : Bool :=
  (burns.head?.any fun first => first.1 ≤ height) ∨ height = tip

/-- The loop over the samples, the last first. -/
def burnLoop (burns : List RecordedBurn) (tip : ℕ) : List HeaderSample → ℕ → ℕ → List BurnPoint
  | [], _, _ => []
  | sample :: samples, idx, remaining =>
    let (idx, remaining) := takeBack burns sample.height idx remaining
    ⟨sample.height, remaining, burnKnown burns tip sample.height⟩
      :: burnLoop burns tip samples idx remaining

/-- The points of the samples, in their order. -/
def burnWalk (burns : List RecordedBurn) (burned tip : ℕ) (samples : List HeaderSample) :
    List BurnPoint :=
  (burnLoop burns tip samples.reverse burns.length burned).reverse

/-! ## What it computes -/

/-- The burns recorded above a height. -/
def burnsAbove (burns : List RecordedBurn) (height : ℕ) : ℕ :=
  ((burns.filter fun burn => height < burn.1).map Prod.snd).sum

/-- The point of a sample. -/
def burnPoint (burns : List RecordedBurn) (burned tip : ℕ) (sample : HeaderSample) : BurnPoint where
  height := sample.height
  remaining := burned - burnsAbove burns sample.height
  known := burnKnown burns tip sample.height

theorem burnsAbove_append (burns burns' : List RecordedBurn) (height : ℕ) :
    burnsAbove (burns ++ burns') height = burnsAbove burns height + burnsAbove burns' height := by
  rw [burnsAbove, List.filter_append, List.map_append, List.sum_append]
  rfl

theorem burnsAbove_of_le {burns : List RecordedBurn} {height : ℕ} (h : ∀ b ∈ burns, b.1 ≤ height) :
    burnsAbove burns height = 0 := by
  have hnone : burns.filter (fun burn => height < burn.1) = [] := by
    rw [List.filter_eq_nil_iff]
    intro b hb
    simpa using h b hb
  rw [burnsAbove, hnone]
  rfl

theorem burnsAbove_of_lt {burns : List RecordedBurn} {height : ℕ} (h : ∀ b ∈ burns, height < b.1) :
    burnsAbove burns height = (burns.map Prod.snd).sum := by
  rw [burnsAbove, List.filter_eq_self.mpr fun b hb => decide_eq_true (h b hb)]

/-- Less is burned above a higher height. -/
theorem burnsAbove_anti (burns : List RecordedBurn) {height height' : ℕ} (h : height ≤ height') :
    burnsAbove burns height' ≤ burnsAbove burns height := by
  induction burns with
  | nil => exact le_rfl
  | cons b burns ih =>
    have hcons := fun height => burnsAbove_append [b] burns height
    rw [List.singleton_append] at hcons
    rw [hcons, hcons]
    refine Nat.add_le_add ?_ ih
    by_cases hb : height' < b.1
    · rw [burnsAbove_of_lt (by simpa using hb), burnsAbove_of_lt (by simpa using h.trans_lt hb)]
    · rw [burnsAbove_of_le (by simpa using hb)]
      exact Nat.zero_le _

/-- **The inner loop** takes off the burns above a height, from where the walk stands: behind `post`
everything is taken off already. -/
theorem takeBack_eq {height : ℕ} (burned : ℕ) : ∀ {pre post : List RecordedBurn},
    (pre ++ post).Pairwise (fun b c => b.1 ≤ c.1) → (∀ b ∈ post, height < b.1) →
      ∃ pre' post', pre' ++ post' = pre ++ post ∧ (∀ b ∈ pre', b.1 ≤ height)
        ∧ (∀ b ∈ post', height < b.1)
        ∧ takeBack (pre ++ post) height pre.length (burned - (post.map Prod.snd).sum)
          = (pre'.length, burned - (post'.map Prod.snd).sum) := by
  intro pre
  induction pre using List.reverseRecOn with
  | nil => exact fun _ hpost => ⟨[], _, rfl, fun _ h => absurd h List.not_mem_nil, hpost, rfl⟩
  | append_singleton pre b ih =>
    intro post hasc hpost
    have hat : (pre ++ [b] ++ post)[pre.length]? = some b := by simp
    rw [List.length_append, List.length_singleton, takeBack, hat]
    dsimp only
    by_cases hb : height < b.1
    · rw [if_pos hb]
      have hsum : burned - (post.map Prod.snd).sum - b.2
          = burned - ((b :: post).map Prod.snd).sum := by
        rw [List.map_cons, List.sum_cons, Nat.sub_sub, Nat.add_comm b.2]
      have hcons : pre ++ [b] ++ post = pre ++ b :: post := by simp
      rw [hsum, hcons]
      exact ih (hcons ▸ hasc) (List.forall_mem_cons.mpr ⟨hb, hpost⟩)
    · rw [if_neg hb]
      refine ⟨pre ++ [b], post, rfl, fun c hc => ?_, hpost, by rw [List.length_append]; rfl⟩
      rcases List.mem_append.mp hc with hc | hc
      · have hle := (List.pairwise_append.mp (List.pairwise_append.mp hasc).1).2.2 c hc b (by simp)
        exact hle.trans (not_lt.mp hb)
      · rw [List.mem_singleton.mp hc]
        exact not_lt.mp hb

/-- The outer loop, from where the walk stands. -/
theorem burnLoop_eq (burned tip : ℕ) : ∀ {samples : List HeaderSample}
    (pre post : List RecordedBurn), (pre ++ post).Pairwise (fun b c => b.1 ≤ c.1) →
    samples.Pairwise (fun s s' => s'.height < s.height) →
    (∀ s ∈ samples, ∀ b ∈ post, s.height < b.1) →
      burnLoop (pre ++ post) tip samples pre.length (burned - (post.map Prod.snd).sum)
        = samples.map (burnPoint (pre ++ post) burned tip) := by
  intro samples
  induction samples with
  | nil => exact fun _ _ _ _ _ => rfl
  | cons s samples ih =>
    intro pre post hasc hdesc hpost
    obtain ⟨hs, hdesc⟩ := List.pairwise_cons.mp hdesc
    obtain ⟨pre', post', hsame, hpre', hpost', hback⟩ :=
      takeBack_eq burned hasc (hpost s List.mem_cons_self)
    have habove : burnsAbove (pre ++ post) s.height = (post'.map Prod.snd).sum := by
      rw [← hsame, burnsAbove_append, burnsAbove_of_le hpre', burnsAbove_of_lt hpost', Nat.zero_add]
    rw [burnLoop, hback, List.map_cons]
    dsimp only
    rw [← hsame] at hasc ⊢
    rw [ih pre' post' hasc hdesc fun s' hs' b hb =>
      (hs s' hs').trans (hpost' b hb), burnPoint, hsame, habove]

/-- **Each sample gets the total less the burns recorded above it.** -/
theorem burnWalk_eq {burns : List RecordedBurn} (hburns : burns.Pairwise fun b c => b.1 ≤ c.1)
    {samples : List HeaderSample} (hsamples : samples.Pairwise fun s s' => s.height < s'.height)
    (burned tip : ℕ) :
    burnWalk burns burned tip samples = samples.map (burnPoint burns burned tip) := by
  have hloop := burnLoop_eq burned tip burns [] (by rwa [List.append_nil])
    (List.pairwise_reverse.mpr hsamples) fun _ _ _ h => absurd h List.not_mem_nil
  rw [List.append_nil, List.map_nil, List.sum_nil, Nat.sub_zero] at hloop
  rw [burnWalk, hloop, List.map_reverse, List.reverse_reverse]

/-- When the burn at a height is known. -/
theorem burnKnown_iff {burns : List RecordedBurn} {tip height : ℕ} :
    burnKnown burns tip height = true
    ↔ (∃ first, burns.head? = some first ∧ first.1 ≤ height) ∨ height = tip := by
  rw [burnKnown, decide_eq_true_eq]
  rcases burns with _ | ⟨first, burns⟩
  · simp
  · simp

/-- **What a point is to say of its sample**: the total less the burns recorded above it, or nothing
where these are more; known at or above the first recorded height, and at the tip. -/
structure BurnPoint.Exact (burns : List RecordedBurn) (burned tip : ℕ) (s : HeaderSample)
    (p : BurnPoint) : Prop where
  height : p.height = s.height
  remaining : (p.remaining : ℤ) = max 0 ((burned : ℤ) - burnsAbove burns s.height)
  known : p.known = true
    ↔ (∃ first, burns.head? = some first ∧ first.1 ≤ s.height) ∨ s.height = tip

/-- **The walk is exact**, and the burn never falls with the height. -/
theorem burnWalk_exact (burns : List RecordedBurn) (hburns : burns.Pairwise fun b c => b.1 ≤ c.1)
    (samples : List HeaderSample) (hsamples : samples.Pairwise fun s s' => s.height < s'.height)
    (burned tip : ℕ) :
    List.Forall₂ (BurnPoint.Exact burns burned tip) samples (burnWalk burns burned tip samples)
      ∧ (burnWalk burns burned tip samples).Pairwise fun p q =>
        p.height < q.height ∧ p.remaining ≤ q.remaining := by
  rw [burnWalk_eq hburns hsamples]
  constructor
  · rw [List.forall₂_map_right_iff]
    refine List.forall₂_same.mpr fun s _ => ⟨rfl, ?_, burnKnown_iff⟩
    change ((burned - burnsAbove burns s.height : ℕ) : ℤ) = _
    omega
  · refine List.pairwise_map.mpr (hsamples.imp fun hlt => ⟨hlt, ?_⟩)
    exact Nat.sub_le_sub_left (burnsAbove_anti burns hlt.le) burned

/-- Two blocks on record at one height, and one between samples. -/
def someBurns : List RecordedBurn := [(512, 10), (512, 3), (900, 4)]

/-- The samples at the steps below a tip, and the tip itself. -/
def someSamples : List HeaderSample := [⟨0, 0, 0⟩, ⟨512, 0, 0⟩, ⟨1024, 0, 0⟩, ⟨1030, 0, 0⟩]

/-- Their walk from a tip between two steps. -/
theorem burnWalk_exact_recorded :
    List.Forall₂ (BurnPoint.Exact someBurns 20 1030) someSamples
        (burnWalk someBurns 20 1030 someSamples)
      ∧ (burnWalk someBurns 20 1030 someSamples).Pairwise fun p q =>
        p.height < q.height ∧ p.remaining ≤ q.remaining :=
  burnWalk_exact someBurns (by decide) someSamples (by decide) 20 1030

example : burnWalk someBurns 20 1030 someSamples
    = [⟨0, 3, false⟩, ⟨512, 16, true⟩, ⟨1024, 20, true⟩, ⟨1030, 20, true⟩] := by decide

end Permanode
