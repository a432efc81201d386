import Permanode.Indexer.Sweep

/-!
# Indexer/Headers — the header backfill

`backfill_headers`: copies the node's headers below the archive top down, each the parent of the one
above it, in batches committed together with the progress entry.
-/

namespace Permanode

open Program

/-- `HEADER_BATCH`. -/
def headerBatchSize : ℕ := 200

/-- `FINAL_DEPTH`. -/
def finalDepth : ℕ := 18

/-- Waits for the first block of the archive. -/
def archiveRounds : ℕ → Program ℕ
  | 0 => Prog.fail "cut off"
  | n + 1 => do
    match ← get Db.archiveFirstHeight with
    | some height => return height
    | none => archiveRounds n

/-- One header, asked for again `n` times at most. -/
def fetchHeader (height : ℕ) : ℕ → Program (Option BlockHeaderInfo)
  | 0 => do ofAnswer (← ask (.blockHeader height))
  | n + 1 => do
    match ← ask (.blockHeader height) with
    | .ok header => return header
    | .error _ => fetchHeader height n

/-- The headers of a batch, top down, each with the hash its child expects; and the hash the last
one expects of its parent. -/
def fetchBatch : String → List ℕ → Program (List BlockHeaderInfo × String)
  | expected, [] => return ([], expected)
  | expected, height :: heights => do
    match ← fetchHeader height 4 with
    | none =>
      -- only genesis may be missing
      if height = 0 then return ([], expected)
      else Prog.fail s!"the node has no header at #{height}"
    | some header =>
      if header.height ≠ height ∨ header.hash ≠ expected then
        Prog.fail (s!"the node's header at #{height} ({header.hash} at #{header.height}) is not "
          ++ s!"the parent of #{height + 1} on record ({expected})")
      else
        let (batch, last) ← fetchBatch header.prevHash heights
        return (header :: batch, last)

/-- The batches from `next` down, as many as the world lets through. -/
def copyBatches (reorgCheckDepth : ℕ) : ℕ → ℕ → String → Program Unit
  | 0, _, _ => Prog.fail "cut off"
  | n + 1, next, expected => do
    let tip ← tipOnceIndexerCurrent
    if tip - (max reorgCheckDepth finalDepth + 1) < next then
      copyBatches reorgCheckDepth n next expected
    else
      let low := next - (headerBatchSize - 1)
      let (batch, expected) ← fetchBatch expected (heightsUpTo low next).reverse
      let now ← ask .now
      if low = 0 then commit (.headerBatch batch "done" now)
      else
        commit (.headerBatch batch (Nat.repr (low - 1)) now)
        copyBatches reorgCheckDepth n (low - 1) expected

/-- One run of the header backfill. -/
def backfillHeaders (reorgCheckDepth : ℕ) : Program Unit := do
  let archiveFirst ← archiveRounds (← ask .rounds)
  if (← get fun db => db.getState headerBackfillKey) = some "done" then return ()
  else match (← get Db.lowestRecordedHeight).getD archiveFirst with
    | 0 => commit (.setState headerBackfillKey "done")
    | next + 1 =>
      match ← get fun db => db.canonicalLinkAt (next + 1) with
      | none => Prog.fail s!"no canonical block at #{next + 1} to start below"
      | some (_, parent) =>
        let rounds ← ask .rounds
        copyBatches reorgCheckDepth rounds next parent

/-! ## What is fetched -/

/-- What comes of fetching headers top down: each of the height asked for, and with the hash the one
above it names as its parent; only genesis may be missing. -/
inductive Fetched (noGenesis : Prop) : String → List ℕ → List BlockHeaderInfo → String → Prop
  | done (expected : String) : Fetched noGenesis expected [] [] expected
  | genesis (expected : String) (heights : List ℕ) (h : noGenesis) :
      Fetched noGenesis expected (0 :: heights) [] expected
  | header {h : BlockHeaderInfo} {heights : List ℕ} {batch : List BlockHeaderInfo} {last : String}
      (hb : Fetched noGenesis h.prevHash heights batch last) :
      Fetched noGenesis h.hash (h.height :: heights) (h :: batch) last

/-- The heights from `low` on, top down. -/
def downTo (low n : ℕ) : List ℕ := (List.range' low n).reverse

theorem downTo_succ (low n : ℕ) : downTo low (n + 1) = (low + n) :: downTo low n := by
  simp [downTo, List.range'_concat]

theorem reverse_heightsUpTo {low high : ℕ} :
    (heightsUpTo low high).reverse = downTo low (high + 1 - low) := rfl

variable {noGenesis : Prop} {expected last : String} {heights : List ℕ} {low n : ℕ}
  {batch : List BlockHeaderInfo}

/-- A batch that is cut short ends at height 1. -/
theorem Fetched.length (h : Fetched noGenesis expected (downTo low n) batch last) :
    batch.length = n ∨ noGenesis ∧ low = 0 ∧ n = batch.length + 1 := by
  induction n generalizing expected batch with
  | zero =>
    cases h
    exact Or.inl rfl
  | succ n ih =>
    rw [downTo_succ] at h
    generalize hk : low + n = k at h
    cases h with
    | genesis _ _ hno => exact Or.inr ⟨hno, by omega, by simp; omega⟩
    | header hb =>
      rcases ih hb with hlen | ⟨hno, hlow, hlen⟩
      · exact Or.inl (by simp [hlen])
      · exact Or.inr ⟨hno, hlow, by simp [hlen]⟩

/-- A batch begins at its upper end, with the header expected. -/
theorem Fetched.begins {h : BlockHeaderInfo}
    (hb : Fetched noGenesis expected (downTo low n) (h :: batch) last) :
    h.height + 1 = low + n ∧ h.hash = expected := by
  cases n with
  | zero => exact nomatch hb
  | succ n =>
    rw [downTo_succ] at hb
    generalize hk : low + n = k at hb
    cases hb
    exact ⟨by omega, rfl⟩

/-- The last header of a batch is at its lower end. -/
theorem Fetched.last_height (h : Fetched noGenesis expected (downTo low n) batch last)
    (hne : batch ≠ []) : ∃ g ∈ batch, g.height = low + n - batch.length := by
  induction n generalizing expected batch with
  | zero =>
    cases h
    exact absurd rfl hne
  | succ n ih =>
    rw [downTo_succ] at h
    generalize hk : low + n = k at h
    cases h with
    | genesis => exact absurd rfl hne
    | @header g _ batch _ hb =>
      by_cases hrest : batch = []
      · subst hrest
        exact ⟨g, List.mem_cons_self, by simp; omega⟩
      · obtain ⟨g', hg', hheight⟩ := ih hb hrest
        exact ⟨g', List.mem_cons_of_mem _ hg', by simp; omega⟩

/-- The headers are of the heights asked for, from the first on. -/
theorem Fetched.heights_prefix (h : Fetched noGenesis expected heights batch last) :
    batch.map BlockHeaderInfo.height <+: heights := by
  induction h with
  | done => exact List.prefix_rfl
  | genesis => exact List.nil_prefix
  | header _ ih => exact (List.cons_prefix_cons).mpr ⟨rfl, ih⟩

/-- **A batch goes down.** -/
theorem Fetched.descends (h : Fetched noGenesis expected (downTo low n) batch last) :
    batch.Pairwise fun a b => b.height < a.height := by
  have hdown : (downTo low n).Pairwise fun a b => b < a := by
    rw [downTo, List.pairwise_reverse]
    exact List.pairwise_lt_range'
  exact List.pairwise_map.mp (hdown.sublist h.heights_prefix.sublist)

end Permanode
