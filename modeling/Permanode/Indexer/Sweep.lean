import Permanode.Indexer.Poll

/-!
# Indexer/Sweep — the live-state sweep

`scan_live_state` and what it calls: compare the node's count of live slots per segment with the
picture at a height the indexer has processed, read the segments that differ slot by slot, commit
each, derive the balances, and compare once more.  A loop that waits goes round as often as the
world lets it (`Query.rounds`).
-/

namespace Permanode

open Program

/-! ## Waiting for the indexer -/

/-- Waits until the indexer has processed `height`, or fails. -/
def waitRounds (height : ℕ) : ℕ → Program Unit
  | 0 => do
    if height ≤ (← get Db.processedHeight) then return ()
    else Prog.fail "the indexer is behind the node, sweep postponed"
  | n + 1 => do
    if height ≤ (← get Db.processedHeight) then return ()
    else waitRounds height n

/-- Waits until the indexer has passed a height. -/
def waitForIndexer (height : ℕ) : Program Unit := do
  let rounds ← ask .rounds
  waitRounds height rounds

/-- The node's tip, as soon as the indexer is at most one block behind it. -/
def tipRounds : ℕ → Program ℕ
  | 0 => Prog.fail "cut off"
  | n + 1 => do
    let tip ← ofAnswer (← ask .blockCount)
    if tip ≤ (← get Db.processedHeight) + 1 then return tip
    else tipRounds n

/-- The node's tip, read when the indexer has caught up with it. -/
def tipOnceIndexerCurrent : Program ℕ := do
  let rounds ← ask .rounds
  tipRounds rounds

/-! ## The node's map -/

/-- The tip and the map, read back to back, `n` times at most. -/
def stateMapRounds : ℕ → Program (ℕ × StateMapInfo)
  | 0 => Prog.fail "the chain kept moving while reading the state map"
  | n + 1 => do
    let tip ← ofAnswer (← ask .blockCount)
    waitForIndexer tip
    let map ← ofAnswer (← ask .stateMap)
    let after ← ofAnswer (← ask .blockCount)
    if after = tip then return (tip, map)
    else stateMapRounds n

/-- The node's state map at a height the indexer has fully processed. -/
def consistentStateMap : Program (ℕ × StateMapInfo) := stateMapRounds 10

namespace Db

/-- How many segments there are to compare. -/
def segmentCount (db : Db) (map : StateMapInfo) (height : ℕ) : ℕ :=
  max map.liveCounts.length
    (((db.liveSegments height map.bucketCapacity).max?.map fun m => (m + 1).toNat).getD 0)

/-- The node's count of a segment. -/
def nodeCount (map : StateMapInfo) (segment : ℕ) : ℕ := (map.liveCounts[segment]?.getD 0).toNat

/-- The segments whose count in the node's map differs from the picture's. -/
def differingSegments (db : Db) (map : StateMapInfo) (height : ℕ) :
    Except String (List UInt64) :=
  if map.bucketCapacity = 0 ∧ db.unspentOutputs height ≠ [] then
    .error "Invalid column type Null at index: 0, name: seg"
  else .ok (((List.range (db.segmentCount map height)).filter fun segment =>
    nodeCount map segment
      ≠ db.liveCountPerSegment height map.bucketCapacity (UInt64.ofNat segment)).map UInt64.ofNat)

end Db

/-! ## Reading a segment -/

/-- The slots of a range. -/
def SlotRange.indices (slots : SlotRange) : List UInt64 :=
  (List.range (slots.stop.toNat - slots.start.toNat)).map fun k => slots.start + UInt64.ofNat k

/-- The slots of a segment. -/
def segmentSlots (segment size : UInt64) : SlotRange := ⟨segment * size, (segment + 1) * size⟩

/-- One slot, asked for again `n` times at most. -/
def fetchSlot (index : UInt64) : ℕ → Program SlotInfo
  | 0 => do ofAnswer (← ask (.slot index))
  | n + 1 => do
    match ← ask (.slot index) with
    | .ok slot => return slot
    | .error _ => fetchSlot index n

/-- One step of a read: the live slots so far and the next slot. -/
def readSlot (live : List StateSlot) (index : UInt64) : Program (List StateSlot) := do
  if index % 2048 = 0 then
    let _ ← tipOnceIndexerCurrent
  let slot ← fetchSlot index 4
  if slot.empty then return live
  else return live ++ [⟨index, Nat.repr slot.creationId.toNat, slot.owner, slot.value⟩]

/-- The live slots of a range, read one by one. -/
def readSegment (slots : SlotRange) : Program (List StateSlot) :=
  Prog.foldEach readSlot [] slots.indices

/-! ## The sweep -/

/-- One differing segment: read completely, then committed. -/
def sweepOne (size segment : UInt64) : Program Unit := do
  let startHeight ← ofAnswer (← ask .blockCount)
  let slots := segmentSlots segment size
  let live ← readSegment slots
  let now ← ask .now
  commit (.sweepSegment segment slots live startHeight now)

/-- Commits the balances and returns them. -/
def commitBalances (now : Instant) : Program (List (String × (BitVec 128 × ℕ))) :=
  Prog.commit (.sweepBalances now) fun db _ =>
    return db.clearSpentInGapWithRecordedSpend.liveBalances

/-- Sets the cached balance of every address outside the picture to zero. -/
def zeroBalances (keep : List String) (now : Instant) : Program Unit := do
  let stale ← get fun db => db.staleAddresses keep
  Prog.each (fun address => commit (.upsertBalances [(address, "0", 0)] now)) stale

/-- One sweep: the number of addresses that hold anything, and the segments that still differ. -/
def scanLiveState : Program (ℕ × List UInt64) := do
  let (height, map) ← consistentStateMap
  let differing ← ofAnswer (← get fun db => db.differingSegments map height)
  Prog.each (sweepOne map.bucketCapacity) differing
  let now ← ask .now
  let balances ← commitBalances now
  let (checkHeight, checkMap) ← consistentStateMap
  let still ← ofAnswer (← get fun db => db.differingSegments checkMap checkHeight)
  if still = [] then zeroBalances (balances.map Prod.fst) now
  return (balances.length, still)

end Permanode
