import Permanode.Indexer.Transactions

/-!
# Indexer/Poll — the indexer's loop

`permanode/src/indexer.rs`, first half: one poll of the node records new heights (`ingestHeight`),
re-checks a trailing window for reorgs (`recheckHeight`), retries open gaps (`backfillGap`) and
fetches raw bytes again; around it stand the jobs that run between polls.
-/

namespace Permanode

open Program

/-- `GETBLOCK_SERVING_WINDOW`. -/
def getblockServingWindow : ℕ := 42

/-- The `last_processed_height` entry. -/
def lastProcessedKey : String := "last_processed_height"

namespace Db

/-- The stored progress of the indexer, if the entry is there and parses. -/
def lastProcessed (db : Db) : Option ℕ :=
  ((db.getState lastProcessedKey).bind Text.parseU64).map UInt64.toNat

/-- `processed_height`. -/
def processedHeight (db : Db) : ℕ := db.lastProcessed.getD 0

/-- The count of decoder mismatches. -/
def decoderMismatches (db : Db) : ℕ :=
  (((db.getState "decoder_mismatches").bind Text.parseU64).map UInt64.toNat).getD 0

end Db

variable (N : Noid) (cfg : Config)

/-! ## Bodies -/

/-- What came of the `getBlock` fallback. -/
inductive FallbackOutcome
  | recovered (retained : RetainedBlockInfo) (raw : List UInt8)
  | noBody
  | decodeFailed (error : String)

/-- The body of a height from the node's raw bytes, if it still has them. -/
def tryGetblockFallback (height : ℕ) (expectedHash : String) : Program FallbackOutcome := do
  match ← ask (.block height) with
  | .error _ => return .noBody
  | .ok none => return .noBody
  | .ok (some raw) =>
    match decodeRetainedBlock N raw height expectedHash with
    | .ok retained => return .recovered retained raw
    | .error e => return .decodeFailed e

/-- Raw bytes of a height, `none` if the node has none or the call failed. -/
def fetchRaw (height : ℕ) : Program (Option (List UInt8)) := do
  match ← ask (.block height) with
  | .error _ => return none
  | .ok bytes => return bytes

/-- A height's body: from the details, else through the fallback. -/
def resolveBody (details : BlockDetailsInfo) (missingNote : String) : Program BodyOutcome :=
  if details.retained.isSome then return .store details "details" none
  else if cfg.getblockFallback then do
    match ← tryGetblockFallback N details.header.height details.header.hash with
    | .recovered retained raw =>
      return .store { details with retained := some retained } "getblock" (some raw)
    | .noBody =>
      return .gap details "no body via getBlockDetails nor getBlock (outside serving window)"
    | .decodeFailed e => return .gap details s!"getBlock body could not be decoded: {e}"
  else return .gap details missingNote

/-- The bytes at hand, or fetched if they are wanted. -/
def rawOrFetch (raw : Option (List UInt8)) (wanted : Bool) (height : ℕ) :
    Program (Option (List UInt8)) :=
  match raw with
  | some raw => return some raw
  | none => if wanted then fetchRaw height else return none

/-- A body as the self-check compares it: the proof class of a v2 block is not part of it. -/
def comparable (height : ℕ) (body : RetainedBlockInfo) : RetainedBlockInfo :=
  if v2Active height then { body with proofClass := "" } else body

/-- Decodes the bytes of a block whose details came in full, and counts a mismatch. -/
def selfcheck (height : ℕ) (details : BlockDetailsInfo) (raw : List UInt8) : Program Unit :=
  match decodeRetainedBlock N raw height details.header.hash with
  | .error _ => return ()
  | .ok decoded =>
    if details.retained.map (comparable height) = some (comparable height decoded) then return ()
    else do
      let current ← get Db.decoderMismatches
      commit (.setState "decoder_mismatches" (Nat.repr (current + 1)))

/-! ## Ingest -/

/-- Records `height` as a block or a gap block; `false` if the node has no header for it. -/
def ingestHeight (height : ℕ) : Program Bool := do
  match ← ask (.blockDetails height) with
  | .error e => Prog.fail e
  | .ok none => return false
  | .ok (some details) =>
    match ← resolveBody N cfg details "body already pruned by node on first ingest attempt" with
    | .store details source raw =>
      let raw ← rawOrFetch raw (cfg.decoderSelfcheck || cfg.archiveRawBlocks || v2Active height)
        height
      let now ← ask .now
      commit (.ingest height details source raw now)
      match raw with
      | some raw =>
        if source ≠ "getblock" ∧ cfg.decoderSelfcheck then selfcheck N height details raw
      | none => pure ()
      return true
    | .gap details note =>
      let now ← ask .now
      commit (.gapBlock details note now)
      return true

/-- The ingest loop of a poll: a height the node has no header for stops it. -/
def ingestHeights : List ℕ → Program Unit
  | [] => return ()
  | height :: heights => do
    if ← ingestHeight N cfg height then
      commit (.setState lastProcessedKey (Nat.repr height))
      ingestHeights heights
    else return ()

/-- Probes downwards while the node serves bodies; `start` is the lowest height served so far. -/
def probeBodies (start : ℕ) : List ℕ → Program ℕ
  | [] => return start
  | height :: heights => do
    match ← ask (.block height) with
    | .ok (some _) => probeBodies height heights
    | _ => return start

/-- The heights `low..=high`, ascending. -/
def heightsUpTo (low high : ℕ) : List ℕ := List.range' low (high + 1 - low)

/-- Where a fresh database begins: the oldest height the node still serves a body for. -/
def firstStartHeight (tip : ℕ) : Program ℕ :=
  probeBodies tip (heightsUpTo (tip - getblockServingWindow) tip).reverse

/-! ## Reorgs -/

/-- The replacement of a block that is no longer canonical, fetched before the database is
touched. -/
def fetchReplacement (height : ℕ) : Program (Option BodyOutcome) := do
  match ← ask (.blockDetails height) with
  | .error e => Prog.fail e
  | .ok none => return none
  | .ok (some details) => some <$> resolveBody N cfg details Db.reorgNote

/-- The replacement with the raw bytes the transaction fetches. -/
def withRaw (height : ℕ) : Option BodyOutcome → Program (Option BodyOutcome)
  | some (.store details source raw) => do
    let raw ← rawOrFetch raw (cfg.archiveRawBlocks || v2Active height) height
    return some (.store details source raw)
  | other => return other

/-- `recheck_height`: replaces what is on record at a height where the node has another block. -/
def recheckHeight (height : ℕ) : Program Unit := do
  match ← ask (.blockHeader height) with
  | .error e => Prog.fail e
  | .ok none => return ()
  | .ok (some header) =>
    let now ← ask .now
    match ← get fun db => db.canonicalHashAt height with
    | none => return ()
    | some (blockId, knownHash) =>
      if knownHash = header.hash then return ()
      else if ← get fun db => db.isHeaderOnly blockId then return ()
      else
        let replacement ← fetchReplacement N cfg height
        let replacement ← withRaw cfg height replacement
        let later ← ask .now
        commit (.replace height blockId now header.hash replacement later)

/-! ## Gaps and raw bytes -/

/-- Retries a gap inside the serving window. -/
def backfillGap (height : ℕ) : Program Unit := do
  match ← get fun db => db.canonicalHashAt height with
  | none => return ()
  | some (_, hash) =>
    match ← get fun db => db.uncapturedBlockId height hash with
    | none => return ()
    | some blockId =>
      match ← tryGetblockFallback N height hash with
      | .recovered retained raw =>
        let now ← ask .now
        commit (.recover height hash blockId retained raw now)
      | .noBody => return ()
      | .decodeFailed _ => return ()

/-- Fetches the raw bytes of a recorded block again. -/
def refetchRaw (block : ℕ × String) : Program Unit := do
  match ← fetchRaw block.1 with
  | none => return ()
  | some bytes =>
    let now ← ask .now
    commit (.keepRaw block.1 block.2 bytes now)

/-! ## A poll -/

/-- The heights a poll ingests: those above the stored progress, or from the start of a fresh
database. -/
def heightsToIngest (tip : ℕ) : Program (List ℕ) := do
  match ← get Db.lastProcessed with
  | some last => return heightsUpTo (last + 1) tip
  | none =>
    let start ← firstStartHeight tip
    return heightsUpTo (start - 1 + 1) tip

/-- Tries the open gaps the node may still serve. -/
def retryGaps (tip : ℕ) : Program Unit :=
  if cfg.getblockFallback then do
    let gaps ← get fun db => db.openGapHeights (tip - getblockServingWindow)
    Prog.each (backfillGap N) gaps
  else return ()

/-- Fetches raw bytes the node may still serve. -/
def retryRaw (tip : ℕ) : Program Unit :=
  if cfg.archiveRawBlocks then do
    let missing ← get fun db =>
      db.blocksMissingRaw (tip - getblockServingWindow) tip (getblockServingWindow + 1)
    Prog.each refetchRaw missing
  else return ()

/-- One poll of the node. -/
def pollOnce : Program Unit := do
  let tip ← ofAnswer (← ask .blockCount)
  let heights ← heightsToIngest tip
  ingestHeights N cfg heights
  Prog.each (recheckHeight N cfg) (heightsUpTo (tip - cfg.reorgCheckDepth) tip)
  retryGaps N cfg tip
  retryRaw cfg tip

/-! ## Around a poll -/

/-- The first thing a start of the process does. -/
def startup : Program Unit := do
  let now ← ask .now
  commit (.resolveGapsWithBodies now)

/-- Writes the watcher's sightings onto the blocks on record. -/
def noteSightings : Program Unit := do
  let sightings ← ask .sightings
  Prog.each (fun s => commit (.setTipSeen s.1 s.2.1 s.2.2)) sightings

/-- `prune_older_than`, with the cutoff of the retention time. -/
def prune : Program Unit := do
  let unix ← ask .unixTime
  let blocks ← get fun db => db.pruneCandidates (unix - cfg.retentionDays * 86400)
  Prog.each (fun id => commit (.pruneBlock id)) blocks

/-- One address of the balance refresh: its live slots, or nothing if the call failed. -/
def fetchBalance (rows : List (String × String × ℕ)) (address : String) :
    Program (List (String × String × ℕ)) := do
  match ← ask (.slotsByOwner address) with
  | .error _ => return rows
  | .ok slots =>
    let live := slots.filter fun s => ¬ s.empty
    let balance := (live.map fun s => s.value.toNat).sum
    return rows ++ [(address, Nat.repr balance, live.length)]

/-- Asks the node for the balance of every known address, and commits them together. -/
def refreshKnownAddressBalances : Program Unit := do
  let addresses ← get Db.knownAddresses
  let now ← ask .now
  let rows ← Prog.foldEach fetchBalance [] addresses
  commit (.upsertBalances rows now)

end Permanode
