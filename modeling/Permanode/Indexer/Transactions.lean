import Permanode.Core.LiveState
import Permanode.Foundations.Program
import Permanode.Indexer.Store

/-!
# Indexer/Transactions — every write of the process

The process changes its database in transactions, each all or nothing.  `Txn` has one constructor
for each the source commits, with what the code had decided by then, and `Txn.exec` is its effect; a
statement that fails rolls the transaction back.  The programs that issue them follow in
`Indexer/Poll`, `Indexer/Sweep`, `Indexer/Headers` and `Import/Fill`.

`Utc::now()` read more than once inside one transaction is one reading here.
-/

namespace Permanode

open Outcome

/-- What a height is to be written as, decided before any write. -/
inductive BodyOutcome
  | store (details : BlockDetailsInfo) (source : String) (raw : Option (List UInt8))
  | gap (details : BlockDetailsInfo) (note : String)

/-- What another permanode hands over for a block. -/
inductive Offer
  | raw (bytes : List UInt8)
  | body (body : RetainedBlockInfo)

/-- The transactions of the process. -/
inductive Txn
  /-- a progress entry -/
  | setState (key value : String)
  /-- `ingest_height`, with a body -/
  | ingest (height : ℕ) (details : BlockDetailsInfo) (source : String) (raw : Option (List UInt8))
    (now : Instant)
  /-- `ingest_height`, without a body -/
  | gapBlock (details : BlockDetailsInfo) (note : String) (now : Instant)
  /-- `recheck_height`: the block on record makes way for its replacement -/
  | replace (height oldBlockId : ℕ) (orphanedAt : Instant) (headerHash : String)
    (replacement : Option BodyOutcome) (now : Instant)
  /-- `backfill_gap` -/
  | recover (height : ℕ) (hash : String) (blockId : ℕ) (retained : RetainedBlockInfo)
    (raw : List UInt8) (now : Instant)
  /-- `poll_once`: raw bytes fetched again -/
  | keepRaw (height : ℕ) (hash : String) (bytes : List UInt8) (now : Instant)
  /-- `fill_gaps` -/
  | fillGap (height : ℕ) (hash : String) (blockId : ℕ) (body : RetainedBlockInfo)
    (bytes : Option (List UInt8)) (bodySource resolution : String) (keepRaw : Bool) (now : Instant)
  /-- `fill_raw` -/
  | fillRaw (height : ℕ) (hash : String) (bytes : List UInt8) (source : String) (now : Instant)
  | clearSpentInGap
  | resolveGapsWithBodies (now : Instant)
  /-- one block of `prune_older_than` -/
  | pruneBlock (blockId : ℕ)
  | setTipSeen (height : ℕ) (hash : String) (atMs : ℤ)
  | adoptTipSeen (height : ℕ) (hash : String) (atMs : ℤ)
  | adoptProofClass (height : ℕ) (hash class_ : String)
  /-- `scan_live_state`: a segment read completely -/
  | sweepSegment (segment : UInt64) (slots : SlotRange) (live : List StateSlot) (startHeight : ℕ)
    (now : Instant)
  /-- `scan_live_state`: the balances after the last segment -/
  | sweepBalances (now : Instant)
  /-- rows of the balance cache: address, balance, count -/
  | upsertBalances (rows : List (String × String × ℕ)) (now : Instant)
  /-- `backfill_headers`: one batch with its progress entry -/
  | headerBatch (batch : List BlockHeaderInfo) (progress : String) (now : Instant)
  /-- `import_one` -/
  | receipt (blockId : ℕ) (tx : ReceiptTransaction) (now : Instant)

/-- `HEADER_BACKFILL_KEY`. -/
def headerBackfillKey : String := "header_backfill_next"

namespace Db

variable (N : Noid) (cfg : Config)

/-- A block with its body, contract calls and raw bytes. -/
def storeKept (db : Db) (height : ℕ) (details : BlockDetailsInfo) (source : String)
    (raw : Option (List UInt8)) (now : Instant) : Except String Db := do
  let db ← db.storeBlock details source now
  let db := db.recordContractFlags N height details.header.hash raw
  return db.keepRaw N cfg height details.header.hash raw "node" now

/-- `recheck_height` says this of a replacement it has no body for. -/
def reorgNote : String := "reorg: new canonical body already unavailable at recheck time"

/-- The transaction of a reorg: the orphan mark, and the replacement or its gap. -/
def replaceBlock (db : Db) (height oldBlockId : ℕ) (orphanedAt : Instant) (headerHash : String)
    (replacement : Option BodyOutcome) (now : Instant) : Except String Db := do
  let db ← db.markOrphaned oldBlockId orphanedAt
  match replacement with
  | some (.store details source raw) => db.storeKept N cfg height details source raw now
  | some (.gap details note) => db.recordGapBlock details note now
  | none => return db.recordGap height (some headerHash) orphanedAt reorgNote

/-- `backfill_gap`'s transaction. -/
def recoverBody (db : Db) (height : ℕ) (hash : String) (blockId : ℕ) (retained : RetainedBlockInfo)
    (raw : List UInt8) (now : Instant) : Except String Db := do
  let db ← db.insertTransactions blockId retained
  let db := db.markBodyRecovered blockId "getblock"
  let db := db.recordContractFlags N height hash (some raw)
  let db := db.keepRaw N cfg height hash (some raw) "node" now
  return db.resolveGap height now "recovered via getBlock"

/-- `fill_gaps`' transaction. -/
def fillBody (db : Db) (height : ℕ) (hash : String) (blockId : ℕ) (body : RetainedBlockInfo)
    (bytes : Option (List UInt8)) (bodySource resolution : String) (keep : Bool) (now : Instant) :
    Except String Db := do
  let db ← db.insertTransactions blockId body
  let db := db.markBodyRecovered blockId bodySource
  let db ← match bytes with
    | none => pure db
    | some bytes =>
      let db := db.recordContractFlags N height hash (some bytes)
      if keep then Prod.fst <$> db.storeRaw N height hash bytes bodySource now else pure db
  return db.resolveGap height now resolution

/-- One segment of the sweep: what is recorded there is told from what is foreign, and recorded
outputs the node no longer has are flagged. -/
def sweepSegment (db : Db) (segment : UInt64) (slots : SlotRange) (live : List StateSlot)
    (startHeight : ℕ) (now : Instant) : Db :=
  let recorded := db.recordedCreationIds slots
  let foreign := live.filter fun s => s.creationId ∉ recorded
  let liveIds := live.map StateSlot.creationId
  let db := (db.replaceStateSlots segment foreign startHeight now).unmarkLiveOutputs slots liveIds
  let gone := (db.unspentRecordedOutputs startHeight slots).filter fun o =>
    ¬ o.creationId.any (· ∈ liveIds)
  db.markSpentInGap (gone.map OutputRow.rowid) now

/-- The cached balances of a list of addresses. -/
def upsertBalances (db : Db) (rows : List (String × String × ℕ)) (now : Instant) : Db :=
  rows.foldl (fun db r => db.upsertAddressBalanceCache r.1 r.2.1 r.2.2 now) db

/-- The balances of the picture as rows of the cache. -/
def balanceRows (db : Db) : List (String × String × ℕ) :=
  db.liveBalances.map fun r => (r.1, Nat.repr r.2.1.toNat, r.2.2)

/-- The balances the picture adds up to; the progress of the slot scan is dropped. -/
def sweepBalances (db : Db) (now : Instant) : Db :=
  let db := db.clearSpentInGapWithRecordedSpend
  let db := db.upsertBalances db.balanceRows now
  { db with
    indexerState := db.indexerState.delete fun r =>
      r.key = "slot_scan_low" ∨ r.key = "slot_scan_high" }

/-- The headers of a batch, one after the other. -/
def insertHeaders (now : Instant) (db : Db) (batch : List BlockHeaderInfo) : Except String Db :=
  batch.foldlM (fun db h => Prod.fst <$> db.insertHeaderOnlyBlock h now) db

end Db

/-- **The effect of a transaction**, or the error that rolls it back. -/
def Txn.exec (N : Noid) (cfg : Config) : Txn → Db → Except String Db
  | .setState key value, db => .ok (db.setState key value)
  | .ingest height details source raw now, db =>
    db.storeKept N cfg height details source raw now
  | .gapBlock details note now, db => db.recordGapBlock details note now
  | .replace height oldBlockId orphanedAt headerHash replacement now, db =>
    db.replaceBlock N cfg height oldBlockId orphanedAt headerHash replacement now
  | .recover height hash blockId retained raw now, db =>
    db.recoverBody N cfg height hash blockId retained raw now
  | .keepRaw height hash bytes now, db =>
    .ok (db.keepRaw N cfg height hash (some bytes) "node" now)
  | .fillGap height hash blockId body bytes bodySource resolution keep now, db =>
    db.fillBody N height hash blockId body bytes bodySource resolution keep now
  | .fillRaw height hash bytes source now, db =>
    Prod.fst <$> db.storeRaw N height hash bytes source now
  | .clearSpentInGap, db => .ok db.clearSpentInGapWithRecordedSpend
  | .resolveGapsWithBodies now, db => .ok (db.resolveGapsWithBodies now)
  | .pruneBlock blockId, db => db.pruneBlock blockId
  | .setTipSeen height hash atMs, db => .ok (db.setTipSeen height hash atMs).1
  | .adoptTipSeen height hash atMs, db => .ok (db.adoptTipSeen height hash atMs)
  | .adoptProofClass height hash class_, db => .ok (db.adoptProofClass height hash class_)
  | .sweepSegment segment slots live startHeight now, db =>
    .ok (db.sweepSegment segment slots live startHeight now)
  | .sweepBalances now, db => .ok (db.sweepBalances now)
  | .upsertBalances rows now, db => .ok (db.upsertBalances rows now)
  | .headerBatch batch progress now, db =>
    (Db.insertHeaders now db batch).map fun db => db.setState headerBackfillKey progress
  | .receipt blockId tx now, db =>
    -- a refused receipt is reported, not an error of the run
    match db.insertReceiptTransaction blockId tx now with
    | .ok (db, _) => .ok db
    | .error _ => .ok db

/-! ## The world -/

/-- What the process asks of the node, other permanodes, the clock and the operator. -/
inductive Query
  | blockCount
  | blockHeader (height : ℕ)
  | blockDetails (height : ℕ)
  | block (height : ℕ)
  | stateMap
  | slot (index : UInt64)
  | slotsByOwner (address : String)
  /-- the clock, for `Utc::now().to_rfc3339()` -/
  | now
  /-- the clock, in unix seconds -/
  | unixTime
  /-- how often a loop that waits goes round before it gives up or is cut off -/
  | rounds
  /-- what another permanode offers for a gap -/
  | offer (height : ℕ) (hash : String)
  /-- the raw bytes another permanode offers for a block -/
  | rawOffer (height : ℕ) (hash : String)
  /-- the lowest height a peer kept raw bytes for -/
  | peerRawFrom
  /-- arrival times and proof classes as peers report them -/
  | peerSeen
  | peerProof
  /-- what the tip watcher has seen -/
  | sightings

/-- The type of an answer; what can fail in transit is an `Except`. -/
abbrev Query.Answer : Query → Type
  | .blockCount => Except String ℕ
  | .blockHeader _ => Except String (Option BlockHeaderInfo)
  | .blockDetails _ => Except String (Option BlockDetailsInfo)
  | .block _ => Except String (Option (List UInt8))
  | .stateMap => Except String StateMapInfo
  | .slot _ => Except String SlotInfo
  | .slotsByOwner _ => Except String (List SlotInfo)
  | .now => Instant
  | .unixTime => ℤ
  | .rounds => ℕ
  | .offer _ _ => Except String (Option Offer)
  | .rawOffer _ _ => Except String (Option (List UInt8))
  | .peerRawFrom => Option ℕ
  | .peerSeen => Except String (List (ℕ × String × ℤ))
  | .peerProof => Except String (List (ℕ × String × String))
  | .sightings => List (ℕ × String × ℤ)

/-- A program of the process. -/
abbrev Program : Type → Type := Prog Query Query.Answer Db Txn String

namespace Program

/-- Ask, and go on. -/
def ask (q : Query) : Program q.Answer := Prog.send q

/-- Fail on an error (`?`). -/
def ofAnswer {α : Type} (r : Except String α) : Program α := Prog.ofExcept r

/-- Read the database. -/
def get {α : Type} (f : Db → α) : Program α := Prog.query f

/-- Commit a transaction. -/
def commit (t : Txn) : Program Unit := Prog.transact t

end Program

end Permanode
