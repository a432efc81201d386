import Permanode.Archive.Raw

/-!
# Indexer/Store — writing a block

The writers of `permanode/src/indexer.rs`, each a part of one transaction: a header's row with its
status entry, the rows of a body, a block with its body (`storeBlock`), a block without
(`recordGapBlock`), and what is kept with it (contract calls, raw bytes).
-/

namespace Permanode

open Outcome

/-- The keys of the configuration the modelled programs read, with their defaults. -/
structure Config where
  reorgCheckDepth : ℕ := 30
  retentionDays : ℕ := 0
  getblockFallback : Bool := true
  decoderSelfcheck : Bool := true
  archiveRawBlocks : Bool := true
  deriving Repr

/-- `V2_ACTIVATION_HEIGHT`. -/
def v2ActivationHeight : ℕ := 210537

/-- Whether a height is from the fork on. -/
def v2Active (height : ℕ) : Bool := v2ActivationHeight ≤ height

/-- What `query_row` says when there is no row. -/
def noRowsError : String := "Query returned no rows"

namespace Db

/-! ## The row of a header -/

/-- The row of `h` (the one on record if there is one) and a canonical entry for it. -/
def insertBlockHeaderRow (db : Db) (h : BlockHeaderInfo) (bodyCaptured : Bool)
    (bodySource : Option String) (now : Instant) : Except String (Db × ℕ) := do
  let db := { db with
    blocks := db.blocks.insertOrIgnore
      (headerRow (db.blocks.nextId BlockRow.id) h bodyCaptured bodySource now) }
  let id ← orError noRowsError (db.blockId h.height h.hash)
  return (db.appendStatus id .canonical now, id)

/-! ## The rows of a body -/

/-- The proof class a body leaves on a block: a known one is not replaced with "unavailable". -/
def mergeProofClass (known : Option String) (class_ : String) : String :=
  if likeUnavailable class_ then known.getD class_ else class_

/-- The columns of a block that its body fills in. -/
def setBodyFields (db : Db) (blockId : ℕ) (retained : RetainedBlockInfo) : Db :=
  db.updateBlocks (fun b => b.id = blockId)
    (fun b => { b with
      proofClass := some (mergeProofClass b.proofClass retained.proofClass)
      rewardMicronoid := some retained.rewardMicronoid.toInt64
      totalFeesMicronoid := some retained.totalFeesMicronoid })
    fun _ _ => rfl

/-- The row of a transaction of a body. -/
def transactionRow (id blockId : ℕ) (tx : BlockTransactionInfo) : TransactionRow where
  id := id
  blockId := blockId
  position := tx.position.toNat
  txid := tx.txid
  pageCount := tx.pageCount.toNat
  feeMicronoid := tx.feeMicronoid.toInt64
  coinbase := tx.coinbase
  developmentPayout := tx.developmentPayout
  epochAnchor := tx.epochAnchor
  inputOwner := tx.inputOwner
  inputSumMicronoid := tx.inputSumMicronoid
  outputSumMicronoid := tx.outputSumMicronoid
  contractFlags := 0
  source := none

/-- The id of the transaction at a position of a block. -/
def transactionId (db : Db) (blockId position : ℕ) : Option ℕ :=
  (db.transactions.rows.find? fun t => t.blockId = blockId ∧ t.position = position).map
    TransactionRow.id

/-- The inputs of a transaction, in order. -/
def insertInputs (db : Db) (txId : ℕ) (inputs : List BlockTransactionInputInfo) : Db :=
  { db with
    txInputs := Table.insertEach (fun _ idx (i : BlockTransactionInputInfo) =>
      inputRow txId idx i.page i.lane i.slotIndex i.amountMicronoid i.creationId) 0 inputs
      db.txInputs }

/-- The outputs of a transaction, in order, under row ids of their own. -/
def insertOutputs (db : Db) (txId : ℕ) (outputs : List BlockTransactionOutputInfo) : Db :=
  { db with
    txOutputs := Table.insertEach (fun t idx (o : BlockTransactionOutputInfo) =>
      outputRow (t.nextId OutputRow.rowid) txId idx o.page o.lane o.slotIndex o.amountMicronoid
        o.owner (some o.creationId)) 0 outputs db.txOutputs }

/-- One transaction of a body with its page hashes, inputs and outputs. -/
def insertTransaction (blockId : ℕ) (db : Db) (tx : BlockTransactionInfo) : Except String Db := do
  let db := { db with
    transactions := db.transactions.insertOrIgnore
      (transactionRow (db.transactions.nextId TransactionRow.id) blockId tx) }
  let txId ← orError noRowsError (db.transactionId blockId tx.position.toNat)
  return ((db.insertPageHashes txId tx.pageHashes).insertInputs txId tx.inputs).insertOutputs txId
    tx.outputs

/-- `insert_transactions`: a body goes to its block, transaction by transaction. -/
def insertTransactions (db : Db) (blockId : ℕ) (retained : RetainedBlockInfo) :
    Except String Db := do
  bailIf (retained.transactions ≠ [] ∧ (db.block? blockId).isNone) foreignKeyError
  retained.transactions.foldlM (insertTransaction blockId) (db.setBodyFields blockId retained)

/-! ## A block -/

/-- Whether the canonical block on record at the height of `h` is `h` itself. -/
def isOnRecord (db : Db) (h : BlockHeaderInfo) : Bool :=
  (db.canonicalHashAt h.height).any fun known => known.2 = h.hash

/-- Stores a block whose body is there: a new block, or the body of one recorded without. -/
def storeBlock (db : Db) (details : BlockDetailsInfo) (bodySource : String) (now : Instant) :
    Except String Db := do
  let retained ← orError "store_block called without a retained body - caller bug" details.retained
  let h := details.header
  if db.isOnRecord h then
    match db.uncapturedBlockId h.height h.hash with
    | none => return db
    | some id =>
      let db ← db.insertTransactions id retained
      return (db.markBodyRecovered id bodySource).resolveGap h.height now
        s!"recovered via {bodySource}"
  else
    let (db, id) ← db.insertBlockHeaderRow h true (some bodySource) now
    db.insertTransactions id retained

/-- Records a block without a body, and the gap. -/
def recordGapBlock (db : Db) (details : BlockDetailsInfo) (note : String) (now : Instant) :
    Except String Db :=
  let h := details.header
  if db.isOnRecord h then return db.recordGap h.height (some h.hash) now note
  else do
    let (db, _) ← db.insertBlockHeaderRow h false none now
    return db.recordGap h.height (some h.hash) now note

/-! ## What is kept with a block -/

variable (N : Noid)

/-- Stores the contract calls of a v2 block; bytes that are missing or do not decode leave it
unscanned. -/
def recordContractFlags (db : Db) (height : ℕ) (hash : String) (raw : Option (List UInt8)) : Db :=
  if v2Active height then
    match raw with
    | none => db
    | some bytes =>
      match contractFlags N bytes height hash with
      | .ok flags => db.setContractFlags height hash flags
      | .error _ => db
  else db

/-- Keeps a block's raw bytes; bytes that are not the block are left out. -/
def keepRaw (cfg : Config) (db : Db) (height : ℕ) (hash : String) (bytes : Option (List UInt8))
    (source : String) (now : Instant) : Db :=
  if cfg.archiveRawBlocks then
    match bytes with
    | none => db
    | some bytes =>
      match db.storeRaw N height hash bytes source now with
      | .ok (db, _) => db
      | .error _ => db
  else db

end Db

end Permanode
