import Mathlib.Data.List.Dedup
import Mathlib.Data.List.Infix
import Mathlib.Data.List.Sort
import Permanode.Core.Schema
import Permanode.Foundations.Outcome

/-!
# Core/Db — reads and writes of the database

The functions of `core/src/db.rs` on blocks, their status log, gaps, raw bytes, bodies and progress
entries, each as one function of the database.  A statement that SQLite refuses (a foreign key, an
error of the function's own) is an `Except`.

Two readings of "canonical" stand side by side, as in the source: `isCanonical` takes the last entry
of a block's log, `canonicalHashAt` the entries of its latest moment.
-/

namespace Permanode

/-- `HEADER_ONLY_SOURCE`. -/
def headerOnlySource : String := "header"

/-- `RECEIPT_SOURCE`. -/
def receiptSource : String := "receipt"

/-- `ARCHIVED`: the row is not a header-only one. -/
def BlockRow.archived (b : BlockRow) : Bool := b.bodySource ≠ some headerOnlySource

/-- `RECORDED`: the transaction came from a block body. -/
def TransactionRow.recorded (t : TransactionRow) : Bool := t.source ≠ some receiptSource

/-- `LIKE '%unavailable%'`, which takes no account of case. -/
def likeUnavailable (s : String) : Bool :=
  decide ("unavailable".toList <:+: s.toList.map Char.toLower)

/-- What SQLite says of a row that refers to a row that is not there. -/
def foreignKeyError : String := "FOREIGN KEY constraint failed"

/-- What SQLite says of a plain `INSERT` whose row clashes in these columns. -/
def uniqueError (columns : String) : String := "UNIQUE constraint failed: " ++ columns

namespace Db

/-! ## Progress entries -/

/-- A progress entry. -/
def getState (db : Db) (key : String) : Option String :=
  (db.indexerState.rows.find? fun r => r.key = key).map StateRow.value

/-- Sets a progress entry, over the one of its key. -/
def setState (db : Db) (key value : String) : Db :=
  { db with indexerState := db.indexerState.upsert ⟨key, value⟩ }

/-! ## Blocks -/

/-- The block row of an id. -/
def block? (db : Db) (id : ℕ) : Option BlockRow := db.blocks.rows.find? fun b => b.id = id

/-- A row that is looked up is in the table and has the id. -/
theorem mem_of_block? {db : Db} {id : ℕ} {b : BlockRow} (h : db.block? id = some b) :
    b ∈ db.blocks.rows ∧ b.id = id :=
  ⟨List.mem_of_find?_eq_some h, by simpa using List.find?_some h⟩

/-- The id of a row finds it. -/
theorem block?_eq_some {db : Db} {b : BlockRow} (h : b ∈ db.blocks.rows) :
    db.block? b.id = some b :=
  db.blocks.find?_eq_some h (decide_eq_true rfl) fun _ _ hp =>
    decide_eq_true (Or.inl (of_decide_eq_true hp))

/-- `block_id`: the row `(height, hash)`, canonical or not. -/
def blockId (db : Db) (height : ℕ) (hash : String) : Option ℕ :=
  (db.blocks.rows.find? fun b => b.height = height ∧ b.hash = hash).map BlockRow.id

/-- So does its height with its hash. -/
theorem blockId_eq_some {db : Db} {b : BlockRow} (h : b ∈ db.blocks.rows) :
    db.blockId b.height b.hash = some b.id := by
  have hfind : db.blocks.rows.find? (fun c => c.height = b.height ∧ c.hash = b.hash) = some b :=
    db.blocks.find?_eq_some h (decide_eq_true ⟨rfl, rfl⟩) fun c _ hp =>
      decide_eq_true (Or.inr (Prod.ext_iff.mpr (of_decide_eq_true hp)))
  rw [blockId, hfind, Option.map_some]

/-- A block's entries in the status log. -/
def statusesOf (db : Db) (blockId : ℕ) : List StatusRow :=
  db.blockStatusLog.rows.filter fun s => s.blockId = blockId

/-- The status of a block's last entry. -/
def latestStatus (db : Db) (blockId : ℕ) : Option Status :=
  (List.argmax StatusRow.id (db.statusesOf blockId)).map StatusRow.status

/-- `CANONICAL_B`. -/
def isCanonical (db : Db) (blockId : ℕ) : Bool := db.latestStatus blockId = some .canonical

/-- `MAX(observed_at)` of a block's entries. -/
def lastObservedAt (db : Db) (blockId : ℕ) : Instant :=
  ((db.statusesOf blockId).map StatusRow.observedAt).foldr max 0

/-- The blocks of a height joined with their canonical entries of their latest moment. -/
def canonicalEntriesAt (db : Db) (height : ℕ) : List (BlockRow × StatusRow) :=
  (db.blocks.rows.filter fun b => b.height = height).flatMap fun b =>
    ((db.statusesOf b.id).filter fun s =>
      s.observedAt = db.lastObservedAt b.id ∧ s.status = .canonical).map (b, ·)

/-- The block whose `canonical` entry at `height` is the last one, with its hash. -/
def canonicalHashAt (db : Db) (height : ℕ) : Option (ℕ × String) :=
  (List.argmax (fun x : BlockRow × StatusRow => x.2.id) (db.canonicalEntriesAt height)).map
    fun x => (x.1.id, x.1.hash)

/-- **What `canonicalHashAt` reads is on record** at the height. -/
theorem mem_of_canonicalHashAt {db : Db} {height id : ℕ} {hash : String}
    (h : db.canonicalHashAt height = some (id, hash)) :
    ∃ b ∈ db.blocks.rows, b.id = id ∧ b.height = height ∧ b.hash = hash := by
  obtain ⟨⟨b, s⟩, hmax, hb⟩ := Option.map_eq_some_iff.mp h
  obtain ⟨rfl, rfl⟩ := Prod.mk.inj hb
  obtain ⟨b', hb', hs⟩ := List.mem_flatMap.mp (List.argmax_mem hmax)
  obtain ⟨_, _, hpair⟩ := List.mem_map.mp hs
  obtain ⟨rfl, -⟩ := Prod.mk.inj hpair
  obtain ⟨hmem, hh⟩ := List.mem_filter.mp hb'
  exact ⟨b', hmem, rfl, of_decide_eq_true hh, rfl⟩

/-- Hash and parent hash of the canonical block on record. -/
def canonicalLinkAt (db : Db) (height : ℕ) : Option (String × String) := do
  let (id, hash) ← db.canonicalHashAt height
  let b ← db.block? id
  return (hash, b.prevHash)

/-- Whether a block is one of the headers below the archive. -/
def isHeaderOnly (db : Db) (blockId : ℕ) : Bool := (db.block? blockId).any fun b => !b.archived

/-- The lowest height of the archive. -/
def archiveFirstHeight (db : Db) : Option ℕ :=
  ((db.blocks.rows.filter BlockRow.archived).map BlockRow.height).min?

/-- The lowest height with a block on record, header-only ones among them. -/
def lowestRecordedHeight (db : Db) : Option ℕ := (db.blocks.rows.map BlockRow.height).min?

/-- The id of `(height, hash)` if its body was not captured and it is no header-only row. -/
def uncapturedBlockId (db : Db) (height : ℕ) (hash : String) : Option ℕ :=
  (db.blocks.rows.find? fun b =>
    b.height = height ∧ b.hash = hash ∧ b.bodyCaptured = false ∧ b.archived).map BlockRow.id

/-- What `uncapturedBlockId` finds is a block of the archive without its body. -/
theorem mem_of_uncapturedBlockId {db : Db} {height id : ℕ} {hash : String}
    (h : db.uncapturedBlockId height hash = some id) :
    ∃ b ∈ db.blocks.rows,
      b.id = id ∧ b.height = height ∧ b.hash = hash ∧ b.bodyCaptured = false ∧ b.archived := by
  obtain ⟨b, hb, rfl⟩ := Option.map_eq_some_iff.mp h
  exact ⟨b, List.mem_of_find?_eq_some hb, rfl, by simpa using List.find?_some hb⟩

/-- `UPDATE blocks SET … WHERE p`, for columns other than `id`, `height` and `hash`. -/
def updateBlocks (db : Db) (p : BlockRow → Bool) (f : BlockRow → BlockRow)
    (hf : ∀ r s, Row.clash (f r) s = Row.clash r s) : Db :=
  { db with blocks := db.blocks.modify p f hf }

/-! ## The status log -/

/-- An entry in the log, of a block that is there. -/
def appendStatus (db : Db) (blockId : ℕ) (status : Status) (now : Instant) : Db :=
  { db with
    blockStatusLog := db.blockStatusLog.insertOrIgnore
      ⟨db.blockStatusLog.nextId StatusRow.id, blockId, status, now⟩ }

/-- An entry is appended to the statuses of its own block, and to no other block's. -/
theorem statusesOf_appendStatus (db : Db) (id : ℕ) (status : Status) (now : Instant) (k : ℕ) :
    (db.appendStatus id status now).statusesOf k
      = if k = id
        then db.statusesOf k ++ [⟨db.blockStatusLog.nextId StatusRow.id, id, status, now⟩]
        else db.statusesOf k := by
  have hrows : (db.appendStatus id status now).blockStatusLog.rows
      = db.blockStatusLog.rows ++ [⟨db.blockStatusLog.nextId StatusRow.id, id, status, now⟩] :=
    Table.rows_insert_of_free fun s hs => by
      simpa [Row.clash] using (Table.lt_nextId hs).ne
  simp only [statusesOf, hrows, List.filter_append, List.filter_cons, List.filter_nil,
    decide_eq_true_eq, eq_comm (a := k)]
  split_ifs
  · rfl
  · rw [List.append_nil]

/-- Appends an `orphaned` entry; a block that is not on record is an error. -/
def markOrphaned (db : Db) (blockId : ℕ) (now : Instant) : Except String Db :=
  if (db.block? blockId).isSome then .ok (db.appendStatus blockId .orphaned now)
  else .error foreignKeyError

/-- The row of a header. -/
def headerRow (id : ℕ) (h : BlockHeaderInfo) (bodyCaptured : Bool) (bodySource : Option String)
    (now : Instant) : BlockRow where
  id := id
  height := h.height
  hash := h.hash
  prevHash := h.prevHash
  stateRoot := h.stateRoot
  txRoot := h.txRoot
  timestamp := h.timestamp.toInt64
  miner := h.miner
  nonceHex := h.nonceHex
  difficultyTarget := h.difficultyTarget
  proofClass := none
  rewardMicronoid := none
  totalFeesMicronoid := none
  bodyCaptured := bodyCaptured
  firstSeenAt := now
  bodySource := bodySource
  logSlots := some h.logSlots.toNat
  contractsScanned := none
  txCountTotal := none
  tipSeenAtMs := none

/-- The hashes on record at a height. -/
def hashesAt (db : Db) (height : ℕ) : List String :=
  (db.blocks.rows.filter fun b => b.height = height).map BlockRow.hash

/-- Records `h` as a header-only canonical block below the archive; `false` if it is there
already. -/
def insertHeaderOnlyBlock (db : Db) (h : BlockHeaderInfo) (now : Instant) :
    Except String (Db × Bool) :=
  if h.hash ∈ db.hashesAt h.height then .ok (db, false)
  else match (db.hashesAt h.height).head? with
    | some other => .error
        s!"height {h.height}: block {other} is on record, the node's header says {h.hash}"
    | none =>
      let id := db.blocks.nextId BlockRow.id
      let db := { db with
        blocks := db.blocks.insertOrIgnore (headerRow id h false (some headerOnlySource) now) }
      .ok (db.appendStatus id .canonical now, true)

/-! ## Gaps -/

/-- Opens the gap of a height; one that is on record stays as it is. -/
def recordGap (db : Db) (height : ℕ) (hash : Option String) (now : Instant) (note : String) : Db :=
  { db with ingestGaps := db.ingestGaps.insertOrIgnore ⟨height, hash, now, note, none, none⟩ }

/-- Closes the open gap of a height. -/
def resolveGap (db : Db) (height : ℕ) (resolvedAt : Instant) (resolution : String) : Db :=
  { db with
    ingestGaps := db.ingestGaps.modify
      (fun g => g.height = height ∧ g.resolvedAt = none)
      (fun g => { g with resolvedAt := some resolvedAt, resolution := some resolution })
      fun _ _ => rfl }

/-- The heights of the open gaps from `minHeight` on, lowest first. -/
def openGapHeights (db : Db) (minHeight : ℕ) : List ℕ :=
  ((db.ingestGaps.rows.filter fun g => g.resolvedAt = none ∧ minHeight ≤ g.height).map
    GapRow.height).insertionSort (· ≤ ·)

/-- Whether a canonical block of the archive at `height` has its body on record. -/
def bodyOnRecordAt (db : Db) (height : ℕ) : Bool :=
  db.blocks.rows.any fun b =>
    b.height = height && b.bodyCaptured && b.archived && db.isCanonical b.id

/-- Closes the open gaps of heights whose body is on record. -/
def resolveGapsWithBodies (db : Db) (now : Instant) : Db :=
  { db with
    ingestGaps := db.ingestGaps.modify
      (fun g => g.resolvedAt = none ∧ db.bodyOnRecordAt g.height)
      (fun g => { g with resolvedAt := some now, resolution := some "body on record" })
      fun _ _ => rfl }

/-! ## Bodies -/

/-- Notes that a block has its body now, and where it is from. -/
def markBodyRecovered (db : Db) (blockId : ℕ) (bodySource : String) : Db :=
  db.updateBlocks (fun b => b.id = blockId)
    (fun b => { b with bodyCaptured := true, bodySource := some bodySource }) fun _ _ => rfl

/-- The transactions with the flags of one position of a block set. -/
def flagPosition (blockId : ℕ) (ts : Table TransactionRow) (f : ℕ × ℕ) : Table TransactionRow :=
  ts.modify (fun t => t.blockId = blockId ∧ t.position = f.1)
    (fun t => { t with contractFlags := f.2 }) fun _ _ => rfl

/-- Sets the flags of the contract calls of a block, over any it had, and notes the scan. -/
def setContractFlags (db : Db) (height : ℕ) (hash : String) (flags : List (ℕ × ℕ)) : Db :=
  match db.blockId height hash with
  | none => db
  | some id =>
    let clear := db.transactions.modify (fun t => t.blockId = id ∧ t.contractFlags ≠ 0)
      (fun t => { t with contractFlags := 0 }) fun _ _ => rfl
    { db with
      transactions := flags.foldl (flagPosition id) clear }.updateBlocks (fun b => b.id = id)
      (fun b => { b with contractsScanned := some 1 }) fun _ _ => rfl

/-- The transactions a block holds, in the order of their insertion. -/
def transactionsOf (db : Db) (blockId : ℕ) : List TransactionRow :=
  db.transactions.rows.filter fun t => t.blockId = blockId

/-- The blocks of the archive with a body that are older than the cutoff. -/
def pruneCandidates (db : Db) (cutoffUnix : ℤ) : List ℕ :=
  (db.blocks.rows.filter fun b =>
    b.timestamp.toInt < cutoffUnix ∧ b.bodyCaptured ∧ b.archived).map BlockRow.id

/-- One block's part of `prune_older_than`. -/
def pruneBlock (db : Db) (blockId : ℕ) : Except String Db :=
  let ids := (db.transactionsOf blockId).map TransactionRow.id
  if db.txReceipts.rows.any fun r => r.txId ∈ ids then .error foreignKeyError
  else
    let db := { db with
      txPageHashes := db.txPageHashes.delete fun r => r.txId ∈ ids
      txInputs := db.txInputs.delete fun r => r.txId ∈ ids
      txOutputs := db.txOutputs.delete fun r => r.txId ∈ ids
      transactions := db.transactions.delete fun t => t.blockId = blockId
      rawBlocks := db.rawBlocks.delete fun r => r.blockId = blockId }
    .ok (db.updateBlocks (fun b => b.id = blockId) (fun b => { b with bodyCaptured := false })
      fun _ _ => rfl)

/-! ## Raw bytes -/

/-- Whether raw bytes are kept for a block. -/
def hasRawBlock (db : Db) (blockId : ℕ) : Bool := db.rawBlocks.rows.any fun r => r.blockId = blockId

/-- Keeps the raw bytes of a block, if none are kept yet. -/
def insertRawBlock (db : Db) (blockId : ℕ) (codec : String) (rawLen : ℕ) (data : List UInt8)
    (source : String) (now : Instant) : Db :=
  { db with rawBlocks := db.rawBlocks.insertOrIgnore ⟨blockId, codec, rawLen, data, source, now⟩ }

/-- The row of the bytes kept for block `(height, hash)`. -/
def rawBlock (db : Db) (height : ℕ) (hash : String) : Option RawBlockRow := do
  let id ← db.blockId height hash
  db.rawBlocks.rows.find? fun r => r.blockId = id

/-- The canonical blocks of a range with a body and without raw bytes, lowest first, at most
`limit`. -/
def blocksMissingRaw (db : Db) (low high limit : ℕ) : List (ℕ × String) :=
  ((((db.blocks.rows.filter fun b =>
    low ≤ b.height ∧ b.height ≤ high ∧ b.bodyCaptured ∧ b.archived ∧ ¬ db.hasRawBlock b.id
      ∧ db.isCanonical b.id).insertionSort fun b c => b.height ≤ c.height).take limit).map
    fun b => (b.height, b.hash))

/-! ## Arrival times and proof classes -/

/-- Notes when a block was first seen; `false` if it is not on record. -/
def setTipSeen (db : Db) (height : ℕ) (hash : String) (atMs : ℤ) : Db × Bool :=
  (db.updateBlocks (fun b => b.height = height ∧ b.hash = hash)
    (fun b => { b with tipSeenAtMs := some (b.tipSeenAtMs.getD atMs) }) fun _ _ => rfl,
    db.blocks.rows.any fun b => b.height = height ∧ b.hash = hash)

/-- Takes over an arrival time where there is none. -/
def adoptTipSeen (db : Db) (height : ℕ) (hash : String) (atMs : ℤ) : Db :=
  db.updateBlocks (fun b => b.height = height ∧ b.hash = hash ∧ b.tipSeenAtMs = none)
    (fun b => { b with tipSeenAtMs := some atMs }) fun _ _ => rfl

/-- Takes over a proof class for a block whose own is unavailable. -/
def adoptProofClass (db : Db) (height : ℕ) (hash class_ : String) : Db :=
  if "unavailable".toList <:+: class_.toList then db
  else db.updateBlocks
    (fun b => b.height = height ∧ b.hash = hash ∧ b.proofClass.any likeUnavailable)
    (fun b => { b with proofClass := some class_ }) fun _ _ => rfl

/-! ## Receipts -/

end Db

/-- `ReceiptInput`, as it goes into the table. -/
structure ReceiptInput where
  page : UInt32
  lane : UInt32
  slotIndex : UInt64
  amountMicronoid : UInt64
  creationId : UInt64
  deriving DecidableEq, Repr

/-- `ReceiptOutput`: an output without a creation id. -/
structure ReceiptOutput where
  page : UInt32
  lane : UInt32
  slotIndex : UInt64
  amountMicronoid : UInt64
  owner : String
  deriving DecidableEq, Repr

/-- `ReceiptTransaction`: a transaction proven by a payment receipt. -/
structure ReceiptTransaction where
  position : UInt32
  txCount : UInt32
  txid : String
  pageCount : UInt32
  feeMicronoid : UInt64
  epochAnchor : String
  inputOwner : String
  inputSumMicronoid : String
  outputSumMicronoid : String
  contractFlags : ℕ
  pageHashes : List String
  inputs : List ReceiptInput
  outputs : List ReceiptOutput
  receiptHex : String
  deriving DecidableEq, Repr

namespace Db

/-- The page hashes of a transaction, in order. -/
def insertPageHashes (db : Db) (txId : ℕ) (hashes : List String) : Db :=
  { db with
    txPageHashes :=
      Table.insertEach (fun _ idx hash => ⟨txId, idx, hash⟩) 0 hashes db.txPageHashes }

/-- One row of `tx_inputs`. -/
def inputRow (txId idx : ℕ) (page lane : UInt32) (slotIndex amount creationId : UInt64) :
    InputRow :=
  ⟨txId, idx, page.toNat, lane.toNat, slotIndex.toInt64, amount.toInt64,
    Nat.repr creationId.toNat⟩

/-- One row of `tx_outputs`. -/
def outputRow (rowid txId idx : ℕ) (page lane : UInt32) (slotIndex amount : UInt64)
    (owner : String) (creationId : Option UInt64) : OutputRow :=
  ⟨rowid, txId, idx, page.toNat, lane.toNat, slotIndex.toInt64, amount.toInt64, owner,
    creationId.map fun c => Nat.repr c.toNat, false, none⟩

/-- The row of a receipt's transaction. -/
def receiptRow (id blockId : ℕ) (tx : ReceiptTransaction) : TransactionRow where
  id := id
  blockId := blockId
  position := tx.position.toNat
  txid := tx.txid
  pageCount := tx.pageCount.toNat
  feeMicronoid := tx.feeMicronoid.toInt64
  coinbase := false
  developmentPayout := false
  epochAnchor := tx.epochAnchor
  inputOwner := some tx.inputOwner
  inputSumMicronoid := tx.inputSumMicronoid
  outputSumMicronoid := tx.outputSumMicronoid
  contractFlags := tx.contractFlags
  source := some receiptSource

/-- The row of an input a receipt proves. -/
def receiptInputRow (txId idx : ℕ) (i : ReceiptInput) : InputRow :=
  inputRow txId idx i.page i.lane i.slotIndex i.amountMicronoid i.creationId

/-- The row of an output a receipt proves: its creation id is not known. -/
def receiptOutputRow (txId rowid idx : ℕ) (o : ReceiptOutput) : OutputRow :=
  outputRow rowid txId idx o.page o.lane o.slotIndex o.amountMicronoid o.owner none

/-- The transaction of a receipt and its rows, in a block where its position is free.  These are
plain `INSERT`s: a row that is in the way of one fails them all. -/
def writeReceiptTransaction (db : Db) (blockId : ℕ) (tx : ReceiptTransaction) (now : Instant) :
    Except String Db := do
  let txId := db.transactions.nextId TransactionRow.id
  let transactions ← db.transactions.insert
    (uniqueError "transactions.block_id, transactions.position") (receiptRow txId blockId tx)
  let txPageHashes ← Table.insertAll (uniqueError "tx_page_hashes.tx_id, tx_page_hashes.idx")
    (fun _ => PageHashRow.mk txId) 0 tx.pageHashes db.txPageHashes
  let txInputs ← Table.insertAll (uniqueError "tx_inputs.tx_id, tx_inputs.idx")
    (fun _ => receiptInputRow txId) 0 tx.inputs db.txInputs
  let txOutputs ← Table.insertAll (uniqueError "tx_outputs.tx_id, tx_outputs.idx")
    (fun t => receiptOutputRow txId (t.nextId OutputRow.rowid)) 0 tx.outputs db.txOutputs
  let txReceipts ← db.txReceipts.insert (uniqueError "tx_receipts.tx_id")
    ⟨txId, tx.receiptHex, now⟩
  return ({ db with transactions, txPageHashes, txInputs, txOutputs, txReceipts } : Db).updateBlocks
    (fun b => b.id = blockId) (fun b => { b with txCountTotal := some tx.txCount.toNat })
    fun _ _ => rfl

/-- Stores `tx` in the header-only block `blockId`; `false` if it is there already. -/
def insertReceiptTransaction (db : Db) (blockId : ℕ) (tx : ReceiptTransaction) (now : Instant) :
    Except String (Db × Bool) :=
  if ¬ db.isHeaderOnly blockId then
    .error (s!"block row {blockId} is not a header-only block; " ++
      "receipts only complete blocks below the archive")
  else if tx.position = 0 ∨ tx.txCount ≤ tx.position then
    .error s!"position {tx.position} does not fit a block of {tx.txCount} transactions"
  else match ((db.block? blockId).bind BlockRow.txCountTotal).filter (· ≠ tx.txCount.toNat) with
    | some n => .error
        s!"the block holds {n} transactions per an earlier receipt, this one says {tx.txCount}"
    | none =>
      match (db.transactionsOf blockId).find? fun t => t.position = tx.position.toNat with
      | some t =>
        if t.txid = tx.txid ∧ t.source = some receiptSource then .ok (db, false)
        else .error s!"position {tx.position} holds {t.txid} already"
      | none => do
        let db ← db.writeReceiptTransaction blockId tx now
        return (db, true)

/-- **The rows of a receipt, written.**  They stand at the end of their tables, under a key of their
own; the block has its count; and everything else is as it was. -/
structure ReceiptWritten (db : Db) (blockId : ℕ) (tx : ReceiptTransaction)
    (now : Instant) (db' : Db) : Prop where
  rest : db' = ({ db with
    transactions := db'.transactions
    txPageHashes := db'.txPageHashes
    txInputs := db'.txInputs
    txOutputs := db'.txOutputs
    txReceipts := db'.txReceipts } : Db).updateBlocks (fun b => b.id = blockId)
      (fun b => { b with txCountTotal := some tx.txCount.toNat }) fun _ _ => rfl
  transactions : db'.transactions.rows
    = db.transactions.rows ++ [receiptRow (db.transactions.nextId TransactionRow.id) blockId tx]
  pageHashes : db'.txPageHashes.rows = db.txPageHashes.rows ++ tx.pageHashes.zipIdx.map fun x =>
    PageHashRow.mk (db.transactions.nextId TransactionRow.id) x.2 x.1
  inputs : db'.txInputs.rows = db.txInputs.rows ++ tx.inputs.zipIdx.map fun x =>
    receiptInputRow (db.transactions.nextId TransactionRow.id) x.2 x.1
  outputs : db'.txOutputs.rows = db.txOutputs.rows
    ++ (tx.outputs.zipIdx.zipIdx (db.txOutputs.nextId OutputRow.rowid)).map fun x =>
      receiptOutputRow (db.transactions.nextId TransactionRow.id) x.2 x.1.2 x.1.1
  receipts : db'.txReceipts.rows
    = db.txReceipts.rows ++ [⟨db.transactions.nextId TransactionRow.id, tx.receiptHex, now⟩]

/-- **A receipt that is written has added its rows, and nothing else.** -/
theorem writeReceiptTransaction_ok {db db' : Db} {blockId : ℕ} {tx : ReceiptTransaction}
    {now : Instant} (h : db.writeReceiptTransaction blockId tx now = .ok db') :
    db.ReceiptWritten blockId tx now db' := by
  obtain ⟨T, hT, h⟩ := Outcome.bind_ok.mp h
  obtain ⟨P, hP, h⟩ := Outcome.bind_ok.mp h
  obtain ⟨I, hI, h⟩ := Outcome.bind_ok.mp h
  obtain ⟨O, hO, h⟩ := Outcome.bind_ok.mp h
  obtain ⟨C, hC, h⟩ := Outcome.bind_ok.mp h
  obtain rfl := Outcome.pure_ok.mp h
  exact {
    rest := rfl
    transactions := Table.rows_of_insert hT
    pageHashes := Table.rows_of_insertAll hP
    inputs := Table.rows_of_insertAll hI
    outputs := Table.rows_of_insertAll_numbered (fun _ _ _ => rfl) hO
    receipts := Table.rows_of_insert hC }

/-- **What storing a receipt's transaction can do**: nothing, if it is there already, or write it
where its position is free. -/
theorem insertReceiptTransaction_ok {db db' : Db} {blockId : ℕ} {tx : ReceiptTransaction}
    {now : Instant} {inserted : Bool} :
    db.insertReceiptTransaction blockId tx now = .ok (db', inserted)
      ↔ db.isHeaderOnly blockId ∧ (tx.position ≠ 0 ∧ tx.position < tx.txCount)
        ∧ (∀ n, (db.block? blockId).bind BlockRow.txCountTotal = some n → n = tx.txCount.toNat)
        ∧ (inserted = false ∧ db' = db ∧ (∃ t ∈ db.transactionsOf blockId,
              t.position = tx.position.toNat ∧ t.txid = tx.txid ∧ t.source = some receiptSource)
          ∨ inserted = true ∧ db.writeReceiptTransaction blockId tx now = .ok db'
            ∧ ∀ t ∈ db.transactionsOf blockId, t.position ≠ tx.position.toNat) := by
  have hplace : ¬ (tx.position = 0 ∨ tx.txCount ≤ tx.position)
      ↔ tx.position ≠ 0 ∧ tx.position < tx.txCount := by
    rw [not_or, UInt32.not_le]
  have hcount :
      ((db.block? blockId).bind BlockRow.txCountTotal).filter (· ≠ tx.txCount.toNat) = none
        ↔ ∀ n, (db.block? blockId).bind BlockRow.txCountTotal = some n → n = tx.txCount.toNat := by
    rcases (db.block? blockId).bind BlockRow.txCountTotal with _ | n
    · simp
    · simp
  rw [insertReceiptTransaction, ← hplace, ← hcount]
  by_cases hheader : db.isHeaderOnly blockId
  swap
  · simp [hheader]
  by_cases hpos : tx.position = 0 ∨ tx.txCount ≤ tx.position
  · simp [hheader, hpos]
  rw [if_neg (not_not.mpr hheader), if_neg hpos]
  rcases hcounted : ((db.block? blockId).bind BlockRow.txCountTotal).filter (· ≠ tx.txCount.toNat)
    with _ | n
  swap
  · exact iff_of_false nofun fun h => nomatch h.2.2.1
  dsimp only
  rcases hfind :
      (db.transactionsOf blockId).find? fun t => t.position = tx.position.toNat with _ | t
  · have hfree : ∀ t ∈ db.transactionsOf blockId, t.position ≠ tx.position.toNat := by
      simpa using List.find?_eq_none.mp hfind
    rw [hfind]
    constructor
    · intro h
      obtain ⟨db₁, hdb, h⟩ := Outcome.bind_ok.mp h
      obtain ⟨rfl, rfl⟩ := Prod.mk.inj (Outcome.pure_ok.mp h)
      exact ⟨hheader, hpos, rfl, Or.inr ⟨rfl, hdb, hfree⟩⟩
    · rintro ⟨-, -, -, ⟨-, -, t, ht, hp, -⟩ | ⟨hins, hdb, -⟩⟩
      · exact absurd hp (hfree t ht)
      · rw [hins]
        exact Outcome.bind_ok.mpr ⟨db', hdb, rfl⟩
  · have ht : t ∈ db.transactionsOf blockId := List.mem_of_find?_eq_some hfind
    have hp : t.position = tx.position.toNat := by simpa using List.find?_some hfind
    rw [hfind]
    constructor
    · intro h
      dsimp only at h
      split_ifs at h with hsame
      obtain ⟨rfl, rfl⟩ := Prod.mk.inj (Except.ok.inj h)
      exact ⟨hheader, hpos, rfl, Or.inl ⟨rfl, rfl, t, ht, hp, hsame⟩⟩
    · rintro ⟨-, -, -, ⟨hins, hdb, t', ht', hp', hsame⟩ | ⟨-, -, hfree⟩⟩
      · have heq : t' = t := by
          obtain ⟨hmem, hb⟩ := List.mem_filter.mp ht
          obtain ⟨hmem', hb'⟩ := List.mem_filter.mp ht'
          refine db.transactions.eq_of_clash hmem' hmem (decide_eq_true (Or.inr ?_))
          rw [of_decide_eq_true hb, of_decide_eq_true hb', hp, hp']
        rw [hins, hdb]
        exact if_pos (heq ▸ hsame)
      · exact absurd hp (hfree t ht)

end Db

end Permanode
