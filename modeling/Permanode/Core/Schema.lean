import Permanode.Foundations.Table
import Permanode.Node.Rpc

/-!
# Core/Schema — the tables of the database

The schema of `core/src/db.rs` (`init_schema` and the columns `migrate_locked` adds), one row type
per table with its primary key and `UNIQUE` columns as `Row.clash`.

A 64-bit unsigned value is stored by its bits (`as i64`), so such a column is an `Int64`; a creation
id is stored as decimal text.  Timestamps of the permanode's own making are RFC 3339 text in UTC,
whose text order is the order of the instants: they are kept as the instants.
-/

namespace Permanode

/-- A moment of the permanode's wall clock. -/
abbrev Instant := ℕ

/-- `block_status_log.status`. -/
inductive Status
  | canonical
  | orphaned
  deriving DecidableEq, Repr

/-- `blocks`: every distinct `(height, hash)` ever observed. -/
structure BlockRow where
  id : ℕ
  height : ℕ
  hash : String
  prevHash : String
  stateRoot : String
  txRoot : String
  timestamp : Int64
  miner : String
  nonceHex : String
  difficultyTarget : String
  proofClass : Option String
  rewardMicronoid : Option Int64
  totalFeesMicronoid : Option String
  bodyCaptured : Bool
  firstSeenAt : Instant
  bodySource : Option String
  logSlots : Option ℕ
  contractsScanned : Option ℕ
  txCountTotal : Option ℕ
  tipSeenAtMs : Option ℤ
  deriving DecidableEq, Repr

/-- `block_status_log`: every canonical/orphaned transition. -/
structure StatusRow where
  id : ℕ
  blockId : ℕ
  status : Status
  observedAt : Instant
  deriving DecidableEq, Repr

/-- `transactions`. -/
structure TransactionRow where
  id : ℕ
  blockId : ℕ
  position : ℕ
  txid : String
  pageCount : ℕ
  feeMicronoid : Int64
  coinbase : Bool
  developmentPayout : Bool
  epochAnchor : String
  inputOwner : Option String
  inputSumMicronoid : String
  outputSumMicronoid : String
  contractFlags : ℕ
  source : Option String
  deriving DecidableEq, Repr

/-- `tx_page_hashes`. -/
structure PageHashRow where
  txId : ℕ
  idx : ℕ
  pageHash : String
  deriving DecidableEq, Repr

/-- `tx_inputs`. -/
structure InputRow where
  txId : ℕ
  idx : ℕ
  page : ℕ
  lane : ℕ
  slotIndex : Int64
  amountMicronoid : Int64
  creationId : String
  deriving DecidableEq, Repr

/-- `tx_outputs`; `creationId` is `none` for an output known from a receipt only. -/
structure OutputRow where
  rowid : ℕ
  txId : ℕ
  idx : ℕ
  page : ℕ
  lane : ℕ
  slotIndex : Int64
  amountMicronoid : Int64
  owner : String
  creationId : Option String
  spentInGap : Bool
  spentInGapAt : Option Instant
  deriving DecidableEq, Repr

/-- `ingest_gaps`: heights recorded without a body. -/
structure GapRow where
  height : ℕ
  hash : Option String
  detectedAt : Instant
  note : String
  resolvedAt : Option Instant
  resolution : Option String
  deriving DecidableEq, Repr

/-- `indexer_state`. -/
structure StateRow where
  key : String
  value : String
  deriving DecidableEq, Repr

/-- `address_balance_cache`. -/
structure BalanceRow where
  address : String
  liveBalanceMicronoid : String
  liveUtxoCount : ℕ
  fetchedAt : Instant
  deriving DecidableEq, Repr

/-- `state_slots`: live slots of the node the permanode has no recorded output for. -/
structure StateSlotRow where
  slotIndex : Int64
  segment : Int64
  creationId : String
  owner : String
  amountMicronoid : Int64
  seenHeight : ℕ
  seenAt : Instant
  deriving DecidableEq, Repr

/-- `raw_blocks`. -/
structure RawBlockRow where
  blockId : ℕ
  codec : String
  rawLen : ℕ
  data : List UInt8
  source : String
  storedAt : Instant
  deriving DecidableEq, Repr

/-- `tx_receipts`. -/
structure ReceiptRow where
  txId : ℕ
  receiptHex : String
  importedAt : Instant
  deriving DecidableEq, Repr

/-! ## The uniqueness constraints -/

section Constraints

/-- A primary key, on one column or several. -/
theorem beq_symm_of_key {ρ κ : Type} [DecidableEq κ] (key : ρ → κ) (r s : ρ) :
    decide (key r = key s) = decide (key s = key r) := decide_eq_decide.mpr eq_comm

instance : Row BlockRow where
  clash r s := r.id = s.id ∨ (r.height, r.hash) = (s.height, s.hash)
  clash_symm _ _ := decide_eq_decide.mpr (or_congr eq_comm eq_comm)

instance : Row StatusRow where
  clash r s := r.id = s.id
  clash_symm := beq_symm_of_key StatusRow.id

instance : Row TransactionRow where
  clash r s := r.id = s.id ∨ (r.blockId, r.position) = (s.blockId, s.position)
  clash_symm _ _ := decide_eq_decide.mpr (or_congr eq_comm eq_comm)

instance : Row PageHashRow where
  clash r s := (r.txId, r.idx) = (s.txId, s.idx)
  clash_symm := beq_symm_of_key fun r : PageHashRow => (r.txId, r.idx)

instance : Row InputRow where
  clash r s := (r.txId, r.idx) = (s.txId, s.idx)
  clash_symm := beq_symm_of_key fun r : InputRow => (r.txId, r.idx)

instance : Row OutputRow where
  clash r s := r.rowid = s.rowid ∨ (r.txId, r.idx) = (s.txId, s.idx)
  clash_symm _ _ := decide_eq_decide.mpr (or_congr eq_comm eq_comm)

instance : Row GapRow where
  clash r s := r.height = s.height
  clash_symm := beq_symm_of_key GapRow.height

instance : Row StateRow where
  clash r s := r.key = s.key
  clash_symm := beq_symm_of_key StateRow.key

instance : Row BalanceRow where
  clash r s := r.address = s.address
  clash_symm := beq_symm_of_key BalanceRow.address

instance : Row StateSlotRow where
  clash r s := r.slotIndex = s.slotIndex
  clash_symm := beq_symm_of_key StateSlotRow.slotIndex

instance : Row RawBlockRow where
  clash r s := r.blockId = s.blockId
  clash_symm := beq_symm_of_key RawBlockRow.blockId

instance : Row ReceiptRow where
  clash r s := r.txId = s.txId
  clash_symm := beq_symm_of_key ReceiptRow.txId

end Constraints

/-- The database. -/
structure Db where
  blocks : Table BlockRow
  blockStatusLog : Table StatusRow
  transactions : Table TransactionRow
  txPageHashes : Table PageHashRow
  txInputs : Table InputRow
  txOutputs : Table OutputRow
  ingestGaps : Table GapRow
  indexerState : Table StateRow
  addressBalanceCache : Table BalanceRow
  stateSlots : Table StateSlotRow
  rawBlocks : Table RawBlockRow
  txReceipts : Table ReceiptRow

/-- A database as `open` creates it. -/
def Db.empty : Db := ⟨∅, ∅, ∅, ∅, ∅, ∅, ∅, ∅, ∅, ∅, ∅, ∅⟩

end Permanode
