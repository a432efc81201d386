import Mathlib.Data.Prod.Lex
import Permanode.Emission.Schedule
import Permanode.Indexer.Poll
import Permanode.Queries.Balances

/-!
# Queries/Stats — figures of the whole archive

`chain_stats`, `burn_by_block` and `state_activity` of `core/src/queries.rs`, and the rows of the
CSV export (`permanode/src/export.rs`), where a timestamp stands for the UTC text beside it as well.

Each filters with `ARCHIVED` or `RECORDED`, so that header-only blocks and receipts stay out.
-/

namespace Permanode

/-! ## Burn -/

/-- `burned_in_block`: what the transactions paid less what the coinbase claimed on top of the
subsidy. -/
def burnedInBlock (height : ℕ) (reward fees : ℤ) (logSlots : Option ℕ) : ℤ :=
  let subsidy : ℤ := minerSubsidy height (UInt32.ofNat (logSlots.getD 24))
  max (fees - (reward - subsidy)) 0

/-- A text column of fees, as a number. -/
def feesOf (fees : Option String) : ℤ := (fees.map Sql.castInteger).getD 0

/-- The burn of a block row. -/
def BlockRow.burned (b : BlockRow) : ℤ :=
  burnedInBlock b.height (b.rewardMicronoid.elim 0 Int64.toInt) (feesOf b.totalFeesMicronoid)
    b.logSlots

namespace Db

/-- The archived canonical blocks with a body and a reward. -/
def rewardedBlocks (db : Db) : List BlockRow :=
  db.blocks.rows.filter fun b =>
    b.bodyCaptured ∧ b.rewardMicronoid.isSome ∧ b.archived ∧ db.isCanonical b.id

/-- `burn_by_block`: what each block burned, lowest height first. -/
def burnByBlock (db : Db) : List (ℕ × ℤ) :=
  (db.rewardedBlocks.insertionSort fun b c => b.height ≤ c.height).map fun b => (b.height, b.burned)

end Db

/-! ## Activity -/

/-- `StateActivity`. -/
structure StateActivity where
  blocks : ℕ := 0
  fromHeight : Option ℕ := none
  toHeight : Option ℕ := none
  complete : Bool := false
  utxosCreated : ℕ := 0
  utxosConsumed : ℕ := 0
  slotsFreed : ℕ := 0
  burnedMicronoid : ℤ := 0
  deriving DecidableEq, Repr

namespace Db

/-- The rows of `tx_inputs` and of `tx_outputs` of a transaction, counted. -/
def inputCount (db : Db) (txId : ℕ) : ℕ := (db.txInputs.rows.filter fun i => i.txId = txId).length

/-- The outputs of a transaction. -/
def outputCount (db : Db) (txId : ℕ) : ℕ := (db.txOutputs.rows.filter fun o => o.txId = txId).length

/-- One block of the period. -/
def addActivity (db : Db) (a : StateActivity) (b : BlockRow) : StateActivity :=
  let txs := (db.transactionsOf b.id).map TransactionRow.id
  { a with
    blocks := a.blocks + 1
    fromHeight := some (a.fromHeight.getD b.height)
    toHeight := some b.height
    utxosCreated := a.utxosCreated + (txs.map db.outputCount).sum
    utxosConsumed := a.utxosConsumed + (txs.map db.inputCount).sum
    slotsFreed := a.slotsFreed + (txs.map fun t => db.inputCount t - db.outputCount t).sum
    burnedMicronoid := a.burnedMicronoid + b.burned }

/-- The first time of an archived block with a body, on the canonical chain or at all. -/
def oldestTimestamp (db : Db) (p : BlockRow → Bool) : Option ℤ :=
  ((db.blocks.rows.filter fun b => b.bodyCaptured ∧ b.archived ∧ p b).map fun b =>
    b.timestamp.toInt).min?

/-- `state_activity`: what happened to the state since an instant. -/
def stateActivity (db : Db) (sinceUnix : ℤ) : StateActivity :=
  let rows := (db.rewardedBlocks.filter fun b => sinceUnix ≤ b.timestamp.toInt).insertionSort
    fun b c => b.height ≤ c.height
  { rows.foldl db.addActivity {} with
    complete := (db.oldestTimestamp fun b => db.isCanonical b.id).any (· ≤ sinceUnix) }

end Db

/-! ## The chain -/

/-- `ChainStats`. -/
structure ChainStats where
  lastProcessedHeight : Option ℤ
  indexedBlocks : ℕ
  indexedTransactions : ℤ
  receiptTransactions : ℕ
  archiveFromHeight : Option ℕ
  headerOnlyBlocks : ℕ
  headersFromHeight : Option ℕ
  gaps : ℕ
  gapsResolved : ℕ
  decoderMismatches : ℤ
  oldestRetainedTimestamp : Option ℤ
  transactions24h : ℕ
  burnedFees24hMicronoid : Option ℤ
  addressesWithBalance : ℕ
  orphanedBlocks : ℕ
  liveUtxos : ℕ
  deriving DecidableEq, Repr

/-- The figures of the archive: all but what is told of header-only blocks and receipts. -/
def ChainStats.ofArchive (s : ChainStats) : ChainStats :=
  { s with receiptTransactions := 0, headerOnlyBlocks := 0, headersFromHeight := none }

namespace Db

/-- `indexed_tip`. -/
def indexedTip (db : Db) : Option ℤ := (db.getState lastProcessedKey).bind Text.parseI64

/-- `receipt_transaction_count`. -/
def receiptTransactionCount (db : Db) : ℕ :=
  (db.transactions.rows.filter fun t => t.source = some receiptSource).length

/-- The transactions that count in blocks from a moment on. -/
def transactionsSince (db : Db) (unix : ℤ) : List TransactionRow :=
  db.transactions.rows.filter fun t =>
    db.counts t.id ∧ (db.block? t.blockId).any fun b => unix ≤ b.timestamp.toInt

/-- The burn of the blocks from a moment on, `none` if there is no block. -/
def burnedSince (db : Db) (unix : ℤ) : Option ℤ :=
  let rows := db.rewardedBlocks.filter fun b => unix ≤ b.timestamp.toInt
  if rows = [] then none else some (rows.map BlockRow.burned).sum

/-- `chain_stats`: the figures of the database as a whole. -/
def chainStats (db : Db) (nowUnix : ℤ) : ChainStats where
  lastProcessedHeight := db.indexedTip
  indexedBlocks := (db.blocks.rows.filter fun b => b.archived ∧ db.isCanonical b.id).length
  indexedTransactions := db.transactions.rows.length - db.receiptTransactionCount
  receiptTransactions := db.receiptTransactionCount
  archiveFromHeight := db.archiveFirstHeight
  headerOnlyBlocks := (db.blocks.rows.filter fun b => b.bodySource = some headerOnlySource).length
  headersFromHeight := db.lowestRecordedHeight
  gaps := (db.ingestGaps.rows.filter fun g => g.resolvedAt = none).length
  gapsResolved := (db.ingestGaps.rows.filter fun g => g.resolvedAt ≠ none).length
  decoderMismatches := ((db.getState "decoder_mismatches").bind Text.parseI64).getD 0
  oldestRetainedTimestamp := db.oldestTimestamp fun _ => true
  transactions24h := (db.transactionsSince (nowUnix - 86400)).length
  burnedFees24hMicronoid := db.burnedSince (nowUnix - 86400)
  addressesWithBalance :=
    (db.addressBalanceCache.rows.filter fun r => 0 < r.liveUtxoCount).length
  orphanedBlocks :=
    (db.blocks.rows.filter fun b => b.archived ∧ db.latestStatus b.id = some .orphaned).length
  liveUtxos := (db.unspentOutputs ⊤).length

end Db

/-! ## The export -/

/-- A line of `blocks.csv`. -/
structure BlockLine where
  height : ℕ
  hash : String
  prevHash : String
  timestamp : Int64
  miner : String
  coinbaseValue : Option Int64
  totalFees : Option ℤ
  logSlots : Option ℕ
  bodyCaptured : Bool
  bodySource : Option String
  canonical : Option Bool
  txCount : ℕ
  deriving DecidableEq, Repr

/-- A line of `transactions.csv`. -/
structure TransactionLine where
  txId : ℕ
  txid : String
  blockHeight : ℕ
  blockHash : String
  timestamp : Int64
  fee : Int64
  canonical : Option Bool
  finalized : Bool
  coinbase : Bool
  developmentPayout : Bool
  sender : Option String
  inputSum : ℤ
  outputSum : ℤ
  txPosition : ℕ
  pageCount : ℕ
  contract : String
  deriving DecidableEq, Repr

/-- A line of `inputs.csv`. -/
structure InputLine where
  txId : ℕ
  txid : String
  inputIndex : ℕ
  address : Option String
  amount : Int64
  slotIndex : Int64
  creationId : String
  blockHeight : ℕ
  canonical : Option Bool
  deriving DecidableEq, Repr

/-- A line of `outputs.csv`. -/
structure OutputLine where
  txId : ℕ
  txid : String
  outputIndex : ℕ
  address : String
  amount : Int64
  slotIndex : Int64
  creationId : Option String
  blockHeight : ℕ
  canonical : Option Bool
  spent : Bool
  spentInGap : Bool
  deriving DecidableEq, Repr

/-- `ORDER BY` a key. -/
def orderBy {α κ : Type} [LinearOrder κ] (key : α → κ) (l : List α) : List α :=
  l.insertionSort fun a b => key a ≤ key b

namespace Db

/-- `status = 'canonical'` of the latest entry, which may be missing. -/
def canonicalColumn (db : Db) (blockId : ℕ) : Option Bool :=
  (db.latestStatus blockId).map fun s => s = .canonical

/-- A recorded transaction with its block. -/
def recordedIn (db : Db) (txId : ℕ) : Option (TransactionRow × BlockRow) := do
  let t ← db.transaction? txId
  let b ← db.block? t.blockId
  if t.recorded then some (t, b) else none

/-- The lines of `blocks.csv`, lowest height first. -/
def blockLines (db : Db) : List BlockLine :=
  (orderBy BlockRow.height (db.blocks.rows.filter BlockRow.archived)).map fun b => {
    height := b.height
    hash := b.hash
    prevHash := b.prevHash
    timestamp := b.timestamp
    miner := b.miner
    coinbaseValue := b.rewardMicronoid
    totalFees := b.totalFeesMicronoid.map Sql.castInteger
    logSlots := b.logSlots
    bodyCaptured := b.bodyCaptured
    bodySource := b.bodySource
    canonical := db.canonicalColumn b.id
    txCount := (db.transactionsOf b.id).length }

/-- The kind of contract call a transaction's flags say it is. -/
def contractColumn (flags : ℕ) : String :=
  if flags / 2 % 2 ≠ 0 then "close" else if flags ≠ 0 then "call" else ""

/-- The lines of `transactions.csv`, in the order of the chain. -/
def transactionLines (db : Db) : List TransactionLine :=
  let tip := db.indexedTip.getD 0
  let rows := db.transactions.rows.filterMap fun t => db.recordedIn t.id
  (orderBy (fun r => toLex (r.2.height, r.1.position)) rows).map fun (t, b) => {
    txId := t.id
    txid := t.txid
    blockHeight := b.height
    blockHash := b.hash
    timestamp := b.timestamp
    fee := t.feeMicronoid
    canonical := db.canonicalColumn b.id
    finalized := 18 ≤ tip - b.height + 1
    coinbase := t.coinbase
    developmentPayout := t.developmentPayout
    sender := t.inputOwner
    inputSum := Sql.castInteger t.inputSumMicronoid
    outputSum := Sql.castInteger t.outputSumMicronoid
    txPosition := t.position
    pageCount := t.pageCount
    contract := contractColumn t.contractFlags }

/-- The lines of `inputs.csv`, in the order of the chain. -/
def inputLines (db : Db) : List InputLine :=
  let rows := db.txInputs.rows.filterMap fun i => (db.recordedIn i.txId).map (i, ·)
  (orderBy (fun r => toLex (r.2.2.height, toLex (r.2.1.position, r.1.idx))) rows).map
    fun (i, t, b) => {
      txId := t.id
      txid := t.txid
      inputIndex := i.idx
      address := t.inputOwner
      amount := i.amountMicronoid
      slotIndex := i.slotIndex
      creationId := i.creationId
      blockHeight := b.height
      canonical := db.canonicalColumn b.id }

/-- The lines of `outputs.csv`, in the order of the chain. -/
def outputLines (db : Db) : List OutputLine :=
  let rows := db.txOutputs.rows.filterMap fun o => (db.recordedIn o.txId).map (o, ·)
  (orderBy (fun r => toLex (r.2.2.height, toLex (r.2.1.position, r.1.idx))) rows).map
    fun (o, t, b) => {
      txId := t.id
      txid := t.txid
      outputIndex := o.idx
      address := o.owner
      amount := o.amountMicronoid
      slotIndex := o.slotIndex
      creationId := o.creationId
      blockHeight := b.height
      canonical := db.canonicalColumn b.id
      spent := db.spentByRecordedInput ⊤ o.creationId
      spentInGap := o.spentInGap }

end Db

end Permanode
