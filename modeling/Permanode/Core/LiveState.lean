import Mathlib.Algebra.Order.Monoid.Unbundled.WithTop
import Mathlib.Data.BitVec
import Permanode.Core.Db

/-!
# Core/LiveState — the picture of the node's live state

The second half of `core/src/db.rs`: what the permanode takes to be live, as the sum of two tables —

    recorded outputs (`tx_outputs` of canonical blocks)  ·  foreign slots (`state_slots`)

each less what a recorded input of a canonical block spends — and the writes of the sweep that keep
it in step with the node.  The join `tx_outputs ⋈ transactions ⋈ blocks` goes by unique ids, so it
is the function `recordedHeight` of the transaction.
-/

namespace Permanode

/-- `StateSlot`: one live slot as read from the node. -/
structure StateSlot where
  slotIndex : UInt64
  creationId : String
  owner : String
  amountMicronoid : UInt64
  deriving DecidableEq, Repr

/-- A range of slots `start..stop`. -/
structure SlotRange where
  start : UInt64
  stop : UInt64
  deriving DecidableEq, Repr

/-- `slot_index >= start AND slot_index < stop`, on the signed column. -/
def SlotRange.holds (slots : SlotRange) (slotIndex : Int64) : Bool :=
  slots.start.toInt64 ≤ slotIndex ∧ slotIndex < slots.stop.toInt64

/-- An output whose flag is taken back. -/
def OutputRow.unflagged (o : OutputRow) : OutputRow :=
  { o with spentInGap := false, spentInGapAt := none }

/-- An output flagged as spent in a gap. -/
def OutputRow.flagged (now : Instant) (o : OutputRow) : OutputRow :=
  { o with spentInGap := true, spentInGapAt := some now }

namespace Db

/-! ## The picture -/

/-- The height of the canonical block a recorded transaction is in. -/
def recordedHeight (db : Db) (txId : ℕ) : Option ℕ := do
  let t ← db.transactions.rows.find? fun t => t.id = txId
  let b ← db.block? t.blockId
  if t.recorded ∧ db.isCanonical b.id then some b.height else none

/-- Whether a recorded input of a canonical block up to `height` (`⊤`: any) spends the coin. -/
def spentByRecordedInput (db : Db) (height : WithTop ℕ) (creationId : Option String) : Bool :=
  db.txInputs.rows.any fun i =>
    some i.creationId = creationId
      ∧ (db.recordedHeight i.txId).any fun h => (h : WithTop ℕ) ≤ height

/-- The recorded outputs up to `height` that are neither spent on record nor flagged as spent in a
gap. -/
def unspentOutputs (db : Db) (height : WithTop ℕ) : List OutputRow :=
  db.txOutputs.rows.filter fun o =>
    (db.recordedHeight o.txId).any (fun h => (h : WithTop ℕ) ≤ height) ∧ o.spentInGap = false
      ∧ ¬ db.spentByRecordedInput height o.creationId

/-- The slots of the sweep's own that are not spent on record. -/
def unspentSlots (db : Db) (height : WithTop ℕ) : List StateSlotRow :=
  db.stateSlots.rows.filter fun f => ¬ db.spentByRecordedInput height (some f.creationId)

/-- The outputs of a range of slots the sweep may find gone.  (A `NULL` id, which no recorded output
has, would be an error in the source.) -/
def unspentRecordedOutputs (db : Db) (maxHeight : ℕ) (slots : SlotRange) : List OutputRow :=
  (db.unspentOutputs maxHeight).filter fun o => slots.holds o.slotIndex

/-- The segment of every coin of the picture, once per coin: `liveCountPerSegment` counts them. -/
def liveSegments (db : Db) (height : ℕ) (segmentSize : UInt64) : List UInt64 :=
  (db.unspentOutputs height).map (fun o => (o.slotIndex / segmentSize.toInt64).toUInt64)
    ++ (db.unspentSlots height).map fun f => f.segment.toUInt64

/-- The number of coins of the picture in a segment. -/
def liveCountPerSegment (db : Db) (height : ℕ) (segmentSize segment : UInt64) : ℕ :=
  (db.liveSegments height segmentSize).count segment

/-- The creation ids of every recorded output of a canonical block in a range of slots, spent or
not. -/
def recordedCreationIds (db : Db) (slots : SlotRange) : List String :=
  (db.txOutputs.rows.filter fun o =>
    slots.holds o.slotIndex ∧ (db.recordedHeight o.txId).isSome).filterMap OutputRow.creationId

/-- Owner and amount of every coin of the picture, as of everything recorded. -/
def liveCoins (db : Db) : List (String × Int64) :=
  (db.unspentOutputs ⊤).map (fun o => (o.owner, o.amountMicronoid))
    ++ (db.unspentSlots ⊤).map fun f => (f.owner, f.amountMicronoid)

/-- What an address holds: the sum of its coins (`as u128`, wrapping) and their number. -/
def liveBalance (db : Db) (address : String) : BitVec 128 × ℕ :=
  let coins := db.liveCoins.filter fun c => c.1 = address
  ((coins.map fun c => BitVec.ofInt 128 c.2.toInt).sum, coins.length)

/-- `live_balances`: the addresses of the picture with what they hold. -/
def liveBalances (db : Db) : List (String × (BitVec 128 × ℕ)) :=
  (db.liveCoins.map Prod.fst).dedup.map fun a => (a, db.liveBalance a)

/-! ## The sweep's writes -/

/-- `UPDATE tx_outputs SET spent_in_gap = flag, spent_in_gap_at = at WHERE p`. -/
def flagOutputs (db : Db) (p : OutputRow → Bool) (flag : Bool) (at_ : Option Instant) : Db :=
  { db with
    txOutputs := db.txOutputs.modify p
      (fun o => { o with spentInGap := flag, spentInGapAt := at_ }) fun _ _ => rfl }

/-- Takes back the flags of outputs whose spend is on record. -/
def clearSpentInGapWithRecordedSpend (db : Db) : Db :=
  db.flagOutputs (fun o => o.spentInGap ∧ db.spentByRecordedInput ⊤ o.creationId) false none

/-- Whether the transaction came from a receipt. -/
def fromReceipt (db : Db) (txId : ℕ) : Bool :=
  db.transactions.rows.any fun t => t.id = txId ∧ t.source = some receiptSource

/-- Takes back the flags of outputs of a range that the node has live. -/
def unmarkLiveOutputs (db : Db) (slots : SlotRange) (live : List String) : Db :=
  db.flagOutputs (fun o => o.spentInGap ∧ slots.holds o.slotIndex ∧ ¬ db.fromReceipt o.txId
    ∧ o.creationId.any (· ∈ live)) false none

/-- Flags outputs as spent in a gap. -/
def markSpentInGap (db : Db) (rowids : List ℕ) (now : Instant) : Db :=
  db.flagOutputs (fun o => o.rowid ∈ rowids) true (some now)

/-- The row of a live slot. -/
def stateSlotRow (segment : UInt64) (height : ℕ) (now : Instant) (s : StateSlot) : StateSlotRow :=
  ⟨s.slotIndex.toInt64, segment.toInt64, s.creationId, s.owner, s.amountMicronoid.toInt64, height,
    now⟩

/-- The slots of a segment, in the place of those on record. -/
def replaceStateSlots (db : Db) (segment : UInt64) (slots : List StateSlot) (height : ℕ)
    (now : Instant) : Db :=
  { db with
    stateSlots := (slots.map (stateSlotRow segment height now)).foldl Table.upsert
      (db.stateSlots.delete fun f => f.segment = segment.toInt64) }

/-! ## The balance cache -/

/-- The cached balance of an address, over the one before. -/
def upsertAddressBalanceCache (db : Db) (address balance : String) (count : ℕ) (now : Instant) :
    Db :=
  { db with addressBalanceCache := db.addressBalanceCache.upsert ⟨address, balance, count, now⟩ }

/-- The addresses `zero_balance_cache_except` sets to zero. -/
def staleAddresses (db : Db) (keep : List String) : List String :=
  (db.addressBalanceCache.rows.filter fun r => 0 < r.liveUtxoCount ∧ r.address ∉ keep).map
    BalanceRow.address

/-- The addresses the archive has seen: owners of inputs and outputs, and miners. -/
def knownAddresses (db : Db) : List String :=
  ((db.transactions.rows.filter TransactionRow.recorded).filterMap TransactionRow.inputOwner
    ++ (db.txOutputs.rows.filter fun o => ¬ db.fromReceipt o.txId).map OutputRow.owner
    ++ (db.blocks.rows.filter BlockRow.archived).map BlockRow.miner).dedup

end Db

end Permanode
