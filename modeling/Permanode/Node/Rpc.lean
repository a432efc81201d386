import Mathlib.Data.Nat.Notation

/-!
# Node/Rpc — what the node answers

The answers of the node's JSON-RPC the permanode works with (`permanode/src/rpc.rs`).  Amounts,
fees, slot indices, creation ids and the header counters are 64-bit unsigned and positions, counts,
pages and lanes 32-bit, as in the source, since sums of them wrap and they are cast on the way into
the database.  Heights are `ℕ`: no chain reaches `2⁶³`, so nothing depends on their width.
-/

namespace Permanode

/-- `BlockHeaderInfo`: a header as the node keeps it for ever. -/
structure BlockHeaderInfo where
  height : ℕ
  hash : String
  prevHash : String
  stateRoot : String
  txRoot : String
  timestamp : UInt64
  miner : String
  nonceHex : String
  difficultyTarget : String
  logSlots : UInt32
  activeSlotCount : UInt64
  allocCounter : UInt64
  deriving DecidableEq, Repr

/-- `get_block_header`, as one call of a handler sees it. -/
abbrev HeaderCall := ℕ → Except String (Option BlockHeaderInfo)

/-- `BlockTransactionInputInfo`. -/
structure BlockTransactionInputInfo where
  page : UInt32
  lane : UInt32
  slotIndex : UInt64
  amountMicronoid : UInt64
  creationId : UInt64
  deriving DecidableEq, Repr

/-- `BlockTransactionOutputInfo`. -/
structure BlockTransactionOutputInfo where
  page : UInt32
  lane : UInt32
  slotIndex : UInt64
  amountMicronoid : UInt64
  owner : String
  creationId : UInt64
  deriving DecidableEq, Repr

/-- `BlockTransactionInfo`: one logical transaction of a body. -/
structure BlockTransactionInfo where
  position : UInt32
  txid : String
  pageCount : UInt32
  liveInputs : UInt32
  liveOutputs : UInt32
  feeMicronoid : UInt64
  coinbase : Bool
  developmentPayout : Bool
  epochAnchor : String
  inputOwner : Option String
  inputSumMicronoid : String
  outputSumMicronoid : String
  pageHashes : List String
  inputs : List BlockTransactionInputInfo
  outputs : List BlockTransactionOutputInfo
  deriving DecidableEq, Repr

/-- `RetainedBlockInfo`: the body of a block. -/
structure RetainedBlockInfo where
  proofClass : String
  logicalTransactions : UInt32
  userPages : UInt32
  liveInputs : UInt32
  liveOutputs : UInt32
  rewardMicronoid : UInt64
  totalFeesMicronoid : String
  blockBytes : UInt64
  transactions : List BlockTransactionInfo
  deriving DecidableEq, Repr

/-- `BlockDetailsInfo`: a header, and the body while the node retains it. -/
structure BlockDetailsInfo where
  header : BlockHeaderInfo
  retained : Option RetainedBlockInfo
  deriving DecidableEq, Repr

/-- `StateMapInfo`: live slots counted per segment of `bucketCapacity` slots. -/
structure StateMapInfo where
  logSlots : UInt32
  bucketCapacity : UInt64
  liveCounts : List UInt64
  deriving DecidableEq, Repr

/-- `SlotInfo`: one slot of the node's live state, occupied or not. -/
structure SlotInfo where
  slotIndex : UInt64
  value : UInt64
  creationId : UInt64
  owner : String
  empty : Bool
  deriving DecidableEq, Repr

end Permanode
