import Permanode.Foundations.Outcome
import Permanode.Foundations.Text
import Permanode.Node.Noid

/-!
# Node/Decode — reading a block out of `getBlock` bytes

`permanode/src/decode.rs`.  `decodeBoundBlock` binds bytes to a height and hash from a trusted
source; `decodeRetainedBlock` derives from them what `getBlockDetails` would have reported,
numbering the outputs on the way, and `contractFlags` the contract calls of a v2 block.
-/

namespace Permanode

open Outcome

variable (N : Noid)

/-- The pages of a block that has any must rebuild the `tx_root` of its header. -/
def checkTxRoot (block : N.Block) : Except String Unit :=
  if block.2 = [] then return ()
  else do
    let root ← mapError "tx_root" (N.tryComputeTxRoot block.2)
    let expected := N.txRoot block.1
    bailIf (root ≠ expected)
      s!"the pages rebuild tx_root {Text.hexEncode root}, the header says {Text.hexEncode expected}"

/-- Decodes bytes and binds them to the canonical height and hash. -/
def decodeBoundBlock (bytes : List UInt8) (expectedHeight : ℕ) (expectedHash : String) :
    Except String N.Block := do
  let block ← mapError "decode block" (N.fromBytes bytes)
  bailIf (N.height block.1 ≠ expectedHeight)
    s!"height mismatch: body claims {N.height block.1}, expected {expectedHeight}"
  let hash := Text.hexEncode (N.blockId block.1)
  bailIf (hash ≠ expectedHash) s!"body hash {hash} != canonical {expectedHash}"
  checkTxRoot N block
  bailIf (N.toBytes block ≠ bytes) "not the canonical encoding of the block"
  return block

/-! ## The decoded body -/

/-- `V2_CLASS_UNAVAILABLE`. -/
def v2ClassUnavailable : String := "v2 / class unavailable"

/-- The outputs of a page with their creation ids: every output advances the cursor by one, and its
id is made from the cursor. -/
def numberOutputs (page : ℕ) (creationId : UInt64 → UInt64) :
    UInt64 → List (ℕ × PageOutput N.Address) → List BlockTransactionOutputInfo × UInt64
  | cursor, [] => ([], cursor)
  | cursor, (lane, o) :: rest =>
    let (infos, last) := numberOutputs page creationId (cursor + 1) rest
    (⟨UInt32.ofNat page, UInt32.ofNat (lane % 256), o.slotIndex, o.amount, N.toBech32 o.owner,
      creationId (cursor + 1)⟩ :: infos, last)

/-- The inputs of a page. -/
def pageInputs (page : ℕ) (inputs : List (ℕ × PageInput)) : List BlockTransactionInputInfo :=
  inputs.map fun (lane, i) =>
    ⟨UInt32.ofNat page, UInt32.ofNat (lane % 256), i.slotIndex, i.amount, i.creationId⟩

/-- The inputs and outputs of the pages of a group, numbered from page `index`. -/
def groupLists : ℕ → UInt64 → List N.Page →
    List BlockTransactionInputInfo × List BlockTransactionOutputInfo × UInt64
  | _, cursor, [] => ([], [], cursor)
  | index, cursor, page :: pages =>
    let (outs, cursor) := numberOutputs N index id cursor (N.liveOutputs page)
    let (inputs, outputs, last) := groupLists (index + 1) cursor pages
    (pageInputs index (N.liveInputs page) ++ inputs, outs ++ outputs, last)

/-- The transactions of the user groups, numbered from group `index`. -/
def groupTransactions (stream : BlockPageStream N.Address) (pages : List N.Page) :
    ℕ → UInt64 → List (PageGroup N.Address) → Except String (List BlockTransactionInfo × UInt64)
  | _, cursor, [] => .ok ([], cursor)
  | index, cursor, group :: groups => do
    let start := N.userBodyStart stream group.startPage
    let finish := start + group.pageCount.toNat
    bailIf (pages.length < finish) "page range"
    let own := (pages.drop start).take group.pageCount.toNat
    let (inputs, outputs, cursor) := groupLists N 0 cursor own
    let (rest, last) ← groupTransactions stream pages (index + 1) cursor groups
    return ({
      position := UInt32.ofNat (N.userLogicalIndex stream index)
      txid := Text.hexEncode group.spend.logicalTxid
      pageCount := group.pageCount
      liveInputs := group.spend.liveInputs
      liveOutputs := group.spend.liveOutputs
      feeMicronoid := group.spend.fee
      coinbase := false
      developmentPayout := false
      epochAnchor := Text.hexEncode group.spend.epochAnchor
      inputOwner := some (N.toBech32 group.spend.inputOwner)
      inputSumMicronoid := Nat.repr group.spend.inputSum
      outputSumMicronoid := Nat.repr group.spend.outputSum
      pageHashes := own.map fun page => Text.hexEncode (N.pageTxid page)
      inputs := inputs
      outputs := outputs } :: rest, last)

/-- A page that mints: the coinbase or the development payout. -/
def mintTransaction (position : UInt32) (page : N.Page) (txid : List UInt8)
    (liveOutputs : UInt32) (developmentPayout : Bool) (outputSum : ℕ)
    (outputs : List BlockTransactionOutputInfo) : BlockTransactionInfo where
  position := position
  txid := Text.hexEncode txid
  pageCount := 1
  liveInputs := 0
  liveOutputs := liveOutputs
  feeMicronoid := 0
  coinbase := true
  developmentPayout := developmentPayout
  epochAnchor := Text.hexEncode (N.epochAnchor page)
  inputOwner := none
  inputSumMicronoid := "0"
  outputSumMicronoid := Nat.repr outputSum
  pageHashes := [Text.hexEncode txid]
  inputs := []
  outputs := outputs

/-- `u16::try_from`. -/
def tryU16 (n : ℕ) : Except String UInt32 :=
  if n < 65536 then .ok (UInt32.ofNat n)
  else .error "out of range integral type conversion attempted"

/-- `u32::saturating_add`. -/
def saturatingAdd32 (a b : UInt32) : UInt32 := UInt32.ofNat (min (a.toNat + b.toNat) (2 ^ 32 - 1))

/-- `u64::saturating_add`. -/
def saturatingAdd64 (a b : UInt64) : UInt64 := UInt64.ofNat (min (a.toNat + b.toNat) (2 ^ 64 - 1))

/-- The development payout, when the block has one, and the cursor after it. -/
def payoutTransaction (stream : BlockPageStream N.Address) (pages : List N.Page)
    (txids : List (List UInt8)) (outputs : UInt32) (cursor : UInt64) :
    Except String (List BlockTransactionInfo × UInt64) :=
  if stream.hasDevelopmentPayout then do
    let payout ← orError "development payout page missing" pages[1]?
    let (outs, cursor) := numberOutputs N 0 id cursor (N.liveOutputs payout)
    let sum := ((N.liveOutputs payout).map fun o => o.2.amount.toNat).sum
    let txid ← orError "development payout txid missing" txids[1]?
    return ([mintTransaction N 1 payout txid outputs true sum outs], cursor)
  else return ([], cursor)

/-- The proof class as the node reports it once the proof is gone. -/
def proofClassText (height : ℕ) (stream : BlockPageStream N.Address) : String :=
  if N.v2Active height then v2ClassUnavailable
  else match stream.proofClass with
    | .b25 => "B25 / m22"
    | .b255 => "B255 / m24"

/-- Decodes `getBlock` bytes into the body `getBlockDetails` would have held. -/
def decodeRetainedBlock (bytes : List UInt8) (expectedHeight : ℕ) (expectedHash : String) :
    Except String RetainedBlockInfo := do
  bailIf (expectedHeight = 0) "genesis block has no coinbase/transactions, not a decode target"
  let block ← decodeBoundBlock N bytes expectedHeight expectedHash
  let stream ← mapError "page stream" (N.validateBlockPageStream block.2)
  let txids ← mapError "txids" (N.tryComputeLogicalTxids block.2)
  let coinbase ← orError "missing coinbase" block.2[0]?
  let reward := ((N.liveOutputs coinbase).map fun o => o.2.amount).foldl saturatingAdd64 0
  let coinbaseOutputs ← tryU16 (N.liveOutputs coinbase).length
  let developmentOutputs ← if stream.hasDevelopmentPayout then do
      let payout ← orError "development payout flagged but block has no second page" block.2[1]?
      tryU16 (N.liveOutputs payout).length
    else pure 0
  let minted := stream.liveOutputs.toNat + coinbaseOutputs.toNat + developmentOutputs.toNat
  bailIf ((N.allocCounter block.1).toNat < minted) "alloc underflow"
  let cursor := N.allocCounter block.1 - UInt64.ofNat minted
  let coinbaseTxid ← orError "no logical txids" txids[0]?
  let (outs, cursor) := numberOutputs N 0 (fun _ => N.coinbaseCreationId (N.height block.1)) cursor
    (N.liveOutputs coinbase)
  let (payout, cursor) ← payoutTransaction N stream block.2 txids developmentOutputs cursor
  let (users, cursor) ← groupTransactions N stream block.2 0 cursor stream.groups
  bailIf (cursor ≠ N.allocCounter block.1)
    s!"alloc_counter mismatch: {cursor} vs {N.allocCounter block.1}"
  return {
    proofClass := proofClassText N (N.height block.1) stream
    logicalTransactions := UInt32.ofNat txids.length
    userPages := stream.pageCount
    liveInputs := stream.liveInputs
    liveOutputs := saturatingAdd32 (saturatingAdd32 stream.liveOutputs coinbaseOutputs)
      developmentOutputs
    rewardMicronoid := reward
    totalFeesMicronoid := Nat.repr (stream.groups.map fun g => g.spend.fee.toNat).sum
    blockBytes := UInt64.ofNat bytes.length
    transactions :=
      mintTransaction N 0 coinbase coinbaseTxid coinbaseOutputs false reward.toNat outs
        :: (payout ++ users) }

/-! ## Contract calls -/

/-- The flag of a call: `CONTRACT_CALL`, with `CONTRACT_CLOSE` where it closes the contract. -/
def contractFlag (page : N.Page) : ℕ :=
  if N.contractBit page then if N.terminalBit page then 3 else 1 else 0

/-- The calls of the groups, numbered from group `index`. -/
def groupFlags (stream : BlockPageStream N.Address) (pages : List N.Page) :
    ℕ → List (PageGroup N.Address) → Except String (List (ℕ × ℕ))
  | _, [] => .ok []
  | index, group :: groups => do
    let first ← orError "page range" pages[N.userBodyStart stream group.startPage]?
    let rest ← groupFlags stream pages (index + 1) groups
    let flag := contractFlag N first
    return if flag = 0 then rest
      else (N.userLogicalIndex stream index % 2 ^ 32, flag) :: rest

/-- The flags of the contract calls, read off the pages. -/
def contractFlagsOf (pages : List N.Page) : Except String (List (ℕ × ℕ)) := do
  let stream ← mapError "page stream" (N.validateBlockPageStream pages)
  groupFlags N stream pages 0 stream.groups

/-- `(position, flags)` of every contract call in a block. -/
def contractFlags (bytes : List UInt8) (expectedHeight : ℕ) (expectedHash : String) :
    Except String (List (ℕ × ℕ)) := do
  let block ← decodeBoundBlock N bytes expectedHeight expectedHash
  contractFlagsOf N block.2

end Permanode
