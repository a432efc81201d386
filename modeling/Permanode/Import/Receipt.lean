import Permanode.Core.Db
import Permanode.Node.Decode

/-!
# Import/Receipt — the transaction a payment receipt proves

`decode_receipt` of `permanode/src/receipts.rs`: a receipt is taken apart and checked as far as it
can be without the node.  What the crates know of receipts is a parameter, `ReceiptCrate`.
-/

namespace Permanode

open Outcome

/-- The node's crates, as far as the permanode reads receipts with them. -/
structure ReceiptCrate (N : Noid) where
  Receipt : Type
  /-- `ParanoidReceipt::from_bytes` -/
  fromBytes : List UInt8 → Except String Receipt
  toBytes : Receipt → List UInt8
  verifyMerkleInclusion : Receipt → Bool
  pagedSpend : Receipt → List UInt8
  claimedHeight : Receipt → ℕ
  claimedRoot : Receipt → List UInt8
  txIndex : Receipt → UInt32
  txCount : Receipt → UInt32
  -- its summary
  logicalTxid : Receipt → List UInt8
  confirmedUnix : Receipt → UInt64
  fee : Receipt → UInt64
  inputs : Receipt → List (UInt64 × N.Address)
  outputs : Receipt → List (UInt64 × UInt64 × N.Address)
  /-- `PagedSpendIntent::from_bytes` -/
  pages : List UInt8 → Except String (List N.Page)
  validatePagedSpend : List N.Page → Except String (PagedSpendFacts N.Address)
  pageHash : N.Page → List UInt8
  sameAddress : DecidableEq N.Address

/-- An input of a summary. -/
structure SummaryInput where
  slotIndex : UInt64
  owner : String
  deriving DecidableEq, Repr

/-- An output of one. -/
structure SummaryOutput where
  slotIndex : UInt64
  amountMicronoid : UInt64
  owner : String
  deriving DecidableEq, Repr

/-- `AuthenticatedSummary`: what the node confirms of a receipt. -/
structure AuthenticatedSummary where
  txid : String
  claimedHeight : ℕ
  confirmedUnix : UInt64
  txIndex : UInt32
  txCount : UInt32
  feeMicronoid : UInt64
  inputs : List SummaryInput
  outputs : List SummaryOutput
  deriving DecidableEq, Repr

/-- `DecodedReceipt`: the transaction a receipt proves, and where. -/
structure DecodedReceipt where
  height : ℕ
  timestamp : UInt64
  txRoot : String
  tx : ReceiptTransaction
  summary : AuthenticatedSummary
  deriving DecidableEq, Repr

variable {N : Noid} (R : ReceiptCrate N)

/-- The inputs of the pages, in page and lane order. -/
def receiptInputs (pages : List N.Page) : List ReceiptInput :=
  pages.zipIdx.flatMap fun (page, index) => (N.liveInputs page).map fun (lane, i) =>
    ⟨UInt32.ofNat index, UInt32.ofNat (lane % 256), i.slotIndex, i.amount, i.creationId⟩

/-- The outputs of the pages, in page and lane order. -/
def receiptOutputs (pages : List N.Page) : List ReceiptOutput :=
  pages.zipIdx.flatMap fun (page, index) => (N.liveOutputs page).map fun (lane, o) =>
    ⟨UInt32.ofNat index, UInt32.ofNat (lane % 256), o.slotIndex, o.amount, N.toBech32 o.owner⟩

/-- What the node is to confirm of a receipt. -/
def receiptSummary (receipt : R.Receipt) : AuthenticatedSummary where
  txid := Text.hexEncode (R.logicalTxid receipt)
  claimedHeight := R.claimedHeight receipt
  confirmedUnix := R.confirmedUnix receipt
  txIndex := R.txIndex receipt
  txCount := R.txCount receipt
  feeMicronoid := R.fee receipt
  inputs := (R.inputs receipt).map fun i => ⟨i.1, N.toBech32 i.2⟩
  outputs := (R.outputs receipt).map fun o => ⟨o.1, o.2.1, N.toBech32 o.2.2⟩

/-- Decodes one receipt, or says why it cannot be imported.  (A spend that validates has a page.) -/
def decodeReceipt (hex : String) : Except String DecodedReceipt := do
  let bytes ← orError "not hex" (Text.hexDecode hex)
  let receipt ← match R.fromBytes bytes with
    | .ok receipt => pure receipt
    | .error e => .error s!"not a Parano1d receipt ({e})"
  let canonical := R.toBytes receipt
  bailIf (canonical.length < bytes.length)
    (s!"{bytes.length - canonical.length} byte(s) follow the receipt - " ++
      "one receipt per entry (the node would check only the first)")
  bailIf (canonical ≠ bytes) "not in the receipt's canonical encoding"
  bailIf (¬ R.verifyMerkleInclusion receipt) "its Merkle proof does not verify (damaged or altered)"
  let pages ← mapError "pages" (R.pages (R.pagedSpend receipt))
  let facts ← mapError "pages" (R.validatePagedSpend pages)
  let txid := Text.hexEncode (R.logicalTxid receipt)
  bailIf (Text.hexEncode facts.logicalTxid ≠ txid) "the pages do not hash to the receipt's txid"
  let foreignOwner := (R.inputs receipt).any fun i => !(R.sameAddress i.2 facts.inputOwner).decide
  bailIf ((R.inputs receipt).isEmpty ∨ foreignOwner) "its inputs do not share one owner"
  return {
    height := R.claimedHeight receipt
    timestamp := R.confirmedUnix receipt
    txRoot := Text.hexEncode (R.claimedRoot receipt)
    summary := receiptSummary R receipt
    tx := {
      position := R.txIndex receipt
      txCount := R.txCount receipt
      txid := txid
      pageCount := UInt32.ofNat pages.length
      feeMicronoid := facts.fee
      epochAnchor := Text.hexEncode facts.epochAnchor
      inputOwner := N.toBech32 facts.inputOwner
      inputSumMicronoid := Nat.repr facts.inputSum
      outputSumMicronoid := Nat.repr facts.outputSum
      contractFlags := pages.head?.elim 0 (contractFlag N)
      pageHashes := pages.map fun page => Text.hexEncode (R.pageHash page)
      inputs := receiptInputs pages
      outputs := receiptOutputs pages
      receiptHex := hex } }

/-! ## What the node says -/

/-- `ReceiptVerdict`: the node's answer to `paranoid_verifyReceipt`. -/
structure ReceiptVerdict where
  merkleValid : Bool
  /-- `none` if the node could not look the header up -/
  canonical : Option Bool
  error : Option String
  authenticatedSummary : Option AuthenticatedSummary

/-- `ReceiptEntry`: a receipt as an input file has it. -/
structure ReceiptEntry where
  origin : String
  /-- the txid it is filed under -/
  key : Option String
  hex : String
  deriving DecidableEq, Repr

/-- The error of a verdict, in brackets. -/
def ReceiptVerdict.reason (verdict : ReceiptVerdict) : String :=
  verdict.error.elim "" fun e => s!" ({e})"

/-- The checks made of a decoded entry without the database. -/
def checkEntry (verify : String → Except String ReceiptVerdict) (entry : ReceiptEntry)
    (d : DecodedReceipt) : Except String Unit := do
  let key := entry.key.getD d.tx.txid
  bailIf (key ≠ d.tx.txid) s!"filed under txid {key}, but it proves {d.tx.txid}"
  let verdict ← mapError "the node could not check it" (verify entry.hex)
  bailIf (¬ verdict.merkleValid) s!"the node rejects its Merkle proof{verdict.reason}"
  bailIf (verdict.canonical ≠ some true) s!"not on the node's canonical chain{verdict.reason}"
  bailIf (verdict.authenticatedSummary ≠ some d.summary)
    "the node authenticated different data than the receipt holds"

end Permanode
