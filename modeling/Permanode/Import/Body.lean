import Mathlib.Data.UInt
import Permanode.Indexer.Store

/-!
# Import/Body — checking a body, and reading one back

`check_body` and `body_from_db` of `permanode/src/import.rs`.  Sums are those of a release build:
64-bit and 32-bit, wrapping.
-/

namespace Permanode

open Outcome

/-- The bytes of a txid: 32, in hexadecimal. -/
def txidBytes (txid : String) : Option (List UInt8) :=
  (Text.hexDecode txid).filter fun bytes => bytes.length = 32

/-- The `u64` sum of amounts. -/
def outputTotal (t : BlockTransactionInfo) : UInt64 :=
  (t.outputs.map BlockTransactionOutputInfo.amountMicronoid).sum

/-- The sum of the inputs, as the source adds it up. -/
def inputTotal (t : BlockTransactionInfo) : UInt64 :=
  (t.inputs.map BlockTransactionInputInfo.amountMicronoid).sum

/-- What `check_body` asks of the transaction at index `i`; returns the bytes of its txid. -/
def checkTransaction (i : ℕ) (t : BlockTransactionInfo) : Except String (List UInt8) := do
  bailIf (t.position.toNat ≠ i) s!"transaction {t.position} at position {i}"
  let id ← orError s!"txid {t.txid} is not 32 bytes of hex" (txidBytes t.txid)
  bailIf (t.pageHashes.length ≠ t.pageCount.toNat)
    s!"tx {t.txid}: {t.pageHashes.length} page hashes for {t.pageCount} pages"
  bailIf (t.liveInputs.toNat ≠ t.inputs.length ∨ t.liveOutputs.toNat ≠ t.outputs.length)
    s!"tx {t.txid}: live input/output counts do not match its lists"
  bailIf (Nat.repr (outputTotal t).toNat ≠ t.outputSumMicronoid)
    s!"tx {t.txid}: outputs sum to {outputTotal t}, recorded {t.outputSumMicronoid}"
  bailIf (Nat.repr (inputTotal t).toNat ≠ t.inputSumMicronoid)
    s!"tx {t.txid}: inputs sum to {inputTotal t}, recorded {t.inputSumMicronoid}"
  bailIf (¬ t.coinbase ∧ ¬ t.developmentPayout ∧ inputTotal t ≠ outputTotal t + t.feeMicronoid)
    s!"tx {t.txid}: inputs {inputTotal t} != outputs {outputTotal t} + fee {t.feeMicronoid}"
  return id

/-- The loop of `check_body`, from index `i` on: the bytes of the txids. -/
def checkTransactions : ℕ → List BlockTransactionInfo → Except String (List (List UInt8))
  | _, [] => .ok []
  | i, t :: rest => do
    let id ← checkTransaction i t
    let ids ← checkTransactions (i + 1) rest
    return id :: ids

/-- The `u32` totals of a body, recomputed from its transactions. -/
def liveInputsTotal (txs : List BlockTransactionInfo) : UInt32 :=
  (txs.map BlockTransactionInfo.liveInputs).sum

/-- The outputs of a body. -/
def liveOutputsTotal (txs : List BlockTransactionInfo) : UInt32 :=
  (txs.map BlockTransactionInfo.liveOutputs).sum

/-- The pages of its user transactions. -/
def userPagesTotal (txs : List BlockTransactionInfo) : UInt32 :=
  ((txs.filter fun t => ¬ t.coinbase ∧ ¬ t.developmentPayout).map
    BlockTransactionInfo.pageCount).sum

/-- The `u64` fees of a body. -/
def feeTotal (txs : List BlockTransactionInfo) : UInt64 :=
  ((txs.filter fun t => ¬ t.coinbase).map BlockTransactionInfo.feeMicronoid).sum

/-- Checks a body against the header on record: its transactions, in order, must rebuild `txRoot`,
and every sum must add up. -/
def checkBody (N : Noid) (body : RetainedBlockInfo) (txRoot : String) : Except String Unit := do
  let txs := body.transactions
  let first ← orError "no transactions" txs.head?
  bailIf (256 < txs.length) s!"{txs.length} transactions, a block holds at most 256"
  bailIf (¬ first.coinbase) "first transaction is not the coinbase"
  let txids ← checkTransactions 0 txs
  let root := Text.hexEncode (N.rootFromHashes txids)
  bailIf (root ≠ txRoot) s!"the transactions rebuild tx_root {root}, the header says {txRoot}"
  bailIf (Nat.repr (feeTotal txs).toNat ≠ body.totalFeesMicronoid)
    s!"fees sum to {feeTotal txs}, block records {body.totalFeesMicronoid}"
  bailIf (outputTotal first ≠ body.rewardMicronoid)
    s!"coinbase outputs sum to {outputTotal first}, block records {body.rewardMicronoid}"
  bailIf (body.logicalTransactions.toNat ≠ txs.length ∨ body.liveInputs ≠ liveInputsTotal txs
    ∨ body.liveOutputs ≠ liveOutputsTotal txs ∨ body.userPages ≠ userPagesTotal txs)
    "block totals do not match its transactions"

/-- What `checkTransaction` asks of the transaction at index `i`, its txid apart. -/
structure BlockTransactionInfo.Fits (i : ℕ) (t : BlockTransactionInfo) : Prop where
  position : t.position.toNat = i
  pages : t.pageHashes.length = t.pageCount.toNat
  inputs : t.liveInputs.toNat = t.inputs.length
  outputs : t.liveOutputs.toNat = t.outputs.length
  outputSum : Nat.repr (outputTotal t).toNat = t.outputSumMicronoid
  inputSum : Nat.repr (inputTotal t).toNat = t.inputSumMicronoid
  balance : t.coinbase = false → t.developmentPayout = false →
    inputTotal t = outputTotal t + t.feeMicronoid

theorem checkTransaction_iff {i : ℕ} {t : BlockTransactionInfo} {id : List UInt8} :
    checkTransaction i t = .ok id ↔ txidBytes t.txid = some id ∧ t.Fits i := by
  simp only [checkTransaction, bind_ok, bailIf_ok, orError_ok, pure_ok, not_not, not_or]
  constructor
  · rintro ⟨_, hpos, _, hid, _, hpages, _, ⟨hin, hout⟩, _, ho, _, hi, _, hbal, rfl⟩
    refine ⟨hid, hpos, hpages, hin, hout, ho, hi, fun hc hp => ?_⟩
    simpa [hc, hp] using hbal
  · rintro ⟨hid, hpos, hpages, hin, hout, ho, hi, hbal⟩
    refine ⟨(), hpos, id, hid, (), hpages, (), ⟨hin, hout⟩, (), ho, (), hi, (), ?_, rfl⟩
    rintro ⟨hc, hp, hne⟩
    exact hne (hbal (Bool.eq_false_of_not_eq_true hc) (Bool.eq_false_of_not_eq_true hp))

/-- The loop succeeds where every transaction fits its index. -/
theorem checkTransactions_iff : ∀ {i : ℕ} {txs : List BlockTransactionInfo}
    {ids : List (List UInt8)}, checkTransactions i txs = .ok ids
      ↔ List.Forall₂ (fun t id => txidBytes t.txid = some id) txs ids
        ∧ ∀ (k : ℕ) (t : BlockTransactionInfo), txs[k]? = some t → t.Fits (i + k)
  | i, [], ids => by
      rw [checkTransactions]
      constructor
      · intro h
        obtain rfl := Except.ok.inj h
        exact ⟨.nil, nofun⟩
      · rintro ⟨h, -⟩
        rw [List.forall₂_nil_left_iff.mp h]
  | i, t :: rest, ids => by
      simp only [checkTransactions, bind_ok, pure_ok, checkTransaction_iff, checkTransactions_iff]
      constructor
      · rintro ⟨id, ⟨hid, hfit⟩, ids', ⟨hids, hfits⟩, rfl⟩
        refine ⟨.cons hid hids, fun k u hu => ?_⟩
        rcases k with _ | k
        · obtain rfl := Option.some.inj hu
          exact hfit
        · rw [Nat.add_comm k 1, ← Nat.add_assoc]
          exact hfits k u hu
      · rintro ⟨hids, hfits⟩
        rcases hids with _ | ⟨hid, hids⟩
        refine ⟨_, ⟨hid, hfits 0 t rfl⟩, _, ⟨hids, fun k u hu => ?_⟩, rfl⟩
        rw [Nat.add_assoc, Nat.add_comm 1 k]
        exact hfits (k + 1) u hu

/-- **What `checkBody` asks of a body.** -/
theorem checkBody_iff {N : Noid} {body : RetainedBlockInfo} {txRoot : String} :
    checkBody N body txRoot = .ok () ↔
      ∃ first ids, body.transactions.head? = some first ∧ body.transactions.length ≤ 256
        ∧ first.coinbase = true ∧ checkTransactions 0 body.transactions = .ok ids
        ∧ Text.hexEncode (N.rootFromHashes ids) = txRoot
        ∧ Nat.repr (feeTotal body.transactions).toNat = body.totalFeesMicronoid
        ∧ outputTotal first = body.rewardMicronoid
        ∧ body.logicalTransactions.toNat = body.transactions.length
        ∧ body.liveInputs = liveInputsTotal body.transactions
        ∧ body.liveOutputs = liveOutputsTotal body.transactions
        ∧ body.userPages = userPagesTotal body.transactions := by
  simp only [checkBody, bind_ok, bailIf_ok, orError_ok, not_not, not_or, not_lt]
  constructor
  · rintro ⟨first, hfirst, _, hlen, _, hc, ids, hids, _, hroot, _, hfees, _, hreward, htotals⟩
    exact ⟨first, ids, hfirst, hlen, hc, hids, hroot, hfees, hreward, htotals⟩
  · rintro ⟨first, ids, hfirst, hlen, hc, hids, hroot, hfees, hreward, htotals⟩
    exact ⟨first, hfirst, (), hlen, (), hc, ids, hids, (), hroot, (), hfees, (), hreward, htotals⟩

/-! ## Reading a body back -/

namespace Db

/-- The page hashes of a transaction, in order. -/
def pageHashesOf (db : Db) (txId : ℕ) : List String :=
  ((db.txPageHashes.rows.filter fun r => r.txId = txId).insertionSort fun r s => r.idx ≤ s.idx).map
    PageHashRow.pageHash

/-- An input as it is served; its creation id must read as a number. -/
def readInput (r : InputRow) : Except String BlockTransactionInputInfo := do
  let creationId ← orError "Query is not read-only" (Text.parseU64 r.creationId)
  return ⟨UInt32.ofNat r.page, UInt32.ofNat r.lane, r.slotIndex.toUInt64,
    r.amountMicronoid.toUInt64, creationId⟩

/-- The inputs of a transaction, in order. -/
def inputsOf (db : Db) (txId : ℕ) : Except String (List BlockTransactionInputInfo) :=
  ((db.txInputs.rows.filter fun r => r.txId = txId).insertionSort fun r s => r.idx ≤ s.idx).mapM
    readInput

/-- An output as it is served; its creation id must be there and read as a number. -/
def readOutput (r : OutputRow) : Except String BlockTransactionOutputInfo := do
  let text ← orError "Invalid column type Null at index: 5, name: creation_id" r.creationId
  let creationId ← orError "Query is not read-only" (Text.parseU64 text)
  return ⟨UInt32.ofNat r.page, UInt32.ofNat r.lane, r.slotIndex.toUInt64,
    r.amountMicronoid.toUInt64, r.owner, creationId⟩

/-- The outputs of a transaction, in order. -/
def outputsOf (db : Db) (txId : ℕ) : Except String (List BlockTransactionOutputInfo) :=
  ((db.txOutputs.rows.filter fun r => r.txId = txId).insertionSort fun r s => r.idx ≤ s.idx).mapM
    readOutput

/-- A transaction as its rows have it. -/
def readTransaction (db : Db) (t : TransactionRow) : Except String BlockTransactionInfo := do
  let inputs ← db.inputsOf t.id
  let outputs ← db.outputsOf t.id
  return {
    position := UInt32.ofNat t.position
    txid := t.txid
    pageCount := UInt32.ofNat t.pageCount
    liveInputs := UInt32.ofNat inputs.length
    liveOutputs := UInt32.ofNat outputs.length
    feeMicronoid := t.feeMicronoid.toUInt64
    coinbase := t.coinbase
    developmentPayout := t.developmentPayout
    epochAnchor := t.epochAnchor
    inputOwner := t.inputOwner
    inputSumMicronoid := t.inputSumMicronoid
    outputSumMicronoid := t.outputSumMicronoid
    pageHashes := db.pageHashesOf t.id
    inputs := inputs
    outputs := outputs }

/-- A body of given fields and transactions, its totals recomputed. -/
def bodyOf (proofClass : String) (reward : UInt64) (totalFees : String)
    (txs : List BlockTransactionInfo) : RetainedBlockInfo where
  proofClass := proofClass
  logicalTransactions := UInt32.ofNat txs.length
  userPages := userPagesTotal txs
  liveInputs := liveInputsTotal txs
  liveOutputs := liveOutputsTotal txs
  rewardMicronoid := reward
  totalFeesMicronoid := totalFees
  blockBytes := 0
  transactions := txs

/-- The captured row of `(height, hash)`. -/
def capturedBlock (db : Db) (height : ℕ) (hash : String) : Option BlockRow :=
  db.blocks.rows.find? fun b => b.height = height ∧ b.hash = hash ∧ b.bodyCaptured

/-- The body of `(height, hash)` as recorded, or `none` if there is none. -/
def bodyFromDb (db : Db) (height : ℕ) (hash : String) :
    Except String (Option RetainedBlockInfo) :=
  match db.capturedBlock height hash with
  | none => return none
  | some b => do
    let missing := "block row is marked captured but has no body fields"
    let proofClass ← orError missing b.proofClass
    let reward ← orError missing b.rewardMicronoid
    let totalFees ← orError missing b.totalFeesMicronoid
    let txs ← ((db.transactionsOf b.id).insertionSort fun t u => t.position ≤ u.position).mapM
      db.readTransaction
    return some (bodyOf proofClass reward.toUInt64 totalFees txs)

end Db

end Permanode
