import Mathlib.Algebra.BigOperators.Group.Multiset.Basic
import Mathlib.Data.List.MinMax
import Permanode.Foundations.Joins
import Permanode.Foundations.Paging
import Permanode.Ledger.HeaderStatus
import Permanode.Ledger.References
import Permanode.Queries.AddUp

/-!
# Queries/History — the history of an address, page by page

`txs_by_address` and `receipt_txs_by_address` (`core/src/queries.rs`): the canonical transactions an
address sent or received something in, the newest first, with what each did to its balance.  The
pages hold each once (`txsByAddress_pages`), and what those of the archive did adds up to the
figures of `address_balance` (`txsByAddress_deltas`).  Those marked as receipts are as many as
`receipt_txs_by_address` counts, which does not look at the block (`Execution.receipts_of_history`).
-/

namespace Permanode

open Outcome Prog

/-- `TxSummary`. -/
structure TxSummary where
  position : ℕ
  txid : String
  pageCount : ℕ
  feeMicronoid : Int64
  coinbase : Bool
  developmentPayout : Bool
  inputOwner : Option String
  receiver : Option String
  inputSumMicronoid : String
  outputSumMicronoid : String
  height : ℕ
  timestamp : Int64
  nInputs : ℕ
  nOutputs : ℕ
  addressDeltaMicronoid : Option String
  counterparty : Option String
  contract : Option String
  source : Option String
  deriving DecidableEq, Repr

/-- `contract_kind`: `transactions.contract_flags` as the API names it. -/
def contractKind (flags : ℕ) : Option String :=
  if flags = 0 then none else if flags / 2 % 2 ≠ 0 then some "close" else some "call"

/-- `source_kind`: `transactions.source` as the API names it. -/
def sourceKind (source : Option String) : Option String :=
  if source = some receiptSource then some receiptSource else none

namespace Db

/-- The owner of the first output of a transaction among those that pass a test. -/
def firstOwner (db : Db) (txId : ℕ) (p : String → Bool) : Option String :=
  (List.argmin OutputRow.idx (db.txOutputs.rows.filter fun o => o.txId = txId ∧ p o.owner)).map
    OutputRow.owner

/-- `tx_summary_from_row`. -/
def txSummary (db : Db) (r : TransactionRow × BlockRow)
    (addressDelta counterparty : Option String) : TxSummary where
  position := r.1.position
  txid := r.1.txid
  pageCount := r.1.pageCount
  feeMicronoid := r.1.feeMicronoid
  coinbase := r.1.coinbase
  developmentPayout := r.1.developmentPayout
  inputOwner := r.1.inputOwner
  receiver := db.firstOwner r.1.id fun _ => true
  inputSumMicronoid := r.1.inputSumMicronoid
  outputSumMicronoid := r.1.outputSumMicronoid
  height := r.2.height
  timestamp := r.2.timestamp
  nInputs := db.inputCount r.1.id
  nOutputs := db.outputCount r.1.id
  addressDeltaMicronoid := addressDelta
  counterparty := counterparty
  contract := contractKind r.1.contractFlags
  source := sourceKind r.1.source

/-- A transaction the address sent, or has an output of. -/
def involves (db : Db) (address : String) (t : TransactionRow) : Bool :=
  t.inputOwner = some address ∨ db.txOutputs.rows.any fun o => o.txId = t.id ∧ o.owner = address

/-- The block of a transaction if it is canonical. -/
def canonicalBlockOf (db : Db) (t : TransactionRow) : Option BlockRow :=
  (db.block? t.blockId).filter fun b => db.isCanonical b.id

/-- The transactions of an address in canonical blocks, newest first. -/
def historyOf (db : Db) (address : String) : List (TransactionRow × BlockRow) :=
  ((db.transactions.rows.filter (db.involves address)).filterMap fun t =>
    (db.canonicalBlockOf t).map (t, ·)).insertionSort fun r s =>
      toLex (s.2.height, s.1.position) ≤ toLex (r.2.height, r.1.position)

/-- What a transaction gave the address. -/
def givenTo (db : Db) (address : String) (t : TransactionRow) : List ℤ :=
  (db.txOutputs.rows.filter fun o => o.txId = t.id ∧ o.owner = address).map OutputRow.amount

/-- What it took. -/
def takenFrom (address : String) (t : TransactionRow) : ℤ :=
  if t.inputOwner = some address then t.inputSum else 0

/-- `address_delta` as the row shows it: a difference that does not fit its column is no integer. -/
def addressDelta (db : Db) (address : String) (t : TransactionRow) :
    Except String (Option String) := do
  let given ← Sql.sum (db.givenTo address t)
  let delta := given - takenFrom address t
  return if Sql.Fits delta then some (toString delta) else none

/-- A row of the history. -/
def historyRow (db : Db) (address : String) (r : TransactionRow × BlockRow) :
    Except String TxSummary := do
  let delta ← db.addressDelta address r.1
  return db.txSummary r delta (db.firstOwner r.1.id (· ≠ address))

/-- A page of the history, and how many transactions there are. -/
def txsByAddress (db : Db) (address : String) (page pageSize : ℕ) :
    Except String (List TxSummary × ℕ) := do
  let offset := min (2 ^ 63 - 1) ((max page 1 - 1) * pageSize)
  let total := (db.historyOf address).length
  if total ≤ offset then return ([], total)
  let items ← (((db.historyOf address).drop offset).take pageSize).mapM (db.historyRow address)
  return (items, total)

/-- Of the history, the transactions of receipts. -/
def receiptTxsByAddress (db : Db) (address : String) : ℕ :=
  (db.transactions.rows.filter fun t =>
    t.source = some receiptSource ∧ db.involves address t).length

/-- What the first pages show. -/
def readHistory (db : Db) (address : String) (pageSize pages : ℕ) :
    Except String (List TxSummary) :=
  List.flatten <$> (List.range pages).mapM fun i =>
    Prod.fst <$> db.txsByAddress address (i + 1) pageSize

/-! ## The rows -/

variable {db : Db} {address : String} {pageSize pages : ℕ}

theorem perm_historyOf : (db.historyOf address).Perm
    ((db.transactions.rows.filter (db.involves address)).filterMap fun t =>
      (db.canonicalBlockOf t).map (t, ·)) :=
  List.perm_insertionSort _ _

/-- The history holds the transactions of the address in canonical blocks, each with its block. -/
theorem mem_historyOf {t : TransactionRow} {b : BlockRow} : (t, b) ∈ db.historyOf address
    ↔ t ∈ db.transactions.rows ∧ db.involves address t = true ∧ db.canonicalBlockOf t = some b := by
  rw [perm_historyOf.mem_iff, List.mem_filterMap]
  constructor
  · rintro ⟨t, ht, hb⟩
    obtain ⟨c, hc, heq⟩ := Option.map_eq_some_iff.mp hb
    obtain ⟨rfl, rfl⟩ := Prod.mk.inj heq
    obtain ⟨ht, hin⟩ := List.mem_filter.mp ht
    exact ⟨ht, hin, hc⟩
  · rintro ⟨ht, hin, hb⟩
    exact ⟨t, List.mem_filter.mpr ⟨ht, hin⟩, by rw [hb]; rfl⟩

/-- The transactions of the history that pass a test, in the order of the table. -/
theorem perm_history_filter (p : TransactionRow → Bool) :
    (((db.historyOf address).filter fun r => p r.1).map Prod.fst).Perm
      (db.transactions.rows.filter fun t =>
        db.involves address t && (db.canonicalBlockOf t).any fun _ => p t) := by
  refine ((perm_historyOf.filter _).map Prod.fst).trans (List.Perm.of_eq ?_)
  rw [map_fst_filter_partner db.canonicalBlockOf fun r => p r.1, List.filter_filter]
  exact List.filter_congr fun t _ => Bool.and_comm ..

/-- Each transaction stands in its history once. -/
theorem nodup_historyOf : ((db.historyOf address).map fun r => r.1.id).Nodup := by
  have hperm := (@perm_history_filter db address fun _ => true).map TransactionRow.id
  rw [List.filter_true, List.map_map] at hperm
  exact hperm.nodup_iff.mpr (db.nodup_transactionIds.sublist (List.filter_sublist.map _))

/-- A page by its number is that chunk of the history. -/
theorem txsByAddress_eq (htotal : (db.historyOf address).length < 2 ^ 63) (i : ℕ) :
    Prod.fst <$> db.txsByAddress address (i + 1) pageSize
      = (Paging.chunk pageSize (db.historyOf address) i).mapM (db.historyRow address) := by
  have hpage : max (i + 1) 1 - 1 = i := by omega
  rw [txsByAddress, hpage]
  by_cases hend : (db.historyOf address).length ≤ i * pageSize
  · rw [if_pos (le_min (by omega) hend), Paging.chunk, List.drop_eq_nil_of_le hend, List.take_nil]
    rfl
  · rw [if_neg (fun h => hend (h.trans (min_le_right _ _))), min_eq_right (by omega), Paging.chunk]
    rcases (((db.historyOf address).drop (i * pageSize)).take pageSize).mapM
      (db.historyRow address) with e | items
    · rfl
    · rfl

theorem readHistory_eq (htotal : (db.historyOf address).length < 2 ^ 63)
    (hpages : (db.historyOf address).length ≤ pages * pageSize) :
    db.readHistory address pageSize pages
      = (db.historyOf address).mapM (db.historyRow address) := by
  rw [← Paging.mapM_chunks _ hpages, readHistory]
  simp only [← txsByAddress_eq htotal]

/-- The newest first, within a block from its end. -/
def NewerFirst (r s : TransactionRow × BlockRow) : Prop :=
  s.2.height < r.2.height ∨ s.2.height = r.2.height ∧ s.1.position ≤ r.1.position

/-- Where a row of the history stands. -/
def historyKey (r : TransactionRow × BlockRow) : ℕ ×ₗ ℕ := toLex (r.2.height, r.1.position)

theorem pairwise_historyOf : (db.historyOf address).Pairwise NewerFirst := by
  have hsorted : (db.historyOf address).Pairwise fun r s => historyKey s ≤ historyKey r :=
    List.pairwise_insertionSort (fun r s => historyKey s ≤ historyKey r) _
  exact hsorted.imp fun h => Prod.Lex.toLex_le_toLex.mp h

/-- **Enough pages, of any size, are the history**: the transactions an address sent or received
something in that stand in a canonical block, each once and the newest first; and reading them fails
only where a row of it cannot be read. -/
theorem txsByAddress_pages (htotal : (db.historyOf address).length < 2 ^ 63)
    (hpages : (db.historyOf address).length ≤ pages * pageSize) :
    db.readHistory address pageSize pages = (db.historyOf address).mapM (db.historyRow address)
      ∧ ((db.historyOf address).map fun r => r.1.id).Nodup
      ∧ (db.historyOf address).Pairwise NewerFirst
      ∧ ∀ t b, (t, b) ∈ db.historyOf address ↔ t ∈ db.transactions.rows
        ∧ (t.inputOwner = some address ∨ ∃ o ∈ db.txOutputs.rows, o.txId = t.id ∧ o.owner = address)
        ∧ db.block? t.blockId = some b ∧ db.isCanonical b.id = true := by
  refine ⟨readHistory_eq htotal hpages, nodup_historyOf, pairwise_historyOf, fun t b => ?_⟩
  rw [mem_historyOf, canonicalBlockOf, Option.filter_eq_some_iff, involves, decide_eq_true_eq,
    List.any_eq_true]
  simp only [decide_eq_true_eq]

/-- A coin received and spent, a transaction a page. -/
theorem txsByAddress_pages_settled :
    settledCoin.readHistory "alice" 1 2
      = (settledCoin.historyOf "alice").mapM (settledCoin.historyRow "alice")
      ∧ (settledCoin.historyOf "alice").map (fun r => r.2.height) = [2, 1] :=
  ⟨(txsByAddress_pages (by decide +kernel) (by decide +kernel)).1, by decide +kernel⟩

/-! ## What they add up to -/

theorem counts_iff {t : TransactionRow} (ht : t ∈ db.transactions.rows) :
    db.counts t.id = true ↔ ((db.canonicalBlockOf t).any fun _ => t.recorded) = true := by
  have hfind : db.recordedHeight t.id = (db.block? t.blockId).bind fun b =>
      if t.recorded ∧ db.isCanonical b.id then some b.height else none := by
    have hfound := transaction?_eq_some ht
    rw [transaction?] at hfound
    rw [recordedHeight, hfound]
    rfl
  rw [counts, hfind, canonicalBlockOf]
  rcases db.block? t.blockId with _ | b
  · rfl
  · by_cases hc : db.isCanonical b.id = true <;> by_cases hr : t.recorded = true <;> simp [hc, hr]

/-- The recorded transactions of the history. -/
def countedHistory (db : Db) (address : String) : List (TransactionRow × BlockRow) :=
  (db.historyOf address).filter fun r => r.1.recorded

/-- The transactions that count for an address. -/
def countedTransactions (db : Db) (address : String) : List TransactionRow :=
  db.transactions.rows.filter fun t => db.involves address t && db.counts t.id

theorem perm_countedHistory : ((db.countedHistory address).map Prod.fst).Perm
    (db.countedTransactions address) := by
  refine (perm_history_filter TransactionRow.recorded).trans (List.Perm.of_eq ?_)
  refine List.filter_congr fun t ht => ?_
  rw [Bool.eq_iff_iff, Bool.and_eq_true, Bool.and_eq_true, counts_iff ht]

/-- **What the counted transactions gave an address** is what it received. -/
theorem sum_givenTo : ((db.countedTransactions address).map fun t => (db.givenTo address t).sum).sum
    = ((db.receivedOutputs address).map OutputRow.amount).sum := by
  let rows := (db.receivedOutputs address).map fun o => (o.txId, o.amount)
  have hkeys : ((db.countedTransactions address).map TransactionRow.id).Nodup :=
    db.nodup_transactionIds.sublist (List.filter_sublist.map _)
  have hcover : ∀ r ∈ rows, r.1 ∈ (db.countedTransactions address).map TransactionRow.id := by
    intro r hr
    obtain ⟨o, ho, rfl⟩ := List.mem_map.mp hr
    obtain ⟨hmem, howner, hc⟩ := mem_receivedOutputs.mp ho
    obtain ⟨t, ht⟩ := transaction?_of_counts hc
    obtain ⟨htx, hid⟩ := mem_of_transaction? ht
    refine List.mem_map.mpr ⟨t, List.mem_filter.mpr ⟨htx, Bool.and_eq_true_iff.mpr ⟨?_, ?_⟩⟩, hid⟩
    · exact decide_eq_true (Or.inr (List.any_eq_true.mpr
        ⟨o, hmem, decide_eq_true ⟨hid.symm, howner⟩⟩))
    · rw [hid]
      exact hc
  have hgroup : ∀ t ∈ db.countedTransactions address,
      (db.givenTo address t).sum = ((rows.filter fun r => r.1 = t.id).map Prod.snd).sum := by
    intro t ht
    have hc : db.counts t.id = true := (Bool.and_eq_true_iff.mp (List.mem_filter.mp ht).2).2
    rw [givenTo, List.filter_map, List.map_map, receivedOutputs, List.filter_filter]
    refine congrArg List.sum (congrArg _ (List.filter_congr fun o _ => ?_))
    by_cases hid : o.txId = t.id
    · simp [hid, hc]
    · simp [hid]
  calc ((db.countedTransactions address).map fun t => (db.givenTo address t).sum).sum
      = (((db.countedTransactions address).map TransactionRow.id).map fun k =>
          ((rows.filter fun r => r.1 = k).map Prod.snd).sum).sum := by
        rw [List.map_map]
        exact congrArg List.sum (List.map_congr_left hgroup)
    _ = (rows.map Prod.snd).sum := Sql.sum_groups hkeys hcover
    _ = ((db.receivedOutputs address).map OutputRow.amount).sum := by
        rw [List.map_map]
        rfl

/-- **What they took** is what it sent. -/
theorem sum_takenFrom : ((db.countedTransactions address).map (takenFrom address)).sum
    = ((db.sentTransactions address).map TransactionRow.inputSum).sum := by
  let sent : TransactionRow → Bool := fun t => t.inputOwner = some address
  have hsent : (db.countedTransactions address).filter sent = db.sentTransactions address := by
    rw [countedTransactions, List.filter_filter]
    refine List.filter_congr fun t _ => ?_
    by_cases ho : t.inputOwner = some address
    · simp [sent, involves, ho]
    · simp [sent, ho]
  have hrest : (((db.countedTransactions address).filter fun t => !sent t).map
      (takenFrom address)).sum = 0 := by
    refine List.sum_eq_zero fun n hn => ?_
    obtain ⟨t, ht, rfl⟩ := List.mem_map.mp hn
    exact if_neg (of_decide_eq_false ((Bool.not_eq_true' _).mp (List.mem_filter.mp ht).2))
  rw [← Sql.sum_filter_add sent, hrest, add_zero, hsent]
  refine congrArg List.sum (List.map_congr_left fun t ht => if_pos ?_)
  exact (of_decide_eq_true (List.mem_filter.mp ht).2).1

/-- What a transaction did to the balance. -/
def deltaOf (db : Db) (address : String) (t : TransactionRow) : ℤ :=
  (db.givenTo address t).sum - takenFrom address t

theorem sum_deltaOf : ((db.countedHistory address).map fun r => db.deltaOf address r.1).sum
    = ((db.receivedOutputs address).map OutputRow.amount).sum
      - ((db.sentTransactions address).map TransactionRow.inputSum).sum := by
  have hperm := (@perm_countedHistory db address).map (db.deltaOf address)
  rw [List.map_map] at hperm
  refine hperm.sum_eq.trans ?_
  rw [← sum_givenTo, ← sum_takenFrom]
  exact Multiset.sum_map_sub (m := (db.countedTransactions address : Multiset TransactionRow))

/-- The source and the effect a row shows. -/
theorem historyRow_ok {r : TransactionRow × BlockRow} {item : TxSummary}
    (h : db.historyRow address r = .ok item) :
    (item.source, item.addressDeltaMicronoid)
      = (sourceKind r.1.source, if Sql.Fits (db.deltaOf address r.1) then
          some (toString (db.deltaOf address r.1)) else none) := by
  simp only [historyRow, addressDelta, bind_ok, pure_ok] at h
  obtain ⟨_, ⟨given, hgiven, rfl⟩, rfl⟩ := h
  rw [Sql.eq_of_sum hgiven]
  rfl

theorem recorded_iff {t : TransactionRow} : t.recorded = true ↔ sourceKind t.source = none := by
  by_cases h : t.source = some receiptSource
  · simp [TransactionRow.recorded, sourceKind, h]
  · simp [TransactionRow.recorded, sourceKind, h]

/-- **The effects a reader of the history is shown add up to the figures of the address**: over the
transactions of the archive, what was received less what was sent.  One that is not shown, because
it does not fit its column, is all that could be missing. -/
theorem txsByAddress_deltas {items : List TxSummary} {bal : AddressBalance}
    (htotal : (db.historyOf address).length < 2 ^ 63)
    (hpages : (db.historyOf address).length ≤ pages * pageSize)
    (hitems : db.readHistory address pageSize pages = .ok items)
    (hshown : ∀ item ∈ items, item.source = none → item.addressDeltaMicronoid ≠ none)
    (hbal : db.addressBalance address = .ok bal) :
    ∃ deltas : List ℤ, ((items.filter fun item => item.source = none).map
        TxSummary.addressDeltaMicronoid) = deltas.map (fun d => some (toString d))
      ∧ deltas.sum = bal.totalReceived - bal.totalSent := by
  rw [readHistory_eq htotal hpages] at hitems
  obtain ⟨hreceived, -, -, hsent, -⟩ := addressBalance_ok hbal
  refine ⟨(db.countedHistory address).map fun r => db.deltaOf address r.1, ?_, ?_⟩
  · let shown : Option String × Option String → Bool := fun s => s.1 = none
    have hrows := map_of_mapM_ok (fun _ _ h => historyRow_ok h) hitems
    have hleft : ((items.map fun item => (item.source, item.addressDeltaMicronoid)).filter
        shown).map Prod.snd = (items.filter fun item => item.source = none).map
          TxSummary.addressDeltaMicronoid := by
      rw [List.filter_map, List.map_map]
      rfl
    rw [← hleft, hrows, List.filter_map, List.map_map, List.map_map, countedHistory]
    have hsame : (db.historyOf address).filter (fun r => r.1.recorded)
        = (db.historyOf address).filter fun r => decide (sourceKind r.1.source = none) :=
      List.filter_congr fun r _ => by rw [Bool.eq_iff_iff, recorded_iff, decide_eq_true_eq]
    rw [hsame]
    refine List.map_congr_left fun r hr => ?_
    obtain ⟨hmem, hsource⟩ := List.mem_filter.mp hr
    -- the row shows an effect, so that fits its column
    obtain ⟨item, hitem, heq⟩ := List.mem_map.mp (hrows.symm ▸ List.mem_map_of_mem hmem)
    obtain ⟨hkind, hdelta⟩ := Prod.mk.inj heq
    have hfits : Sql.Fits (db.deltaOf address r.1) := by
      by_contra hnot
      rw [if_neg hnot] at hdelta
      exact hshown item hitem (hkind.trans (of_decide_eq_true hsource)) hdelta
    exact if_pos hfits
  · rw [sum_deltaOf, hreceived, hsent]

/-- What alice is shown of the coin. -/
def settledHistory : List TxSummary := (settledCoin.readHistory "alice" 1 2).toOption.getD []

/-- Alice received 5 and sent 5. -/
theorem txsByAddress_deltas_settled :
    settledHistory.map TxSummary.addressDeltaMicronoid = [some "-5", some "5"]
      ∧ ∃ deltas : List ℤ, ((settledHistory.filter fun item => item.source = none).map
          TxSummary.addressDeltaMicronoid) = deltas.map (fun d => some (toString d))
        ∧ deltas.sum = 5 - 5 := by
  have hread : settledCoin.readHistory "alice" 1 2 = .ok settledHistory := by decide +kernel
  have hbal : settledCoin.addressBalance "alice" = .ok ⟨0, 0, 5, 5, 0, 0, 0⟩ := by decide +kernel
  exact ⟨by decide +kernel, txsByAddress_deltas (by decide +kernel) (by decide +kernel) hread
    (by decide +kernel) hbal⟩

end Db

/-! ## Receipts among them -/

variable {N : Noid} {cfg : Config} {allow : ∀ q : Query, q.Answer → Prop}

/-- **The history is the transactions that count and those of receipts**, in every run: the receipts
are counted without a look at their blocks, which are header-only and so canonical. -/
theorem Execution.receipts_of_history {tr : List (Db × Txn × Db)}
    {c : Prog.Config Query Query.Answer Db Txn String Thread} (h : Execution N cfg allow tr c)
    (address : String) :
    (c.store.historyOf address).length
        = (c.store.countedTransactions address).length + c.store.receiptTxsByAddress address
      ∧ ((c.store.historyOf address).filter fun r =>
          sourceKind r.1.source = some receiptSource).length
        = c.store.receiptTxsByAddress address := by
  have hcanonical : ∀ t ∈ c.store.transactions.rows, t.recorded = false →
      ∃ b, c.store.canonicalBlockOf t = some b := by
    intro t ht hreceipt
    have hsource : t.source = some receiptSource := by
      simpa [TransactionRow.recorded] using hreceipt
    obtain ⟨b, hb, hbare⟩ := (Option.any_eq_true _ _).mp (h.kept.headerOnly t ht hsource)
    have harch : b.archived = false := by simpa using hbare
    refine ⟨b, Option.filter_eq_some_iff.mpr ⟨hb, ?_⟩⟩
    exact h.isCanonical_header (Db.mem_of_block? hb).1 harch
  have hreceipts : ((c.store.historyOf address).filter fun r => !r.1.recorded).length
      = c.store.receiptTxsByAddress address := by
    rw [← List.length_map Prod.fst, (Db.perm_history_filter fun t => !t.recorded).length_eq,
      Db.receiptTxsByAddress]
    refine congrArg _ (List.filter_congr fun t ht => ?_)
    by_cases hsource : t.source = some receiptSource
    · have hrec : t.recorded = false := by simp [TransactionRow.recorded, hsource]
      obtain ⟨b, hb⟩ := hcanonical t ht hrec
      rw [hb, Option.any_some, hrec]
      simp [hsource]
    · have hrec : t.recorded = true := by simp [TransactionRow.recorded, hsource]
      simp [hrec, hsource]
  have hcounted : ((c.store.historyOf address).filter fun r => r.1.recorded).length
      = (c.store.countedTransactions address).length := by
    rw [← Db.perm_countedHistory.length_eq, List.length_map, Db.countedHistory]
  refine ⟨?_, hreceipts ▸ congrArg _ (List.filter_congr fun r _ => ?_)⟩
  · rw [← hreceipts, ← hcounted]
    exact List.length_eq_length_filter_add _
  · by_cases hsource : r.1.source = some receiptSource
    · simp [sourceKind, TransactionRow.recorded, hsource]
    · simp [sourceKind, TransactionRow.recorded, hsource]

/-- The archive with a receipt of alice's. -/
def receiptDb : Db := playAll (Txn.exec Noid.sample {}) receiptStints Db.empty

/-- The receipt is in the history of its sender. -/
theorem Execution.receipts_of_history_alice :
    receiptDb.receiptTxsByAddress "alice" = 1
      ∧ (receiptDb.historyOf "alice").length
        = (receiptDb.countedTransactions "alice").length + receiptDb.receiptTxsByAddress "alice" :=
  ⟨by decide +kernel, (Execution.receipts_of_history run_receiptStints "alice").1⟩

end Permanode
