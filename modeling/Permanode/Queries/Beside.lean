import Permanode.Import.ReceiptRun
import Permanode.Import.RoundTrip
import Permanode.Indexer.Slices
import Permanode.Queries.Stats

/-!
# Queries/Beside — header-only blocks and receipts beside the archive

`insert_header_only_block` and `insert_receipt_transaction` add a canonical block nothing refers to,
and a transaction of such a block.  `Db.Beside` says what that leaves of a database whose foreign
keys hold (`Db.Referring`), and each query of the recorded history reads the same of both sides: a
row that is new is of a transaction that does not count (`Beside.recordedHeight_eq`).
-/

namespace Permanode

namespace Db

/-! ## The foreign keys -/

/-- **What the foreign keys keep**: a row refers to rows that are there. -/
structure Referring (db : Db) : Prop where
  lists : db.Intact
  log : db.LogRefers
  transactions : ∀ t ∈ db.transactions.rows, ∃ b ∈ db.blocks.rows, b.id = t.blockId

variable {db db' : Db} {address : String}

theorem Referring.block (h : db.Referring) {txId : ℕ} {t : TransactionRow}
    (ht : db.transaction? txId = some t) : ∃ b, db.block? t.blockId = some b := by
  obtain ⟨b, hb, hid⟩ := h.transactions t (mem_of_transaction? ht).1
  exact ⟨b, hid ▸ block?_eq_some hb⟩

theorem transaction?_ne_none {txId : ℕ} (h : ∃ t ∈ db.transactions.rows, t.id = txId) :
    ∃ t, db.transaction? txId = some t := by
  obtain ⟨t, ht, rfl⟩ := h
  exact ⟨t, transaction?_eq_some ht⟩

/-! ## Two databases -/

/-- `db'` has what `db` has, and beside it header-only blocks, with the transactions of receipts in
such blocks. -/
structure Beside (db db' : Db) : Prop where
  archived : db'.blocks.rows.filter BlockRow.archived = db.blocks.rows.filter BlockRow.archived
  block : ∀ id b, db.block? id = some b → ∃ n, db'.block? id = some { b with txCountTotal := n }
  log : ∀ id b, db.block? id = some b → db'.statusesOf id = db.statusesOf id
  transactions : ∃ new, db'.transactions.rows = db.transactions.rows ++ new ∧ ∀ t ∈ new,
    t.source = some receiptSource ∧ db.transaction? t.id = none ∧ db.isHeaderOnly t.blockId = true
  pageHashes : ∃ new, db'.txPageHashes.rows = db.txPageHashes.rows ++ new
    ∧ ∀ r ∈ new, db'.fromReceipt r.txId = true ∧ db.transaction? r.txId = none
  inputs : ∃ new, db'.txInputs.rows = db.txInputs.rows ++ new
    ∧ ∀ i ∈ new, db'.fromReceipt i.txId = true ∧ db.transaction? i.txId = none
  outputs : ∃ new, db'.txOutputs.rows = db.txOutputs.rows ++ new
    ∧ ∀ o ∈ new, (db'.fromReceipt o.txId = true ∧ db.transaction? o.txId = none)
      ∧ o.creationId = none ∧ o.spentInGap = false
  rawBlocks : db'.rawBlocks = db.rawBlocks
  stateSlots : db'.stateSlots = db.stateSlots
  ingestGaps : db'.ingestGaps = db.ingestGaps
  indexerState : db'.indexerState = db.indexerState
  addressBalanceCache : db'.addressBalanceCache = db.addressBalanceCache

theorem Beside.refl (db : Db) : db.Beside db where
  archived := rfl
  block _ b h := ⟨b.txCountTotal, h⟩
  log _ _ _ := rfl
  transactions := ⟨[], (List.append_nil _).symm, nofun⟩
  pageHashes := ⟨[], (List.append_nil _).symm, nofun⟩
  inputs := ⟨[], (List.append_nil _).symm, nofun⟩
  outputs := ⟨[], (List.append_nil _).symm, nofun⟩
  rawBlocks := rfl
  stateSlots := rfl
  ingestGaps := rfl
  indexerState := rfl
  addressBalanceCache := rfl

/-! ## The two writers -/

/-- **A header-only block stands beside the archive.** -/
theorem beside_insertHeaderOnlyBlock {h : BlockHeaderInfo} {now : Instant} {inserted : Bool}
    (hins : db.insertHeaderOnlyBlock h now = .ok (db', inserted)) : db.Beside db' := by
  rcases insertHeaderOnlyBlock_cases hins with ⟨-, rfl, -⟩ | ⟨-, -, db₁, hrows, hsame, rfl⟩
  · exact .refl _
  let row := headerRow (db.blocks.nextId BlockRow.id) h false (some headerOnlySource) now
  have hblocks : (db₁.appendStatus (db.blocks.nextId BlockRow.id) .canonical now).blocks.rows
      = db.blocks.rows ++ [row] := hrows
  constructor
  case archived =>
    rw [hblocks, List.filter_append]
    exact List.append_nil _
  case block =>
    intro id b hb
    refine ⟨b.txCountTotal, ?_⟩
    rw [block?, hblocks, List.find?_append]
    rw [block?] at hb
    rw [hb]
    rfl
  case log =>
    intro id b hb
    have hne : id ≠ db.blocks.nextId BlockRow.id := by
      obtain ⟨hmem, rfl⟩ := mem_of_block? hb
      exact (Table.lt_nextId hmem).ne
    rw [statusesOf_appendStatus, if_neg hne, hsame]
    rfl
  case transactions => exact ⟨[], by rw [List.append_nil, hsame]; rfl, List.forall_mem_nil _⟩
  case pageHashes => exact ⟨[], by rw [List.append_nil, hsame]; rfl, List.forall_mem_nil _⟩
  case inputs => exact ⟨[], by rw [List.append_nil, hsame]; rfl, List.forall_mem_nil _⟩
  case outputs => exact ⟨[], by rw [List.append_nil, hsame]; rfl, List.forall_mem_nil _⟩
  all_goals
    rw [hsame]
    rfl

/-- **So does the transaction of a receipt.** -/
theorem beside_insertReceiptTransaction {blockId : ℕ} {tx : ReceiptTransaction} {now : Instant}
    {inserted : Bool} (hins : db.insertReceiptTransaction blockId tx now = .ok (db', inserted)) :
    db.Beside db' := by
  obtain ⟨hheader, -, -, ⟨-, rfl, -⟩ | ⟨-, hwrite, -⟩⟩ := insertReceiptTransaction_ok.mp hins
  · exact .refl _
  have hw := writeReceiptTransaction_ok hwrite
  let id := db.transactions.nextId TransactionRow.id
  have hfresh : db.transaction? id = none := by
    refine List.find?_eq_none.mpr fun t ht => ?_
    have hne : t.id ≠ id := (Table.lt_nextId ht).ne
    simpa using hne
  have hreceipt : db'.fromReceipt id = true := by
    refine List.any_eq_true.mpr ⟨receiptRow id blockId tx, ?_, decide_eq_true ⟨rfl, rfl⟩⟩
    rw [hw.transactions]
    exact List.mem_append_right _ (List.mem_singleton_self _)
  constructor
  case archived =>
    rw [hw.blocks]
    refine Table.filter_map_updated fun b hb hid => ?_
    have hbid : b.id = blockId := of_decide_eq_true hid
    have hnot : b.archived = false := by
      rw [isHeaderOnly, ← hbid, block?_eq_some hb] at hheader
      simpa using hheader
    exact ⟨hnot, hnot⟩
  case block =>
    intro k b hb
    rw [hw.block?, hb, Option.map_some, Table.updated]
    split_ifs
    · exact ⟨_, rfl⟩
    · exact ⟨b.txCountTotal, rfl⟩
  case log =>
    rw [hw.rest]
    exact fun _ _ _ => rfl
  case transactions =>
    refine ⟨_, hw.transactions, fun t ht => ?_⟩
    rw [List.mem_singleton.mp ht]
    exact ⟨rfl, hfresh, hheader⟩
  case pageHashes =>
    refine ⟨_, hw.pageHashes, fun r hr => ?_⟩
    obtain ⟨x, -, rfl⟩ := List.mem_map.mp hr
    exact ⟨hreceipt, hfresh⟩
  case inputs =>
    refine ⟨_, hw.inputs, fun r hr => ?_⟩
    obtain ⟨x, -, rfl⟩ := List.mem_map.mp hr
    exact ⟨hreceipt, hfresh⟩
  case outputs =>
    refine ⟨_, hw.outputs, fun r hr => ?_⟩
    obtain ⟨x, -, rfl⟩ := List.mem_map.mp hr
    exact ⟨⟨hreceipt, hfresh⟩, rfl, rfl⟩
  all_goals
    rw [hw.rest]
    rfl

end Db

end Permanode
