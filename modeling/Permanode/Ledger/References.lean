import Permanode.Ledger.Filing
import Permanode.Ledger.HeaderRun
import Permanode.Queries.Untouched

/-!
# Ledger/References — rows refer to rows that are there

The foreign keys of the schema, and what `tx_receipts` adds to them: a transaction of a receipt
stands in a header-only block.  Adding to the record keeps them (`Db.Kept.files`), a receipt adds a
transaction of its own, and `prune_older_than` takes a block's transactions with all that refers to
them.  So in every run the references hold (`Execution.references_hold`).
-/

namespace Permanode

open Outcome Prog

variable {N : Noid} {cfg : Config} {allow : ∀ q : Query, q.Answer → Prop} {t : Txn} {db db' : Db}

/-! ## What is kept -/

namespace Db

/-- The receipt transactions of a block, by their cards. -/
def receiptCards (db : Db) (id : ℕ) : List TransactionCard :=
  db.txCards.filter fun c => c.blockId = id ∧ c.source = some receiptSource

theorem map_card_receiptsOf (db : Db) (id : ℕ) :
    (db.receiptsOf id).map TransactionRow.card = db.receiptCards id := by
  rw [receiptCards, txCards, List.filter_map]
  rfl

/-- **The references hold**: rows refer to rows that are there, receipts are of transactions in
header-only blocks, and the rows of receipts are in order. -/
structure Kept (db : Db) : Prop where
  referring : db.Referring
  raw : ∀ r ∈ db.rawBlocks.rows, r.blockId ∈ db.blockIds
  receipts : ∀ r ∈ db.txReceipts.rows, ∃ t ∈ db.transactions.rows,
    t.id = r.txId ∧ t.source = some receiptSource
  headerOnly : ∀ t ∈ db.transactions.rows, t.source = some receiptSource → db.isHeaderOnly t.blockId
  inOrder : db.ReceiptsKept

/-- The order of the rows of receipts, by the cards. -/
structure CardsKept (db : Db) (c : BlockCard) : Prop where
  places : c.archived = false → ∀ t ∈ db.receiptCards c.id,
    ∃ n, c.count = some n ∧ 1 ≤ t.position ∧ t.position < n
  distinct : c.archived = false → ((db.receiptCards c.id).map TransactionCard.position).Nodup
  kept : c.archived = false → ∀ t ∈ db.receiptCards c.id,
    (db.txReceipts.rows.filter fun r => r.txId = t.id).length = 1
  counted : c.count.isSome ↔ c.archived = false ∧ db.receiptCards c.id ≠ []

theorem receiptsKept_iff : db.ReceiptsKept ↔ ∀ c ∈ db.blockCards, db.CardsKept c := by
  have hpositions : ∀ id, (db.receiptCards id).map TransactionCard.position
      = (db.receiptsOf id).map TransactionRow.position := by
    intro id
    rw [← map_card_receiptsOf, List.map_map]
    rfl
  constructor
  · intro h c hc
    obtain ⟨b, hb, rfl⟩ := List.mem_map.mp hc
    refine ⟨fun ha t ht => ?_, fun ha => ?_, fun ha t ht => ?_, ?_⟩
    · rw [← map_card_receiptsOf] at ht
      obtain ⟨r, hr, rfl⟩ := List.mem_map.mp ht
      exact h.places b hb ha r hr
    · rw [hpositions]
      exact h.distinct b hb ha
    · rw [← map_card_receiptsOf] at ht
      obtain ⟨r, hr, rfl⟩ := List.mem_map.mp ht
      exact h.kept b hb ha r hr
    · rw [← map_card_receiptsOf, ne_eq, List.map_eq_nil_iff]
      exact h.counted b hb
  · intro h
    have hcard : ∀ b ∈ db.blocks.rows, db.CardsKept b.card := fun b hb =>
      h _ (List.mem_map_of_mem hb)
    refine ⟨fun b hb ha t ht => ?_, fun b hb ha => ?_, fun b hb ha t ht => ?_, fun b hb => ?_⟩
    · refine (hcard b hb).places ha t.card ?_
      rw [← map_card_receiptsOf]
      exact List.mem_map_of_mem ht
    · rw [← hpositions]
      exact (hcard b hb).distinct ha
    · refine (hcard b hb).kept ha t.card ?_
      rw [← map_card_receiptsOf]
      exact List.mem_map_of_mem ht
    · have hcounted := (hcard b hb).counted
      rwa [← map_card_receiptsOf, ne_eq, List.map_eq_nil_iff] at hcounted

theorem isHeaderOnly_iff {id : ℕ} :
    db.isHeaderOnly id = true ↔ ∃ c ∈ db.blockCards, c.id = id ∧ c.archived = false := by
  rw [isHeaderOnly, Option.any_eq_true]
  constructor
  · rintro ⟨b, hb, harch⟩
    obtain ⟨hmem, hid⟩ := mem_of_block? hb
    have harch : b.archived = false := by simpa using harch
    exact ⟨b.card, List.mem_map_of_mem hmem, hid, harch⟩
  · rintro ⟨c, hc, rfl, harch⟩
    obtain ⟨b, hb, rfl⟩ := List.mem_map.mp hc
    have harch : b.archived = false := harch
    exact ⟨b, block?_eq_some hb, by rw [harch]; rfl⟩

theorem nodup_cardIds (db : Db) : db.blockIds.Nodup := by
  rw [blockIds, blockCards, List.map_map]
  exact List.pairwise_map.mpr (db.blocks.unique.imp fun h hid => by
    have hid : _ = _ := hid
    simp [Row.clash, BlockRow.card] at h hid
    exact h.1 hid)

/-- A block that is not there has no transactions. -/
theorem Referring.receiptCards_eq_nil (h : db.Referring) {id : ℕ} (hid : id ∉ db.blockIds) :
    db.receiptCards id = [] := by
  refine List.filter_eq_nil_iff.mpr fun c hc hown => ?_
  obtain ⟨t, ht, rfl⟩ := List.mem_map.mp hc
  have hblock : t.blockId = id := (of_decide_eq_true hown).1
  exact hid (hblock ▸ mem_blockIds.mpr (h.transactions t ht))

/-- New blocks are of ids that were free. -/
theorem Files.new_free {new : List BlockCard} (hnew : db'.blockCards = db.blockCards ++ new)
    {c : BlockCard} (hc : c ∈ new) : c.id ∉ db.blockIds := by
  have hnodup := db'.nodup_cardIds
  rw [blockIds, hnew, List.map_append] at hnodup
  exact fun hold => (List.nodup_append.mp hnodup).2.2 c.id hold c.id (List.mem_map_of_mem hc) rfl

theorem Files.receiptCards_eq (hf : db.Files db') (id : ℕ) :
    db'.receiptCards id = db.receiptCards id := by
  obtain ⟨new, hnew, hsrc⟩ := hf.transactions
  rw [receiptCards, hnew, List.filter_append, receiptCards]
  refine (congrArg _ ?_).trans (List.append_nil _)
  refine List.filter_eq_nil_iff.mpr fun c hc hown => ?_
  have hreceipt : c.source = some receiptSource := (of_decide_eq_true hown).2
  exact absurd ((hsrc c hc).1.symm.trans hreceipt) nofun

/-- **Adding to the record keeps the references.** -/
theorem Kept.files (h : db.Kept) (hf : db.Files db') (hlog : db'.LogRefers) : db'.Kept := by
  obtain ⟨newb, hnewb, hcount⟩ := hf.blocks
  obtain ⟨newt, hnewt, hsrc⟩ := hf.transactions
  have hold : ∀ {id : ℕ} {src : Option String},
    (∃ t ∈ db.transactions.rows, t.id = id ∧ t.source = src) →
      ∃ t ∈ db'.transactions.rows, t.id = id ∧ t.source = src := by
    rintro _ _ ⟨t, ht, rfl, rfl⟩
    have hmem : t.card ∈ db'.txCards := hnewt ▸ List.mem_append_left _ (List.mem_map_of_mem ht)
    obtain ⟨t', ht', heq⟩ := List.mem_map.mp hmem
    exact ⟨t', ht', congrArg TransactionCard.id heq, congrArg TransactionCard.source heq⟩
  have hcard : ∀ t' ∈ db'.transactions.rows,
      (∃ t ∈ db.transactions.rows, t.card = t'.card) ∨ t'.card ∈ newt := by
    intro t' ht'
    have hmem : t'.card ∈ db'.txCards := List.mem_map_of_mem ht'
    rw [hnewt] at hmem
    exact (List.mem_append.mp hmem).imp_left List.mem_map.mp
  refine ⟨⟨intact_iff.mpr fun id hid => ?_, hlog, fun t' ht' => ?_⟩, fun r hr => ?_, fun r hr => ?_,
    fun t' ht' hreceipt => ?_, receiptsKept_iff.mpr fun c hc => ?_⟩
  · rcases hf.parts id hid with hid | hid
    · exact hf.txIds_subset (intact_iff.mp h.referring.lists id hid)
    · exact hid
  · rcases hcard t' ht' with ⟨t, ht, heq⟩ | hnew
    · have hid : t.blockId = t'.blockId := congrArg TransactionCard.blockId heq
      exact mem_blockIds.mp (hid ▸ hf.blockIds_subset
        (mem_blockIds.mpr (h.referring.transactions t ht)))
    · exact mem_blockIds.mp (hsrc _ hnew).2
  · rcases hf.raw r hr with ⟨s, hs, heq⟩ | hid
    · exact heq ▸ hf.blockIds_subset (h.raw s hs)
    · exact hid
  · exact hold (h.receipts r (hf.receipts ▸ hr))
  · rcases hcard t' ht' with ⟨t, ht, heq⟩ | hnew
    · have hid : t.blockId = t'.blockId := congrArg TransactionCard.blockId heq
      have hsource : t.source = t'.source := congrArg TransactionCard.source heq
      obtain ⟨c, hc, hcid, harch⟩ := isHeaderOnly_iff.mp
        (h.headerOnly t ht (hsource.trans hreceipt))
      exact isHeaderOnly_iff.mpr ⟨c, hnewb ▸ List.mem_append_left _ hc, hcid.trans hid, harch⟩
    · have hnone : t'.source = none := (hsrc _ hnew).1
      exact absurd (hnone.symm.trans hreceipt) nofun
  · rw [hnewb] at hc
    rcases List.mem_append.mp hc with hc | hc
    · obtain ⟨hplaces, hdistinct, hkept, hcounted⟩ := receiptsKept_iff.mp h.inOrder c hc
      rw [← hf.receiptCards_eq] at hplaces hdistinct hkept hcounted
      exact ⟨hplaces, hdistinct, hf.receipts ▸ hkept, hcounted⟩
    -- a new block has no receipts, and no count
    · have hnil : db'.receiptCards c.id = [] :=
        (hf.receiptCards_eq c.id).trans (h.referring.receiptCards_eq_nil (Files.new_free hnewb hc))
      refine ⟨fun _ t ht => ?_, fun _ => ?_, fun _ t ht => ?_, ?_⟩
      · exact absurd (hnil ▸ ht) List.not_mem_nil
      · rw [hnil]
        exact List.nodup_nil
      · exact absurd (hnil ▸ ht) List.not_mem_nil
      · rw [hcount c hc]
        exact iff_of_false nofun fun hne => hne.2 hnil

/-! ### Pruning -/

/-- **What pruning a block leaves**: no receipt was of its transactions, which go with all that
refers to them. -/
theorem cards_pruneBlock {blockId : ℕ} (h : db.pruneBlock blockId = .ok db') :
    let ids := (db.transactionsOf blockId).map TransactionRow.id
    (∀ r ∈ db.txReceipts.rows, r.txId ∉ ids) ∧ db'.txReceipts = db.txReceipts
      ∧ db'.blockCards = db.blockCards
      ∧ db'.transactions.rows = db.transactions.rows.filter (fun t => !decide (t.blockId = blockId))
      ∧ (∀ id ∈ db'.parts, id ∈ db.parts ∧ id ∉ ids)
      ∧ ∀ r ∈ db'.rawBlocks.rows, r ∈ db.rawBlocks.rows := by
  intro ids
  unfold pruneBlock at h
  dsimp only at h
  split_ifs at h with hany
  obtain rfl := Except.ok.inj h
  refine ⟨fun r hr hid => hany (List.any_eq_true.mpr ⟨r, hr, decide_eq_true hid⟩), rfl,
    blockCards_updateBlocks fun _ _ _ => rfl, Table.rows_delete .., fun id hid => ?_,
    fun r hr => (List.mem_filter.mp hr).1⟩
  rcases mem_parts.mp hid with ⟨r, hr, rfl⟩ | ⟨i, hi, rfl⟩ | ⟨o, ho, rfl⟩
  · obtain ⟨hmem, hnot⟩ := List.mem_filter.mp hr
    exact ⟨mem_parts.mpr (Or.inl ⟨r, hmem, rfl⟩),
      of_decide_eq_false ((Bool.not_eq_true' _).mp hnot)⟩
  · obtain ⟨hmem, hnot⟩ := List.mem_filter.mp hi
    exact ⟨mem_parts.mpr (Or.inr (Or.inl ⟨i, hmem, rfl⟩)),
      of_decide_eq_false ((Bool.not_eq_true' _).mp hnot)⟩
  · obtain ⟨hmem, hnot⟩ := List.mem_filter.mp ho
    exact ⟨mem_parts.mpr (Or.inr (Or.inr ⟨o, hmem, rfl⟩)),
      of_decide_eq_false ((Bool.not_eq_true' _).mp hnot)⟩

/-- **Pruning keeps the references.** -/
theorem Kept.pruneBlock {blockId : ℕ} (h : db.Kept) (hprune : db.pruneBlock blockId = .ok db')
    (hlog : db'.LogRefers) : db'.Kept := by
  obtain ⟨hreceipts, htx, hcards, hrows, hparts, hraw⟩ := cards_pruneBlock hprune
  have hmem : ∀ {t : TransactionRow}, t ∈ db'.transactions.rows
      ↔ t ∈ db.transactions.rows ∧ t.blockId ≠ blockId := by
    intro t
    rw [hrows, List.mem_filter]
    simp
  -- what is left is of other blocks
  have hleft : ∀ {t : TransactionRow}, t ∈ db.transactions.rows →
      t.id ∉ (db.transactionsOf blockId).map TransactionRow.id → t ∈ db'.transactions.rows := by
    intro t ht hid
    refine hmem.mpr ⟨ht, fun hb => hid (List.mem_map_of_mem ?_)⟩
    exact List.mem_filter.mpr ⟨ht, decide_eq_true hb⟩
  have hblocks : db'.blockIds = db.blockIds := congrArg (List.map BlockCard.id) hcards
  -- a header-only block holds receipts only, and none of the block's was of a receipt
  have hsame : ∀ id, db'.isHeaderOnly id = db.isHeaderOnly id := fun id => by
    rw [Bool.eq_iff_iff, isHeaderOnly_iff, isHeaderOnly_iff, hcards]
  have hnone : ∀ c ∈ db.blockCards, c.archived = false → c.id = blockId →
      db.receiptCards c.id = [] := by
    intro c hc harch hid
    by_contra hne
    obtain ⟨t, ht⟩ := List.exists_mem_of_ne_nil _ hne
    obtain ⟨r, hr⟩ := List.length_eq_one_iff.mp
      ((receiptsKept_iff.mp h.inOrder c hc).kept harch t ht)
    obtain ⟨hrow, hrid⟩ := List.mem_filter.mp (hr ▸ List.mem_singleton_self r)
    obtain ⟨hcard, hown⟩ := List.mem_filter.mp ht
    obtain ⟨t, htmem, rfl⟩ := List.mem_map.mp hcard
    have hblock : t.blockId = blockId := (of_decide_eq_true hown).1.trans hid
    have hrid : r.txId = t.id := of_decide_eq_true hrid
    exact hreceipts r hrow (hrid ▸ List.mem_map_of_mem
      (List.mem_filter.mpr ⟨htmem, decide_eq_true hblock⟩))
  have hfilter : ∀ id, db'.receiptCards id
      = (db.receiptCards id).filter fun c => !decide (c.blockId = blockId) := by
    intro id
    have hcards : db'.txCards = db.txCards.filter fun c => !decide (c.blockId = blockId) := by
      rw [txCards, hrows, txCards, List.filter_map]
      rfl
    rw [receiptCards, hcards, receiptCards, List.filter_filter, List.filter_filter]
    exact List.filter_congr fun c _ => Bool.and_comm ..
  have hreceiptCards : ∀ c ∈ db.blockCards, c.archived = false →
      db'.receiptCards c.id = db.receiptCards c.id := by
    intro c hc harch
    rw [hfilter]
    by_cases hid : c.id = blockId
    · rw [hnone c hc harch hid]
      rfl
    · refine List.filter_eq_self.mpr fun t ht => ?_
      have hown : t.blockId = c.id := (of_decide_eq_true (List.mem_filter.mp ht).2).1
      simpa [hown] using hid
  refine ⟨⟨intact_iff.mpr fun id hid => ?_, hlog, fun t ht => ?_⟩, fun r hr => ?_, fun r hr => ?_,
    fun t ht hreceipt => ?_, receiptsKept_iff.mpr fun c hc => ?_⟩
  · obtain ⟨hold, hnot⟩ := hparts id hid
    obtain ⟨t, ht, rfl⟩ := mem_txIds.mp (intact_iff.mp h.referring.lists id hold)
    exact mem_txIds.mpr ⟨t, hleft ht hnot, rfl⟩
  · exact mem_blockIds.mp (hblocks ▸ mem_blockIds.mpr (h.referring.transactions t (hmem.mp ht).1))
  · exact hblocks ▸ h.raw r (hraw r hr)
  · have hold : r ∈ db.txReceipts.rows := htx ▸ hr
    obtain ⟨t, ht, hid, hsrc⟩ := h.receipts r hold
    exact ⟨t, hleft ht (hid ▸ hreceipts r hold), hid, hsrc⟩
  · rw [hsame]
    exact h.headerOnly t (hmem.mp ht).1 hreceipt
  · rw [hcards] at hc
    obtain ⟨hplaces, hdistinct, hkept, hcounted⟩ := receiptsKept_iff.mp h.inOrder c hc
    rcases harch : c.archived with _ | _
    · rw [← hreceiptCards c hc harch] at hplaces hdistinct hkept hcounted
      exact ⟨hplaces, hdistinct, htx ▸ hkept, hcounted⟩
    · rw [harch] at hcounted
      have hnot : c.archived ≠ false := by simp [harch]
      exact ⟨fun hf => absurd hf hnot, fun hf => absurd hf hnot, fun hf => absurd hf hnot,
        hcounted.trans (iff_of_false (fun hf => hnot (harch.trans hf.1)) fun hf => hnot hf.1)⟩

/-! ### Receipts -/

/-- **A receipt keeps the references.** -/
theorem Kept.receipt {blockId : ℕ} {tx : ReceiptTransaction} {now : Instant} {inserted : Bool}
    (h : db.Kept) (hins : db.insertReceiptTransaction blockId tx now = .ok (db', inserted)) :
    db'.Kept := by
  have hlog : db'.LogRefers :=
    h.referring.log.keepsHeaders (keepsHeaders_insertReceiptTransaction hins)
  have hreferring : db'.Referring := (beside_insertReceiptTransaction hins).referring
    h.referring hlog
  obtain ⟨hheader, hpos, hcount, ⟨-, rfl, -⟩ | ⟨-, hwrite, hfree⟩⟩ :=
    insertReceiptTransaction_ok.mp hins
  · exact h
  have hw := writeReceiptTransaction_ok hwrite
  have hheaders : ∀ id, db'.isHeaderOnly id = db.isHeaderOnly id := by
    intro id
    rw [isHeaderOnly, isHeaderOnly, hw.block?]
    rcases db.block? id with _ | b
    · rfl
    · rw [Option.map_some, Table.updated]
      split_ifs <;> rfl
  refine ⟨hreferring, fun r hr => ?_, fun r hr => ?_, fun t ht hreceipt => ?_,
    h.inOrder.write hw hheader hpos hcount hfree⟩
  · rw [hw.rest] at hr
    obtain ⟨b, hb, hid⟩ := mem_blockIds.mp (h.raw r hr)
    refine mem_blockIds.mpr ⟨_, hw.blocks ▸ List.mem_map_of_mem hb, ?_⟩
    rw [Table.updated]
    split_ifs <;> exact hid
  · rw [hw.transactions]
    rw [hw.receipts] at hr
    rcases List.mem_append.mp hr with hr | hr
    · obtain ⟨t, ht, hid, hsrc⟩ := h.receipts r hr
      exact ⟨t, List.mem_append_left _ ht, hid, hsrc⟩
    · rw [List.mem_singleton.mp hr]
      exact ⟨_, List.mem_append_right _ (List.mem_singleton_self _), rfl, rfl⟩
  · rw [hheaders]
    rw [hw.transactions] at ht
    rcases List.mem_append.mp ht with ht | ht
    · exact h.headerOnly t ht hreceipt
    · rw [List.mem_singleton.mp ht]
      exact hheader

theorem kept_empty : Db.empty.Kept where
  referring := ⟨⟨fun _ h => absurd h List.not_mem_nil, fun _ h => absurd h List.not_mem_nil,
    fun _ h => absurd h List.not_mem_nil⟩, fun _ h => absurd h List.not_mem_nil,
    fun _ h => absurd h List.not_mem_nil⟩
  raw _ h := absurd h List.not_mem_nil
  receipts _ h := absurd h List.not_mem_nil
  headerOnly _ h := absurd h List.not_mem_nil
  inOrder := receiptsKept_iff.mpr fun _ h => absurd h List.not_mem_nil

end Db

/-! ## Every run -/

/-- **Each transaction keeps the references.** -/
theorem Txn.exec_kept (hg : t.Genuine) (hf : t.Founded db) (h : db.Kept)
    (hexec : t.exec N cfg db = .ok db') : db'.Kept := by
  have hlog : db'.LogRefers := Txn.exec_logRefers h.referring.log hexec
  by_cases ht : t.Refiles
  swap
  · exact h.files (Txn.exec_files ht hg hf hexec) hlog
  match t with
  | .pruneBlock _ => exact h.pruneBlock hexec hlog
  | .receipt blockId tx now =>
    simp only [exec] at hexec
    split at hexec
    · next hins =>
      obtain rfl := Except.ok.inj hexec
      exact h.receipt hins
    · obtain rfl := Except.ok.inj hexec
      exact h

/-- The references hold in every run. -/
theorem Execution.kept {tr : List (Db × Txn × Db)}
    {c : Prog.Config Query Query.Answer Db Txn String Thread} (h : Execution N cfg allow tr c) :
    c.store.Kept := by
  have hstep : ∀ (db : Db) (t : Txn) (db' : Db), t.Issued cfg (fun _ => True) →
      db.Kept → t.Founded db → t.exec N cfg db = .ok db' → db'.Kept :=
    fun _ _ _ ht hk hf hexec => Txn.exec_kept ht.genuine hf hk hexec
  exact (Run.invariant (fun _ _ hjob => hjob.commits (bodySource_any N allow)) hstep
    Db.kept_empty h h.founded).1

/-- **Every foreign key holds, and the rows of receipts are in order, in every run.** -/
theorem Execution.references_hold {tr : List (Db × Txn × Db)}
    {c : Prog.Config Query Query.Answer Db Txn String Thread} (h : Execution N cfg allow tr c) :
    ((∀ r ∈ c.store.txPageHashes.rows, ∃ t ∈ c.store.transactions.rows, t.id = r.txId)
        ∧ (∀ i ∈ c.store.txInputs.rows, ∃ t ∈ c.store.transactions.rows, t.id = i.txId)
        ∧ (∀ o ∈ c.store.txOutputs.rows, ∃ t ∈ c.store.transactions.rows, t.id = o.txId)
        ∧ ∀ r ∈ c.store.txReceipts.rows, ∃ t ∈ c.store.transactions.rows,
          t.id = r.txId ∧ t.source = some receiptSource)
      ∧ ((∀ t ∈ c.store.transactions.rows, ∃ b ∈ c.store.blocks.rows, b.id = t.blockId
          ∧ (t.source = some receiptSource → b.archived = false))
        ∧ (∀ s ∈ c.store.blockStatusLog.rows, ∃ b ∈ c.store.blocks.rows, b.id = s.blockId)
        ∧ ∀ r ∈ c.store.rawBlocks.rows, ∃ b ∈ c.store.blocks.rows, b.id = r.blockId)
      ∧ c.store.ReceiptsKept := by
  obtain ⟨⟨⟨hpages, hinputs, houtputs⟩, hlog, htransactions⟩, hraw, hreceipts, hheader, horder⟩ :=
    h.kept
  refine ⟨⟨hpages, hinputs, houtputs, hreceipts⟩, ⟨fun t ht => ?_, hlog, fun r hr => ?_⟩, horder⟩
  · obtain ⟨b, hb, hid⟩ := htransactions t ht
    refine ⟨b, hb, hid, fun hreceipt => ?_⟩
    have hbare := hheader t ht hreceipt
    rw [Db.isHeaderOnly, ← hid, Db.block?_eq_some hb, Option.any_some] at hbare
    simpa using hbare
  · exact Db.mem_blockIds.mp (hraw r hr)

/-- A receipt of a transaction of the block that was copied. -/
def strayDecoded : DecodedReceipt := ⟨0, 0, "", Db.strayReceipt, ⟨"r1", 0, 0, 1, 2, 0, [], []⟩⟩

/-- A header below the archive, and a receipt for its block. -/
def receiptStints : List (Stint Query Query.Answer Db Txn String Thread) :=
  headerStints ++ [⟨.command 0, Prog.each importReceipt [strayDecoded],
    fun _ => chainAnswers [bareBlock 0 "G" ""] 3, 60⟩]

theorem run_receiptStints : Execution Noid.sample {} anyAnswer
    (traceAll (Txn.exec Noid.sample {}) receiptStints Db.empty)
    (Config.idle (playAll (Txn.exec Noid.sample {}) receiptStints Db.empty)) := by
  refine run_playAll Db.empty ?_
  simp only [receiptStints, headerStints, List.cons_append, List.nil_append, List.forall_mem_cons]
  exact ⟨⟨.poll, fun _ _ => trivial⟩, ⟨.headers, fun _ _ => trivial⟩,
    ⟨.importReceipts 0 _, fun _ _ => trivial⟩, List.forall_mem_nil _⟩

/-- The receipt is kept, and refers to its transaction. -/
theorem Execution.references_hold_receipt :
    (playAll (Txn.exec Noid.sample {}) receiptStints Db.empty).txReceipts.rows.length = 1
      ∧ (playAll (Txn.exec Noid.sample {}) receiptStints Db.empty).ReceiptsKept :=
  ⟨by decide +kernel, (Execution.references_hold run_receiptStints).2.2⟩

end Permanode
