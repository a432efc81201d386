import Permanode.Import.RoundTrip
import Permanode.Ledger.Founded

/-!
# Ledger/Filing — what the writers of blocks add to the record

A block or a transaction is referred to by its id: what is asked of it then is its card.  The
writers of blocks add cards, and rows that refer to those that are there (`Db.Files`,
`Txn.exec_files`).
-/

namespace Permanode

open Outcome

/-! ## Cards -/

/-- What is asked of a block by those that refer to it. -/
structure BlockCard where
  id : ℕ
  archived : Bool
  count : Option ℕ

/-- What a transaction refers to and is referred to by. -/
structure TransactionCard where
  id : ℕ
  blockId : ℕ
  position : ℕ
  source : Option String

/-- The card of a block. -/
def BlockRow.card (b : BlockRow) : BlockCard := ⟨b.id, b.archived, b.txCountTotal⟩

/-- The card of a transaction. -/
def TransactionRow.card (t : TransactionRow) : TransactionCard :=
  ⟨t.id, t.blockId, t.position, t.source⟩

namespace Db

/-- The blocks, by their cards. -/
def blockCards (db : Db) : List BlockCard := db.blocks.rows.map BlockRow.card

/-- The transactions, by their cards. -/
def txCards (db : Db) : List TransactionCard := db.transactions.rows.map TransactionRow.card

/-- The ids of the blocks. -/
def blockIds (db : Db) : List ℕ := db.blockCards.map BlockCard.id

/-- The ids of the transactions. -/
def txIds (db : Db) : List ℕ := db.txCards.map TransactionCard.id

/-- The transactions that page hashes, inputs and outputs refer to. -/
def parts (db : Db) : List ℕ :=
  db.txPageHashes.rows.map PageHashRow.txId ++ db.txInputs.rows.map InputRow.txId
    ++ db.txOutputs.rows.map OutputRow.txId

variable {db db' db'' : Db}

/-- The ids of the blocks on record. -/
theorem mem_blockIds {id : ℕ} : id ∈ db.blockIds ↔ ∃ b ∈ db.blocks.rows, b.id = id := by
  simp [blockIds, blockCards, BlockRow.card]

theorem mem_txIds {id : ℕ} : id ∈ db.txIds ↔ ∃ t ∈ db.transactions.rows, t.id = id := by
  simp [txIds, txCards, TransactionRow.card]

/-- The transactions that lists refer to. -/
theorem mem_parts {id : ℕ} : id ∈ db.parts ↔ (∃ r ∈ db.txPageHashes.rows, r.txId = id)
    ∨ (∃ i ∈ db.txInputs.rows, i.txId = id) ∨ ∃ o ∈ db.txOutputs.rows, o.txId = id := by
  simp [parts]

/-- Page hashes, inputs and outputs refer to transactions that are there. -/
theorem intact_iff : db.Intact ↔ ∀ id ∈ db.parts, id ∈ db.txIds := by
  constructor
  · intro h id hid
    rcases mem_parts.mp hid with ⟨r, hr, rfl⟩ | ⟨i, hi, rfl⟩ | ⟨o, ho, rfl⟩
    · exact mem_txIds.mpr (h.pageHashes r hr)
    · exact mem_txIds.mpr (h.inputs i hi)
    · exact mem_txIds.mpr (h.outputs o ho)
  · exact fun h => ⟨fun r hr => mem_txIds.mp (h _ (mem_parts.mpr (Or.inl ⟨r, hr, rfl⟩))),
      fun i hi => mem_txIds.mp (h _ (mem_parts.mpr (Or.inr (Or.inl ⟨i, hi, rfl⟩)))),
      fun o ho => mem_txIds.mp (h _ (mem_parts.mpr (Or.inr (Or.inr ⟨o, ho, rfl⟩))))⟩

/-! ## What writers of blocks add -/

/-- **What a writer of blocks adds**: blocks that no receipt has counted, transactions that are not
of receipts in blocks that are there, and what refers to what is there. -/
structure Files (db db' : Db) : Prop where
  blocks : ∃ new, db'.blockCards = db.blockCards ++ new ∧ ∀ c ∈ new, c.count = none
  transactions : ∃ new, db'.txCards = db.txCards ++ new
    ∧ ∀ c ∈ new, c.source = none ∧ c.blockId ∈ db'.blockIds
  parts : ∀ id ∈ db'.parts, id ∈ db.parts ∨ id ∈ db'.txIds
  raw : ∀ r ∈ db'.rawBlocks.rows, (∃ s ∈ db.rawBlocks.rows, s.blockId = r.blockId)
    ∨ r.blockId ∈ db'.blockIds
  receipts : db'.txReceipts = db.txReceipts

/-- No block is lost. -/
theorem Files.blockIds_subset (h : db.Files db') : db.blockIds ⊆ db'.blockIds := by
  obtain ⟨new, hnew, -⟩ := h.blocks
  rw [blockIds, blockIds, hnew, List.map_append]
  exact List.subset_append_left _ _

theorem Files.txIds_subset (h : db.Files db') : db.txIds ⊆ db'.txIds := by
  obtain ⟨new, hnew, -⟩ := h.transactions
  rw [txIds, txIds, hnew, List.map_append]
  exact List.subset_append_left _ _

/-- The tables others refer to, and those that refer to them, up to columns that do neither. -/
theorem Files.of_cards (hblocks : db'.blockCards = db.blockCards)
    (htxs : db'.txCards = db.txCards) (hparts : db'.parts = db.parts)
    (hraw : db'.rawBlocks = db.rawBlocks) (hreceipts : db'.txReceipts = db.txReceipts) :
    db.Files db' where
  blocks := ⟨[], by rw [hblocks, List.append_nil], nofun⟩
  transactions := ⟨[], by rw [htxs, List.append_nil], nofun⟩
  parts _ h := Or.inl (hparts ▸ h)
  raw r h := Or.inl ⟨r, hraw ▸ h, rfl⟩
  receipts := hreceipts

theorem Files.refl (db : Db) : db.Files db := .of_cards rfl rfl rfl rfl rfl

/-- One after the other. -/
theorem Files.trans (h : db.Files db') (h' : db'.Files db'') : db.Files db'' where
  blocks := by
    obtain ⟨new, hnew, hcount⟩ := h.blocks
    obtain ⟨new', hnew', hcount'⟩ := h'.blocks
    refine ⟨new ++ new', by rw [hnew', hnew, List.append_assoc], fun c hc => ?_⟩
    exact (List.mem_append.mp hc).elim (hcount c) (hcount' c)
  transactions := by
    obtain ⟨new, hnew, hsrc⟩ := h.transactions
    obtain ⟨new', hnew', hsrc'⟩ := h'.transactions
    refine ⟨new ++ new', by rw [hnew', hnew, List.append_assoc], fun c hc => ?_⟩
    rcases List.mem_append.mp hc with hc | hc
    · exact ⟨(hsrc c hc).1, h'.blockIds_subset (hsrc c hc).2⟩
    · exact hsrc' c hc
  parts id hid := by
    rcases h'.parts id hid with hid | hid
    · exact (h.parts id hid).imp_right fun h => h'.txIds_subset h
    · exact Or.inr hid
  raw r hr := by
    rcases h'.raw r hr with ⟨s, hs, heq⟩ | hid
    · rw [← heq]
      exact (h.raw s hs).imp_right fun h => h'.blockIds_subset h
    · exact Or.inr hid
  receipts := h'.receipts.trans h.receipts

/-! ### Columns nobody refers by -/

/-- A change of other columns leaves the cards. -/
theorem blockCards_updateBlocks {p : BlockRow → Bool} {f : BlockRow → BlockRow}
    {hf : ∀ r s, Row.clash (f r) s = Row.clash r s}
    (h : ∀ b ∈ db.blocks.rows, p b = true → (f b).card = b.card) :
    (db.updateBlocks p f hf).blockCards = db.blockCards := by
  rw [blockCards, updateBlocks, Table.rows_modify, List.map_map]
  refine List.map_congr_left fun b hb => ?_
  rw [Function.comp_apply, Table.updated]
  split_ifs with hp
  · exact h b hb hp
  · rfl

theorem files_updateBlocks {p : BlockRow → Bool} {f : BlockRow → BlockRow}
    {hf : ∀ r s, Row.clash (f r) s = Row.clash r s}
    (h : ∀ b ∈ db.blocks.rows, p b = true → (f b).card = b.card) :
    db.Files (db.updateBlocks p f hf) :=
  .of_cards (blockCards_updateBlocks h) rfl rfl rfl rfl

/-- Flags are on no card. -/
theorem files_recordContractFlags (N : Noid) (db : Db) (height : ℕ) (hash : String)
    (raw : Option (List UInt8)) : db.Files (db.recordContractFlags N height hash raw) := by
  have hfold : ∀ (id : ℕ) (flags : List (ℕ × ℕ)) (ts : Table TransactionRow),
      (flags.foldl (flagPosition id) ts).rows.map TransactionRow.card
        = ts.rows.map TransactionRow.card := by
    intro id flags
    induction flags with
    | nil => exact fun _ => rfl
    | cons f flags ih => exact fun ts => (ih _).trans (map_modify ts fun _ => rfl)
  have hset : ∀ flags, db.Files (db.setContractFlags height hash flags) := by
    intro flags
    unfold setContractFlags
    split
    · exact .refl _
    · refine .of_cards (blockCards_updateBlocks fun _ _ _ => rfl) ?_ rfl rfl rfl
      exact (hfold _ flags _).trans (map_modify db.transactions fun _ => rfl)
  unfold recordContractFlags
  repeat' split
  all_goals first | exact .refl _ | exact hset _

/-! ### Bodies -/

/-- Rows of a transaction that is there. -/
theorem parts_insertTransaction {txId : ℕ} {tx : BlockTransactionInfo} {id : ℕ}
    (h : id ∈ (((db.insertPageHashes txId tx.pageHashes).insertInputs txId tx.inputs).insertOutputs
      txId tx.outputs).parts) : id ∈ db.parts ∨ id = txId := by
  rcases mem_parts.mp h with ⟨r, hr, rfl⟩ | ⟨i, hi, rfl⟩ | ⟨o, ho, rfl⟩
  · rcases Table.mem_insertEach hr with hr | ⟨_, _, _, _, rfl⟩
    · exact Or.inl (mem_parts.mpr (Or.inl ⟨r, hr, rfl⟩))
    · exact Or.inr rfl
  · rcases Table.mem_insertEach hi with hi | ⟨_, _, _, _, rfl⟩
    · exact Or.inl (mem_parts.mpr (Or.inr (Or.inl ⟨i, hi, rfl⟩)))
    · exact Or.inr rfl
  · rcases Table.mem_insertEach ho with ho | ⟨_, _, _, _, rfl⟩
    · exact Or.inl (mem_parts.mpr (Or.inr (Or.inr ⟨o, ho, rfl⟩)))
    · exact Or.inr rfl

/-- **A transaction of a body is filed with its block**, and its lists with it. -/
theorem files_insertTransaction {blockId : ℕ} {tx : BlockTransactionInfo}
    (hblock : blockId ∈ db.blockIds) (h : insertTransaction blockId db tx = .ok db') :
    db.Files db' ∧ db'.blocks = db.blocks := by
  simp only [insertTransaction, bind_ok, pure_ok] at h
  obtain ⟨txId, hid, rfl⟩ := h
  let row := transactionRow (db.transactions.nextId TransactionRow.id) blockId tx
  let db₁ : Db := { db with transactions := db.transactions.insertOrIgnore row }
  have hcards : ∃ new, db₁.txCards = db.txCards ++ new
      ∧ ∀ c ∈ new, c.source = none ∧ c.blockId ∈ db.blockIds := by
    rcases Table.rows_insert_cases db.transactions row with ⟨hrows, -⟩ | ⟨hsame, -⟩
    · refine ⟨[row.card], ?_, List.forall_mem_singleton.mpr ⟨rfl, hblock⟩⟩
      change (db.transactions.insertOrIgnore row).rows.map TransactionRow.card = _
      rw [hrows, List.map_append]
      rfl
    · refine ⟨[], ?_, List.forall_mem_nil _⟩
      change (db.transactions.insertOrIgnore row).rows.map TransactionRow.card = _
      rw [hsame, List.append_nil]
      rfl
  have htx : txId ∈ db₁.txIds := by
    obtain ⟨t, ht, rfl⟩ := Option.map_eq_some_iff.mp (orError_ok.mp hid)
    exact mem_txIds.mpr ⟨t, List.mem_of_find?_eq_some ht, rfl⟩
  refine ⟨⟨⟨[], (List.append_nil _).symm, List.forall_mem_nil _⟩, hcards, fun id hp => ?_,
    fun r hr => Or.inl ⟨r, hr, rfl⟩, rfl⟩, rfl⟩
  rcases @parts_insertTransaction db₁ txId tx id hp with hold | rfl
  · exact Or.inl hold
  · exact Or.inr htx

/-- All of a body, by induction on it. -/
theorem files_insertAll {blockId : ℕ} : ∀ {txs : List BlockTransactionInfo} {db : Db},
    (txs ≠ [] → blockId ∈ db.blockIds) → txs.foldlM (insertTransaction blockId) db = .ok db' →
      db.Files db' ∧ db'.blocks = db.blocks
  | [], db, _, h => by
      obtain rfl := pure_ok.mp h
      exact ⟨.refl _, rfl⟩
  | tx :: txs, db, hblock, h => by
      rw [List.foldlM_cons, bind_ok] at h
      obtain ⟨db₁, h₁, h₂⟩ := h
      obtain ⟨hf₁, hb₁⟩ := files_insertTransaction (hblock (List.cons_ne_nil _ _)) h₁
      obtain ⟨hf₂, hb₂⟩ := files_insertAll
        (fun _ => hf₁.blockIds_subset (hblock (List.cons_ne_nil _ _))) h₂
      exact ⟨hf₁.trans hf₂, hb₂.trans hb₁⟩

/-- A body is written to a block that is there; the cards of the blocks stay. -/
theorem files_insertTransactions {blockId : ℕ} {retained : RetainedBlockInfo}
    (h : db.insertTransactions blockId retained = .ok db') :
    db.Files db' ∧ db'.blockCards = db.blockCards := by
  simp only [insertTransactions, bind_ok, bailIf_ok] at h
  obtain ⟨-, hblock, h⟩ := h
  have hfields : (db.setBodyFields blockId retained).blockCards = db.blockCards :=
    blockCards_updateBlocks fun _ _ _ => rfl
  have hmem : retained.transactions ≠ [] →
      blockId ∈ (db.setBodyFields blockId retained).blockIds := by
    intro hne
    rw [blockIds, hfields, ← blockIds]
    rcases hb : db.block? blockId with _ | b
    · exact absurd ⟨hne, by rw [hb]; rfl⟩ hblock
    · exact mem_blockIds.mpr ⟨b, mem_of_block? hb⟩
  obtain ⟨hf, hb⟩ := files_insertAll hmem h
  refine ⟨(Files.of_cards hfields rfl rfl rfl rfl).trans hf, ?_⟩
  rw [blockCards, hb, ← blockCards, hfields]

/-! ### Blocks -/

/-- A new block has a card without a count. -/
theorem blockCards_insert (row : BlockRow) (h : row.txCountTotal = none) :
    ∃ new, (db.blocks.insertOrIgnore row).rows.map BlockRow.card = db.blockCards ++ new
      ∧ ∀ c ∈ new, c.count = none := by
  rcases Table.rows_insert_cases db.blocks row with ⟨hrows, -⟩ | ⟨hsame, -⟩
  · refine ⟨[row.card], ?_, List.forall_mem_singleton.mpr h⟩
    rw [hrows, List.map_append]
    rfl
  · refine ⟨[], ?_, nofun⟩
    rw [hsame, List.append_nil]
    rfl

/-- Blocks are added, and nothing that refers to anything. -/
theorem Files.of_blocks (h : ∃ new, db'.blockCards = db.blockCards ++ new
    ∧ ∀ c ∈ new, c.count = none) (htxs : db'.txCards = db.txCards) (hparts : db'.parts = db.parts)
    (hraw : db'.rawBlocks = db.rawBlocks) (hreceipts : db'.txReceipts = db.txReceipts) :
    db.Files db' :=
  ⟨h, ⟨[], by rw [htxs, List.append_nil], nofun⟩, fun _ hid => Or.inl (hparts ▸ hid),
    fun r hr => Or.inl ⟨r, hraw ▸ hr, rfl⟩, hreceipts⟩

/-- **A new block is filed.** -/
theorem files_insertBlockHeaderRow {h : BlockHeaderInfo} {captured : Bool}
    {source : Option String} {now : Instant} {id : ℕ}
    (hins : db.insertBlockHeaderRow h captured source now = .ok (db', id)) : db.Files db' := by
  simp only [insertBlockHeaderRow, bind_ok, pure_ok, Prod.mk.injEq] at hins
  obtain ⟨_, -, rfl, -⟩ := hins
  exact .of_blocks (blockCards_insert _ rfl) rfl rfl rfl rfl

/-- A batch of headers, by induction on it. -/
theorem files_insertHeaders {now : Instant} : ∀ {batch : List BlockHeaderInfo} {db : Db},
    db.insertHeaders now batch = .ok db' → db.Files db'
  | [], db, h => by
      obtain rfl := pure_ok.mp h
      exact .refl _
  | hd :: batch, db, h => by
      rw [insertHeaders, List.foldlM_cons, bind_ok] at h
      obtain ⟨db₁, h₁, h₂⟩ := h
      obtain ⟨⟨db₂, inserted⟩, hins, rfl⟩ := map_ok.mp h₁
      refine Files.trans ?_ (files_insertHeaders h₂)
      unfold insertHeaderOnlyBlock at hins
      split_ifs at hins
      · obtain ⟨rfl, -⟩ := Prod.mk.inj (Except.ok.inj hins)
        exact .refl _
      · split at hins
        · cases hins
        · obtain ⟨rfl, -⟩ := Prod.mk.inj (Except.ok.inj hins)
          exact .of_blocks (blockCards_insert _ rfl) rfl rfl rfl rfl

/-- A block is of the archive, as its card says. -/
def ArchivedCard (db : Db) (id : ℕ) : Prop := ∀ c ∈ db.blockCards, c.id = id → c.archived = true

/-- A block of the archive stays one, whatever source its body is from. -/
theorem files_markBodyRecovered {id : ℕ} {source : String} (h : db.ArchivedCard id)
    (hs : source ≠ headerOnlySource) : db.Files (db.markBodyRecovered id source) := by
  refine files_updateBlocks fun b hb hid => ?_
  have harch : b.archived = true := h b.card (List.mem_map_of_mem hb) (of_decide_eq_true hid)
  have hnew : (some source ≠ some headerOnlySource) := fun heq => hs (Option.some.inj heq)
  rw [BlockRow.card, BlockRow.card, harch]
  exact congrArg (BlockCard.mk b.id · b.txCountTotal) (decide_eq_true hnew)

/-- A block found by its id is the only one. -/
theorem archivedCard_of_mem {b : BlockRow} (hb : b ∈ db.blocks.rows) (harch : b.archived = true) :
    db.ArchivedCard b.id := by
  intro c hc hid
  obtain ⟨b', hb', rfl⟩ := List.mem_map.mp hc
  rw [db.blocks.eq_of_clash hb' hb (decide_eq_true (Or.inl hid))]
  exact harch

/-- A body for a block of the archive. -/
theorem files_recover {id : ℕ} {retained : RetainedBlockInfo} {source : String}
    {db₁ : Db} (harch : db.ArchivedCard id) (hs : source ≠ headerOnlySource)
    (h : db.insertTransactions id retained = .ok db₁) :
    db.Files (db₁.markBodyRecovered id source) := by
  obtain ⟨hf, hcards⟩ := files_insertTransactions h
  refine hf.trans (files_markBodyRecovered ?_ hs)
  rwa [ArchivedCard, hcards]

theorem files_resolveGap (db : Db) (height : ℕ) (now : Instant) (resolution : String) :
    db.Files (db.resolveGap height now resolution) := .of_cards rfl rfl rfl rfl rfl

/-- **A block with its body is filed.** -/
theorem files_storeBlock {details : BlockDetailsInfo} {source : String} {now : Instant}
    (hs : source ≠ headerOnlySource) (h : db.storeBlock details source now = .ok db') :
    db.Files db' := by
  simp only [storeBlock, bind_ok] at h
  obtain ⟨retained, -, h⟩ := h
  split_ifs at h
  · split at h
    · obtain rfl := pure_ok.mp h
      exact .refl _
    · next id huncaptured =>
      simp only [bind_ok, pure_ok] at h
      obtain ⟨db₁, h₁, rfl⟩ := h
      obtain ⟨b, hb, rfl, -, -, -, harch⟩ := mem_of_uncapturedBlockId huncaptured
      exact (files_recover (archivedCard_of_mem hb harch) hs h₁).trans (files_resolveGap ..)
  · simp only [bind_ok] at h
    obtain ⟨⟨db₁, id⟩, h₁, h₂⟩ := h
    exact (files_insertBlockHeaderRow h₁).trans (files_insertTransactions h₂).1

/-- A block without its body is filed. -/
theorem files_recordGapBlock {details : BlockDetailsInfo} {note : String} {now : Instant}
    (h : db.recordGapBlock details note now = .ok db') : db.Files db' := by
  unfold recordGapBlock at h
  dsimp only at h
  split_ifs at h
  · obtain rfl := pure_ok.mp h
    exact .of_cards rfl rfl rfl rfl rfl
  · simp only [bind_ok, pure_ok] at h
    obtain ⟨⟨db₁, id⟩, h₁, rfl⟩ := h
    exact (files_insertBlockHeaderRow h₁).trans (.of_cards rfl rfl rfl rfl rfl)

/-! ### Raw bytes -/

/-- Bytes that are stored belong to a block on record. -/
theorem files_storeRaw {N : Noid} {height : ℕ} {hash : String} {bytes : List UInt8}
    {source : String} {now : Instant} {stored : Bool}
    (h : db.storeRaw N height hash bytes source now = .ok (db', stored)) : db.Files db' := by
  unfold storeRaw at h
  split at h
  · cases h; exact .refl _
  · next id hid =>
    split_ifs at h
    · cases h; exact .refl _
    · simp only [bind_ok, pure_ok, Prod.mk.injEq] at h
      obtain ⟨_, -, rfl, -⟩ := h
      refine ⟨⟨[], (List.append_nil _).symm, nofun⟩, ⟨[], (List.append_nil _).symm, nofun⟩,
        fun _ hp => Or.inl hp, fun r hr => ?_, rfl⟩
      rcases Table.mem_insert hr with hr | rfl
      · exact Or.inl ⟨r, hr, rfl⟩
      · obtain ⟨b, hb, rfl⟩ := Option.map_eq_some_iff.mp hid
        exact Or.inr (mem_blockIds.mpr ⟨b, List.mem_of_find?_eq_some hb, rfl⟩)

/-- So do those that are kept if they prove to be the block. -/
theorem files_keepRaw (N : Noid) (cfg : Config) (db : Db) (height : ℕ) (hash : String)
    (bytes : Option (List UInt8)) (source : String) (now : Instant) :
    db.Files (db.keepRaw N cfg height hash bytes source now) := by
  unfold keepRaw
  split_ifs
  · split
    · exact .refl _
    · split
      · next h => exact files_storeRaw h
      · exact .refl _
  · exact .refl _

/-! ### The transactions of the threads -/

variable {N : Noid} {cfg : Config}

theorem files_storeKept {height : ℕ} {details : BlockDetailsInfo} {source : String}
    {raw : Option (List UInt8)} {now : Instant} (hs : source ≠ headerOnlySource)
    (h : db.storeKept N cfg height details source raw now = .ok db') : db.Files db' := by
  simp only [storeKept, bind_ok, pure_ok] at h
  obtain ⟨db₁, h₁, rfl⟩ := h
  exact ((files_storeBlock hs h₁).trans (files_recordContractFlags ..)).trans (files_keepRaw ..)

/-- **A replacement is filed**, with the block it replaces still there. -/
theorem files_replaceBlock {height old : ℕ} {at_ : Instant} {hash : String}
    {replacement : Option BodyOutcome} {now : Instant} (hg : ∀ r ∈ replacement, r.Genuine)
    (h : db.replaceBlock N cfg height old at_ hash replacement now = .ok db') : db.Files db' := by
  simp only [replaceBlock, markOrphaned, bind_ok] at h
  obtain ⟨db₁, h₁, h₂⟩ := h
  have horphan : db.Files db₁ := by
    split_ifs at h₁
    obtain rfl := Except.ok.inj h₁
    exact .of_cards rfl rfl rfl rfl rfl
  rcases replacement with _ | ⟨details, source, raw⟩ | ⟨details, note⟩
  · obtain rfl := pure_ok.mp h₂
    exact horphan.trans (.of_cards rfl rfl rfl rfl rfl)
  · exact horphan.trans (files_storeKept (hg _ rfl) h₂)
  · exact horphan.trans (files_recordGapBlock h₂)

/-- A body is recovered for a block of the archive. -/
theorem files_recoverBody {height blockId : ℕ} {hash : String} {retained : RetainedBlockInfo}
    {raw : List UInt8} {now : Instant} (harch : db.ArchivedCard blockId)
    (h : db.recoverBody N cfg height hash blockId retained raw now = .ok db') : db.Files db' := by
  simp only [recoverBody, bind_ok, pure_ok] at h
  obtain ⟨db₁, h₁, rfl⟩ := h
  exact ((files_recover harch (by decide) h₁).trans (files_recordContractFlags ..)).trans
    ((files_keepRaw ..).trans (files_resolveGap ..))

/-- So is one that fills a gap. -/
theorem files_fillBody {height blockId : ℕ} {hash : String} {body : RetainedBlockInfo}
    {bytes : Option (List UInt8)} {source resolution : String} {keep : Bool} {now : Instant}
    (harch : db.ArchivedCard blockId) (hs : source ≠ headerOnlySource)
    (h : db.fillBody N height hash blockId body bytes source resolution keep now = .ok db') :
    db.Files db' := by
  simp only [fillBody, bind_ok] at h
  obtain ⟨db₁, h₁, h₂⟩ := h
  have hmark := files_recover harch hs h₁
  rcases bytes with _ | bytes
  · simp only [bind_ok, pure_ok] at h₂
    obtain ⟨_, rfl, rfl⟩ := h₂
    exact hmark.trans (files_resolveGap ..)
  · split_ifs at h₂
    · simp only [bind_ok, map_ok, pure_ok] at h₂
      obtain ⟨_, ⟨⟨db₂, stored⟩, hraw, rfl⟩, rfl⟩ := h₂
      exact (hmark.trans (files_recordContractFlags ..)).trans
        ((files_storeRaw hraw).trans (files_resolveGap ..))
    · simp only [bind_ok, pure_ok] at h₂
      obtain ⟨_, rfl, rfl⟩ := h₂
      exact hmark.trans ((files_recordContractFlags ..).trans (files_resolveGap ..))

/-- The cached balances refer to nothing. -/
theorem files_upsertBalances (now : Instant) : ∀ (rows : List (String × String × ℕ)) (db : Db),
    db.Files (db.upsertBalances rows now)
  | [], db => .refl db
  | r :: rows, db =>
    (Files.of_cards rfl rfl rfl rfl rfl : db.Files
      (db.upsertAddressBalanceCache r.1 r.2.1 r.2.2 now)).trans
      (files_upsertBalances now rows _)

theorem files_flagOutputs (db : Db) (p : OutputRow → Bool) (flag : Bool) (at_ : Option Instant) :
    db.Files (db.flagOutputs p flag at_) := by
  refine .of_cards rfl rfl ?_ rfl rfl
  have hids : (db.flagOutputs p flag at_).txOutputs.rows.map OutputRow.txId
      = db.txOutputs.rows.map OutputRow.txId := by
    rw [flagOutputs, map_modify]
    exact fun _ => rfl
  rw [parts, hids]
  rfl

end Db

/-- The transactions that do more than add to the record: a receipt, and a prune. -/
def Txn.Refiles : Txn → Prop
  | .receipt .. | .pruneBlock _ => True
  | _ => False

variable {N : Noid} {cfg : Config} {t : Txn} {db db' : Db}

theorem Db.archivedCard_of_ledger {id : ℕ} (h : ∃ height, db.ledger.ArchivedAt id height) :
    db.ArchivedCard id := by
  obtain ⟨_, e, he, rfl, -, harch⟩ := h
  obtain ⟨b, hb, rfl⟩ := List.mem_map.mp he
  exact archivedCard_of_mem hb harch

/-- **Every other transaction only adds to the record.** -/
theorem Txn.exec_files (ht : ¬ t.Refiles) (hg : t.Genuine) (hf : t.Founded db)
    (h : t.exec N cfg db = .ok db') : db.Files db' := by
  match t with
  | .receipt .. | .pruneBlock _ => exact absurd trivial ht
  | .ingest .. => exact Db.files_storeKept hg h
  | .gapBlock .. => exact Db.files_recordGapBlock h
  | .replace .. => exact Db.files_replaceBlock hg h
  | .recover .. => exact Db.files_recoverBody (Db.archivedCard_of_ledger hf) h
  | .fillGap .. => exact Db.files_fillBody (Db.archivedCard_of_ledger hf) hg h
  | .keepRaw .. =>
    obtain rfl := Except.ok.inj h
    exact Db.files_keepRaw ..
  | .fillRaw .. =>
    obtain ⟨⟨_, _⟩, hraw, rfl⟩ := map_ok.mp h
    exact Db.files_storeRaw hraw
  | .adoptProofClass height hash class_ =>
    obtain rfl := Except.ok.inj h
    unfold Db.adoptProofClass
    split_ifs
    · exact .refl _
    · exact Db.files_updateBlocks fun _ _ _ => rfl
  | .setTipSeen .. | .adoptTipSeen .. =>
    obtain rfl := Except.ok.inj h
    exact Db.files_updateBlocks fun _ _ _ => rfl
  | .upsertBalances rows now =>
    obtain rfl := Except.ok.inj h
    exact Db.files_upsertBalances now rows db
  | .clearSpentInGap =>
    obtain rfl := Except.ok.inj h
    exact Db.files_flagOutputs ..
  | .sweepSegment segment slots live startHeight now =>
    obtain rfl := Except.ok.inj h
    refine Db.Files.trans (Db.Files.trans ?_ (Db.files_flagOutputs ..)) (Db.files_flagOutputs ..)
    exact .of_cards rfl rfl rfl rfl rfl
  | .sweepBalances now =>
    obtain rfl := Except.ok.inj h
    let db₁ := db.clearSpentInGapWithRecordedSpend
    have hflags : db.Files db₁ := Db.files_flagOutputs ..
    have hbalances : db₁.Files (db₁.upsertBalances db₁.balanceRows now) :=
      Db.files_upsertBalances now db₁.balanceRows db₁
    exact (hflags.trans hbalances).trans (.of_cards rfl rfl rfl rfl rfl)
  | .headerBatch batch progress now =>
    simp only [exec] at h
    rcases hins : Db.insertHeaders now db batch with e | db₁ <;> rw [hins] at h
    · cases h
    · obtain rfl := Except.ok.inj h
      exact (Db.files_insertHeaders hins).trans (.of_cards rfl rfl rfl rfl rfl)
  | .setState .. | .resolveGapsWithBodies _ =>
    obtain rfl := Except.ok.inj h
    exact .of_cards rfl rfl rfl rfl rfl

end Permanode
