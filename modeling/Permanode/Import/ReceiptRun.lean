import Mathlib.Data.List.Find
import Permanode.Foundations.Worlds
import Permanode.Import.Fill
import Permanode.Import.RoundTrip
import Permanode.Indexer.Slices

/-!
# Import/ReceiptRun — a run of receipts

`import_receipts` of `permanode/src/receipts.rs`: the entries one by one, each with its outcome.
Whether an entry is stored is settled by what never changes during a run (`accept`) and by the rows
that receipts wrote, which only grow (`Db.Completes`); so a second run finds what the first one
wrote and writes nothing.
-/

namespace Permanode

open Outcome

/-! ## The run -/

/-- What became of one receipt. -/
inductive ImportOutcome
  | imported
  | alreadyImported
  | duplicate
  | archived (recorded : Bool)
  | gap
  | noHeader
  | rejected (why : String)
  deriving DecidableEq, Repr

/-- `EntryResult`. -/
structure EntryResult where
  entry : ReceiptEntry
  decoded : Option DecodedReceipt
  outcome : ImportOutcome
  deriving DecidableEq, Repr

/-- The header-only block an entry completes, or the outcome of one that completes none. -/
def accept (verify : String → Except String ReceiptVerdict) (entry : ReceiptEntry)
    (d : DecodedReceipt) (db : Db) : Except ImportOutcome ℕ :=
  match checkEntry verify entry d with
  | .error why => .error (.rejected why)
  | .ok () =>
    match db.canonicalBlockAt d.height with
    | none => .error .noHeader
    | some block =>
      if block.archived then
        if block.bodyCaptured then
          .error (.archived ((db.transactionsOf block.id).any fun t => t.txid = d.tx.txid))
        else .error .gap
      else if block.txRoot ≠ d.txRoot ∨ block.timestamp.toUInt64 ≠ d.timestamp then
        .error (.rejected
          s!"does not match the block header on record at #{d.height} ({block.hash})")
      else .ok block.id

/-- `import_one`. -/
def importOne (verify : String → Except String ReceiptVerdict) (now : Instant)
    (entry : ReceiptEntry) (d : DecodedReceipt) (db : Db) : ImportOutcome × Db :=
  match accept verify entry d db with
  | .error outcome => (outcome, db)
  | .ok blockId =>
    match db.insertReceiptTransaction blockId d.tx now with
    | .ok (db', true) => (.imported, db')
    | .ok (db', false) => (.alreadyImported, db')
    | .error e => (.rejected e, db)

variable {N : Noid} (R : ReceiptCrate N) (verify : String → Except String ReceiptVerdict)

/-- One entry, with the `(key, hex)` seen before it. -/
def importEntry (seen : List (Option String × String)) (now : Instant) (entry : ReceiptEntry)
    (db : Db) : EntryResult × Db :=
  if (entry.key, entry.hex) ∈ seen then (⟨entry, none, .duplicate⟩, db)
  else match decodeReceipt R entry.hex with
    | .ok d =>
      (⟨entry, some d, (importOne verify now entry d db).1⟩, (importOne verify now entry d db).2)
    | .error why => (⟨entry, none, .rejected why⟩, db)

/-- The entries from the `n`-th on. -/
def importFrom (clock : ℕ → Instant) : ℕ → List (Option String × String) → List ReceiptEntry → Db →
    List EntryResult × Db
  | _, _, [], db => ([], db)
  | n, seen, entry :: entries, db =>
    let (result, db) := importEntry R verify seen (clock n) entry db
    let (results, db) := importFrom clock (n + 1) ((entry.key, entry.hex) :: seen) entries db
    (result :: results, db)

/-- `import_receipts`: the results and the database after them. -/
def importReceipts (clock : ℕ → Instant) (entries : List ReceiptEntry) (db : Db) :
    List EntryResult × Db :=
  importFrom R verify clock 0 [] entries db

/-! ## One entry -/

variable {R : ReceiptCrate N} {verify : String → Except String ReceiptVerdict} {now : Instant}
  {entry : ReceiptEntry} {d : DecodedReceipt} {db db' : Db} {blockId : ℕ}

/-- **An entry completes a block** if it was checked, the block of its height is header-only, and
the header says what the receipt says. -/
theorem accept_ok : accept verify entry d db = .ok blockId
    ↔ checkEntry verify entry d = .ok () ∧ ∃ block, db.canonicalBlockAt d.height = some block
      ∧ block.archived = false ∧ block.txRoot = d.txRoot ∧ block.timestamp.toUInt64 = d.timestamp
      ∧ block.id = blockId := by
  unfold accept
  rcases checkEntry verify entry d with why | _
  · exact iff_of_false nofun fun h => nomatch h.1
  dsimp only
  rcases db.canonicalBlockAt d.height with _ | block
  · exact iff_of_false nofun fun ⟨_, _, h, _⟩ => nomatch h
  dsimp only
  simp only [Option.some.injEq, exists_eq_left', true_and]
  split_ifs with harch hcap hmatch
  · exact iff_of_false nofun fun h => absurd (harch.symm.trans h.1) nofun
  · exact iff_of_false nofun fun h => absurd (harch.symm.trans h.1) nofun
  · refine iff_of_false nofun fun ⟨_, hroot, htime, _⟩ => ?_
    exact hmatch.elim (fun h => h hroot) fun h => h htime
  · obtain ⟨hroot, htime⟩ := not_or.mp hmatch
    rw [Except.ok.injEq]
    exact ⟨fun h => ⟨Bool.eq_false_iff.mpr harch, not_not.mp hroot, not_not.mp htime, h⟩,
      fun h => h.2.2.2⟩

/-- Nothing is imported before it is stored. -/
theorem accept_ne_imported : accept verify entry d db ≠ .error .imported := by
  unfold accept
  split
  · exact nofun
  split
  · exact nofun
  split_ifs
  all_goals exact nofun

/-- An entry that completes a block has the outcome of the insert. -/
theorem importOne_of_insert {inserted : Bool} (hentry : accept verify entry d db = .ok blockId)
    (hins : db.insertReceiptTransaction blockId d.tx now = .ok (db', inserted)) :
    importOne verify now entry d db
      = (if inserted then .imported else .alreadyImported, db') := by
  unfold importOne
  rw [hentry]
  dsimp only
  rw [hins]
  rcases inserted with _ | _
  · rfl
  · rfl

/-- **What one entry can do**: it is imported and its transaction is written, or the database stays
as it is. -/
theorem importOne_cases :
    (∃ blockId db', accept verify entry d db = .ok blockId
        ∧ db.insertReceiptTransaction blockId d.tx now = .ok (db', true)
        ∧ importOne verify now entry d db = (.imported, db'))
      ∨ (importOne verify now entry d db).1 ≠ .imported
        ∧ (importOne verify now entry d db).2 = db := by
  unfold importOne
  rcases hentry : accept verify entry d db with outcome | blockId
  · exact Or.inr ⟨fun h => accept_ne_imported (hentry.trans (congrArg _ h)), rfl⟩
  dsimp only
  rcases hins : db.insertReceiptTransaction blockId d.tx now with e | ⟨db₁, _ | _⟩
  · exact Or.inr ⟨nofun, rfl⟩
  · obtain ⟨-, -, -, ⟨-, rfl, -⟩ | ⟨h, -⟩⟩ := Db.insertReceiptTransaction_ok.mp hins
    · exact Or.inr ⟨nofun, rfl⟩
    · exact nomatch h
  · exact Or.inl ⟨blockId, db₁, rfl, hins, rfl⟩

/-- An entry that was checked leaves the database as the process's own program does. -/
theorem importOne_drive (cfg : Config) {W : Type} {world : ∀ q : Query, W → q.Answer × W} {w : W}
    (hcheck : checkEntry verify entry d = .ok ()) :
    (importOne verify (world .now w).1 entry d db).2
      = (Prog.drive (Txn.exec N cfg) world (importReceipt d) db w).2.1 := by
  rw [importReceipt, Program.get, Prog.drive_query, importOne, accept, hcheck]
  dsimp only
  rcases db.canonicalBlockAt d.height with _ | block
  · rfl
  dsimp only
  by_cases harch : block.archived
  · rw [if_pos harch, if_pos (Or.inl harch)]
    split_ifs <;> rfl
  by_cases hmatch : block.txRoot ≠ d.txRoot ∨ block.timestamp.toUInt64 ≠ d.timestamp
  · rw [if_neg harch, if_pos hmatch, if_pos (Or.inr hmatch)]
    rfl
  rw [if_neg harch, if_neg hmatch, if_neg (not_or.mpr ⟨harch, hmatch⟩)]
  dsimp only
  rw [Program.ask, Prog.drive_send, Program.commit, Prog.transact, Prog.drive, Txn.exec]
  rcases db.insertReceiptTransaction block.id d.tx (world .now w).1 with e | ⟨db₁, _ | _⟩
  · rfl
  · rfl
  · rfl

/-! ## What receipts leave alone -/

/-- A block without the count its receipts gave it. -/
def BlockRow.uncounted (b : BlockRow) : BlockRow := { b with txCountTotal := none }

namespace Db

/-- The count a block's receipts gave it. -/
def countOf (db : Db) (blockId : ℕ) : Option ℕ := (db.block? blockId).bind BlockRow.txCountTotal

/-- **Receipts have been stored in between**: blocks and log are the same but for the counts, and no
transaction and no count is gone. -/
structure Completes (db db' : Db) : Prop where
  blocks : db'.blocks.rows.map BlockRow.uncounted = db.blocks.rows.map BlockRow.uncounted
  log : db'.blockStatusLog = db.blockStatusLog
  counts : ∀ id n, db.countOf id = some n → db'.countOf id = some n
  transactions : ∀ t ∈ db.transactions.rows, t ∈ db'.transactions.rows

variable {db db' db'' : Db}

/-- No receipt has been stored. -/
theorem Completes.refl (db : Db) : db.Completes db := ⟨rfl, rfl, fun _ _ h => h, fun _ h => h⟩

/-- **Receipts after receipts**: nothing they wrote is gone. -/
theorem Completes.trans (h : db.Completes db') (h' : db'.Completes db'') : db.Completes db'' :=
  ⟨h'.blocks.trans h.blocks, h'.log.trans h.log, fun id n hn => h'.counts id n (h.counts id n hn),
    fun t ht => h'.transactions t (h.transactions t ht)⟩

/-- Receipts keep headers and log. -/
theorem Completes.keepsHeaders (h : db.Completes db') : db.KeepsHeaders db' := by
  have hbare : BlockRow.bare ∘ BlockRow.uncounted = BlockRow.bare := rfl
  have hrows := congrArg (List.map BlockRow.bare) h.blocks
  rw [List.map_map, List.map_map, hbare] at hrows
  exact ⟨hrows, h.log⟩

theorem block?_uncounted (db : Db) (id : ℕ) : (db.block? id).map BlockRow.uncounted
    = (db.blocks.rows.map BlockRow.uncounted).find? fun b => b.id = id := by
  rw [List.find?_map]
  rfl

/-- A block is found as before, but for its count. -/
theorem Completes.block? (h : db.Completes db') (id : ℕ) :
    (db'.block? id).map BlockRow.uncounted = (db.block? id).map BlockRow.uncounted := by
  rw [block?_uncounted, block?_uncounted, h.blocks]

/-- So is the canonical block of a height. -/
theorem Completes.canonicalBlockAt (h : db.Completes db') (height : ℕ) :
    (db'.canonicalBlockAt height).map BlockRow.uncounted
      = (db.canonicalBlockAt height).map BlockRow.uncounted := by
  rw [Db.canonicalBlockAt, Db.canonicalBlockAt, canonicalHashAt_congr (h.keepsHeaders.slice height),
    Option.map_bind, Option.map_bind]
  exact congrArg (Option.bind _) (funext fun known => h.block? known.1)

/-- Header-only blocks stay so. -/
theorem Completes.isHeaderOnly (h : db.Completes db') (id : ℕ) :
    db'.isHeaderOnly id = db.isHeaderOnly id := by
  have hany : ∀ d : Db, d.isHeaderOnly id
      = ((d.block? id).map BlockRow.uncounted).any fun b => !b.archived := fun d => by
    rw [Option.any_map]
    rfl
  rw [hany, hany, h.block?]

/-- What an entry completes does not change while receipts are stored. -/
theorem Completes.accept_ok (h : db.Completes db') {verify : String → Except String ReceiptVerdict}
    {entry : ReceiptEntry} {d : DecodedReceipt} {blockId : ℕ} :
    accept verify entry d db' = .ok blockId ↔ accept verify entry d db = .ok blockId := by
  have hsame : ∀ d' : Db, (∃ block, d'.canonicalBlockAt d.height = some block
      ∧ block.archived = false ∧ block.txRoot = d.txRoot ∧ block.timestamp.toUInt64 = d.timestamp
      ∧ block.id = blockId) ↔
      ∃ block, (d'.canonicalBlockAt d.height).map BlockRow.uncounted = some block
      ∧ block.archived = false ∧ block.txRoot = d.txRoot ∧ block.timestamp.toUInt64 = d.timestamp
      ∧ block.id = blockId := by
    intro d'
    constructor
    · rintro ⟨block, hblock, hrest⟩
      exact ⟨block.uncounted, by rw [hblock, Option.map_some], hrest⟩
    · rintro ⟨_, hmap, hrest⟩
      obtain ⟨block, hblock, rfl⟩ := Option.map_eq_some_iff.mp hmap
      exact ⟨block, hblock, hrest⟩
  rw [Permanode.accept_ok, Permanode.accept_ok, hsame, hsame, h.canonicalBlockAt]

/-! ## Writing one receipt -/

variable {blockId : ℕ} {tx : ReceiptTransaction} {now : Instant}

/-- **What there is to know of a receipt that was stored**: its place was checked, and its rows are
written. -/
theorem insertReceiptTransaction_written
    (h : db.insertReceiptTransaction blockId tx now = .ok (db', true)) :
    db.isHeaderOnly blockId ∧ (tx.position ≠ 0 ∧ tx.position < tx.txCount)
      ∧ (∀ n, db.countOf blockId = some n → n = tx.txCount.toNat)
      ∧ db.ReceiptWritten blockId tx now db'
      ∧ ∀ t ∈ db.transactionsOf blockId, t.position ≠ tx.position.toNat := by
  obtain ⟨hheader, hpos, hcount, ⟨hne, -⟩ | ⟨-, hwrite, hfree⟩⟩ := insertReceiptTransaction_ok.mp h
  · exact nomatch hne
  · exact ⟨hheader, hpos, hcount, writeReceiptTransaction_ok hwrite, hfree⟩

/-- The block has its count. -/
theorem ReceiptWritten.blocks (h : db.ReceiptWritten blockId tx now db') : db'.blocks.rows
    = db.blocks.rows.map (Table.updated (fun b => b.id = blockId)
      fun b => { b with txCountTotal := some tx.txCount.toNat }) := by
  rw [h.rest]
  rfl

theorem ReceiptWritten.log (h : db.ReceiptWritten blockId tx now db') :
    db'.blockStatusLog = db.blockStatusLog := by
  rw [h.rest]
  rfl

theorem ReceiptWritten.block? (h : db.ReceiptWritten blockId tx now db') (id : ℕ) : db'.block? id
    = (db.block? id).map (Table.updated (fun b => b.id = blockId)
      fun b => { b with txCountTotal := some tx.txCount.toNat }) := by
  rw [Db.block?, h.blocks, List.find?_map, Db.block?]
  refine congrArg (Option.map _) (List.find?_congr fun b _ => ?_)
  simp only [Function.comp, Table.updated]
  split_ifs
  all_goals rfl

/-- The count is what the receipt says. -/
theorem ReceiptWritten.countOf (h : db.ReceiptWritten blockId tx now db')
    (hheader : db.isHeaderOnly blockId) : db'.countOf blockId = some tx.txCount.toNat := by
  rw [isHeaderOnly, Option.any_eq_true] at hheader
  obtain ⟨b, hb, -⟩ := hheader
  obtain ⟨-, hid⟩ := mem_of_block? hb
  rw [Db.countOf, h.block?, hb]
  simp [Table.updated, hid]

/-- **A receipt that is written is one that completes**, if an earlier count says the same. -/
theorem ReceiptWritten.completes (h : db.ReceiptWritten blockId tx now db')
    (hcount : ∀ n, db.countOf blockId = some n → n = tx.txCount.toNat) : db.Completes db' := by
  refine ⟨?_, h.log, fun id n hn => ?_, fun t ht => ?_⟩
  · rw [h.blocks, List.map_map]
    refine List.map_congr_left fun b _ => ?_
    simp only [Function.comp, Table.updated]
    split_ifs <;> rfl
  · obtain ⟨b, hb, hbn⟩ := Option.bind_eq_some_iff.mp hn
    rw [Db.countOf, h.block?, hb, Option.map_some, Option.bind_some]
    obtain ⟨-, hid⟩ := mem_of_block? hb
    simp only [Table.updated]
    split_ifs with hown
    · obtain rfl : id = blockId := hid.symm.trans (of_decide_eq_true hown)
      rw [hcount n hn]
    · exact hbn
  · rw [h.transactions]
    exact List.mem_append_left _ ht

/-! ### The foreign keys -/

/-- **The foreign keys of a transaction's rows**: page hashes, inputs, outputs and receipts are
those of transactions that are there. -/
structure RowsRefer (db : Db) : Prop where
  lists : db.Intact
  receipts : ∀ r ∈ db.txReceipts.rows, ∃ t ∈ db.transactions.rows, t.id = r.txId

/-- **The rows of a receipt refer to its own transaction.** -/
theorem ReceiptWritten.rowsRefer (h : db.ReceiptWritten blockId tx now db')
    (hrefer : db.RowsRefer) : db'.RowsRefer := by
  have hold : ∀ {id}, (∃ t ∈ db.transactions.rows, t.id = id)
    → ∃ t ∈ db'.transactions.rows, t.id = id :=
    fun ⟨t, ht, hid⟩ => ⟨t, h.transactions ▸ List.mem_append_left _ ht, hid⟩
  have hnew : ∃ t ∈ db'.transactions.rows, t.id = db.transactions.nextId TransactionRow.id :=
    ⟨_, h.transactions ▸ List.mem_append_right _ (List.mem_singleton_self _), rfl⟩
  -- rows that refer to what was there, and rows of the new transaction behind them
  have happend : ∀ {ρ β : Type} {key : ρ → ℕ} {old : List ρ} {l : List β} {f : β → ρ},
      (∀ r ∈ old, ∃ t ∈ db.transactions.rows, t.id = key r) →
      (∀ b, key (f b) = db.transactions.nextId TransactionRow.id) →
      ∀ r ∈ old ++ l.map f, ∃ t ∈ db'.transactions.rows, t.id = key r := by
    intro ρ β key old l f hrefers hown r hr
    rcases List.mem_append.mp hr with hr | hr
    · exact hold (hrefers r hr)
    · obtain ⟨b, -, rfl⟩ := List.mem_map.mp hr
      rw [hown]
      exact hnew
  refine ⟨⟨fun r hr => ?_, fun r hr => ?_, fun r hr => ?_⟩, fun r hr => ?_⟩
  · exact happend hrefer.lists.pageHashes (fun _ => rfl) r (h.pageHashes ▸ hr)
  · exact happend hrefer.lists.inputs (fun _ => rfl) r (h.inputs ▸ hr)
  · exact happend hrefer.lists.outputs (fun _ => rfl) r (h.outputs ▸ hr)
  · rcases List.mem_append.mp (h.receipts ▸ hr) with hr | hr
    · exact hold (hrefer.receipts r hr)
    · rw [List.mem_singleton.mp hr]
      exact hnew

/-- **Where the foreign keys hold nothing is in the way of a receipt's rows.** -/
theorem writeReceiptTransaction_of_free (hrefer : db.RowsRefer)
    (hfree : ∀ t ∈ db.transactionsOf blockId, t.position ≠ tx.position.toNat) :
    ∃ db', db.writeReceiptTransaction blockId tx now = .ok db' := by
  let id := db.transactions.nextId TransactionRow.id
  have hfresh : ∀ {k}, (∃ t ∈ db.transactions.rows, t.id = k) → k ≠ id := by
    rintro _ ⟨t, ht, rfl⟩
    exact (Table.lt_nextId ht).ne
  have hT : ∃ T, db.transactions.insert (uniqueError "transactions.block_id, transactions.position")
      (receiptRow id blockId tx) = .ok T := by
    refine ⟨_, Table.insert_ok.mpr ⟨fun t ht => decide_eq_false ?_, rfl⟩⟩
    rintro (hid | hplace)
    · exact (Table.lt_nextId ht).ne hid
    · obtain ⟨hb, hp⟩ := Prod.mk.inj hplace
      exact hfree t (List.mem_filter.mpr ⟨ht, decide_eq_true hb⟩) hp
  have hP : ∃ P, Table.insertAll (uniqueError "tx_page_hashes.tx_id, tx_page_hashes.idx")
      (fun _ => PageHashRow.mk id) 0 tx.pageHashes db.txPageHashes = .ok P := by
    refine Table.insertAll_of_free PageHashRow.txId PageHashRow.idx ?_ ?_
      fun r hr hk => absurd hk (hfresh (hrefer.lists.pageHashes r hr))
    · exact fun _ _ _ => ⟨rfl, rfl⟩
    · exact fun _ _ _ _ _ hc => Prod.mk.inj (of_decide_eq_true hc)
  have hI : ∃ I, Table.insertAll (uniqueError "tx_inputs.tx_id, tx_inputs.idx")
      (fun _ => receiptInputRow id) 0 tx.inputs db.txInputs = .ok I := by
    refine Table.insertAll_of_free InputRow.txId InputRow.idx ?_ ?_
      fun r hr hk => absurd hk (hfresh (hrefer.lists.inputs r hr))
    · exact fun _ _ _ => ⟨rfl, rfl⟩
    · exact fun _ _ _ _ _ hc => Prod.mk.inj (of_decide_eq_true hc)
  have hO : ∃ O, Table.insertAll (uniqueError "tx_outputs.tx_id, tx_outputs.idx")
      (fun t => receiptOutputRow id (t.nextId OutputRow.rowid)) 0 tx.outputs db.txOutputs
        = .ok O := by
    refine Table.insertAll_of_free OutputRow.txId OutputRow.idx ?_ ?_
      fun r hr hk => absurd hk (hfresh (hrefer.lists.outputs r hr))
    · exact fun _ _ _ => ⟨rfl, rfl⟩
    · intro t _ _ s hs hc
      rcases of_decide_eq_true hc with hrow | hkey
      · exact absurd hrow (Table.lt_nextId hs).ne
      · exact Prod.mk.inj hkey
  have hC : ∃ C, db.txReceipts.insert (uniqueError "tx_receipts.tx_id") ⟨id, tx.receiptHex, now⟩
      = .ok C := by
    refine ⟨_, Table.insert_ok.mpr ⟨fun r hr => ?_, rfl⟩⟩
    exact decide_eq_false (hfresh (hrefer.receipts r hr))
  obtain ⟨T, hT⟩ := hT
  obtain ⟨P, hP⟩ := hP
  obtain ⟨I, hI⟩ := hI
  obtain ⟨O, hO⟩ := hO
  obtain ⟨C, hC⟩ := hC
  exact ⟨_, bind_ok.mpr ⟨T, hT, bind_ok.mpr ⟨P, hP, bind_ok.mpr ⟨I, hI, bind_ok.mpr ⟨O, hO,
    bind_ok.mpr ⟨C, hC, rfl⟩⟩⟩⟩⟩⟩

end Db

/-! ## What a run writes -/

/-- A receipt as it is stored. -/
structure StoredReceipt where
  blockId : ℕ
  tx : ReceiptTransaction
  importedAt : Instant

/-- What is stored of a result: its receipt, in the canonical block of its height, if it was
imported. -/
def EntryResult.stored (db : Db) (now : Instant) (r : EntryResult) : Option StoredReceipt :=
  if r.outcome = .imported then
    r.decoded.bind fun d => (db.canonicalBlockAt d.height).map fun block => ⟨block.id, d.tx, now⟩
  else none

/-- What is stored of results, the first of them the `n`-th of its run. -/
def storedReceipts (db : Db) (clock : ℕ → Instant) (n : ℕ) (results : List EntryResult) :
    List StoredReceipt :=
  (results.zipIdx n).filterMap fun x => x.1.stored db (clock x.2)

namespace Db

/-- Receipts with the ids their transactions get. -/
def numbered (db : Db) (l : List StoredReceipt) : List (StoredReceipt × ℕ) :=
  l.zipIdx (db.transactions.nextId TransactionRow.id)

/-- The outputs of receipts, each with the id of its transaction and its index there. -/
def outputsOfReceipts (l : List (StoredReceipt × ℕ)) : List (ℕ × ReceiptOutput × ℕ) :=
  l.flatMap fun x => x.1.tx.outputs.zipIdx.map fun y => (x.2, y)

theorem outputsOfReceipts_append (l l' : List (StoredReceipt × ℕ)) :
    outputsOfReceipts (l ++ l') = outputsOfReceipts l ++ outputsOfReceipts l' := List.flatMap_append

/-- **The database with the rows of these receipts and no others**, table by table: the rows that
were there stay, and the receipts' own follow them; of a block nothing changes but the count, and
that only if a receipt was stored in it; every other table is as it was. -/
structure Receives (db : Db) (l : List StoredReceipt) (db' : Db) : Prop where
  transactions : db'.transactions.rows = db.transactions.rows
    ++ (db.numbered l).map fun x => receiptRow x.2 x.1.blockId x.1.tx
  pageHashes : db'.txPageHashes.rows = db.txPageHashes.rows
    ++ (db.numbered l).flatMap fun x => x.1.tx.pageHashes.zipIdx.map fun y =>
      PageHashRow.mk x.2 y.2 y.1
  inputs : db'.txInputs.rows = db.txInputs.rows
    ++ (db.numbered l).flatMap fun x => x.1.tx.inputs.zipIdx.map fun y =>
      receiptInputRow x.2 y.2 y.1
  outputs : db'.txOutputs.rows = db.txOutputs.rows
    ++ ((outputsOfReceipts (db.numbered l)).zipIdx (db.txOutputs.nextId OutputRow.rowid)).map
      fun z => receiptOutputRow z.1.1 z.2 z.1.2.2 z.1.2.1
  receipts : db'.txReceipts.rows = db.txReceipts.rows
    ++ (db.numbered l).map fun x => ⟨x.2, x.1.tx.receiptHex, x.1.importedAt⟩
  blocks : db'.blocks.rows = db.blocks.rows.map fun b => { b with
    txCountTotal := ((l.reverse.find? fun s => s.blockId = b.id).map fun s => s.tx.txCount.toNat).or
      b.txCountTotal }
  rest : db' = { db with
    transactions := db'.transactions
    txPageHashes := db'.txPageHashes
    txInputs := db'.txInputs
    txOutputs := db'.txOutputs
    txReceipts := db'.txReceipts
    blocks := db'.blocks }

variable {db db' db'' : Db} {l l' : List StoredReceipt}

/-- No receipts, no rows. -/
theorem Receives.refl (db : Db) : db.Receives [] db where
  transactions := (List.append_nil _).symm
  pageHashes := (List.append_nil _).symm
  inputs := (List.append_nil _).symm
  outputs := (List.append_nil _).symm
  receipts := (List.append_nil _).symm
  blocks := (List.map_id _).symm
  rest := rfl

/-- One receipt that is written is one that is received. -/
theorem ReceiptWritten.receives {blockId : ℕ} {tx : ReceiptTransaction} {now : Instant}
    (h : db.ReceiptWritten blockId tx now db') : db.Receives [⟨blockId, tx, now⟩] db' where
  transactions := h.transactions
  pageHashes := by rw [h.pageHashes]; simp [numbered]
  inputs := by rw [h.inputs]; simp [numbered]
  outputs := by
    rw [h.outputs]
    simp [numbered, outputsOfReceipts, List.zipIdx_map, Function.comp_def]
  receipts := h.receipts
  blocks := by
    rw [h.blocks]
    refine List.map_congr_left fun b _ => ?_
    by_cases hid : b.id = blockId
    · simp [Table.updated, hid]
    · simp [Table.updated, hid, Ne.symm hid]
  rest := by
    have hrest := h.rest
    exact hrest.trans (congrArg (fun blocks => ({ db with
      transactions := db'.transactions
      txPageHashes := db'.txPageHashes
      txInputs := db'.txInputs
      txOutputs := db'.txOutputs
      txReceipts := db'.txReceipts
      blocks := blocks } : Db)) (congrArg Db.blocks hrest).symm)

/-- **Receipts after receipts.** -/
theorem Receives.append (h : db.Receives l db') (h' : db'.Receives l' db'') :
    db.Receives (l ++ l') db'' := by
  have hids : db'.transactions.nextId TransactionRow.id
      = db.transactions.nextId TransactionRow.id + l.length := by
    rw [Table.nextId_append h.transactions, List.length_map, numbered, List.length_zipIdx]
    rw [List.map_map, List.length_map, numbered, List.length_zipIdx]
    exact List.zipIdx_map_snd ..
  have hnumbered : db.numbered (l ++ l') = db.numbered l ++ db'.numbered l' := by
    rw [numbered, numbered, numbered, List.zipIdx_append, hids]
  have hrowids : db'.txOutputs.nextId OutputRow.rowid = db.txOutputs.nextId OutputRow.rowid
      + (outputsOfReceipts (db.numbered l)).length := by
    rw [Table.nextId_append h.outputs, List.length_map, List.length_zipIdx]
    rw [List.map_map, List.length_map, List.length_zipIdx]
    exact List.zipIdx_map_snd ..
  constructor
  · rw [h'.transactions, h.transactions, hnumbered, List.map_append, List.append_assoc]
  · rw [h'.pageHashes, h.pageHashes, hnumbered, List.flatMap_append, List.append_assoc]
  · rw [h'.inputs, h.inputs, hnumbered, List.flatMap_append, List.append_assoc]
  · rw [h'.outputs, h.outputs, hnumbered, outputsOfReceipts_append, List.zipIdx_append, hrowids,
      List.map_append, List.append_assoc]
  · rw [h'.receipts, h.receipts, hnumbered, List.map_append, List.append_assoc]
  · rw [h'.blocks, h.blocks, List.map_map]
    refine List.map_congr_left fun b _ => ?_
    simp only [Function.comp, List.reverse_append, List.find?_append, Option.map_or,
      Option.or_assoc]
  · have hrest := h.rest
    exact h'.rest.trans (congrArg (fun d : Db => { d with
      transactions := db''.transactions
      txPageHashes := db''.txPageHashes
      txInputs := db''.txInputs
      txOutputs := db''.txOutputs
      txReceipts := db''.txReceipts
      blocks := db''.blocks }) hrest)

end Db

variable {N : Noid} {R : ReceiptCrate N} {verify : String → Except String ReceiptVerdict}
  {seen : List (Option String × String)} {now : Instant} {entry : ReceiptEntry} {db db' : Db}

/-- **What an entry of a run can do.** -/
theorem importEntry_cases :
    (∃ d blockId db', (entry.key, entry.hex) ∉ seen ∧ decodeReceipt R entry.hex = .ok d
        ∧ accept verify entry d db = .ok blockId
        ∧ db.insertReceiptTransaction blockId d.tx now = .ok (db', true)
        ∧ importEntry R verify seen now entry db = (⟨entry, some d, .imported⟩, db'))
      ∨ (importEntry R verify seen now entry db).1.outcome ≠ .imported
        ∧ (importEntry R verify seen now entry db).2 = db := by
  unfold importEntry
  by_cases hseen : (entry.key, entry.hex) ∈ seen
  · rw [if_pos hseen]
    exact Or.inr ⟨nofun, rfl⟩
  rw [if_neg hseen]
  rcases decodeReceipt R entry.hex with why | d
  · exact Or.inr ⟨nofun, rfl⟩
  dsimp only
  rcases @importOne_cases verify now entry d db with ⟨blockId, db', hentry, hins, hone⟩ | hnot
  · rw [hone]
    exact Or.inl ⟨d, blockId, db', hseen, rfl, hentry, hins, rfl⟩
  · exact Or.inr hnot

theorem importEntry_entry : (importEntry R verify seen now entry db).1.entry = entry := by
  unfold importEntry
  split_ifs
  · rfl
  · split <;> rfl

/-- An entry stores its receipt or nothing. -/
theorem completes_importEntry : db.Completes (importEntry R verify seen now entry db).2 := by
  rcases @importEntry_cases N R verify seen now entry db
    with ⟨d, blockId, db', -, -, -, hins, himport⟩ | ⟨-, hsame⟩
  · obtain ⟨-, -, hcount, hwritten, -⟩ := Db.insertReceiptTransaction_written hins
    rw [himport]
    exact hwritten.completes hcount
  · rw [hsame]
    exact .refl db

/-- So do entries one after the other. -/
theorem completes_importFrom {clock : ℕ → Instant} : ∀ {entries : List ReceiptEntry} {n : ℕ}
    {seen : List (Option String × String)} {db : Db},
    db.Completes (importFrom R verify clock n seen entries db).2
  | [], _, _, db => .refl db
  | _ :: _, _, _, _ => completes_importEntry.trans completes_importFrom

/-- What is stored of a result does not depend on the receipts stored before it. -/
theorem Db.Completes.stored (h : db.Completes db') (r : EntryResult) :
    r.stored db' now = r.stored db now := by
  have hblock : ∀ d : DecodedReceipt, ∀ x : Option BlockRow,
      x.map (fun block => (⟨block.id, d.tx, now⟩ : StoredReceipt))
        = (x.map BlockRow.uncounted).map fun block => ⟨block.id, d.tx, now⟩ :=
    fun d x => by rw [Option.map_map]; rfl
  rw [EntryResult.stored, EntryResult.stored]
  refine if_congr Iff.rfl (congrArg (Option.bind _) (funext fun d => ?_)) rfl
  rw [hblock, h.canonicalBlockAt, ← hblock]

/-- **A run writes the rows of the entries it imported, and nothing else.** -/
theorem receives_importFrom {clock : ℕ → Instant} : ∀ {entries : List ReceiptEntry} {n : ℕ}
    {seen : List (Option String × String)} {db : Db},
    db.Receives (storedReceipts db clock n (importFrom R verify clock n seen entries db).1)
      (importFrom R verify clock n seen entries db).2
  | [], _, _, db => .refl db
  | entry :: entries, n, seen, db => by
      have hrest := @receives_importFrom clock entries (n + 1) ((entry.key, entry.hex) :: seen)
        (importEntry R verify seen (clock n) entry db).2
      have hstored : ∀ results : List EntryResult,
          storedReceipts (importEntry R verify seen (clock n) entry db).2 clock (n + 1) results
            = storedReceipts db clock (n + 1) results := fun results =>
        congrArg (fun f => List.filterMap f (results.zipIdx (n + 1)))
          (funext fun x => completes_importEntry.stored x.1)
      rw [hstored] at hrest
      rw [importFrom]
      dsimp only
      rw [storedReceipts, List.zipIdx_cons, List.filterMap_cons]
      rcases @importEntry_cases N R verify seen (clock n) entry db
        with ⟨d, blockId, db', -, -, hentry, hins, himport⟩ | ⟨hnot, hsame⟩
      · obtain ⟨-, block, hblock, -, -, -, rfl⟩ := accept_ok.mp hentry
        have hone : (importEntry R verify seen (clock n) entry db).1.stored db (clock n)
            = some ⟨block.id, d.tx, clock n⟩ := by
          rw [himport, EntryResult.stored, if_pos rfl]
          dsimp only
          rw [Option.bind_some, hblock, Option.map_some]
        have hwritten := (Db.insertReceiptTransaction_written hins).2.2.2.1
        rw [hone]
        rw [himport] at hrest ⊢
        exact hwritten.receives.append hrest
      · have hnone : (importEntry R verify seen (clock n) entry db).1.stored db (clock n) = none :=
          if_neg hnot
        rw [hnone]
        rw [hsame] at hrest ⊢
        exact hrest

/-- **The results of a run are those of its entries, in order**, and an imported one was verified
and completes the header-only block of its height. -/
theorem results_importFrom {clock : ℕ → Instant} : ∀ {entries : List ReceiptEntry} {n : ℕ}
    {seen : List (Option String × String)} {db : Db},
    (importFrom R verify clock n seen entries db).1.map EntryResult.entry = entries
      ∧ ∀ r ∈ (importFrom R verify clock n seen entries db).1, r.outcome = .imported →
        ∃ d block, r.decoded = some d ∧ decodeReceipt R r.entry.hex = .ok d
          ∧ checkEntry verify r.entry d = .ok () ∧ db.canonicalBlockAt d.height = some block
          ∧ block.archived = false
  | [], _, _, _ => ⟨rfl, fun _ h => absurd h List.not_mem_nil⟩
  | entry :: entries, n, seen, db => by
      obtain ⟨hentries, hresults⟩ := @results_importFrom clock entries (n + 1)
        ((entry.key, entry.hex) :: seen) (importEntry R verify seen (clock n) entry db).2
      rw [importFrom]
      refine ⟨congrArg₂ List.cons importEntry_entry hentries, List.forall_mem_cons.mpr ⟨?_, ?_⟩⟩
      · intro himported
        rcases @importEntry_cases N R verify seen (clock n) entry db
          with ⟨d, blockId, db', -, hdec, hentry, -, himport⟩ | ⟨hnot, -⟩
        · obtain ⟨hcheck, block, hblock, harch, -⟩ := accept_ok.mp hentry
          rw [himport]
          exact ⟨d, block, rfl, hdec, hcheck, hblock, harch⟩
        · exact absurd himported hnot
      · intro r hr himported
        obtain ⟨d, block, hd, hdec, hcheck, hblock, harch⟩ := hresults r hr himported
        obtain ⟨block₀, hblock₀, hsame⟩ := Option.map_eq_some_iff.mp
          ((completes_importEntry.canonicalBlockAt d.height).symm.trans (congrArg _ hblock))
        exact ⟨d, block₀, hd, hdec, hcheck, hblock₀,
          (congrArg BlockRow.archived hsame).trans harch⟩

/-! ## What holds of the rows -/

namespace Db

/-- The receipt transactions of a block. -/
def receiptsOf (db : Db) (blockId : ℕ) : List TransactionRow :=
  db.transactions.rows.filter fun t => t.blockId = blockId ∧ t.source = some receiptSource

/-- **The rows of receipts are in order.** -/
structure ReceiptsKept (db : Db) : Prop where
  places : ∀ b ∈ db.blocks.rows, b.archived = false → ∀ t ∈ db.receiptsOf b.id,
    ∃ n, b.txCountTotal = some n ∧ 1 ≤ t.position ∧ t.position < n
  distinct : ∀ b ∈ db.blocks.rows, b.archived = false →
    ((db.receiptsOf b.id).map TransactionRow.position).Nodup
  kept : ∀ b ∈ db.blocks.rows, b.archived = false → ∀ t ∈ db.receiptsOf b.id,
    (db.txReceipts.rows.filter fun r => r.txId = t.id).length = 1
  counted : ∀ b ∈ db.blocks.rows,
    b.txCountTotal.isSome ↔ b.archived = false ∧ db.receiptsOf b.id ≠ []

variable {blockId : ℕ} {tx : ReceiptTransaction}

/-- The block has one more receipt, and the others have their own. -/
theorem ReceiptWritten.receiptsOf (h : db.ReceiptWritten blockId tx now db') (id : ℕ) :
    db'.receiptsOf id = db.receiptsOf id
      ++ if blockId = id then [receiptRow (db.transactions.nextId TransactionRow.id) blockId tx]
        else [] := by
  rw [Db.receiptsOf, h.transactions, List.filter_append, ← Db.receiptsOf]
  refine congrArg (db.receiptsOf id ++ ·) ?_
  split_ifs with hid
  · exact List.filter_cons_of_pos (decide_eq_true ⟨hid, rfl⟩)
  · exact List.filter_cons_of_neg fun hp => hid (of_decide_eq_true hp).1

/-- A receipt is kept once, under a key of its own. -/
theorem ReceiptWritten.kept (h : db.ReceiptWritten blockId tx now db') {id : ℕ}
    (hid : id = db.transactions.nextId TransactionRow.id
      ∨ (db.txReceipts.rows.filter fun r => r.txId = id).length = 1) :
    (db'.txReceipts.rows.filter fun r => r.txId = id).length = 1 := by
  have hone : ∀ T : Table ReceiptRow, (∃ r ∈ T.rows, r.txId = id) →
      (T.rows.filter fun r => r.txId = id).length = 1 := by
    rintro T ⟨r, hr, rfl⟩
    have hall : ∀ s ∈ T.rows.filter fun s => s.txId = r.txId, s = r := fun s hs =>
      T.eq_of_clash (List.mem_filter.mp hs).1 hr (List.mem_filter.mp hs).2
    have hnodup : (T.rows.filter fun s => s.txId = r.txId).Nodup :=
      (T.unique.imp fun {a b} hne hab => by
        rw [hab] at hne
        exact absurd hne (by simp [Row.clash])).filter _
    have hmem : r ∈ T.rows.filter fun s => s.txId = r.txId :=
      List.mem_filter.mpr ⟨hr, decide_eq_true rfl⟩
    refine List.length_eq_one_iff.mpr ⟨r, List.perm_singleton.mp ?_⟩
    refine (List.perm_ext_iff_of_nodup hnodup (List.nodup_singleton r)).mpr fun s => ?_
    exact ⟨fun hs => List.mem_singleton.mpr (hall s hs), fun hs => List.mem_singleton.mp hs ▸ hmem⟩
  refine hone _ ?_
  rw [h.receipts]
  rcases hid with rfl | hlen
  · exact ⟨_, List.mem_append_right _ (List.mem_singleton_self _), rfl⟩
  · obtain ⟨r, hr⟩ := List.length_eq_one_iff.mp hlen
    obtain ⟨hmem, hid⟩ := List.mem_filter.mp (hr ▸ List.mem_singleton_self r)
    exact ⟨r, List.mem_append_left _ hmem, of_decide_eq_true hid⟩

/-- **A receipt that is written keeps the rows in order.** -/
theorem ReceiptsKept.write (h : db.ReceiptsKept) (hw : db.ReceiptWritten blockId tx now db')
    (hheader : db.isHeaderOnly blockId) (hpos : tx.position ≠ 0 ∧ tx.position < tx.txCount)
    (hcount : ∀ n, db.countOf blockId = some n → n = tx.txCount.toNat)
    (hfree : ∀ t ∈ db.transactionsOf blockId, t.position ≠ tx.position.toNat) :
    db'.ReceiptsKept := by
  let row := receiptRow (db.transactions.nextId TransactionRow.id) blockId tx
  -- a block after the write, and its receipts
  have hblocks : ∀ b' ∈ db'.blocks.rows,
      ∃ b ∈ db.blocks.rows, b'.archived = b.archived ∧ b'.id = b.id
        ∧ (b.id ≠ blockId ∧ b'.txCountTotal = b.txCountTotal
            ∧ db'.receiptsOf b'.id = db.receiptsOf b.id
          ∨ b.id = blockId ∧ b'.txCountTotal = some tx.txCount.toNat
            ∧ db'.receiptsOf b'.id
              = db.receiptsOf b.id ++ [row]) := by
    intro b' hb'
    rw [hw.blocks] at hb'
    obtain ⟨b, hb, rfl⟩ := List.mem_map.mp hb'
    refine ⟨b, hb, ?_⟩
    by_cases hid : b.id = blockId
    · rw [Table.updated, if_pos (decide_eq_true hid)]
      refine ⟨rfl, rfl, Or.inr ⟨hid, rfl, ?_⟩⟩
      rw [hw.receiptsOf, if_pos hid.symm]
    · rw [Table.updated, if_neg fun h => hid (of_decide_eq_true h)]
      refine ⟨rfl, rfl, Or.inl ⟨hid, rfl, ?_⟩⟩
      rw [hw.receiptsOf, if_neg fun h => hid h.symm, List.append_nil]
  have hplace : 1 ≤ tx.position.toNat ∧ tx.position.toNat < tx.txCount.toNat := by
    refine ⟨Nat.one_le_iff_ne_zero.mpr fun h => hpos.1 (UInt32.toNat_inj.mp h), ?_⟩
    exact UInt32.lt_iff_toNat_lt.mp hpos.2
  constructor
  · intro b' hb' harch t ht
    obtain ⟨b, hb, ha, -, ⟨-, hc, hr⟩ | ⟨hid, hc, hr⟩⟩ := hblocks b' hb'
    · rw [hr] at ht
      rw [hc]
      exact h.places b hb (ha ▸ harch) t ht
    · rw [hr] at ht
      refine ⟨_, hc, ?_⟩
      rcases List.mem_append.mp ht with ht | ht
      · obtain ⟨n, hn, hlow, hhigh⟩ := h.places b hb (ha ▸ harch) t ht
        have hsame : n = tx.txCount.toNat := by
          refine hcount n ?_
          rw [countOf, ← hid, block?_eq_some hb]
          exact hn
        exact ⟨hlow, hsame ▸ hhigh⟩
      · obtain rfl := List.mem_singleton.mp ht
        exact hplace
  · intro b' hb' harch
    obtain ⟨b, hb, ha, -, ⟨-, hc, hr⟩ | ⟨hid, hc, hr⟩⟩ := hblocks b' hb'
    · rw [hr]
      exact h.distinct b hb (ha ▸ harch)
    · rw [hr, List.map_append, List.map_singleton]
      refine (List.nodup_append.mpr ⟨h.distinct b hb (ha ▸ harch), List.nodup_singleton _, ?_⟩)
      rintro p hp q hq rfl
      obtain ⟨t, ht, rfl⟩ := List.mem_map.mp hp
      obtain ⟨hmem, hown⟩ := List.mem_filter.mp ht
      refine hfree t (List.mem_filter.mpr ⟨hmem, decide_eq_true ?_⟩) (List.mem_singleton.mp hq)
      exact (of_decide_eq_true hown).1.trans hid
  · intro b' hb' harch t ht
    refine hw.kept ?_
    obtain ⟨b, hb, ha, -, ⟨-, hc, hr⟩ | ⟨hid, hc, hr⟩⟩ := hblocks b' hb'
    · rw [hr] at ht
      exact Or.inr (h.kept b hb (ha ▸ harch) t ht)
    · rw [hr] at ht
      rcases List.mem_append.mp ht with ht | ht
      · exact Or.inr (h.kept b hb (ha ▸ harch) t ht)
      · obtain rfl := List.mem_singleton.mp ht
        exact Or.inl rfl
  · intro b' hb'
    obtain ⟨b, hb, ha, -, ⟨-, hc, hr⟩ | ⟨hid, hc, hr⟩⟩ := hblocks b' hb'
    · rw [hc, hr, ha]
      exact h.counted b hb
    · have harch : b.archived = false := by
        rw [isHeaderOnly, ← hid, block?_eq_some hb] at hheader
        simpa using hheader
      rw [hc, hr, ha]
      exact iff_of_true rfl ⟨harch, List.append_ne_nil_of_right_ne_nil _ (List.cons_ne_nil _ _)⟩

end Db

/-- An entry keeps the rows of receipts in order. -/
theorem receiptsKept_importEntry (h : db.ReceiptsKept) :
    (importEntry R verify seen now entry db).2.ReceiptsKept := by
  rcases @importEntry_cases N R verify seen now entry db
    with ⟨d, blockId, db', -, -, -, hins, himport⟩ | ⟨-, hsame⟩
  · obtain ⟨hheader, hpos, hcount, hwritten, hfree⟩ := Db.insertReceiptTransaction_written hins
    rw [himport]
    exact h.write hwritten hheader hpos hcount hfree
  · rw [hsame]
    exact h

theorem receiptsKept_importFrom {clock : ℕ → Instant} : ∀ {entries : List ReceiptEntry} {n : ℕ}
    {seen : List (Option String × String)} {db : Db}, db.ReceiptsKept →
    (importFrom R verify clock n seen entries db).2.ReceiptsKept
  | [], _, _, _, h => h
  | _ :: entries, n, _, _, h =>
    @receiptsKept_importFrom clock entries (n + 1) _ _ (receiptsKept_importEntry h)

/-! ## The run again -/

/-- An entry keeps the foreign keys. -/
theorem rowsRefer_importEntry (h : db.RowsRefer) :
    (importEntry R verify seen now entry db).2.RowsRefer := by
  rcases @importEntry_cases N R verify seen now entry db
    with ⟨d, blockId, db', -, -, -, hins, himport⟩ | ⟨-, hsame⟩
  · rw [himport]
    exact (Db.insertReceiptTransaction_written hins).2.2.2.1.rowsRefer h
  · rw [hsame]
    exact h

/-- **An imported entry again**, on a database where its import and later ones were stored: it is
found. -/
theorem importEntry_found {now' : Instant} {d : DecodedReceipt} {blockId : ℕ} {db₁ : Db}
    (hseen : (entry.key, entry.hex) ∉ seen) (hdec : decodeReceipt R entry.hex = .ok d)
    (hentry : accept verify entry d db = .ok blockId)
    (hins : db.insertReceiptTransaction blockId d.tx now = .ok (db₁, true))
    (h : db₁.Completes db') :
    importEntry R verify seen now' entry db' = (⟨entry, some d, .alreadyImported⟩, db') := by
  obtain ⟨hheader, hpos, hcount, hwritten, -⟩ := Db.insertReceiptTransaction_written hins
  have hgrown : db.Completes db' := (hwritten.completes hcount).trans h
  have hagain : db'.insertReceiptTransaction blockId d.tx now' = .ok (db', false) := by
    refine Db.insertReceiptTransaction_ok.mpr ⟨?_, hpos, fun n hn => ?_, Or.inl ⟨rfl, rfl, ?_⟩⟩
    · rw [hgrown.isHeaderOnly]
      exact hheader
    · exact Option.some.inj (hn.symm.trans (h.counts _ _ (hwritten.countOf hheader)))
    · refine ⟨Db.receiptRow (db.transactions.nextId TransactionRow.id) blockId d.tx,
        List.mem_filter.mpr ⟨h.transactions _ ?_, decide_eq_true rfl⟩, rfl, rfl, rfl⟩
      rw [hwritten.transactions]
      exact List.mem_append_right _ (List.mem_singleton_self _)
  rw [importEntry, if_neg hseen, hdec]
  dsimp only
  rw [importOne_of_insert (hgrown.accept_ok.mpr hentry) hagain]
  rfl

/-- **An entry again**, on a database where its first import and later ones were stored. -/
theorem importEntry_again {now' : Instant}
    (h : (importEntry R verify seen now entry db).2.Completes db') :
    ((importEntry R verify seen now entry db).1.outcome = .imported →
        (importEntry R verify seen now' entry db').1.outcome = .alreadyImported)
      ∧ (db.RowsRefer → (importEntry R verify seen now' entry db').2 = db') := by
  have hgrown : db.Completes db' := completes_importEntry.trans h
  refine ⟨fun himported => ?_, fun hrefer => ?_⟩
  · rcases @importEntry_cases N R verify seen now entry db
      with ⟨d, blockId, db₁, hseen, hdec, hentry, hins, himport⟩ | ⟨hnot, -⟩
    · rw [himport] at h
      rw [importEntry_found hseen hdec hentry hins h]
    · exact absurd himported hnot
  · rcases @importEntry_cases N R verify seen now' entry db'
      with ⟨d, blockId, db₂, hseen, hdec, hentry, hins, -⟩ | ⟨-, hsame⟩
    · -- what would be imported now would have been imported then
      obtain ⟨hheader, hpos, hcount, -, hfree⟩ := Db.insertReceiptTransaction_written hins
      have hfree₁ : ∀ t ∈ db.transactionsOf blockId, t.position ≠ d.tx.position.toNat := fun t ht =>
        have ⟨hmem, hb⟩ := List.mem_filter.mp ht
        hfree t (List.mem_filter.mpr ⟨hgrown.transactions t hmem, hb⟩)
      obtain ⟨db₁, hwrite⟩ := @Db.writeReceiptTransaction_of_free db blockId d.tx now hrefer hfree₁
      have hentry₁ := hgrown.accept_ok.mp hentry
      have hins₁ : db.insertReceiptTransaction blockId d.tx now = .ok (db₁, true) := by
        refine Db.insertReceiptTransaction_ok.mpr
          ⟨?_, hpos, fun n hn => ?_, Or.inr ⟨rfl, hwrite, hfree₁⟩⟩
        · rw [← hgrown.isHeaderOnly]
          exact hheader
        · exact hcount n (hgrown.counts _ _ hn)
      have himport : (importEntry R verify seen now entry db).2 = db₁ := by
        rw [importEntry, if_neg hseen, hdec]
        dsimp only
        rw [importOne_of_insert hentry₁ hins₁]
      rw [himport] at h
      rw [importEntry_found hseen hdec hentry₁ hins₁ h]
    · exact hsame

/-- **A run again** reports what it imported as imported already, and changes nothing. -/
theorem importFrom_again {clock clock' : ℕ → Instant} : ∀ {entries : List ReceiptEntry} {n m : ℕ}
    {seen : List (Option String × String)} {db db' : Db},
    (importFrom R verify clock n seen entries db).2.Completes db' →
    List.Forall₂ (fun r r' : EntryResult => r'.entry = r.entry
          ∧ (r.outcome = .imported → r'.outcome = .alreadyImported))
        (importFrom R verify clock n seen entries db).1
        (importFrom R verify clock' m seen entries db').1
      ∧ (db.RowsRefer → (importFrom R verify clock' m seen entries db').2 = db')
  | [], _, _, _, _, _, _ => ⟨.nil, fun _ => rfl⟩
  | entry :: entries, n, m, seen, db, db', h => by
      obtain ⟨hagain, hsame⟩ := @importEntry_again N R verify seen (clock n) entry db db' (clock' m)
        (completes_importFrom.trans h)
      obtain ⟨hrest, hrestSame⟩ := @importFrom_again clock clock' entries (n + 1) (m + 1)
        ((entry.key, entry.hex) :: seen) _ (importEntry R verify seen (clock' m) entry db').2
        (Db.Completes.trans h completes_importEntry)
      rw [importFrom, importFrom]
      refine ⟨.cons ⟨importEntry_entry.trans importEntry_entry.symm, hagain⟩ hrest,
        fun hrefer => ?_⟩
      exact (hrestSame (rowsRefer_importEntry hrefer)).trans (hsame hrefer)

/-- **A run of receipts**: of its entries the imported ones were verified and complete header-only
blocks; it changes the database by their rows alone, table by table; run again it reports them as
imported already, and changes nothing where the foreign keys of the schema hold; and it keeps the
rows of receipts in order. -/
theorem importReceipts_spec (R : ReceiptCrate N) (verify : String → Except String ReceiptVerdict)
    (clock clock' : ℕ → Instant) (entries : List ReceiptEntry) (db : Db) :
    let run := importReceipts R verify clock entries db
    let again := importReceipts R verify clock' entries run.2
    (run.1.map EntryResult.entry = entries
        ∧ ∀ r ∈ run.1, r.outcome = .imported →
          ∃ d block, r.decoded = some d ∧ decodeReceipt R r.entry.hex = .ok d
            ∧ checkEntry verify r.entry d = .ok () ∧ db.canonicalBlockAt d.height = some block
            ∧ block.archived = false)
      ∧ db.Receives (storedReceipts db clock 0 run.1) run.2
      ∧ List.Forall₂ (fun r r' : EntryResult => r'.entry = r.entry
          ∧ (r.outcome = .imported → r'.outcome = .alreadyImported)) run.1 again.1
      ∧ (db.RowsRefer → again.2 = run.2)
      ∧ (db.ReceiptsKept → run.2.ReceiptsKept) := by
  obtain ⟨hagain, hsame⟩ := @importFrom_again N R verify clock clock' entries 0 0 [] db _ (.refl _)
  exact ⟨results_importFrom, receives_importFrom, hagain, hsame, receiptsKept_importFrom⟩

/-! ### Two receipts of one block -/

/-- The sample's crates, with pages that spend one coin and make two. -/
def Noid.payer : Noid :=
  { Noid.sample with
    liveInputs := fun _ => [(0, ⟨65536, 10, 3⟩)]
    liveOutputs := fun _ => [(0, ⟨70002, 7, ()⟩), (1, ⟨70003, 1, ()⟩)] }

/-- Receipts of one such page, for blocks of the sample's `tx_root`. -/
def ReceiptCrate.sample : ReceiptCrate Noid.payer where
  Receipt := List UInt8
  fromBytes bytes := .ok bytes
  toBytes receipt := receipt
  verifyMerkleInclusion _ := true
  pagedSpend receipt := receipt.drop 3
  claimedHeight receipt := (receipt.headD 0).toNat
  claimedRoot _ := List.replicate 32 7 ++ List.replicate 32 8
  txIndex receipt := ((receipt.drop 1).headD 0).toUInt32
  txCount receipt := ((receipt.drop 2).headD 0).toUInt32
  logicalTxid receipt := receipt.drop 3
  confirmedUnix _ := 1700000000
  fee _ := 2
  inputs _ := [(65536, ())]
  outputs _ := [(70002, 7, ()), (70003, 1, ())]
  pages bytes := .ok bytes
  validatePagedSpend pages := .ok ⟨pages, 1, 2, 2, [], (), 10, 8⟩
  pageHash page := [page]
  sameAddress := inferInstanceAs (DecidableEq Unit)

/-- A node that confirms what a receipt says. -/
def confirm (hex : String) : Except String ReceiptVerdict :=
  .ok ⟨true, some true, none,
    (decodeReceipt ReceiptCrate.sample hex).toOption.map DecodedReceipt.summary⟩

/-- The sample's block, as the header backfill leaves it. -/
def headerDb : Db :=
  let row := Db.headerRow 1 sampleHeader false (some headerOnlySource) 100
  { Db.empty with blocks := Table.insertOrIgnore ∅ row }.appendStatus 1 .canonical 100

/-- A receipt, the same one filed under its txid, one for its position, and one that counts
otherwise. -/
def sampleEntries : List ReceiptEntry :=
  [⟨"a", none, "070103aa"⟩, ⟨"a", none, "070103aa"⟩, ⟨"b", some "aa", "070103aa"⟩,
    ⟨"b", none, "070103bb"⟩, ⟨"b", none, "070204cc"⟩]

theorem receiptsKept_headerDb : headerDb.ReceiptsKept where
  places _ _ _ _ ht := absurd ht List.not_mem_nil
  distinct _ _ _ := List.nodup_nil
  kept _ _ _ _ ht := absurd ht List.not_mem_nil
  counted b hb := by
    obtain rfl := List.mem_singleton.mp hb
    exact iff_of_false nofun fun h => h.2 rfl

theorem rowsRefer_headerDb : headerDb.RowsRefer where
  lists := ⟨fun _ h => absurd h List.not_mem_nil, fun _ h => absurd h List.not_mem_nil,
    fun _ h => absurd h List.not_mem_nil⟩
  receipts _ h := absurd h List.not_mem_nil

/-- The first entry is imported, with an input and two outputs, and the others are refused or
skipped. -/
theorem importReceipts_spec_sample :
    let run := importReceipts ReceiptCrate.sample confirm id sampleEntries headerDb
    run.1.map EntryResult.outcome = [.imported, .duplicate, .alreadyImported,
        .rejected "position 1 holds aa already",
        .rejected "the block holds 3 transactions per an earlier receipt, this one says 4"]
      ∧ (run.2.txInputs.rows.map InputRow.amountMicronoid = [10]
        ∧ run.2.txOutputs.rows.map OutputRow.amountMicronoid = [7, 1])
      ∧ headerDb.Receives (storedReceipts headerDb id 0 run.1) run.2
      ∧ (importReceipts ReceiptCrate.sample confirm id sampleEntries run.2).2 = run.2
      ∧ run.2.ReceiptsKept := by
  obtain ⟨-, hreceives, -, hsame, hkept⟩ :=
    importReceipts_spec ReceiptCrate.sample confirm id id sampleEntries headerDb
  exact ⟨by decide +kernel, by decide +kernel, hreceives, hsame rowsRefer_headerDb,
    hkept receiptsKept_headerDb⟩

end Permanode
