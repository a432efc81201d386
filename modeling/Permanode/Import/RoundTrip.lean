import Permanode.Import.Body

/-!
# Import/RoundTrip — what was stored is served

A body spread over five tables reads back as it was (`bodyFromDb_insert`).  The work is done one
transaction at a time: under a fresh transaction id each of the three lists stands at the end of its
table in order (`Table.rows_insertEach`), so it is read back (`readTransaction_new`), and the rows
of every other transaction are out of reach (`readTransaction_old`).
-/

namespace Permanode

open Outcome

namespace Db

/-- Every row of a list table belongs to a transaction on record: what the foreign keys keep. -/
structure Intact (db : Db) : Prop where
  pageHashes : ∀ r ∈ db.txPageHashes.rows, ∃ t ∈ db.transactions.rows, t.id = r.txId
  inputs : ∀ r ∈ db.txInputs.rows, ∃ t ∈ db.transactions.rows, t.id = r.txId
  outputs : ∀ r ∈ db.txOutputs.rows, ∃ t ∈ db.transactions.rows, t.id = r.txId

/-! ## One list -/

/-- Rows in the order of their indices, alone under their key, are found in that order. -/
theorem sorted_own {ρ : Type} {own : ρ → Bool} {idx : ρ → ℕ} {old new : List ρ}
    (hold : ∀ r ∈ old, own r = false) (hnew : ∀ r ∈ new, own r = true)
    (hsorted : (new.map idx).Pairwise (· ≤ ·)) :
    (((old ++ new).filter own).insertionSort fun r s => idx r ≤ idx s) = new := by
  rw [List.filter_append, List.filter_eq_nil_iff.mpr fun r hr => by simp [hold r hr],
    List.nil_append, List.filter_eq_self.mpr hnew]
  exact (List.pairwise_map.mp hsorted).insertionSort_eq

theorem readInput_inputRow (txId idx : ℕ) (i : BlockTransactionInputInfo) :
    readInput (inputRow txId idx i.page i.lane i.slotIndex i.amountMicronoid i.creationId)
      = .ok i := by
  simp [readInput, inputRow, orError, Text.parseU64_repr i.creationId.toNat_lt, bind, Except.bind,
    pure, Except.pure]

theorem readOutput_outputRow (rowid txId idx : ℕ) (o : BlockTransactionOutputInfo) :
    readOutput (outputRow rowid txId idx o.page o.lane o.slotIndex o.amountMicronoid o.owner
      (some o.creationId)) = .ok o := by
  simp [readOutput, outputRow, orError, Text.parseU64_repr o.creationId.toNat_lt, bind, Except.bind,
    pure, Except.pure]

/-- A list inserted under a fresh key: rows of that key alone, their indices in order. -/
theorem insertEach_fresh {ρ α : Type} [Row ρ] {row : Table ρ → ℕ → α → ρ} {own : ρ → Bool}
    {idx : ρ → ℕ} (hown : ∀ t i a, own (row t i a) = true) (hidx : ∀ t i a, idx (row t i a) = i)
    (hclash : ∀ t i a, ∀ s ∈ t.rows, Row.clash s (row t i a) = true → own s = true ∧ idx s = i)
    (l : List α) {t : Table ρ} (hfresh : ∀ s ∈ t.rows, own s = false) :
    ∃ new, (Table.insertEach row 0 l t).rows = t.rows ++ new
      ∧ List.Forall₂ (fun r x => ∃ u, r = row u x.2 x.1) new l.zipIdx
      ∧ (∀ r ∈ new, own r = true) ∧ (new.map idx).Pairwise (· ≤ ·) := by
  obtain ⟨new, hrows, hall⟩ := @Table.rows_insertEach ρ _ α row
    (fun r => if own r then some (idx r) else none)
    (fun t i a => by rw [if_pos (hown t i a), hidx])
    (fun t i a s hs hc => by
      obtain ⟨ho, hi⟩ := hclash t i a s hs hc
      rw [if_pos ho, hi]) l 0 t
    (fun s hs j hj => by simp [hfresh s hs] at hj)
  refine ⟨new, hrows, hall, fun r hr => ?_, ?_⟩
  · obtain ⟨x, -, u, rfl⟩ := exists_of_forall₂ hall.flip hr
    exact hown _ _ _
  · have hmap : l.zipIdx.map Prod.snd = new.map idx :=
      map_eq_of_forall₂ (fun r x ⟨u, hr⟩ => hr ▸ (hidx u x.2 x.1).symm) hall
    rw [← hmap, List.zipIdx_map_snd]
    exact List.pairwise_le_range'

/-- Rows of one key are not found under another. -/
theorem filter_other {ρ : Type} {own other : ρ → Bool} {old new : List ρ}
    (hnew : ∀ r ∈ new, own r = true) (hdisj : ∀ r, own r = true → other r = false) :
    (old ++ new).filter other = old.filter other := by
  have hnil : new.filter other = [] :=
    List.filter_eq_nil_iff.mpr fun r hr => by simp [hdisj r (hnew r hr)]
  rw [List.filter_append, hnil, List.append_nil]

theorem pageHashesOf_insert {db : Db} {txId : ℕ} (hashes : List String)
    (hfresh : ∀ r ∈ db.txPageHashes.rows, r.txId ≠ txId) :
    (db.insertPageHashes txId hashes).pageHashesOf txId = hashes
      ∧ ∀ id, id ≠ txId →
        (db.insertPageHashes txId hashes).pageHashesOf id = db.pageHashesOf id := by
  obtain ⟨new, hrows, hall, hown, hsorted⟩ := @insertEach_fresh PageHashRow String _
    (fun _ idx hash => ⟨txId, idx, hash⟩) (fun r => r.txId = txId) PageHashRow.idx
    (fun _ _ _ => decide_eq_true rfl) (fun _ _ _ => rfl)
    (fun _ _ _ s _ hc => by simpa [Row.clash] using hc) hashes db.txPageHashes
    (fun r hr => decide_eq_false (hfresh r hr))
  have hr : (db.insertPageHashes txId hashes).txPageHashes.rows = db.txPageHashes.rows ++ new :=
    hrows
  constructor
  · rw [pageHashesOf, hr, sorted_own (fun r hr => decide_eq_false (hfresh r hr)) hown hsorted]
    have hmap : hashes.zipIdx.map Prod.fst = new.map PageHashRow.pageHash :=
      map_eq_of_forall₂ (fun r x ⟨_, hr⟩ => hr ▸ rfl) hall
    rw [← hmap, List.zipIdx_map_fst]
  · intro id hne
    rw [pageHashesOf, hr, filter_other hown fun r hr => decide_eq_false fun h =>
      hne (h.symm.trans (of_decide_eq_true hr))]
    rfl

theorem inputsOf_insert {db : Db} {txId : ℕ} (inputs : List BlockTransactionInputInfo)
    (hfresh : ∀ r ∈ db.txInputs.rows, r.txId ≠ txId) :
    (db.insertInputs txId inputs).inputsOf txId = .ok inputs
      ∧ ∀ id, id ≠ txId → (db.insertInputs txId inputs).inputsOf id = db.inputsOf id := by
  obtain ⟨new, hrows, hall, hown, hsorted⟩ := @insertEach_fresh InputRow BlockTransactionInputInfo _
    (fun _ idx i => inputRow txId idx i.page i.lane i.slotIndex i.amountMicronoid i.creationId)
    (fun r => r.txId = txId) InputRow.idx (fun _ _ _ => decide_eq_true rfl) (fun _ _ _ => rfl)
    (fun _ _ _ s _ hc => by simpa [Row.clash, inputRow] using hc) inputs db.txInputs
    (fun r hr => decide_eq_false (hfresh r hr))
  have hr : (db.insertInputs txId inputs).txInputs.rows = db.txInputs.rows ++ new := hrows
  constructor
  · rw [inputsOf, hr, sorted_own (fun r hr => decide_eq_false (hfresh r hr)) hown hsorted]
    have hread := mapM_ok_of_forall₂ (f := readInput) (g := Prod.fst)
      (fun r x ⟨_, hr⟩ => hr ▸ readInput_inputRow txId x.2 x.1) hall
    rw [hread, List.zipIdx_map_fst]
  · intro id hne
    rw [inputsOf, hr, filter_other hown fun r hr => decide_eq_false fun h =>
      hne (h.symm.trans (of_decide_eq_true hr))]
    rfl

theorem outputsOf_insert {db : Db} {txId : ℕ} (outputs : List BlockTransactionOutputInfo)
    (hfresh : ∀ r ∈ db.txOutputs.rows, r.txId ≠ txId) :
    (db.insertOutputs txId outputs).outputsOf txId = .ok outputs
      ∧ ∀ id, id ≠ txId → (db.insertOutputs txId outputs).outputsOf id = db.outputsOf id := by
  obtain ⟨new, hrows, hall, hown, hsorted⟩ := @insertEach_fresh OutputRow
    BlockTransactionOutputInfo _
    (fun t idx o => outputRow (t.nextId OutputRow.rowid) txId idx o.page o.lane o.slotIndex
      o.amountMicronoid o.owner (some o.creationId))
    (fun r => r.txId = txId) OutputRow.idx (fun _ _ _ => decide_eq_true rfl) (fun _ _ _ => rfl)
    (fun t _ _ s hs hc => by
      -- the rowid is fresh, so the clash is one of transaction and index
      have hne : s.rowid ≠ t.nextId OutputRow.rowid := (Table.lt_nextId hs).ne
      simpa [Row.clash, outputRow, hne] using hc) outputs db.txOutputs
    (fun r hr => decide_eq_false (hfresh r hr))
  have hr : (db.insertOutputs txId outputs).txOutputs.rows = db.txOutputs.rows ++ new := hrows
  constructor
  · rw [outputsOf, hr, sorted_own (fun r hr => decide_eq_false (hfresh r hr)) hown hsorted]
    have hread := mapM_ok_of_forall₂ (f := readOutput) (g := Prod.fst)
      (fun r x ⟨u, hr⟩ => hr ▸ readOutput_outputRow (u.nextId OutputRow.rowid) txId x.2 x.1) hall
    rw [hread, List.zipIdx_map_fst]
  · intro id hne
    rw [outputsOf, hr, filter_other hown fun r hr => decide_eq_false fun h =>
      hne (h.symm.trans (of_decide_eq_true hr))]
    rfl

/-! ## One transaction -/

/-- **A transaction inserted at a free position** gets a row at the end, and its lists the id of
that row. -/
theorem insertTransaction_free {db : Db} {blockId : ℕ} {tx : BlockTransactionInfo}
    (hfree : ∀ t ∈ db.transactionsOf blockId, t.position ≠ tx.position.toNat) :
    ∃ ts : Table TransactionRow,
      ts.rows = db.transactions.rows
        ++ [transactionRow (db.transactions.nextId TransactionRow.id) blockId tx]
      ∧ insertTransaction blockId db tx = .ok
        (((({ db with transactions := ts } : Db).insertPageHashes
          (db.transactions.nextId TransactionRow.id) tx.pageHashes).insertInputs
          (db.transactions.nextId TransactionRow.id) tx.inputs).insertOutputs
          (db.transactions.nextId TransactionRow.id) tx.outputs) := by
  let id := db.transactions.nextId TransactionRow.id
  let row := transactionRow id blockId tx
  let db₁ : Db := { db with transactions := db.transactions.insertOrIgnore row }
  have hrows : db₁.transactions.rows = db.transactions.rows ++ [row] :=
    Table.rows_insert_of_free fun t ht => by
      have hid : t.id ≠ id := (Table.lt_nextId ht).ne
      have hpos : t.blockId = blockId → t.position ≠ tx.position.toNat := fun hb =>
        hfree t (List.mem_filter.mpr ⟨ht, decide_eq_true hb⟩)
      simpa [Row.clash, row, transactionRow, hid] using hpos
  have hfind : db₁.transactionId blockId tx.position.toNat = some id := by
    have hnone : db.transactions.rows.find? (fun t => t.blockId = blockId ∧
        t.position = tx.position.toNat) = none := List.find?_eq_none.mpr fun t ht => by
      simpa using fun hb => hfree t (List.mem_filter.mpr ⟨ht, decide_eq_true hb⟩)
    rw [transactionId, hrows, List.find?_append, hnone]
    simp [row, transactionRow]
  refine ⟨_, hrows, ?_⟩
  rw [insertTransaction, hfind]
  rfl

/-- **A transaction inserted at a free position**: its row is the last, it reads back as it was, and
every other transaction reads as before. -/
theorem insertTransaction_spec {db : Db} (hdb : db.Intact) {blockId : ℕ} {tx : BlockTransactionInfo}
    (hfree : ∀ t ∈ db.transactionsOf blockId, t.position ≠ tx.position.toNat)
    (hin : tx.liveInputs.toNat = tx.inputs.length)
    (hout : tx.liveOutputs.toNat = tx.outputs.length) :
    ∃ db' row, insertTransaction blockId db tx = .ok db' ∧ db'.Intact
      ∧ db'.transactions.rows = db.transactions.rows ++ [row] ∧ row.blockId = blockId
      ∧ row.position = tx.position.toNat ∧ db'.readTransaction row = .ok tx
      ∧ (∀ t ∈ db.transactions.rows, db'.readTransaction t = db.readTransaction t)
      ∧ db'.blocks = db.blocks := by
  let id := db.transactions.nextId TransactionRow.id
  let row := transactionRow id blockId tx
  obtain ⟨ts, hrows, hins⟩ := insertTransaction_free hfree
  let db₁ : Db := { db with transactions := ts }
  let db' := ((db₁.insertPageHashes id tx.pageHashes).insertInputs id tx.inputs).insertOutputs id
    tx.outputs
  -- rows of the new id are not there yet
  have hnew : ∀ t ∈ db.transactions.rows, t.id ≠ id := fun t ht => (Table.lt_nextId ht).ne
  have hph := @pageHashesOf_insert db₁ id tx.pageHashes fun r hr hc =>
    have ⟨t, ht, he⟩ := hdb.pageHashes r hr
    hnew t ht (he.trans hc)
  have hi := @inputsOf_insert (db₁.insertPageHashes id tx.pageHashes) id tx.inputs
    fun r hr hc =>
      have ⟨t, ht, he⟩ := hdb.inputs r hr
      hnew t ht (he.trans hc)
  have ho := @outputsOf_insert
    ((db₁.insertPageHashes id tx.pageHashes).insertInputs id tx.inputs) id tx.outputs fun r hr hc =>
      have ⟨t, ht, he⟩ := hdb.outputs r hr
      hnew t ht (he.trans hc)
  have hmem : ∀ t ∈ db.transactions.rows, t ∈ db'.transactions.rows := fun t ht =>
    hrows ▸ List.mem_append_left _ ht
  have hrow : row ∈ db'.transactions.rows := hrows ▸ List.mem_append_right _ List.mem_cons_self
  refine ⟨db', row, hins, ⟨?_, ?_, ?_⟩, hrows, rfl, rfl, ?_, ?_, rfl⟩
  · intro r hr
    rcases Table.mem_insertEach hr with hr | ⟨_, _, _, _, rfl⟩
    · obtain ⟨t, ht, he⟩ := hdb.pageHashes r hr
      exact ⟨t, hmem t ht, he⟩
    · exact ⟨row, hrow, rfl⟩
  · intro r hr
    rcases Table.mem_insertEach hr with hr | ⟨_, _, _, _, rfl⟩
    · obtain ⟨t, ht, he⟩ := hdb.inputs r hr
      exact ⟨t, hmem t ht, he⟩
    · exact ⟨row, hrow, rfl⟩
  · intro r hr
    rcases Table.mem_insertEach hr with hr | ⟨_, _, _, _, rfl⟩
    · obtain ⟨t, ht, he⟩ := hdb.outputs r hr
      exact ⟨t, hmem t ht, he⟩
    · exact ⟨row, hrow, rfl⟩
  · have h1 : db'.pageHashesOf id = tx.pageHashes := hph.1
    have h2 : db'.inputsOf id = .ok tx.inputs := hi.1
    have h3 : db'.outputsOf id = .ok tx.outputs := ho.1
    have h4 : UInt32.ofNat tx.inputs.length = tx.liveInputs := by rw [← hin, UInt32.ofNat_toNat]
    have h5 : UInt32.ofNat tx.outputs.length = tx.liveOutputs := by rw [← hout, UInt32.ofNat_toNat]
    simp only [readTransaction, row, transactionRow, h1, h2, h3, h4, h5, UInt32.ofNat_toNat,
      UInt64.toUInt64_toInt64, bind, Except.bind, pure, Except.pure]
  · intro t ht
    have h1 : db'.pageHashesOf t.id = db.pageHashesOf t.id := hph.2 _ (hnew t ht)
    have h2 : db'.inputsOf t.id = db.inputsOf t.id := hi.2 _ (hnew t ht)
    have h3 : db'.outputsOf t.id = db.outputsOf t.id := ho.2 _ (hnew t ht)
    rw [readTransaction, readTransaction, h1, h2, h3]

/-! ## A body -/

theorem checkTransaction_ok {i : ℕ} {t : BlockTransactionInfo} {id : List UInt8}
    (h : checkTransaction i t = .ok id) :
    t.position.toNat = i ∧ txidBytes t.txid = some id ∧ t.liveInputs.toNat = t.inputs.length
      ∧ t.liveOutputs.toNat = t.outputs.length := by
  obtain ⟨hid, hfit⟩ := checkTransaction_iff.mp h
  exact ⟨hfit.position, hid, hfit.inputs, hfit.outputs⟩

/-- **The transactions of a checked body, inserted into a block that holds none from position `i`
on, read back as they were.** -/
theorem insertAll_spec {blockId : ℕ} : ∀ (txs : List BlockTransactionInfo) {i : ℕ} {db : Db},
    db.Intact → (∀ t ∈ db.transactionsOf blockId, t.position < i) →
    (∃ ids, checkTransactions i txs = .ok ids) →
    ∃ db' new, txs.foldlM (insertTransaction blockId) db = .ok db' ∧ db'.blocks = db.blocks
      ∧ db'.transactions.rows = db.transactions.rows ++ new
      ∧ (∀ t ∈ new, t.blockId = blockId ∧ i ≤ t.position)
      ∧ new.Pairwise (fun t u => t.position ≤ u.position)
      ∧ new.mapM db'.readTransaction = .ok txs
      ∧ ∀ t ∈ db.transactions.rows, db'.readTransaction t = db.readTransaction t
  | [], i, db, _, _, _ => ⟨db, [], rfl, rfl, (List.append_nil _).symm, by simp, .nil, rfl,
      fun _ _ => rfl⟩
  | tx :: txs, i, db, hdb, hlt, ⟨ids, hck⟩ => by
      simp only [checkTransactions, bind_ok] at hck
      obtain ⟨id, htx, ids', hrest, -⟩ := hck
      obtain ⟨hpos, -, hin, hout⟩ := checkTransaction_ok htx
      obtain ⟨db₁, row, hins, hdb₁, hrows₁, hblock, hrowpos, hread, hframe₁, hblocks₁⟩ :=
        insertTransaction_spec hdb (fun t ht => hpos ▸ (hlt t ht).ne) hin hout
      have hlt₁ : ∀ t ∈ db₁.transactionsOf blockId, t.position < i + 1 := by
        intro t ht
        obtain ⟨ht, hb⟩ := List.mem_filter.mp ht
        rw [hrows₁, List.mem_append, List.mem_singleton] at ht
        rcases ht with ht | rfl
        · exact Nat.lt_succ_of_lt (hlt t (List.mem_filter.mpr ⟨ht, hb⟩))
        · rw [hrowpos, hpos]; exact Nat.lt_succ_self i
      obtain ⟨db', new, hfold, hblocks, hrows, hown, hsorted, hreads, hframe⟩ :=
        insertAll_spec txs hdb₁ hlt₁ ⟨ids', hrest⟩
      have hmem : row ∈ db₁.transactions.rows := hrows₁ ▸ List.mem_append_right _ List.mem_cons_self
      refine ⟨db', row :: new, ?_, hblocks.trans hblocks₁, ?_, ?_, ?_, ?_, ?_⟩
      · rw [List.foldlM_cons, hins]
        exact hfold
      · rw [hrows, hrows₁, List.append_assoc, List.singleton_append]
      · intro t ht
        rcases List.mem_cons.mp ht with rfl | ht
        · exact ⟨hblock, (hrowpos.trans hpos).ge⟩
        · exact ⟨(hown t ht).1, Nat.le_of_succ_le (hown t ht).2⟩
      · refine List.pairwise_cons.mpr ⟨fun t ht => ?_, hsorted⟩
        rw [hrowpos, hpos]
        exact Nat.le_of_succ_le (hown t ht).2
      · exact mapM_cons_ok.mpr ⟨tx, txs, (hframe row hmem).trans hread, hreads, rfl⟩
      · intro t ht
        rw [hframe t (hrows₁ ▸ List.mem_append_left _ ht), hframe₁ t ht]

/-- What `checkBody` says of a body beyond its transactions. -/
theorem checkBody_ok {N : Noid} {body : RetainedBlockInfo} {txRoot : String}
    (h : checkBody N body txRoot = .ok ()) :
    (∃ ids, checkTransactions 0 body.transactions = .ok ids
        ∧ Text.hexEncode (N.rootFromHashes ids) = txRoot)
      ∧ body.transactions ≠ []
      ∧ body.logicalTransactions.toNat = body.transactions.length
      ∧ body.liveInputs = liveInputsTotal body.transactions
      ∧ body.liveOutputs = liveOutputsTotal body.transactions
      ∧ body.userPages = userPagesTotal body.transactions := by
  obtain ⟨first, ids, hfirst, -, -, hids, hroot, -, -, htotals⟩ := checkBody_iff.mp h
  refine ⟨⟨ids, hids, hroot⟩, fun hnil => ?_, htotals⟩
  rw [hnil] at hfirst
  exact absurd hfirst nofun

/-- A body is its fields and its transactions, up to the size of the block it came from. -/
theorem bodyOf_eq {N : Noid} {body : RetainedBlockInfo} {txRoot : String}
    (h : checkBody N body txRoot = .ok ()) :
    bodyOf body.proofClass body.rewardMicronoid body.totalFeesMicronoid body.transactions
      = { body with blockBytes := 0 } := by
  obtain ⟨-, -, hn, hin, hout, hpages⟩ := checkBody_ok h
  rw [bodyOf, ← hin, ← hout, ← hpages, ← hn, UInt32.ofNat_toNat]

/-- **Store and serve are inverse**: a body that passes the check, inserted into a block row that
has no transactions and no proof class, is read back field for field, its size apart, and passes the
check again. -/
theorem bodyFromDb_insert {N : Noid} {db : Db} (hdb : db.Intact) {b : BlockRow}
    (hb : b ∈ db.blocks.rows) (hclass : b.proofClass = none) (hnone : db.transactionsOf b.id = [])
    {body : RetainedBlockInfo} {txRoot : String} (hcheck : checkBody N body txRoot = .ok ())
    (bodySource : String) :
    ∃ db', db.insertTransactions b.id body = .ok db'
      ∧ (db'.markBodyRecovered b.id bodySource).bodyFromDb b.height b.hash
        = .ok (some { body with blockBytes := 0 })
      ∧ checkBody N { body with blockBytes := 0 } txRoot = .ok () := by
  let db₀ := db.setBodyFields b.id body
  obtain ⟨⟨ids, hids, -⟩, -⟩ := checkBody_ok hcheck
  obtain ⟨db', new, hfold, hblocks, hrows, hown, hsorted, hreads, -⟩ :=
    @insertAll_spec b.id body.transactions 0 db₀ ⟨hdb.pageHashes, hdb.inputs, hdb.outputs⟩
      (fun t ht => by rw [show db₀.transactionsOf b.id = [] from hnone] at ht; simp at ht)
      ⟨ids, hids⟩
  have hblock : db.block? b.id = some b :=
    db.blocks.find?_eq_some hb (decide_eq_true rfl) fun s _ hs =>
      decide_eq_true (Or.inl (of_decide_eq_true hs))
  refine ⟨db', ?_, ?_, hcheck⟩
  · rw [insertTransactions, bailIf, if_neg (by simp [hblock])]
    exact hfold
  -- the row as the body left it
  let row : BlockRow := { b with
    proofClass := some body.proofClass
    rewardMicronoid := some body.rewardMicronoid.toInt64
    totalFeesMicronoid := some body.totalFeesMicronoid
    bodyCaptured := true
    bodySource := some bodySource }
  have hrow : row ∈ (db'.markBodyRecovered b.id bodySource).blocks.rows := by
    rw [markBodyRecovered, updateBlocks, Table.rows_modify, hblocks]
    refine List.mem_map.mpr ⟨_, List.mem_map.mpr ⟨b, hb, rfl⟩, ?_⟩
    simp [Table.updated, row, hclass, mergeProofClass]
  have hcaptured : (db'.markBodyRecovered b.id bodySource).capturedBlock b.height b.hash
      = some row := by
    refine (db'.markBodyRecovered b.id bodySource).blocks.find?_eq_some hrow (by simp [row])
      fun s _ hs => decide_eq_true (Or.inr ?_)
    obtain ⟨hheight, hhash, -⟩ := of_decide_eq_true hs
    exact Prod.ext hheight hhash
  have htxs : ((db'.markBodyRecovered b.id bodySource).transactionsOf b.id).insertionSort
      (fun t u => t.position ≤ u.position) = new := by
    have hof : db'.transactionsOf b.id = new := by
      rw [transactionsOf, hrows, List.filter_append,
        List.filter_eq_self.mpr fun t ht => decide_eq_true (hown t ht).1]
      exact (congrArg (· ++ new) hnone).trans (List.nil_append new)
    exact (congrArg _ hof).trans hsorted.insertionSort_eq
  have hreads' : new.mapM (db'.markBodyRecovered b.id bodySource).readTransaction
      = .ok body.transactions := hreads
  rw [bodyFromDb, hcaptured]
  simp only [htxs, hreads', orError, row, bind, Except.bind, pure, Except.pure,
    UInt64.toUInt64_toInt64, bodyOf_eq hcheck]

end Db

/-! ## An instance -/

/-- A coinbase that mints two outputs. -/
def sampleCoinbase : BlockTransactionInfo where
  position := 0
  txid := "0707070707070707070707070707070707070707070707070707070707070707"
  pageCount := 1
  liveInputs := 0
  liveOutputs := 2
  feeMicronoid := 0
  coinbase := true
  developmentPayout := false
  epochAnchor := "00"
  inputOwner := none
  inputSumMicronoid := "0"
  outputSumMicronoid := "5"
  pageHashes := ["07"]
  inputs := []
  outputs := [⟨0, 0, 70000, 3, "o1miner", 18446744073709551615⟩, ⟨0, 1, 70001, 2, "o1miner", 12⟩]

/-- A transaction of two pages: its owner spends two coins, pays `o1payee` and keeps the change. -/
def sampleTransfer : BlockTransactionInfo where
  position := 1
  txid := "0808080808080808080808080808080808080808080808080808080808080808"
  pageCount := 2
  liveInputs := 2
  liveOutputs := 2
  feeMicronoid := 2
  coinbase := false
  developmentPayout := false
  epochAnchor := "01"
  inputOwner := some "o1payer"
  inputSumMicronoid := "10"
  outputSumMicronoid := "8"
  pageHashes := ["08", "09"]
  inputs := [⟨0, 0, 65536, 4, 3⟩, ⟨1, 0, 65537, 6, 4⟩]
  outputs := [⟨0, 0, 70002, 7, "o1payee", 13⟩, ⟨1, 1, 70003, 1, "o1payer", 14⟩]

/-- A body of these two. -/
def sampleBody : RetainedBlockInfo where
  proofClass := "B25 / m22"
  logicalTransactions := 2
  userPages := 2
  liveInputs := 2
  liveOutputs := 4
  rewardMicronoid := 5
  totalFeesMicronoid := "2"
  blockBytes := 300
  transactions := [sampleCoinbase, sampleTransfer]

/-- The header of the block at height 7. -/
def sampleHeader : BlockHeaderInfo where
  height := 7
  hash := "a7"
  prevHash := "a6"
  stateRoot := "50"
  txRoot := sampleCoinbase.txid ++ sampleTransfer.txid
  timestamp := 1700000000
  miner := "o1miner"
  nonceHex := "00"
  difficultyTarget := "ff"
  logSlots := 24
  activeSlotCount := 1
  allocCounter := 1

/-- A database that holds one block, without its body. -/
def sampleDb : Db :=
  { Db.empty with blocks := Table.insertOrIgnore ∅ (Db.headerRow 1 sampleHeader false none 100) }

theorem Db.bodyFromDb_insert_sample :
    ∃ db', sampleDb.insertTransactions 1 sampleBody = .ok db'
      ∧ (db'.markBodyRecovered 1 "import").bodyFromDb 7 "a7"
        = .ok (some { sampleBody with blockBytes := 0 })
      ∧ checkBody Noid.sample { sampleBody with blockBytes := 0 } sampleHeader.txRoot = .ok () :=
  Db.bodyFromDb_insert (b := Db.headerRow 1 sampleHeader false none 100)
    ⟨fun _ h => absurd h List.not_mem_nil, fun _ h => absurd h List.not_mem_nil,
      fun _ h => absurd h List.not_mem_nil⟩ List.mem_cons_self rfl rfl (by decide +kernel) "import"

end Permanode
