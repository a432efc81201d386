import Permanode.Indexer.Poll

/-!
# Indexer/Frames — what the writers of blocks leave alone

The transactions that record blocks write to the tables of blocks and of what belongs to them.
`Db.BlocksOnly` says so of two databases, and holds of every such transaction
(`Txn.exec_blocksOnly`): progress entries, balances, foreign slots and receipts are as they were.
-/

namespace Permanode

open Outcome

/-- The databases differ in blocks and what belongs to them only. -/
structure Db.BlocksOnly (db db' : Db) : Prop where
  indexerState : db'.indexerState = db.indexerState
  addressBalanceCache : db'.addressBalanceCache = db.addressBalanceCache
  stateSlots : db'.stateSlots = db.stateSlots
  txReceipts : db'.txReceipts = db.txReceipts

namespace Db

variable {db db' db'' : Db}

/-- Nothing done. -/
theorem BlocksOnly.refl (db : Db) : db.BlocksOnly db := ⟨rfl, rfl, rfl, rfl⟩

/-- **Writers one after the other**: what neither touches is as it was. -/
theorem BlocksOnly.trans (h : db.BlocksOnly db') (h' : db'.BlocksOnly db'') :
    db.BlocksOnly db'' :=
  ⟨h'.1.trans h.1, h'.2.trans h.2, h'.3.trans h.3, h'.4.trans h.4⟩

/-- A header goes to `blocks` and to the status log. -/
theorem blocksOnly_insertBlockHeaderRow {h : BlockHeaderInfo} {captured : Bool}
    {source : Option String} {now : Instant} {id : ℕ}
    (hdb : db.insertBlockHeaderRow h captured source now = .ok (db', id)) : db.BlocksOnly db' := by
  simp only [insertBlockHeaderRow, bind_ok, pure_ok, Prod.mk.injEq] at hdb
  obtain ⟨_, _, rfl, _⟩ := hdb
  exact ⟨rfl, rfl, rfl, rfl⟩

/-- The transactions of a body, by induction on the list: each goes to the tables of transactions.
-/
theorem blocksOnly_insertAll {blockId : ℕ} : ∀ {txs : List BlockTransactionInfo} {db : Db},
    txs.foldlM (insertTransaction blockId) db = .ok db' → db.BlocksOnly db'
  | [], db, h => by
      obtain rfl := pure_ok.mp h
      exact .refl _
  | tx :: txs, db, h => by
      rw [List.foldlM_cons, bind_ok] at h
      obtain ⟨db₁, h₁, h₂⟩ := h
      simp only [insertTransaction, bind_ok, pure_ok] at h₁
      obtain ⟨_, _, rfl⟩ := h₁
      refine BlocksOnly.trans ?_ (blocksOnly_insertAll h₂)
      exact ⟨rfl, rfl, rfl, rfl⟩

/-- A body, with the columns it fills in its block. -/
theorem blocksOnly_insertTransactions {blockId : ℕ} {retained : RetainedBlockInfo}
    (h : db.insertTransactions blockId retained = .ok db') : db.BlocksOnly db' := by
  simp only [insertTransactions, bind_ok] at h
  obtain ⟨_, _, h⟩ := h
  refine BlocksOnly.trans ?_ (blocksOnly_insertAll h)
  exact ⟨rfl, rfl, rfl, rfl⟩

/-- A block with its body, be it new, filled in or on record. -/
theorem blocksOnly_storeBlock {details : BlockDetailsInfo} {source : String} {now : Instant}
    (h : db.storeBlock details source now = .ok db') : db.BlocksOnly db' := by
  simp only [storeBlock, bind_ok] at h
  obtain ⟨retained, _, h⟩ := h
  split_ifs at h
  · split at h
    · obtain rfl := pure_ok.mp h
      exact .refl _
    · simp only [bind_ok, pure_ok] at h
      obtain ⟨db₁, h₁, rfl⟩ := h
      exact (blocksOnly_insertTransactions h₁).trans ⟨rfl, rfl, rfl, rfl⟩
  · simp only [bind_ok] at h
    obtain ⟨⟨db₁, id⟩, h₁, h₂⟩ := h
    exact (blocksOnly_insertBlockHeaderRow h₁).trans (blocksOnly_insertTransactions h₂)

/-- A block without one, and its gap. -/
theorem blocksOnly_recordGapBlock {details : BlockDetailsInfo} {note : String} {now : Instant}
    (h : db.recordGapBlock details note now = .ok db') : db.BlocksOnly db' := by
  unfold recordGapBlock at h
  dsimp only at h
  split_ifs at h
  · obtain rfl := pure_ok.mp h
    exact ⟨rfl, rfl, rfl, rfl⟩
  · simp only [bind_ok, pure_ok] at h
    obtain ⟨⟨db₁, id⟩, h₁, rfl⟩ := h
    exact (blocksOnly_insertBlockHeaderRow h₁).trans ⟨rfl, rfl, rfl, rfl⟩

/-- The flags are a column of the transactions. -/
theorem blocksOnly_recordContractFlags (N : Noid) (db : Db) (height : ℕ) (hash : String)
    (raw : Option (List UInt8)) : db.BlocksOnly (db.recordContractFlags N height hash raw) := by
  have hset : ∀ flags, db.BlocksOnly (db.setContractFlags height hash flags) := by
    intro flags
    unfold setContractFlags
    split <;> exact ⟨rfl, rfl, rfl, rfl⟩
  unfold recordContractFlags
  repeat' split
  all_goals first | exact .refl _ | exact hset _

/-- Raw bytes belong to their block. -/
theorem blocksOnly_storeRaw {N : Noid} {height : ℕ} {hash : String} {bytes : List UInt8}
    {source : String} {now : Instant} {stored : Bool}
    (h : db.storeRaw N height hash bytes source now = .ok (db', stored)) : db.BlocksOnly db' := by
  unfold storeRaw at h
  split at h
  · cases h; exact .refl _
  · split_ifs at h
    · cases h; exact .refl _
    · simp only [bind_ok, pure_ok, Prod.mk.injEq] at h
      obtain ⟨_, _, rfl, _⟩ := h
      exact ⟨rfl, rfl, rfl, rfl⟩

/-- They are kept, refused or not wanted; nothing else changes. -/
theorem blocksOnly_keepRaw (N : Noid) (cfg : Config) (db : Db) (height : ℕ) (hash : String)
    (bytes : Option (List UInt8)) (source : String) (now : Instant) :
    db.BlocksOnly (db.keepRaw N cfg height hash bytes source now) := by
  unfold keepRaw
  split_ifs
  · split
    · exact .refl _
    · split
      · next h => exact blocksOnly_storeRaw h
      · exact .refl _
  · exact .refl _

/-- **The transaction of an ingested block**: the block, its flags and its bytes. -/
theorem blocksOnly_storeKept {N : Noid} {cfg : Config} {height : ℕ} {details : BlockDetailsInfo}
    {source : String} {raw : Option (List UInt8)} {now : Instant}
    (h : db.storeKept N cfg height details source raw now = .ok db') : db.BlocksOnly db' := by
  simp only [storeKept, bind_ok, pure_ok] at h
  obtain ⟨db₁, h₁, rfl⟩ := h
  exact ((blocksOnly_storeBlock h₁).trans (blocksOnly_recordContractFlags ..)).trans
    (blocksOnly_keepRaw ..)

/-- **The transaction of a reorg**: the orphan mark, and what is stored in its place. -/
theorem blocksOnly_replaceBlock {N : Noid} {cfg : Config} {height old : ℕ} {at_ : Instant}
    {hash : String} {replacement : Option BodyOutcome} {now : Instant}
    (h : db.replaceBlock N cfg height old at_ hash replacement now = .ok db') :
    db.BlocksOnly db' := by
  simp only [replaceBlock, markOrphaned, bind_ok] at h
  obtain ⟨db₁, h₁, h₂⟩ := h
  have horphan : db.BlocksOnly db₁ := by
    split_ifs at h₁
    obtain rfl := Except.ok.inj h₁
    exact ⟨rfl, rfl, rfl, rfl⟩
  rcases replacement with _ | ⟨details, source, raw⟩ | ⟨details, note⟩
  · obtain rfl := pure_ok.mp h₂
    exact horphan.trans ⟨rfl, rfl, rfl, rfl⟩
  · exact horphan.trans (blocksOnly_storeKept h₂)
  · exact horphan.trans (blocksOnly_recordGapBlock h₂)

/-- **The transaction that closes a gap from the node's bytes.** -/
theorem blocksOnly_recoverBody {N : Noid} {cfg : Config} {height blockId : ℕ} {hash : String}
    {retained : RetainedBlockInfo} {raw : List UInt8} {now : Instant}
    (h : db.recoverBody N cfg height hash blockId retained raw now = .ok db') :
    db.BlocksOnly db' := by
  simp only [recoverBody, bind_ok, pure_ok] at h
  obtain ⟨db₁, h₁, rfl⟩ := h
  have hmark : db₁.BlocksOnly (db₁.markBodyRecovered blockId "getblock") := ⟨rfl, rfl, rfl, rfl⟩
  exact ((blocksOnly_insertTransactions h₁).trans hmark).trans
    (((blocksOnly_recordContractFlags ..).trans (blocksOnly_keepRaw ..)).trans
      ⟨rfl, rfl, rfl, rfl⟩)

/-- **The one that fills a gap from a file or a peer**, with or without bytes to keep. -/
theorem blocksOnly_fillBody {N : Noid} {height blockId : ℕ} {hash : String}
    {body : RetainedBlockInfo} {bytes : Option (List UInt8)} {source resolution : String}
    {keep : Bool} {now : Instant}
    (h : db.fillBody N height hash blockId body bytes source resolution keep now = .ok db') :
    db.BlocksOnly db' := by
  simp only [fillBody, bind_ok] at h
  obtain ⟨db₁, h₁, h₂⟩ := h
  have hmark : db.BlocksOnly (db₁.markBodyRecovered blockId source) :=
    (blocksOnly_insertTransactions h₁).trans ⟨rfl, rfl, rfl, rfl⟩
  rcases bytes with _ | bytes
  · simp only [bind_ok, pure_ok] at h₂
    obtain ⟨_, rfl, rfl⟩ := h₂
    exact hmark.trans ⟨rfl, rfl, rfl, rfl⟩
  · split_ifs at h₂
    · simp only [bind_ok, map_ok, pure_ok] at h₂
      obtain ⟨_, ⟨⟨db₂, stored⟩, hraw, rfl⟩, rfl⟩ := h₂
      exact (hmark.trans (blocksOnly_recordContractFlags ..)).trans
        ((blocksOnly_storeRaw hraw).trans ⟨rfl, rfl, rfl, rfl⟩)
    · simp only [bind_ok, pure_ok] at h₂
      obtain ⟨_, rfl, rfl⟩ := h₂
      exact hmark.trans ((blocksOnly_recordContractFlags ..).trans ⟨rfl, rfl, rfl, rfl⟩)

/-- Pruning deletes a block with what belongs to it. -/
theorem blocksOnly_pruneBlock {blockId : ℕ} (h : db.pruneBlock blockId = .ok db') :
    db.BlocksOnly db' := by
  unfold pruneBlock at h
  dsimp only at h
  split_ifs at h
  obtain rfl := Except.ok.inj h
  exact ⟨rfl, rfl, rfl, rfl⟩

/-- The headers of a batch, by induction on it. -/
theorem blocksOnly_insertHeaders {now : Instant} : ∀ {batch : List BlockHeaderInfo} {db : Db},
    db.insertHeaders now batch = .ok db' → db.BlocksOnly db'
  | [], db, h => by
      obtain rfl := pure_ok.mp h
      exact .refl _
  | hd :: batch, db, h => by
      rw [insertHeaders, List.foldlM_cons, bind_ok] at h
      obtain ⟨db₁, h₁, h₂⟩ := h
      obtain ⟨⟨db₂, inserted⟩, hins, rfl⟩ := map_ok.mp h₁
      refine BlocksOnly.trans ?_ (blocksOnly_insertHeaders h₂)
      unfold insertHeaderOnlyBlock at hins
      split_ifs at hins
      · obtain ⟨rfl, -⟩ := Prod.mk.inj (Except.ok.inj hins)
        exact .refl _
      · split at hins
        · exact absurd hins nofun
        · obtain ⟨rfl, -⟩ := Prod.mk.inj (Except.ok.inj hins)
          exact ⟨rfl, rfl, rfl, rfl⟩

end Db

/-- The transactions that record blocks. -/
def Txn.RecordsBlocks : Txn → Prop
  | .ingest .. | .gapBlock .. | .replace .. | .recover .. | .keepRaw .. | .fillGap .. | .fillRaw ..
  | .resolveGapsWithBodies _ | .pruneBlock _ | .setTipSeen .. | .adoptTipSeen ..
  | .adoptProofClass .. => True
  | _ => False

/-- **A transaction that records blocks changes nothing else.** -/
theorem Txn.exec_blocksOnly {N : Noid} {cfg : Config} {t : Txn} {db db' : Db}
    (ht : t.RecordsBlocks) (h : t.exec N cfg db = .ok db') : db.BlocksOnly db' := by
  match t with
  | .ingest .. => exact Db.blocksOnly_storeKept h
  | .gapBlock .. => exact Db.blocksOnly_recordGapBlock h
  | .replace .. => exact Db.blocksOnly_replaceBlock h
  | .recover .. => exact Db.blocksOnly_recoverBody h
  | .fillGap .. => exact Db.blocksOnly_fillBody h
  | .pruneBlock _ => exact Db.blocksOnly_pruneBlock h
  | .fillRaw .. =>
    obtain ⟨⟨db₁, stored⟩, hraw, rfl⟩ := map_ok.mp h
    exact Db.blocksOnly_storeRaw hraw
  | .keepRaw .. =>
    obtain rfl := Except.ok.inj h
    exact Db.blocksOnly_keepRaw ..
  | .adoptProofClass height hash class_ =>
    obtain rfl := Except.ok.inj h
    unfold Db.adoptProofClass
    split_ifs <;> exact ⟨rfl, rfl, rfl, rfl⟩
  | .resolveGapsWithBodies _ | .setTipSeen .. | .adoptTipSeen .. =>
    obtain rfl := Except.ok.inj h
    exact ⟨rfl, rfl, rfl, rfl⟩

/-! ## Progress entries -/

namespace Db

/-- Entries of other keys may go. -/
theorem find?_delete {t : Table StateRow} {p : StateRow → Bool} {k : String}
    (hp : ∀ r : StateRow, r.key = k → p r = false) :
    (t.delete p).rows.find? (fun r => r.key = k) = t.rows.find? fun r => r.key = k := by
  rw [Table.rows_delete, List.find?_filter]
  refine congrArg (fun q => t.rows.find? q) (funext fun r => ?_)
  by_cases hr : r.key = k
  · simp [hr, hp r hr]
  · simp [hr]

/-- **An entry that is set reads as it was set**, and the others as before. -/
theorem getState_setState (db : Db) (key value k : String) :
    (db.setState key value).getState k = if k = key then some value else db.getState k := by
  have hrows : (db.setState key value).indexerState.rows
      = (db.indexerState.delete (Row.clash · ⟨key, value⟩)).rows ++ [⟨key, value⟩] :=
    Table.rows_upsert ..
  rw [getState, hrows, List.find?_append]
  by_cases hk : k = key
  · subst hk
    have hnone : (db.indexerState.delete (Row.clash · ⟨k, value⟩)).rows.find?
        (fun r => r.key = k) = none :=
      List.find?_eq_none.mpr fun r hr => by simpa [Row.clash] using (List.mem_filter.mp hr).2
    rw [hnone, if_pos rfl]
    simp
  · rw [find?_delete, if_neg hk]
    · simp [getState, Ne.symm hk]
    · exact fun r hr => decide_eq_false fun h => hk (hr.symm.trans h)

/-- Entries are read from one table. -/
theorem getState_congr {db db' : Db} (h : db'.indexerState = db.indexerState) (key : String) :
    db'.getState key = db.getState key := by
  rw [getState, h]
  rfl

/-- The progress entry of a height reads as that height, if it can be read. -/
theorem lastProcessed_progress {db : Db} {height last : ℕ}
    (h : (db.setState lastProcessedKey (Nat.repr height)).lastProcessed = some last) :
    last = height := by
  rw [lastProcessed, getState_setState, if_pos rfl, Option.bind_some, Option.map_eq_some_iff] at h
  obtain ⟨m, hm, rfl⟩ := h
  exact Text.toNat_of_parseU64_repr hm

/-- The balances of a list of addresses, by induction on it. -/
theorem indexerState_upsertBalances (now : Instant) :
    ∀ (rows : List (String × String × ℕ)) (db : Db),
      (db.upsertBalances rows now).indexerState = db.indexerState
  | [], _ => rfl
  | _ :: rows, _ => indexerState_upsertBalances now rows _

end Db

/-- The transactions that set the progress entry `key`. -/
def Txn.SetsState (key : String) : Txn → Prop
  | .setState k _ => k = key
  | .headerBatch .. => headerBackfillKey = key
  | _ => False

/-- **A progress entry is moved by those who set it only.**  The sweep drops its own two. -/
theorem Txn.exec_getState {N : Noid} {cfg : Config} {t : Txn} {db db' : Db} {key : String}
    (hkey : key ≠ "slot_scan_low" ∧ key ≠ "slot_scan_high") (ht : ¬ t.SetsState key)
    (h : t.exec N cfg db = .ok db') : db'.getState key = db.getState key := by
  by_cases hr : t.RecordsBlocks
  · exact Db.getState_congr (exec_blocksOnly hr h).indexerState key
  match t with
  | .setState k value =>
    obtain rfl := Except.ok.inj h
    exact (Db.getState_setState db k value key).trans (if_neg fun hk => ht hk.symm)
  | .headerBatch batch progress now =>
    simp only [exec] at h
    rcases hins : Db.insertHeaders now db batch with e | db₁ <;> rw [hins] at h
    · exact absurd h nofun
    · obtain rfl := Except.ok.inj h
      refine (Db.getState_setState db₁ headerBackfillKey progress key).trans ?_
      rw [if_neg fun hk => ht hk.symm]
      exact Db.getState_congr (Db.blocksOnly_insertHeaders hins).indexerState key
  | .receipt blockId tx now =>
    simp only [exec] at h
    split at h
    · next db₁ _ hins =>
      obtain rfl := Except.ok.inj h
      refine Db.getState_congr ?_ key
      obtain ⟨-, -, -, ⟨-, rfl, -⟩ | ⟨-, hwrite, -⟩⟩ := Db.insertReceiptTransaction_ok.mp hins
      · rfl
      · rw [(Db.writeReceiptTransaction_ok hwrite).rest]
        rfl
    · obtain rfl := Except.ok.inj h
      rfl
  | .sweepBalances now =>
    obtain rfl := Except.ok.inj h
    let db₁ := db.clearSpentInGapWithRecordedSpend
    have hsame : (db₁.upsertBalances db₁.balanceRows now).indexerState = db.indexerState :=
      Db.indexerState_upsertBalances now db₁.balanceRows db₁
    change Option.map StateRow.value (List.find? _ (Table.delete _ _).rows) = _
    rw [Db.find?_delete, hsame]
    · rfl
    · exact fun r hr => by simp [hr, hkey]
  | .upsertBalances rows now =>
    obtain rfl := Except.ok.inj h
    exact Db.getState_congr (Db.indexerState_upsertBalances now rows db) key
  | .clearSpentInGap | .sweepSegment .. =>
    obtain rfl := Except.ok.inj h
    rfl
  | .ingest .. | .gapBlock .. | .replace .. | .recover .. | .keepRaw .. | .fillGap .. | .fillRaw ..
  | .resolveGapsWithBodies _ | .pruneBlock _ | .setTipSeen .. | .adoptTipSeen ..
  | .adoptProofClass .. => exact absurd trivial hr

/-- **Only the indexer's own entry moves its progress.** -/
theorem Txn.exec_lastProcessed {N : Noid} {cfg : Config} {t : Txn} {db db' : Db}
    (ht : ∀ value, t ≠ .setState lastProcessedKey value) (h : t.exec N cfg db = .ok db') :
    db'.lastProcessed = db.lastProcessed := by
  have hsets : ¬ t.SetsState lastProcessedKey := by
    intro hs
    match t with
    | .setState key value => exact ht value (by rw [show key = lastProcessedKey from hs])
    | .headerBatch .. => exact absurd hs (by decide : headerBackfillKey ≠ lastProcessedKey)
  rw [Db.lastProcessed, Db.lastProcessed, exec_getState (by decide) hsets h]

end Permanode
