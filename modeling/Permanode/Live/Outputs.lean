import Permanode.System.Issued

/-!
# Live/Outputs — what the writers add to the outputs

An output is written once, with its body or its receipt, and changed by the sweep's flags only.
`Db.Gains` says so of every other transaction (`Txn.exec_gains`): an output afterwards was there
before, or it is a new one, unflagged, with the creation id of a body the transaction stores.
-/

namespace Permanode

open Outcome

/-- The creation ids of the outputs of a body, as they go into the table. -/
def RetainedBlockInfo.createdIds (body : RetainedBlockInfo) : List String :=
  body.transactions.flatMap fun tx => tx.outputs.map fun o => Nat.repr o.creationId.toNat

/-- An output as it is first written. -/
def OutputRow.New (ids : List String) (o : OutputRow) : Prop :=
  o.spentInGap = false ∧ ∀ c, o.creationId = some c → c ∈ ids

/-- Every output was there before or is new. -/
def Db.Gains (ids : List String) (db db' : Db) : Prop :=
  ∀ o ∈ db'.txOutputs.rows, o ∈ db.txOutputs.rows ∨ o.New ids

namespace Db

variable {db db' db'' : Db} {ids ids' : List String}

/-- The same outputs: none is gained. -/
theorem gains_of_eq (h : db'.txOutputs = db.txOutputs) : db.Gains ids db' :=
  fun _ ho => Or.inl (h ▸ ho)

/-- Nothing done, nothing gained. -/
theorem Gains.refl (db : Db) : db.Gains ids db := fun _ ho => Or.inl ho

/-- The ids of the new outputs may be more than need be. -/
theorem Gains.mono (h : db.Gains ids db') (hids : ids ⊆ ids') : db.Gains ids' db' :=
  fun o ho => (h o ho).imp_right fun hnew => ⟨hnew.1, fun c hc => hids (hnew.2 c hc)⟩

/-- **Writers one after the other**: what is new after both was new to one of them. -/
theorem Gains.trans (h : db.Gains ids db') (h' : db'.Gains ids db'') : db.Gains ids db'' := by
  intro o ho
  rcases h' o ho with ho | hnew
  · exact h o ho
  · exact Or.inr hnew

/-! ## Bodies -/

/-- A transaction brings its own outputs, where their key is free, and no others. -/
theorem gains_insertTransaction {blockId : ℕ} {tx : BlockTransactionInfo}
    (h : insertTransaction blockId db tx = .ok db') :
    db.Gains (tx.outputs.map fun o => Nat.repr o.creationId.toNat) db' := by
  simp only [insertTransaction, bind_ok, pure_ok] at h
  obtain ⟨txId, -, rfl⟩ := h
  intro o ho
  rcases Table.mem_insertEach ho with hold | ⟨_, _, x, hx, rfl⟩
  · exact Or.inl hold
  · refine Or.inr ⟨rfl, fun c hc => ?_⟩
    exact List.mem_map.mpr ⟨x, hx, Option.some.inj hc⟩

/-- The transactions of a body one after the other, by induction on the list. -/
theorem gains_insertAll {blockId : ℕ} : ∀ {txs : List BlockTransactionInfo} {db : Db},
    txs.foldlM (insertTransaction blockId) db = .ok db' →
      db.Gains (txs.flatMap fun tx => tx.outputs.map fun o => Nat.repr o.creationId.toNat) db'
  | [], db, h => by
      obtain rfl := pure_ok.mp h
      exact .refl _
  | tx :: txs, db, h => by
      rw [List.foldlM_cons, bind_ok] at h
      obtain ⟨db₁, h₁, h₂⟩ := h
      rw [List.flatMap_cons]
      exact ((gains_insertTransaction h₁).mono (List.subset_append_left ..)).trans
        ((gains_insertAll h₂).mono (List.subset_append_right ..))

/-- **A body brings the outputs it names.** -/
theorem gains_insertTransactions {blockId : ℕ} {retained : RetainedBlockInfo}
    (h : db.insertTransactions blockId retained = .ok db') : db.Gains retained.createdIds db' := by
  simp only [insertTransactions, bind_ok] at h
  obtain ⟨_, -, h⟩ := h
  have hfields : db.Gains retained.createdIds (db.setBodyFields blockId retained) := gains_of_eq rfl
  exact hfields.trans (gains_insertAll h)

/-! ## Blocks -/

/-- The row of a header has no outputs. -/
theorem outputs_insertBlockHeaderRow {h : BlockHeaderInfo} {captured : Bool}
    {source : Option String} {now : Instant} {id : ℕ}
    (hdb : db.insertBlockHeaderRow h captured source now = .ok (db', id)) :
    db'.txOutputs = db.txOutputs := by
  simp only [insertBlockHeaderRow, bind_ok, pure_ok, Prod.mk.injEq] at hdb
  obtain ⟨_, -, rfl, -⟩ := hdb
  rfl

/-- A block is stored with the outputs of its body: recorded, filled in, or there already. -/
theorem gains_storeBlock {details : BlockDetailsInfo} {source : String} {now : Instant}
    (h : db.storeBlock details source now = .ok db') :
    db.Gains (details.retained.toList.flatMap RetainedBlockInfo.createdIds) db' := by
  simp only [storeBlock, bind_ok] at h
  obtain ⟨retained, hret, h⟩ := h
  rw [orError_ok.mp hret, Option.toList_some, List.flatMap_singleton]
  split_ifs at h
  · split at h
    · obtain rfl := pure_ok.mp h
      exact .refl _
    · simp only [bind_ok, pure_ok] at h
      obtain ⟨db₁, h₁, rfl⟩ := h
      exact (gains_insertTransactions h₁).trans (gains_of_eq rfl)
  · simp only [bind_ok] at h
    obtain ⟨⟨db₁, id⟩, h₁, h₂⟩ := h
    exact (gains_of_eq (outputs_insertBlockHeaderRow h₁)).trans (gains_insertTransactions h₂)

/-- **A block recorded as a gap has none.** -/
theorem outputs_recordGapBlock {details : BlockDetailsInfo} {note : String} {now : Instant}
    (h : db.recordGapBlock details note now = .ok db') : db'.txOutputs = db.txOutputs := by
  unfold recordGapBlock at h
  dsimp only at h
  split_ifs at h
  · obtain rfl := pure_ok.mp h
    rfl
  · simp only [bind_ok, pure_ok] at h
    obtain ⟨⟨db₁, id⟩, h₁, rfl⟩ := h
    have hrow := outputs_insertBlockHeaderRow h₁
    exact hrow

/-- Contract flags are a column of the transactions. -/
theorem outputs_recordContractFlags (N : Noid) (db : Db) (height : ℕ) (hash : String)
    (raw : Option (List UInt8)) :
    (db.recordContractFlags N height hash raw).txOutputs = db.txOutputs := by
  have hset : ∀ flags, (db.setContractFlags height hash flags).txOutputs = db.txOutputs := by
    intro flags
    unfold setContractFlags
    split <;> rfl
  unfold recordContractFlags
  repeat' split
  all_goals first | rfl | exact hset _

/-- Raw bytes go to a table of their own. -/
theorem outputs_storeRaw {N : Noid} {height : ℕ} {hash : String} {bytes : List UInt8}
    {source : String} {now : Instant} {stored : Bool}
    (h : db.storeRaw N height hash bytes source now = .ok (db', stored)) :
    db'.txOutputs = db.txOutputs := by
  unfold storeRaw at h
  split at h
  · cases h; rfl
  · split_ifs at h
    · cases h; rfl
    · simp only [bind_ok, pure_ok, Prod.mk.injEq] at h
      obtain ⟨_, -, rfl, -⟩ := h
      rfl

/-- They add no output, be they kept, refused or not wanted. -/
theorem outputs_keepRaw (N : Noid) (cfg : Config) (db : Db) (height : ℕ) (hash : String)
    (bytes : Option (List UInt8)) (source : String) (now : Instant) :
    (db.keepRaw N cfg height hash bytes source now).txOutputs = db.txOutputs := by
  unfold keepRaw
  split_ifs
  · split
    · rfl
    · split
      · next h => exact outputs_storeRaw h
      · rfl
  · rfl

/-- What an ingested block brings: its body's outputs; the bytes and the flags add none. -/
theorem gains_storeKept {N : Noid} {cfg : Config} {height : ℕ} {details : BlockDetailsInfo}
    {source : String} {raw : Option (List UInt8)} {now : Instant}
    (h : db.storeKept N cfg height details source raw now = .ok db') :
    db.Gains (details.retained.toList.flatMap RetainedBlockInfo.createdIds) db' := by
  simp only [storeKept, bind_ok, pure_ok] at h
  obtain ⟨db₁, h₁, rfl⟩ := h
  exact (gains_storeBlock h₁).trans
    (gains_of_eq ((outputs_keepRaw ..).trans (outputs_recordContractFlags ..)))

/-- A body recovered from the node's own bytes brings its outputs. -/
theorem gains_recoverBody {N : Noid} {cfg : Config} {height blockId : ℕ} {hash : String}
    {retained : RetainedBlockInfo} {raw : List UInt8} {now : Instant}
    (h : db.recoverBody N cfg height hash blockId retained raw now = .ok db') :
    db.Gains retained.createdIds db' := by
  simp only [recoverBody, bind_ok, pure_ok] at h
  obtain ⟨db₁, h₁, rfl⟩ := h
  refine (gains_insertTransactions h₁).trans (gains_of_eq ?_)
  exact (outputs_keepRaw ..).trans (outputs_recordContractFlags ..)

/-- So does one that a file or a peer offers, whatever comes along with it. -/
theorem gains_fillBody {N : Noid} {height blockId : ℕ} {hash : String}
    {body : RetainedBlockInfo} {bytes : Option (List UInt8)} {source resolution : String}
    {keep : Bool} {now : Instant}
    (h : db.fillBody N height hash blockId body bytes source resolution keep now = .ok db') :
    db.Gains body.createdIds db' := by
  simp only [fillBody, bind_ok] at h
  obtain ⟨db₁, h₁, h₂⟩ := h
  refine (gains_insertTransactions h₁).trans (gains_of_eq ?_)
  rcases bytes with _ | bytes
  · simp only [bind_ok, pure_ok] at h₂
    obtain ⟨_, rfl, rfl⟩ := h₂
    rfl
  · split_ifs at h₂
    · simp only [bind_ok, map_ok, pure_ok] at h₂
      obtain ⟨_, ⟨⟨db₂, stored⟩, hraw, rfl⟩, rfl⟩ := h₂
      exact (outputs_storeRaw hraw).trans (outputs_recordContractFlags ..)
    · simp only [bind_ok, pure_ok] at h₂
      obtain ⟨_, rfl, rfl⟩ := h₂
      exact outputs_recordContractFlags ..

/-! ## The other writers -/

/-- The headers of a batch, by induction on it. -/
theorem outputs_insertHeaders {now : Instant} : ∀ {batch : List BlockHeaderInfo} {db : Db},
    insertHeaders now db batch = .ok db' → db'.txOutputs = db.txOutputs
  | [], db, h => by
      obtain rfl := pure_ok.mp h
      rfl
  | hd :: batch, db, h => by
      rw [insertHeaders, List.foldlM_cons, bind_ok] at h
      obtain ⟨_, h₁, h₂⟩ := h
      obtain ⟨⟨db₁, inserted⟩, h₁, rfl⟩ := map_ok.mp h₁
      refine (outputs_insertHeaders h₂).trans ?_
      unfold insertHeaderOnlyBlock at h₁
      split_ifs at h₁
      · cases h₁; rfl
      · split at h₁
        · cases h₁
        · cases h₁; rfl

theorem outputs_upsertBalances (now : Instant) :
    ∀ (rows : List (String × String × ℕ)) (db : Db),
      (db.upsertBalances rows now).txOutputs = db.txOutputs
  | [], _ => rfl
  | _ :: rows, db => outputs_upsertBalances now rows (db.upsertAddressBalanceCache _ _ _ now)

/-- **The outputs of a receipt are new and have no creation id**, so they are in none of the bodies'
lists. -/
theorem gains_insertReceiptTransaction {blockId : ℕ} {tx : ReceiptTransaction} {now : Instant}
    {inserted : Bool} (h : db.insertReceiptTransaction blockId tx now = .ok (db', inserted)) :
    db.Gains ids db' := by
  obtain ⟨-, -, -, ⟨-, rfl, -⟩ | ⟨-, hwrite, -⟩⟩ := insertReceiptTransaction_ok.mp h
  · exact .refl _
  · intro o ho
    rw [(writeReceiptTransaction_ok hwrite).outputs] at ho
    rcases List.mem_append.mp ho with hold | hnew
    · exact Or.inl hold
    · obtain ⟨x, -, rfl⟩ := List.mem_map.mp hnew
      exact Or.inr ⟨rfl, nofun⟩

end Db

/-! ## The transactions -/

/-- The transactions that write flags. -/
def Txn.Flags : Txn → Prop
  | .clearSpentInGap | .sweepSegment .. | .sweepBalances _ => True
  | _ => False

/-- **Every transaction but the sweep's leaves the outputs as they are and adds those of its
bodies.** -/
theorem Txn.exec_gains {N : Noid} {cfg : Config} {t : Txn} {db db' : Db} (ht : ¬ t.Flags)
    (h : t.exec N cfg db = .ok db') :
    db.Gains (t.bodies.flatMap RetainedBlockInfo.createdIds) db' := by
  match t with
  | .clearSpentInGap | .sweepSegment .. | .sweepBalances _ => exact absurd trivial ht
  | .ingest .. => exact Db.gains_storeKept h
  | .gapBlock .. => exact Db.gains_of_eq (Db.outputs_recordGapBlock h)
  | .replace height old at_ hash replacement now =>
    have hexec : db.replaceBlock N cfg height old at_ hash replacement now = .ok db' := h
    simp only [Db.replaceBlock, Db.markOrphaned, bind_ok] at hexec
    obtain ⟨db₁, h₁, h₂⟩ := hexec
    split_ifs at h₁
    obtain rfl := Except.ok.inj h₁
    rcases replacement with _ | ⟨details, source, raw⟩ | ⟨details, note⟩
    · obtain rfl := pure_ok.mp h₂
      exact Db.gains_of_eq rfl
    · have horphan : db.Gains (details.retained.toList.flatMap RetainedBlockInfo.createdIds)
          (db.appendStatus old .orphaned at_) := Db.gains_of_eq rfl
      have hstored := Db.gains_storeKept h₂
      exact horphan.trans hstored
    · have hgap := Db.outputs_recordGapBlock h₂
      exact Db.gains_of_eq hgap
  | .recover .. =>
    rw [bodies, List.flatMap_singleton]
    exact Db.gains_recoverBody h
  | .fillGap .. =>
    rw [bodies, List.flatMap_singleton]
    exact Db.gains_fillBody h
  | .keepRaw .. =>
    obtain rfl := Except.ok.inj h
    exact Db.gains_of_eq (Db.outputs_keepRaw ..)
  | .fillRaw .. =>
    obtain ⟨⟨_, _⟩, hraw, rfl⟩ := map_ok.mp h
    exact Db.gains_of_eq (Db.outputs_storeRaw hraw)
  | .adoptProofClass height hash class_ =>
    obtain rfl := Except.ok.inj h
    unfold Db.adoptProofClass
    split_ifs
    · exact .refl _
    · exact Db.gains_of_eq rfl
  | .upsertBalances rows now =>
    obtain rfl := Except.ok.inj h
    exact Db.gains_of_eq (Db.outputs_upsertBalances now rows db)
  | .headerBatch batch progress now =>
    simp only [exec] at h
    rcases hins : Db.insertHeaders now db batch with e | db₁ <;> rw [hins] at h
    · cases h
    · obtain rfl := Except.ok.inj h
      have hheaders := Db.outputs_insertHeaders hins
      exact Db.gains_of_eq hheaders
  | .receipt blockId tx now =>
    rw [exec] at h
    split at h
    · next hins =>
      obtain rfl := Except.ok.inj h
      exact Db.gains_insertReceiptTransaction hins
    · obtain rfl := Except.ok.inj h
      exact .refl _
  | .pruneBlock blockId =>
    have hexec : db.pruneBlock blockId = .ok db' := h
    unfold Db.pruneBlock at hexec
    dsimp only at hexec
    split_ifs at hexec
    obtain rfl := Except.ok.inj hexec
    exact fun o ho => Or.inl (List.mem_filter.mp ho).1
  | .setState .. | .resolveGapsWithBodies _ | .setTipSeen .. | .adoptTipSeen .. =>
    obtain rfl := Except.ok.inj h
    exact Db.gains_of_eq rfl

end Permanode
