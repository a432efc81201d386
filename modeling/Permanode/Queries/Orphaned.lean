import Permanode.Queries.Untouched

/-!
# Queries/Orphaned — a replaced block, seen from the live picture

The transactions of a replaced block stay in the tables of the canonical ones, with the txids, slots
and creation ids they repeat.  `Db.AddsBlock` says of two databases that they differ in one block
and its rows; if the block's latest status is `orphaned`,

    recordedHeight · spentByRecordedInput

are the same functions of both, and so is every figure of the live picture (`Db.livePicture`).
-/

namespace Permanode

namespace Db

/-- Whether a transaction is one of a block. -/
def inBlock (db : Db) (blockId txId : ℕ) : Bool :=
  (db.transaction? txId).any fun t => t.blockId = blockId

/-- **`db'` is `db` with one more block**: its row, its log, its transactions and their rows,
wherever they stand in their tables. -/
structure AddsBlock (db : Db) (blockId : ℕ) (db' : Db) : Prop where
  blocks : db.blocks.rows = db'.blocks.rows.filter fun b => b.id ≠ blockId
  log : db.blockStatusLog.rows = db'.blockStatusLog.rows.filter fun s => s.blockId ≠ blockId
  transactions : db.transactions.rows = db'.transactions.rows.filter fun t => t.blockId ≠ blockId
  inputs : db.txInputs.rows = db'.txInputs.rows.filter fun i => ¬ db'.inBlock blockId i.txId
  outputs : db.txOutputs.rows = db'.txOutputs.rows.filter fun o => ¬ db'.inBlock blockId o.txId
  stateSlots : db.stateSlots = db'.stateSlots

/-- Whether a transaction is one of a canonical block. -/
def onChain (db : Db) (txId : ℕ) : Bool :=
  (db.transaction? txId).any fun t => db.isCanonical t.blockId

end Db

/-- **The figures of the live picture.** -/
structure LivePicture where
  liveBalances : List (String × (BitVec 128 × ℕ))
  liveCountPerSegment : ℕ → UInt64 → UInt64 → ℕ
  unspentRecordedOutputs : ℕ → SlotRange → List OutputRow
  recordedCreationIds : SlotRange → List String
  balanceChangesByHour : String → Except String (List (ℤ × ℤ))
  burnByBlock : List (ℕ × ℤ)
  stateActivity : ℤ → StateActivity
  clearedOnChain : List OutputRow

namespace Db

/-- The picture of a database. -/
def livePicture (db : Db) : LivePicture where
  liveBalances := db.liveBalances
  liveCountPerSegment := db.liveCountPerSegment
  unspentRecordedOutputs := db.unspentRecordedOutputs
  recordedCreationIds := db.recordedCreationIds
  balanceChangesByHour := db.balanceChangesByHour
  burnByBlock := db.burnByBlock
  stateActivity := db.stateActivity
  clearedOnChain := db.clearedRows.filter fun o => db.onChain o.txId

/-! ## The tables, read -/

/-- Rows that were taken away and are not selected make no difference. -/
theorem filter_of_removed {ρ : Type} {l l' : List ρ} {q p p' : ρ → Bool} (h : l = l'.filter q)
    (hold : ∀ r ∈ l, p' r = p r) (hnew : ∀ r ∈ l', p' r = true → q r = true) :
    l'.filter p' = l.filter p := by
  rw [← List.filter_congr hold, h, List.filter_filter]
  refine List.filter_congr fun r hr => ?_
  by_cases hp : p' r = true
  · rw [hp, hnew r hr hp, Bool.and_self]
  · rw [Bool.not_eq_true] at hp
    rw [hp, Bool.false_and]

/-- What is looked for and not removed is found as before. -/
theorem any_of_removed {ρ : Type} {l l' : List ρ} {q p : ρ → Bool} (h : l = l'.filter q)
    (hnew : ∀ r ∈ l', p r = true → q r = true) : l'.any p = l.any p := by
  rw [h, List.any_filter, Bool.eq_iff_iff, List.any_eq_true, List.any_eq_true]
  refine exists_congr fun r => and_congr_right fun hr => ?_
  rw [Bool.and_eq_true_iff, iff_and_self]
  exact hnew r hr

variable {db db' : Db} {blockId : ℕ}

namespace AddsBlock

variable (ha : db.AddsBlock blockId db')
include ha

/-- The other blocks have the status they had. -/
theorem latestStatus_eq {id : ℕ} (h : id ≠ blockId) : db'.latestStatus id = db.latestStatus id := by
  have hlog : db'.statusesOf id = db.statusesOf id :=
    filter_of_removed ha.log (fun _ _ => rfl) fun s _ hs =>
      decide_eq_true fun hid => h ((of_decide_eq_true hs).symm.trans hid)
  rw [latestStatus, latestStatus, hlog]

/-- They are canonical or not as before. -/
theorem isCanonical_eq {id : ℕ} (h : id ≠ blockId) : db'.isCanonical id = db.isCanonical id := by
  rw [isCanonical, isCanonical, ha.latestStatus_eq h]

/-- The blocks on record are the others. -/
theorem mem_block {b : BlockRow} : b ∈ db.blocks.rows ↔ b ∈ db'.blocks.rows ∧ b.id ≠ blockId := by
  rw [ha.blocks, List.mem_filter, decide_eq_true_eq]

/-- So are their transactions. -/
theorem mem_transaction {t : TransactionRow} :
    t ∈ db.transactions.rows ↔ t ∈ db'.transactions.rows ∧ t.blockId ≠ blockId := by
  rw [ha.transactions, List.mem_filter, decide_eq_true_eq]

/-- The other blocks are found as before. -/
theorem block?_eq {id : ℕ} (h : id ≠ blockId) : db'.block? id = db.block? id := by
  rcases hb : db.block? id with _ | b
  · refine List.find?_eq_none.mpr fun b hmem hid => ?_
    have hne : b.id ≠ blockId := fun heq => h ((of_decide_eq_true hid).symm.trans heq)
    exact List.find?_eq_none.mp hb b (ha.mem_block.mpr ⟨hmem, hne⟩) hid
  · obtain ⟨hmem, rfl⟩ := mem_of_block? hb
    exact block?_eq_some (ha.mem_block.mp hmem).1

/-- A transaction of another block is on record as before, one of this block is new. -/
theorem transaction?_eq (txId : ℕ) :
    db.transaction? txId = (db'.transaction? txId).filter fun t => t.blockId ≠ blockId :=
  transaction?_filter ha.transactions txId

/-- Transactions of other blocks are found as before. -/
theorem transaction?_of_other {txId : ℕ} (h : db'.inBlock blockId txId = false) :
    db'.transaction? txId = db.transaction? txId := by
  rw [ha.transaction?_eq]
  rw [inBlock] at h
  rcases ht : db'.transaction? txId with _ | t
  · rfl
  · rw [ht, Option.any_some, decide_eq_false_iff_not] at h
    rw [Option.filter_some, if_pos (decide_eq_true h)]

/-! ## What counts -/

variable (ho : db'.latestStatus blockId = some .orphaned)
include ho

omit ha in
/-- The added block is not canonical. -/
theorem not_canonical : db'.isCanonical blockId = false := by
  rw [isCanonical, ho]
  rfl

omit ha in
/-- What counts is of another block. -/
theorem other_of_counts {txId : ℕ} (h : db'.counts txId = true) :
    db'.inBlock blockId txId = false := by
  rw [inBlock, Bool.eq_false_iff, ne_eq, Option.any_eq_true]
  rintro ⟨t, ht, hid⟩
  have hread : db'.recordedHeight txId = (db'.transaction? txId).bind fun t =>
      (db'.block? t.blockId).bind fun b =>
        if t.recorded = true ∧ db'.isCanonical b.id = true then some b.height else none := rfl
  rw [counts, hread, ht, Option.bind_some] at h
  rcases hb : db'.block? t.blockId with _ | b
  · rw [hb] at h
    exact Bool.false_ne_true h
  · obtain ⟨-, hbid⟩ := mem_of_block? hb
    have hcanon : ¬ (t.recorded = true ∧ db'.isCanonical b.id = true) := by
      rw [hbid, of_decide_eq_true hid, not_canonical ho]
      exact fun h => Bool.false_ne_true h.2
    rw [hb, Option.bind_some, if_neg hcanon] at h
    exact Bool.false_ne_true h

/-- **What counts is what counted.** -/
theorem recordedHeight_eq : db'.recordedHeight = db.recordedHeight := by
  funext txId
  have hread : ∀ d : Db, d.recordedHeight txId = (d.transaction? txId).bind fun t =>
      (d.block? t.blockId).bind fun b =>
        if t.recorded = true ∧ d.isCanonical b.id = true then some b.height else none :=
    fun _ => rfl
  rcases hin : db'.inBlock blockId txId with _ | _
  · rw [hread, hread, ha.transaction?_of_other hin]
    rcases ht : db.transaction? txId with _ | t
    · rfl
    · have hother := (ha.mem_transaction.mp (mem_of_transaction? ht).1).2
      rw [Option.bind_some, Option.bind_some, ha.block?_eq hother]
      rcases hb : db.block? t.blockId with _ | b
      · rfl
      · rw [Option.bind_some, Option.bind_some, (mem_of_block? hb).2, ha.isCanonical_eq hother]
  · have hnone : db'.recordedHeight txId = none := by
      by_contra hsome
      have hother := other_of_counts ho (Option.isSome_iff_ne_none.mpr hsome)
      exact Bool.false_ne_true (hother.symm.trans hin)
    obtain ⟨t, ht, hid⟩ := (Option.any_eq_true _ _).mp hin
    rw [hnone, hread, ha.transaction?_eq, ht, Option.filter_some,
      if_neg (by simpa using of_decide_eq_true hid)]
    rfl

/-- **The same transactions count.** -/
theorem counts_eq : db'.counts = db.counts := by
  funext txId
  rw [counts, counts, ha.recordedHeight_eq ho]

/-- **What is spent on record is what was.** -/
theorem spentByRecordedInput_eq : db'.spentByRecordedInput = db.spentByRecordedInput := by
  funext height creationId
  rw [spentByRecordedInput, spentByRecordedInput, ha.recordedHeight_eq ho]
  refine any_of_removed ha.inputs fun i _ hi => ?_
  have hcounts : db'.counts i.txId = true := by
    rw [ha.counts_eq ho]
    exact counts_of_any (of_decide_eq_true hi).2
  rw [other_of_counts ho hcounts]
  rfl

/-- Rows of transactions that count are rows as before. -/
theorem filter_inputs {p : InputRow → Bool} (hp : ∀ i, p i = true → db'.counts i.txId = true) :
    db'.txInputs.rows.filter p = db.txInputs.rows.filter p :=
  filter_of_removed ha.inputs (fun _ _ => rfl) fun i _ hi => by
    rw [other_of_counts ho (hp i hi)]
    rfl

/-- So outputs whose transactions count are the same. -/
theorem filter_outputs {p : OutputRow → Bool} (hp : ∀ o, p o = true → db'.counts o.txId = true) :
    db'.txOutputs.rows.filter p = db.txOutputs.rows.filter p :=
  filter_of_removed ha.outputs (fun _ _ => rfl) fun o _ hout => by
    rw [other_of_counts ho (hp o hout)]
    rfl

/-! ## The picture of the live state -/

/-- The same outputs are unspent. -/
theorem unspentOutputs_eq : db'.unspentOutputs = db.unspentOutputs := by
  funext height
  rw [unspentOutputs, unspentOutputs, ha.recordedHeight_eq ho, ha.spentByRecordedInput_eq ho]
  refine ha.filter_outputs ho fun o hout => ?_
  rw [ha.counts_eq ho]
  exact counts_of_any (of_decide_eq_true hout).1

theorem unspentSlots_eq : db'.unspentSlots = db.unspentSlots := by
  funext height
  rw [unspentSlots, unspentSlots, ha.stateSlots, ha.spentByRecordedInput_eq ho]

/-- The balances are the same. -/
theorem liveBalances_eq : db'.liveBalances = db.liveBalances := by
  have hcoins : db'.liveCoins = db.liveCoins := by
    rw [liveCoins, liveCoins, ha.unspentOutputs_eq ho, ha.unspentSlots_eq ho]
  have hbalance : db'.liveBalance = db.liveBalance := by
    funext a
    rw [liveBalance, liveBalance, hcoins]
  rw [liveBalances, liveBalances, hcoins, hbalance]

/-- The counts of the segments are the same. -/
theorem liveCountPerSegment_eq : db'.liveCountPerSegment = db.liveCountPerSegment := by
  funext height size segment
  rw [liveCountPerSegment, liveCountPerSegment, liveSegments, liveSegments, ha.unspentOutputs_eq ho,
    ha.unspentSlots_eq ho]

theorem unspentRecordedOutputs_eq : db'.unspentRecordedOutputs = db.unspentRecordedOutputs := by
  funext height slots
  rw [unspentRecordedOutputs, unspentRecordedOutputs, ha.unspentOutputs_eq ho]

theorem recordedCreationIds_eq : db'.recordedCreationIds = db.recordedCreationIds := by
  funext slots
  rw [recordedCreationIds, recordedCreationIds, ← ha.recordedHeight_eq ho]
  exact congrArg _ (ha.filter_outputs ho fun o hout => (of_decide_eq_true hout).2)

/-! ## The history of an address -/

/-- A transaction that counts has its hour. -/
theorem hourOf_eq {txId : ℕ} (h : db'.counts txId = true) : db'.hourOf txId = db.hourOf txId := by
  have htx := ha.transaction?_of_other (other_of_counts ho h)
  rw [hourOf, hourOf, htx]
  rcases ht : db.transaction? txId with _ | t
  · rfl
  · rw [Option.bind_some, Option.bind_some,
      ha.block?_eq (ha.mem_transaction.mp (mem_of_transaction? ht).1).2]

/-- An address has received the same outputs. -/
theorem receivedOutputs_eq : db'.receivedOutputs = db.receivedOutputs := by
  funext a
  rw [receivedOutputs, receivedOutputs, ← ha.counts_eq ho]
  exact ha.filter_outputs ho fun o hout => (of_decide_eq_true hout).2

theorem flaggedOutputs_eq : db'.flaggedOutputs = db.flaggedOutputs := by
  funext a
  rw [flaggedOutputs, flaggedOutputs, ← ha.counts_eq ho]
  exact ha.filter_outputs ho fun o hout => (of_decide_eq_true hout).2.2.2

/-- It has sent the same transactions. -/
theorem sentTransactions_eq : db'.sentTransactions = db.sentTransactions := by
  funext a
  rw [sentTransactions, sentTransactions, ← ha.counts_eq ho]
  refine filter_of_removed ha.transactions (fun _ _ => rfl) fun t ht hsent => ?_
  have hother := other_of_counts ho (of_decide_eq_true hsent).2
  rw [inBlock, transaction?_eq_some ht, Option.any_some, decide_eq_false_iff_not] at hother
  exact decide_eq_true hother

/-- **Its history by the hour is the same.** -/
theorem balanceChangesByHour_eq : db'.balanceChangesByHour = db.balanceChangesByHour := by
  funext a
  have hreceived : (db'.receivedOutputs a).map (fun o => (db'.hourOf o.txId, o.amount))
      = (db'.receivedOutputs a).map fun o => (db.hourOf o.txId, o.amount) :=
    List.map_congr_left fun o hout => by
      rw [ha.hourOf_eq ho (of_decide_eq_true (List.mem_filter.mp hout).2).2]
  have hsent : (db'.sentTransactions a).map (fun t => (db'.hourOf t.id, t.inputSumMicronoid))
      = (db'.sentTransactions a).map fun t => (db.hourOf t.id, t.inputSumMicronoid) :=
    List.map_congr_left fun t ht => by
      rw [ha.hourOf_eq ho (of_decide_eq_true (List.mem_filter.mp ht).2).2]
  rw [balanceChangesByHour, balanceChangesByHour, hreceived, hsent, ha.receivedOutputs_eq ho,
    ha.sentTransactions_eq ho, ha.flaggedOutputs_eq ho]

/-! ## Burn and activity -/

/-- The canonical blocks a condition selects are those it selected. -/
theorem filter_blocks {p p' : BlockRow → Bool}
    (hp' : ∀ b, p' b = true → db'.isCanonical b.id = true)
    (hold : ∀ b, b.id ≠ blockId → p' b = p b) :
    db'.blocks.rows.filter p' = db.blocks.rows.filter p := by
  refine filter_of_removed ha.blocks (fun b hb => hold b (ha.mem_block.mp hb).2) fun b _ hb => ?_
  refine decide_eq_true fun hid => ?_
  have hcanon := hp' b hb
  rw [hid, not_canonical ho] at hcanon
  exact Bool.false_ne_true hcanon

/-- The same blocks pay rewards. -/
theorem rewardedBlocks_eq : db'.rewardedBlocks = db.rewardedBlocks :=
  ha.filter_blocks ho (fun _ hb => (of_decide_eq_true hb).2.2.2) fun b hid => by
    rw [ha.isCanonical_eq hid]

theorem burnByBlock_eq : db'.burnByBlock = db.burnByBlock := by
  rw [burnByBlock, burnByBlock, ha.rewardedBlocks_eq ho]

/-- The archive begins at the same time. -/
theorem oldestTimestamp_eq : (db'.oldestTimestamp fun b => db'.isCanonical b.id)
    = db.oldestTimestamp fun b => db.isCanonical b.id := by
  have hrows : (db'.blocks.rows.filter fun b =>
        b.bodyCaptured ∧ b.archived ∧ db'.isCanonical b.id)
      = db.blocks.rows.filter fun b => b.bodyCaptured ∧ b.archived ∧ db.isCanonical b.id :=
    ha.filter_blocks ho (fun _ hb => (of_decide_eq_true hb).2.2) fun b hid => by
      rw [ha.isCanonical_eq hid]
  rw [oldestTimestamp, oldestTimestamp, hrows]

omit ho in
theorem transactionsOf_eq {id : ℕ} (h : id ≠ blockId) :
    db'.transactionsOf id = db.transactionsOf id :=
  filter_of_removed ha.transactions (fun _ _ => rfl) fun _ _ ht =>
    decide_eq_true fun hid => h ((of_decide_eq_true ht).symm.trans hid)

omit ho in
/-- The rows of a transaction of another block. -/
theorem rowCounts_eq {t : TransactionRow} (ht : t ∈ db.transactions.rows) :
    db'.inputCount t.id = db.inputCount t.id ∧ db'.outputCount t.id = db.outputCount t.id := by
  obtain ⟨hmem, hother⟩ := ha.mem_transaction.mp ht
  have hout : db'.inBlock blockId t.id = false := by
    rw [inBlock, transaction?_eq_some hmem, Option.any_some]
    exact decide_eq_false hother
  refine ⟨congrArg _ (filter_of_removed ha.inputs (fun _ _ => rfl) fun i _ hi => ?_),
    congrArg _ (filter_of_removed ha.outputs (fun _ _ => rfl) fun o _ hrow => ?_)⟩
  · rw [of_decide_eq_true hi, hout]
    rfl
  · rw [of_decide_eq_true hrow, hout]
    rfl

omit ho in
/-- Another block adds the same activity. -/
theorem addActivity_eq {b : BlockRow} (hb : b.id ≠ blockId) (a : StateActivity) :
    db'.addActivity a b = db.addActivity a b := by
  have hcounts : ∀ id ∈ (db.transactionsOf b.id).map TransactionRow.id,
      db'.inputCount id = db.inputCount id ∧ db'.outputCount id = db.outputCount id := by
    intro id hid
    obtain ⟨t, ht, rfl⟩ := List.mem_map.mp hid
    exact ha.rowCounts_eq (List.mem_filter.mp ht).1
  exact addActivity_congr (ha.transactionsOf_eq hb) hcounts a

theorem stateActivity_eq : db'.stateActivity = db.stateActivity := by
  funext since
  have hrow : ∀ a, ∀ b ∈ (db.rewardedBlocks.filter fun b =>
      since ≤ b.timestamp.toInt).insertionSort fun b c => b.height ≤ c.height,
      db'.addActivity a b = db.addActivity a b := by
    intro a b hb₀
    have hmem := (List.mem_filter.mp ((List.mem_insertionSort _).mp hb₀)).1
    exact ha.addActivity_eq (ha.mem_block.mp (List.mem_filter.mp hmem).1).2 a
  rw [stateActivity, stateActivity, ha.oldestTimestamp_eq ho, ha.rewardedBlocks_eq ho,
    List.foldl_ext _ _ _ hrow]

/-! ## The flags that are cleared -/

omit ho in
theorem onChain_eq {txId : ℕ} (h : db'.inBlock blockId txId = false) :
    db'.onChain txId = db.onChain txId := by
  rw [onChain, onChain, ha.transaction?_of_other h]
  rcases ht : db.transaction? txId with _ | t
  · rfl
  · rw [Option.any_some, Option.any_some,
      ha.isCanonical_eq (ha.mem_transaction.mp (mem_of_transaction? ht).1).2]

omit ha in
/-- What is on chain is not of the added block. -/
theorem other_of_onChain {txId : ℕ} (h : db'.onChain txId = true) :
    db'.inBlock blockId txId = false := by
  rw [onChain] at h
  obtain ⟨t, ht, hcanon⟩ := (Option.any_eq_true _ _).mp h
  rw [inBlock, ht, Option.any_some, decide_eq_false_iff_not]
  rintro rfl
  exact Bool.false_ne_true ((not_canonical ho).symm.trans hcanon)

/-- **The flags on chain are cleared alike.** -/
theorem clearedOnChain_eq : db'.livePicture.clearedOnChain = db.livePicture.clearedOnChain := by
  simp only [livePicture, clearedRows, List.filter_filter, ha.spentByRecordedInput_eq ho]
  refine filter_of_removed ha.outputs (fun o hout => ?_) fun o _ hout => ?_
  · rw [ha.outputs] at hout
    have hother := of_decide_eq_true (List.mem_filter.mp hout).2
    rw [ha.onChain_eq (Bool.not_eq_true _ ▸ hother)]
  · rw [other_of_onChain ho (Bool.and_eq_true_iff.mp hout).1]
    rfl

end AddsBlock

/-- **A replaced block leaves no trace in the live picture.** -/
theorem livePicture_addsBlock (ha : db.AddsBlock blockId db')
    (ho : db'.latestStatus blockId = some .orphaned) : db'.livePicture = db.livePicture := by
  have hcleared := ha.clearedOnChain_eq ho
  simp only [livePicture] at hcleared
  rw [livePicture, livePicture, hcleared, ha.liveBalances_eq ho, ha.liveCountPerSegment_eq ho,
    ha.unspentRecordedOutputs_eq ho, ha.recordedCreationIds_eq ho, ha.balanceChangesByHour_eq ho,
    ha.burnByBlock_eq ho, ha.stateActivity_eq ho]

/-! ## A coin recorded twice -/

/-- A database less one block. -/
def without (db : Db) (blockId : ℕ) : Db :=
  { db with
    blocks := db.blocks.delete fun b => b.id = blockId
    blockStatusLog := db.blockStatusLog.delete fun s => s.blockId = blockId
    transactions := db.transactions.delete fun t => t.blockId = blockId
    txInputs := db.txInputs.delete fun i => db.inBlock blockId i.txId
    txOutputs := db.txOutputs.delete fun o => db.inBlock blockId o.txId }

/-- A database adds any of its orphaned blocks to the one without it. -/
theorem addsBlock_without (db : Db) (blockId : ℕ) : (db.without blockId).AddsBlock blockId db where
  blocks := by simp [without, Table.delete]
  log := by simp [without, Table.delete]
  transactions := by simp [without, Table.delete]
  inputs := by simp [without, Table.delete]
  outputs := by simp [without, Table.delete]
  stateSlots := rfl

end Db

/-- A coin is created in a block that a reorg replaces with one that creates it again, and spent in
the next. -/
def coinTwice : Db :=
  (do
    let db ← Db.empty.storeBlock ⟨plainHeader 1 "a1" "a0", some coinBody⟩ "details" 1
    let db ← db.markOrphaned 1 2
    let db ← db.storeBlock ⟨plainHeader 1 "b1" "a0", some coinBody⟩ "details" 2
    db.storeBlock ⟨plainHeader 2 "b2" "b1", some spendBody⟩ "details" 3).toOption.getD .empty

/-- The replaced block's copy of the coin makes no difference. -/
theorem Db.livePicture_coinTwice : coinTwice.latestStatus 1 = some .orphaned
    ∧ (coinTwice.txOutputs.rows.length, (coinTwice.without 1).txOutputs.rows.length) = (3, 2)
    ∧ coinTwice.livePicture = (coinTwice.without 1).livePicture :=
  have ho : coinTwice.latestStatus 1 = some .orphaned := by decide +kernel
  ⟨ho, by decide +kernel, Db.livePicture_addsBlock (coinTwice.addsBlock_without 1) ho⟩

end Permanode
