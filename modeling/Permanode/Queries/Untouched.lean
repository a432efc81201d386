import Permanode.Queries.AddUp
import Permanode.Queries.Beside

/-!
# Queries/Untouched — the recorded history, seen from beside

`Db.recordedHistory` gathers every figure of the recorded history: the picture of the live state,
the figures of addresses and of the archive, the export, and the rows the closing maintenance, the
sweep and the retention would change.  Header-only blocks and receipts leave all of it as it is,
however many are inserted (`Db.recordedHistory_insertAll`).
-/

namespace Permanode

/-! ## The rows a statement would change -/

/-- The rows of a block `prune_older_than` takes away, and the block. -/
structure BlockRows where
  blockId : ℕ
  transactions : List TransactionRow
  pageHashes : List PageHashRow
  inputs : List InputRow
  outputs : List OutputRow
  rawBlocks : List RawBlockRow

namespace Db

/-- What pruning deletes with a block. -/
def rowsOfBlock (db : Db) (blockId : ℕ) : BlockRows :=
  let ids := (db.transactionsOf blockId).map TransactionRow.id
  { blockId
    transactions := db.transactionsOf blockId
    pageHashes := db.txPageHashes.rows.filter fun r => r.txId ∈ ids
    inputs := db.txInputs.rows.filter fun r => r.txId ∈ ids
    outputs := db.txOutputs.rows.filter fun r => r.txId ∈ ids
    rawBlocks := db.rawBlocks.rows.filter fun r => r.blockId = blockId }

/-- The rows of `prune_older_than`. -/
def prunedRows (db : Db) (cutoffUnix : ℤ) : List BlockRows :=
  (db.pruneCandidates cutoffUnix).map db.rowsOfBlock

/-- The rows of `clear_spent_in_gap_with_recorded_spend`. -/
def clearedRows (db : Db) : List OutputRow :=
  db.txOutputs.rows.filter fun o => o.spentInGap ∧ db.spentByRecordedInput ⊤ o.creationId

/-- The rows of `unmark_live_outputs`. -/
def unmarkedRows (db : Db) (slots : SlotRange) (live : List String) : List OutputRow :=
  db.txOutputs.rows.filter fun o => o.spentInGap ∧ slots.holds o.slotIndex
    ∧ ¬ db.fromReceipt o.txId ∧ o.creationId.any (· ∈ live)

/-! ## The figures -/

end Db

/-- **The figures of the recorded history.** -/
structure RecordedHistory where
  liveBalances : List (String × (BitVec 128 × ℕ))
  liveCountPerSegment : ℕ → UInt64 → UInt64 → ℕ
  unspentRecordedOutputs : ℕ → SlotRange → List OutputRow
  recordedCreationIds : SlotRange → List String
  knownAddresses : List String
  openGapHeights : ℕ → List ℕ
  addressBalance : String → Except String AddressBalance
  balanceChangesByHour : String → Except String (List (ℤ × ℤ))
  burnByBlock : List (ℕ × ℤ)
  stateActivity : ℤ → StateActivity
  chainStats : ℤ → ChainStats
  blockLines : List BlockLine
  transactionLines : List TransactionLine
  inputLines : List InputLine
  outputLines : List OutputLine
  clearedRows : List OutputRow
  unmarkedRows : SlotRange → List String → List OutputRow
  prunedRows : ℤ → List BlockRows

namespace Db

/-- The figures of a database. -/
def recordedHistory (db : Db) : RecordedHistory where
  liveBalances := db.liveBalances
  liveCountPerSegment := db.liveCountPerSegment
  unspentRecordedOutputs := db.unspentRecordedOutputs
  recordedCreationIds := db.recordedCreationIds
  knownAddresses := db.knownAddresses
  openGapHeights := db.openGapHeights
  addressBalance := db.addressBalance
  balanceChangesByHour := db.balanceChangesByHour
  burnByBlock := db.burnByBlock
  stateActivity := db.stateActivity
  chainStats := fun nowUnix => (db.chainStats nowUnix).ofArchive
  blockLines := db.blockLines
  transactionLines := db.transactionLines
  inputLines := db.inputLines
  outputLines := db.outputLines
  clearedRows := db.clearedRows
  unmarkedRows := db.unmarkedRows
  prunedRows := db.prunedRows

variable {db db' : Db} {address : String}

/-! ## What counts -/

namespace Beside

variable (hb : db.Beside db') (hr : db.Referring)
include hb

/-- A block on record has the status it had. -/
theorem latestStatus_eq {id : ℕ} {b : BlockRow} (h : db.block? id = some b) :
    db'.latestStatus id = db.latestStatus id := by
  rw [latestStatus, latestStatus, hb.log id b h]

/-- It is canonical or not as before. -/
theorem isCanonical_eq {id : ℕ} {b : BlockRow} (h : db.block? id = some b) :
    db'.isCanonical id = db.isCanonical id := by
  rw [isCanonical, isCanonical, hb.latestStatus_eq h]

/-- A transaction on record is found as before. -/
theorem transaction?_old {txId : ℕ} {t : TransactionRow} (h : db.transaction? txId = some t) :
    db'.transaction? txId = some t := by
  obtain ⟨new, hrows, -⟩ := hb.transactions
  rw [transaction?] at h
  rw [transaction?, hrows, List.find?_append, h]
  rfl

/-- A transaction that is new is one of a receipt. -/
theorem transaction?_new {txId : ℕ} {t : TransactionRow} (h : db.transaction? txId = none)
    (h' : db'.transaction? txId = some t) : t.source = some receiptSource := by
  obtain ⟨new, hrows, hnew⟩ := hb.transactions
  rw [transaction?] at h
  rw [transaction?, hrows, List.find?_append, h, Option.none_or] at h'
  exact (hnew t (List.mem_of_find?_eq_some h')).1

/-- A new one is from a receipt, and not recorded. -/
theorem not_recorded_new {txId : ℕ} {t : TransactionRow} (h : db.transaction? txId = none)
    (h' : db'.transaction? txId = some t) : t.recorded = false := by
  rw [TransactionRow.recorded, hb.transaction?_new h h']
  rfl

include hr

/-- **What counts is what counted.** -/
theorem recordedHeight_eq : db'.recordedHeight = db.recordedHeight := by
  funext txId
  have hread : ∀ d : Db, d.recordedHeight txId = (d.transaction? txId).bind fun t =>
      (d.block? t.blockId).bind fun b =>
        if t.recorded = true ∧ d.isCanonical b.id = true then some b.height else none :=
    fun _ => rfl
  rw [hread, hread]
  rcases ht : db.transaction? txId with _ | t
  · rcases ht' : db'.transaction? txId with _ | t
    · rfl
    · rw [Option.bind_some, hb.not_recorded_new ht ht']
      rcases db'.block? t.blockId with _ | b
      · rfl
      · rfl
  · rw [hb.transaction?_old ht, Option.bind_some, Option.bind_some]
    obtain ⟨b, hblock⟩ := hr.block ht
    obtain ⟨n, hblock'⟩ := hb.block _ b hblock
    obtain ⟨-, hid⟩ := mem_of_block? hblock
    rw [hblock, hblock', Option.bind_some, Option.bind_some]
    dsimp only
    rw [hid, hb.isCanonical_eq hblock]

/-- **The same transactions count.** -/
theorem counts_eq : db'.counts = db.counts := by
  funext txId
  rw [counts, counts, hb.recordedHeight_eq hr]

omit hr in
/-- A transaction on record is of a receipt or not, as before. -/
theorem fromReceipt_old {txId : ℕ} (h : ∃ t ∈ db.transactions.rows, t.id = txId) :
    db'.fromReceipt txId = db.fromReceipt txId := by
  obtain ⟨new, hrows, hnew⟩ := hb.transactions
  obtain ⟨t, ht⟩ := transaction?_ne_none h
  rw [fromReceipt, hrows, List.any_append, ← fromReceipt, Bool.or_eq_left_iff_imp]
  intro hany
  obtain ⟨t', ht', hp⟩ := List.any_eq_true.mp hany
  have hid : t'.id = txId := (of_decide_eq_true hp).1
  have hnone := (hnew t' ht').2.1
  rw [hid, ht] at hnone
  cases hnone

end Beside

/-! ## The tables, read -/

/-- What is not there does not count. -/
theorem not_counts {txId : ℕ} (h : db.transaction? txId = none) : db.counts txId = false := by
  rw [Bool.eq_false_iff]
  intro hc
  obtain ⟨t, ht⟩ := transaction?_of_counts hc
  exact nomatch h.symm.trans ht

/-- Rows that are new and not selected make no difference. -/
theorem filter_of_append {ρ : Type} {l l' new : List ρ} {p p' : ρ → Bool} (h : l' = l ++ new)
    (hold : ∀ r ∈ l, p' r = p r) (hnew : ∀ r ∈ new, p' r = false) : l'.filter p' = l.filter p := by
  have hnil : new.filter p' = [] := List.filter_eq_nil_iff.mpr fun r hr => by simp [hnew r hr]
  rw [h, List.filter_append, hnil, List.append_nil]
  exact List.filter_congr hold

/-- Lines read off rows that differ in what no line shows. -/
theorem lines_eq {α β κ : Type} [LinearOrder κ] {key : α → κ} {g : α → α} {line line' : α → β}
    {rows rows' : List α} (hrows : rows' = rows.map g) (hkey : ∀ r, key (g r) = key r)
    (hline : ∀ r ∈ rows, line' (g r) = line r) :
    (orderBy key rows').map line' = (orderBy key rows).map line := by
  have hsort : orderBy key (rows.map g) = (orderBy key rows).map g :=
    (List.map_insertionSort (fun a b => key a ≤ key b) (fun a b => key a ≤ key b) g rows
      fun a _ b _ => by rw [hkey, hkey]).symm
  rw [hrows, hsort, List.map_map]
  exact List.map_congr_left fun r hr => hline r ((List.mem_insertionSort _).mp hr)

/-- A block adds to the activity what its rows come to. -/
theorem addActivity_congr {b : BlockRow} (htxs : db'.transactionsOf b.id = db.transactionsOf b.id)
    (hcounts : ∀ id ∈ (db.transactionsOf b.id).map TransactionRow.id,
      db'.inputCount id = db.inputCount id ∧ db'.outputCount id = db.outputCount id)
    (a : StateActivity) : db'.addActivity a b = db.addActivity a b := by
  have hin := List.map_congr_left fun id hid => (hcounts id hid).1
  have hout := List.map_congr_left fun id hid => (hcounts id hid).2
  have hfreed : ((db.transactionsOf b.id).map TransactionRow.id).map
        (fun id => db'.inputCount id - db'.outputCount id)
      = ((db.transactionsOf b.id).map TransactionRow.id).map
        fun id => db.inputCount id - db.outputCount id :=
    List.map_congr_left fun id hid => by rw [(hcounts id hid).1, (hcounts id hid).2]
  rw [addActivity, addActivity, htxs, hin, hout, hfreed]

/-- What a receipt may have said of a transaction's block since. -/
def recount (db' : Db) (r : TransactionRow × BlockRow) : TransactionRow × BlockRow :=
  (r.1, { r.2 with txCountTotal := (db'.block? r.1.blockId).bind BlockRow.txCountTotal })

/-- The block of a recorded transaction is on record. -/
theorem block?_of_recordedIn {txId : ℕ} {t : TransactionRow} {b : BlockRow}
    (h : db.recordedIn txId = some (t, b)) : db.block? b.id = some b := by
  simp only [recordedIn, Option.bind_eq_bind, Option.bind_eq_some_iff] at h
  obtain ⟨t', -, b', hb', h⟩ := h
  split_ifs at h
  cases h
  exact block?_eq_some (mem_of_block? hb').1

theorem recordedIn_none {txId : ℕ} (h : db.transaction? txId = none) :
    db.recordedIn txId = none := by
  rw [recordedIn, h]
  rfl

namespace Beside

variable (hb : db.Beside db')
include hb

/-- Transactions: what holds of the old ones as before and of no new one filters the same. -/
theorem filter_transactions {p p' : TransactionRow → Bool}
    (hold : ∀ t ∈ db.transactions.rows, p' t = p t)
    (hnew : ∀ t, t.source = some receiptSource → db.transaction? t.id = none →
      db.isHeaderOnly t.blockId = true → p' t = false) :
    db'.transactions.rows.filter p' = db.transactions.rows.filter p := by
  obtain ⟨new, hrows, hall⟩ := hb.transactions
  exact filter_of_append hrows hold fun t ht => hnew t (hall t ht).1 (hall t ht).2.1 (hall t ht).2.2

/-- Inputs, likewise. -/
theorem filter_inputs {p p' : InputRow → Bool} (hold : ∀ i ∈ db.txInputs.rows, p' i = p i)
    (hnew : ∀ i, db.transaction? i.txId = none → p' i = false) :
    db'.txInputs.rows.filter p' = db.txInputs.rows.filter p := by
  obtain ⟨new, hrows, hall⟩ := hb.inputs
  exact filter_of_append hrows hold fun i hi => hnew i (hall i hi).2

theorem filter_pageHashes {p p' : PageHashRow → Bool}
    (hold : ∀ r ∈ db.txPageHashes.rows, p' r = p r)
    (hnew : ∀ r, db.transaction? r.txId = none → p' r = false) :
    db'.txPageHashes.rows.filter p' = db.txPageHashes.rows.filter p := by
  obtain ⟨new, hrows, hall⟩ := hb.pageHashes
  exact filter_of_append hrows hold fun r hr => hnew r (hall r hr).2

/-- Outputs, likewise; those of a receipt have no creation id and no flag. -/
theorem filter_outputs {p p' : OutputRow → Bool} (hold : ∀ o ∈ db.txOutputs.rows, p' o = p o)
    (hnew : ∀ o, db'.fromReceipt o.txId = true → db.transaction? o.txId = none →
      o.creationId = none → o.spentInGap = false → p' o = false) :
    db'.txOutputs.rows.filter p' = db.txOutputs.rows.filter p := by
  obtain ⟨new, hrows, hall⟩ := hb.outputs
  refine filter_of_append hrows hold fun o ho => ?_
  obtain ⟨⟨hreceipt, hid⟩, hcoin, hflag⟩ := hall o ho
  exact hnew o hreceipt hid hcoin hflag

/-- The archived blocks, through a condition on what the two have in common. -/
theorem filter_blocks {p p' : BlockRow → Bool} (harch : ∀ b, p' b = true → b.archived = true)
    (harch' : ∀ b, p b = true → b.archived = true)
    (hold : ∀ b ∈ db.blocks.rows, p' b = p b) :
    db'.blocks.rows.filter p' = db.blocks.rows.filter p := by
  have hthrough : ∀ (l : List BlockRow) (q : BlockRow → Bool),
    (∀ b, q b = true → b.archived = true) →
      l.filter q = (l.filter BlockRow.archived).filter q := by
    intro l q hq
    rw [List.filter_filter]
    refine List.filter_congr fun b _ => ?_
    by_cases hqb : q b = true
    · rw [hqb, hq b hqb]
      rfl
    · rw [Bool.not_eq_true] at hqb
      rw [hqb]
      rfl
  rw [hthrough _ _ harch, hthrough _ _ harch', hb.archived]
  exact List.filter_congr fun b hmem => hold b (List.mem_filter.mp hmem).1

/-- A transaction that counts is found as before. -/
theorem transaction?_of_counts_old {txId : ℕ} (h : db.counts txId = true) :
    db'.transaction? txId = db.transaction? txId := by
  obtain ⟨t, ht⟩ := transaction?_of_counts h
  rw [hb.transaction?_old ht, ht]

theorem senderOf_eq {txId : ℕ} (h : db.counts txId = true) :
    db'.senderOf txId = db.senderOf txId := by
  rw [senderOf, senderOf, hb.transaction?_of_counts_old h]

/-! ## The archive's blocks -/

/-- The same blocks pay rewards. -/
theorem rewardedBlocks_eq : db'.rewardedBlocks = db.rewardedBlocks := by
  rw [rewardedBlocks, rewardedBlocks]
  refine hb.filter_blocks (fun b h => (of_decide_eq_true h).2.2.1)
    (fun b h => (of_decide_eq_true h).2.2.1) fun b hmem => ?_
  rw [hb.isCanonical_eq (block?_eq_some hmem)]

theorem burnByBlock_eq : db'.burnByBlock = db.burnByBlock := by
  rw [burnByBlock, burnByBlock, hb.rewardedBlocks_eq]

/-- The archive begins at the same time. -/
theorem oldestTimestamp_eq {p p' : BlockRow → Bool} (h : ∀ b ∈ db.blocks.rows, p' b = p b) :
    db'.oldestTimestamp p' = db.oldestTimestamp p := by
  have hrows : (db'.blocks.rows.filter fun b => b.bodyCaptured ∧ b.archived ∧ p' b)
      = db.blocks.rows.filter fun b => b.bodyCaptured ∧ b.archived ∧ p b :=
    hb.filter_blocks (fun b h => (of_decide_eq_true h).2.1) (fun b h => (of_decide_eq_true h).2.1)
      fun b hmem => by rw [h b hmem]
  rw [oldestTimestamp, oldestTimestamp, hrows]

/-- A receipt's transaction is in none of the archive's blocks. -/
theorem transactionsOf_eq {b : BlockRow} (hmem : b ∈ db.blocks.rows) (harch : b.archived = true) :
    db'.transactionsOf b.id = db.transactionsOf b.id := by
  refine hb.filter_transactions (fun _ _ => rfl) fun t _ _ hheader => decide_eq_false fun hid => ?_
  rw [isHeaderOnly, hid, block?_eq_some hmem, Option.any_some, harch] at hheader
  exact Bool.false_ne_true hheader

/-- A transaction of the archive has as many inputs and outputs as before. -/
theorem counts_of_rows {b : BlockRow} (hmem : b ∈ db.blocks.rows) (harch : b.archived = true) :
    ∀ t ∈ (db'.transactionsOf b.id).map TransactionRow.id,
      db'.inputCount t = db.inputCount t ∧ db'.outputCount t = db.outputCount t := by
  intro id hid
  rw [hb.transactionsOf_eq hmem harch] at hid
  obtain ⟨t, ht, rfl⟩ := List.mem_map.mp hid
  have hsome := transaction?_eq_some (List.mem_filter.mp ht).1
  refine ⟨congrArg _ (hb.filter_inputs (fun _ _ => rfl) fun i hnone => ?_),
    congrArg _ (hb.filter_outputs (fun _ _ => rfl) fun o _ hnone _ _ => ?_)⟩
  · refine decide_eq_false fun hid => ?_
    rw [hid, hsome] at hnone
    exact nomatch hnone
  · refine decide_eq_false fun hid => ?_
    rw [hid, hsome] at hnone
    exact nomatch hnone

/-- So a block of the archive adds the same activity. -/
theorem addActivity_eq {b : BlockRow} (hmem : b ∈ db.blocks.rows) (harch : b.archived = true)
    (a : StateActivity) : db'.addActivity a b = db.addActivity a b := by
  have hcounts := hb.counts_of_rows hmem harch
  rw [hb.transactionsOf_eq hmem harch] at hcounts
  exact addActivity_congr (hb.transactionsOf_eq hmem harch) hcounts a

theorem stateActivity_eq : db'.stateActivity = db.stateActivity := by
  funext since
  have hrow : ∀ a, ∀ b ∈ (db.rewardedBlocks.filter fun b =>
      since ≤ b.timestamp.toInt).insertionSort fun b c => b.height ≤ c.height,
      db'.addActivity a b = db.addActivity a b := by
    intro a b hb₀
    obtain ⟨hmem, hp⟩ := List.mem_filter.mp
      (List.mem_filter.mp ((List.mem_insertionSort _).mp hb₀)).1
    exact hb.addActivity_eq hmem (of_decide_eq_true hp).2.2.1 a
  have holdest : (db'.oldestTimestamp fun b => db'.isCanonical b.id)
      = db.oldestTimestamp fun b => db.isCanonical b.id :=
    hb.oldestTimestamp_eq fun b hmem => hb.isCanonical_eq (block?_eq_some hmem)
  rw [stateActivity, stateActivity, hb.rewardedBlocks_eq, holdest, List.foldl_ext _ _ _ hrow]

/-- The column a file shows is the same. -/
theorem canonicalColumn_eq {id : ℕ} {b : BlockRow} (h : db.block? id = some b) :
    db'.canonicalColumn id = db.canonicalColumn id := by
  rw [canonicalColumn, canonicalColumn, hb.latestStatus_eq h]

theorem blockLines_eq : db'.blockLines = db.blockLines := by
  rw [blockLines, blockLines, hb.archived]
  refine List.map_congr_left fun b hmem => ?_
  obtain ⟨hrow, harch⟩ := List.mem_filter.mp ((List.mem_insertionSort _).mp hmem)
  rw [hb.canonicalColumn_eq (block?_eq_some hrow), hb.transactionsOf_eq hrow harch]

variable (hr : db.Referring)
include hr

/-- **What is spent on record is what was.** -/
theorem spentByRecordedInput_eq : db'.spentByRecordedInput = db.spentByRecordedInput := by
  funext height creationId
  obtain ⟨new, hrows, hall⟩ := hb.inputs
  rw [spentByRecordedInput, spentByRecordedInput, hrows, List.any_append, hb.recordedHeight_eq hr,
    Bool.or_eq_left_iff_imp]
  intro hany
  obtain ⟨i, hi, hp⟩ := List.any_eq_true.mp hany
  have hnone : db.recordedHeight i.txId = none :=
    Option.not_isSome_iff_eq_none.mp (Bool.eq_false_iff.mp (not_counts (hall i hi).2))
  rw [hnone] at hp
  exact absurd (of_decide_eq_true hp).2 Bool.false_ne_true

/-! ## The picture of the live state -/

/-- **The same outputs are unspent.** -/
theorem unspentOutputs_eq : db'.unspentOutputs = db.unspentOutputs := by
  funext height
  rw [unspentOutputs, unspentOutputs, hb.recordedHeight_eq hr, hb.spentByRecordedInput_eq hr]
  refine hb.filter_outputs (fun _ _ => rfl) fun o _ hid _ _ => ?_
  have hnone : db.recordedHeight o.txId = none :=
    Option.not_isSome_iff_eq_none.mp (Bool.eq_false_iff.mp (not_counts hid))
  rw [hnone]
  exact decide_eq_false fun h => Bool.false_ne_true h.1

/-- The slots of the sweep are the same. -/
theorem unspentSlots_eq : db'.unspentSlots = db.unspentSlots := by
  funext height
  rw [unspentSlots, unspentSlots, hb.stateSlots, hb.spentByRecordedInput_eq hr]

/-- The balances are the same. -/
theorem liveBalances_eq : db'.liveBalances = db.liveBalances := by
  have hcoins : db'.liveCoins = db.liveCoins := by
    rw [liveCoins, liveCoins, hb.unspentOutputs_eq hr, hb.unspentSlots_eq hr]
  have hbalance : db'.liveBalance = db.liveBalance := by
    funext a
    rw [liveBalance, liveBalance, hcoins]
  rw [liveBalances, liveBalances, hcoins, hbalance]

/-- The counts of the segments are the same. -/
theorem liveCountPerSegment_eq : db'.liveCountPerSegment = db.liveCountPerSegment := by
  funext height size segment
  rw [liveCountPerSegment, liveCountPerSegment, liveSegments, liveSegments, hb.unspentOutputs_eq hr,
    hb.unspentSlots_eq hr]

theorem unspentRecordedOutputs_eq : db'.unspentRecordedOutputs = db.unspentRecordedOutputs := by
  funext height slots
  rw [unspentRecordedOutputs, unspentRecordedOutputs, hb.unspentOutputs_eq hr]

theorem recordedCreationIds_eq : db'.recordedCreationIds = db.recordedCreationIds := by
  funext slots
  rw [recordedCreationIds, recordedCreationIds, hb.recordedHeight_eq hr]
  refine congrArg _ (hb.filter_outputs (fun _ _ => rfl) fun o _ hid _ _ => ?_)
  exact decide_eq_false fun h => Bool.false_ne_true ((not_counts hid).symm.trans h.2)

theorem knownAddresses_eq : db'.knownAddresses = db.knownAddresses := by
  have hsenders : db'.transactions.rows.filter TransactionRow.recorded
      = db.transactions.rows.filter TransactionRow.recorded :=
    hb.filter_transactions (fun _ _ => rfl) fun t hs _ _ => by
      rw [TransactionRow.recorded, hs]
      rfl
  have howners : (db'.txOutputs.rows.filter fun o => ¬ db'.fromReceipt o.txId)
      = db.txOutputs.rows.filter fun o => ¬ db.fromReceipt o.txId := by
    refine hb.filter_outputs (fun o ho => ?_) fun o hreceipt _ _ _ => ?_
    · rw [hb.fromReceipt_old (hr.lists.outputs o ho)]
    · rw [hreceipt]
      rfl
  rw [knownAddresses, knownAddresses, hsenders, howners, hb.archived]

/-! ## The figures of an address -/

/-- A transaction that counts has its hour. -/
theorem hourOf_eq {txId : ℕ} (h : db.counts txId = true) : db'.hourOf txId = db.hourOf txId := by
  obtain ⟨t, ht⟩ := transaction?_of_counts h
  obtain ⟨b, hblock⟩ := hr.block ht
  obtain ⟨n, hblock'⟩ := hb.block _ b hblock
  rw [hourOf, hourOf, hb.transaction?_old ht, ht, Option.bind_some, Option.bind_some,
    hblock, hblock']
  rfl

/-- An address has received the same outputs. -/
theorem receivedOutputs_eq : db'.receivedOutputs = db.receivedOutputs := by
  funext a
  rw [receivedOutputs, receivedOutputs, hb.counts_eq hr]
  refine hb.filter_outputs (fun _ _ => rfl) fun o _ hid _ _ => ?_
  exact decide_eq_false fun h => Bool.false_ne_true ((not_counts hid).symm.trans h.2)

theorem unspentOf_eq : db'.unspentOf = db.unspentOf := by
  funext a flag
  rw [unspentOf, unspentOf, hb.counts_eq hr, hb.spentByRecordedInput_eq hr]
  refine hb.filter_outputs (fun _ _ => rfl) fun o _ hid _ _ => ?_
  exact decide_eq_false fun h => Bool.false_ne_true ((not_counts hid).symm.trans h.2.1)

/-- It has sent the same transactions. -/
theorem sentTransactions_eq : db'.sentTransactions = db.sentTransactions := by
  funext a
  rw [sentTransactions, sentTransactions, hb.counts_eq hr]
  refine hb.filter_transactions (fun _ _ => rfl) fun t _ hid _ => ?_
  exact decide_eq_false fun h => Bool.false_ne_true ((not_counts hid).symm.trans h.2)

theorem flaggedOutputs_eq : db'.flaggedOutputs = db.flaggedOutputs := by
  funext a
  rw [flaggedOutputs, flaggedOutputs, hb.counts_eq hr]
  refine hb.filter_outputs (fun _ _ => rfl) fun o _ hid _ _ => ?_
  exact decide_eq_false fun h => Bool.false_ne_true ((not_counts hid).symm.trans h.2.2.2)

/-- The output of a receipt has no creation id an input could name. -/
theorem unrecordedInputs_eq : db'.unrecordedInputs = db.unrecordedInputs := by
  funext a
  have hknown : ∀ i : InputRow, (db'.txOutputs.rows.any fun o => o.creationId = some i.creationId)
      = db.txOutputs.rows.any fun o => o.creationId = some i.creationId := by
    intro i
    obtain ⟨new, hrows, hall⟩ := hb.outputs
    rw [hrows, List.any_append, Bool.or_eq_left_iff_imp]
    intro hany
    obtain ⟨o, ho, hp⟩ := List.any_eq_true.mp hany
    exact nomatch (hall o ho).2.1.symm.trans (of_decide_eq_true hp)
  rw [unrecordedInputs, unrecordedInputs, hb.counts_eq hr]
  refine hb.filter_inputs (fun i _ => ?_) fun i hid => ?_
  · rw [hknown]
    refine decide_eq_decide.mpr ?_
    by_cases hc : db.counts i.txId = true
    · rw [hb.senderOf_eq hc]
    · simp [hc]
  · exact decide_eq_false fun h => Bool.false_ne_true ((not_counts hid).symm.trans h.2.1)

/-- **Its balance is the same.** -/
theorem addressBalance_eq : db'.addressBalance = db.addressBalance := by
  funext a
  rw [addressBalance, addressBalance, hb.receivedOutputs_eq hr, hb.unspentOf_eq hr,
    hb.sentTransactions_eq hr, hb.unrecordedInputs_eq hr]

/-- Its history by the hour is the same. -/
theorem balanceChangesByHour_eq : db'.balanceChangesByHour = db.balanceChangesByHour := by
  funext a
  have hreceived : (db.receivedOutputs a).map (fun o => (db'.hourOf o.txId, o.amount))
      = (db.receivedOutputs a).map fun o => (db.hourOf o.txId, o.amount) :=
    List.map_congr_left fun o ho => by
      rw [hb.hourOf_eq hr (of_decide_eq_true (List.mem_filter.mp ho).2).2]
  have hsent : (db.sentTransactions a).map (fun t => (db'.hourOf t.id, t.inputSumMicronoid))
      = (db.sentTransactions a).map fun t => (db.hourOf t.id, t.inputSumMicronoid) :=
    List.map_congr_left fun t ht => by
      rw [hb.hourOf_eq hr (of_decide_eq_true (List.mem_filter.mp ht).2).2]
  rw [balanceChangesByHour, balanceChangesByHour, hb.receivedOutputs_eq hr,
    hb.sentTransactions_eq hr, hb.flaggedOutputs_eq hr, hreceived, hsent]

/-! ## The figures of the archive -/

theorem transactionsSince_eq : db'.transactionsSince = db.transactionsSince := by
  funext unix
  rw [transactionsSince, transactionsSince, hb.counts_eq hr]
  refine hb.filter_transactions (fun t ht => ?_) fun t _ hid _ => ?_
  · obtain ⟨b, hblock⟩ := hr.block (transaction?_eq_some ht)
    obtain ⟨n, hblock'⟩ := hb.block _ b hblock
    rw [hblock, hblock']
    rfl
  · exact decide_eq_false fun h => Bool.false_ne_true ((not_counts hid).symm.trans h.1)

omit hr in
/-- What is counted of transactions is their number less that of the receipts'. -/
theorem indexedTransactions_eq :
    (db'.transactions.rows.length : ℤ) - db'.receiptTransactionCount
      = db.transactions.rows.length - db.receiptTransactionCount := by
  obtain ⟨new, hrows, hall⟩ := hb.transactions
  have hnew : (new.filter fun t => t.source = some receiptSource) = new :=
    List.filter_eq_self.mpr fun t ht => decide_eq_true (hall t ht).1
  rw [receiptTransactionCount, receiptTransactionCount, hrows, List.filter_append, hnew,
    List.length_append, List.length_append]
  omega

/-- **The figures of the archive are the same.** -/
theorem chainStats_eq (nowUnix : ℤ) :
    (db'.chainStats nowUnix).ofArchive = (db.chainStats nowUnix).ofArchive := by
  have hstate : db'.getState = db.getState := by
    funext key
    rw [getState, getState, hb.indexerState]
  have hindexed : (db'.blocks.rows.filter fun b => b.archived ∧ db'.isCanonical b.id)
      = db.blocks.rows.filter fun b => b.archived ∧ db.isCanonical b.id :=
    hb.filter_blocks (fun b h => (of_decide_eq_true h).1) (fun b h => (of_decide_eq_true h).1)
      fun b hmem => by rw [hb.isCanonical_eq (block?_eq_some hmem)]
  have horphaned : (db'.blocks.rows.filter fun b =>
        b.archived ∧ db'.latestStatus b.id = some .orphaned)
      = db.blocks.rows.filter fun b => b.archived ∧ db.latestStatus b.id = some .orphaned :=
    hb.filter_blocks (fun b h => (of_decide_eq_true h).1) (fun b h => (of_decide_eq_true h).1)
      fun b hmem => by rw [hb.latestStatus_eq (block?_eq_some hmem)]
  have hfirst : db'.archiveFirstHeight = db.archiveFirstHeight := by
    rw [archiveFirstHeight, archiveFirstHeight, hb.archived]
  have holdest : (db'.oldestTimestamp fun _ => true) = db.oldestTimestamp fun _ => true :=
    hb.oldestTimestamp_eq fun _ _ => rfl
  have hburned : db'.burnedSince = db.burnedSince := by
    funext unix
    rw [burnedSince, burnedSince, hb.rewardedBlocks_eq]
  simp only [ChainStats.ofArchive, chainStats, indexedTip, hstate, hindexed, horphaned, hfirst,
    holdest, hburned, hb.indexedTransactions_eq, hb.ingestGaps, hb.addressBalanceCache,
    hb.transactionsSince_eq hr, hb.unspentOutputs_eq hr]

/-! ## The export -/

/-- **A recorded transaction and its block**, as before but for that. -/
theorem recordedIn_eq (txId : ℕ) :
    db'.recordedIn txId = (db.recordedIn txId).map (recount db') := by
  have hread : ∀ d : Db, d.recordedIn txId = (d.transaction? txId).bind fun t =>
      (d.block? t.blockId).bind fun b => if t.recorded = true then some (t, b) else none :=
    fun _ => rfl
  rcases ht : db.transaction? txId with _ | t
  · rw [hread, hread, ht]
    rcases ht' : db'.transaction? txId with _ | t
    · rfl
    · rw [Option.bind_some, hb.not_recorded_new ht ht']
      rcases db'.block? t.blockId with _ | b
      · rfl
      · rfl
  · obtain ⟨b, hblock⟩ := hr.block ht
    obtain ⟨n, hblock'⟩ := hb.block _ b hblock
    rw [hread, hread, hb.transaction?_old ht, ht, Option.bind_some, Option.bind_some, hblock,
      hblock', Option.bind_some, Option.bind_some]
    by_cases hrec : t.recorded = true
    · rw [if_pos hrec, if_pos hrec, Option.map_some, recount, hblock']
      rfl
    · rw [if_neg hrec, if_neg hrec]
      rfl

theorem transactionLines_eq : db'.transactionLines = db.transactionLines := by
  have hstate : db'.indexedTip = db.indexedTip := by
    rw [indexedTip, indexedTip, getState, getState, hb.indexerState]
  have hrows : (db'.transactions.rows.filterMap fun t => db'.recordedIn t.id)
      = (db.transactions.rows.filterMap fun t => db.recordedIn t.id).map (recount db') := by
    obtain ⟨new, hnew, hall⟩ := hb.transactions
    have hnil : new.filterMap (fun t => db'.recordedIn t.id) = [] :=
      List.filterMap_eq_nil_iff.mpr fun t ht => by
        rw [hb.recordedIn_eq hr, recordedIn_none (hall t ht).2.1]
        rfl
    rw [hnew, List.filterMap_append, hnil, List.append_nil, List.map_filterMap]
    exact List.filterMap_congr fun t _ => hb.recordedIn_eq hr t.id
  rw [transactionLines, transactionLines]
  refine lines_eq hrows (fun _ => rfl) fun r hmem => ?_
  obtain ⟨t, -, hrec⟩ := List.mem_filterMap.mp hmem
  rw [hstate]
  dsimp only [recount]
  rw [hb.canonicalColumn_eq (block?_of_recordedIn hrec)]

/-- The rows of a list table joined with their recorded transactions. -/
theorem joined_eq {ρ : Type} {l l' new : List ρ} {txId : ρ → ℕ} (h : l' = l ++ new)
    (hnew : ∀ r ∈ new, db.transaction? (txId r) = none) :
    (l'.filterMap fun r => (db'.recordedIn (txId r)).map (r, ·))
      = (l.filterMap fun r => (db.recordedIn (txId r)).map (r, ·)).map fun r =>
        (r.1, recount db' r.2) := by
  have hnil : new.filterMap (fun r => (db'.recordedIn (txId r)).map (r, ·)) = [] :=
    List.filterMap_eq_nil_iff.mpr fun r hmem => by
      rw [hb.recordedIn_eq hr, recordedIn_none (hnew r hmem)]
      rfl
  rw [h, List.filterMap_append, hnil, List.append_nil, List.map_filterMap]
  refine List.filterMap_congr fun r _ => ?_
  rw [hb.recordedIn_eq hr]
  rcases db.recordedIn (txId r) with _ | x
  · rfl
  · rfl

theorem inputLines_eq : db'.inputLines = db.inputLines := by
  obtain ⟨new, hnew, hall⟩ := hb.inputs
  have hrows := hb.joined_eq hr hnew fun i hi => (hall i hi).2
  rw [inputLines, inputLines]
  refine lines_eq hrows (fun _ => rfl) fun r hmem => ?_
  obtain ⟨i, -, hjoin⟩ := List.mem_filterMap.mp hmem
  obtain ⟨⟨t, b⟩, hrec, rfl⟩ := Option.map_eq_some_iff.mp hjoin
  dsimp only [recount]
  rw [hb.canonicalColumn_eq (block?_of_recordedIn hrec)]

theorem outputLines_eq : db'.outputLines = db.outputLines := by
  obtain ⟨new, hnew, hall⟩ := hb.outputs
  have hrows := hb.joined_eq hr hnew fun o ho => (hall o ho).1.2
  rw [outputLines, outputLines, hb.spentByRecordedInput_eq hr]
  refine lines_eq hrows (fun _ => rfl) fun r hmem => ?_
  obtain ⟨o, -, hjoin⟩ := List.mem_filterMap.mp hmem
  obtain ⟨⟨t, b⟩, hrec, rfl⟩ := Option.map_eq_some_iff.mp hjoin
  dsimp only [recount]
  rw [hb.canonicalColumn_eq (block?_of_recordedIn hrec)]

/-! ## The rows that would change -/

theorem clearedRows_eq : db'.clearedRows = db.clearedRows := by
  rw [clearedRows, clearedRows, hb.spentByRecordedInput_eq hr]
  refine hb.filter_outputs (fun _ _ => rfl) fun o _ _ _ hflag => ?_
  exact decide_eq_false fun h => Bool.false_ne_true (hflag.symm.trans h.1)

theorem unmarkedRows_eq : db'.unmarkedRows = db.unmarkedRows := by
  funext slots live
  rw [unmarkedRows, unmarkedRows]
  refine hb.filter_outputs (fun o ho => ?_) fun o _ _ _ hflag => ?_
  · rw [hb.fromReceipt_old (hr.lists.outputs o ho)]
  · exact decide_eq_false fun h => Bool.false_ne_true (hflag.symm.trans h.1)

omit hr in
theorem prunedRows_eq : db'.prunedRows = db.prunedRows := by
  funext cutoff
  have hcandidates : (db'.blocks.rows.filter fun b =>
        b.timestamp.toInt < cutoff ∧ b.bodyCaptured ∧ b.archived)
      = db.blocks.rows.filter fun b => b.timestamp.toInt < cutoff ∧ b.bodyCaptured ∧ b.archived :=
    hb.filter_blocks (fun b h => (of_decide_eq_true h).2.2) (fun b h => (of_decide_eq_true h).2.2)
      fun _ _ => rfl
  rw [prunedRows, prunedRows, pruneCandidates, pruneCandidates, hcandidates]
  refine List.map_congr_left fun id hid => ?_
  obtain ⟨b, hmem, rfl⟩ := List.mem_map.mp hid
  obtain ⟨hrow, hp⟩ := List.mem_filter.mp hmem
  have hgone : ∀ k, db.transaction? k = none →
      k ∉ (db.transactionsOf b.id).map TransactionRow.id := by
    intro k hnone hk
    obtain ⟨t, ht, rfl⟩ := List.mem_map.mp hk
    exact nomatch hnone.symm.trans (transaction?_eq_some (List.mem_filter.mp ht).1)
  rw [rowsOfBlock, rowsOfBlock, hb.transactionsOf_eq hrow (of_decide_eq_true hp).2.2, hb.rawBlocks,
    hb.filter_pageHashes (fun _ _ => rfl) fun r hnone => decide_eq_false (hgone _ hnone),
    hb.filter_inputs (fun _ _ => rfl) fun i hnone => decide_eq_false (hgone _ hnone),
    hb.filter_outputs (fun _ _ => rfl) fun o _ hnone _ _ => decide_eq_false (hgone _ hnone)]

/-- **The recorded history is the same from beside.** -/
theorem recordedHistory_eq : db'.recordedHistory = db.recordedHistory := by
  have hgaps : db'.openGapHeights = db.openGapHeights := by
    funext minHeight
    rw [openGapHeights, openGapHeights, hb.ingestGaps]
  have hstats : (fun nowUnix => (db'.chainStats nowUnix).ofArchive)
      = fun nowUnix => (db.chainStats nowUnix).ofArchive := funext (hb.chainStats_eq hr)
  rw [recordedHistory, recordedHistory, hgaps, hstats, hb.liveBalances_eq hr,
    hb.liveCountPerSegment_eq hr, hb.unspentRecordedOutputs_eq hr, hb.recordedCreationIds_eq hr,
    hb.knownAddresses_eq hr, hb.addressBalance_eq hr, hb.balanceChangesByHour_eq hr,
    hb.burnByBlock_eq, hb.stateActivity_eq, hb.blockLines_eq, hb.transactionLines_eq hr,
    hb.inputLines_eq hr, hb.outputLines_eq hr, hb.clearedRows_eq hr, hb.unmarkedRows_eq hr,
    hb.prunedRows_eq]

end Beside

/-! ## The foreign keys, kept -/

/-- The lists still refer to transactions that are there. -/
theorem Beside.intact (hb : db.Beside db') (h : db.Intact) : db'.Intact := by
  obtain ⟨new, hrows, -⟩ := hb.transactions
  have hold : ∀ {k : ℕ}, (∃ t ∈ db.transactions.rows, t.id = k) →
      ∃ t ∈ db'.transactions.rows, t.id = k := fun ⟨t, ht, hid⟩ =>
    ⟨t, hrows ▸ List.mem_append_left _ ht, hid⟩
  have hnew : ∀ {k : ℕ}, db'.fromReceipt k = true → ∃ t ∈ db'.transactions.rows, t.id = k := by
    intro k hk
    obtain ⟨t, ht, hp⟩ := List.any_eq_true.mp hk
    exact ⟨t, ht, (of_decide_eq_true hp).1⟩
  obtain ⟨hashes, hhashes, hallh⟩ := hb.pageHashes
  obtain ⟨inputs, hinputs, halli⟩ := hb.inputs
  obtain ⟨outputs, houtputs, hallo⟩ := hb.outputs
  refine ⟨fun r hr => ?_, fun r hr => ?_, fun r hr => ?_⟩
  · rw [hhashes] at hr
    rcases List.mem_append.mp hr with hr | hr
    · exact hold (h.pageHashes r hr)
    · exact hnew (hallh r hr).1
  · rw [hinputs] at hr
    rcases List.mem_append.mp hr with hr | hr
    · exact hold (h.inputs r hr)
    · exact hnew (halli r hr).1
  · rw [houtputs] at hr
    rcases List.mem_append.mp hr with hr | hr
    · exact hold (h.outputs r hr)
    · exact hnew (hallo r hr).1.1

/-- So the foreign keys hold as before. -/
theorem Beside.referring (hb : db.Beside db') (h : db.Referring) (hlog : db'.LogRefers) :
    db'.Referring where
  lists := hb.intact h.lists
  log := hlog
  transactions := by
    have hblock : ∀ id b, db.block? id = some b → ∃ b' ∈ db'.blocks.rows, b'.id = id := by
      intro id b hblk
      obtain ⟨n, hblk'⟩ := hb.block id b hblk
      exact ⟨_, mem_of_block? hblk'⟩
    obtain ⟨new, hrows, hall⟩ := hb.transactions
    intro t ht
    rw [hrows] at ht
    rcases List.mem_append.mp ht with ht | ht
    · obtain ⟨b, hmem, hid⟩ := h.transactions t ht
      exact hblock _ b (hid ▸ block?_eq_some hmem)
    · obtain ⟨-, -, hheader⟩ := hall t ht
      rw [isHeaderOnly, Option.any_eq_true] at hheader
      obtain ⟨b, hblk, -⟩ := hheader
      exact hblock _ b hblk

end Db

/-! ## Any number of calls -/

/-- A call of one of the two writers. -/
inductive BesideCall
  | header (h : BlockHeaderInfo) (now : Instant)
  | receipt (blockId : ℕ) (tx : ReceiptTransaction) (now : Instant)

/-- What a call does. -/
def BesideCall.run (db : Db) : BesideCall → Except String Db
  | .header h now => Prod.fst <$> db.insertHeaderOnlyBlock h now
  | .receipt blockId tx now => Prod.fst <$> db.insertReceiptTransaction blockId tx now

/-- **Each of these calls writes beside the archive.** -/
theorem BesideCall.run_beside {db db' : Db} (h : db.Referring) {call : BesideCall}
    (hrun : call.run db = .ok db') : db.Beside db' ∧ db'.Referring := by
  rcases call with ⟨hd, now⟩ | ⟨blockId, tx, now⟩
  · obtain ⟨⟨_, _⟩, hins, rfl⟩ := Outcome.map_ok.mp hrun
    have hb := Db.beside_insertHeaderOnlyBlock hins
    exact ⟨hb, hb.referring h (h.log.insertHeaderOnlyBlock hins)⟩
  · obtain ⟨⟨_, _⟩, hins, rfl⟩ := Outcome.map_ok.mp hrun
    have hb := Db.beside_insertReceiptTransaction hins
    have hkeeps := Db.keepsHeaders_insertReceiptTransaction hins
    exact ⟨hb, hb.referring h (h.log.keepsHeaders hkeeps)⟩

namespace Db

/-- **Header-only blocks and receipts leave the recorded history as it is**, in any number and
order. -/
theorem recordedHistory_insertAll : ∀ {calls : List BesideCall} {db db' : Db}, db.Referring →
    calls.foldlM BesideCall.run db = .ok db' → db'.recordedHistory = db.recordedHistory
  | [], db, db', _, hrun => by
      obtain rfl := Outcome.pure_ok.mp hrun
      rfl
  | call :: calls, db, db', h, hrun => by
      rw [List.foldlM_cons, Outcome.bind_ok] at hrun
      obtain ⟨db₁, h₁, h₂⟩ := hrun
      obtain ⟨hb, hr⟩ := BesideCall.run_beside h h₁
      rw [recordedHistory_insertAll hr h₂, hb.recordedHistory_eq h]

/-- The transaction of a receipt that spends an archive coin, to the owner of another. -/
def strayReceipt : ReceiptTransaction where
  position := 1
  txCount := 2
  txid := "r1"
  pageCount := 1
  feeMicronoid := 0
  epochAnchor := ""
  inputOwner := "alice"
  inputSumMicronoid := "5"
  outputSumMicronoid := "5"
  contractFlags := 0
  pageHashes := []
  inputs := [⟨0, 0, 3, 5, 8⟩]
  outputs := [⟨0, 0, 4, 5, "bob"⟩]
  receiptHex := ""

/-- A header below an archive of two blocks, and a receipt in it. -/
theorem recordedHistory_insertAll_stray : ∃ db',
    [.header (plainHeader 0 "a0" "") 4, .receipt 3 strayReceipt 5].foldlM BesideCall.run settledCoin
        = .ok db'
      ∧ db'.transactions.rows.length = 3 ∧ db'.recordedHistory = settledCoin.recordedHistory := by
  have hreferring : settledCoin.Referring :=
    ⟨⟨by decide +kernel, by decide +kernel, by decide +kernel⟩,
      (by decide +kernel : ∀ s ∈ settledCoin.blockStatusLog.rows, ∃ b ∈ settledCoin.blocks.rows,
        b.id = s.blockId), by decide +kernel⟩
  let run := [.header (plainHeader 0 "a0" "") 4, .receipt 3 strayReceipt 5].foldlM BesideCall.run
    settledCoin
  have hlength : run.toOption.map (fun db => db.transactions.rows.length) = some 3 := by
    decide +kernel
  obtain ⟨db', hrun, hthree⟩ := Option.map_eq_some_iff.mp hlength
  have hok : run = .ok db' := Outcome.mem_toOption.mp hrun
  exact ⟨db', hok, hthree, recordedHistory_insertAll hreferring hok⟩

end Db

end Permanode
