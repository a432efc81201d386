import Mathlib.Algebra.BigOperators.Group.List.Lemmas
import Permanode.Foundations.Joins
import Permanode.Queries.AddUp
import Permanode.Queries.Stats

/-!
# Queries/Unspent — one set of unspent outputs, in four queries

    live_utxos · address_balance · live_count_per_segment · outputs.csv

each join outputs with transactions and blocks in their own words.  A join on unique ids gives an
output at most one block (`Db.filter_joinBlocks`), so the four queries select the same outputs
(`Db.unspent_views`): what differs between them is how the rows are bounded, grouped and ordered.
-/

namespace Permanode

namespace Db

/-! ## The joins -/

/-- `… JOIN transactions t ON t.id = ….tx_id JOIN blocks b ON b.id = t.block_id`. -/
def joinBlocks {α : Type} (db : Db) (txId : α → ℕ) (rows : List α) :
    List ((α × TransactionRow) × BlockRow) :=
  joinOn (joinOn rows db.transactions.rows txId TransactionRow.id) db.blocks.rows
    (fun x => x.2.blockId) BlockRow.id

/-- The rows of `joinBlocks` without their transactions and blocks. -/
def selected {α : Type} (rows : List ((α × TransactionRow) × BlockRow)) : List α :=
  (rows.map Prod.fst).map Prod.fst

variable {db : Db}

theorem nodup_blockIds (db : Db) : (db.blocks.rows.map BlockRow.id).Nodup :=
  List.pairwise_map.mpr (db.blocks.unique.imp fun h hid => by simp [Row.clash, hid] at h)

/-- **A row is in at most one block.** -/
theorem joinBlocks_eq {α : Type} (txId : α → ℕ) (rows : List α) :
    db.joinBlocks txId rows
      = (rows.filterMap fun a => (db.transaction? (txId a)).map (a, ·)).filterMap
          fun x => (db.block? x.2.blockId).map (x, ·) := by
  rw [joinBlocks, joinOn_eq_filterMap db.nodup_blockIds,
    joinOn_eq_filterMap db.nodup_transactionIds]
  rfl

/-- A condition on row, transaction and block is one on the row. -/
theorem selected_filter {α : Type} (txId : α → ℕ) (rows : List α)
    (q : (α × TransactionRow) × BlockRow → Bool) :
    selected ((db.joinBlocks txId rows).filter q) = rows.filter fun a =>
      (db.transaction? (txId a)).any fun t => (db.block? t.blockId).any fun b => q ((a, t), b) := by
  rw [selected, joinBlocks_eq, map_fst_filter_partner, map_fst_filter_partner]

/-- **Rows of recorded transactions of canonical blocks**, of a bounded height. -/
theorem selected_filter_recorded {α : Type} (txId : α → ℕ) (rows : List α) (p : α → Prop)
    [DecidablePred p] (height : WithTop ℕ) {q : (α × TransactionRow) × BlockRow → Bool}
    (hq : ∀ a t b, q ((a, t), b) = true
      ↔ p a ∧ (b.height : WithTop ℕ) ≤ height ∧ t.recorded = true ∧ db.isCanonical b.id = true) :
    selected ((db.joinBlocks txId rows).filter q)
      = rows.filter fun a =>
        p a ∧ (db.recordedHeight (txId a)).any fun h => (h : WithTop ℕ) ≤ height := by
  rw [selected_filter]
  refine List.filter_congr fun a _ => ?_
  have hread : db.recordedHeight (txId a) = (db.transaction? (txId a)).bind fun t =>
      (db.block? t.blockId).bind fun b =>
        if t.recorded = true ∧ db.isCanonical b.id = true then some b.height else none := rfl
  rw [Bool.eq_iff_iff, decide_eq_true_eq, any_recordedHeight, hread]
  rcases db.transaction? (txId a) with _ | t
  · simp
  rw [Option.any_some, Option.bind_some]
  rcases db.block? t.blockId with _ | b
  · simp
  rw [Option.any_some, Option.bind_some, hq]
  by_cases hc : t.recorded = true ∧ db.isCanonical b.id = true
  · simp [hc]
  · simp [hc]

/-- `EXISTS (SELECT 1 FROM … JOIN … WHERE …)`. -/
theorem any_joinBlocks {α : Type} (txId : α → ℕ) (rows : List α) (p : α → Prop)
    [DecidablePred p] (height : WithTop ℕ) {q : (α × TransactionRow) × BlockRow → Bool}
    (hq : ∀ a t b, q ((a, t), b) = true
      ↔ p a ∧ (b.height : WithTop ℕ) ≤ height ∧ t.recorded = true ∧ db.isCanonical b.id = true) :
    (db.joinBlocks txId rows).any q
      = rows.any fun a =>
        p a ∧ (db.recordedHeight (txId a)).any fun h => (h : WithTop ℕ) ≤ height := by
  have hany : ∀ {β : Type} (l : List β) (r : β → Bool),
    l.any r = (l.filter r).any fun _ => true := by
    intro β l r
    simp only [List.any_filter, Bool.and_true]
  have hselected : ∀ l : List ((α × TransactionRow) × BlockRow),
      (l.any fun _ => true) = (selected l).any fun _ => true := by
    intro l
    rw [selected, List.any_map, List.any_map]
    rfl
  rw [hany, hselected, selected_filter_recorded txId rows p height hq, ← hany]

/-! ## The four queries -/

/-- `EXISTS` of a recorded input of a canonical block that spends a coin. -/
def existsSpend (db : Db) (creationId : Option String) : Bool :=
  (db.joinBlocks InputRow.txId db.txInputs.rows).any fun ((i, t₂), b₂) =>
    some i.creationId = creationId ∧ t₂.recorded ∧ db.isCanonical b₂.id

/-- The same up to a height, as `not_spent_by_recorded_input` asks it. -/
def existsSpendUpTo (db : Db) (height : ℕ) (creationId : Option String) : Bool :=
  (db.joinBlocks InputRow.txId db.txInputs.rows).any fun ((i, t₂), b₂) =>
    some i.creationId = creationId ∧ b₂.height ≤ height ∧ t₂.recorded ∧ db.isCanonical b₂.id

/-- The rows `chain_stats` counts as `live_utxos`. -/
def liveUtxosQuery (db : Db) : List ((OutputRow × TransactionRow) × BlockRow) :=
  (db.joinBlocks OutputRow.txId db.txOutputs.rows).filter fun ((o, t), b) =>
    t.recorded ∧ db.isCanonical b.id ∧ o.spentInGap = false ∧ ¬ db.existsSpend o.creationId

/-- The rows of `unspent_sql` in `address_balance`. -/
def unspentQuery (db : Db) (address : String) (spentInGap : Bool) :
    List ((OutputRow × TransactionRow) × BlockRow) :=
  (db.joinBlocks OutputRow.txId db.txOutputs.rows).filter fun ((o, t), b) =>
    o.owner = address ∧ t.recorded ∧ db.isCanonical b.id ∧ o.spentInGap = spentInGap
      ∧ ¬ db.existsSpend o.creationId

/-- The rows the first query of `live_count_per_segment` groups. -/
def segmentQuery (db : Db) (height : ℕ) : List ((OutputRow × TransactionRow) × BlockRow) :=
  (db.joinBlocks OutputRow.txId db.txOutputs.rows).filter fun ((o, t), b) =>
    b.height ≤ height ∧ o.spentInGap = false ∧ t.recorded ∧ db.isCanonical b.id
      ∧ ¬ db.existsSpendUpTo height o.creationId

/-- The rows of `outputs.csv`, before they are put in order. -/
def outputsQuery (db : Db) : List ((OutputRow × TransactionRow) × BlockRow) :=
  (db.joinBlocks OutputRow.txId db.txOutputs.rows).filter fun ((_, t), _) => t.recorded

/-! ## What they select -/

theorem existsSpend_eq (creationId : Option String) :
    db.existsSpend creationId = db.spentByRecordedInput ⊤ creationId :=
  any_joinBlocks InputRow.txId db.txInputs.rows (fun i => some i.creationId = creationId) ⊤
    fun i t b => by simp

theorem existsSpendUpTo_eq (height : ℕ) (creationId : Option String) :
    db.existsSpendUpTo height creationId = db.spentByRecordedInput height creationId :=
  any_joinBlocks InputRow.txId db.txInputs.rows (fun i => some i.creationId = creationId) height
    fun i t b => by simp

/-- No bound on the height: a transaction counts. -/
theorem any_le_top {txId : ℕ} :
    (Option.any (fun h : WithTop ℕ => decide (h ≤ ⊤))
      (do let a ← db.recordedHeight txId; pure (a : WithTop ℕ))) = db.counts txId := by
  rw [counts]
  rcases db.recordedHeight txId with _ | h
  · rfl
  · exact decide_eq_true (le_top (a := (h : WithTop ℕ)))

theorem selected_liveUtxosQuery : selected db.liveUtxosQuery = db.unspentOutputs ⊤ :=
  (selected_filter_recorded OutputRow.txId db.txOutputs.rows (fun o =>
    o.spentInGap = false ∧ ¬ db.spentByRecordedInput ⊤ o.creationId = true) ⊤ fun o t b => by
      simp only [existsSpend_eq, decide_eq_true_eq, le_top, true_and]
      tauto).trans <| List.filter_congr fun _ _ => decide_eq_decide.mpr and_comm

theorem selected_segmentQuery (height : ℕ) :
    selected (db.segmentQuery height) = db.unspentOutputs height :=
  (selected_filter_recorded OutputRow.txId db.txOutputs.rows (fun o =>
    o.spentInGap = false ∧ ¬ db.spentByRecordedInput height o.creationId = true) height
    fun o t b => by
      simp only [existsSpendUpTo_eq, decide_eq_true_eq, Nat.cast_le]
      tauto).trans <| List.filter_congr fun _ _ => decide_eq_decide.mpr and_comm

theorem selected_unspentQuery (address : String) (spentInGap : Bool) :
    selected (db.unspentQuery address spentInGap) = db.unspentOf address spentInGap :=
  (selected_filter_recorded OutputRow.txId db.txOutputs.rows (fun o => o.owner = address
    ∧ o.spentInGap = spentInGap ∧ ¬ db.spentByRecordedInput ⊤ o.creationId = true) ⊤
    fun o t b => by
      simp only [existsSpend_eq, decide_eq_true_eq, le_top, true_and]
      tauto).trans <| List.filter_congr fun _ _ => decide_eq_decide.mpr (by
        rw [any_le_top]
        tauto)

/-- The export joins by the same ids. -/
theorem outputsQuery_eq : db.outputsQuery.map (fun r => (r.1.1, r.1.2, r.2))
    = db.txOutputs.rows.filterMap fun o => (db.recordedIn o.txId).map (o, ·) := by
  rw [outputsQuery, joinBlocks_eq, List.filterMap_filterMap, List.filter_filterMap,
    List.map_filterMap]
  refine List.filterMap_congr fun o _ => ?_
  have hread : db.recordedIn o.txId = (db.transaction? o.txId).bind fun t =>
      (db.block? t.blockId).bind fun b => if t.recorded = true then some (t, b) else none := rfl
  rw [hread]
  rcases db.transaction? o.txId with _ | t
  · rfl
  rw [Option.map_some, Option.bind_some, Option.bind_some]
  rcases db.block? t.blockId with _ | b
  · rfl
  by_cases hr : t.recorded = true
  · simp [hr]
  · simp [hr]

/-! ## The recorded part of the segments -/

/-- `slot_index / segment_size` as it is read from a row: no integer where the size is zero, nor at
the one quotient that does not fit. -/
def segmentOf (segmentSize : UInt64) (slotIndex : Int64) : Except String UInt64 :=
  if segmentSize.toInt64 = 0 then .error "Invalid column type Null"
  else if slotIndex = Int64.minValue ∧ segmentSize.toInt64 = -1 then .error Sql.realError
  else .ok (slotIndex / segmentSize.toInt64).toUInt64

/-- The first of the two maps `live_count_per_segment` adds up. -/
def recordedPerSegment (db : Db) (height : ℕ) (segmentSize : UInt64) :
    Except String (List (UInt64 × ℕ)) := do
  let segments ← (selected (db.segmentQuery height)).mapM fun o => segmentOf segmentSize o.slotIndex
  return segments.dedup.map fun s => (s, segments.count s)

variable {height : ℕ} {segmentSize : UInt64} {groups : List (UInt64 × ℕ)}

theorem eq_of_segmentOf {slotIndex : Int64} {s : UInt64}
    (h : segmentOf segmentSize slotIndex = .ok s) :
    s = (slotIndex / segmentSize.toInt64).toUInt64 := by
  unfold segmentOf at h
  split_ifs at h
  exact (Except.ok.inj h).symm

/-- The groups of the segments of the unspent outputs. -/
theorem recordedPerSegment_ok (h : db.recordedPerSegment height segmentSize = .ok groups) :
    ∃ segments : List UInt64, segments = (db.unspentOutputs height).map
        (fun o => (o.slotIndex / segmentSize.toInt64).toUInt64)
      ∧ groups = segments.dedup.map fun s => (s, segments.count s) := by
  obtain ⟨segments, hsegments, hgroups⟩ := Outcome.bind_ok.mp h
  rw [selected_segmentQuery] at hsegments
  exact ⟨segments, (List.map_id _).symm.trans <|
    Outcome.map_of_mapM_ok (fun o s hs => eq_of_segmentOf hs) hsegments,
    (Outcome.pure_ok.mp hgroups).symm⟩

/-- **The recorded part of a segment's count**: the rest are the sweep's own slots. -/
theorem mem_recordedPerSegment (h : db.recordedPerSegment height segmentSize = .ok groups)
    {s : UInt64} {n : ℕ} : (s, n) ∈ groups ↔ 0 < n ∧ db.liveCountPerSegment height segmentSize s
      = n + ((db.unspentSlots height).map fun f => f.segment.toUInt64).count s := by
  obtain ⟨segments, hsegments, rfl⟩ := recordedPerSegment_ok h
  rw [liveCountPerSegment, liveSegments, ← hsegments, List.count_append, Nat.add_right_cancel_iff]
  constructor
  · intro hmem
    obtain ⟨s', hs', heq⟩ := List.mem_map.mp hmem
    obtain ⟨rfl, rfl⟩ := Prod.mk.inj heq
    exact ⟨List.count_pos_iff.mpr (List.mem_dedup.mp hs'), rfl⟩
  · rintro ⟨hpos, rfl⟩
    exact List.mem_map.mpr ⟨s, List.mem_dedup.mpr (List.count_pos_iff.mp hpos), rfl⟩

theorem sum_recordedPerSegment (h : db.recordedPerSegment height segmentSize = .ok groups) :
    (groups.map Prod.snd).sum = (db.unspentOutputs height).length := by
  obtain ⟨segments, hsegments, rfl⟩ := recordedPerSegment_ok h
  rw [List.map_map]
  refine (List.sum_map_count_dedup_eq_length segments).trans ?_
  rw [hsegments, List.length_map]

/-- A positive size is divided by. -/
theorem exists_recordedPerSegment (h : 0 < segmentSize.toInt64) :
    ∃ groups, db.recordedPerSegment height segmentSize = .ok groups := by
  have hzero : ¬ segmentSize.toInt64 = 0 := fun h0 => absurd (h0 ▸ h) (by decide)
  have hneg : ¬ segmentSize.toInt64 = -1 := fun h1 => absurd (h1 ▸ h) (by decide)
  have hread : ∀ o o' : OutputRow, o = o' → segmentOf segmentSize o.slotIndex
      = .ok ((fun o : OutputRow => (o.slotIndex / segmentSize.toInt64).toUInt64) o') := by
    rintro o _ rfl
    rw [segmentOf, if_neg hzero, if_neg fun hmin => hneg hmin.2]
  exact ⟨_, Outcome.bind_ok.mpr ⟨_, Outcome.mapM_ok_of_forall₂ hread (List.forall₂_refl _), rfl⟩⟩

/-- A transaction that counts has a block. -/
theorem exists_block_of_recordedHeight {txId h : ℕ} (hh : db.recordedHeight txId = some h) :
    ∃ b ∈ db.blocks.rows, b.height = h := by
  obtain ⟨t, -, hh⟩ := Option.bind_eq_some_iff.mp hh
  obtain ⟨b, hb, hh⟩ := Option.bind_eq_some_iff.mp hh
  split_ifs at hh
  exact ⟨b, (mem_of_block? hb).1, Option.some.inj hh⟩

/-- **A height at or above every block is no bound.** -/
theorem unspentOutputs_of_forall_le (h : ∀ b ∈ db.blocks.rows, b.height ≤ height) :
    db.unspentOutputs height = db.unspentOutputs ⊤ := by
  have hbound : ∀ txId, (Option.any (fun h : WithTop ℕ => decide (h ≤ (height : WithTop ℕ)))
      (do let a ← db.recordedHeight txId; pure (a : WithTop ℕ)))
      = (Option.any (fun h : WithTop ℕ => decide (h ≤ (⊤ : WithTop ℕ)))
        (do let a ← db.recordedHeight txId; pure (a : WithTop ℕ))) := by
    intro txId
    rcases hread : db.recordedHeight txId with _ | a
    · rfl
    · obtain ⟨b, hb, rfl⟩ := exists_block_of_recordedHeight hread
      exact decide_eq_decide.mpr (iff_of_true (Nat.cast_le.mpr (h b hb))
        (le_top (a := (b.height : WithTop ℕ))))
  have hspent : ∀ creationId,
      db.spentByRecordedInput height creationId = db.spentByRecordedInput ⊤ creationId := by
    intro creationId
    simp only [spentByRecordedInput, hbound]
  simp only [unspentOutputs, hbound, hspent]

/-! ## The balances of all owners -/

/-- Every owner of an output on record. -/
def owners (db : Db) : List String := (db.txOutputs.rows.map OutputRow.owner).dedup

/-- An address's unspent outputs are those of the whole picture it owns. -/
theorem unspentOf_eq (address : String) :
    db.unspentOf address false = (db.unspentOutputs ⊤).filter fun o => o.owner = address := by
  rw [unspentOf, unspentOutputs, List.filter_filter]
  refine List.filter_congr fun o _ => ?_
  rw [any_le_top, Bool.eq_iff_iff]
  simp only [Bool.and_eq_true, decide_eq_true_eq]

theorem length_selected {α : Type} (rows : List ((α × TransactionRow) × BlockRow)) :
    (selected rows).length = rows.length := by
  rw [selected, List.length_map, List.length_map]

theorem confirmedUtxos_of_ok {address : String} {bal : AddressBalance}
    (h : db.addressBalance address = .ok bal) :
    bal.confirmedUtxos = (db.unspentQuery address false).length := by
  rw [← length_selected, selected_unspentQuery]
  simp only [addressBalance, Outcome.bind_ok, Outcome.pure_ok] at h
  obtain ⟨_, -, _, -, _, -, _, -, _, -, rfl⟩ := h
  rfl

theorem sum_confirmedUtxos {bals : List AddressBalance}
    (h : db.owners.mapM db.addressBalance = .ok bals) :
    (bals.map AddressBalance.confirmedUtxos).sum = (db.unspentOutputs ⊤).length := by
  have hlengths : bals.map AddressBalance.confirmedUtxos = db.owners.map fun a =>
      ((db.unspentOutputs ⊤).filter fun o => o.owner = a).length :=
    Outcome.map_of_mapM_ok (fun a bal hbal => by
      rw [confirmedUtxos_of_ok hbal, ← length_selected, selected_unspentQuery, unspentOf_eq]) h
  rw [hlengths]
  refine sum_length_groups (List.nodup_dedup _) OutputRow.owner fun o ho => ?_
  exact List.mem_dedup.mpr (List.mem_map_of_mem (List.mem_filter.mp ho).1)

theorem liveUtxos_chainStats (db : Db) (now : ℤ) :
    (db.chainStats now).liveUtxos = db.liveUtxosQuery.length := by
  rw [← length_selected, selected_liveUtxosQuery]
  rfl

/-! ## The export -/

/-- The rows of `outputs.csv` its notes call unspent. -/
def exportedUnspent (db : Db) : List OutputLine :=
  db.outputLines.filter fun l => l.canonical = some true ∧ l.spent = false ∧ l.spentInGap = false

theorem selected_filter_outputsQuery {q : (OutputRow × TransactionRow) × BlockRow → Bool}
    (hq : ∀ o t b, q ((o, t), b) = true ↔ db.isCanonical b.id = true
      ∧ db.spentByRecordedInput ⊤ o.creationId = false ∧ o.spentInGap = false) :
    selected (db.outputsQuery.filter q) = db.unspentOutputs ⊤ := by
  rw [outputsQuery, List.filter_filter]
  refine (selected_filter_recorded OutputRow.txId db.txOutputs.rows
    (fun o => o.spentInGap = false ∧ ¬ db.spentByRecordedInput ⊤ o.creationId = true) ⊤
    fun o t b => ?_).trans <| List.filter_congr fun _ _ => decide_eq_decide.mpr and_comm
  rw [Bool.and_eq_true, hq, Bool.not_eq_true]
  simp only [le_top, true_and]
  tauto

/-- **The export's unspent rows are the unspent outputs**, in another order. -/
theorem exportedUnspent_perm (db : Db) :
    (db.exportedUnspent.map fun l => (l.address, l.amount)).Perm
      ((db.unspentOutputs ⊤).map fun o => (o.owner, o.amountMicronoid)) := by
  rw [exportedUnspent, outputLines, ← outputsQuery_eq, List.filter_map, List.map_map]
  refine (((List.perm_insertionSort _ _).filter _).map _).trans (.of_eq ?_)
  rw [List.filter_map, List.map_map, ← selected_filter_outputsQuery fun o t b => ?_, selected,
    List.map_map, List.map_map]
  · rfl
  · simp [canonicalColumn, isCanonical]

/-- The amounts of an owner's unspent rows. -/
theorem sum_exportedUnspent (owner : String) :
    ((db.exportedUnspent.filter fun l => l.address = owner).map fun l => l.amount.toInt).sum
      = ((db.unspentOf owner false).map OutputRow.amount).sum := by
  have hperm := ((exportedUnspent_perm db).filter fun x => x.1 = owner).map fun x => x.2.toInt
  rw [List.filter_map, List.filter_map, List.map_map, List.map_map] at hperm
  rw [unspentOf_eq]
  exact hperm.sum_eq

/-! ## One set -/

/-- **All views of the unspent recorded outputs agree** with the unspent rows of the export: the
number `chain_stats` reports, the numbers of all addresses, the recorded part of the segments at a
height at or above every block, and address by address the confirmed balance. -/
theorem unspent_views (db : Db) :
    (∀ now, (db.chainStats now).liveUtxos = db.exportedUnspent.length)
      ∧ (∀ bals, db.owners.mapM db.addressBalance = .ok bals →
        (bals.map AddressBalance.confirmedUtxos).sum = db.exportedUnspent.length)
      ∧ (∀ height segmentSize, (∀ b ∈ db.blocks.rows, b.height ≤ height) →
        (0 < segmentSize.toInt64 → ∃ groups, db.recordedPerSegment height segmentSize = .ok groups)
        ∧ ∀ groups, db.recordedPerSegment height segmentSize = .ok groups →
          (groups.map Prod.snd).sum = db.exportedUnspent.length)
      ∧ ∀ owner bal, db.addressBalance owner = .ok bal → bal.confirmedBalance
        = ((db.exportedUnspent.filter fun l => l.address = owner).map
            fun l => l.amount.toInt).sum := by
  have hlength : db.exportedUnspent.length = (db.unspentOutputs ⊤).length := by
    have h := (exportedUnspent_perm db).length_eq
    rwa [List.length_map, List.length_map] at h
  refine ⟨fun now => ?_, fun bals h => ?_, fun height segmentSize hall => ?_,
    fun owner bal h => ?_⟩
  · rw [liveUtxos_chainStats, ← length_selected, selected_liveUtxosQuery, hlength]
  · rw [sum_confirmedUtxos h, hlength]
  · refine ⟨exists_recordedPerSegment, fun groups h => ?_⟩
    rw [sum_recordedPerSegment h, unspentOutputs_of_forall_le hall, hlength]
  · rw [sum_exportedUnspent, (addressBalance_ok h).2.1]

end Db

/-- The views of a coin received and spent, with the change unspent. -/
theorem Db.unspent_views_settled : settledCoin.exportedUnspent.length = 1
    ∧ (settledCoin.chainStats 10).liveUtxos = settledCoin.exportedUnspent.length
    ∧ (∃ bals, settledCoin.owners.mapM settledCoin.addressBalance = .ok bals
      ∧ (bals.map AddressBalance.confirmedUtxos).sum = settledCoin.exportedUnspent.length)
    ∧ (∃ groups, settledCoin.recordedPerSegment 2 4 = .ok groups
      ∧ (groups.map Prod.snd).sum = settledCoin.exportedUnspent.length)
    ∧ ∃ bal, settledCoin.addressBalance "bob" = .ok bal ∧ bal.confirmedBalance
      = ((settledCoin.exportedUnspent.filter fun l => l.address = "bob").map fun l =>
        l.amount.toInt).sum := by
  have hbals : settledCoin.owners.mapM settledCoin.addressBalance
      = .ok [⟨0, 0, 5, 5, 0, 0, 0⟩, ⟨5, 1, 5, 0, 0, 0, 0⟩] := by decide +kernel
  have hbal : settledCoin.addressBalance "bob" = .ok ⟨5, 1, 5, 0, 0, 0, 0⟩ := by decide +kernel
  obtain ⟨hlive, hsum, hsegments, hconfirmed⟩ := Db.unspent_views settledCoin
  obtain ⟨hanswers, hcounts⟩ := hsegments 2 4 (by decide +kernel)
  obtain ⟨groups, hgroups⟩ := hanswers (by decide)
  exact ⟨by decide +kernel, hlive 10, ⟨_, hbals, hsum _ hbals⟩,
    ⟨groups, hgroups, hcounts _ hgroups⟩, _, hbal, hconfirmed _ _ hbal⟩

end Permanode
