import Permanode.Foundations.Words
import Permanode.Queries.AddUp
import Permanode.System.Issued

/-!
# Live/Segment — one segment, read and committed

A sweep reads a segment slot by slot and commits what it found in one transaction: the sweep's own
slots are replaced, flags on outputs found live are taken back, and the outputs not found are
flagged.  What becomes of an output is `Db.sweptOutput`, of a slot `Db.mem_slots_sweepSegment`.

If the read is one of a chain the permanode has on record (`Db.SegmentRead`), the picture of the
segment is the read, coin for coin (`Db.sweepSegment_exact`), as long as slot indices stay below
`2⁶³`: a column of 64-bit numbers is a signed one, and divided as such.
-/

namespace Permanode

/-! ## The picture of a segment -/

namespace Db

/-- The recorded outputs of the picture that lie in a segment. -/
def segmentOutputs (db : Db) (height : WithTop ℕ) (size segment : UInt64) : List OutputRow :=
  (db.unspentOutputs height).filter fun o => o.slotIndex.toUInt64 / size = segment

/-- The slots of the picture that lie in a segment. -/
def segmentRows (db : Db) (height : WithTop ℕ) (segment : UInt64) : List StateSlotRow :=
  (db.unspentSlots height).filter fun f => f.segment.toUInt64 = segment

/-- The creation ids of the recorded outputs of a segment. -/
def segmentOutputIds (db : Db) (height : WithTop ℕ) (size segment : UInt64) :
    List (Option String) :=
  (db.segmentOutputs height size segment).map OutputRow.creationId

/-- The creation ids of the slots of a segment. -/
def segmentRowIds (db : Db) (height : WithTop ℕ) (segment : UInt64) : List (Option String) :=
  (db.segmentRows height segment).map fun f => some f.creationId

/-- **A read of a segment that fits what is on record**: no creation id twice in the read or among
the recorded outputs of the chain, none of the read spent on record, no recorded output of the
segment above the height of the read, every slot under the segment it lies in. -/
structure SegmentRead (db : Db) (size segment : UInt64) (live : List StateSlot) (startHeight : ℕ) :
    Prop where
  read : (live.map StateSlot.slotIndex).Sublist (segmentSlots segment size).indices
  once : (live.map StateSlot.creationId).Nodup
  recordedOnce : ∀ o ∈ db.txOutputs.rows, ∀ o' ∈ db.txOutputs.rows, db.counts o.txId →
    db.counts o'.txId → o.creationId ≠ none → o.creationId = o'.creationId → o = o'
  unspent : ∀ s ∈ live, db.spentByRecordedInput startHeight (some s.creationId) = false
  low : ∀ o ∈ db.txOutputs.rows, o.slotIndex.toUInt64 / size = segment →
    ∀ h, db.recordedHeight o.txId = some h → h ≤ startHeight
  segments : ∀ f ∈ db.stateSlots.rows, f.segment.toUInt64 = f.slotIndex.toUInt64 / size

/-- Slot indices that a signed column holds as they are. -/
structure SlotsFit (db : Db) (size segment : UInt64) : Prop where
  size_pos : 0 < size.toNat
  end_lt : (segment.toNat + 1) * size.toNat < 2 ^ 63
  outputs : ∀ o ∈ db.txOutputs.rows, db.counts o.txId → 0 ≤ o.slotIndex.toInt

/-- **The picture of a segment is the read, that of every other segment as it was.** -/
structure SegmentExact (db after : Db) (size segment : UInt64) (live : List StateSlot)
    (startHeight : ℕ) : Prop where
  disjoint : (after.segmentOutputIds startHeight size segment).Disjoint
    (after.segmentRowIds startHeight segment)
  exact : (after.segmentOutputIds startHeight size segment
    ++ after.segmentRowIds startHeight segment).Perm (live.map fun s => some s.creationId)
  count : after.liveCountPerSegment startHeight size segment = live.length
  outputs : ∀ k ≠ segment, ∀ height : WithTop ℕ,
    after.segmentOutputs height size k = db.segmentOutputs height size k
  rows : ∀ k ≠ segment, ∀ height : WithTop ℕ, after.segmentRows height k = db.segmentRows height k
  counts : ∀ k ≠ segment, ∀ height : ℕ,
    after.liveCountPerSegment height size k = db.liveCountPerSegment height size k

end Db

/-! ## The slots of a segment -/

section Slots

variable {segment size : UInt64}

theorem toNat_segmentSlots (hpos : 0 < size.toNat)
    (hend : (segment.toNat + 1) * size.toNat < 2 ^ 63) :
    (segmentSlots segment size).start.toNat = segment.toNat * size.toNat
      ∧ (segmentSlots segment size).stop.toNat = (segment.toNat + 1) * size.toNat := by
  have hnext : segment.toNat + 1 ≤ (segment.toNat + 1) * size.toNat :=
    Nat.le_mul_of_pos_right _ hpos
  have hstart : segment.toNat * size.toNat ≤ (segment.toNat + 1) * size.toNat :=
    Nat.mul_le_mul_right _ (Nat.le_succ _)
  have hone : (segment + 1).toNat = segment.toNat + 1 := by
    rw [UInt64.toNat_add, UInt64.toNat_one, Nat.mod_eq_of_lt (by omega)]
  refine ⟨?_, ?_⟩
  · rw [segmentSlots, UInt64.toNat_mul, Nat.mod_eq_of_lt (by omega)]
  · rw [segmentSlots, UInt64.toNat_mul, hone, Nat.mod_eq_of_lt (by omega)]

/-- **A slot is in the range of its segment, and of no other.** -/
theorem holds_segmentSlots (hpos : 0 < size.toNat)
    (hend : (segment.toNat + 1) * size.toNat < 2 ^ 63) {y : Int64} :
    (segmentSlots segment size).holds y = true
      ↔ 0 ≤ y.toInt ∧ y.toUInt64 / size = segment := by
  obtain ⟨hstart, hstop⟩ := toNat_segmentSlots hpos hend
  have hle : segment.toNat * size.toNat ≤ (segment.toNat + 1) * size.toNat :=
    Nat.mul_le_mul_right _ (Nat.le_succ _)
  have hlow := UInt64.toInt_toInt64_of_lt (x := (segmentSlots segment size).start) (by omega)
  have hhigh := UInt64.toInt_toInt64_of_lt (x := (segmentSlots segment size).stop) (by omega)
  rw [SlotRange.holds, decide_eq_true_eq, Int64.le_iff_toInt_le, Int64.lt_iff_toInt_lt, hlow, hhigh,
    hstart, hstop]
  have hquot : 0 ≤ y.toInt → (y.toUInt64 / size = segment
      ↔ segment.toNat * size.toNat ≤ y.toUInt64.toNat
        ∧ y.toUInt64.toNat < (segment.toNat + 1) * size.toNat) := fun _ => by
    rw [← UInt64.toNat_inj, UInt64.toNat_div, Nat.div_eq_iff hpos]
    rw [Nat.add_one_mul]
    omega
  constructor
  · rintro ⟨h₁, h₂⟩
    have hy : 0 ≤ y.toInt := le_trans (by positivity) h₁
    have hnat := Int64.toNat_toUInt64_of_nonneg hy
    exact ⟨hy, (hquot hy).mpr ⟨by omega, by omega⟩⟩
  · rintro ⟨hy, hseg⟩
    have hnat := Int64.toNat_toUInt64_of_nonneg hy
    obtain ⟨h₁, h₂⟩ := (hquot hy).mp hseg
    exact ⟨by omega, by omega⟩

/-- The slots of a range are asked for once each. -/
theorem nodup_indices (slots : SlotRange) : slots.indices.Nodup := by
  refine List.Nodup.map_on (fun i hi j hj h => ?_) List.nodup_range
  have hstop := slots.stop.toNat_lt
  rw [List.mem_range] at hi hj
  have hij := congrArg UInt64.toNat (UInt64.add_right_inj slots.start |>.mp h)
  rwa [UInt64.toNat_ofNat', UInt64.toNat_ofNat', Nat.mod_eq_of_lt (by omega),
    Nat.mod_eq_of_lt (by omega)] at hij

theorem div_of_mem_indices (hpos : 0 < size.toNat)
    (hend : (segment.toNat + 1) * size.toNat < 2 ^ 63) {x : UInt64}
    (hx : x ∈ (segmentSlots segment size).indices) : x / size = segment := by
  obtain ⟨hstart, hstop⟩ := toNat_segmentSlots hpos hend
  obtain ⟨k, hk, rfl⟩ := List.mem_map.mp hx
  rw [List.mem_range, hstart, hstop, Nat.add_one_mul, Nat.add_sub_cancel_left] at hk
  rw [Nat.add_one_mul] at hend
  refine UInt64.toNat_inj.mp ?_
  rw [UInt64.toNat_div, UInt64.toNat_add, hstart, UInt64.toNat_ofNat',
    Nat.mod_eq_of_lt (a := k) (by omega), Nat.mod_eq_of_lt (by omega), Nat.div_eq_iff hpos]
  omega

end Slots

/-! ## What the commit does to an output -/

namespace Db

/-- A flagged output of the range that the read found live. -/
def foundLive (db : Db) (slots : SlotRange) (ids : List String) (o : OutputRow) : Bool :=
  o.spentInGap ∧ slots.holds o.slotIndex ∧ ¬ db.fromReceipt o.txId ∧ o.creationId.any (· ∈ ids)

/-- An output of the range that the picture has and the read did not find. -/
def foundGone (db : Db) (startHeight : ℕ) (slots : SlotRange) (ids : List String) (o : OutputRow) :
    Bool :=
  ((db.recordedHeight o.txId).any (fun h => (h : WithTop ℕ) ≤ (startHeight : WithTop ℕ))
      ∧ o.spentInGap = false ∧ ¬ db.spentByRecordedInput startHeight o.creationId)
    ∧ slots.holds o.slotIndex ∧ ¬ o.creationId.any (· ∈ ids)

/-- What the commit of a segment makes of an output. -/
def sweptOutput (db : Db) (startHeight : ℕ) (slots : SlotRange) (ids : List String) (now : Instant)
    (o : OutputRow) : OutputRow :=
  if db.foundLive slots ids o then o.unflagged
  else if db.foundGone startHeight slots ids o then o.flagged now
  else o

variable {db : Db} {segment : UInt64} {slots : SlotRange} {live : List StateSlot} {startHeight : ℕ}
  {now : Instant}

/-- A row is named by its id. -/
theorem rowid_mem_map_filter {p : OutputRow → Bool} {o : OutputRow} (ho : o ∈ db.txOutputs.rows) :
    o.rowid ∈ (db.txOutputs.rows.filter p).map OutputRow.rowid ↔ p o = true := by
  rw [List.mem_map]
  constructor
  · rintro ⟨o', ho', hid⟩
    obtain ⟨hrow, hp⟩ := List.mem_filter.mp ho'
    rwa [db.txOutputs.eq_of_clash ho hrow (decide_eq_true (Or.inl hid.symm))]
  · exact fun hp => ⟨o, List.mem_filter.mpr ⟨ho, hp⟩, rfl⟩

/-- The outputs the commit flags. -/
theorem rowid_mem_gone {o : OutputRow} (ho : o ∈ db.txOutputs.rows) (ids : List String) :
    o.rowid ∈ ((db.unspentRecordedOutputs startHeight slots).filter fun o =>
        ¬ o.creationId.any (· ∈ ids)).map OutputRow.rowid
      ↔ db.foundGone startHeight slots ids o = true := by
  rw [unspentRecordedOutputs, unspentOutputs, List.filter_filter, List.filter_filter,
    rowid_mem_map_filter ho, Bool.and_eq_true_iff, Bool.and_eq_true_iff, foundGone,
    decide_eq_true_eq, decide_eq_true_eq, decide_eq_true_eq]
  constructor
  · rintro ⟨⟨hany, hholds⟩, hunspent⟩
    exact ⟨hunspent, hholds, hany⟩
  · rintro ⟨hunspent, hholds, hany⟩
    exact ⟨⟨hany, hholds⟩, hunspent⟩

/-- **The outputs after the commit of a segment**, each in its place. -/
theorem txOutputs_sweepSegment :
    (db.sweepSegment segment slots live startHeight now).txOutputs.rows = db.txOutputs.rows.map
      (db.sweptOutput startHeight slots (live.map StateSlot.creationId) now) := by
  let ids := live.map StateSlot.creationId
  let db₁ := (db.replaceStateSlots segment
    (live.filter fun s => s.creationId ∉ db.recordedCreationIds slots) startHeight now
      ).unmarkLiveOutputs slots ids
  let rowids := ((db₁.unspentRecordedOutputs startHeight slots).filter fun o =>
    ¬ o.creationId.any (· ∈ ids)).map OutputRow.rowid
  have hback : db₁.txOutputs.rows
      = db.txOutputs.rows.map (Table.updated (db.foundLive slots ids) OutputRow.unflagged) := rfl
  have hmark : (db.sweepSegment segment slots live startHeight now).txOutputs.rows
      = db₁.txOutputs.rows.map
        (Table.updated (fun o => o.rowid ∈ rowids) (OutputRow.flagged now)) := rfl
  rw [hmark, hback, List.map_map]
  refine List.map_congr_left fun o ho => ?_
  have hrow := hback ▸ List.mem_map_of_mem
    (f := Table.updated (db.foundLive slots ids) OutputRow.unflagged) ho
  have hgone : _ ∈ rowids ↔ db₁.foundGone startHeight slots ids _ = true := rowid_mem_gone hrow ids
  rw [Function.comp, sweptOutput]
  by_cases hlive : db.foundLive slots ids o = true
  · -- the output is live, so the flag taken back is not set again
    have hself : Table.updated (db.foundLive slots ids) OutputRow.unflagged o = o.unflagged :=
      if_pos hlive
    rw [hself] at hgone ⊢
    rw [if_pos hlive]
    refine if_neg fun hmem => ?_
    exact (of_decide_eq_true (hgone.mp (of_decide_eq_true hmem))).2.2
      (of_decide_eq_true hlive).2.2.2
  · have hself : Table.updated (db.foundLive slots ids) OutputRow.unflagged o = o := if_neg hlive
    rw [hself] at hgone ⊢
    rw [if_neg hlive, Table.updated]
    exact if_congr (decide_eq_true_iff.trans hgone) rfl rfl

section SweptOutput

variable {ids : List String} (o : OutputRow)

@[simp] theorem txId_sweptOutput :
    (db.sweptOutput startHeight slots ids now o).txId = o.txId := by
  rw [sweptOutput]
  split_ifs <;> rfl

@[simp] theorem slotIndex_sweptOutput :
    (db.sweptOutput startHeight slots ids now o).slotIndex = o.slotIndex := by
  rw [sweptOutput]
  split_ifs <;> rfl

@[simp] theorem creationId_sweptOutput :
    (db.sweptOutput startHeight slots ids now o).creationId = o.creationId := by
  rw [sweptOutput]
  split_ifs <;> rfl

variable {o}

theorem sweptOutput_of_not_holds (h : ¬ slots.holds o.slotIndex) :
    db.sweptOutput startHeight slots ids now o = o := by
  rw [sweptOutput, if_neg fun hlive => h (of_decide_eq_true hlive).2.1,
    if_neg fun hgone => h (of_decide_eq_true hgone).2.1]

/-- **An output of the chain is unflagged afterwards iff the read found it live.** -/
theorem spentInGap_sweptOutput {height : ℕ} (hheight : db.recordedHeight o.txId = some height)
    (hlow : height ≤ startHeight) (hholds : slots.holds o.slotIndex = true)
    (hspent : db.spentByRecordedInput startHeight o.creationId = false) :
    (db.sweptOutput startHeight slots ids now o).spentInGap = false
      ↔ o.creationId.any (· ∈ ids) = true := by
  have hany : Option.any (fun h => decide (h ≤ (startHeight : WithTop ℕ)))
      (do let a ← db.recordedHeight o.txId; pure (a : WithTop ℕ)) = true :=
    any_recordedHeight.mpr ⟨height, hheight, decide_eq_true (WithTop.coe_le_coe.mpr hlow)⟩
  have hbody := fromReceipt_of_counts (counts_of_any hany)
  simp only [sweptOutput, foundLive, foundGone, hany, hholds, hspent, hbody]
  cases hflag : o.spentInGap <;> cases hid : o.creationId.any (· ∈ ids) <;>
    simp [OutputRow.unflagged, OutputRow.flagged, hflag]

end SweptOutput

/-! ## The picture, coin by coin -/

theorem mem_unspentOutputs {height : WithTop ℕ} {o : OutputRow} :
    o ∈ db.unspentOutputs height ↔ o ∈ db.txOutputs.rows
      ∧ (∃ h : ℕ, db.recordedHeight o.txId = some h ∧ (h : WithTop ℕ) ≤ height)
      ∧ o.spentInGap = false ∧ db.spentByRecordedInput height o.creationId = false := by
  rw [unspentOutputs, List.mem_filter, decide_eq_true_eq, Bool.not_eq_true]
  refine and_congr_right fun _ => and_congr_left fun _ => any_recordedHeight.trans ?_
  exact exists_congr fun h => and_congr_right fun _ => decide_eq_true_iff

/-- An output of the picture counts. -/
theorem counts_of_unspent {height : WithTop ℕ} {o : OutputRow} (h : o ∈ db.unspentOutputs height) :
    db.counts o.txId = true := by
  obtain ⟨-, ⟨a, ha, -⟩, -⟩ := mem_unspentOutputs.mp h
  rw [counts, ha]
  rfl

/-- **The counts of the picture are those of its coins.** -/
theorem liveCountPerSegment_eq_length {size : UInt64} (hsize : size.toNat < 2 ^ 63)
    (hfit : ∀ o ∈ db.txOutputs.rows, db.counts o.txId → 0 ≤ o.slotIndex.toInt) (height : ℕ)
    (k : UInt64) :
    db.liveCountPerSegment height size k
      = (db.segmentOutputs height size k).length + (db.segmentRows height k).length := by
  rw [liveCountPerSegment, liveSegments, List.count_append, segmentOutputs, segmentRows]
  congr 1
  · rw [List.count, List.countP_map, List.countP_eq_length_filter]
    refine congrArg _ (List.filter_congr fun o ho => ?_)
    have hmem := (mem_unspentOutputs.mp ho).1
    rw [Function.comp, Int64.toUInt64_div (hfit o hmem (counts_of_unspent ho)) hsize]
    rfl
  · rw [List.count, List.countP_map, List.countP_eq_length_filter]
    rfl

variable {size : UInt64}

theorem SlotsFit.size_lt (hfit : db.SlotsFit size segment) : size.toNat < 2 ^ 63 := by
  have hle : size.toNat ≤ (segment.toNat + 1) * size.toNat := Nat.le_mul_of_pos_left _ (by omega)
  exact lt_of_le_of_lt hle hfit.end_lt

/-! ## The outputs of the segment -/

section Outputs

variable (hfit : db.SlotsFit size segment) (hread : db.SegmentRead size segment live startHeight)
include hfit hread

/-- **The outputs of the segment afterwards are those the read found live.** -/
theorem mem_segmentOutputs_sweepSegment {o' : OutputRow} :
    o' ∈ (db.sweepSegment segment (segmentSlots segment size) live startHeight now).segmentOutputs
        startHeight size segment
      ↔ ∃ o ∈ db.txOutputs.rows, db.counts o.txId ∧ o.slotIndex.toUInt64 / size = segment
        ∧ o.creationId.any (· ∈ live.map StateSlot.creationId)
        ∧ o' = db.sweptOutput startHeight (segmentSlots segment size)
          (live.map StateSlot.creationId) now o := by
  rw [segmentOutputs, List.mem_filter, mem_unspentOutputs, txOutputs_sweepSegment, List.mem_map,
    decide_eq_true_eq]
  constructor
  · rintro ⟨⟨⟨o, ho, rfl⟩, ⟨h, hh, hle⟩, hflag, hspent⟩, hseg⟩
    rw [txId_sweptOutput] at hh
    rw [creationId_sweptOutput] at hspent
    rw [slotIndex_sweptOutput] at hseg
    have hcounts : db.counts o.txId = true := Option.isSome_iff_exists.mpr ⟨h, hh⟩
    have hholds := (holds_segmentSlots hfit.size_pos hfit.end_lt).mpr
      ⟨hfit.outputs o ho hcounts, hseg⟩
    exact ⟨o, ho, hcounts, hseg, (spentInGap_sweptOutput hh (WithTop.coe_le_coe.mp hle) hholds
      hspent).mp hflag, rfl⟩
  · rintro ⟨o, ho, hcounts, hseg, hlive, rfl⟩
    obtain ⟨h, hh⟩ := Option.isSome_iff_exists.mp hcounts
    have hle := hread.low o ho hseg h hh
    have hholds := (holds_segmentSlots hfit.size_pos hfit.end_lt).mpr
      ⟨hfit.outputs o ho hcounts, hseg⟩
    obtain ⟨c, hc, hmem⟩ := (Option.any_eq_true _ _).mp hlive
    obtain ⟨s, hs, rfl⟩ := List.mem_map.mp (of_decide_eq_true hmem)
    have hspent : db.spentByRecordedInput startHeight o.creationId = false :=
      hc ▸ hread.unspent s hs
    refine ⟨⟨⟨o, ho, rfl⟩, ⟨h, ?_, WithTop.coe_le_coe.mpr hle⟩,
      (spentInGap_sweptOutput hh hle hholds hspent).mpr hlive, ?_⟩, ?_⟩
    · rw [txId_sweptOutput]
      exact hh
    · rw [creationId_sweptOutput]
      exact hspent
    · rw [slotIndex_sweptOutput]
      exact hseg

/-- No id twice among the outputs of the segment afterwards. -/
theorem nodup_segmentOutputIds :
    ((db.sweepSegment segment (segmentSlots segment size) live startHeight now).segmentOutputIds
      startHeight size segment).Nodup := by
  refine List.Nodup.map_on (fun o₁ h₁ o₂ h₂ hid => ?_) ?_
  · obtain ⟨o, ho, hc, -, hlive, rfl⟩ := (mem_segmentOutputs_sweepSegment hfit hread).mp h₁
    obtain ⟨o', ho', hc', -, -, rfl⟩ := (mem_segmentOutputs_sweepSegment hfit hread).mp h₂
    rw [creationId_sweptOutput, creationId_sweptOutput] at hid
    rw [hread.recordedOnce o ho o' ho' hc hc' (fun hnone => ?_) hid]
    rw [hnone] at hlive
    exact Bool.false_ne_true hlive
  · exact ((nodup_outputs _).filter _).filter _

/-- The ids of the segment's outputs afterwards are those of the read that are on record. -/
theorem mem_segmentOutputIds {id : Option String} :
    id ∈ (db.sweepSegment segment (segmentSlots segment size) live startHeight now).segmentOutputIds
        startHeight size segment
      ↔ ∃ s ∈ live, s.creationId ∈ db.recordedCreationIds (segmentSlots segment size)
        ∧ id = some s.creationId := by
  rw [segmentOutputIds, List.mem_map]
  constructor
  · rintro ⟨_, ho', rfl⟩
    obtain ⟨o, ho, hcounts, hseg, hlive, rfl⟩ :=
      (mem_segmentOutputs_sweepSegment hfit hread).mp ho'
    obtain ⟨c, hc, hmem⟩ := (Option.any_eq_true _ _).mp hlive
    obtain ⟨s, hs, rfl⟩ := List.mem_map.mp (of_decide_eq_true hmem)
    rw [creationId_sweptOutput]
    refine ⟨s, hs, List.mem_filterMap.mpr ⟨o, List.mem_filter.mpr ⟨ho, ?_⟩, hc⟩, hc⟩
    exact decide_eq_true ⟨(holds_segmentSlots hfit.size_pos hfit.end_lt).mpr
      ⟨hfit.outputs o ho hcounts, hseg⟩, hcounts⟩
  · rintro ⟨s, hs, hrec, rfl⟩
    obtain ⟨o, ho, hid⟩ := List.mem_filterMap.mp hrec
    obtain ⟨ho, hin⟩ := List.mem_filter.mp ho
    obtain ⟨hholds, hcounts⟩ := of_decide_eq_true hin
    refine ⟨_, (mem_segmentOutputs_sweepSegment hfit hread).mpr ⟨o, ho, hcounts,
      ((holds_segmentSlots hfit.size_pos hfit.end_lt).mp hholds).2, ?_, rfl⟩, ?_⟩
    · rw [hid, Option.any_some]
      exact decide_eq_true (List.mem_map_of_mem hs)
    · rw [creationId_sweptOutput, hid]

end Outputs

/-- The outputs of another segment are as they were. -/
theorem segmentOutputs_sweepSegment_of_ne (hfit : db.SlotsFit size segment) {k : UInt64}
    (hk : k ≠ segment) (height : WithTop ℕ) :
    (db.sweepSegment segment (segmentSlots segment size) live startHeight now).segmentOutputs
      height size k = db.segmentOutputs height size k := by
  rw [segmentOutputs, segmentOutputs, unspentOutputs, unspentOutputs, List.filter_filter,
    List.filter_filter, txOutputs_sweepSegment]
  refine Table.filter_map_of_unseen fun o _ => ?_
  by_cases hseg : o.slotIndex.toUInt64 / size = k
  · refine Or.inl (sweptOutput_of_not_holds fun hholds => hk ?_)
    exact hseg.symm.trans ((holds_segmentSlots hfit.size_pos hfit.end_lt).mp hholds).2
  · rw [slotIndex_sweptOutput, decide_eq_false hseg]
    exact Or.inr ⟨rfl, rfl⟩

/-! ## The slots of the segment -/

section Rows

variable (hfit : db.SlotsFit size segment) (hread : db.SegmentRead size segment live startHeight)
include hfit hread

/-- **The slots after the commit of a segment**: those of other segments, then the foreign ones of
the read. -/
theorem stateSlots_sweepSegment :
    (db.sweepSegment segment (segmentSlots segment size) live startHeight now).stateSlots.rows
      = (db.stateSlots.rows.filter fun f => !decide (f.segment = segment.toInt64))
        ++ (live.filter fun s => s.creationId ∉ db.recordedCreationIds (segmentSlots segment size)
          ).map (stateSlotRow segment startHeight now) := by
  refine Table.rows_upsertAll_of_free ?_ ?_
  · intro r hr f hf
    obtain ⟨s, hs, rfl⟩ := List.mem_map.mp hr
    obtain ⟨hf, hother⟩ := List.mem_filter.mp hf
    have hseg : f.segment ≠ segment.toInt64 := by simpa using hother
    refine decide_eq_false fun hslot => ?_
    have hin := div_of_mem_indices hfit.size_pos hfit.end_lt
      (hread.read.subset (List.mem_map_of_mem (List.mem_filter.mp hs).1))
    refine hseg ?_
    rw [← f.segment.toInt64_toUInt64, hread.segments f hf, hslot, stateSlotRow,
      UInt64.toUInt64_toInt64, hin]
  · have hslots := List.pairwise_map.mp (hread.read.nodup (nodup_indices _))
    refine List.pairwise_map.mpr ((hslots.filter _).imp fun {s s'} hne => ?_)
    refine decide_eq_false fun heq => hne ?_
    rw [← s.slotIndex.toUInt64_toInt64, ← s'.slotIndex.toUInt64_toInt64]
    exact congrArg Int64.toUInt64 heq

/-- The slots of the segment afterwards are the foreign ones of the read. -/
theorem segmentRowIds_sweepSegment :
    (db.sweepSegment segment (segmentSlots segment size) live startHeight now).segmentRowIds
        startHeight segment
      = (live.filter fun s => s.creationId ∉ db.recordedCreationIds (segmentSlots segment size)).map
        fun s => some s.creationId := by
  have hold : (db.stateSlots.rows.filter fun f => !decide (f.segment = segment.toInt64)).filter
      (fun f => decide (f.segment.toUInt64 = segment)
        && decide (¬ db.spentByRecordedInput startHeight (some f.creationId))) = [] := by
    refine List.filter_eq_nil_iff.mpr fun f hf hin => ?_
    have hne : f.segment ≠ segment.toInt64 := by simpa using (List.mem_filter.mp hf).2
    rw [Bool.and_eq_true_iff, decide_eq_true_eq] at hin
    rw [← hin.1, f.segment.toInt64_toUInt64] at hne
    exact hne rfl
  rw [segmentRowIds, segmentRows, unspentSlots, List.filter_filter,
    stateSlots_sweepSegment hfit hread, List.filter_append]
  refine (congrArg (fun l => List.map _ (l ++ _)) hold).trans ?_
  rw [List.nil_append, List.filter_eq_self.mpr, List.map_map]
  · rfl
  · intro f hf
    obtain ⟨s, hs, rfl⟩ := List.mem_map.mp hf
    have hspent := hread.unspent s (List.mem_filter.mp hs).1
    exact Bool.and_eq_true_iff.mpr ⟨decide_eq_true (UInt64.toUInt64_toInt64 segment),
      decide_eq_true (hspent ▸ Bool.false_ne_true)⟩

/-- The slots of another segment are as they were. -/
theorem segmentRows_sweepSegment_of_ne {k : UInt64} (hk : k ≠ segment) (height : WithTop ℕ) :
    (db.sweepSegment segment (segmentSlots segment size) live startHeight now).segmentRows height k
      = db.segmentRows height k := by
  have hnew : ∀ f ∈ (live.filter fun s => s.creationId ∉ db.recordedCreationIds
      (segmentSlots segment size)).map (stateSlotRow segment startHeight now),
      f.segment.toUInt64 = segment := by
    intro f hf
    obtain ⟨s, -, rfl⟩ := List.mem_map.mp hf
    rw [stateSlotRow, UInt64.toUInt64_toInt64]
  rw [segmentRows, segmentRows, unspentSlots, unspentSlots, List.filter_filter, List.filter_filter,
    stateSlots_sweepSegment hfit hread, List.filter_append, List.filter_filter]
  refine Eq.trans (congrArg₂ _ (List.filter_congr fun f _ => ?_)
    (List.filter_eq_nil_iff.mpr fun f hf hin => ?_)) (List.append_nil _)
  · by_cases hseg : f.segment = segment.toInt64
    · rw [hseg, UInt64.toUInt64_toInt64, decide_eq_false (Ne.symm hk), Bool.false_and,
        Bool.false_and, Bool.false_and]
    · rw [decide_eq_false hseg, Bool.not_false, Bool.and_true]
      rfl
  · rw [Bool.and_eq_true_iff, decide_eq_true_eq, hnew f hf] at hin
    exact hk hin.1.symm

end Rows

/-! ## Exactness -/

/-- **The commit of a segment makes the picture of the segment the read**, and leaves that of every
other segment as it was. -/
theorem sweepSegment_exact (hfit : db.SlotsFit size segment)
    (hread : db.SegmentRead size segment live startHeight) :
    db.SegmentExact (db.sweepSegment segment (segmentSlots segment size) live startHeight now) size
      segment live startHeight := by
  let known := fun s : StateSlot => decide
    (s.creationId ∈ db.recordedCreationIds (segmentSlots segment size))
  let after := db.sweepSegment segment (segmentSlots segment size) live startHeight now
  have hrows : after.segmentRowIds startHeight segment
      = (live.filter fun s => !known s).map fun s => some s.creationId := by
    rw [segmentRowIds_sweepSegment hfit hread]
    exact congrArg _ (List.filter_congr fun s _ => decide_not)
  have honce : (live.map fun s => some s.creationId).Nodup := by
    have hids : live.map (fun s => some s.creationId)
      = (live.map StateSlot.creationId).map some := by
      rw [List.map_map]
      rfl
    exact hids ▸ hread.once.map (Option.some_injective _)
  have houtputs : (after.segmentOutputIds startHeight size segment).Perm
      ((live.filter known).map fun s => some s.creationId) := by
    refine (List.perm_ext_iff_of_nodup (nodup_segmentOutputIds hfit hread)
      (honce.sublist (List.filter_sublist.map _))).mpr fun id => ?_
    rw [mem_segmentOutputIds hfit hread, List.mem_map]
    refine exists_congr fun s => ?_
    rw [List.mem_filter, decide_eq_true_eq, and_assoc, @eq_comm _ id]
  have hexact : (after.segmentOutputIds startHeight size segment
      ++ after.segmentRowIds startHeight segment).Perm (live.map fun s => some s.creationId) := by
    rw [hrows]
    refine (houtputs.append_right _).trans ?_
    rw [← List.map_append]
    exact (List.filter_append_perm known live).map _
  have hother : ∀ o ∈ after.txOutputs.rows, after.counts o.txId → 0 ≤ o.slotIndex.toInt := by
    intro o' ho' hcounts
    obtain ⟨o, ho, rfl⟩ := List.mem_map.mp (txOutputs_sweepSegment ▸ ho')
    rw [slotIndex_sweptOutput]
    refine hfit.outputs o ho ?_
    rwa [txId_sweptOutput] at hcounts
  have hcount : ∀ (height : ℕ) (k : UInt64), after.liveCountPerSegment height size k
      = (after.segmentOutputs height size k).length + (after.segmentRows height k).length :=
    liveCountPerSegment_eq_length hfit.size_lt hother
  refine ⟨?_, hexact, ?_, fun k hk => segmentOutputs_sweepSegment_of_ne hfit hk,
    fun k hk => segmentRows_sweepSegment_of_ne hfit hread hk, fun k hk height => ?_⟩
  · exact (List.nodup_append'.mp (hexact.nodup_iff.mpr honce)).2.2
  · have hlength := hexact.length_eq
    rw [List.length_append, segmentOutputIds, segmentRowIds, List.length_map, List.length_map,
      List.length_map] at hlength
    exact (hcount startHeight segment).trans hlength
  · refine (hcount height k).trans ?_
    rw [liveCountPerSegment_eq_length hfit.size_lt hfit.outputs,
      segmentOutputs_sweepSegment_of_ne hfit hk, segmentRows_sweepSegment_of_ne hfit hread hk]

end Db

/-! ## Coins at both ends of a signed column -/

/-- A chain of one block whose coin lies in a slot. -/
def coinAt (slot : UInt64) : Db :=
  (Db.empty.storeBlock ⟨plainHeader 1 "a1" "a0", some { plainBody with
    transactions := plainBody.transactions.map fun t =>
      { t with outputs := [⟨0, 0, slot, 5, "alice", 7⟩] } }⟩ "details" 1).toOption.getD .empty

/-- **A slot index from `2⁶³` on is a negative number in its column**: the coin counts in a segment
it does not lie in, or is not found in the one it lies in. -/
theorem Db.sweepSegment_inexact :
    ((coinAt 18446744073709551611).SegmentRead 8 0 [] 1
      ∧ ¬ (coinAt 18446744073709551611).SegmentExact ((coinAt 18446744073709551611).sweepSegment 0
        (segmentSlots 0 8) [] 1 2) 8 0 [] 1)
    ∧ (coinAt 9223372036854775807).SegmentRead 8 1152921504606846975 [] 1
      ∧ ¬ (coinAt 9223372036854775807).SegmentExact ((coinAt 9223372036854775807).sweepSegment
        1152921504606846975 (segmentSlots 1152921504606846975 8) [] 1 2) 8
        1152921504606846975 [] 1 := by
  refine ⟨⟨⟨List.nil_sublist _, List.nodup_nil, by decide +kernel, nofun, ?_, by decide +kernel⟩,
    ?_⟩, ⟨List.nil_sublist _, List.nodup_nil, by decide +kernel, nofun, ?_, by decide +kernel⟩, ?_⟩
  · have hnone : ∀ o ∈ (coinAt 18446744073709551611).txOutputs.rows,
        o.slotIndex.toUInt64 / 8 ≠ 0 := by decide +kernel
    exact fun o ho hseg => absurd hseg (hnone o ho)
  · exact fun h => absurd h.count (by decide +kernel)
  · have hone : ∀ o ∈ (coinAt 9223372036854775807).txOutputs.rows,
        (coinAt 9223372036854775807).recordedHeight o.txId = some 1 := by decide +kernel
    intro o ho _ h hh
    rw [hone o ho] at hh
    exact (Option.some.inj hh).ge
  · exact fun h => absurd h.count (by decide +kernel)

/-- The coin on record and a slot no longer live; the read finds the coin and another slot. -/
theorem Db.sweepSegment_exact_coinAt :
    ((coinAt 3).replaceStateSlots 0 [⟨6, "9", "bob", 1⟩] 1 1).SegmentExact
      (((coinAt 3).replaceStateSlots 0 [⟨6, "9", "bob", 1⟩] 1 1).sweepSegment 0 (segmentSlots 0 8)
        [⟨3, "7", "alice", 5⟩, ⟨5, "8", "bob", 2⟩] 1 2) 8 0
      [⟨3, "7", "alice", 5⟩, ⟨5, "8", "bob", 2⟩] 1 := by
  refine Db.sweepSegment_exact ⟨by decide, by decide, by decide +kernel⟩
    ⟨by decide +kernel, by decide +kernel, by decide +kernel, by decide +kernel, ?_,
      by decide +kernel⟩
  have hone : ∀ o ∈ ((coinAt 3).replaceStateSlots 0 [⟨6, "9", "bob", 1⟩] 1 1).txOutputs.rows,
      ((coinAt 3).replaceStateSlots 0 [⟨6, "9", "bob", 1⟩] 1 1).recordedHeight o.txId = some 1 := by
    decide +kernel
  intro o ho _ h hh
  rw [hone o ho] at hh
  exact (Option.some.inj hh).ge

end Permanode
