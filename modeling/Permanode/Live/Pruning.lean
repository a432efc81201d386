import Permanode.Queries.Hours
import Permanode.Queries.Orphaned

/-!
# Live/Pruning — what pruning does to the picture

`prune_older_than` deletes the inputs of old blocks, and whether a coin is spent is told by the
inputs on record.  A coin of the picture before pruning stays one or goes with its block; one that
was spent comes back exactly if

    its only recorded spends go  ·  its output or its `state_slots` row stays

(`Db.pruneOlderThan_revives_none_iff`).
-/

namespace Permanode

open Prog

namespace Db

/-! ## Pruning -/

/-- The blocks of a list pruned one after the other, each in a transaction of its own: an error
leaves the rest. -/
def pruneBlocks : List ℕ → Db → Db
  | [], db => db
  | id :: ids, db =>
    match db.pruneBlock id with
    | .ok db' => pruneBlocks ids db'
    | .error _ => db

/-- What `prune_older_than` leaves. -/
def pruneOlderThan (db : Db) (cutoffUnix : ℤ) : Db := pruneBlocks (db.pruneCandidates cutoffUnix) db

/-- Whether a transaction is one of a list of blocks. -/
def inBlocks (db : Db) (ids : List ℕ) (txId : ℕ) : Bool :=
  (db.transaction? txId).any fun t => t.blockId ∈ ids

/-- Whether no receipt refers to a transaction of a block. -/
def noReceipts (db : Db) (blockId : ℕ) : Bool :=
  ¬ db.txReceipts.rows.any fun r => db.inBlocks [blockId] r.txId

/-- The blocks `prune_older_than` prunes: up to the first that a receipt refers to. -/
def prunedBlocks (db : Db) (cutoffUnix : ℤ) : List ℕ :=
  (db.pruneCandidates cutoffUnix).takeWhile db.noReceipts

/-- **`db'` is `db` with some blocks pruned.** -/
structure Pruned (db : Db) (ids : List ℕ) (db' : Db) : Prop where
  blocks : db'.blocks.rows = db.blocks.rows.map fun b =>
    if b.id ∈ ids then { b with bodyCaptured := false } else b
  log : db'.blockStatusLog = db.blockStatusLog
  transactions : db'.transactions.rows = db.transactions.rows.filter fun t => t.blockId ∉ ids
  inputs : db'.txInputs.rows = db.txInputs.rows.filter fun i => ¬ db.inBlocks ids i.txId
  outputs : db'.txOutputs.rows = db.txOutputs.rows.filter fun o => ¬ db.inBlocks ids o.txId
  stateSlots : db'.stateSlots = db.stateSlots
  receipts : db'.txReceipts = db.txReceipts

variable {db db' db'' : Db} {ids : List ℕ} {blockId : ℕ}

theorem inBlocks_iff {txId : ℕ} :
    db.inBlocks ids txId = true ↔ ∃ t, db.transaction? txId = some t ∧ t.blockId ∈ ids := by
  rw [inBlocks, Option.any_eq_true]
  exact exists_congr fun t => and_congr_right fun _ => decide_eq_true_iff

theorem not_inBlocks_nil {txId : ℕ} : ¬ db.inBlocks [] txId = true := by
  intro hin
  obtain ⟨t, -, hmem⟩ := inBlocks_iff.mp hin
  exact List.not_mem_nil hmem

theorem mem_transactionIds {txId : ℕ} :
    txId ∈ (db.transactionsOf blockId).map TransactionRow.id ↔
    db.inBlocks [blockId] txId = true := by
  rw [inBlocks_iff, List.mem_map]
  constructor
  · rintro ⟨t, ht, rfl⟩
    obtain ⟨hmem, hblock⟩ := List.mem_filter.mp ht
    exact ⟨t, transaction?_eq_some hmem, List.mem_singleton.mpr (of_decide_eq_true hblock)⟩
  · rintro ⟨t, ht, hblock⟩
    obtain ⟨hmem, hid⟩ := mem_of_transaction? ht
    exact ⟨t, List.mem_filter.mpr ⟨hmem, decide_eq_true (List.mem_singleton.mp hblock)⟩, hid⟩

namespace Pruned

theorem refl (db : Db) : db.Pruned [] db where
  blocks := by simp
  log := rfl
  transactions := by simp
  inputs := by simp [inBlocks]
  outputs := by simp [inBlocks]
  stateSlots := rfl
  receipts := rfl

variable (h : db.Pruned ids db')
include h

theorem transaction?_eq (txId : ℕ) :
    db'.transaction? txId = (db.transaction? txId).filter fun t => t.blockId ∉ ids :=
  transaction?_filter h.transactions txId

/-- A transaction that stays is in the block it was in. -/
theorem inBlocks_eq {more : List ℕ} {txId : ℕ} :
    db'.inBlocks more txId = true ↔ ¬ db.inBlocks ids txId = true
    ∧ db.inBlocks more txId = true := by
  simp only [inBlocks_iff, h.transaction?_eq, Option.filter_eq_some_iff, decide_eq_true_eq]
  constructor
  · rintro ⟨t, ⟨ht, hout⟩, hin⟩
    refine ⟨?_, t, ht, hin⟩
    rintro ⟨s, hs, hmem⟩
    obtain rfl := Option.some.inj (ht.symm.trans hs)
    exact hout hmem
  · rintro ⟨hout, t, ht, hin⟩
    exact ⟨t, ⟨ht, fun hmem => hout ⟨t, ht, hmem⟩⟩, hin⟩

theorem noReceipts_eq (hfree : ∀ id ∈ ids, db.noReceipts id = true) (blockId : ℕ) :
    db'.noReceipts blockId = db.noReceipts blockId := by
  rw [noReceipts, noReceipts, h.receipts]
  refine decide_eq_decide.mpr (not_congr ?_)
  rw [List.any_eq_true, List.any_eq_true]
  refine exists_congr fun r => and_congr_right fun hr => ?_
  rw [h.inBlocks_eq, and_iff_right_iff_imp]
  rintro - hin
  obtain ⟨t, ht, hmem⟩ := inBlocks_iff.mp hin
  have hnone := of_decide_eq_true (hfree t.blockId hmem)
  exact hnone (List.any_eq_true.mpr ⟨r, hr, inBlocks_iff.mpr ⟨t, ht, List.mem_singleton_self _⟩⟩)

/-- Pruning more blocks. -/
theorem trans {more : List ℕ} (h' : db'.Pruned more db'') : db.Pruned (ids ++ more) db'' := by
  have hin : ∀ txId, (¬ db'.inBlocks more txId = true ∧ ¬ db.inBlocks ids txId = true)
      ↔ ¬ db.inBlocks (ids ++ more) txId = true := by
    intro txId
    have happ : db.inBlocks (ids ++ more) txId = true
        ↔ db.inBlocks ids txId = true ∨ db.inBlocks more txId = true := by
      simp only [inBlocks_iff, List.mem_append, and_or_left, exists_or]
    rw [happ, h.inBlocks_eq]
    tauto
  refine ⟨?_, h'.log.trans h.log, ?_, ?_, ?_, h'.stateSlots.trans h.stateSlots,
    h'.receipts.trans h.receipts⟩
  · rw [h'.blocks, h.blocks, List.map_map]
    refine List.map_congr_left fun b _ => ?_
    by_cases h₁ : b.id ∈ ids <;> by_cases h₂ : b.id ∈ more <;> simp [h₁, h₂]
  · rw [h'.transactions, h.transactions, List.filter_filter]
    refine List.filter_congr fun t _ => ?_
    simp [Bool.and_comm]
  · rw [h'.inputs, h.inputs, List.filter_filter]
    refine List.filter_congr fun i _ => ?_
    rw [← Bool.decide_and]
    exact decide_eq_decide.mpr (hin i.txId)
  · rw [h'.outputs, h.outputs, List.filter_filter]
    refine List.filter_congr fun o _ => ?_
    rw [← Bool.decide_and]
    exact decide_eq_decide.mpr (hin o.txId)

end Pruned

/-- **What pruning one block can do.** -/
theorem pruneBlock_ok : db.pruneBlock blockId = .ok db' →
    db.noReceipts blockId = true ∧ db.Pruned [blockId] db' := by
  intro h
  have hids : ∀ txId, txId ∈ (db.transactionsOf blockId).map TransactionRow.id
      ↔ db.inBlocks [blockId] txId = true := fun _ => mem_transactionIds
  simp only [pruneBlock, hids, Bool.decide_eq_true] at h
  split_ifs at h with hreceipt
  obtain rfl := Except.ok.inj h
  refine ⟨decide_eq_true hreceipt, ?_, rfl, ?_, ?_, ?_, rfl, rfl⟩
  · refine List.map_congr_left fun b _ => ?_
    simp [Table.updated]
  · refine List.filter_congr fun t _ => ?_
    simp
  · refine List.filter_congr fun i _ => ?_
    simp
  · refine List.filter_congr fun o _ => ?_
    simp

theorem pruneBlock_error {e : String} (h : db.pruneBlock blockId = .error e) :
    db.noReceipts blockId = false := by
  have hids : ∀ txId, txId ∈ (db.transactionsOf blockId).map TransactionRow.id
      ↔ db.inBlocks [blockId] txId = true := fun _ => mem_transactionIds
  simp only [pruneBlock, hids, Bool.decide_eq_true] at h
  split_ifs at h with hreceipt
  exact decide_eq_false (not_not.mpr hreceipt)

theorem pruned_pruneBlocks : ∀ (ids : List ℕ) (db : Db),
    db.Pruned (ids.takeWhile db.noReceipts) (pruneBlocks ids db)
  | [], db => .refl db
  | id :: ids, db => by
      rw [pruneBlocks]
      rcases hid : db.pruneBlock id with e | db₁
      · rw [List.takeWhile_cons_of_neg (by simp [pruneBlock_error hid])]
        exact .refl db
      · obtain ⟨hfree, hstep⟩ := pruneBlock_ok hid
        have hsame : db₁.noReceipts = db.noReceipts :=
          funext (hstep.noReceipts_eq (by simpa using hfree))
        have hrest := pruned_pruneBlocks ids db₁
        rw [hsame] at hrest
        rw [List.takeWhile_cons_of_pos hfree]
        exact hstep.trans hrest

theorem pruned_pruneOlderThan (db : Db) (cutoffUnix : ℤ) :
    db.Pruned (db.prunedBlocks cutoffUnix) (db.pruneOlderThan cutoffUnix) :=
  pruned_pruneBlocks _ db

/-- **The retention pass, run alone, is `prune_older_than`.** -/
theorem runs_pruneBlocks {N : Noid} {cfg : Config} {allow : ∀ q : Query, q.Answer → Prop} :
    ∀ (ids : List ℕ) (db : Db), ∃ tr r, Runs allow (Txn.exec N cfg)
      (Prog.each (fun id => Program.commit (.pruneBlock id)) ids) db tr r (pruneBlocks ids db)
  | [], db => ⟨[], .ok (), .stop _ db⟩
  | id :: ids, db => by
      rw [pruneBlocks]
      rcases hid : db.pruneBlock id with e | db₁
      · exact ⟨[], .error e, .refuse hid⟩
      · obtain ⟨tr, r, hrun⟩ : ∃ tr r, Runs allow (Txn.exec N cfg) (Prog.each (fun id =>
            Program.commit (.pruneBlock id)) ids) db₁ tr r (pruneBlocks ids db₁) :=
          runs_pruneBlocks ids db₁
        exact ⟨(db, .pruneBlock id, db₁) :: tr, r, .commit hid hrun⟩

/-! ## What counts afterwards -/

namespace Pruned

variable (h : db.Pruned ids db')
include h

theorem isCanonical_eq : db'.isCanonical = db.isCanonical := by
  funext id
  rw [isCanonical, isCanonical, latestStatus, latestStatus, statusesOf, statusesOf, h.log]

/-- A block keeps its row. -/
theorem block?_height (id : ℕ) :
    (db'.block? id).map (fun b => (b.id, b.height))
      = (db.block? id).map fun b => (b.id, b.height) := by
  let g : BlockRow → BlockRow := fun b => if b.id ∈ ids then { b with bodyCaptured := false } else b
  have hid : ∀ b, (g b).id = b.id ∧ (g b).height = b.height := by
    intro b
    unfold g
    split_ifs
    · exact ⟨rfl, rfl⟩
    · exact ⟨rfl, rfl⟩
  have hfind : db'.block? id = (db.block? id).map g := by
    rw [block?, block?, h.blocks, List.find?_map]
    refine congrArg _ (congrArg (fun p => List.find? p db.blocks.rows) (funext fun b => ?_))
    exact congrArg (fun k : ℕ => decide (k = id)) (hid b).1
  rw [hfind, Option.map_map]
  refine congrArg (fun f => Option.map f (db.block? id)) (funext fun b => ?_)
  exact Prod.ext (hid b).1 (hid b).2

/-- **What counts is what counted and stays.** -/
theorem counts_iff {txId : ℕ} : db'.counts txId = true
    ↔ db.counts txId = true ∧ ¬ db.inBlocks ids txId = true := by
  have hread : ∀ d : Db, d.counts txId = true ↔ ∃ t, d.transaction? txId = some t
      ∧ t.recorded = true ∧ ∃ x ∈ (d.block? t.blockId).map fun b => (b.id, b.height),
        d.isCanonical x.1 = true := by
    intro d
    have hheight : d.recordedHeight txId = (d.transaction? txId).bind fun t =>
        (d.block? t.blockId).bind fun b =>
          if t.recorded = true ∧ d.isCanonical b.id = true then some b.height else none := rfl
    rw [counts, hheight]
    rcases d.transaction? txId with _ | t
    · simp
    · rcases hb : d.block? t.blockId with _ | b
      · simp [hb]
      · by_cases hc : t.recorded = true ∧ d.isCanonical b.id = true
        · simp [hb, hc]
        · simp [hb, hc]
  rw [hread, hread, h.isCanonical_eq]
  simp only [h.transaction?_eq, h.block?_height, Option.filter_eq_some_iff, inBlocks_iff,
    decide_eq_true_eq]
  constructor
  · rintro ⟨t, ⟨ht, hout⟩, hrest⟩
    refine ⟨⟨t, ht, hrest⟩, ?_⟩
    rintro ⟨s, hs, hmem⟩
    obtain rfl := Option.some.inj (ht.symm.trans hs)
    exact hout hmem
  · rintro ⟨⟨t, ht, hrest⟩, hout⟩
    exact ⟨t, ⟨ht, fun hmem => hout ⟨t, ht, hmem⟩⟩, hrest⟩

end Pruned

/-! ## The coins of the picture -/

/-- The creation ids `live_balances` counts. -/
def liveIds (db : Db) : List String :=
  (db.unspentOutputs ⊤).filterMap OutputRow.creationId
    ++ (db.unspentSlots ⊤).map StateSlotRow.creationId

/-- Whether a coin is on record outside some blocks, as an unflagged output that counts or as a slot
of the sweep's own. -/
def onRecordBeside (db : Db) (ids : List ℕ) (creationId : String) : Prop :=
  (∃ o ∈ db.txOutputs.rows, ¬ db.inBlocks ids o.txId = true ∧ db.counts o.txId = true
      ∧ o.spentInGap = false ∧ o.creationId = some creationId)
    ∨ ∃ f ∈ db.stateSlots.rows, f.creationId = creationId

/-- **No coin that stays loses its spends**: what an input of these blocks spends is on record in
them alone, or is spent by another block's input too. -/
def SpendsStay (db : Db) (ids : List ℕ) : Prop :=
  ∀ i ∈ db.txInputs.rows, db.inBlocks ids i.txId = true → db.counts i.txId = true →
    db.onRecordBeside ids i.creationId →
      ∃ j ∈ db.txInputs.rows, ¬ db.inBlocks ids j.txId = true ∧ db.counts j.txId = true
        ∧ j.creationId = i.creationId

theorem mem_liveIds {c : String} : c ∈ db.liveIds
    ↔ db.onRecordBeside [] c ∧ ¬ db.spentByRecordedInput ⊤ (some c) = true := by
  have hany : ∀ txId, Option.any (fun h => decide (h ≤ ⊤))
      (do let a ← db.recordedHeight txId; pure (a : WithTop ℕ)) = true ↔ db.counts txId = true := by
    intro txId
    rw [counts]
    rcases db.recordedHeight txId with _ | a
    · exact Iff.rfl
    · simp
  simp only [liveIds, unspentOutputs, unspentSlots, List.mem_append, List.mem_filterMap,
    List.mem_map, List.mem_filter, decide_eq_true_eq]
  constructor
  · rintro (⟨o, ⟨ho, hc, hflag, hspent⟩, hid⟩ | ⟨f, ⟨hf, hspent⟩, rfl⟩)
    · exact ⟨Or.inl ⟨o, ho, not_inBlocks_nil, (hany _).mp hc, hflag, hid⟩, hid ▸ hspent⟩
    · exact ⟨Or.inr ⟨f, hf, rfl⟩, hspent⟩
  · rintro ⟨⟨o, ho, -, hc, hflag, hid⟩ | ⟨f, hf, rfl⟩, hspent⟩
    · exact Or.inl ⟨o, ⟨ho, (hany _).mpr hc, hflag, hid.symm ▸ hspent⟩, hid⟩
    · exact Or.inr ⟨f, ⟨hf, hspent⟩, rfl⟩

namespace Pruned

variable (h : db.Pruned ids db')
include h

theorem onRecord_iff {c : String} : db'.onRecordBeside [] c ↔ db.onRecordBeside ids c := by
  simp only [onRecordBeside, h.outputs, h.stateSlots, List.mem_filter, decide_eq_true_eq,
    h.counts_iff]
  refine or_congr (exists_congr fun o => ?_) Iff.rfl
  have hnone : ¬ db'.inBlocks [] o.txId = true := not_inBlocks_nil
  tauto

theorem spent_iff {c : String} : db'.spentByRecordedInput ⊤ (some c) = true
    ↔ ∃ i ∈ db.txInputs.rows, ¬ db.inBlocks ids i.txId = true ∧ db.counts i.txId = true
      ∧ i.creationId = c := by
  simp only [spentByRecordedInput_top, h.inputs, List.mem_filter, decide_eq_true_eq, h.counts_iff,
    Option.some.injEq]
  refine exists_congr fun i => ?_
  tauto

/-- **A coin comes back exactly if it stays and its spends go.** -/
theorem revives_none_iff : (∀ c ∈ db'.liveIds, c ∈ db.liveIds) ↔ db.SpendsStay ids := by
  have hspent : ∀ {c}, db.spentByRecordedInput ⊤ (some c) = true
      ↔ ∃ i ∈ db.txInputs.rows, i.creationId = c ∧ db.counts i.txId = true := by
    intro c
    simp only [spentByRecordedInput_top, Option.some.injEq]
  constructor
  · intro hlive i hi hin hc hstays
    by_contra hgone
    have hback : i.creationId ∈ db'.liveIds :=
      mem_liveIds.mpr ⟨h.onRecord_iff.mpr hstays, fun hs => hgone (h.spent_iff.mp hs)⟩
    exact (mem_liveIds.mp (hlive _ hback)).2 (hspent.mpr ⟨i, hi, rfl, hc⟩)
  · intro hstay c hc
    obtain ⟨hrecord, hunspent⟩ := mem_liveIds.mp hc
    have hbeside := h.onRecord_iff.mp hrecord
    refine mem_liveIds.mpr ⟨?_, fun hs => ?_⟩
    · rcases hbeside with ⟨o, ho, -, hrest⟩ | hslot
      · exact Or.inl ⟨o, ho, not_inBlocks_nil, hrest⟩
      · exact Or.inr hslot
    · obtain ⟨i, hi, rfl, hcounts⟩ := hspent.mp hs
      by_cases hin : db.inBlocks ids i.txId = true
      · exact hunspent (h.spent_iff.mpr (hstay i hi hin hcounts hbeside))
      · exact hunspent (h.spent_iff.mpr ⟨i, hi, hin, hcounts, rfl⟩)

end Pruned

/-- **Pruning revives no coin exactly if no coin that stays on record loses its only spends.** -/
theorem pruneOlderThan_revives_none_iff (db : Db) (cutoffUnix : ℤ) :
    (∀ c ∈ (db.pruneOlderThan cutoffUnix).liveIds, c ∈ db.liveIds)
      ↔ db.SpendsStay (db.prunedBlocks cutoffUnix) :=
  (pruned_pruneOlderThan db cutoffUnix).revives_none_iff

end Db

/-! ## A slot whose spend is pruned -/

/-- A chain whose first recorded block spends coin 7, which is older than the archive. -/
def slotChain : List BlockDetailsInfo :=
  [bareBlock 0 "a0" "", ⟨plainHeader 1 "a1" "a0", some spendBody⟩]

/-- A node with the first blocks of that chain, and coin 7 in slot 3. -/
def slotAnswers (blocks : ℕ) : ∀ q : Query, q.Answer
  | .stateMap => .ok ⟨0, 8, [1]⟩
  | .slot index => .ok (if index = 3 then ⟨3, 5, 7, "alice", false⟩ else ⟨index, 0, 0, "", true⟩)
  | q => chainAnswers (slotChain.take blocks) 1 q

/-- The sweep finds the coin, and the next poll records its spend. -/
def slotStints : List (Stint Query Query.Answer Db Txn String Thread) :=
  [⟨.indexer, pollOnce Noid.sample {}, fun _ => slotAnswers 1, 200⟩,
    ⟨.sweep, scanLiveState >>= fun _ => pure (), fun _ => slotAnswers 1, 200⟩,
    ⟨.indexer, pollOnce Noid.sample {}, fun _ => slotAnswers 2, 200⟩]

theorem run_slotStints : Execution Noid.sample {} anyAnswer
    (traceAll (Txn.exec Noid.sample {}) slotStints Db.empty)
    (Config.idle (playAll (Txn.exec Noid.sample {}) slotStints Db.empty)) := by
  refine run_playAll Db.empty ?_
  simp only [slotStints, List.forall_mem_cons]
  exact ⟨⟨.poll, fun _ _ => trivial⟩, ⟨.sweep, fun _ _ => trivial⟩,
    ⟨.poll, fun _ _ => trivial⟩, nofun⟩

/-- **A slot of the sweep's own comes back when the block that spends it is pruned.** -/
theorem Execution.pruning_revives :
    ∃ tr c, Execution Noid.sample {} anyAnswer tr c ∧ ∃ cutoffUnix, ∃ coin,
      coin ∈ (c.store.pruneOlderThan cutoffUnix).liveIds ∧ coin ∉ c.store.liveIds :=
  ⟨_, _, run_slotStints, 1, "7", by decide +kernel, by decide +kernel⟩

end Permanode
