import Permanode.Indexer.Transactions
import Permanode.Ledger.Ledger

/-!
# Ledger/Refinement — every transaction is operations of the ledger

`Db.ledger` reads the record of blocks off a database, and `Txn.ops` says which operations a
transaction comes to, given the database it meets: the branch the code takes is part of the answer.
**`exec_ledger`**: the ledger after a transaction is the ledger before it, less and more what its
operations do.  The invariants of the following modules are proved about operations and hold of the
code through this theorem.
-/

namespace Permanode

open Outcome

/-- What the ledger has of a block. -/
def BlockRow.entry (b : BlockRow) : Entry := ⟨b.id, b.height, b.hash, b.archived, b.bodyCaptured⟩

/-- The record of blocks a database holds. -/
def Db.ledger (db : Db) : Ledger where
  entries := ⟨db.blocks.rows.map BlockRow.entry, List.pairwise_map.mpr db.blocks.unique⟩
  canonical := db.isCanonical
  bodied id := db.transactions.rows.any fun t => t.blockId = id
  gap height :=
    (db.ingestGaps.rows.find? fun g => g.height = height).map fun g => g.resolvedAt = none

/-! ## The operations of a transaction -/

namespace Db

/-- What storing a block with its body comes to. -/
def storeOps (db : Db) (details : BlockDetailsInfo) : List Op :=
  match details.retained with
  | none => []
  | some retained =>
    let h := details.header
    if db.isOnRecord h then
      match db.uncapturedBlockId h.height h.hash with
      | none => []
      | some id => [.fill id h.height (retained.transactions ≠ [])]
    else [.enterBody h.height h.hash (retained.transactions ≠ [])]

/-- What recording a block without a body comes to. -/
def gapOps (db : Db) (details : BlockDetailsInfo) : List Op :=
  let h := details.header
  if db.isOnRecord h then [.openGap h.height] else [.enterGap h.height h.hash]

/-- What a replacement comes to, the old block being orphaned already. -/
def replacementOps (db : Db) (height : ℕ) : Option BodyOutcome → List Op
  | some (.store details _ _) => db.storeOps details
  | some (.gap details _) => db.gapOps details
  | none => [.openGap height]

end Db

/-- The operations a transaction comes to on a database. -/
def Txn.ops : Txn → Db → List Op
  | .ingest _ details _ _ _, db => db.storeOps details
  | .gapBlock details _ _, db => db.gapOps details
  | .replace height oldBlockId orphanedAt _ replacement _, db =>
    .orphan oldBlockId
      :: (db.appendStatus oldBlockId .orphaned orphanedAt).replacementOps height replacement
  | .recover height _ blockId retained _ _, _ => [.fill blockId height (retained.transactions ≠ [])]
  | .fillGap height _ blockId body _ _ _ _ _, _ => [.fill blockId height (body.transactions ≠ [])]
  | .resolveGapsWithBodies _, _ => [.closeBodied]
  | .pruneBlock blockId, _ => [.prune blockId]
  | .headerBatch batch _ _, _ => batch.map fun h => .enterHeader h.height h.hash
  | .receipt blockId tx now, db =>
    match db.insertReceiptTransaction blockId tx now with
    | .ok _ => [.attach blockId]
    | .error _ => []
  | .setState .., _ => []
  | .keepRaw .., _ => []
  | .fillRaw .., _ => []
  | .clearSpentInGap, _ => []
  | .setTipSeen .., _ => []
  | .adoptTipSeen .., _ => []
  | .adoptProofClass .., _ => []
  | .sweepSegment .., _ => []
  | .sweepBalances _, _ => []
  | .upsertBalances .., _ => []

/-- The body sources of a replacement are none of a header-only row's. -/
def BodyOutcome.Genuine : BodyOutcome → Prop
  | .store _ source _ => source ≠ headerOnlySource
  | .gap _ _ => True

/-- The transaction writes no block as a header-only one by another path than the backfill's. -/
def Txn.Genuine : Txn → Prop
  | .ingest _ _ source _ _ => source ≠ headerOnlySource
  | .replace _ _ _ _ replacement _ => ∀ r ∈ replacement, r.Genuine
  | .fillGap _ _ _ _ _ bodySource _ _ _ => bodySource ≠ headerOnlySource
  | _ => True

/-! ## The ledger after each write -/

namespace Db

variable {db db' : Db}

theorem find_ledger (db : Db) (height : ℕ) (hash : String) :
    db.ledger.find height hash
      = (db.blocks.rows.find? fun b => b.height = height ∧ b.hash = hash).map BlockRow.entry :=
  List.find?_map ..

theorem blockId_ledger (db : Db) (height : ℕ) (hash : String) :
    db.blockId height hash = (db.ledger.find height hash).map Entry.id := by
  rw [find_ledger, Option.map_map]
  rfl

theorem nextId_ledger (db : Db) : db.ledger.nextId = db.blocks.nextId BlockRow.id := by
  rw [Ledger.nextId, Table.nextId, Table.nextId, ledger, List.map_map]
  rfl

theorem has_ledger (db : Db) (id : ℕ) : db.ledger.has id = (db.block? id).isSome := by
  rw [block?, List.isSome_find?, Ledger.has, ledger, List.any_map]
  rfl

/-- **The last entry of the log decides.** -/
theorem ledger_appendStatus (db : Db) (id : ℕ) (status : Status) (now : Instant) :
    (db.appendStatus id status now).ledger
      = { db.ledger with
          canonical := Function.update db.ledger.canonical id (status = .canonical) } := by
  refine congrArg (fun c => { db.ledger with canonical := c }) (funext fun k => ?_)
  rw [isCanonical, latestStatus, statusesOf_appendStatus]
  by_cases hk : k = id
  · subst hk
    have hlast : ∀ s ∈ db.statusesOf k, s.id < db.blockStatusLog.nextId StatusRow.id :=
      fun s hs => Table.lt_nextId (List.mem_filter.mp hs).1
    rw [if_pos rfl, Function.update_self, argmax_append_of_lt hlast]
    simp
  · rw [if_neg hk, Function.update_of_ne hk]
    rfl

/-- An update of columns the ledger does not read. -/
theorem ledger_updateBlocks {p : BlockRow → Bool} {f : BlockRow → BlockRow}
    {hf : ∀ r s, Row.clash (f r) s = Row.clash r s} (h : ∀ b, (f b).entry = b.entry) :
    (db.updateBlocks p f hf).ledger = db.ledger := by
  refine congrArg (fun e => { db.ledger with entries := e }) (Table.ext ?_)
  change ((db.blocks.rows.map (Table.updated p f)).map BlockRow.entry)
    = db.blocks.rows.map BlockRow.entry
  rw [List.map_map]
  refine List.map_congr_left fun b _ => ?_
  simp only [Function.comp, Table.updated]
  split_ifs
  · exact h b
  · rfl

/-- An update of the flags of one block. -/
theorem ledger_updateFlags {id : ℕ} {f : BlockRow → BlockRow} {a : Bool → Bool} {c : Bool}
    {hf : ∀ r s, Row.clash (f r) s = Row.clash r s}
    (h : ∀ b, (f b).entry = { b.entry with archived := a b.archived, captured := c }) :
    (db.updateBlocks (fun b => b.id = id) f hf).ledger
      = { db.ledger with entries := db.ledger.setFlags id a c } := by
  refine congrArg (fun e => { db.ledger with entries := e }) (Table.ext ?_)
  change ((db.blocks.rows.map (Table.updated (fun b => b.id = id) f)).map BlockRow.entry)
    = (db.blocks.rows.map BlockRow.entry).map _
  rw [List.map_map, List.map_map]
  refine List.map_congr_left fun b _ => ?_
  simp only [Function.comp, Table.updated, decide_eq_true_eq, show b.entry.id = b.id from rfl]
  split_ifs
  · exact h b
  · rfl

theorem ledger_recordGap (db : Db) (height : ℕ) (hash : Option String) (now : Instant)
    (note : String) : (db.recordGap height hash now note).ledger = db.ledger.withGap height := by
  refine congrArg (fun g => { db.ledger with gap := g }) (funext fun k => ?_)
  change ((db.ingestGaps.insertOrIgnore ⟨height, hash, now, note, none, none⟩).rows.find?
    fun g => g.height = k).map (fun g => decide (g.resolvedAt = none)) = _
  rcases Table.rows_insert_cases db.ingestGaps ⟨height, hash, now, note, none, none⟩ with
    ⟨hrows, hfree⟩ | ⟨hsame, g, hg, hclash⟩
  · rw [hrows, List.find?_append]
    by_cases hk : k = height
    · subst hk
      have hnone : (db.ingestGaps.rows.find? fun g => g.height = k) = none :=
        List.find?_eq_none.mpr fun g hg => by simpa [Row.clash] using hfree g hg
      simp [hnone, ledger]
    · simp [ledger, hk, Ne.symm hk]
  · rw [hsame]
    by_cases hk : k = height
    · subst hk
      obtain ⟨g', hg'⟩ := Option.isSome_iff_exists.mp
        (List.find?_isSome.mpr ⟨g, hg, hclash⟩ :
          (db.ingestGaps.rows.find? fun g => g.height = k).isSome)
      simp [ledger, hg']
    · simp [ledger, hk]

/-- Gaps are resolved where `p` says. -/
theorem ledger_resolve {p : ℕ → Bool} {q : GapRow → Bool} {f : GapRow → GapRow}
    {hf : ∀ r s, Row.clash (f r) s = Row.clash r s}
    (hq : ∀ g, q g = (decide (g.resolvedAt = none) && p g.height))
    (hres : ∀ g, (f g).height = g.height ∧ (f g).resolvedAt ≠ none) :
    ({ db with ingestGaps := db.ingestGaps.modify q f hf } : Db).ledger
      = { db.ledger with gap := db.ledger.resolve p } := by
  refine congrArg (fun g => { db.ledger with gap := g }) (funext fun k => ?_)
  change ((db.ingestGaps.rows.map (Table.updated q f)).find? fun g => g.height = k).map
    (fun g => decide (g.resolvedAt = none)) = _
  have hheight : ∀ g, (Table.updated q f g).height = g.height := fun g => by
    unfold Table.updated
    split_ifs
    · exact (hres g).1
    · rfl
  have hfind : ((fun g : GapRow => decide (g.height = k)) ∘ Table.updated q f)
      = fun g => decide (g.height = k) := funext fun g => by simp [hheight]
  rw [List.find?_map, hfind, Option.map_map, Ledger.resolve, ledger, Option.map_map]
  rcases hg : db.ingestGaps.rows.find? (fun g => g.height = k) with _ | g
  · rw [hg]
    rfl
  · have hk : g.height = k := by simpa using List.find?_some hg
    rw [hg]
    simp only [Option.map_some, Function.comp, Table.updated, hq, hk]
    rcases hp : p k with _ | _ <;> rcases hr : g.resolvedAt with _ | t <;>
      simp [hr, (hres g).2]

theorem ledger_resolveGap (db : Db) (height : ℕ) (at_ : Instant) (resolution : String) :
    (db.resolveGap height at_ resolution).ledger
      = { db.ledger with gap := db.ledger.resolve fun h => h = height } :=
  ledger_resolve (fun g => by rw [Bool.decide_and, Bool.and_comm])
    fun _ => ⟨rfl, Option.some_ne_none _⟩

/-- An open gap of the ledger is one of the table. -/
theorem gap_ledger (db : Db) (height : ℕ) : db.ledger.gap height = some true ↔
    ∃ g ∈ db.ingestGaps.rows, g.height = height ∧ g.resolvedAt = none := by
  rw [ledger, Option.map_eq_some_iff]
  constructor
  · rintro ⟨g, hg, hres⟩
    exact ⟨g, List.mem_of_find?_eq_some hg, by simpa using List.find?_some hg,
      of_decide_eq_true hres⟩
  · rintro ⟨g, hg, hh, hres⟩
    refine ⟨g, db.ingestGaps.find?_eq_some hg (decide_eq_true hh) fun s _ hs => ?_,
      decide_eq_true hres⟩
    exact decide_eq_true ((of_decide_eq_true hs).trans hh.symm)

theorem bodyOnRecordAt_eq (db : Db) (height : ℕ) :
    db.bodyOnRecordAt height = db.ledger.bodyAt height := by
  rw [Ledger.bodyAt, ledger, List.any_map]
  rfl

theorem ledger_resolveGapsWithBodies (db : Db) (now : Instant) :
    (db.resolveGapsWithBodies now).ledger
      = { db.ledger with gap := db.ledger.resolve db.ledger.bodyAt } :=
  ledger_resolve (fun g => by simp [bodyOnRecordAt_eq]) fun _ => ⟨rfl, Option.some_ne_none _⟩

/-- A row inserted for a header is the entry of the block that enters. -/
theorem entries_insertHeader (db : Db) (h : BlockHeaderInfo) (captured : Bool)
    (source : Option String) (now : Instant) :
    ({ db with
        blocks := db.blocks.insertOrIgnore
          (headerRow (db.blocks.nextId BlockRow.id) h captured source now) } : Db).ledger.entries
      = (db.ledger.enter h.height h.hash (source ≠ some headerOnlySource) captured).entries := by
  let row := headerRow (db.blocks.nextId BlockRow.id) h captured source now
  have hrow : row.entry = ⟨db.ledger.nextId, h.height, h.hash, source ≠ some headerOnlySource,
      captured⟩ := by rw [nextId_ledger]; rfl
  refine Table.ext (Eq.symm ?_)
  rw [Ledger.enter, ← hrow]
  exact Table.rows_insert_map (f := BlockRow.entry) (fun _ _ => rfl) rfl row

/-- **A header's row enters as canonical.** -/
theorem ledger_insertBlockHeaderRow {h : BlockHeaderInfo} {captured : Bool}
    {source : Option String} {now : Instant} {id : ℕ}
    (hdb : db.insertBlockHeaderRow h captured source now = .ok (db', id)) :
    db'.ledger = db.ledger.enter h.height h.hash (source ≠ some headerOnlySource) captured
      ∧ id = db.ledger.entryId h.height h.hash := by
  simp only [insertBlockHeaderRow, bind_ok, orError_ok, pure_ok, Prod.mk.injEq] at hdb
  obtain ⟨id', hid, rfl, rfl⟩ := hdb
  have hentries := entries_insertHeader db h captured source now
  have hid' : id' = db.ledger.entryId h.height h.hash := by
    rw [blockId_ledger, Ledger.find, hentries, ← Ledger.find, Ledger.find_enter] at hid
    exact (Option.some.inj hid).symm
  refine ⟨?_, hid'⟩
  rw [ledger_appendStatus, hid']
  exact Ledger.ext hentries rfl rfl rfl

theorem any_append_transaction (rows : List TransactionRow) (row : TransactionRow) (k : ℕ) :
    ((rows ++ [row]).any fun t => t.blockId = k)
      = Function.update (fun k => rows.any fun t => t.blockId = k) row.blockId true k := by
  rw [List.any_append]
  by_cases hk : k = row.blockId
  · subst hk
    simp
  · simp [hk, Ne.symm hk]

/-- Adding a transaction to a block marks it as bodied, whether the position was free or not. -/
theorem any_insert_transaction (t : Table TransactionRow) {row : TransactionRow}
    (hid : row.id = t.nextId TransactionRow.id) (k : ℕ) :
    ((t.insertOrIgnore row).rows.any fun t => t.blockId = k)
      = Function.update (fun k => t.rows.any fun t => t.blockId = k) row.blockId true k := by
  rcases Table.rows_insert_cases t row with ⟨hrows, -⟩ | ⟨hsame, s, hs, hclash⟩
  · rw [hrows, any_append_transaction]
  · have hb : s.blockId = row.blockId := by
      have hne : s.id ≠ row.id := hid ▸ (Table.lt_nextId hs).ne
      simp only [Row.clash, hne, false_or, Prod.mk.injEq] at hclash
      exact (of_decide_eq_true hclash).1
    rw [hsame]
    by_cases hk : k = row.blockId
    · subst hk
      rw [Function.update_self]
      exact List.any_eq_true.mpr ⟨s, hs, decide_eq_true hb⟩
    · rw [Function.update_of_ne hk]

theorem ledger_insertTransaction {blockId : ℕ} {tx : BlockTransactionInfo}
    (hhas : db.ledger.has blockId) (h : insertTransaction blockId db tx = .ok db') :
    db'.ledger = db.ledger.addBody blockId true := by
  simp only [insertTransaction, bind_ok, pure_ok] at h
  obtain ⟨txId, -, rfl⟩ := h
  refine Ledger.ext rfl rfl (funext fun k => ?_) rfl
  rw [Ledger.addBody, hhas, Bool.and_true, Bool.or_true]
  exact any_insert_transaction db.transactions rfl k

theorem ledger_insertAll {blockId : ℕ} : ∀ {txs : List BlockTransactionInfo} {db : Db},
    (txs ≠ [] → db.ledger.has blockId) → txs.foldlM (insertTransaction blockId) db = .ok db' →
      db'.ledger = db.ledger.addBody blockId (txs ≠ [])
  | [], db, _, h => by
      obtain rfl := pure_ok.mp h
      simp
  | tx :: txs, db, hhas, h => by
      rw [List.foldlM_cons, bind_ok] at h
      obtain ⟨db₁, h₁, h₂⟩ := h
      have hl := ledger_insertTransaction (hhas nofun) h₁
      rw [ledger_insertAll (fun _ => by rw [hl]; exact hhas nofun) h₂, hl]
      simp

theorem ledger_setBodyFields (db : Db) (blockId : ℕ) (retained : RetainedBlockInfo) :
    (db.setBodyFields blockId retained).ledger = db.ledger :=
  ledger_updateBlocks fun _ => rfl

/-- **A body makes its block a bodied one**, unless it is empty. -/
theorem ledger_insertTransactions {blockId : ℕ} {retained : RetainedBlockInfo}
    (h : db.insertTransactions blockId retained = .ok db') :
    db'.ledger = db.ledger.addBody blockId (retained.transactions ≠ []) := by
  simp only [insertTransactions, bind_ok, bailIf_ok] at h
  obtain ⟨-, hfk, h⟩ := h
  rw [ledger_insertAll _ h, ledger_setBodyFields]
  intro hne
  rw [ledger_setBodyFields, has_ledger, Option.isSome_iff_ne_none]
  exact fun hnone => hfk ⟨hne, Option.isNone_iff_eq_none.mpr hnone⟩

/-- A block on record with its body: what the three ways of recovering one have in common. -/
theorem ledger_fill {blockId height : ℕ} {retained : RetainedBlockInfo} {source : String}
    (hs : source ≠ headerOnlySource) {db₁ db₂ : Db} {at_ : Instant} {resolution : String}
    (h : db.insertTransactions blockId retained = .ok db₁)
    (hsame : db₂.ledger = (db₁.markBodyRecovered blockId source).ledger) :
    (db₂.resolveGap height at_ resolution).ledger
      = (Op.fill blockId height (retained.transactions ≠ [])).apply db.ledger := by
  have hmark : (db₁.markBodyRecovered blockId source).ledger
      = { db₁.ledger with
          entries := db₁.ledger.setFlags blockId (fun _ => true) true } :=
    ledger_updateFlags fun b => by
      simp [BlockRow.entry, BlockRow.archived, hs]
  rw [ledger_resolveGap, hsame, hmark, ledger_insertTransactions h]
  rfl

/-! ### Writes the ledger does not see -/

/-- The ledger reads of a transaction only which block it belongs to. -/
theorem ledger_transactions {t : Table TransactionRow}
    (h : t.rows.map TransactionRow.blockId = db.transactions.rows.map TransactionRow.blockId) :
    ({ db with transactions := t } : Db).ledger = db.ledger := by
  have hany : ∀ (rows : List TransactionRow) (k : ℕ), (rows.any fun t => t.blockId = k)
      = (rows.map TransactionRow.blockId).any fun b => b = k := fun rows k => by
    rw [List.any_map]
    rfl
  refine Ledger.ext rfl rfl (funext fun k => ?_) rfl
  change t.rows.any _ = db.transactions.rows.any _
  rw [hany, hany, h]

theorem map_modify {ρ κ : Type} [Row ρ] {key : ρ → κ} (t : Table ρ) {p : ρ → Bool} {f : ρ → ρ}
    {hf : ∀ r s, Row.clash (f r) s = Row.clash r s} (h : ∀ r, key (f r) = key r) :
    (t.modify p f hf).rows.map key = t.rows.map key := by
  rw [Table.rows_modify, List.map_map]
  refine List.map_congr_left fun r _ => ?_
  simp only [Function.comp, Table.updated]
  split_ifs
  · exact h r
  · rfl

theorem map_flagPositions (id : ℕ) : ∀ (flags : List (ℕ × ℕ)) (t : Table TransactionRow),
    (flags.foldl (flagPosition id) t).rows.map TransactionRow.blockId
      = t.rows.map TransactionRow.blockId
  | [], _ => rfl
  | f :: flags, t => by
      rw [List.foldl_cons, map_flagPositions id flags, flagPosition, map_modify]
      exact fun _ => rfl

theorem ledger_setContractFlags (db : Db) (height : ℕ) (hash : String) (flags : List (ℕ × ℕ)) :
    (db.setContractFlags height hash flags).ledger = db.ledger := by
  unfold setContractFlags
  split
  · rfl
  · refine (ledger_updateBlocks ?_).trans (ledger_transactions ?_)
    · exact fun _ => rfl
    · rw [map_flagPositions, map_modify]
      exact fun _ => rfl

theorem ledger_recordContractFlags (N : Noid) (db : Db) (height : ℕ) (hash : String)
    (raw : Option (List UInt8)) :
    (db.recordContractFlags N height hash raw).ledger = db.ledger := by
  unfold recordContractFlags
  repeat' split
  all_goals first | rfl | exact ledger_setContractFlags ..

theorem ledger_storeRaw {N : Noid} {height : ℕ} {hash : String} {bytes : List UInt8}
    {source : String} {now : Instant} {stored : Bool}
    (h : db.storeRaw N height hash bytes source now = .ok (db', stored)) :
    db'.ledger = db.ledger := by
  unfold storeRaw at h
  split at h
  · cases h; rfl
  · split_ifs at h
    · cases h; rfl
    · simp only [bind_ok, pure_ok, Prod.mk.injEq] at h
      obtain ⟨-, -, rfl, -⟩ := h
      rfl

theorem ledger_keepRaw (N : Noid) (cfg : Config) (db : Db) (height : ℕ) (hash : String)
    (bytes : Option (List UInt8)) (source : String) (now : Instant) :
    (db.keepRaw N cfg height hash bytes source now).ledger = db.ledger := by
  unfold keepRaw
  split_ifs
  · split
    · rfl
    · split
      · next h => exact ledger_storeRaw h
      · rfl
  · rfl

theorem ledger_upsertBalances (now : Instant) :
    ∀ (rows : List (String × String × ℕ)) (db : Db), (db.upsertBalances rows now).ledger = db.ledger
  | [], _ => rfl
  | _ :: rows, _ => ledger_upsertBalances now rows _

/-! ### The transactions -/

theorem ledger_storeBlock {details : BlockDetailsInfo} {source : String}
    (hs : source ≠ headerOnlySource) {now : Instant}
    (h : db.storeBlock details source now = .ok db') :
    db'.ledger = Op.applyAll (db.storeOps details) db.ledger := by
  simp only [storeBlock, bind_ok, orError_ok] at h
  obtain ⟨retained, hret, h⟩ := h
  rw [storeOps, hret]
  dsimp only
  split_ifs at h ⊢ with hrec
  · rcases hid : db.uncapturedBlockId details.header.height details.header.hash with _ | id
    · rw [hid] at h
      obtain rfl := pure_ok.mp h
      rfl
    · rw [hid] at h
      simp only [bind_ok, pure_ok] at h
      obtain ⟨db₁, h₁, rfl⟩ := h
      exact ledger_fill hs h₁ rfl
  · simp only [bind_ok] at h
    obtain ⟨⟨db₁, id⟩, h₁, h₂⟩ := h
    obtain ⟨hl, hid⟩ := ledger_insertBlockHeaderRow h₁
    rw [ledger_insertTransactions h₂, hl, hid]
    simp [Op.applyAll, Op.apply, hs]

theorem ledger_recordGapBlock {details : BlockDetailsInfo} {note : String} {now : Instant}
    (h : db.recordGapBlock details note now = .ok db') :
    db'.ledger = Op.applyAll (db.gapOps details) db.ledger := by
  unfold recordGapBlock at h
  unfold gapOps
  dsimp only at h ⊢
  split_ifs at h ⊢ with hrec
  · obtain rfl := pure_ok.mp h
    exact ledger_recordGap ..
  · simp only [bind_ok, pure_ok] at h
    obtain ⟨⟨db₁, id⟩, h₁, rfl⟩ := h
    rw [ledger_recordGap, (ledger_insertBlockHeaderRow h₁).1]
    rfl

theorem ledger_storeKept {N : Noid} {cfg : Config} {height : ℕ} {details : BlockDetailsInfo}
    {source : String} (hs : source ≠ headerOnlySource) {raw : Option (List UInt8)} {now : Instant}
    (h : db.storeKept N cfg height details source raw now = .ok db') :
    db'.ledger = Op.applyAll (db.storeOps details) db.ledger := by
  simp only [storeKept, bind_ok, pure_ok] at h
  obtain ⟨db₁, h₁, rfl⟩ := h
  rw [ledger_keepRaw, ledger_recordContractFlags, ledger_storeBlock hs h₁]

theorem ledger_replaceBlock {N : Noid} {cfg : Config} {height old : ℕ} {at_ : Instant}
    {hash : String} {replacement : Option BodyOutcome} (hr : ∀ r ∈ replacement, r.Genuine)
    {now : Instant}
    (h : db.replaceBlock N cfg height old at_ hash replacement now = .ok db') :
    db'.ledger = Op.applyAll (.orphan old
      :: (db.appendStatus old .orphaned at_).replacementOps height replacement) db.ledger := by
  have horphan : (db.appendStatus old .orphaned at_).ledger = (Op.orphan old).apply db.ledger := by
    rw [ledger_appendStatus]
    rfl
  simp only [replaceBlock, markOrphaned, bind_ok] at h
  obtain ⟨db₁, h₁, h₂⟩ := h
  obtain rfl : db.appendStatus old .orphaned at_ = db₁ := by
    split_ifs at h₁
    exact Except.ok.inj h₁
  change _ = Op.applyAll _ ((Op.orphan old).apply db.ledger)
  rw [← horphan]
  rcases replacement with _ | ⟨details, source, raw⟩ | ⟨details, note⟩
  · obtain rfl := pure_ok.mp h₂
    exact ledger_recordGap ..
  · exact ledger_storeKept (hr _ rfl) h₂
  · exact ledger_recordGapBlock h₂

theorem ledger_recoverBody {N : Noid} {cfg : Config} {height blockId : ℕ} {hash : String}
    {retained : RetainedBlockInfo} {raw : List UInt8} {now : Instant}
    (h : db.recoverBody N cfg height hash blockId retained raw now = .ok db') :
    db'.ledger = (Op.fill blockId height (retained.transactions ≠ [])).apply db.ledger := by
  simp only [recoverBody, bind_ok, pure_ok] at h
  obtain ⟨db₁, h₁, rfl⟩ := h
  have hs : "getblock" ≠ headerOnlySource := by decide
  refine ledger_fill hs h₁ ?_
  rw [ledger_keepRaw, ledger_recordContractFlags]

theorem ledger_fillBody {N : Noid} {height blockId : ℕ} {hash : String}
    {body : RetainedBlockInfo} {bytes : Option (List UInt8)} {source resolution : String}
    (hs : source ≠ headerOnlySource) {keep : Bool} {now : Instant}
    (h : db.fillBody N height hash blockId body bytes source resolution keep now = .ok db') :
    db'.ledger = (Op.fill blockId height (body.transactions ≠ [])).apply db.ledger := by
  simp only [fillBody, bind_ok] at h
  obtain ⟨db₁, h₁, h₂⟩ := h
  rcases bytes with _ | bytes
  · simp only [bind_ok, pure_ok] at h₂
    obtain ⟨_, rfl, rfl⟩ := h₂
    exact ledger_fill hs h₁ rfl
  · split_ifs at h₂
    · simp only [bind_ok, map_ok, pure_ok] at h₂
      obtain ⟨_, ⟨⟨db₂, stored⟩, hraw, rfl⟩, rfl⟩ := h₂
      refine ledger_fill hs h₁ ?_
      rw [ledger_storeRaw hraw, ledger_recordContractFlags]
    · simp only [bind_ok, pure_ok] at h₂
      obtain ⟨_, rfl, rfl⟩ := h₂
      exact ledger_fill hs h₁ (ledger_recordContractFlags ..)

/-- A pruned block keeps its row and loses its transactions. -/
theorem ledger_pruneBlock {blockId : ℕ} (h : db.pruneBlock blockId = .ok db') :
    db'.ledger = (Op.prune blockId).apply db.ledger := by
  unfold pruneBlock at h
  dsimp only at h
  split_ifs at h
  obtain rfl := Except.ok.inj h
  rw [ledger_updateFlags (a := fun a => a) (c := false)]
  · refine Ledger.ext rfl rfl (funext fun k => ?_) rfl
    change (db.transactions.rows.filter fun t => !decide (t.blockId = blockId)).any
      (fun t => decide (t.blockId = k)) = Function.update db.ledger.bodied blockId false k
    by_cases hk : k = blockId
    · subst hk
      rw [Function.update_self, List.any_eq_false]
      intro t ht
      simpa using (List.mem_filter.mp ht).2
    · rw [Function.update_of_ne hk, List.any_filter]
      refine congrArg db.transactions.rows.any (funext fun t => ?_)
      by_cases htk : t.blockId = k
      · simp [htk, hk]
      · simp [htk]
  · exact fun _ => rfl

/-- A header below the archive enters where nothing is. -/
theorem ledger_insertHeaderOnlyBlock {h : BlockHeaderInfo} {now : Instant} {inserted : Bool}
    (hdb : db.insertHeaderOnlyBlock h now = .ok (db', inserted)) :
    db'.ledger = (Op.enterHeader h.height h.hash).apply db.ledger := by
  have hany : (db.ledger.entries.rows.any fun e => e.height = h.height) = true
      ↔ db.hashesAt h.height ≠ [] := by
    rw [ledger, List.any_map, List.any_eq_true, hashesAt, ne_eq, List.map_eq_nil_iff,
      List.filter_eq_nil_iff]
    simp only [not_forall, not_not, exists_prop, Function.comp, BlockRow.entry]
    rfl
  unfold insertHeaderOnlyBlock at hdb
  split_ifs at hdb with hin
  · obtain ⟨rfl, -⟩ := Prod.mk.inj (Except.ok.inj hdb)
    rw [Op.apply, if_pos (hany.mpr (List.ne_nil_of_mem hin))]
  · split at hdb
    · cases hdb
    · next hhead =>
      obtain ⟨rfl, -⟩ := Prod.mk.inj (Except.ok.inj hdb)
      have hnil : db.hashesAt h.height = [] := List.head?_eq_none_iff.mp hhead
      have hnone : db.ledger.find h.height h.hash = none := by
        rw [Ledger.find, List.find?_eq_none]
        intro e he hk
        exact hany.mp (List.any_eq_true.mpr ⟨e, he, decide_eq_true (of_decide_eq_true hk).1⟩) hnil
      rw [ledger_appendStatus, Op.apply, if_neg (fun hp => hany.mp hp hnil)]
      refine Ledger.ext (entries_insertHeader db h false (some headerOnlySource) now) ?_ rfl rfl
      change Function.update db.ledger.canonical (db.blocks.nextId BlockRow.id) _ = _
      rw [Ledger.enter, Ledger.entryId, hnone, ← nextId_ledger]
      rfl

/-- A receipt's transaction goes to the header-only block it is for. -/
theorem ledger_insertReceiptTransaction {blockId : ℕ} {tx : ReceiptTransaction} {now : Instant}
    {inserted : Bool} (h : db.insertReceiptTransaction blockId tx now = .ok (db', inserted)) :
    db'.ledger = (Op.attach blockId).apply db.ledger := by
  obtain ⟨hheader, -, -, hdone⟩ := insertReceiptTransaction_ok.mp h
  rw [isHeaderOnly, Option.any_eq_true] at hheader
  obtain ⟨b, hb, hb'⟩ := hheader
  obtain ⟨hmem, hid⟩ := mem_of_block? hb
  have hany : (db.ledger.entries.rows.any fun e => e.id = blockId ∧ e.archived = false) = true := by
    rw [ledger, List.any_map, List.any_eq_true]
    exact ⟨b, hmem, decide_eq_true ⟨hid, by simpa [BlockRow.entry] using hb'⟩⟩
  rw [Op.apply, if_pos hany]
  rcases hdone with ⟨-, rfl, t, ht, -⟩ | ⟨-, hwrite, -⟩
  · have hbodied : db'.ledger.bodied blockId = true :=
      List.any_eq_true.mpr ⟨t, List.mem_filter.mp ht⟩
    refine Ledger.ext rfl rfl ?_ rfl
    rw [← hbodied, Function.update_eq_self]
  · have hw := writeReceiptTransaction_ok hwrite
    rw [hw.rest, ledger_updateBlocks]
    swap
    · exact fun _ => rfl
    refine Ledger.ext rfl rfl (funext fun k => ?_) rfl
    change (db'.transactions.rows.any fun t => t.blockId = k) = _
    rw [hw.transactions, any_append_transaction]
    rfl

theorem ledger_insertHeaders {now : Instant} : ∀ {batch : List BlockHeaderInfo} {db : Db},
    db.insertHeaders now batch = .ok db' →
      db'.ledger = Op.applyAll (batch.map fun h => .enterHeader h.height h.hash) db.ledger
  | [], db, h => by
      obtain rfl := pure_ok.mp h
      rfl
  | hd :: batch, db, h => by
      rw [insertHeaders, List.foldlM_cons, bind_ok] at h
      obtain ⟨db₁, h₁, h₂⟩ := h
      obtain ⟨⟨db₂, inserted⟩, hins, rfl⟩ := map_ok.mp h₁
      rw [ledger_insertHeaders h₂, ledger_insertHeaderOnlyBlock hins]
      rfl

end Db

/-- **A transaction does to the ledger what its operations do.** -/
theorem Txn.exec_ledger {N : Noid} {cfg : Config} {t : Txn} {db db' : Db} (ht : t.Genuine)
    (h : t.exec N cfg db = .ok db') : db'.ledger = Op.applyAll (t.ops db) db.ledger := by
  match t with
  | .ingest .. => exact Db.ledger_storeKept ht h
  | .gapBlock .. => exact Db.ledger_recordGapBlock h
  | .replace .. => exact Db.ledger_replaceBlock ht h
  | .recover .. => exact Db.ledger_recoverBody h
  | .fillGap .. => exact Db.ledger_fillBody ht h
  | .pruneBlock .. => exact Db.ledger_pruneBlock h
  | .resolveGapsWithBodies .. =>
    obtain rfl := Except.ok.inj h
    exact Db.ledger_resolveGapsWithBodies ..
  | .headerBatch batch progress now =>
    simp only [exec] at h
    rcases hins : Db.insertHeaders now db batch with e | db₁ <;> rw [hins] at h
    · exact absurd h nofun
    · obtain rfl := Except.ok.inj h
      change db₁.ledger = _
      exact Db.ledger_insertHeaders hins
  | .receipt blockId tx now =>
    simp only [exec] at h
    rw [ops]
    rcases hins : db.insertReceiptTransaction blockId tx now with e | ⟨db₁, inserted⟩ <;>
      rw [hins] at h <;> obtain rfl := Except.ok.inj h
    · rfl
    · exact Db.ledger_insertReceiptTransaction hins
  | .fillRaw .. =>
    obtain ⟨⟨db₁, stored⟩, hraw, rfl⟩ := map_ok.mp h
    exact Db.ledger_storeRaw hraw
  | .keepRaw .. =>
    obtain rfl := Except.ok.inj h
    exact Db.ledger_keepRaw ..
  | .setTipSeen .. =>
    obtain rfl := Except.ok.inj h
    exact Db.ledger_updateBlocks fun _ => rfl
  | .adoptTipSeen .. =>
    obtain rfl := Except.ok.inj h
    exact Db.ledger_updateBlocks fun _ => rfl
  | .adoptProofClass height hash class_ =>
    obtain rfl := Except.ok.inj h
    unfold Db.adoptProofClass
    split_ifs
    · rfl
    · exact Db.ledger_updateBlocks fun _ => rfl
  | .upsertBalances rows now =>
    obtain rfl := Except.ok.inj h
    exact Db.ledger_upsertBalances ..
  | .sweepBalances now =>
    obtain rfl := Except.ok.inj h
    exact Db.ledger_upsertBalances ..
  | .setState .. | .clearSpentInGap | .sweepSegment .. =>
    obtain rfl := Except.ok.inj h
    rfl

end Permanode
