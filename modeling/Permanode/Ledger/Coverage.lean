import Permanode.Indexer.Frames
import Permanode.Ledger.Executions
import Permanode.System.Views

/-!
# Ledger/Coverage — no hole below the progress

Every height from the first of the archive up to the progress entry is to have a canonical block.
The indexer raises the entry over a height once it has recorded a block there, and takes the mark
from a block only in the transaction that brings its replacement; the others touch neither.  Two
branches leave a hole: a re-check that finds the header of a replacement but no details records a
gap and no block (`Execution.hole`), and a fresh database that is stopped before its first progress
entry begins anew wherever the node's bodies begin by then.

**`Execution.covered`**: in a run whose transactions meet `Txn.KeepsCovered` there is no hole.  What
one thread knows between its own transactions is `coverRely`.
-/

namespace Permanode

open Outcome Prog

/-- Some block is canonical at a height. -/
def Ledger.Covers (l : Ledger) (height : ℕ) : Prop :=
  ∃ e ∈ l.entries.rows, e.height = height ∧ l.canonical e.id

instance (l : Ledger) (height : ℕ) : Decidable (l.Covers height) := by
  unfold Ledger.Covers
  infer_instance

theorem Ledger.covers_iff {l : Ledger} {height : ℕ} :
    l.Covers height ↔ ∃ i, l.CanonicalAt height i := by
  constructor
  · rintro ⟨e, he, hh, hc⟩
    exact ⟨e.id, e, he, rfl, hh, hc⟩
  · rintro ⟨_, e, he, rfl, hh, hc⟩
    exact ⟨e, he, hh, hc⟩

namespace Db

/-- Every height from the first of the archive up to the progress entry has a canonical block. -/
def Covered (db : Db) : Prop :=
  ∀ first last, db.archiveFirstHeight = some first → db.lastProcessed = some last →
    ∀ height, first ≤ height → height ≤ last →
      ∃ b ∈ db.blocks.rows, b.height = height ∧ db.isCanonical b.id

theorem covers_ledger {db : Db} {height : ℕ} : db.ledger.Covers height ↔
    ∃ b ∈ db.blocks.rows, b.height = height ∧ db.isCanonical b.id := by
  constructor
  · rintro ⟨e, he, rfl, hc⟩
    obtain ⟨b, hb, rfl⟩ := List.mem_map.mp he
    exact ⟨b, hb, rfl, hc⟩
  · rintro ⟨b, hb, rfl, hc⟩
    exact ⟨b.entry, List.mem_map_of_mem hb, rfl, hc⟩

theorem archivedAt_ledger {db : Db} {id height : ℕ} : db.ledger.ArchivedAt id height ↔
    ∃ b ∈ db.blocks.rows, b.id = id ∧ b.height = height ∧ b.archived := by
  constructor
  · rintro ⟨e, he, rfl, rfl, ha⟩
    obtain ⟨b, hb, rfl⟩ := List.mem_map.mp he
    exact ⟨b, hb, rfl, rfl, ha⟩
  · rintro ⟨b, hb, rfl, rfl, ha⟩
    exact ⟨b.entry, List.mem_map_of_mem hb, rfl, rfl, ha⟩

/-- A canonical block that turns out not to be a header-only one is of the archive. -/
theorem archivedAt_of_canonical {db db' : Db} {height id : ℕ} {hash : String}
    (hknown : db.canonicalHashAt height = some (id, hash)) (hgrow : db.ledger.Grows db'.ledger)
    (hheader : ¬ db'.isHeaderOnly id) : db'.ledger.ArchivedAt id height := by
  obtain ⟨b, hb, rfl, rfl, -⟩ := mem_of_canonicalHashAt hknown
  obtain ⟨e, he, hid, hh, -⟩ := hgrow b.entry (List.mem_map_of_mem hb)
  obtain ⟨b', hb', rfl⟩ := List.mem_map.mp he
  have hid : b'.id = b.id := hid
  rw [isHeaderOnly, ← hid, block?_eq_some hb'] at hheader
  exact archivedAt_ledger.mpr ⟨b', hb', hid, hh, by simpa using hheader⟩

/-- Every height from *any* block of the archive on: the lowest is one of them. -/
theorem covered_iff {db : Db} : db.Covered ↔
    ∀ last i a height, db.lastProcessed = some last → db.ledger.ArchivedAt i a → a ≤ height →
      height ≤ last → db.ledger.Covers height := by
  constructor
  · intro h last i a height hlast ha hle hlast'
    obtain ⟨b, hb, rfl, rfl, harch⟩ := archivedAt_ledger.mp ha
    have hmem : b.height ∈ (db.blocks.rows.filter BlockRow.archived).map BlockRow.height :=
      List.mem_map_of_mem (List.mem_filter.mpr ⟨hb, harch⟩)
    rcases hmin : db.archiveFirstHeight with _ | first
    · rw [archiveFirstHeight, List.min?_eq_none_iff] at hmin
      exact absurd (hmin ▸ hmem) List.not_mem_nil
    · have hfirst : first ≤ b.height := (List.min?_eq_some_iff.mp hmin).2 _ hmem
      exact covers_ledger.mpr (h first last hmin hlast height (hfirst.trans hle) hlast')
  · intro h first last hmin hlast height hle hlast'
    obtain ⟨b, hb, rfl⟩ := List.mem_map.mp (List.min?_eq_some_iff.mp hmin).1
    obtain ⟨hb, harch⟩ := List.mem_filter.mp hb
    exact covers_ledger.mp (h last b.id b.height height hlast
      (archivedAt_ledger.mpr ⟨b, hb, rfl, rfl, harch⟩) hle hlast')

end Db

/-! ## The condition -/

/-- What keeps the record without a hole:
a block that is taken to be on record is canonical by its log, too;
a replacement below the progress entry has details, and is not taken to be on record itself, or
another block is canonical at its height;
the first progress entry is written with no hole below it. -/
def Txn.KeepsCovered (db : Db) : Txn → Prop
  | .ingest _ details _ _ _ =>
    db.isOnRecord details.header → db.ledger.Covers details.header.height
  | .gapBlock details _ _ => db.isOnRecord details.header → db.ledger.Covers details.header.height
  | .replace height oldBlockId orphanedAt _ replacement _ =>
    (∃ last ∈ db.lastProcessed, height ≤ last) →
      (∃ r ∈ replacement,
        (db.appendStatus oldBlockId .orphaned orphanedAt).isOnRecord r.header = false)
      ∨ ∃ e ∈ db.ledger.entries.rows,
        e.id ≠ oldBlockId ∧ e.height = height ∧ db.ledger.canonical e.id
  | .setState key value => key = lastProcessedKey → db.lastProcessed = none →
    ∀ first ∈ Text.parseU64 value, ∀ e ∈ db.ledger.entries.rows, e.archived →
      ∀ height < first.toNat, e.height ≤ height → db.ledger.Covers height
  | _ => True

instance (db : Db) (t : Txn) : Decidable (t.KeepsCovered db) := by
  unfold Txn.KeepsCovered
  split
  case h_4 value =>
    -- of the entry alone, not of every word
    have (P : UInt64 → Prop) [DecidablePred P] : Decidable (∀ n ∈ Text.parseU64 value, P n) :=
      Option.decidableForallMem _
    infer_instance
  all_goals infer_instance

/-- A node that answers with the block of the height it is asked for; everything else may answer
anything. -/
def heightAnswers : ∀ q : Query, q.Answer → Prop
  | .blockDetails height, .ok (some details) => details.header.height = height
  | _, _ => True

/-! ## What the threads owe each other -/

/-- A step that leaves the progress and every canonical block. -/
def Db.Gentle (db db' : Db) : Prop :=
  db'.lastProcessed = db.lastProcessed
    ∧ ∀ h k, db.ledger.CanonicalAt h k → db'.ledger.CanonicalAt h k

/-- What the other threads do between two actions of thread `i`: no block leaves the record, and to
the indexer they are gentle. -/
def coverRely (i : Thread) (db db' : Db) : Prop :=
  db.ledger.Grows db'.ledger ∧ (i = .indexer → db.Gentle db')

/-- What thread `i` keeps to in return. -/
def coverGuar (i : Thread) (db : Db) (_ : Txn) (db' : Db) : Prop :=
  db.ledger.Grows db'.ledger ∧ (i ≠ .indexer → db.Gentle db')

variable {N : Noid} {cfg : Config} {t : Txn} {db db' db'' : Db} {i : Thread}

theorem coverRely_refl (i : Thread) (db : Db) : coverRely i db db :=
  ⟨.refl _, fun _ => ⟨rfl, fun _ _ h => h⟩⟩

theorem coverRely_trans (i : Thread) (db db' db'' : Db) (h : coverRely i db db')
    (h' : coverRely i db' db'') : coverRely i db db'' :=
  ⟨h.1.trans h'.1, fun hi => ⟨(h'.2 hi).1.trans (h.2 hi).1, fun k j hc =>
    (h'.2 hi).2 k j ((h.2 hi).2 k j hc)⟩⟩

theorem coverRely_of_guar {i j : Thread} (hij : i ≠ j) (h : coverGuar i db t db') :
    coverRely j db db' :=
  ⟨h.1, fun hj => h.2 fun hi => hij (hi.trans hj.symm)⟩

/-- The setting of thread `i`. -/
abbrev coverSetting (N : Noid) (cfg : Config) (i : Thread) :
    Setting Query Query.Answer Db Txn String :=
  ⟨heightAnswers, Txn.exec N cfg, Db.Covered, coverRely i, coverGuar i,
    fun db t => t.KeepsCovered db⟩

/-! ## Transactions that make no hole -/

theorem covers_mono {height : ℕ} (h : ∀ k j, db.ledger.CanonicalAt k j → db'.ledger.CanonicalAt k j)
    (hc : db.ledger.Covers height) : db'.ledger.Covers height :=
  have ⟨j, hj⟩ := Ledger.covers_iff.mp hc
  Ledger.covers_iff.mpr ⟨j, h height j hj⟩

/-- Blocks come into the archive above the progress entry, and no covered height below it is
lost. -/
theorem Db.Covered.step (h : db.Covered) (hlast : db'.lastProcessed = db.lastProcessed)
    (harch : ∀ last j a, db.lastProcessed = some last → db'.ledger.ArchivedAt j a →
      (∃ j', db.ledger.ArchivedAt j' a) ∨ last < a)
    (hcov : ∀ last k, db.lastProcessed = some last → k ≤ last → db.ledger.Covers k →
      db'.ledger.Covers k) : db'.Covered := by
  refine Db.covered_iff.mpr fun last j a k hl ha hak hkl => ?_
  rw [hlast] at hl
  rcases harch last j a hl ha with ⟨j', ha'⟩ | hlt
  · exact hcov last k hl hkl (Db.covered_iff.mp h last j' a k hl ha' hak hkl)
  · omega

/-- A transaction that orphans nothing and brings blocks into the archive above the progress entry
only. -/
theorem covered_of_gentle (hg : t.Genuine) (hs : ∀ value, t ≠ .setState lastProcessedKey value)
    (horph : ∀ op ∈ t.ops db, ∀ k, op ≠ .orphan k)
    (harch : ∀ last, db.lastProcessed = some last → ∀ op ∈ t.ops db, ∀ l' a,
      db.ledger.Grows l' → op.Archives l' a → last < a)
    (h : db.Covered) (hexec : t.exec N cfg db = .ok db') :
    db'.Covered ∧ db.ledger.Grows db'.ledger ∧ db.Gentle db' := by
  have hlast := Txn.exec_lastProcessed hs hexec
  have hl := Txn.exec_ledger hg hexec
  have hcanon : ∀ k j, db.ledger.CanonicalAt k j → db'.ledger.CanonicalAt k j := fun k j hc =>
    hl ▸ Op.canonicalAt_applyAll _ (fun op hop => horph op hop j) hc
  refine ⟨h.step hlast ?_ fun _ _ _ _ hc => covers_mono hcanon hc,
    hl ▸ Op.grows_applyAll _ _, hlast, hcanon⟩
  intro last j a hdb ha
  rw [hl] at ha
  rcases Op.archivedAt_applyAll _ ha with ha | ⟨op, hop, l', hgrow, ha⟩
  · exact Or.inl ⟨j, ha⟩
  · exact Or.inr (harch last hdb op hop l' a hgrow ha)

/-- The transactions beside the recording of blocks. -/
theorem covered_of_aside (ht : t.Aside cfg) (h : db.Covered) (hexec : t.exec N cfg db = .ok db') :
    db'.Covered ∧ db.ledger.Grows db'.ledger ∧ db.Gentle db' := by
  have hops : ∀ op ∈ t.ops db, (∀ k, op ≠ .orphan k) ∧ ∀ l' a, ¬ op.Archives l' a := by
    match t with
    | .pruneBlock _ | .resolveGapsWithBodies _ =>
      intro op hop
      rw [List.mem_singleton.mp hop]
      exact ⟨fun _ h => Op.noConfusion h, fun _ _ h => h⟩
    | .headerBatch batch _ _ =>
      intro op hop
      obtain ⟨hd, -, rfl⟩ := List.mem_map.mp hop
      exact ⟨fun _ h => Op.noConfusion h, fun _ _ h => h⟩
    | .receipt blockId tx now =>
      rw [Txn.ops]
      split
      · intro op hop
        rw [List.mem_singleton.mp hop]
        exact ⟨fun _ h => Op.noConfusion h, fun _ _ h => h⟩
      · exact fun _ h => absurd h List.not_mem_nil
    | .setState .. | .keepRaw .. | .fillRaw .. | .clearSpentInGap | .setTipSeen ..
    | .adoptTipSeen .. | .adoptProofClass .. | .sweepSegment .. | .sweepBalances _
    | .upsertBalances .. => exact fun _ h => absurd h List.not_mem_nil
  refine covered_of_gentle ht.genuine ?_ (fun op hop => (hops op hop).1)
    (fun _ _ op hop l' a _ ha => absurd ha ((hops op hop).2 l' a)) h hexec
  rintro value rfl
  exact ht rfl

/-- A fill of a block of the archive. -/
theorem covered_of_fill {blockId height : ℕ} {filled : Bool} (hg : t.Genuine)
    (hs : ∀ value, t ≠ .setState lastProcessedKey value)
    (hops : t.ops db = [.fill blockId height filled]) (ha : ∃ a, db.ledger.ArchivedAt blockId a)
    (h : db.Covered) (hexec : t.exec N cfg db = .ok db') :
    db'.Covered ∧ db.ledger.Grows db'.ledger ∧ db.Gentle db' := by
  refine covered_of_gentle hg hs ?_ ?_ h hexec
  · rw [hops]
    exact List.forall_mem_singleton.mpr nofun
  · rw [hops]
    intro last _
    refine List.forall_mem_singleton.mpr fun l' a hgrow harch => ?_
    obtain ⟨a, ha⟩ := ha
    exact absurd ⟨a, hgrow.archivedAt ha⟩ harch

/-! ## The transactions of a poll -/

/-- What is stored of a block enters at its height, or fills a row of the archive. -/
theorem storeOps_gentle {details : BlockDetailsInfo} {op : Op} (hop : op ∈ db.storeOps details) :
    (∀ k, op ≠ .orphan k) ∧ ∀ l' a, db.ledger.Grows l' → op.Archives l' a →
      a = details.header.height := by
  unfold Db.storeOps at hop
  split at hop
  · exact absurd hop List.not_mem_nil
  · dsimp only at hop
    split_ifs at hop
    · split at hop
      · exact absurd hop List.not_mem_nil
      · next id hid =>
        rw [List.mem_singleton.mp hop]
        refine ⟨nofun, fun l' a hgrow harch => absurd ?_ harch⟩
        obtain ⟨b, hb, rfl, -, -, -, ha⟩ := Db.mem_of_uncapturedBlockId hid
        exact ⟨b.height, hgrow.archivedAt (Db.archivedAt_ledger.mpr ⟨b, hb, rfl, rfl, ha⟩)⟩
    · rw [List.mem_singleton.mp hop]
      exact ⟨nofun, fun _ _ _ h => h⟩

theorem gapOps_gentle {details : BlockDetailsInfo} {op : Op} (hop : op ∈ db.gapOps details) :
    (∀ k, op ≠ .orphan k) ∧ ∀ l' a, db.ledger.Grows l' → op.Archives l' a →
      a = details.header.height := by
  unfold Db.gapOps at hop
  dsimp only at hop
  split_ifs at hop
  · rw [List.mem_singleton.mp hop]
    exact ⟨nofun, fun _ _ _ h => h.elim⟩
  · rw [List.mem_singleton.mp hop]
    exact ⟨nofun, fun _ _ _ h => h⟩

/-- A block that is written and was not taken to be on record covers its height. -/
theorem covers_storeOps {details : BlockDetailsInfo} (hret : details.retained.isSome)
    (h : db.isOnRecord details.header = false) :
    (Op.applyAll (db.storeOps details) db.ledger).Covers details.header.height := by
  obtain ⟨retained, hr⟩ := Option.isSome_iff_exists.mp hret
  rw [Db.storeOps, hr]
  dsimp only
  rw [h, if_neg Bool.false_ne_true]
  exact Ledger.covers_iff.mpr ⟨_, (Op.enterBody ..).canonicalAt_apply.mpr (Or.inr ⟨_, rfl, rfl⟩)⟩

theorem covers_gapOps {details : BlockDetailsInfo} (h : db.isOnRecord details.header = false) :
    (Op.applyAll (db.gapOps details) db.ledger).Covers details.header.height := by
  rw [Db.gapOps, h, if_neg Bool.false_ne_true]
  exact Ledger.covers_iff.mpr ⟨_, (Op.enterGap ..).canonicalAt_apply.mpr (Or.inr ⟨_, rfl, rfl⟩)⟩

/-- The next height to be processed, if any was. -/
def Before (height : ℕ) (db : Db) : Prop := ∀ last, db.lastProcessed = some last → last + 1 = height

/-- What ingesting a height keeps, and that it leaves the height covered. -/
theorem covered_of_write {height : ℕ} {ops : List Op} {header : BlockHeaderInfo} (hg : t.Genuine)
    (hs : ∀ value, t ≠ .setState lastProcessedKey value) (hops : t.ops db = ops)
    (hgentle : ∀ op ∈ ops, (∀ k, op ≠ .orphan k) ∧ ∀ l' a, db.ledger.Grows l' →
      op.Archives l' a → a = header.height)
    (hcov : db.isOnRecord header = false → (Op.applyAll ops db.ledger).Covers header.height)
    (hc : db.isOnRecord header → db.ledger.Covers header.height) (hh : header.height = height)
    (hb : Before height db) (h : db.Covered) (hexec : t.exec N cfg db = .ok db') :
    db'.Covered ∧ coverGuar .indexer db t db' ∧ Before height db' ∧ db'.ledger.Covers height := by
  subst hh hops
  have hlast := Txn.exec_lastProcessed hs hexec
  obtain ⟨hcov', hgrow, -, hcanon⟩ := covered_of_gentle hg hs (fun op hop => (hgentle op hop).1)
    (fun last hl op hop l' a hgrow ha => by
      have := (hgentle op hop).2 l' a hgrow ha
      have := hb last hl
      omega) h hexec
  refine ⟨hcov', ⟨hgrow, fun hne => absurd rfl hne⟩, fun last hl => hb last (hlast ▸ hl), ?_⟩
  rcases hrec : db.isOnRecord header with _ | _
  · rw [Txn.exec_ledger hg hexec]
    exact hcov hrec
  · exact covers_mono hcanon (hc hrec)

/-- A body that is written is there. -/
theorem retained_of_storeKept {height : ℕ} {details : BlockDetailsInfo} {source : String}
    {raw : Option (List UInt8)} {now : Instant}
    (h : db.storeKept N cfg height details source raw now = .ok db') : details.retained.isSome := by
  simp only [Db.storeKept, Db.storeBlock, bind_ok, orError_ok] at h
  obtain ⟨_, ⟨retained, hr, -⟩, -⟩ := h
  exact Option.isSome_iff_exists.mpr ⟨retained, hr⟩

/-- **A replacement makes no hole when it meets its condition.** -/
theorem covered_of_replace {height old : ℕ} {orphanedAt now : Instant} {hash : String}
    {replacement : Option BodyOutcome} (hold : db.ledger.ArchivedAt old height)
    (hr : ∀ r ∈ replacement, r.Genuine ∧ r.header.height = height)
    (hc : (Txn.replace height old orphanedAt hash replacement now).KeepsCovered db)
    (h : db.Covered)
    (hexec : (Txn.replace height old orphanedAt hash replacement now).exec N cfg db = .ok db') :
    db'.Covered ∧ coverGuar .indexer db
      (.replace height old orphanedAt hash replacement now) db' := by
  have hg : (Txn.replace height old orphanedAt hash replacement now).Genuine :=
    fun r hmem => (hr r hmem).1
  have hl := Txn.exec_ledger hg hexec
  let db₁ := db.appendStatus old .orphaned orphanedAt
  have hdb₁ : (Op.orphan old).apply db.ledger = db₁.ledger := by
    rw [Db.ledger_appendStatus]
    rfl
  change db'.ledger = Op.applyAll (db₁.replacementOps height replacement)
    ((Op.orphan old).apply db.ledger) at hl
  rw [hdb₁] at hl
  have hgentle : ∀ op ∈ db₁.replacementOps height replacement, (∀ k, op ≠ .orphan k)
      ∧ ∀ l' a, db₁.ledger.Grows l' → op.Archives l' a → a = height := by
    rcases replacement with _ | ⟨details, source, raw⟩ | ⟨details, note⟩
    · exact List.forall_mem_singleton.mpr ⟨nofun, fun _ _ _ h => h.elim⟩
    · exact fun op hop => (hr _ rfl).2 ▸ storeOps_gentle hop
    · exact fun op hop => (hr _ rfl).2 ▸ gapOps_gentle hop
  have hkeep : ∀ k j, j ≠ old → db.ledger.CanonicalAt k j → db'.ledger.CanonicalAt k j := by
    intro k j hj hcan
    rw [hl]
    refine Op.canonicalAt_applyAll _ (fun op hop => (hgentle op hop).1 j) ?_
    rw [← hdb₁]
    refine Op.canonicalAt_mono _ ?_ hcan
    rintro ⟨⟩
    exact hj rfl
  have hgrow : db.ledger.Grows db'.ledger := by
    rw [hl, ← hdb₁]
    exact Op.grows_applyAll (_ :: _) db.ledger
  refine ⟨h.step (Txn.exec_lastProcessed (fun _ h => Txn.noConfusion h) hexec) ?_ ?_, hgrow,
    fun hne => absurd rfl hne⟩
  · intro last j a _ ha
    rw [hl] at ha
    rcases Op.archivedAt_applyAll _ ha with ha | ⟨op, hop, l', hg, ha⟩
    · rw [← hdb₁] at ha
      exact Or.inl ⟨j, ha⟩
    · exact Or.inl ⟨old, (hgentle op hop).2 l' a hg ha ▸ hold⟩
  · intro last k hlast hkl hcovers
    obtain ⟨j, hcan⟩ := Ledger.covers_iff.mp hcovers
    by_cases hj : j = old
    · subst hj
      obtain ⟨e, he, hid, rfl, -⟩ := hcan
      obtain ⟨e₀, he₀, hid₀, hh₀, -⟩ := hold
      obtain rfl := Ledger.eq_of_id he he₀ (hid.trans hid₀.symm)
      rcases hc ⟨last, hlast, hh₀ ▸ hkl⟩ with ⟨r, hmem, hrec⟩ | ⟨e', he', hne, hh', hcan⟩
      · obtain rfl := Option.mem_def.mp hmem
        rw [hl, hh₀, ← (hr r hmem).2]
        rcases r with ⟨details, source, raw⟩ | ⟨details, note⟩
        · refine covers_storeOps ?_ hrec
          simp only [Txn.exec, Db.replaceBlock, bind_ok] at hexec
          obtain ⟨_, -, hstore⟩ := hexec
          exact retained_of_storeKept hstore
        · exact covers_gapOps hrec
      · exact Ledger.covers_iff.mpr ⟨e'.id, hh₀ ▸ hkeep height e'.id hne
          ⟨e', he', rfl, hh', hcan⟩⟩
    · exact Ledger.covers_iff.mpr ⟨j, hkeep k j hj hcan⟩

end Permanode
