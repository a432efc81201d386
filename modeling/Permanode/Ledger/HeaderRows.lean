import Permanode.Ledger.Coverage
import Permanode.Ledger.Founded
import Permanode.Ledger.Readings

/-!
# Ledger/HeaderRows — the headers below the archive

The header backfill hangs rows of headers only below the archive's first block, each the parent of
the one above it: `Db.HeadersLinked`.  Two kinds of steps matter to it.

* `HeadersLinked.spares` — a transaction that moves nothing up to the archive's first block leaves
  the rows as they are.
* `HeadersLinked.insertHeaders` — a batch that begins right below the lowest row, with the header
  that row names as its parent, extends them.
-/

namespace Permanode

open Outcome

namespace Db

variable {db db' db'' : Db}

/-! ## Readings -/

theorem lowestRecordedHeight_iff {n : ℕ} : db.lowestRecordedHeight = some n ↔
    (∃ b ∈ db.blocks.rows, b.height = n) ∧ ∀ b ∈ db.blocks.rows, n ≤ b.height := by
  rw [lowestRecordedHeight, List.min?_eq_some_iff, List.mem_map]
  exact and_congr_right fun _ => List.forall_mem_map

theorem archiveFirstHeight_iff_rows {n : ℕ} : db.archiveFirstHeight = some n ↔
    (∃ b ∈ db.blocks.rows, b.archived ∧ b.height = n)
      ∧ ∀ b ∈ db.blocks.rows, b.archived → n ≤ b.height := by
  rw [archiveFirstHeight, List.min?_eq_some_iff, List.mem_map]
  simp only [List.mem_map, List.mem_filter, and_assoc, forall_exists_index, and_imp]
  exact and_congr_right fun _ => ⟨fun h b hb ha => h b.height b hb ha rfl,
    fun h k b hb ha hk => hk ▸ h b hb ha⟩

/-- The canonical link of a height is read off its slice. -/
theorem canonicalLinkAt_slice (db : Db) (height : ℕ) : db.canonicalLinkAt height
    = (List.argmax (fun x : BlockRow × StatusRow => x.2.id)
      ((db.slice height).flatMap canonicalEntries)).map fun x => (x.1.hash, x.1.prevHash) := by
  have hentries : (db.slice height).flatMap canonicalEntries
      = (db.canonicalEntriesAt height).map fun x => (x.1.bare, x.2) := by
    rw [slice, canonicalEntriesAt, List.flatMap_map, List.map_flatMap]
    refine congrArg (fun f => List.flatMap f _) (funext fun b => ?_)
    rw [List.map_map]
    rfl
  rw [hentries, argmax_map, Option.map_map, canonicalLinkAt, canonicalHashAt]
  rcases hmax : List.argmax (fun x : BlockRow × StatusRow => x.2.id)
    (db.canonicalEntriesAt height) with _ | ⟨b, s⟩
  · rw [show List.argmax ((fun x : BlockRow × StatusRow => x.2.id) ∘ fun x => (x.1.bare, x.2))
      (db.canonicalEntriesAt height) = none from hmax]
    rfl
  · obtain ⟨b', hb', hs⟩ := List.mem_flatMap.mp (List.argmax_mem hmax)
    obtain ⟨_, _, hpair⟩ := List.mem_map.mp hs
    obtain ⟨rfl, -⟩ := Prod.mk.inj hpair
    have hblock : db.block? b'.id = some b' := block?_eq_some (List.mem_filter.mp hb').1
    rw [show List.argmax ((fun x : BlockRow × StatusRow => x.2.id) ∘ fun x => (x.1.bare, x.2))
      (db.canonicalEntriesAt height) = some (b', s) from hmax]
    simp [hblock, BlockRow.bare]

theorem canonicalLinkAt_congr {height : ℕ} (h : db'.slice height = db.slice height) :
    db'.canonicalLinkAt height = db.canonicalLinkAt height := by
  rw [canonicalLinkAt_slice, canonicalLinkAt_slice, h]

/-- A row of one record is one of another with the same slice, under the same status entries. -/
theorem row_of_slice {b : BlockRow} (hb : b ∈ db.blocks.rows)
    (h : db'.slice b.height = db.slice b.height) :
    ∃ b' ∈ db'.blocks.rows, b'.id = b.id ∧ b'.height = b.height ∧ b'.hash = b.hash
      ∧ db'.statusesOf b'.id = db.statusesOf b.id := by
  have hmem : (b.bare, db.statusesOf b.id) ∈ db'.slice b.height := by
    rw [h]
    exact List.mem_map.mpr ⟨b, List.mem_filter.mpr ⟨hb, decide_eq_true rfl⟩, rfl⟩
  obtain ⟨b', hb', hpair⟩ := List.mem_map.mp hmem
  obtain ⟨hbare, hstat⟩ := Prod.mk.inj hpair
  injection hbare with hid hh hhash
  exact ⟨b', (List.mem_filter.mp hb').1, hid, hh, hhash, hstat⟩

theorem isCanonical_congr {id id' : ℕ} (h : db'.statusesOf id' = db.statusesOf id) :
    db'.isCanonical id' = db.isCanonical id := by
  rw [isCanonical, isCanonical, latestStatus, latestStatus, h]

theorem archived_ledger {id height : ℕ} (b : BlockRow) (hb : b ∈ db.blocks.rows) (hid : b.id = id)
    (hh : b.height = height) (hfree : ¬ db.ledger.ArchivedAt id height) : b.archived = false := by
  by_contra ha
  exact hfree (archivedAt_ledger.mpr ⟨b, hb, hid, hh, by simpa using ha⟩)

/-! ## The rows of headers only -/

/-- Some row is of a header only. -/
def hasHeaders (db : Db) : Bool := db.blocks.rows.any fun b => !b.archived

theorem hasHeaders_iff : db.hasHeaders ↔ ∃ b ∈ db.blocks.rows, b.archived = false := by
  simp [hasHeaders]

/-- **The rows of headers only hang below the archive**: one at each height from the lowest on
record to right below the archive's first block, each canonical and the parent of the canonical
block above it. -/
structure HeadersLinked (db : Db) : Prop where
  alone : ∀ b ∈ db.blocks.rows, b.archived = false →
    ∀ b' ∈ db.blocks.rows, b'.height = b.height → b' = b
  interval : ∀ k, (∃ b ∈ db.blocks.rows, b.archived = false ∧ b.height = k) ↔
    ∃ low first, db.lowestRecordedHeight = some low ∧ db.archiveFirstHeight = some first
      ∧ low ≤ k ∧ k < first
  linked : ∀ b ∈ db.blocks.rows, b.archived = false →
    ∃ hash, db.canonicalLinkAt (b.height + 1) = some (hash, b.hash)
  canonical : ∀ b ∈ db.blocks.rows, b.archived = false → db.isCanonical b.id

/-- Without rows of headers only the lowest block on record is the archive's first. -/
theorem lowest_eq_first (h : db.hasHeaders = false) :
    db.lowestRecordedHeight = db.archiveFirstHeight := by
  have hall : db.blocks.rows.filter BlockRow.archived = db.blocks.rows :=
    List.filter_eq_self.mpr fun b hb => by
      by_contra ha
      exact absurd (hasHeaders_iff.mpr ⟨b, hb, by simpa using ha⟩) (by simp [h])
  rw [lowestRecordedHeight, archiveFirstHeight, hall]

theorem headersLinked_of_none (h : db.hasHeaders = false) : db.HeadersLinked := by
  have hno : ∀ b ∈ db.blocks.rows, b.archived = false → False := fun b hb ha =>
    absurd (hasHeaders_iff.mpr ⟨b, hb, ha⟩) (by simp [h])
  refine ⟨fun b hb ha => (hno b hb ha).elim,
    fun k => ⟨fun ⟨b, hb, ha, _⟩ => (hno b hb ha).elim, ?_⟩, fun b hb ha => (hno b hb ha).elim,
    fun b hb ha => (hno b hb ha).elim⟩
  rintro ⟨low, first, hlow, hfirst, hle, hlt⟩
  rw [lowest_eq_first h, hfirst] at hlow
  have := Option.some.inj hlow
  omega

/-- Where there are rows of headers only, the archive has a first block above them. -/
theorem HeadersLinked.bounds (h : db.HeadersLinked) {b : BlockRow} (hb : b ∈ db.blocks.rows)
    (ha : b.archived = false) : ∃ low first, db.lowestRecordedHeight = some low
      ∧ db.archiveFirstHeight = some first ∧ low ≤ b.height ∧ b.height < first :=
  (h.interval b.height).mp ⟨b, hb, ha, rfl⟩

/-! ## Transactions above the archive's first block -/

/-- The databases agree up to the height `n`, and in what is of headers only. -/
structure Spares (n : ℕ) (db db' : Db) : Prop where
  grows : db.ledger.Grows db'.ledger
  slices : ∀ k ≤ n, db'.slice k = db.slice k
  headers : ∀ b' ∈ db'.blocks.rows, b'.archived = false →
    ∃ b ∈ db.blocks.rows, b.archived = false ∧ b.id = b'.id ∧ b.height = b'.height
  archived : ∀ id, ∀ k ≤ n, db'.ledger.ArchivedAt id k → db.ledger.ArchivedAt id k

section Spares

variable {first : ℕ} (h : db.HeadersLinked) (hfirst : db.archiveFirstHeight = some first)
  (hs : Spares first db db')
include h hfirst hs

omit h hfirst in
theorem Spares.kept {b : BlockRow} (hb : b ∈ db.blocks.rows) :
    ∃ b' ∈ db'.blocks.rows, b'.id = b.id ∧ b'.height = b.height ∧ (b.archived → b'.archived) := by
  obtain ⟨e', he', hid, hh, -, ha⟩ := hs.grows b.entry (List.mem_map_of_mem hb)
  obtain ⟨b', hb', rfl⟩ := List.mem_map.mp he'
  exact ⟨b', hb', hid, hh, ha⟩

omit h hfirst in
/-- Rows up to the first height are rows there were. -/
theorem Spares.old {b' : BlockRow} (hb' : b' ∈ db'.blocks.rows) (hle : b'.height ≤ first) :
    ∃ b ∈ db.blocks.rows, b.id = b'.id ∧ b.height = b'.height ∧ b.hash = b'.hash
      ∧ db.statusesOf b.id = db'.statusesOf b'.id :=
  row_of_slice hb' (hs.slices _ hle).symm

/-- A row of a header only was the same row before. -/
theorem Spares.header {b' : BlockRow} (hb' : b' ∈ db'.blocks.rows) (ha' : b'.archived = false) :
    ∃ b ∈ db.blocks.rows, b.archived = false ∧ b.height < first ∧ b.id = b'.id
      ∧ b.height = b'.height ∧ b.hash = b'.hash ∧ db.statusesOf b.id = db'.statusesOf b'.id := by
  obtain ⟨b, hb, ha, hid, hbh⟩ := hs.headers b' hb' ha'
  obtain ⟨low, first', -, hf', -, hlt⟩ := h.bounds hb ha
  obtain rfl := Option.some.inj (hfirst.symm.trans hf')
  obtain ⟨c, hc, hcid, hch, hhash, hstat⟩ := hs.old hb' (by omega)
  obtain rfl := db.blocks.eq_of_clash hc hb (decide_eq_true (Or.inl (hcid.trans hid.symm)))
  exact ⟨c, hc, ha, hlt, hcid, hch, hhash, hstat⟩

/-- A row of a header only is one still. -/
theorem Spares.header_kept {b : BlockRow} (hb : b ∈ db.blocks.rows) (ha : b.archived = false) :
    ∃ b' ∈ db'.blocks.rows, b'.archived = false ∧ b'.height = b.height := by
  obtain ⟨b', hb', hid, hh, -⟩ := hs.kept hb
  obtain ⟨low, first', -, hf', -, hlt⟩ := h.bounds hb ha
  obtain rfl := Option.some.inj (hfirst.symm.trans hf')
  refine ⟨b', hb', archived_ledger b' hb' hid hh fun hat => ?_, hh⟩
  obtain ⟨b₁, hb₁, hid₁, -, ha₁⟩ := archivedAt_ledger.mp (hs.archived _ _ hlt.le hat)
  obtain rfl := db.blocks.eq_of_clash hb₁ hb (decide_eq_true (Or.inl hid₁))
  rw [ha] at ha₁
  exact Bool.false_ne_true ha₁

omit h in
theorem Spares.first_eq : db'.archiveFirstHeight = some first := by
  obtain ⟨⟨b₀, hb₀, ha₀, hh₀⟩, hleast⟩ := archiveFirstHeight_iff_rows.mp hfirst
  refine archiveFirstHeight_iff_rows.mpr ⟨?_, fun b' hb' ha' => ?_⟩
  · obtain ⟨b', hb', -, hh, ha⟩ := hs.kept hb₀
    exact ⟨b', hb', ha ha₀, hh.trans hh₀⟩
  · by_contra hlt
    obtain ⟨b, hb, -, hh, ha⟩ := archivedAt_ledger.mp (hs.archived b'.id b'.height (by omega)
      (archivedAt_ledger.mpr ⟨b', hb', rfl, rfl, ha'⟩))
    have := hleast b hb ha
    omega

omit h in
theorem Spares.lowest : db'.lowestRecordedHeight = db.lowestRecordedHeight := by
  obtain ⟨⟨b₀, hb₀, -, hh₀⟩, -⟩ := archiveFirstHeight_iff_rows.mp hfirst
  obtain ⟨low, hlow⟩ : ∃ low, db.lowestRecordedHeight = some low := by
    rcases hl : db.lowestRecordedHeight with _ | low
    · rw [lowestRecordedHeight, List.min?_eq_none_iff, List.map_eq_nil_iff] at hl
      exact absurd (hl ▸ hb₀) List.not_mem_nil
    · exact ⟨low, rfl⟩
  obtain ⟨⟨b₁, hb₁, hh₁⟩, hle⟩ := lowestRecordedHeight_iff.mp hlow
  rw [hlow]
  refine lowestRecordedHeight_iff.mpr ⟨?_, fun b' hb' => ?_⟩
  · obtain ⟨b', hb', -, hh, -⟩ := hs.kept hb₁
    exact ⟨b', hb', hh.trans hh₁⟩
  · have hlow₀ := hle b₀ hb₀
    by_cases hle' : b'.height ≤ first
    · obtain ⟨b, hb, -, hh, -⟩ := hs.old hb' hle'
      exact hh ▸ hle b hb
    · omega

/-- **What moves above the archive's first block only leaves the headers below it alone.** -/
theorem HeadersLinked.spares : db'.HeadersLinked where
  alone b' hb' ha' c' hc' hh := by
    obtain ⟨b, hb, ha, hlt, hid, hbh, -⟩ := hs.header h hfirst hb' ha'
    obtain ⟨c, hc, hcid, hch, -⟩ := hs.old hc' (by omega)
    obtain rfl := h.alone b hb ha c hc (by omega)
    exact db'.blocks.eq_of_clash hc' hb' (decide_eq_true (Or.inl (hcid.symm.trans hid)))
  interval k := by
    rw [hs.first_eq hfirst, hs.lowest hfirst, ← hfirst, ← h.interval k]
    constructor
    · rintro ⟨b', hb', ha', hh⟩
      obtain ⟨b, hb, ha, -, -, hbh, -⟩ := hs.header h hfirst hb' ha'
      exact ⟨b, hb, ha, hbh.trans hh⟩
    · rintro ⟨b, hb, ha, hh⟩
      obtain ⟨b', hb', ha', hbh⟩ := hs.header_kept h hfirst hb ha
      exact ⟨b', hb', ha', hbh.trans hh⟩
  linked b' hb' ha' := by
    obtain ⟨b, hb, ha, hlt, -, hbh, hhash, -⟩ := hs.header h hfirst hb' ha'
    obtain ⟨hash, hlink⟩ := h.linked b hb ha
    refine ⟨hash, ?_⟩
    rw [← hbh, ← hhash, canonicalLinkAt_congr (hs.slices _ hlt), hlink]
  canonical b' hb' ha' := by
    obtain ⟨b, hb, ha, -, -, -, -, hstat⟩ := hs.header h hfirst hb' ha'
    rw [isCanonical_congr hstat.symm]
    exact h.canonical b hb ha

end Spares

theorem slice_insertBlockHeaderRow {h : BlockHeaderInfo} {captured : Bool} {source : Option String}
    {now : Instant} {id k : ℕ}
    (hins : db.insertBlockHeaderRow h captured source now = .ok (db', id)) (hk : k ≠ h.height) :
    db'.slice k = db.slice k := by
  obtain ⟨db₁, rfl, -, ⟨b, hb, hid, hh, -⟩, -, -, hslice⟩ := insertBlockHeaderRow_cases hins
  refine (slice_appendStatus fun b' hb' hid' => ?_).trans (hslice k hk)
  obtain rfl := db₁.blocks.eq_of_clash hb' hb (decide_eq_true (Or.inl (hid'.trans hid.symm)))
  exact fun hh' => hk (hh'.symm.trans hh)

theorem slice_storeKept {N : Noid} {cfg : Config} {height k : ℕ} {details : BlockDetailsInfo}
    {source : String} {raw : Option (List UInt8)} {now : Instant}
    (hs : db.storeKept N cfg height details source raw now = .ok db')
    (hk : k ≠ details.header.height) : db'.slice k = db.slice k := by
  rcases storeKept_cases hs with ⟨-, hkeep⟩ | ⟨db₁, id, hins, hkeep⟩
  · exact hkeep.slice k
  · exact (hkeep.slice k).trans (slice_insertBlockHeaderRow hins hk)

theorem slice_recordGapBlock {details : BlockDetailsInfo} {note : String} {now : Instant} {k : ℕ}
    (hs : db.recordGapBlock details note now = .ok db') (hk : k ≠ details.header.height) :
    db'.slice k = db.slice k := by
  rcases recordGapBlock_cases hs with ⟨-, hkeep⟩ | ⟨db₁, id, hins, hkeep⟩
  · exact hkeep.slice k
  · exact (hkeep.slice k).trans (slice_insertBlockHeaderRow hins hk)

theorem LogRefers.insertHeaders {now : Instant} : ∀ {batch : List BlockHeaderInfo} {db : Db},
    db.LogRefers → db.insertHeaders now batch = .ok db' → db'.LogRefers
  | [], db, hlog, hins => by
      obtain rfl := pure_ok.mp hins
      exact hlog
  | h :: batch, db, hlog, hins => by
      rw [Db.insertHeaders, List.foldlM_cons, bind_ok] at hins
      obtain ⟨_, hmap, h₂⟩ := hins
      obtain ⟨⟨db₁, inserted⟩, h₁, rfl⟩ := map_ok.mp hmap
      exact LogRefers.insertHeaders (hlog.insertHeaderOnlyBlock h₁) h₂

end Db

/-- The heights at which a transaction beside the header backfill enters or orphans a block. -/
def Txn.moves (db : Db) : Txn → List ℕ
  | .ingest _ details _ _ _ => [details.header.height]
  | .gapBlock details _ _ => [details.header.height]
  | .replace _ oldBlockId _ _ replacement _ =>
    ((db.block? oldBlockId).map BlockRow.height).toList
      ++ (replacement.map fun r => r.header.height).toList
  | _ => []

/-- The transaction is a batch of headers. -/
def Txn.IsHeaderBatch : Txn → Prop
  | .headerBatch .. => True
  | _ => False

variable {N : Noid} {cfg : Config} {t : Txn} {db db' : Db}

/-- **A transaction moves the slices of its own heights only.** -/
theorem Txn.slice_of_moves (ht : ¬ t.IsHeaderBatch) {k : ℕ} (hk : k ∉ t.moves db)
    (hexec : t.exec N cfg db = .ok db') : db'.slice k = db.slice k := by
  by_cases henters : t.Enters
  swap
  · exact (Txn.exec_keepsHeaders henters hexec).slice k
  match t with
  | .ingest .. => exact Db.slice_storeKept hexec (List.mem_singleton.not.mp hk)
  | .gapBlock .. => exact Db.slice_recordGapBlock hexec (List.mem_singleton.not.mp hk)
  | .headerBatch .. => exact absurd trivial ht
  | .replace height old orphanedAt headerHash replacement now =>
    simp only [exec, Db.replaceBlock, Db.markOrphaned, bind_ok] at hexec
    obtain ⟨db₁, hmark, hrest⟩ := hexec
    split_ifs at hmark with hsome
    obtain rfl := Except.ok.inj hmark
    obtain ⟨hold, hnew⟩ := not_or.mp (List.mem_append.not.mp hk)
    have hfirst : (db.appendStatus old .orphaned orphanedAt).slice k = db.slice k := by
      refine Db.slice_appendStatus fun b hb hid hh => hold ?_
      rw [← hid, Db.block?_eq_some hb]
      exact List.mem_singleton.mpr hh.symm
    refine Eq.trans ?_ hfirst
    rcases replacement with _ | ⟨details, source, raw⟩ | ⟨details, note⟩
    · obtain rfl := pure_ok.mp hrest
      rfl
    · exact Db.slice_storeKept hrest (List.mem_singleton.not.mp hnew)
    · exact Db.slice_recordGapBlock hrest (List.mem_singleton.not.mp hnew)

/-- An operation that makes no block one of a header only. -/
theorem Op.unarchived_apply {l : Ledger} {e' : Entry} (op : Op)
    (hop : ∀ height hash, op ≠ .enterHeader height hash) (he' : e' ∈ (op.apply l).entries.rows)
    (ha' : e'.archived = false) :
    ∃ e ∈ l.entries.rows, e.archived = false ∧ e.id = e'.id ∧ e.height = e'.height := by
  have hsame : e' ∈ l.entries.rows →
      ∃ e ∈ l.entries.rows, e.archived = false ∧ e.id = e'.id ∧ e.height = e'.height :=
    fun he => ⟨e', he, ha', rfl, rfl⟩
  have henter : ∀ {height : ℕ} {hash : String} {captured : Bool},
      e' ∈ (l.enter height hash true captured).entries.rows →
        ∃ e ∈ l.entries.rows, e.archived = false ∧ e.id = e'.id ∧ e.height = e'.height := by
    intro height hash captured he
    rcases Table.mem_insert he with he | rfl
    · exact hsame he
    · exact absurd ha' (by simp)
  match op with
  | .enterBody .. | .enterGap .. => exact henter he'
  | .enterHeader height hash => exact absurd rfl (hop height hash)
  | .orphan _ | .openGap _ | .closeBodied => exact hsame he'
  | .fill id height filled =>
    have he' : e' ∈ (l.setFlags id (fun _ => true) true).rows := he'
    obtain ⟨e₀, he₀, ⟨-, rfl⟩ | ⟨-, rfl⟩⟩ := Ledger.mem_setFlags.mp he'
    · exact hsame he₀
    · exact absurd ha' (by simp)
  | .prune id =>
    have he' : e' ∈ (l.setFlags id (fun a => a) false).rows := he'
    obtain ⟨e₀, he₀, ⟨-, rfl⟩ | ⟨-, rfl⟩⟩ := Ledger.mem_setFlags.mp he'
    · exact hsame he₀
    · exact ⟨e₀, he₀, ha', rfl, rfl⟩
  | .attach id =>
    rw [Op.apply] at he'
    split_ifs at he'
    · exact hsame he'
    · exact hsame he'

theorem Op.unarchived_applyAll {e' : Entry} : ∀ (ops : List Op) {l : Ledger},
    (∀ op ∈ ops, ∀ height hash, op ≠ .enterHeader height hash) →
    e' ∈ (applyAll ops l).entries.rows → e'.archived = false →
      ∃ e ∈ l.entries.rows, e.archived = false ∧ e.id = e'.id ∧ e.height = e'.height
  | [], _, _, he', ha' => ⟨e', he', ha', rfl, rfl⟩
  | op :: ops, _, hops, he', ha' => by
      obtain ⟨e₁, he₁, ha₁, hid₁, hh₁⟩ :=
        unarchived_applyAll ops (fun o ho => hops o (List.mem_cons_of_mem _ ho)) he' ha'
      obtain ⟨e, he, ha, hid, hh⟩ := op.unarchived_apply (hops op List.mem_cons_self) he₁ ha₁
      exact ⟨e, he, ha, hid.trans hid₁, hh.trans hh₁⟩

/-- What a transaction brings into the archive is at one of its heights. -/
theorem Txn.archives_moves (hf : t.Founded db) {op : Op} (hop : op ∈ t.ops db) {l' : Ledger}
    (hgrow : db.ledger.Grows l') {k : ℕ} (hk : op.Archives l' k) : k ∈ t.moves db := by
  match t with
  | .ingest .. => exact List.mem_singleton.mpr ((storeOps_gentle hop).2 l' k hgrow hk)
  | .gapBlock .. => exact List.mem_singleton.mpr ((gapOps_gentle hop).2 l' k hgrow hk)
  | .recover .. | .fillGap .. =>
    rw [List.mem_singleton.mp hop] at hk
    obtain ⟨a, ha⟩ := hf
    exact absurd ⟨a, hgrow.archivedAt ha⟩ hk
  | .replace height old orphanedAt _ replacement _ =>
    rcases List.mem_cons.mp hop with rfl | hop
    · exact absurd hk id
    -- the ledger after the orphaning has the same blocks
    have hgrow' : (db.appendStatus old .orphaned orphanedAt).ledger.Grows l' := fun e he =>
      hgrow e he
    refine List.mem_append_right _ ?_
    rcases replacement with _ | ⟨details, source, raw⟩ | ⟨details, note⟩
    · rw [List.mem_singleton.mp hop] at hk
      exact absurd hk id
    · exact List.mem_singleton.mpr ((storeOps_gentle hop).2 l' k hgrow' hk)
    · exact List.mem_singleton.mpr ((gapOps_gentle hop).2 l' k hgrow' hk)
  | .pruneBlock _ | .resolveGapsWithBodies _ =>
    rw [List.mem_singleton.mp hop] at hk
    exact absurd hk id
  | .headerBatch batch _ _ =>
    obtain ⟨hd, -, rfl⟩ := List.mem_map.mp hop
    exact absurd hk id
  | .receipt blockId tx now =>
    rw [Txn.ops] at hop
    split at hop
    · rw [List.mem_singleton.mp hop] at hk
      exact absurd hk id
    · exact absurd hop List.not_mem_nil
  | .setState .. | .keepRaw .. | .fillRaw .. | .clearSpentInGap | .setTipSeen ..
  | .adoptTipSeen .. | .adoptProofClass .. | .sweepSegment .. | .sweepBalances _
  | .upsertBalances .. => exact absurd hop List.not_mem_nil

theorem Db.storeOps_no_header {details : BlockDetailsInfo} {op : Op}
    (hop : op ∈ db.storeOps details) (height : ℕ) (hash : String) :
    op ≠ .enterHeader height hash := by
  rintro rfl
  unfold Db.storeOps at hop
  split at hop
  · exact absurd hop List.not_mem_nil
  · dsimp only at hop
    split_ifs at hop
    · split at hop
      · exact absurd hop List.not_mem_nil
      · exact Op.noConfusion (List.mem_singleton.mp hop)
    · exact Op.noConfusion (List.mem_singleton.mp hop)

theorem Db.gapOps_no_header {details : BlockDetailsInfo} {op : Op}
    (hop : op ∈ db.gapOps details) (height : ℕ) (hash : String) :
    op ≠ .enterHeader height hash := by
  rintro rfl
  unfold Db.gapOps at hop
  dsimp only at hop
  split_ifs at hop
  · exact Op.noConfusion (List.mem_singleton.mp hop)
  · exact Op.noConfusion (List.mem_singleton.mp hop)

/-- Only a batch of headers enters blocks of headers only. -/
theorem Txn.ops_no_header (ht : ¬ t.IsHeaderBatch) {op : Op} (hop : op ∈ t.ops db) (height : ℕ)
    (hash : String) : op ≠ .enterHeader height hash := by
  match t with
  | .headerBatch .. => exact absurd trivial ht
  | .ingest .. => exact Db.storeOps_no_header hop height hash
  | .gapBlock .. => exact Db.gapOps_no_header hop height hash
  | .replace _ _ _ _ replacement _ =>
    rcases List.mem_cons.mp hop with rfl | hop
    · exact fun h => Op.noConfusion h
    rcases replacement with _ | ⟨details, source, raw⟩ | ⟨details, note⟩
    · rw [List.mem_singleton.mp hop]
      exact fun h => Op.noConfusion h
    · exact Db.storeOps_no_header hop height hash
    · exact Db.gapOps_no_header hop height hash
  | .recover .. | .fillGap .. | .pruneBlock _ | .resolveGapsWithBodies _ =>
    rw [List.mem_singleton.mp hop]
    exact fun h => Op.noConfusion h
  | .receipt blockId tx now =>
    rw [Txn.ops] at hop
    split at hop
    · rw [List.mem_singleton.mp hop]
      exact fun h => Op.noConfusion h
    · exact absurd hop List.not_mem_nil
  | .setState .. | .keepRaw .. | .fillRaw .. | .clearSpentInGap | .setTipSeen ..
  | .adoptTipSeen .. | .adoptProofClass .. | .sweepSegment .. | .sweepBalances _
  | .upsertBalances .. => exact absurd hop List.not_mem_nil

/-- A row of a header only was one before, but for a batch of headers. -/
theorem Txn.header_old (hg : t.Genuine) (ht : ¬ t.IsHeaderBatch)
    (hexec : t.exec N cfg db = .ok db') : ∀ b' ∈ db'.blocks.rows, b'.archived = false →
      ∃ b ∈ db.blocks.rows, b.archived = false ∧ b.id = b'.id ∧ b.height = b'.height := by
  intro b' hb' ha'
  have he' : b'.entry ∈ (Op.applyAll (t.ops db) db.ledger).entries.rows := by
    rw [← Txn.exec_ledger hg hexec]
    exact List.mem_map_of_mem hb'
  obtain ⟨e, he, ha, hid, hh⟩ :=
    Op.unarchived_applyAll _ (fun op hop => ops_no_header ht hop) he' ha'
  obtain ⟨b, hb, rfl⟩ := List.mem_map.mp he
  exact ⟨b, hb, ha, hid, hh⟩

/-- **A transaction that moves nothing up to a height spares it.** -/
theorem Txn.spares (hg : t.Genuine) (ht : ¬ t.IsHeaderBatch) (hf : t.Founded db) {n : ℕ}
    (hn : ∀ k ∈ t.moves db, n < k) (hexec : t.exec N cfg db = .ok db') : Db.Spares n db db' where
  grows := Txn.exec_grows hg hexec
  slices k hk := slice_of_moves ht (fun hmem => by have := hn k hmem; omega) hexec
  headers := header_old hg ht hexec
  archived id k hk ha := by
    rw [Txn.exec_ledger hg hexec] at ha
    rcases Op.archivedAt_applyAll _ ha with ha | ⟨op, hop, l', hgrow, ha⟩
    · exact ha
    · have := hn k (archives_moves hf hop hgrow ha)
      omega

/-- Every entry of the log is of a block on record, after a transaction as before. -/
theorem Txn.exec_logRefers (hlog : db.LogRefers) (hexec : t.exec N cfg db = .ok db') :
    db'.LogRefers := by
  have hstore : ∀ {db₁ : Db} {height details source raw now}, db₁.LogRefers →
      db₁.storeKept N cfg height details source raw now = .ok db' → db'.LogRefers := by
    intro db₁ height details source raw now hl hst
    rcases Db.storeKept_cases hst with ⟨-, hkeep⟩ | ⟨db₂, id, hins, hkeep⟩
    · exact hl.keepsHeaders hkeep
    · exact (hl.insertBlockHeaderRow hins).keepsHeaders hkeep
  have hgap : ∀ {db₁ : Db} {details note now}, db₁.LogRefers →
      db₁.recordGapBlock details note now = .ok db' → db'.LogRefers := by
    intro db₁ details note now hl hst
    rcases Db.recordGapBlock_cases hst with ⟨-, hkeep⟩ | ⟨db₂, id, hins, hkeep⟩
    · exact hl.keepsHeaders hkeep
    · exact (hl.insertBlockHeaderRow hins).keepsHeaders hkeep
  by_cases henters : t.Enters
  swap
  · exact hlog.keepsHeaders (Txn.exec_keepsHeaders henters hexec)
  match t with
  | .ingest .. => exact hstore hlog hexec
  | .gapBlock .. => exact hgap hlog hexec
  | .replace height old orphanedAt headerHash replacement now =>
    simp only [exec, Db.replaceBlock, Db.markOrphaned, bind_ok] at hexec
    obtain ⟨db₁, hmark, hrest⟩ := hexec
    split_ifs at hmark with hsome
    obtain rfl := Except.ok.inj hmark
    obtain ⟨b, hb⟩ := Option.isSome_iff_exists.mp hsome
    have hl : (db.appendStatus old .orphaned orphanedAt).LogRefers :=
      hlog.appendStatus ⟨b, Db.mem_of_block? hb⟩
    rcases replacement with _ | ⟨details, source, raw⟩ | ⟨details, note⟩
    · obtain rfl := pure_ok.mp hrest
      exact hl.keepsHeaders ⟨rfl, rfl⟩
    · exact hstore hl hrest
    · exact hgap hl hrest
  | .headerBatch batch progress now =>
    obtain ⟨db₁, hins, rfl⟩ := map_ok.mp hexec
    exact (Db.LogRefers.insertHeaders hlog hins).keepsHeaders ⟨rfl, rfl⟩

end Permanode
