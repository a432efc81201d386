import Permanode.Ledger.Coverage

/-!
# Ledger/Founded — what was read is still so

Between reading and committing a thread may be overtaken, but not in everything: a block on record
stays on record, and of the archive if it was (`Ledger.Grows`).  So whoever writes a body into a
block it found in the archive, or orphans it, does so to one of the archive (`Execution.founded`).
-/

namespace Permanode

open Outcome Prog

/-- What a transaction needs to have been read, that no other thread can take away: the block whose
body it writes, or that it orphans, is one of the archive. -/
def Txn.Founded (db : Db) : Txn → Prop
  | .recover _ _ blockId _ _ _ => ∃ height, db.ledger.ArchivedAt blockId height
  | .fillGap _ _ blockId _ _ _ _ _ _ => ∃ height, db.ledger.ArchivedAt blockId height
  | .replace _ oldBlockId _ _ _ _ => ∃ height, db.ledger.ArchivedAt oldBlockId height
  | _ => True

/-- What rests on nothing read is founded. -/
theorem Txn.founded_of_not_rests {t : Txn} (h : ¬ t.Rests) (db : Db) : t.Founded db := by
  match t with
  | .recover .. | .fillGap .. | .replace .. => exact absurd trivial h
  | .setState .. | .ingest .. | .gapBlock .. | .keepRaw .. | .fillRaw ..
  | .clearSpentInGap | .resolveGapsWithBodies _ | .pruneBlock _ | .setTipSeen .. | .adoptTipSeen ..
  | .adoptProofClass .. | .sweepSegment .. | .sweepBalances _ | .upsertBalances .. | .headerBatch ..
  | .receipt .. => exact trivial

variable {N : Noid} {cfg : Config} {allow : ∀ q : Query, q.Answer → Prop}

/-- No transaction takes a block off the record. -/
theorem Txn.exec_grows {t : Txn} (ht : t.Genuine) {db db' : Db}
    (h : t.exec N cfg db = .ok db') : db.ledger.Grows db'.ledger :=
  Txn.exec_ledger ht h ▸ Op.grows_applyAll _ _

/-- What is read as uncaptured is of the archive. -/
theorem Db.archivedAt_of_uncaptured {db : Db} {height id : ℕ} {hash : String}
    (h : db.uncapturedBlockId height hash = some id) : db.ledger.ArchivedAt id height := by
  obtain ⟨b, hb, rfl, rfl, -, -, ha⟩ := Db.mem_of_uncapturedBlockId h
  exact ⟨b.entry, List.mem_map_of_mem hb, rfl, rfl, ha⟩

/-- What the other threads do to what was read, and what a thread owes in return. -/
def foundSetting (N : Noid) (cfg : Config) (allow : ∀ q : Query, q.Answer → Prop) :
    Setting Query Query.Answer Db Txn String where
  allow := allow
  exec := Txn.exec N cfg
  inv _ := True
  rely db db' := db.ledger.Grows db'.ledger
  guar db t db' := db.ledger.Grows db'.ledger ∧ t.Founded db
  cond _ _ := True

/-! ## The programs -/

/-- A program that rests on nothing it read is safe anywhere. -/
theorem anywhere_of_not_rests {α : Type} {p : Program α} {R : α → Prop}
    (h : p.Commits allow (fun t => t.Genuine ∧ ¬ t.Rests) R) :
    Anywhere (foundSetting N cfg allow) p := by
  have hstep : ∀ (db : Db) (t : Txn) (db' : Db), (t.Genuine ∧ ¬ t.Rests) → True → True →
      t.exec N cfg db = .ok db' → True ∧ db.ledger.Grows db'.ledger ∧ t.Founded db :=
    fun db t db' ht _ _ hexec =>
    ⟨trivial, Txn.exec_grows ht.1 hexec, Txn.founded_of_not_rests ht.2 db⟩
  exact anywhere_of_commits (V := foundSetting N cfg allow) hstep h

/-- A program of a thread's own transactions, none of which rests on what was read. -/
theorem anywhere_by {α : Type} {i : Thread} {p : Program α} {R : α → Prop}
    (h : p.Commits allow (fun t => t.By cfg (fun _ => True) i ∧ ¬ t.Rests) R) :
    Anywhere (foundSetting N cfg allow) p :=
  anywhere_of_not_rests
    (commits_mono (fun _ ht => ⟨ht.1.issued.genuine, ht.2⟩) (fun _ hr => hr) h)

theorem anywhere_beside {α : Type} {i : Thread} {p : Program α} {R : α → Prop}
    (h : p.Commits allow (Txn.Beside cfg (fun _ => True) i) R) :
    Anywhere (foundSetting N cfg allow) p := by
  have hrests : ∀ t : Txn, t.Aside cfg → ¬ t.Rests := by
    intro t ht hf
    match t with
    | .recover .. | .fillGap .. | .replace .. => exact ht
  exact anywhere_by (commits_mono (fun t ht => ⟨ht.2, hrests t ht.1⟩) (fun _ hr => hr) h)

/-- A part of a program that commits nothing keeps a block of the archive. -/
theorem wp_reading {α : Type} {p : Program α} {R : α → Prop} {id height : ℕ} {db : Db}
    (ha : db.ledger.ArchivedAt id height) (h : p.Commits allow (fun _ => False) R) :
    wp (foundSetting N cfg allow) p (onOk fun a db => db.ledger.ArchivedAt id height ∧ R a) db :=
  wp_silently (V := foundSetting N cfg allow)
    (fun _ _ _ hrely ha => Ledger.Grows.archivedAt hrely ha) h ha

/-- **A gap is retried for a block that was read as uncaptured**, and it is on record still. -/
theorem anywhere_backfillGap (height : ℕ) :
    Anywhere (foundSetting N cfg allow) (backfillGap N height) := by
  refine fun db => wp_get.mpr fun db₁ _ _ => ?_
  rcases db₁.canonicalHashAt height with _ | ⟨_, hash⟩
  · exact trivial
  refine wp_get.mpr fun db₂ _ _ => ?_
  rcases hid : db₂.uncapturedBlockId height hash with _ | blockId
  · exact trivial
  have harch := Db.archivedAt_of_uncaptured hid
  refine wp_ask.mpr fun answer _ => ?_
  rcases answer with e | _ | raw
  · exact trivial
  · exact trivial
  dsimp only [Prog.bind]
  rcases decodeRetainedBlock N raw height hash with e | retained
  · exact trivial
  refine wp_ask.mpr fun now _ => wp_last.mpr fun db₃ _ hrely => ⟨fun db₄ _ hexec => ?_,
    fun _ _ => trivial⟩
  have hgrow : db₃.ledger.Grows db₄.ledger :=
    @Txn.exec_grows N cfg (.recover height hash blockId retained raw now) trivial _ _ hexec
  exact ⟨trivial, ⟨hgrow, height, hrely.archivedAt harch⟩, trivial⟩

/-- A re-check replaces a block it has read. -/
theorem anywhere_recheckHeight (height : ℕ) :
    Anywhere (foundSetting N cfg allow) (recheckHeight N cfg height) := by
  have hB := bodySource_any N allow
  refine fun db => wp_ask.mpr fun answer _ => ?_
  rcases answer with e | _ | header
  · exact trivial
  · exact trivial
  refine wp_ask.mpr fun now _ => wp_get.mpr fun db₁ _ _ => ?_
  rcases hknown : db₁.canonicalHashAt height with _ | ⟨blockId, knownHash⟩
  · exact trivial
  dsimp only
  split_ifs
  · exact trivial
  refine wp_get.mpr fun db₂ _ hrely => ?_
  split_ifs with hheader
  · exact trivial
  have harch := Db.archivedAt_of_canonical hknown hrely hheader
  refine wp_then (wp_reading harch (fetchReplacement_commits (H := fun _ => True) hB
    fun _ _ => trivial)) (fun _ _ => trivial) fun r db₃ ⟨ha₃, hr, _⟩ => ?_
  refine wp_then (wp_reading ha₃ (withRaw_commits hr)) (fun _ _ => trivial)
    fun r db₄ ⟨ha₄, hr, _⟩ => ?_
  refine wp_ask.mpr fun later _ => wp_last.mpr fun db₅ _ hrely => ⟨fun db₆ _ hexec => ?_,
    fun _ _ => trivial⟩
  have hgen : ∀ out ∈ r, out.Genuine := by
    rintro (⟨details, source, raw⟩ | ⟨details, note⟩) hout
    · exact (hr _ hout).1
    · exact trivial
  have hgrow : db₅.ledger.Grows db₆.ledger := @Txn.exec_grows N cfg
    (.replace height blockId now header.hash r later) hgen _ _ hexec
  exact ⟨trivial, ⟨hgrow, height, hrely.archivedAt ha₄⟩, trivial⟩

/-- So a poll is founded. -/
theorem anywhere_pollOnce : Anywhere (foundSetting N cfg allow) (pollOnce N cfg) := by
  have hB := bodySource_any N allow
  refine fun db => wp_ask.mpr fun answer _ => ?_
  rcases answer with e | tip
  · exact trivial
  refine anywhere_bind (anywhere_by (i := .indexer) (heightsToIngest_commits tip))
    (fun heights => ?_) db
  refine anywhere_bind (anywhere_by (ingestHeights_commits hB heights)) fun _ => ?_
  refine anywhere_bind (anywhere_each anywhere_recheckHeight _) fun _ => ?_
  refine anywhere_bind ?_ fun _ =>
    anywhere_by (i := .indexer) (retryRaw_commits tip fun _ _ _ _ => ⟨.keepRaw, id⟩)
  unfold retryGaps
  split_ifs
  · exact fun db => wp_get.mpr fun db₁ _ _ => anywhere_each anywhere_backfillGap _ db₁
  · exact fun _ => trivial

/-- **A gap is filled for a block that was read as uncaptured.** -/
theorem anywhere_fillHeight {source resolution : String} (hs : source ≠ headerOnlySource)
    (keep : Bool) (report : ImportReport) (height : ℕ) :
    Anywhere (foundSetting N cfg allow) (fillHeight N source resolution keep report height) := by
  refine fun db => wp_get.mpr fun db₁ _ _ => ?_
  rcases db₁.canonicalHashAt height with _ | ⟨_, hash⟩
  · exact trivial
  refine wp_get.mpr fun db₂ _ _ => ?_
  rcases hid : db₂.uncapturedBlockId height hash with _ | blockId
  · exact trivial
  have harch := Db.archivedAt_of_uncaptured hid
  refine wp_get.mpr fun db₃ _ hrely => ?_
  have harch₃ := hrely.archivedAt harch
  rcases (db₃.block? blockId).map BlockRow.txRoot with _ | txRoot
  · exact trivial
  refine wp_ask.mpr fun offer _ => ?_
  rcases judgeOffer N height hash txRoot offer with ⟨body, bytes⟩ | _ | _
  · refine wp_ask.mpr fun now _ => wp_commit.mpr fun db₄ _ hrely₄ => ⟨fun db₅ _ hexec => ?_,
      fun _ _ => trivial⟩
    have hgrow : db₄.ledger.Grows db₅.ledger := @Txn.exec_grows N cfg
      (.fillGap height hash blockId body bytes source resolution keep now) hs _ _ hexec
    exact ⟨trivial, ⟨hgrow, height, hrely₄.archivedAt harch₃⟩, trivial⟩
  · exact trivial
  · exact trivial

/-- So a round is founded. -/
theorem anywhere_fillGaps {i : Thread} (hi : i.fills) {max : Option ℕ} {source resolution : String}
    (hs : source ≠ headerOnlySource) (keep : Bool) :
    Anywhere (foundSetting N cfg allow) (fillGaps N max source resolution keep) := by
  refine fun db => wp_get.mpr fun db₁ _ _ => ?_
  refine anywhere_bind (anywhere_foldEach (fun report height =>
    anywhere_fillHeight hs keep report height) _ _) (fun report => ?_) db₁
  refine anywhere_by (i := i) (R := fun _ => True) ⟨⟨.cleared hi, id⟩, fun _ _ =>
    commits_ask.mpr fun now _ => commits_commit.mpr ⟨⟨.filled hi, id⟩, ?_⟩⟩
  exact trivial

/-- **Every job is founded.** -/
theorem anywhere_job {i : Thread} {p : Program Unit} (h : Job N cfg i p) :
    Anywhere (foundSetting N cfg allow) p := by
  rcases h.kinds allow with h | ⟨rfl, rfl⟩
    | ⟨hi, max, source, resolution, keep, rest, hs, rfl, hrest⟩
  · exact anywhere_beside h
  · exact anywhere_pollOnce
  · exact anywhere_bind (anywhere_fillGaps hi hs keep) fun r => anywhere_beside (hrest r)

/-- **Every transaction of a run finds what it relies on having read.** -/
theorem Execution.founded {tr : List (Db × Txn × Db)}
    {c : Prog.Config Query Query.Answer Db Txn String Thread} (h : Execution N cfg allow tr c) :
    ∀ x ∈ tr, x.2.1.Founded x.1 := by
  have hjobs : ∀ (i : Thread) (p : Program Unit) (db : Db), Job N cfg i p →
      (foundSetting N cfg allow).inv db → wp (foundSetting N cfg allow) p (fun _ _ => True) db :=
    fun _ _ db hjob _ => anywhere_job hjob db
  obtain ⟨-, -, htr⟩ := Run.rely_guarantee (fun _ => (foundSetting N cfg allow).rely)
    (fun _ => (foundSetting N cfg allow).guar) (fun _ db => .refl db.ledger)
    (fun _ _ _ _ h h' => h.trans h') (fun _ _ _ _ _ _ hg => hg.1) hjobs trivial h
    fun _ _ => trivial
  intro x hx
  obtain ⟨-, -, i, -, hfounded⟩ := htr x hx
  exact hfounded

end Permanode
