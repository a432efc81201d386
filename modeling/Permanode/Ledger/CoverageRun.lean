import Permanode.Ledger.Coverage

/-!
# Ledger/CoverageRun — the threads leave no hole

What the transactions of `Ledger/Coverage` need to know is gathered on the way to them: a poll knows
that the height it ingests is the next one, a re-check that the block it orphans is of the archive,
and so does whoever fills a gap.  The others may move the database in between, within `coverRely`.
-/

namespace Permanode

open Outcome Prog

variable {N : Noid} {cfg : Config} {α : Type}

/-! ## What is known between two actions -/

/-- What thread `i` knows and no other thread can take from it. -/
def Kept (i : Thread) (I : Db → Prop) : Prop := ∀ db db', coverRely i db db' → I db → I db'

/-- No block leaves the archive. -/
theorem kept_archivedAt (i : Thread) (id height : ℕ) :
    Kept i fun db => db.ledger.ArchivedAt id height :=
  fun _ _ h ha => h.1.archivedAt ha

/-- To the indexer, the next height stays the next. -/
theorem kept_before (height : ℕ) : Kept .indexer (Before height) :=
  fun _ _ h hb last hl => hb last ((h.2 rfl).1 ▸ hl)

/-- To the indexer, a covered height stays covered. -/
theorem kept_covers (height : ℕ) : Kept .indexer fun db => db.ledger.Covers height :=
  fun _ _ h hc => covers_mono (h.2 rfl).2 hc

theorem kept_and {i : Thread} {I J : Db → Prop} (hI : Kept i I) (hJ : Kept i J) :
    Kept i fun db => I db ∧ J db :=
  fun db db' h hij => ⟨hI db db' h hij.1, hJ db db' h hij.2⟩

theorem kept_true (i : Thread) : Kept i fun _ => True := fun _ _ _ _ => trivial

/-- A part of a job that records no blocks keeps what its thread knows. -/
theorem wp_aside {i : Thread} {p : Program α} {I : Db → Prop} {R : α → Prop} {db : Db}
    (hI : Kept i I) (h : p.Commits heightAnswers (Txn.Aside cfg) R) (hdb : I db) :
    wp (coverSetting N cfg i) p (onOk fun a db => I db ∧ R a) db := by
  refine wp_mono (fun r db' hr => ?_) (wp_of_commits_keeping (I := I) ?_ ?_ h hdb)
  · rcases r with e | a
    · exact trivial
    · exact ⟨hr.1, hr.2 a rfl⟩
  · intro db₁ t db₂ ht hcov hi _ hexec
    obtain ⟨hcov', hgrow, hrest⟩ := covered_of_aside ht hcov hexec
    exact ⟨hcov', ⟨hgrow, fun _ => hrest⟩, hI _ _ ⟨hgrow, fun _ => hrest⟩ hi⟩
  · exact fun _ _ _ hrely hi => hI _ _ hrely hi

/-! ## A poll -/

/-- **A height is covered once it is ingested.** -/
theorem wp_ingestHeight {height : ℕ} {db : Db} (hb : Before height db) :
    wp (coverSetting N cfg .indexer) (ingestHeight N cfg height)
      (onOk fun more db => more → Before height db ∧ db.ledger.Covers height) db := by
  refine wp_ask.mpr fun answer hanswer => ?_
  rcases answer with e | _ | details
  · exact trivial
  · exact nofun
  refine wp_then (wp_aside (kept_before height)
    (resolveBody_commits (H := fun h => h.height = height) (bodySource_any N heightAnswers)
      (fun _ _ => trivial) hanswer _) hb) (fun _ _ => trivial) ?_
  rintro (⟨details, source, raw⟩ | ⟨details, note⟩) db₁ ⟨hb₁, hout⟩
  · refine wp_then (wp_aside (kept_before height) (rawOrFetch_commits raw _ height) hb₁)
      (fun _ _ => trivial) fun raw' db₂ ⟨hb₂, _⟩ => ?_
    refine wp_ask.mpr fun now _ => wp_commit.mpr fun db₃ hcov hrely =>
      ⟨fun db₄ hc hexec => ?_, fun _ _ => trivial⟩
    have hexec : Txn.exec N cfg (.ingest height details source raw' now) db₃ = .ok db₄ := hexec
    obtain ⟨hcov', hguar, hb', hcovers⟩ := covered_of_write
      (t := .ingest height details source raw' now) (show source ≠ headerOnlySource from hout.1)
      (fun _ h => Txn.noConfusion h) rfl (fun op hop => storeOps_gentle hop)
      (covers_storeOps (retained_of_storeKept hexec)) hc hout.2.1
      (kept_before height _ _ hrely hb₂) hcov hexec
    refine ⟨hcov', hguar, ?_⟩
    have hdone : Before height db₄ ∧ db₄.ledger.Covers height := ⟨hb', hcovers⟩
    rcases raw' with _ | raw'
    · exact fun _ => hdone
    · dsimp only
      split_ifs
      · refine wp_then (wp_aside (kept_and (kept_before height) (kept_covers height))
          (selfcheck_commits height details raw' fun _ => mismatches_ne_processed) hdone)
          (fun _ _ => trivial) ?_
        exact fun _ db₅ h₅ _ => h₅.1
      · exact fun _ => hdone
  · refine wp_ask.mpr fun now _ => wp_commit.mpr fun db₂ hcov hrely =>
      ⟨fun db₃ hc hexec => ?_, fun _ _ => trivial⟩
    have hexec : Txn.exec N cfg (.gapBlock details note now) db₂ = .ok db₃ := hexec
    obtain ⟨hcov', hguar, hb', hcovers⟩ := covered_of_write (t := .gapBlock details note now)
      trivial (fun _ h => Txn.noConfusion h) rfl (fun op hop => gapOps_gentle hop) covers_gapOps hc
      hout (kept_before height _ _ hrely hb₁) hcov hexec
    exact ⟨hcov', hguar, fun _ => ⟨hb', hcovers⟩⟩

/-- The progress entry of a height that is covered, all heights below it being so. -/
theorem covered_of_progress {height : ℕ} {db db' : Db} (hb : Before height db)
    (hcovers : db.ledger.Covers height) (h : db.Covered)
    (hc : (Txn.setState lastProcessedKey (Nat.repr height)).KeepsCovered db)
    (hexec : (Txn.setState lastProcessedKey (Nat.repr height)).exec N cfg db = .ok db') :
    db'.Covered ∧ coverGuar .indexer db (.setState lastProcessedKey (Nat.repr height)) db'
      ∧ Before (height + 1) db' := by
  obtain rfl := Except.ok.inj hexec
  refine ⟨Db.covered_iff.mpr fun last i a k hl ha hak hkl => ?_,
    ⟨.refl _, fun hne => absurd rfl hne⟩,
    fun last hl => by rw [Db.lastProcessed_progress hl]⟩
  have hlast : last = height := Db.lastProcessed_progress hl
  change db.ledger.Covers k
  by_cases hk : k = height
  · rwa [hk]
  rcases hold : db.lastProcessed with _ | m
  · rw [Db.lastProcessed, Db.getState_setState, if_pos rfl, Option.bind_some,
      Option.map_eq_some_iff] at hl
    obtain ⟨first, hfirst, rfl⟩ := hl
    obtain ⟨e, he, rfl, rfl, harch⟩ := ha
    exact hc rfl hold first hfirst e he harch k (by omega) hak
  · have := hb m hold
    exact Db.covered_iff.mp h m i a k hold ha hak (by omega)

/-- So are all of a poll, in order, by induction on their number. -/
theorem wp_ingestHeights : ∀ (n height : ℕ) {db : Db}, Before height db →
    wp (coverSetting N cfg .indexer) (ingestHeights N cfg (List.range' height n))
      (onOk fun _ _ => True) db
  | 0, _, _, _ => trivial
  | n + 1, height, db, hb => by
      refine wp_then (wp_ingestHeight hb) (fun _ _ => trivial) fun more db₁ hdone => ?_
      rcases more with _ | _
      · exact trivial
      refine wp_commit.mpr fun db₂ hcov hrely => ⟨fun db₃ hc hexec => ?_, fun _ _ => trivial⟩
      have hkept := kept_and (kept_before height) (kept_covers height) _ _ hrely (hdone rfl)
      have hexec : Txn.exec N cfg (.setState lastProcessedKey (Nat.repr height)) db₂ = .ok db₃ :=
        hexec
      obtain ⟨hcov', hguar, hb'⟩ := covered_of_progress hkept.1 hkept.2 hcov hc hexec
      exact ⟨hcov', hguar, wp_ingestHeights n (height + 1) hb'⟩

/-- The heights a poll ingests follow each other, from the one after the progress entry on. -/
theorem wp_heightsToIngest (tip : ℕ) (db : Db) :
    wp (coverSetting N cfg .indexer) (heightsToIngest tip)
      (onOk fun heights db =>
        ∃ height n, heights = List.range' height n ∧ Before height db) db := by
  refine wp_get.mpr fun db₁ _ _ => ?_
  rcases hl : db₁.lastProcessed with _ | last
  · have hnone : Kept .indexer fun db => db.lastProcessed = none :=
      fun _ _ h hn => (h.2 rfl).1.trans hn
    refine wp_then (wp_aside hnone (probeBodies_commits _ tip) hl) (fun _ _ => trivial) ?_
    rintro start db₂ ⟨hn, -⟩
    exact ⟨_, _, rfl, fun last hl => absurd (hn.symm.trans hl) nofun⟩
  · exact ⟨_, _, rfl, fun last' hl' => congrArg (· + 1) (Option.some.inj (hl'.symm.trans hl))⟩

/-- **A re-check leaves a block in the place of the one it orphans.** -/
theorem wp_recheckHeight (height : ℕ) (db : Db) :
    wp (coverSetting N cfg .indexer) (recheckHeight N cfg height) (onOk fun _ _ => True) db := by
  refine wp_ask.mpr fun answer _ => ?_
  rcases answer with e | _ | header
  · exact trivial
  · exact trivial
  refine wp_ask.mpr fun now _ => wp_get.mpr fun db₁ _ _ => ?_
  rcases hknown : db₁.canonicalHashAt height with _ | ⟨blockId, knownHash⟩
  · exact trivial
  dsimp only
  split_ifs
  · exact trivial
  refine wp_get.mpr fun db₂ _ hrely => ?_
  split_ifs with hheader
  · exact trivial
  have harch := Db.archivedAt_of_canonical hknown hrely.1 hheader
  have hfetch : (fetchReplacement N cfg height).Commits heightAnswers (Txn.Aside cfg)
      fun r => (∀ out ∈ r, out.Issued (fun _ => True) fun h => h.height = height) ∧ _ :=
    fetchReplacement_commits (bodySource_any N heightAnswers) fun _ h => h
  refine wp_then (wp_aside (kept_archivedAt _ blockId height) hfetch harch)
    (fun _ _ => trivial) fun r db₃ ⟨ha₃, hr, _⟩ => ?_
  refine wp_then (wp_aside (kept_archivedAt _ blockId height) (withRaw_commits hr) ha₃)
    (fun _ _ => trivial) fun r db₄ ⟨ha₄, hr, _⟩ => ?_
  refine wp_ask.mpr fun later _ => wp_last.mpr fun db₅ hcov hrely =>
    ⟨fun db₆ hc hexec => ?_, fun _ _ => trivial⟩
  have hgen : ∀ out ∈ r, out.Genuine ∧ out.header.height = height := by
    rintro (⟨details, source, raw⟩ | ⟨details, note⟩) hout
    · exact ⟨(hr _ hout).1, (hr _ hout).2.1⟩
    · exact ⟨trivial, hr _ hout⟩
  obtain ⟨hcov', hguar⟩ := covered_of_replace
    (kept_archivedAt _ blockId height _ _ hrely ha₄) hgen hc
    hcov hexec
  exact ⟨hcov', hguar, trivial⟩

/-- Retrying a gap adds a body to a block that is there. -/
theorem wp_backfillGap (height : ℕ) (db : Db) :
    wp (coverSetting N cfg .indexer) (backfillGap N height) (onOk fun _ _ => True) db := by
  refine wp_get.mpr fun db₁ _ _ => ?_
  rcases db₁.canonicalHashAt height with _ | ⟨_, hash⟩
  · exact trivial
  refine wp_get.mpr fun db₂ _ _ => ?_
  rcases hid : db₂.uncapturedBlockId height hash with _ | blockId
  · exact trivial
  obtain ⟨b, hb, rfl, rfl, -, -, ha⟩ := Db.mem_of_uncapturedBlockId hid
  have harch : db₂.ledger.ArchivedAt b.id b.height :=
    Db.archivedAt_ledger.mpr ⟨b, hb, rfl, rfl, ha⟩
  have hfetch : (tryGetblockFallback N b.height hash).Commits heightAnswers (Txn.Aside cfg)
      fun _ => True :=
    commits_mono (fun _ h => h) (fun _ _ => trivial)
      (fallback_commits (bodySource_any N heightAnswers) b.height hash)
  refine wp_then (wp_aside (kept_archivedAt _ b.id b.height) hfetch harch)
    (fun _ _ => trivial) fun out db₃ ⟨ha₃, _⟩ => ?_
  rcases out with ⟨retained, raw⟩ | _ | e
  · refine wp_ask.mpr fun now _ => wp_last.mpr fun db₄ hcov hrely =>
      ⟨fun db₅ _ hexec => ?_, fun _ _ => trivial⟩
    obtain ⟨hcov', hgrow, -⟩ := covered_of_fill (t := .recover b.height hash b.id retained raw now)
      trivial (fun _ h => Txn.noConfusion h) rfl ⟨_, kept_archivedAt _ b.id b.height _ _ hrely ha₃⟩
      hcov hexec
    exact ⟨hcov', ⟨hgrow, fun hne => absurd rfl hne⟩, trivial⟩
  · exact trivial
  · exact trivial

/-- A loop each of whose rounds is safe wherever it starts. -/
theorem wp_eachAnywhere {β : Type} {i : Thread} {f : β → Program Unit}
    (h : ∀ b db, wp (coverSetting N cfg i) (f b) (onOk fun _ _ => True) db) (l : List β) (db : Db) :
    wp (coverSetting N cfg i) (Prog.each f l) (onOk fun _ _ => True) db := by
  refine wp_each (I := fun _ => True) (fun _ _ => trivial) (fun b _ db _ => ?_) trivial
  refine wp_mono (fun r _ _ => ?_) (h b db)
  rcases r with e | a <;> exact trivial

/-- **A poll leaves no hole.** -/
theorem wp_pollOnce (db : Db) :
    wp (coverSetting N cfg .indexer) (pollOnce N cfg) (fun _ _ => True) db := by
  refine wp_ask.mpr fun answer _ => ?_
  rcases answer with e | tip
  · exact trivial
  refine wp_then (p := heightsToIngest tip) (wp_heightsToIngest tip db) (fun _ _ => trivial) ?_
  rintro _ db₁ ⟨height, n, rfl, hb⟩
  refine wp_then (wp_ingestHeights n height hb) (fun _ _ => trivial) fun _ db₂ _ => ?_
  refine wp_then (wp_eachAnywhere wp_recheckHeight _ db₂) (fun _ _ => trivial) fun _ db₃ _ => ?_
  have hgaps : wp (coverSetting N cfg .indexer) (retryGaps N cfg tip)
    (onOk fun _ _ => True) db₃ := by
    unfold retryGaps
    split_ifs
    · exact wp_get.mpr fun db₄ _ _ => wp_eachAnywhere wp_backfillGap _ db₄
    · exact trivial
  refine wp_then hgaps (fun _ _ => trivial) fun _ db₄ _ => ?_
  exact wp_mono (fun _ _ _ => trivial)
    (wp_aside (kept_true _) (retryRaw_commits tip fun _ _ _ _ => trivial) trivial)

/-! ## The other threads -/

/-- Filling a gap adds a body to a block that is there. -/
theorem wp_fillHeight {i : Thread} {source resolution : String}
    (hs : source ≠ headerOnlySource) (keep : Bool) (report : ImportReport) (height : ℕ) (db : Db) :
    wp (coverSetting N cfg i) (fillHeight N source resolution keep report height)
      (onOk fun _ _ => True) db := by
  refine wp_get.mpr fun db₁ _ _ => ?_
  rcases db₁.canonicalHashAt height with _ | ⟨_, hash⟩
  · exact trivial
  refine wp_get.mpr fun db₂ _ _ => ?_
  rcases hid : db₂.uncapturedBlockId height hash with _ | blockId
  · exact trivial
  obtain ⟨b, hb, rfl, -, -, -, ha⟩ := Db.mem_of_uncapturedBlockId hid
  have harch : db₂.ledger.ArchivedAt b.id b.height :=
    Db.archivedAt_ledger.mpr ⟨b, hb, rfl, rfl, ha⟩
  refine wp_get.mpr fun db₃ _ hrely => ?_
  have harch := kept_archivedAt i b.id b.height _ _ hrely harch
  rcases (db₃.block? b.id).map BlockRow.txRoot with _ | txRoot
  · exact trivial
  refine wp_ask.mpr fun offer _ => ?_
  rcases judgeOffer N height hash txRoot offer with ⟨body, bytes⟩ | _ | _
  · refine wp_ask.mpr fun now _ => wp_commit.mpr fun db₄ hcov hrely =>
      ⟨fun db₅ _ hexec => ?_, fun _ _ => trivial⟩
    have hexec : Txn.exec N cfg
        (.fillGap height hash b.id body bytes source resolution keep now) db₄ = .ok db₅ := hexec
    obtain ⟨hcov', hgrow, hgentle⟩ := covered_of_fill
      (t := .fillGap height hash b.id body bytes source resolution keep now) hs
      (fun _ h => Txn.noConfusion h) rfl ⟨_, kept_archivedAt i b.id b.height _ _ hrely harch⟩
      hcov hexec
    exact ⟨hcov', ⟨hgrow, fun _ => hgentle⟩, trivial⟩
  · exact trivial
  · exact trivial

theorem fillMaintenance_commits {allow : ∀ q : Query, q.Answer → Prop} (report : ImportReport) :
    (fillMaintenance report).Commits allow (Txn.Aside cfg) fun _ => True :=
  ⟨trivial, fun _ _ => commits_ask.mpr fun _ _ => commits_commit.mpr ⟨trivial, trivial⟩⟩

/-- So does a round of them. -/
theorem wp_fillGaps {i : Thread} {max : Option ℕ} {source resolution : String}
    (hs : source ≠ headerOnlySource) (keep : Bool) (db : Db) :
    wp (coverSetting N cfg i) (fillGaps N max source resolution keep)
    (onOk fun _ _ => True) db := by
  refine wp_get.mpr fun db₁ _ _ => ?_
  refine wp_then (I := fun _ _ => True) ?_ (fun _ _ => trivial) fun report db₂ _ => ?_
  · refine wp_foldEach (I := fun _ _ => True) (fun _ _ _ => trivial)
      (fun report height _ db _ => wp_mono (fun r _ _ => ?_)
        (wp_fillHeight hs keep report height db)) trivial
    rcases r with e | a <;> exact trivial
  · refine wp_mono (fun r _ _ => ?_)
      (wp_aside (kept_true i) (fillMaintenance_commits report) trivial)
    rcases r with e | a <;> exact trivial

/-- **Every job of every thread leaves no hole**, given what the others keep to. -/
theorem wp_job {i : Thread} {p : Program Unit} (h : Job N cfg i p) (db : Db) :
    wp (coverSetting N cfg i) p (fun _ _ => True) db := by
  have haside : ∀ {p : Program Unit}, p.Commits heightAnswers (Txn.Aside cfg) (fun _ => True) →
      ∀ db, wp (coverSetting N cfg i) p (fun _ _ => True) db := fun h db =>
    wp_mono (fun _ _ _ => trivial) (wp_aside (kept_true i) h trivial)
  have hkinds := h.kinds heightAnswers (B := fun _ => True)
  rcases hkinds with h | ⟨rfl, rfl⟩ | ⟨-, max, source, resolution, keep, rest, hs, rfl, hrest⟩
  · exact haside (commits_left h) db
  · exact wp_pollOnce db
  · exact wp_then (wp_fillGaps hs keep db) (fun _ _ => trivial) fun r db₁ _ =>
      haside (commits_left (hrest r)) db₁

/-! ## The run -/

/-- Nothing has been processed yet. -/
theorem Db.covered_empty : Db.empty.Covered := fun _ _ h => nomatch h

/-- **No hole below the progress**, in a run whose transactions meet their condition. -/
theorem Execution.covered {tr : List (Db × Txn × Db)}
    {c : Prog.Config Query Query.Answer Db Txn String Thread}
    (h : Execution N cfg heightAnswers tr c) (hc : ∀ x ∈ tr, x.2.1.KeepsCovered x.1) :
    c.store.Covered ∧ ∀ x ∈ tr, x.1.Covered := by
  obtain ⟨hcov, -, htr⟩ := Run.rely_guarantee coverRely coverGuar coverRely_refl coverRely_trans
    (fun _ _ _ _ _ hij hg => coverRely_of_guar hij hg) (fun _ _ db hjob _ => wp_job hjob db)
    Db.covered_empty h hc
  exact ⟨hcov, fun x hx => (htr x hx).1⟩

theorem chainAnswers_height {chain : List BlockDetailsInfo} (now : Instant)
    (h : chain.map (fun d => d.header.height) = List.range chain.length) (q : Query) :
    heightAnswers q (chainAnswers chain now q) := by
  match q with
  | .blockDetails height =>
    rcases hd : chain[height]? with _ | d
    · simp only [chainAnswers, hd, heightAnswers]
    · simp only [chainAnswers, hd, heightAnswers]
      have hlt : height < chain.length := (List.getElem?_eq_some_iff.mp hd).1
      have hget := congrArg (·[height]?) h
      simpa only [List.getElem?_map, hd, List.getElem?_range hlt, Option.map_some,
        Option.some.injEq] using hget
  | .blockCount | .blockHeader _ | .block _ | .stateMap | .slot _ | .slotsByOwner _ | .now
  | .unixTime | .rounds | .offer _ _ | .rawOffer _ _ | .peerRawFrom | .peerSeen | .peerProof
  | .sightings => exact trivial

/-- A poll that records block `A`, and one that replaces it by `B`. -/
def reorgStints : List (Stint Query Query.Answer Db Txn String Thread) :=
  [⟨.indexer, pollOnce Noid.sample {},
      fun _ => chainAnswers [bareBlock 0 "G" "", bodyBlock 1 "A" "G"] 1, 60⟩,
    ⟨.indexer, pollOnce Noid.sample {},
      fun _ => chainAnswers [bareBlock 0 "G" "", bodyBlock 1 "B" "G"] 2, 60⟩]

theorem run_reorgStints : Execution Noid.sample {} heightAnswers
    (traceAll (Txn.exec Noid.sample {}) reorgStints Db.empty)
    (Config.idle (playAll (Txn.exec Noid.sample {}) reorgStints Db.empty)) := by
  refine run_playAll Db.empty ?_
  simp only [reorgStints, List.forall_mem_cons]
  exact ⟨⟨.poll, fun _ => chainAnswers_height 1 rfl⟩, ⟨.poll, fun _ => chainAnswers_height 2 rfl⟩,
    nofun⟩

/-- The two polls leave no hole. -/
theorem Execution.covered_reorg :
    (playAll (Txn.exec Noid.sample {}) reorgStints Db.empty).Covered :=
  (Execution.covered run_reorgStints (by decide +kernel)).1

/-- A node in the middle of a reorganisation: it reports the header of `B`, but no details. -/
def lostDetails : ∀ q : Query, q.Answer
  | .blockDetails _ => .ok none
  | q => chainAnswers [bareBlock 0 "G" "", bodyBlock 1 "B" "G"] 2 q

/-- Block `A` is ingested; then the node has another header there and no details. -/
def holeStints : List (Stint Query Query.Answer Db Txn String Thread) :=
  [⟨.indexer, pollOnce Noid.sample {},
      fun _ => chainAnswers [bareBlock 0 "G" "", bodyBlock 1 "A" "G"] 1, 60⟩,
    ⟨.indexer, pollOnce Noid.sample {}, fun _ => lostDetails, 60⟩]

theorem run_holeStints : Execution Noid.sample {} heightAnswers
    (traceAll (Txn.exec Noid.sample {}) holeStints Db.empty)
    (Config.idle (playAll (Txn.exec Noid.sample {}) holeStints Db.empty)) := by
  refine run_playAll Db.empty ?_
  simp only [holeStints, List.forall_mem_cons]
  refine ⟨⟨.poll, fun _ => chainAnswers_height 1 rfl⟩, ⟨.poll, fun _ q => ?_⟩, nofun⟩
  match q with
  | .blockDetails _ => exact trivial
  | .blockCount | .blockHeader _ | .block _ | .stateMap | .slot _ | .slotsByOwner _ | .now
  | .unixTime | .rounds | .offer _ _ | .rawOffer _ _ | .peerRawFrom | .peerSeen | .peerProof
  | .sightings => exact trivial

/-- **A block is orphaned and nothing takes its place.** -/
theorem Execution.hole :
    ∃ tr c, Execution Noid.sample {} heightAnswers tr c ∧ ¬ c.store.Covered := by
  refine ⟨_, _, run_holeStints, fun h => ?_⟩
  obtain ⟨b, hb, hh, hc⟩ := h 1 1 (by decide) (by decide) 1 le_rfl le_rfl
  revert b
  decide

end Permanode
