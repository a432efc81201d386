import Permanode.Ledger.Refinement
import Permanode.System.Rules

/-!
# System/Issued — what the jobs commit

A transaction is issued with what its program has checked by then.  `Txn.By` is the table of who
issues what, whatever the database holds when it gets there, and `Job.by` walks the programs for it;
`Txn.Issued` collects what holds of every transaction any job commits (`Job.commits`).
-/

namespace Permanode

open Outcome Prog

variable {α β : Type} {allow : ∀ q : Query, q.Answer → Prop} {P : Txn → Prop} {R : β → Prop}

/-! ## What is known of a transaction -/

/-- The bodies a transaction writes. -/
def Txn.bodies : Txn → List RetainedBlockInfo
  | .ingest _ details _ _ _ => details.retained.toList
  | .replace _ _ _ _ (some (.store details _ _)) _ => details.retained.toList
  | .recover _ _ _ retained _ _ => [retained]
  | .fillGap _ _ _ body _ _ _ _ _ => [body]
  | _ => []

/-- A transaction as the programs issue it, every body they let through satisfying `B`. -/
structure Txn.Issued (cfg : Config) (B : RetainedBlockInfo → Prop) (t : Txn) : Prop where
  genuine : t.Genuine
  bodies : ∀ b ∈ t.bodies, B b
  retention : ∀ id, t = .pruneBlock id → cfg.retentionDays ≠ 0

/-- Where bodies come from: the node's details, decoded bytes, and offers that pass the check. -/
structure BodySource (N : Noid) (allow : ∀ q : Query, q.Answer → Prop)
    (B : RetainedBlockInfo → Prop) : Prop where
  details : ∀ height details, allow (.blockDetails height) (.ok (some details)) →
    ∀ r ∈ details.retained, B r
  decoded : ∀ bytes height hash r, decodeRetainedBlock N bytes height hash = .ok r → B r
  checked : ∀ body txRoot, checkBody N body txRoot = .ok () → B body

variable {N : Noid} {cfg : Config} {B : RetainedBlockInfo → Prop}

/-- A transaction that writes no body and prunes nothing is issued freely. -/
theorem Txn.Issued.plain {t : Txn} (hg : t.Genuine) (hb : t.bodies = [])
    (hp : ∀ id, t ≠ .pruneBlock id) : t.Issued cfg B where
  genuine := hg
  bodies := by simp [hb]
  retention id h := absurd h (hp id)

/-- A transaction beside the recording of blocks and of the progress through them. -/
def Txn.Aside (cfg : Config) : Txn → Prop
  | .ingest .. | .gapBlock .. | .replace .. | .recover .. | .fillGap .. => False
  | .setState key _ => key ≠ lastProcessedKey
  | .pruneBlock _ => cfg.retentionDays ≠ 0
  | _ => True

/-- A transaction that changes no header, no status and no progress. -/
def Txn.Quiet : Txn → Prop
  | .setState key _ => key ≠ lastProcessedKey
  | .recover .. | .keepRaw .. => True
  | _ => False

/-- A transaction that is about a block that was read before: its body is written, or it is
orphaned. -/
def Txn.Rests : Txn → Prop
  | .recover .. | .fillGap .. | .replace .. => True
  | _ => False

theorem Txn.Aside.issued {t : Txn} (h : t.Aside cfg) : t.Issued cfg B := by
  match t with
  | .pruneBlock _ => exact ⟨trivial, nofun, fun _ _ => h⟩
  | .setState .. | .keepRaw .. | .fillRaw .. | .clearSpentInGap | .resolveGapsWithBodies _
  | .setTipSeen .. | .adoptTipSeen .. | .adoptProofClass .. | .sweepSegment .. | .sweepBalances _
  | .upsertBalances .. | .headerBatch .. | .receipt .. => exact .plain trivial rfl nofun

/-- What is written aside stores no body. -/
theorem Txn.Aside.genuine {t : Txn} (h : t.Aside cfg) : t.Genuine :=
  (h.issued : t.Issued cfg fun _ => True).genuine

/-- The header of what a height is written as. -/
def BodyOutcome.header : BodyOutcome → BlockHeaderInfo
  | .store details _ _ => details.header
  | .gap details _ => details.header

/-- A body outcome as the programs come by one, for a header that satisfies `H`. -/
def BodyOutcome.Issued (B : RetainedBlockInfo → Prop) (H : BlockHeaderInfo → Prop) :
    BodyOutcome → Prop
  | .store details source _ =>
    source ≠ headerOnlySource ∧ H details.header ∧ ∀ r ∈ details.retained, B r
  | .gap details _ => H details.header

/-- The threads that take bodies and rows from elsewhere. -/
def Thread.fills : Thread → Prop
  | .peers | .command _ => True
  | _ => False

/-- **Who issues what**, and what is known of it. -/
inductive Txn.By (cfg : Config) (B : RetainedBlockInfo → Prop) : Thread → Txn → Prop
  | ingest {height : ℕ} {details : BlockDetailsInfo} {source : String} {raw : Option (List UInt8)}
      {now : Instant} (hs : source ≠ headerOnlySource) (hb : ∀ r ∈ details.retained, B r) :
      By cfg B .indexer (.ingest height details source raw now)
  | gapBlock {details : BlockDetailsInfo} {note : String} {now : Instant} :
      By cfg B .indexer (.gapBlock details note now)
  | mismatches {count : String} : By cfg B .indexer (.setState "decoder_mismatches" count)
  | processed {height : String} : By cfg B .indexer (.setState lastProcessedKey height)
  | replace {height old : ℕ} {at_ now : Instant} {hash : String} {r : Option BodyOutcome}
      (hr : ∀ out ∈ r, out.Issued B fun _ => True) :
      By cfg B .indexer (.replace height old at_ hash r now)
  | recover {height blockId : ℕ} {hash : String} {retained : RetainedBlockInfo} {raw : List UInt8}
      {now : Instant} (hb : B retained) :
      By cfg B .indexer (.recover height hash blockId retained raw now)
  | keepRaw {height : ℕ} {hash : String} {bytes : List UInt8} {now : Instant} :
      By cfg B .indexer (.keepRaw height hash bytes now)
  | started {now : Instant} : By cfg B .indexer (.resolveGapsWithBodies now)
  | sighting {height : ℕ} {hash : String} {atMs : ℤ} :
      By cfg B .indexer (.setTipSeen height hash atMs)
  | prune {blockId : ℕ} (hret : cfg.retentionDays ≠ 0) : By cfg B .indexer (.pruneBlock blockId)
  | refresh {rows : List (String × String × ℕ)} {now : Instant} :
      By cfg B .indexer (.upsertBalances rows now)
  | segment {segment : UInt64} {slots : SlotRange} {live : List StateSlot} {startHeight : ℕ}
      {now : Instant} : By cfg B .sweep (.sweepSegment segment slots live startHeight now)
  | balances {now : Instant} : By cfg B .sweep (.sweepBalances now)
  | zero {address : String} {now : Instant} :
      By cfg B .sweep (.upsertBalances [(address, "0", 0)] now)
  | headers {batch : List BlockHeaderInfo} {progress : String} {now : Instant} :
      By cfg B .headers (.headerBatch batch progress now)
  | headersDone : By cfg B .headers (.setState headerBackfillKey "done")
  | fillGap {i : Thread} {height blockId : ℕ} {hash source resolution : String}
      {body : RetainedBlockInfo} {bytes : Option (List UInt8)} {keep : Bool} {now : Instant}
      (hi : i.fills) (hs : source ≠ headerOnlySource) (hb : B body) :
      By cfg B i (.fillGap height hash blockId body bytes source resolution keep now)
  | cleared {i : Thread} (hi : i.fills) : By cfg B i .clearSpentInGap
  | filled {i : Thread} {now : Instant} (hi : i.fills) : By cfg B i (.resolveGapsWithBodies now)
  | fillRaw {i : Thread} {height : ℕ} {hash source : String} {bytes : List UInt8} {now : Instant}
      (hi : i.fills) : By cfg B i (.fillRaw height hash bytes source now)
  | seen {i : Thread} {height : ℕ} {hash : String} {atMs : ℤ} (hi : i.fills) :
      By cfg B i (.adoptTipSeen height hash atMs)
  | proofClass {i : Thread} {height : ℕ} {hash class_ : String} (hi : i.fills) :
      By cfg B i (.adoptProofClass height hash class_)
  | receipt {n blockId : ℕ} {tx : ReceiptTransaction} {now : Instant} :
      By cfg B (.command n) (.receipt blockId tx now)

/-- **A transaction of a thread's own kind is issued.** -/
theorem Txn.By.issued {i : Thread} {t : Txn} (h : t.By cfg B i) : t.Issued cfg B := by
  cases h with
  | ingest hs hb => exact ⟨hs, fun b hmem => hb b (Option.mem_toList.mp hmem), nofun⟩
  | recover hb => exact ⟨trivial, fun b hmem => List.mem_singleton.mp hmem ▸ hb, nofun⟩
  | fillGap _ hs hb => exact ⟨hs, fun b hmem => List.mem_singleton.mp hmem ▸ hb, nofun⟩
  | prune hret => exact ⟨trivial, nofun, fun _ _ => hret⟩
  | @replace _ _ _ _ _ r hr =>
    refine ⟨?_, ?_, nofun⟩
    · rintro (⟨details, source, raw⟩ | ⟨details, note⟩) hout
      · exact (hr _ hout).1
      · exact trivial
    · rcases r with _ | ⟨details, source, raw⟩ | ⟨details, note⟩
      · exact nofun
      · exact fun b hb => (hr _ rfl).2.2 b (Option.mem_toList.mp hb)
      · exact nofun
  | gapBlock | mismatches | processed | keepRaw | started | sighting | refresh | segment | balances
  | zero | headers | headersDone | cleared | filled | fillRaw | seen | proofClass | receipt =>
    exact .plain trivial rfl nofun

/-- The sweep and the header backfill record no blocks. -/
theorem Txn.By.aside {i : Thread} {t : Txn} (h : t.By cfg B i) (hi : i = .sweep ∨ i = .headers) :
    t.Aside cfg := by
  have hfills : ¬ i.fills := by
    rcases hi with rfl | rfl
    · exact id
    · exact id
  cases h with
  | segment | balances | zero | headers => exact trivial
  | headersDone => exact (by decide : headerBackfillKey ≠ lastProcessedKey)
  | fillGap h | cleared h | filled h | fillRaw h | seen h | proofClass h => exact absurd h hfills
  | ingest | gapBlock | mismatches | processed | replace | recover | keepRaw | started | sighting
  | prune | refresh | receipt => exact absurd hi (by simp)

/-- A transaction of a thread that is beside the recording of blocks. -/
def Txn.Beside (cfg : Config) (B : RetainedBlockInfo → Prop) (i : Thread) (t : Txn) : Prop :=
  t.Aside cfg ∧ t.By cfg B i

/-- The sweep and the header backfill write beside the archive. -/
theorem commits_beside {i : Thread} (hi : i = .sweep ∨ i = .headers) {p : Program β}
    (h : p.Commits allow (Txn.By cfg B i) R) : p.Commits allow (Txn.Beside cfg B i) R :=
  commits_mono (fun _ ht => ⟨ht.aside hi, ht⟩) (fun _ hr => hr) h

theorem commits_left {P' : Txn → Prop} {p : Program β}
    (h : p.Commits allow (fun t => P t ∧ P' t) R) : p.Commits allow P R :=
  commits_mono (fun _ ht => ht.1) (fun _ hr => hr) h

theorem commits_right {P' : Txn → Prop} {p : Program β}
    (h : p.Commits allow (fun t => P t ∧ P' t) R) : p.Commits allow P' R :=
  commits_mono (fun _ ht => ht.2) (fun _ hr => hr) h

/-! ## The programs -/

/-- **A body the fallback recovers comes from the source of bodies.** -/
theorem fallback_commits (hB : BodySource N allow B) (height : ℕ) (hash : String) :
    (tryGetblockFallback N height hash).Commits allow P fun out =>
      ∀ retained raw, out = .recovered retained raw → B retained := by
  intro answer _
  rcases answer with e | _ | raw
  · exact fun _ _ h => FallbackOutcome.noConfusion h
  · exact fun _ _ h => FallbackOutcome.noConfusion h
  · dsimp only [Prog.bind]
    rcases hdecoded : decodeRetainedBlock N raw height hash with e | r
    · exact fun _ _ h => FallbackOutcome.noConfusion h
    · rintro _ _ ⟨⟩
      exact hB.decoded _ _ _ _ hdecoded

variable {H : BlockHeaderInfo → Prop}

/-- So does one that is stored as it was answered. -/
theorem resolveBody_commits (hB : BodySource N allow B) {details : BlockDetailsInfo}
    (hd : ∀ r ∈ details.retained, B r) (hh : H details.header) (note : String) :
    (resolveBody N cfg details note).Commits allow P (BodyOutcome.Issued B H) := by
  unfold resolveBody
  split_ifs
  · exact ⟨by decide, hh, hd⟩
  · refine commits_bind (fun out hout => ?_) (fallback_commits hB _ _)
    rcases out with ⟨retained, raw⟩ | _ | e
    · refine ⟨by decide, hh, fun r hr => ?_⟩
      obtain rfl := Option.some.inj hr
      exact hout _ _ rfl
    · exact hh
    · exact hh
  · exact hh

/-- Raw bytes are asked for, and nothing is written. -/
theorem fetchRaw_commits (height : ℕ) : (fetchRaw height).Commits allow P fun _ => True := by
  intro answer _
  rcases answer with e | b <;> exact trivial

theorem rawOrFetch_commits (raw : Option (List UInt8)) (wanted : Bool) (height : ℕ) :
    (rawOrFetch raw wanted height).Commits allow P fun _ => True := by
  unfold rawOrFetch
  split
  · exact trivial
  · split_ifs
    · exact fetchRaw_commits height
    · exact trivial

theorem mismatches_ne_processed : "decoder_mismatches" ≠ lastProcessedKey := by decide

/-- The self-check writes its counter alone. -/
theorem selfcheck_commits (height : ℕ) (details : BlockDetailsInfo) (raw : List UInt8)
    (hP : ∀ count, P (.setState "decoder_mismatches" count)) :
    (selfcheck N height details raw).Commits allow P fun _ => True := by
  unfold selfcheck
  split
  · exact trivial
  · split_ifs
    · exact trivial
    · exact fun db => ⟨hP _, fun _ _ => trivial⟩

/-- **A height is ingested by the transactions of the indexer**, none of which rests on what was
read. -/
theorem ingestHeight_commits (hB : BodySource N allow B) (height : ℕ) :
    (ingestHeight N cfg height).Commits allow (fun t => t.By cfg B .indexer ∧ ¬ t.Rests)
      fun _ => True := by
  refine commits_ask.mpr fun answer hanswer => ?_
  rcases answer with e | _ | details
  · exact trivial
  · exact trivial
  refine commits_bind (fun out hout => ?_)
    (resolveBody_commits (H := fun _ => True) hB (hB.details _ _ hanswer) trivial _)
  rcases out with ⟨details, source, raw⟩ | ⟨details, note⟩
  · refine commits_bind (fun raw _ => ?_) (rawOrFetch_commits ..)
    refine commits_ask.mpr fun now _ => commits_commit.mpr ⟨⟨.ingest hout.1 hout.2.2, id⟩, ?_⟩
    rcases raw with _ | raw
    · exact trivial
    · dsimp only
      split_ifs
      · refine commits_bind (fun _ _ => ?_)
          (selfcheck_commits height details raw fun _ => ⟨.mismatches, id⟩)
        exact trivial
      · exact trivial
  · exact commits_ask.mpr fun now _ => commits_commit.mpr ⟨⟨.gapBlock, id⟩, trivial⟩

/-- So are all of them, by induction on the list. -/
theorem ingestHeights_commits (hB : BodySource N allow B) : ∀ heights : List ℕ,
    (ingestHeights N cfg heights).Commits allow (fun t => t.By cfg B .indexer ∧ ¬ t.Rests)
      fun _ => True
  | [] => trivial
  | height :: heights => by
      refine commits_bind (fun more _ => ?_) (ingestHeight_commits hB height)
      rcases more with _ | _
      · exact trivial
      · exact commits_commit.mpr ⟨⟨.processed, id⟩, ingestHeights_commits hB heights⟩

/-- Probing writes nothing. -/
theorem probeBodies_commits : ∀ (heights : List ℕ) (start : ℕ),
    (probeBodies start heights).Commits allow P fun _ => True
  | [], _ => trivial
  | height :: heights, start => by
      refine commits_ask.mpr fun answer _ => ?_
      rcases answer with e | _ | raw
      · exact trivial
      · exact trivial
      · exact probeBodies_commits heights height

/-- So the heights of a poll are found without a transaction. -/
theorem heightsToIngest_commits (tip : ℕ) :
    (heightsToIngest tip).Commits allow P fun _ => True := by
  refine commits_get.mpr fun db => ?_
  rcases db.lastProcessed with _ | last
  · refine commits_bind (fun start _ => ?_) (probeBodies_commits _ tip)
    exact trivial
  · exact trivial

/-- **What a re-check fetches comes from the source of bodies**, and is nothing only if the node
answered so. -/
theorem fetchReplacement_commits (hB : BodySource N allow B) {height : ℕ}
    (hH : ∀ details, allow (.blockDetails height) (.ok (some details)) → H details.header) :
    (fetchReplacement N cfg height).Commits allow P fun r =>
      (∀ out ∈ r, out.Issued B H) ∧ (r = none → allow (.blockDetails height) (.ok none)) := by
  refine commits_ask.mpr fun answer hanswer => ?_
  rcases answer with e | _ | details
  · exact trivial
  · exact ⟨nofun, fun _ => hanswer⟩
  · refine commits_bind (fun out hout => ?_)
      (resolveBody_commits hB (hB.details _ _ hanswer) (hH _ hanswer) Db.reorgNote)
    refine commits_pure.mpr ⟨?_, nofun⟩
    rintro _ ⟨⟩
    exact hout

/-- Its raw bytes are added, and the body stays. -/
theorem withRaw_commits {height : ℕ} {r : Option BodyOutcome} (hr : ∀ out ∈ r, out.Issued B H) :
    (withRaw cfg height r).Commits allow P fun r' =>
      (∀ out ∈ r', out.Issued B H) ∧ (r' = none → r = none) := by
  rcases r with _ | ⟨details, source, raw⟩ | ⟨details, note⟩
  · exact ⟨hr, fun h => h⟩
  · refine commits_bind (fun raw' _ => ?_) (rawOrFetch_commits ..)
    refine commits_pure.mpr ⟨?_, nofun⟩
    rintro _ ⟨⟩
    exact hr (.store details source raw) rfl
  · exact ⟨hr, nofun⟩

/-- A re-check replaces the block or does nothing. -/
theorem recheckHeight_commits (hB : BodySource N allow B) (height : ℕ) :
    (recheckHeight N cfg height).Commits allow (Txn.By cfg B .indexer) fun _ => True := by
  refine commits_ask.mpr fun answer _ => ?_
  rcases answer with e | _ | header
  · exact trivial
  · exact trivial
  refine commits_ask.mpr fun now _ => commits_get.mpr fun db => ?_
  rcases db.canonicalHashAt height with _ | ⟨blockId, knownHash⟩
  · exact trivial
  dsimp only
  split_ifs
  · exact trivial
  refine commits_get.mpr fun db => ?_
  split_ifs
  · exact trivial
  refine commits_bind (fun r hr => ?_)
    (fetchReplacement_commits (H := fun _ => True) hB fun _ _ => trivial)
  refine commits_bind (fun r hr => ?_) (withRaw_commits hr.1)
  exact commits_ask.mpr fun later _ => commits_last.mpr ⟨.replace hr.1, trivial⟩

/-- A gap that is retried recovers its body. -/
theorem backfillGap_commits (hB : BodySource N allow B) (height : ℕ)
    (hP : ∀ hash blockId retained raw now, B retained →
      P (.recover height hash blockId retained raw now)) :
    (backfillGap N height).Commits allow P fun _ => True := by
  refine commits_get.mpr fun db => ?_
  rcases db.canonicalHashAt height with _ | ⟨id, hash⟩
  · exact trivial
  refine commits_get.mpr fun db => ?_
  rcases db.uncapturedBlockId height hash with _ | blockId
  · exact trivial
  refine commits_bind (fun out hout => ?_) (fallback_commits hB _ _)
  rcases out with ⟨retained, raw⟩ | _ | e
  · exact commits_ask.mpr fun now _ => commits_last.mpr ⟨hP _ _ _ _ _ (hout _ _ rfl), trivial⟩
  · exact trivial
  · exact trivial

theorem refetchRaw_commits (block : ℕ × String)
    (hP : ∀ height hash bytes now, P (.keepRaw height hash bytes now)) :
    (refetchRaw block).Commits allow P fun _ => True := by
  refine commits_bind (fun raw _ => ?_) (fetchRaw_commits _)
  rcases raw with _ | bytes
  · exact trivial
  · exact commits_ask.mpr fun now _ => commits_last.mpr ⟨hP _ _ _ _, trivial⟩

/-- Raw bytes that are missing are asked for again. -/
theorem retryRaw_commits (tip : ℕ)
    (hP : ∀ height hash bytes now, P (.keepRaw height hash bytes now)) :
    (retryRaw cfg tip).Commits allow P fun _ => True := by
  unfold retryRaw
  split_ifs
  · exact commits_get.mpr fun db => commits_each fun block _ => refetchRaw_commits block hP
  · exact trivial

/-- All gaps within reach, by induction. -/
theorem retryGaps_commits (hB : BodySource N allow B) (tip : ℕ)
    (hP : ∀ height hash blockId retained raw now, B retained →
      P (.recover height hash blockId retained raw now)) :
    (retryGaps N cfg tip).Commits allow P fun _ => True := by
  unfold retryGaps
  split_ifs
  · exact commits_get.mpr fun db => commits_each fun height _ =>
      backfillGap_commits hB height (hP height)
  · exact trivial

/-- **A poll commits the transactions of the indexer.** -/
theorem pollOnce_commits (hB : BodySource N allow B) :
    (pollOnce N cfg).Commits allow (Txn.By cfg B .indexer) fun _ => True := by
  refine commits_ask.mpr fun answer _ => commits_ofAnswer.mpr fun tip _ => ?_
  refine commits_bind (fun heights _ => ?_) (heightsToIngest_commits tip)
  refine commits_bind (fun _ _ => ?_) (commits_left (ingestHeights_commits hB heights))
  refine commits_bind (fun _ _ => ?_)
    (commits_each fun height _ => recheckHeight_commits hB height)
  exact commits_bind (fun _ _ => retryRaw_commits tip fun _ _ _ _ => .keepRaw)
    (retryGaps_commits hB tip fun _ _ _ _ _ _ hb => .recover hb)

/-! ### The other threads -/

theorem refresh_commits (hP : ∀ rows now, P (.upsertBalances rows now)) :
    refreshKnownAddressBalances.Commits allow P fun _ => True := by
  refine commits_get.mpr fun db => commits_ask.mpr fun now _ => ?_
  refine commits_bind (R := fun _ => True)
    (fun rows _ => commits_last.mpr ⟨hP rows now, trivial⟩)
    (commits_foldEach (fun rows _ address _ => commits_ask.mpr fun answer _ => ?_) trivial)
  rcases answer with e | slots <;> exact trivial

theorem waitRounds_commits (height : ℕ) : ∀ n : ℕ,
    (waitRounds height n).Commits allow P fun _ => True
  | 0 => commits_get.mpr fun db => by split_ifs <;> exact trivial
  | n + 1 => commits_get.mpr fun db => by
      split_ifs
      · exact trivial
      · exact waitRounds_commits height n

theorem tipRounds_commits : ∀ n : ℕ, (tipRounds n).Commits allow P fun _ => True
  | 0 => trivial
  | n + 1 => by
      refine commits_ask.mpr fun answer _ => commits_ofAnswer.mpr fun tip _ =>
        commits_get.mpr fun db => ?_
      split_ifs
      · exact trivial
      · exact tipRounds_commits n

theorem stateMapRounds_commits : ∀ n : ℕ, (stateMapRounds n).Commits allow P fun _ => True
  | 0 => trivial
  | n + 1 => by
      refine commits_ask.mpr fun answer _ => commits_ofAnswer.mpr fun tip _ => ?_
      refine commits_bind (fun _ _ => ?_)
        (commits_ask.mpr fun rounds _ => waitRounds_commits tip rounds)
      refine commits_ask.mpr fun answer _ => commits_ofAnswer.mpr fun map _ => ?_
      refine commits_ask.mpr fun answer _ => commits_ofAnswer.mpr fun after _ => ?_
      split_ifs
      · exact trivial
      · exact stateMapRounds_commits n

theorem fetchSlot_commits (index : UInt64) : ∀ n : ℕ,
    (fetchSlot index n).Commits allow P fun _ => True
  | 0 => by
      refine commits_ask.mpr fun answer _ => ?_
      rcases answer with e | slot <;> exact trivial
  | n + 1 => by
      refine commits_ask.mpr fun answer _ => ?_
      rcases answer with e | slot
      · exact fetchSlot_commits index n
      · exact trivial

/-- A slot read is added if it is live. -/
theorem readSlot_commits (live : List StateSlot) (index : UInt64) :
    (readSlot live index).Commits allow P fun live' =>
      live' = live ∨ ∃ s : StateSlot, s.slotIndex = index ∧ live' = live ++ [s] := by
  have hslot : (fetchSlot index 4 >>= fun slot => if slot.empty then (pure live : Program _)
      else pure (live ++ [⟨index, Nat.repr slot.creationId.toNat, slot.owner, slot.value⟩])).Commits
        allow P fun live' => live' = live ∨ ∃ s : StateSlot, s.slotIndex = index
          ∧ live' = live ++ [s] := by
    refine commits_bind (fun slot _ => ?_) (fetchSlot_commits index 4)
    split_ifs
    · exact Or.inl rfl
    · exact Or.inr ⟨_, rfl, rfl⟩
  unfold readSlot
  split_ifs
  · exact commits_bind (fun _ _ => hslot) (commits_ask.mpr fun rounds _ => tipRounds_commits rounds)
  · exact hslot

/-- **A read finds slots it asked for, in order.** -/
theorem readSlots_commits : ∀ (indices : List UInt64) (live : List StateSlot),
    (Prog.foldEach readSlot live indices).Commits allow P fun live' =>
      ∃ new, live' = live ++ new ∧ (new.map StateSlot.slotIndex).Sublist indices
  | [], live => ⟨[], (List.append_nil live).symm, List.Sublist.slnil⟩
  | index :: indices, live => by
      refine commits_bind (fun live₁ h₁ => ?_) (readSlot_commits live index)
      refine commits_mono (fun _ ht => ht) (fun live' h => ?_) (readSlots_commits indices live₁)
      obtain ⟨new, rfl, hnew⟩ := h
      rcases h₁ with rfl | ⟨s, hs, rfl⟩
      · exact ⟨new, rfl, hnew.cons index⟩
      · refine ⟨s :: new, by rw [List.append_assoc, List.singleton_append], ?_⟩
        rw [List.map_cons, hs]
        exact hnew.cons_cons index

/-- **A segment is committed as it was read.** -/
theorem sweepOne_commits (size segment : UInt64) :
    (sweepOne size segment).Commits allow
      (fun t => ∃ live height now,
        t = .sweepSegment segment (segmentSlots segment size) live height now
          ∧ (live.map StateSlot.slotIndex).Sublist (segmentSlots segment size).indices)
      fun _ => True := by
  refine commits_ask.mpr fun answer _ => commits_ofAnswer.mpr fun startHeight _ => ?_
  refine commits_bind (fun live hlive => ?_)
    (readSlots_commits (segmentSlots segment size).indices [])
  obtain ⟨new, rfl, hnew⟩ := hlive
  exact commits_ask.mpr fun now _ => commits_last.mpr ⟨⟨_, _, _, rfl, hnew⟩, trivial⟩

/-- The addresses that are set to zero are none of those to keep. -/
theorem zeroBalances_commits (keep : List String) (now : Instant) :
    (zeroBalances keep now).Commits allow
      (fun t => ∃ address, address ∉ keep ∧ t = .upsertBalances [(address, "0", 0)] now)
      fun _ => True := by
  refine commits_get.mpr fun db => commits_each fun address haddress => ?_
  refine commits_last.mpr ⟨⟨address, ?_, rfl⟩, trivial⟩
  obtain ⟨r, hr, rfl⟩ := List.mem_map.mp haddress
  exact (of_decide_eq_true (List.mem_filter.mp hr).2).2

/-- **A sweep commits the transactions of the sweep.** -/
theorem scanLiveState_commits :
    scanLiveState.Commits allow (Txn.By cfg B .sweep) fun _ => True := by
  refine commits_bind (fun m _ => ?_) (stateMapRounds_commits 10)
  refine commits_get.mpr fun db => commits_ofAnswer.mpr fun differing _ => ?_
  refine commits_bind (fun _ _ => ?_) (commits_each fun segment _ =>
    commits_mono (fun t ht => ?_) (fun _ h => h) (sweepOne_commits _ segment))
  swap
  · obtain ⟨_, _, _, rfl, -⟩ := ht
    exact .segment
  refine commits_ask.mpr fun now _ => ?_
  refine commits_bind (R := fun _ => True) (fun balances _ => ?_)
    ⟨.balances, fun _ _ => trivial⟩
  refine commits_bind (fun m _ => ?_) (stateMapRounds_commits 10)
  refine commits_get.mpr fun db => commits_ofAnswer.mpr fun still _ => ?_
  dsimp only
  split_ifs
  · refine commits_bind (fun _ _ => ?_)
      (commits_mono (fun t ht => ?_) (fun _ h => h) (zeroBalances_commits _ now))
    · exact trivial
    · obtain ⟨_, -, rfl⟩ := ht
      exact .zero
  · exact trivial

/-- A header that is fetched is what the node answered. -/
theorem fetchHeader_commits (height : ℕ) : ∀ n : ℕ,
    (fetchHeader height n).Commits allow P fun header => allow (.blockHeader height) (.ok header)
  | 0 => by
      refine commits_ask.mpr fun answer ha => ?_
      rcases answer with e | header
      · exact trivial
      · exact ha
  | n + 1 => by
      refine commits_ask.mpr fun answer ha => ?_
      rcases answer with e | header
      · exact fetchHeader_commits height n
      · exact ha

/-- The world may answer that there is no header of genesis. -/
def NoGenesis (allow : ∀ q : Query, q.Answer → Prop) : Prop := allow (.blockHeader 0) (.ok none)

/-- **The headers of a batch hang together**, by induction on the heights. -/
theorem fetchBatch_commits : ∀ (heights : List ℕ) (expected : String),
    (fetchBatch expected heights).Commits allow P fun r =>
      Fetched (NoGenesis allow) expected heights r.1 r.2
  | [], expected => .done expected
  | height :: heights, expected => by
      refine commits_bind (fun header ha => ?_) (fetchHeader_commits height 4)
      rcases header with _ | header
      · dsimp only
        split_ifs with hzero
        · subst hzero
          exact .genesis expected heights ha
        · exact trivial
      · dsimp only
        split_ifs with hwrong
        · exact trivial
        · obtain ⟨rfl, rfl⟩ := not_or.mp hwrong |>.imp not_not.mp not_not.mp
          refine commits_bind (fun batch hb => ?_) (fetchBatch_commits heights header.prevHash)
          exact .header hb

/-- Each header of a batch is what the node has at its height. -/
theorem fetchBatch_answered : ∀ (heights : List ℕ) (expected : String),
    (fetchBatch expected heights).Commits allow P fun r =>
      ∀ h ∈ r.1, allow (.blockHeader h.height) (.ok (some h))
  | [], _ => fun _ h => absurd h List.not_mem_nil
  | height :: heights, expected => by
      refine commits_bind (fun header ha => ?_) (fetchHeader_commits height 4)
      rcases header with _ | header
      · dsimp only
        split_ifs
        · exact fun _ h => absurd h List.not_mem_nil
        · exact trivial
      · dsimp only
        split_ifs with hwrong
        · exact trivial
        · obtain ⟨rfl, -⟩ := not_or.mp hwrong |>.imp not_not.mp not_not.mp
          refine commits_bind (fun batch hb => ?_) (fetchBatch_answered heights header.prevHash)
          exact List.forall_mem_cons.mpr ⟨ha, hb⟩

/-- And each of them is what the node answered. -/
theorem fetchBatch_both (heights : List ℕ) (expected : String) :
    (fetchBatch expected heights).Commits allow P fun r =>
      Fetched (NoGenesis allow) expected heights r.1 r.2
        ∧ ∀ h ∈ r.1, allow (.blockHeader h.height) (.ok (some h)) := by
  have hanswered : (fetchBatch expected heights).Commits allow P _ :=
    fetchBatch_answered heights expected
  exact commits_left (commits_and (fetchBatch_commits heights expected) hanswered)

section BackfillHeaders

variable (hbatch : ∀ batch : List BlockHeaderInfo, batch.Pairwise (fun a b => b.height < a.height) →
    (∀ h ∈ batch, allow (.blockHeader h.height) (.ok (some h))) →
      ∀ progress now, P (.headerBatch batch progress now))
  (hdone : P (.setState headerBackfillKey "done"))
include hbatch

/-- Whatever each batch commits, so do all of them. -/
theorem copyBatches_commits (depth : ℕ) : ∀ (n next : ℕ) (expected : String),
    (copyBatches depth n next expected).Commits allow P fun _ => True
  | 0, _, _ => trivial
  | n + 1, next, expected => by
      refine commits_bind (fun tip _ => ?_)
        (commits_ask.mpr fun rounds _ => tipRounds_commits rounds)
      split
      · exact copyBatches_commits depth n next expected
      · generalize next - (headerBatchSize - 1) = low
        refine commits_bind (fun batch hb => ?_) (fetchBatch_both _ _)
        have hdesc : batch.1.Pairwise fun a b => b.height < a.height := Fetched.descends hb.1
        refine commits_ask.mpr fun now _ => ?_
        split
        · exact commits_last.mpr ⟨hbatch _ hdesc hb.2 _ _, trivial⟩
        · exact commits_commit.mpr ⟨hbatch _ hdesc hb.2 _ _, copyBatches_commits depth n _ _⟩

include hdone

/-- The header backfill commits batches that go down, and that it is done. -/
theorem backfillHeaders_commits (depth : ℕ) :
    (backfillHeaders depth).Commits allow P fun _ => True := by
  have harchive : ∀ n, (archiveRounds n).Commits allow P fun _ => True := by
    intro n
    induction n with
    | zero => exact trivial
    | succ n ih =>
      refine commits_get.mpr fun db => ?_
      rcases db.archiveFirstHeight with _ | height
      · exact ih
      · exact trivial
  refine commits_ask.mpr fun rounds _ => commits_bind (fun first _ => ?_) (harchive rounds)
  refine commits_get.mpr fun db => ?_
  split_ifs
  · exact trivial
  refine commits_get.mpr fun db => ?_
  rcases db.lowestRecordedHeight.getD first with _ | next
  · exact commits_last.mpr ⟨hdone, trivial⟩
  refine commits_get.mpr fun db => ?_
  rcases db.canonicalLinkAt (next + 1) with _ | ⟨_, parent⟩
  · exact trivial
  · exact commits_ask.mpr fun rounds _ => copyBatches_commits hbatch depth rounds next parent

end BackfillHeaders

/-- A body that is accepted has passed the checks. -/
theorem judgeOffer_accepted {height : ℕ} {hash txRoot : String}
    {offer : Except String (Option Offer)} {body : RetainedBlockInfo} {bytes : Option (List UInt8)}
    (h : judgeOffer N height hash txRoot offer = .accepted body bytes) :
    checkBody N body txRoot = .ok () := by
  have hbody : ∀ {b bs}, judgeBody N txRoot b bs = .accepted body bytes →
      checkBody N body txRoot = .ok () := by
    intro b bs h
    unfold judgeBody at h
    split at h
    · next hb =>
      obtain ⟨rfl, -⟩ := Verdict.accepted.inj h
      exact hb
    · exact nomatch h
  unfold judgeOffer at h
  split at h
  · exact hbody h
  · split at h
    · exact hbody h
    · exact nomatch h
  · exact nomatch h
  · exact nomatch h

section Fills

variable {i : Thread} (hi : i.fills)
include hi

/-- **A gap is filled by a transaction of the thread that fills it.** -/
theorem fillHeight_commits (hB : BodySource N allow B) {source resolution : String}
    (hs : source ≠ headerOnlySource) (keep : Bool) (report : ImportReport) (height : ℕ) :
    (fillHeight N source resolution keep report height).Commits allow (Txn.By cfg B i)
      fun _ => True := by
  refine commits_get.mpr fun db => ?_
  rcases db.canonicalHashAt height with _ | ⟨_, hash⟩
  · exact trivial
  refine commits_get.mpr fun db => ?_
  rcases db.uncapturedBlockId height hash with _ | blockId
  · exact trivial
  refine commits_get.mpr fun db => ?_
  rcases (db.block? blockId).map BlockRow.txRoot with _ | txRoot
  · exact trivial
  refine commits_ask.mpr fun offer _ => ?_
  rcases hj : judgeOffer N height hash txRoot offer with ⟨body, bytes⟩ | _ | _
  · exact commits_ask.mpr fun now _ =>
      commits_commit.mpr ⟨.fillGap hi hs (hB.checked _ _ (judgeOffer_accepted hj)), trivial⟩
  · exact trivial
  · exact trivial

/-- So is a round of gaps, with its closing maintenance. -/
theorem fillGaps_commits (hB : BodySource N allow B) (max : Option ℕ) {source : String}
    (hs : source ≠ headerOnlySource) (resolution : String) (keep : Bool) :
    (fillGaps N max source resolution keep).Commits allow (Txn.By cfg B i) fun _ => True := by
  refine commits_get.mpr fun db => commits_bind (fun report _ => ?_) (commits_foldEach
    (fun report _ height _ => fillHeight_commits hi hB hs keep report height) trivial)
  exact ⟨.cleared hi, fun _ _ => commits_ask.mpr fun now _ =>
    commits_commit.mpr ⟨.filled hi, trivial⟩⟩

/-- Raw bytes from peers are written beside the archive. -/
theorem fillRaw_commits (source : String) (candidates : List (ℕ × String)) :
    (fillRaw N source candidates).Commits allow (Txn.Beside cfg B i) fun _ => True := by
  refine commits_each fun block _ => commits_ask.mpr fun answer _ => ?_
  rcases answer with e | _ | bytes
  · exact trivial
  · exact trivial
  · dsimp only
    split
    · exact trivial
    · exact commits_ask.mpr fun now _ => commits_last.mpr ⟨⟨trivial, .fillRaw hi⟩, trivial⟩

theorem fillRawFromPeers_commits (below max : ℕ) :
    (fillRawFromPeers N below max).Commits allow (Txn.Beside cfg B i) fun _ => True := by
  refine commits_ask.mpr fun answer _ => ?_
  rcases answer with _ | low
  · exact trivial
  · dsimp only
    split_ifs
    · exact commits_get.mpr fun db => fillRaw_commits hi ..
    · exact trivial

/-- What a peer round does besides filling gaps. -/
theorem peerRest_commits (keep : Bool) :
    (do
      if keep then
        let processed ← Program.get Db.processedHeight
        fillRawFromPeers N (processed - getblockServingWindow) peerBackfillBatch
      fillSeenFromPeers
      fillProofFromPeers : Program Unit).Commits allow (Txn.Beside cfg B i) fun _ => True := by
  have hrows : (fillSeenFromPeers >>= fun _ => fillProofFromPeers).Commits allow
      (Txn.Beside cfg B i) fun _ => True := by
    refine commits_bind (R := fun _ => True) (fun _ _ => ?_) ?_
    · exact commits_ask.mpr fun answer _ => commits_ofAnswer.mpr fun rows _ =>
        commits_each fun row _ => commits_last.mpr ⟨⟨trivial, .proofClass hi⟩, trivial⟩
    · exact commits_ask.mpr fun answer _ => commits_ofAnswer.mpr fun rows _ =>
        commits_each fun row _ => commits_last.mpr ⟨⟨trivial, .seen hi⟩, trivial⟩
  split_ifs
  · exact commits_get.mpr fun db => commits_bind (fun _ _ => hrows)
      (fillRawFromPeers_commits hi _ _)
  · exact hrows

/-- What an import does besides filling gaps. -/
theorem importRest_commits (keep : Bool) :
    (if keep then do
        let candidates ← Program.get fun db => db.blocksMissingRaw 0 (2 ^ 63 - 1) (2 ^ 63 - 1)
        fillRaw N "import" candidates
      else pure () : Program Unit).Commits allow (Txn.Beside cfg B i) fun _ => True := by
  split_ifs
  · exact commits_get.mpr fun db => fillRaw_commits hi ..
  · exact trivial

end Fills

/-- So is a receipt. -/
theorem importReceipt_commits (n : ℕ) (d : DecodedReceipt) :
    (importReceipt d).Commits allow (Txn.Beside cfg B (.command n)) fun _ => True := by
  refine commits_get.mpr fun db => ?_
  rcases db.canonicalBlockAt d.height with _ | block
  · exact trivial
  · dsimp only
    split_ifs
    · exact trivial
    · exact commits_ask.mpr fun now _ => commits_last.mpr ⟨⟨trivial, .receipt⟩, trivial⟩

/-- **The three kinds of jobs**: one that records no blocks, a poll, and one that fills gaps and
then records none. -/
theorem Job.kinds (allow : ∀ q : Query, q.Answer → Prop) {i : Thread} {p : Program Unit}
    (h : Job N cfg i p) :
    p.Commits allow (Txn.Beside cfg B i) (fun _ => True)
      ∨ i = .indexer ∧ p = pollOnce N cfg
      ∨ i.fills ∧ ∃ max source resolution keep, ∃ rest : ImportReport → Program Unit,
        source ≠ headerOnlySource ∧ p = fillGaps N max source resolution keep >>= rest
          ∧ ∀ r, (rest r).Commits allow (Txn.Beside cfg B i) fun _ => True := by
  cases h with
  | startup =>
    exact Or.inl (commits_ask.mpr fun now _ => commits_last.mpr ⟨⟨trivial, .started⟩, trivial⟩)
  | noteSightings =>
    exact Or.inl (commits_ask.mpr fun rows _ => commits_each fun row _ =>
      commits_last.mpr ⟨⟨trivial, .sighting⟩, trivial⟩)
  | prune hret =>
    exact Or.inl (commits_ask.mpr fun unix _ => commits_get.mpr fun db => commits_each fun id _ =>
      commits_last.mpr ⟨⟨hret, .prune hret⟩, trivial⟩)
  | refresh => exact Or.inl (refresh_commits fun _ _ => ⟨trivial, .refresh⟩)
  | sweep =>
    refine Or.inl (commits_bind (fun _ _ => ?_) (commits_beside (Or.inl rfl) scanLiveState_commits))
    exact trivial
  | headers => exact Or.inl (commits_beside (Or.inr rfl)
    (backfillHeaders_commits (fun _ _ _ _ _ => .headers) .headersDone _))
  | fillRawFromPeer n =>
    have hi : (Thread.command n).fills := trivial
    exact Or.inl (fillRawFromPeers_commits hi _ _)
  | importReceipts n receipts => exact Or.inl (commits_each fun d _ => importReceipt_commits n d)
  | poll => exact Or.inr (Or.inl ⟨rfl, rfl⟩)
  | peers =>
    have hi : Thread.peers.fills := trivial
    exact Or.inr (Or.inr ⟨hi, _, _, _, _, _, by decide, rfl, fun _ => peerRest_commits hi _⟩)
  | fillFromPeer =>
    exact Or.inr (Or.inr ⟨trivial, _, _, _, _, _, by decide, rfl, fun _ => trivial⟩)
  | importBodies n =>
    have hi : (Thread.command n).fills := trivial
    exact Or.inr (Or.inr ⟨hi, _, _, _, _, _, by decide, rfl, fun _ => importRest_commits hi _⟩)

/-- **Every transaction of every job is one of its thread's.** -/
theorem Job.by (hB : BodySource N allow B) {i : Thread} {p : Program Unit} (h : Job N cfg i p) :
    p.Commits allow (Txn.By cfg B i) fun _ => True := by
  rcases h.kinds allow with h | ⟨rfl, rfl⟩
      | ⟨hi, max, source, resolution, keep, rest, hs, rfl, hrest⟩
  · exact commits_right h
  · exact pollOnce_commits hB
  · exact commits_bind (fun r _ => commits_right (hrest r))
      (fillGaps_commits hi hB max hs resolution keep)

/-- **Every transaction of every job is an issued one.** -/
theorem Job.commits (hB : BodySource N allow B) {i : Thread} {p : Program Unit}
    (h : Job N cfg i p) : p.Commits allow (Txn.Issued cfg B) fun _ => True :=
  commits_mono (fun _ ht => ht.issued) (fun _ hr => hr) (h.by hB)

/-- Nothing is asked of a body. -/
theorem bodySource_any (N : Noid) (allow : ∀ q : Query, q.Answer → Prop) :
    BodySource N allow fun _ => True :=
  ⟨fun _ _ _ _ _ => trivial, fun _ _ _ _ _ => trivial, fun _ _ _ => trivial⟩

end Permanode
