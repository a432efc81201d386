import Mathlib.Data.List.Find
import Permanode.Foundations.Worlds
import Permanode.Import.Fill
import Permanode.Indexer.Slices
import Permanode.Ledger.Refinement

/-!
# Import/Filling — one gap, and the gaps of a round

A height is asked for if its canonical block has no body (`Db.request`); what is offered and proves
to be the body is recorded, in a transaction that cannot fail (`fillBody_ok`), and leaves what is
asked for every other height as it was (`request_fillBody`).  `drive_fillHeight` is one gap of a
round against any world.
-/

namespace Permanode

open Outcome Prog

namespace Db

variable {db db' : Db}

/-! ## What is asked for -/

/-- What is asked for a height, if anything: the hash of its canonical block, its id and
`tx_root`. -/
def request (db : Db) (height : ℕ) : Option (String × ℕ × String) := do
  let (_, hash) ← db.canonicalHashAt height
  let id ← db.uncapturedBlockId height hash
  let b ← db.block? id
  return (hash, id, b.txRoot)

theorem request_eq_some {height id : ℕ} {hash root : String} :
    db.request height = some (hash, id, root) ↔ db.hashAt height = some hash
      ∧ db.uncapturedBlockId height hash = some id
      ∧ (db.block? id).map BlockRow.txRoot = some root := by
  simp only [request, hashAt, Option.bind_eq_bind, Option.bind_eq_some_iff, Option.map_eq_some_iff,
    Option.pure_def, Option.some.injEq, Prod.mk.injEq]
  constructor
  · rintro ⟨known, hknown, i, hi, b, hb, rfl, rfl, rfl⟩
    exact ⟨⟨known, hknown, rfl⟩, hi, b, hb, rfl⟩
  · rintro ⟨⟨known, hknown, rfl⟩, hi, b, hb, rfl⟩
    exact ⟨known, hknown, id, hi, b, hb, rfl, rfl, rfl⟩

/-- The block that is asked for: without its body, and of the archive. -/
theorem mem_of_request {height id : ℕ} {hash root : String}
    (h : db.request height = some (hash, id, root)) :
    ∃ b ∈ db.blocks.rows, b.id = id ∧ b.height = height ∧ b.hash = hash ∧ b.bodyCaptured = false
      ∧ b.archived ∧ b.txRoot = root := by
  obtain ⟨-, hid, hroot⟩ := request_eq_some.mp h
  obtain ⟨b, hb, rfl, hh, hs, hc, ha⟩ := mem_of_uncapturedBlockId hid
  rw [block?_eq_some hb] at hroot
  exact ⟨b, hb, rfl, hh, hs, hc, ha, Option.some.inj hroot⟩

/-! ## Recording a body -/

theorem insertTransaction_ok (db : Db) (blockId : ℕ) (tx : BlockTransactionInfo) :
    ∃ db', insertTransaction blockId db tx = .ok db' := by
  let row := transactionRow (db.transactions.nextId TransactionRow.id) blockId tx
  obtain ⟨t, ht, hb, hp⟩ : ∃ t ∈ (db.transactions.insertOrIgnore row).rows,
      t.blockId = blockId ∧ t.position = tx.position.toNat := by
    rcases Table.rows_insert_cases db.transactions row with ⟨hrows, -⟩ | ⟨hsame, t, ht, hclash⟩
    · exact ⟨row, hrows ▸ List.mem_append_right _ (List.mem_singleton_self _), rfl, rfl⟩
    · have hid : t.id ≠ db.transactions.nextId TransactionRow.id := (Table.lt_nextId ht).ne
      have hkey : t.blockId = blockId ∧ t.position = tx.position.toNat := by
        simpa [Row.clash, row, transactionRow, hid] using hclash
      exact ⟨t, by rw [hsame]; exact ht, hkey⟩
  have hsome : ((db.transactions.insertOrIgnore row).rows.find? fun t =>
      t.blockId = blockId ∧ t.position = tx.position.toNat).isSome :=
    List.find?_isSome.mpr ⟨t, ht, decide_eq_true ⟨hb, hp⟩⟩
  obtain ⟨found, hfound⟩ := Option.isSome_iff_exists.mp hsome
  have hid : Db.transactionId { db with transactions := db.transactions.insertOrIgnore row } blockId
      tx.position.toNat = some found.id := by
    rw [transactionId]
    exact congrArg (Option.map TransactionRow.id) hfound
  refine ⟨_, bind_ok.mpr ⟨found.id, orError_ok.mpr hid, rfl⟩⟩

theorem insertAll_ok (blockId : ℕ) : ∀ (txs : List BlockTransactionInfo) (db : Db),
    ∃ db', txs.foldlM (insertTransaction blockId) db = .ok db'
  | [], db => ⟨db, rfl⟩
  | tx :: txs, db => by
      obtain ⟨db₁, h₁⟩ := insertTransaction_ok db blockId tx
      obtain ⟨db₂, h₂⟩ := insertAll_ok blockId txs db₁
      exact ⟨db₂, by rw [List.foldlM_cons]; exact bind_ok.mpr ⟨db₁, h₁, h₂⟩⟩

theorem insertTransactions_ok {blockId : ℕ} (hblock : (db.block? blockId).isSome)
    (retained : RetainedBlockInfo) : ∃ db', db.insertTransactions blockId retained = .ok db' := by
  obtain ⟨db', h⟩ := insertAll_ok blockId retained.transactions
    (db.setBodyFields blockId retained)
  refine ⟨db', bind_ok.mpr ⟨(), bailIf_ok.mpr ?_, h⟩⟩
  rintro ⟨-, hnone⟩
  rw [Option.isNone_iff_eq_none] at hnone
  rw [hnone] at hblock
  exact Bool.false_ne_true hblock

theorem storeRaw_ok {N : Noid} {height : ℕ} {hash : String} {bytes : List UInt8}
    (h : verify N bytes height hash = .ok ()) (source : String) (now : Instant) :
    ∃ r, db.storeRaw N height hash bytes source now = .ok r := by
  unfold storeRaw
  split
  · exact ⟨_, rfl⟩
  · split_ifs
    · exact ⟨_, rfl⟩
    · exact ⟨_, bind_ok.mpr ⟨(), h, rfl⟩⟩

/-- **A body that was accepted is recorded**: the transaction does not fail. -/
theorem fillBody_ok {N : Noid} {height blockId : ℕ} {hash : String}
    (hblock : (db.block? blockId).isSome)
    (body : RetainedBlockInfo) {bytes : Option (List UInt8)} {keep : Bool}
    (hbytes : ∀ b ∈ bytes, keep = true → verify N b height hash = .ok ())
    (source resolution : String) (now : Instant) :
    ∃ db', db.fillBody N height hash blockId body bytes source resolution keep now = .ok db' := by
  obtain ⟨db₁, h₁⟩ := insertTransactions_ok hblock body
  rcases bytes with _ | bytes
  · exact ⟨_, bind_ok.mpr ⟨db₁, h₁, bind_ok.mpr ⟨_, rfl, rfl⟩⟩⟩
  · rcases keep with _ | _
    · exact ⟨_, bind_ok.mpr ⟨db₁, h₁, bind_ok.mpr ⟨_, rfl, rfl⟩⟩⟩
    · let db₂ :=
        (db₁.markBodyRecovered blockId source).recordContractFlags N height hash (some bytes)
      obtain ⟨⟨db₃, stored⟩, h₂⟩ : ∃ r, db₂.storeRaw N height hash bytes source now = .ok r :=
        storeRaw_ok (hbytes bytes rfl rfl) source now
      exact ⟨_, bind_ok.mpr ⟨db₁, h₁, bind_ok.mpr ⟨db₃, map_ok.mpr ⟨_, h₂, rfl⟩, rfl⟩⟩⟩

/-! ## The other heights -/

theorem uncapturedBlockId_ledger (db : Db) (height : ℕ) (hash : String) :
    db.uncapturedBlockId height hash = (db.ledger.entries.rows.find? fun e =>
      e.height = height ∧ e.hash = hash ∧ e.captured = false ∧ e.archived).map Entry.id := by
  change _ = Option.map Entry.id (List.find? _ (db.blocks.rows.map BlockRow.entry))
  rw [List.find?_map, Option.map_map]
  rfl

theorem txRoot_bare (db : Db) (id : ℕ) : (db.block? id).map BlockRow.txRoot
    = ((db.blocks.rows.map BlockRow.bare).find? fun b => b.id = id).map BlockRow.txRoot := by
  rw [List.find?_map, Option.map_map]
  rfl

theorem KeepsHeaders.request_eq (h : db.KeepsHeaders db') {height : ℕ}
    (huncaptured : ∀ hash, db'.uncapturedBlockId height hash = db.uncapturedBlockId height hash) :
    db'.request height = db.request height := by
  ext ⟨hash, id, root⟩
  rw [request_eq_some, request_eq_some, hashAt_congr (h.slice _),
    huncaptured, txRoot_bare, txRoot_bare, h.headers]

/-- **A body recorded for one height changes nothing of what is asked for another.** -/
theorem request_fillBody {N : Noid} {height blockId : ℕ} {hash : String} {body : RetainedBlockInfo}
    {bytes : Option (List UInt8)} {source resolution : String} (hs : source ≠ headerOnlySource)
    {keep : Bool} {now : Instant}
    (hfill : db.fillBody N height hash blockId body bytes source resolution keep now = .ok db')
    (hid : ∀ b ∈ db.blocks.rows, b.id = blockId → b.height = height) {k : ℕ} (hk : k ≠ height) :
    db'.request k = db.request k := by
  refine (keepsHeaders_fillBody hfill).request_eq fun s => ?_
  let set : Entry → Entry := Table.updated (fun e => e.id = blockId)
    fun e => { e with archived := true, captured := true }
  have hrows : db'.ledger.entries.rows = db.ledger.entries.rows.map set := by
    rw [ledger_fillBody hs hfill]
    rfl
  have hids : Entry.id ∘ set = Entry.id := by
    funext e
    simp only [Function.comp, set, Table.updated]
    split_ifs <;> rfl
  -- the block that is filled is at another height, before and after
  have hsame : ∀ e ∈ db.ledger.entries.rows,
      decide ((set e).height = k ∧ (set e).hash = s ∧ (set e).captured = false ∧ (set e).archived)
        = decide (e.height = k ∧ e.hash = s ∧ e.captured = false ∧ e.archived) := by
    intro e he
    simp only [set, Table.updated]
    split_ifs with hb
    · obtain ⟨b, hbm, rfl⟩ := List.mem_map.mp he
      have hh : b.height = height := hid b hbm (of_decide_eq_true hb)
      have hne : b.entry.height ≠ k := fun h => hk (h.symm.trans hh)
      simp [hne]
    · rfl
  rw [uncapturedBlockId_ledger, uncapturedBlockId_ledger, hrows, List.find?_map, Option.map_map,
    hids]
  exact congrArg (Option.map Entry.id) (List.find?_congr hsame)

/-! ## One gap -/

variable {N : Noid} {cfg : Config} {W : Type} {world : ∀ q : Query, W → q.Answer × W}

/-- **One gap of a round**: what is offered for it is recorded if it proves to be the body. -/
theorem drive_fillHeight (source resolution : String) (keep : Bool) (report : ImportReport)
    (height : ℕ) (db : Db) (w : W) :
    drive (Txn.exec N cfg) world (fillHeight N source resolution keep report height) db w
      = match db.request height with
        | none => (.ok report, db, w)
        | some (hash, blockId, txRoot) =>
          let (offer, w₁) := world (.offer height hash) w
          match judgeOffer N height hash txRoot offer with
          | .notInSource => (.ok { report with notInSource := report.notInSource + 1 }, db, w₁)
          | .rejected => (.ok { report with rejected := report.rejected + 1 }, db, w₁)
          | .accepted body bytes =>
            let (now, w₂) := world .now w₁
            match db.fillBody N height hash blockId body bytes source resolution keep now with
            | .ok db' => (.ok { report with imported := report.imported + 1 }, db', w₂)
            | .error e => (.error e, db, w₂) := by
  unfold fillHeight request
  rw [Program.get, drive_query]
  rcases db.canonicalHashAt height with _ | ⟨known, hash⟩
  · rfl
  dsimp only
  rw [Program.get, drive_query]
  simp only [Option.bind_eq_bind, Option.bind_some]
  rcases hid : db.uncapturedBlockId height hash with _ | blockId
  · rfl
  dsimp only
  rw [Program.get, drive_query]
  obtain ⟨b, hmem, rfl, -⟩ := mem_of_uncapturedBlockId hid
  simp only [Option.bind_some, block?_eq_some hmem, Option.map_some, Option.pure_def]
  rw [Program.ask, drive_send]
  rcases judgeOffer N height hash b.txRoot (world (.offer height hash) w).1
    with ⟨body, bytes⟩ | _ | _
  · dsimp only
    rw [Program.ask, drive_send, Program.commit, drive_transact, Txn.exec]
    rcases db.fillBody N height hash b.id body bytes source resolution keep
      (world .now (world (.offer height hash) w).2).1 with e | db'
    · rfl
    · rfl
  · rfl
  · rfl

/-! ## The gaps of a round -/

/-- What a source may hand over: raw bytes that are not longer than a block. -/
def Fits (N : Noid) (world : ∀ q : Query, W → q.Answer × W) : Prop :=
  ∀ height hash w bytes, (world (.offer height hash) w).1 = .ok (some (.raw bytes)) →
    bytes.length ≤ N.maxBlockBytes

/-- At most the gap of `height` is filled, with a body that proved to be the block's. -/
def FilledAt (N : Noid) (source resolution : String) (keep : Bool) (height : ℕ) (db db' : Db) :
    Prop :=
  db' = db ∨ ∃ hash blockId root offer body bytes now,
    db.request height = some (hash, blockId, root)
      ∧ judgeOffer N height hash root offer = .accepted body bytes
      ∧ db.fillBody N height hash blockId body bytes source resolution keep now = .ok db'

theorem verify_of_decoded {bytes : List UInt8} {height : ℕ} {hash : String}
    {body : RetainedBlockInfo} (h : decodeRetainedBlock N bytes height hash = .ok body)
    (hlen : bytes.length ≤ N.maxBlockBytes) : verify N bytes height hash = .ok () := by
  simp only [decodeRetainedBlock, bind_ok] at h
  obtain ⟨_, -, block, hblock, -⟩ := h
  exact bind_ok.mpr ⟨(), bailIf_ok.mpr hlen.not_gt, bind_ok.mpr ⟨block, hblock, rfl⟩⟩

/-- Accepted bytes are those that were offered, and decode. -/
theorem judgeOffer_bytes {height : ℕ} {hash root : String} {offer : Except String (Option Offer)}
    {body : RetainedBlockInfo} {bytes : Option (List UInt8)}
    (h : judgeOffer N height hash root offer = .accepted body bytes) :
    ∀ b ∈ bytes, offer = .ok (some (.raw b)) ∧ decodeRetainedBlock N b height hash = .ok body := by
  have hjudge : ∀ {c : RetainedBlockInfo} {bs}, judgeBody N root c bs = .accepted body bytes →
      c = body ∧ bs = bytes := by
    intro c bs h
    unfold judgeBody at h
    split at h
    · exact Verdict.accepted.inj h
    · exact nomatch h
  unfold judgeOffer at h
  split at h
  · obtain ⟨-, rfl⟩ := hjudge h
    exact nofun
  · split at h
    · next raw b hdec =>
      obtain ⟨rfl, rfl⟩ := hjudge h
      rintro _ ⟨⟩
      exact ⟨rfl, hdec⟩
    · exact nomatch h
  · exact nomatch h
  · exact nomatch h

/-- **One gap of a round ends well**, whatever is offered. -/
theorem fillHeight_filledAt (cfg : Config) (hfit : Fits N world) (source resolution : String)
    (keep : Bool) (report : ImportReport) (height : ℕ) (db : Db) (w : W) :
    ∃ report' db' w',
      drive (Txn.exec N cfg) world (fillHeight N source resolution keep report height) db w
          = (.ok report', db', w')
        ∧ FilledAt N source resolution keep height db db' := by
  rw [drive_fillHeight]
  rcases hreq : db.request height with _ | ⟨hash, blockId, root⟩
  · exact ⟨_, _, _, rfl, Or.inl rfl⟩
  dsimp only
  rcases hjudge : judgeOffer N height hash root (world (.offer height hash) w).1
    with ⟨body, bytes⟩ | _ | _
  · dsimp only
    obtain ⟨b, hb, rfl, -⟩ := mem_of_request hreq
    have hblock : (db.block? b.id).isSome := by
      rw [block?_eq_some hb]
      rfl
    have hbytes : ∀ raw ∈ bytes, keep = true → verify N raw height hash = .ok () := by
      intro raw hraw _
      obtain ⟨hoffer, hdec⟩ := judgeOffer_bytes hjudge raw hraw
      exact verify_of_decoded hdec (hfit _ _ _ _ hoffer)
    obtain ⟨db', hfill⟩ := fillBody_ok hblock body hbytes source resolution
      (world .now (world (.offer height hash) w).2).1
    rw [hfill]
    exact ⟨_, _, _, rfl, Or.inr ⟨hash, b.id, root, _, body, bytes, _, hreq, hjudge, hfill⟩⟩
  · exact ⟨_, _, _, rfl, Or.inl rfl⟩
  · exact ⟨_, _, _, rfl, Or.inl rfl⟩

/-- **What filling gaps keeps, a round keeps.** -/
theorem fillHeights_inv (cfg : Config) (hfit : Fits N world)
    {source resolution : String} {keep : Bool} {I : Db → Prop} : ∀ {heights : List ℕ},
    (∀ k ∈ heights, ∀ db db', FilledAt N source resolution keep k db db' → I db → I db') →
    ∀ (report : ImportReport) (db : Db) (w : W), I db →
      ∃ report' db' w', drive (Txn.exec N cfg) world
        (foldEach (fillHeight N source resolution keep) report heights) db w
          = (.ok report', db', w') ∧ I db'
  | [], _, report, db, w, hI => ⟨report, db, w, rfl, hI⟩
  | k :: heights, hstep, report, db, w, hI => by
      obtain ⟨report₁, db₁, w₁, hdrive, hfilled⟩ :=
        fillHeight_filledAt cfg hfit source resolution keep report k db w
      rw [drive_foldEach_cons, hdrive]
      exact fillHeights_inv cfg hfit (fun k hk => hstep k (List.mem_cons_of_mem _ hk))
        report₁ db₁ w₁
        (hstep k List.mem_cons_self db db₁ hfilled hI)

/-- The closing maintenance. -/
def maintained (db : Db) (now : Instant) : Db :=
  db.clearSpentInGapWithRecordedSpend.resolveGapsWithBodies now

/-- **Only bookkeeping has changed**: flags of outputs whose spend is on record have been cleared,
and open gaps of heights whose body is on record closed.  Blocks, status log, transactions and all
the rest are as they were. -/
structure Tidied (db : Db) (now : Instant) (db' : Db) : Prop where
  rest : db' = { db with txOutputs := db'.txOutputs, ingestGaps := db'.ingestGaps }
  outputs : List.Forall₂ (fun o o' : OutputRow =>
      o' = o ∨ (o.spentInGap ∧ db.spentByRecordedInput ⊤ o.creationId) ∧ o' = o.unflagged)
    db.txOutputs.rows db'.txOutputs.rows
  gaps : List.Forall₂ (fun g g' : GapRow => g' = g ∨ (g.resolvedAt = none
    ∧ db.bodyOnRecordAt g.height) ∧ g' = { g with
      resolvedAt := some now
      resolution := some "body on record" }) db.ingestGaps.rows db'.ingestGaps.rows

/-- **The maintenance only tidies.** -/
theorem tidied_maintained (db : Db) (now : Instant) : db.Tidied now (db.maintained now) where
  rest := rfl
  outputs := (Table.forall₂_modify db.txOutputs _ OutputRow.unflagged fun _ _ => rfl).imp
    fun _ _ ho => ho.imp_right (And.imp_left of_decide_eq_true)
  gaps := (Table.forall₂_modify db.ingestGaps _ (fun g => { g with
      resolvedAt := some now
      resolution := some "body on record" }) fun _ _ => rfl).imp
    fun _ _ hg => hg.imp_right (And.imp_left of_decide_eq_true)

/-- The heights a round takes up. -/
def takenHeights (db : Db) (max : Option ℕ) : List ℕ :=
  match max with
  | some n => (db.openGapHeights 0).take n
  | none => db.openGapHeights 0

theorem drive_fillGaps (max : Option ℕ) (source resolution : String) (keep : Bool)
    (db : Db) (w : W) : drive (Txn.exec N cfg) world (fillGaps N max source resolution keep) db w
      = driveThen (Txn.exec N cfg) world fillMaintenance
          (drive (Txn.exec N cfg) world (foldEach (fillHeight N source resolution keep)
            { gaps := (db.openGapHeights 0).length } (db.takenHeights max)) db w) := by
  rw [← drive_bind]
  rfl

theorem nodup_takenHeights (db : Db) (max : Option ℕ) : (db.takenHeights max).Nodup := by
  have hall : (db.openGapHeights 0).Nodup := by
    rw [openGapHeights, (List.perm_insertionSort ..).nodup_iff, List.Nodup, List.pairwise_map]
    refine (db.ingestGaps.unique.filter _).imp fun h => ?_
    simpa [Row.clash] using h
  unfold takenHeights
  rcases max with _ | n
  · exact hall
  · exact hall.sublist (List.take_sublist ..)

/-! ### What is recorded -/

/-- The body of `(height, hash)` is on record, and no gap of the height is open. -/
def Recorded (db : Db) (height : ℕ) (hash : String) : Prop :=
  (db.capturedBlock height hash).isSome
    ∧ ∀ g ∈ db.ingestGaps.rows, g.height = height → g.resolvedAt ≠ none

instance (db : Db) (height : ℕ) (hash : String) : Decidable (db.Recorded height hash) := by
  unfold Recorded
  infer_instance

theorem recorded_ledger {height : ℕ} {hash : String} : db.Recorded height hash ↔
    (∃ e ∈ db.ledger.entries.rows, e.height = height ∧ e.hash = hash ∧ e.captured)
      ∧ db.ledger.gap height ≠ some true := by
  have hentries : (∃ e ∈ db.ledger.entries.rows, e.height = height ∧ e.hash = hash ∧ e.captured)
      ↔ ∃ b ∈ db.blocks.rows, b.height = height ∧ b.hash = hash ∧ b.bodyCaptured := by
    constructor
    · rintro ⟨e, he, h⟩
      obtain ⟨b, hb, rfl⟩ := List.mem_map.mp he
      exact ⟨b, hb, h⟩
    · rintro ⟨b, hb, h⟩
      exact ⟨b.entry, List.mem_map_of_mem hb, h⟩
  rw [Recorded, capturedBlock, List.find?_isSome, hentries, ne_eq, gap_ledger]
  simp

/-- **The gap that is filled is recorded.** -/
theorem recorded_fillBody {height blockId : ℕ} {hash : String} {body : RetainedBlockInfo}
    {bytes : Option (List UInt8)} {source resolution : String} (hs : source ≠ headerOnlySource)
    {keep : Bool} {now : Instant}
    (hfill : db.fillBody N height hash blockId body bytes source resolution keep now = .ok db')
    (hid : ∃ b ∈ db.blocks.rows, b.id = blockId ∧ b.height = height ∧ b.hash = hash) :
    db'.Recorded height hash := by
  obtain ⟨b, hb, rfl, rfl, rfl⟩ := hid
  rw [recorded_ledger, ledger_fillBody hs hfill]
  refine ⟨⟨_, Ledger.mem_setFlags.mpr ⟨b.entry, List.mem_map_of_mem hb, Or.inr ⟨rfl, rfl⟩⟩,
    rfl, rfl, rfl⟩, ?_⟩
  simp only [Op.apply, Ledger.resolve, decide_true, Bool.not_true, Bool.and_false, ne_eq,
    Option.map_eq_some_iff, not_exists]
  rintro _ ⟨-, h⟩
  exact Bool.false_ne_true h

/-- Filling the gap of another height moves neither. -/
theorem FilledAt.recorded_iff {source resolution : String} (hs : source ≠ headerOnlySource)
    {keep : Bool} {k : ℕ} (h : FilledAt N source resolution keep k db db') {height : ℕ}
    (hk : height ≠ k) (hash : String) : db'.Recorded height hash ↔ db.Recorded height hash := by
  rcases h with rfl | ⟨s, blockId, root, offer, body, bytes, now, hreq, -, hfill⟩
  · exact Iff.rfl
  obtain ⟨b, hb, rfl, rfl, -⟩ := mem_of_request hreq
  have hother : ∀ e ∈ db.ledger.entries.rows, e.height = height → e.id ≠ b.id := by
    intro e he hh hid
    have hsame : e = b.entry := Ledger.eq_of_id he (List.mem_map_of_mem hb) hid
    exact hk (hh.symm.trans (hsame ▸ rfl))
  rw [recorded_ledger, recorded_ledger, ledger_fillBody hs hfill]
  refine and_congr ⟨?_, ?_⟩ (not_congr ?_)
  · rintro ⟨e, he, hh, hcap⟩
    obtain ⟨e₀, he₀, ⟨-, rfl⟩ | ⟨hid, rfl⟩⟩ := Ledger.mem_setFlags.mp he
    · exact ⟨e, he₀, hh, hcap⟩
    · exact absurd hid (hother e₀ he₀ hh)
  · rintro ⟨e, he, hh, hcap⟩
    exact ⟨e, Ledger.mem_setFlags.mpr ⟨e, he, Or.inl ⟨hother e he hh, rfl⟩⟩, hh, hcap⟩
  · simp [Op.apply, Ledger.resolve, hk]

theorem FilledAt.request_eq {source resolution : String} (hs : source ≠ headerOnlySource)
    {keep : Bool} {k : ℕ} (h : FilledAt N source resolution keep k db db') {height : ℕ}
    (hk : height ≠ k) : db'.request height = db.request height := by
  rcases h with rfl | ⟨s, blockId, root, offer, body, bytes, now, hreq, -, hfill⟩
  · rfl
  obtain ⟨b, hb, rfl, rfl, -⟩ := mem_of_request hreq
  refine request_fillBody hs hfill (fun b' hb' hid => ?_) hk
  rw [db.blocks.eq_of_clash hb' hb (decide_eq_true (Or.inl hid))]

/-- The maintenance moves no flag, and opens no gap. -/
theorem recorded_maintained {height : ℕ} {hash : String} {now : Instant}
    (h : db.Recorded height hash) : (db.maintained now).Recorded height hash := by
  rw [recorded_ledger] at h ⊢
  rw [maintained, ledger_resolveGapsWithBodies]
  refine ⟨h.1, fun hopen => h.2 ?_⟩
  exact (Ledger.resolve_eq_open.mp hopen).1

theorem capturedBlock_of_maintained {height : ℕ} {hash : String} {now : Instant} :
    (db.maintained now).capturedBlock height hash = db.capturedBlock height hash := rfl

/-- A block that is asked for is not on record with its body. -/
theorem not_captured_of_request {height id : ℕ} {hash root : String}
    (h : db.request height = some (hash, id, root)) : db.capturedBlock height hash = none := by
  obtain ⟨b, hb, rfl, rfl, rfl, hcap, -⟩ := mem_of_request h
  rw [capturedBlock, List.find?_eq_none]
  intro b' hb' hp
  obtain ⟨hh, hs, hcap'⟩ := of_decide_eq_true hp
  obtain rfl := db.blocks.eq_of_clash hb' hb (decide_eq_true (Or.inr (by rw [hh, hs])))
  exact absurd hcap' (by rw [hcap]; exact Bool.false_ne_true)

end Db

end Permanode
