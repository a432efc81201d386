import Permanode.Indexer.Slices
import Permanode.Ledger.Calls

/-!
# Ledger/Brings — what a transaction brings for a block

Bytes and body of a block reach the database on separate paths, so a transaction is described, block
by block, by what it brings there (`Txn.brings`): positions of a body, bytes it scans for contract
calls, bytes it keeps without a scan.  **`Txn.brought`**: that is all it does to the flags of a
block and to the kept bytes.
-/

namespace Permanode

open Outcome

/-! ## What a transaction brings -/

/-- What a transaction brings for a block. -/
structure Brings where
  /-- positions of a body that goes into it -/
  positions : List ℕ := []
  /-- the flag that says its body is on record is set -/
  fills : Bool := false
  scans : Option (List UInt8) := none
  /-- bytes that are kept without a scan -/
  keeps : Option (List UInt8) := none
  deriving DecidableEq

/-- The block a body of `h` goes into, and whether its flag is set; a new block has no row yet. -/
def Db.storesInto (db : Db) (h : BlockHeaderInfo) : Option (ℕ × Bool) :=
  if db.isOnRecord h then (db.uncapturedBlockId h.height h.hash).map (·, true)
  else (db.blockId h.height h.hash).map (·, false)

/-- A body for the block `into`, and bytes that are scanned for `(height, hash)`. -/
def bodyBrings (into : Option (ℕ × Bool)) (body : List ℕ) (height : ℕ) (hash : String)
    (raw : Option (List UInt8)) (e : Entry) : Brings where
  positions := if into.map Prod.fst = some e.id then body else []
  fills := into = some (e.id, true)
  scans := if e.height = height ∧ e.hash = hash then raw else none

/-- What a block that is ingested brings. -/
def Db.storeBrings (db : Db) (height : ℕ) (details : BlockDetailsInfo) (raw : Option (List UInt8)) :
    Entry → Brings :=
  bodyBrings (db.storesInto details.header) (details.retained.elim [] Db.positions) height
    details.header.hash raw

/-- Bytes kept for `(height, hash)` as they are. -/
def rawBrings (height : ℕ) (hash : String) (bytes : List UInt8) (e : Entry) : Brings :=
  if e.height = height ∧ e.hash = hash then { keeps := some bytes } else {}

/-- What a transaction brings for each block. -/
def Txn.brings (cfg : Config) : Txn → Db → Entry → Brings
  | .ingest height details _ raw _, db => db.storeBrings height details raw
  | .replace height old orphanedAt _ (some (.store details _ raw)) _, db =>
    (db.appendStatus old .orphaned orphanedAt).storeBrings height details raw
  | .recover height hash blockId retained raw _, _ =>
    bodyBrings (some (blockId, true)) (Db.positions retained) height hash (some raw)
  | .fillGap height hash blockId body bytes _ _ _ _, _ =>
    bodyBrings (some (blockId, true)) (Db.positions body) height hash bytes
  | .keepRaw height hash bytes _, _ =>
    if cfg.archiveRawBlocks then rawBrings height hash bytes else fun _ => {}
  | .fillRaw height hash bytes _ _, _ => rawBrings height hash bytes
  | _, _ => fun _ => {}

variable {N : Noid} {cfg : Config}

/-- The flag left at a position of a block: what the bytes scanned there list, or what is on
record. -/
def Brings.flagLeft (N : Noid) (s : Brings) (db : Db) (e : Entry) (position : ℕ) : ℕ :=
  (scanned N e.height e.hash s.scans).elim (db.flagOn e.id position)
    fun flags => flagAt flags position

/-- **What a transaction that brings `s` does** to the blocks with their bodies, their flags and the
kept bytes. -/
structure Db.Brought (N : Noid) (s : Entry → Brings) (db db' : Db) : Prop where
  captured : Ledger.CapturedFrom (fun id => ∀ e : Entry, e.id = id → (s e).fills)
    db.ledger db'.ledger
  flags : ∀ e ∈ db'.ledger.entries.rows, e.captured → ∀ p ∈ db'.positionsOf e.id,
    db'.flagOn e.id p = (s e).flagLeft N db e p
      ∧ (p ∈ db.positionsOf e.id ∨ p ∈ (s e).positions
        ∨ ∀ e₀ ∈ db.ledger.entries.rows, e₀.id ≠ e.id)
  kept : ∀ r ∈ db'.rawBlocks.rows, r ∈ db.rawBlocks.rows
    ∨ ∃ bytes, r.Holds N bytes ∧ ¬ db.hasRawBlock r.blockId ∧ ∃ e ∈ db'.ledger.entries.rows,
      e.id = r.blockId ∧ verify N bytes e.height e.hash = .ok ()
        ∧ ((s e).scans = some bytes ∨ (s e).keeps = some bytes ∧ e ∈ db.ledger.entries.rows)

/-- What is brought for a block goes by its id, height and hash. -/
def ByKey (s : Entry → Brings) : Prop :=
  ∀ e e' : Entry, e.id = e'.id → e.height = e'.height → e.hash = e'.hash → s e = s e'

theorem Txn.byKey_brings (t : Txn) (db : Db) : ByKey (t.brings cfg db) := by
  have hbody : ∀ into body height hash raw, ByKey (bodyBrings into body height hash raw) := by
    intro into body height hash raw e e' hi hh hs
    rw [bodyBrings, bodyBrings, hi, hh, hs]
  have hraw : ∀ height hash bytes, ByKey (rawBrings height hash bytes) := by
    intro height hash bytes e e' _ hh hs
    rw [rawBrings, rawBrings, hh, hs]
  match t with
  | .ingest .. => exact hbody _ _ _ _ _
  | .replace _ _ _ _ (some (.store ..)) _ => exact hbody _ _ _ _ _
  | .recover .. | .fillGap .. => exact hbody _ _ _ _ _
  | .keepRaw .. =>
    rw [brings]
    split_ifs
    · exact hraw _ _ _
    · exact fun _ _ _ _ _ => rfl
  | .fillRaw .. => exact hraw _ _ _
  | .replace _ _ _ _ none _ | .replace _ _ _ _ (some (.gap ..)) _ | .setState .. | .gapBlock ..
  | .clearSpentInGap | .resolveGapsWithBodies _ | .pruneBlock _ | .setTipSeen .. | .adoptTipSeen ..
  | .adoptProofClass .. | .sweepSegment .. | .sweepBalances _ | .upsertBalances .. | .headerBatch ..
  | .receipt .. => exact fun _ _ _ _ _ => rfl

/-! ## Every transaction does what it brings -/

/-- Only blocks of the archive have the flag that says their body is on record. -/
def Ledger.CapturesArchived (l : Ledger) : Prop := ∀ e ∈ l.entries.rows, e.captured → e.archived

theorem Ledger.CapturesArchived.apply {l : Ledger} (h : l.CapturesArchived) (op : Op) :
    (op.apply l).CapturesArchived := by
  have henter : ∀ height hash (archived captured : Bool), (captured → archived) →
      (l.enter height hash archived captured).CapturesArchived := by
    intro height hash archived captured hc e he hce
    rcases Table.mem_insert he with he | rfl
    · exact h e he hce
    · exact hc hce
  match op with
  | .enterBody height hash _ => exact henter height hash true true id
  | .enterGap height hash => exact henter height hash true false fun _ => rfl
  | .enterHeader height hash =>
    rw [Op.apply]
    split_ifs
    · exact h
    · exact henter height hash false false id
  | .fill id height _ =>
    intro e he hc
    obtain ⟨e₀, he₀, ⟨-, rfl⟩ | ⟨-, rfl⟩⟩ := mem_setFlags.mp he
    · exact h e he₀ hc
    · rfl
  | .prune id =>
    intro e he hc
    obtain ⟨e₀, he₀, ⟨-, rfl⟩ | ⟨-, rfl⟩⟩ := mem_setFlags.mp he
    · exact h e he₀ hc
    · exact absurd hc Bool.false_ne_true
  | .orphan _ | .openGap _ | .closeBodied => exact h
  | .attach _ =>
    rw [Op.apply]
    split_ifs
    · exact h
    · exact h

namespace Db

variable {db db' db₁ : Db} {s : Entry → Brings}

/-- A body that went into a block, and bytes that were scanned and kept. -/
theorem Brought.of_body {id height : ℕ} {ps : List ℕ} {hash : String} {raw : Option (List UInt8)}
    (hcap : Ledger.CapturedFrom (fun id => ∀ e : Entry, e.id = id → (s e).fills)
      db.ledger db'.ledger)
    (hext : Extends id ps db db₁)
    (hpos : (∀ e : Entry, e.id = id → (s e).positions = ps)
      ∨ ∀ e ∈ db.ledger.entries.rows, e.id ≠ id)
    (hscans : ∀ e, (s e).scans = if e.height = height ∧ e.hash = hash then raw else none)
    (hkept : KeepsBytes N height hash raw (db₁.recordContractFlags N height hash raw) db') :
    Brought N s db db' := by
  have hledger := ledger_recordContractFlags N db₁ height hash raw
  have hentries : db'.ledger.entries = db₁.ledger.entries := hkept.entries.trans (by rw [hledger])
  refine ⟨hcap, fun e he _ p hp => ?_, fun r hr => ?_⟩
  · have hcalls : db'.callsOf e.id = (scanned N e.height e.hash (s e).scans).elim (db₁.callsOf e.id)
        fun flags => (db₁.callsOf e.id).map fun c => (c.1, flagAt flags c.1) := by
      rw [callsOf_congr hkept.transactions, callsOf_recordContractFlags, hscans]
      rw [hentries] at he
      by_cases hkey : e.height = height ∧ e.hash = hash
      · rw [if_pos ((blockId_iff he).mpr hkey), if_pos hkey, hkey.1, hkey.2]
      · rw [if_neg fun h => hkey ((blockId_iff he).mp h), if_neg hkey, scanned, Option.bind_none,
          ite_self, Option.elim_none]
    have hp₁ : p ∈ db₁.positionsOf e.id := by
      rw [positionsOf, hcalls] at hp
      rcases hscan : scanned N e.height e.hash (s e).scans with _ | flags
      · rw [hscan] at hp
        exact hp
      · rw [hscan, Option.elim_some, List.map_map] at hp
        exact hp
    refine ⟨?_, ?_⟩
    · obtain ⟨c, hc, rfl⟩ := List.mem_map.mp hp
      have hflag : db'.flagOn e.id c.1 = c.2 := flagAt_of_mem (db'.callsOf_pairwise e.id) hc
      rw [hflag, Brings.flagLeft]
      rw [hcalls] at hc
      rcases hscan : scanned N e.height e.hash (s e).scans with _ | flags
      · rw [hscan] at hc
        rw [Option.elim_none, ← hext.flagOn]
        exact (flagAt_of_mem (db₁.callsOf_pairwise e.id) hc).symm
      · rw [hscan] at hc
        obtain ⟨c, -, rfl⟩ := List.mem_map.mp hc
        rfl
    · rcases hext.positionsOf e.id p hp₁ with hp₁ | ⟨hid, hp₁⟩
      · exact Or.inl hp₁
      · rcases hpos with hpos | hnew
        · exact Or.inr (Or.inl (hpos e hid ▸ hp₁))
        · exact Or.inr (Or.inr (hid ▸ hnew))
  · have hraw₁ : (db₁.recordContractFlags N height hash raw).rawBlocks = db.rawBlocks :=
      (rawBlocks_recordContractFlags ..).trans hext.rawBlocks
    rcases hkept.rawBlocks r hr with hr | ⟨bytes, rfl, hholds, hnone, hid, hverify⟩
    · exact Or.inl (hraw₁ ▸ hr)
    · refine Or.inr ⟨bytes, hholds, ?_, ?_⟩
      · rw [hasRawBlock, hraw₁] at hnone
        exact hnone
      · obtain ⟨e, he, hblock, hh, hs⟩ := mem_of_blockId hid
        refine ⟨e, hkept.entries ▸ he, hblock, by rw [hh, hs]; exact hverify, Or.inl ?_⟩
        rw [hscans, if_pos ⟨hh, hs⟩]

/-- Bytes that are kept as they are. -/
theorem Brought.of_bytes {height : ℕ} {hash : String} {bytes : List UInt8}
    (hkept : KeepsBytes N height hash (some bytes) db db') :
    Brought N (rawBrings height hash bytes) db db' := by
  have hscans : ∀ e, (rawBrings height hash bytes e).scans = none := by
    intro e
    rw [rawBrings]
    split_ifs <;> rfl
  refine ⟨?_, fun e he _ p hp => ⟨?_, ?_⟩, fun r hr => ?_⟩
  · exact Ledger.capturedFrom_of_mem fun e he _ => hkept.entries ▸ he
  · rw [Brings.flagLeft, hscans, scanned, Option.bind_none, ite_self,
      flagOn_congr hkept.transactions]
    rfl
  · exact Or.inl (positionsOf_congr hkept.transactions ▸ hp)
  · rcases hkept.rawBlocks r hr with hr | ⟨_, hbytes, hholds, hnone, hid, hverify⟩
    · exact Or.inl hr
    · obtain rfl := Option.some.inj hbytes
      obtain ⟨e, he, hblock, hh, hs⟩ := mem_of_blockId hid
      refine Or.inr ⟨bytes, hholds, hnone, e, hkept.entries ▸ he, hblock, ?_, Or.inr ⟨?_, he⟩⟩
      · rw [hh, hs]
        exact hverify
      · rw [rawBrings, if_pos ⟨hh, hs⟩]

/-- A transaction that stores no body and keeps no bytes. -/
theorem Brought.nothing
    (hcap : Ledger.CapturedFrom (fun _ => False) db.ledger db'.ledger)
    (hcalls : ∀ e ∈ db'.ledger.entries.rows, e.captured → db'.callsOf e.id = db.callsOf e.id)
    (hraw : ∀ r ∈ db'.rawBlocks.rows, r ∈ db.rawBlocks.rows) :
    Brought N (fun _ => {}) db db' where
  captured e he hc := (hcap e he hc).imp_right fun ⟨e₀, he₀, hi, hh, hs, hc₀⟩ =>
    ⟨e₀, he₀, hi, hh, hs, Or.inl (hc₀.resolve_right id)⟩
  flags e he hc p hp := by
    refine ⟨?_, Or.inl ?_⟩
    · rw [Brings.flagLeft, scanned, Option.bind_none, ite_self, flagOn, hcalls e he hc]
      rfl
    · rwa [positionsOf, hcalls e he hc] at hp
  kept r hr := Or.inl (hraw r hr)

/-! ### Transactions that bring nothing -/

/-- The transactions of blocks and the kept bytes are the same. -/
def KeepsBodies (db db' : Db) : Prop :=
  db'.transactions = db.transactions ∧ db'.rawBlocks = db.rawBlocks

theorem keepsBodies_recordGapBlock {details : BlockDetailsInfo} {note : String} {now : Instant}
    (h : db.recordGapBlock details note now = .ok db') : KeepsBodies db db' := by
  unfold recordGapBlock at h
  dsimp only at h
  split_ifs at h
  · obtain rfl := pure_ok.mp h
    exact ⟨rfl, rfl⟩
  · simp only [insertBlockHeaderRow, bind_ok, pure_ok] at h
    obtain ⟨_, ⟨_, _, rfl⟩, rfl⟩ := h
    exact ⟨rfl, rfl⟩

theorem not_fills_gapOps {details : BlockDetailsInfo} :
    ∀ op ∈ db.gapOps details, ∀ id, ¬ op.Fills id := by
  intro op hop id
  unfold gapOps at hop
  dsimp only at hop
  split_ifs at hop
  · rw [List.mem_singleton.mp hop]
    exact fun h => h
  · rw [List.mem_singleton.mp hop]
    exact fun h => h

theorem keepsBodies_insertHeaders {now : Instant} : ∀ {batch : List BlockHeaderInfo} {db : Db},
    db.insertHeaders now batch = .ok db' → KeepsBodies db db'
  | [], db, h => by
      obtain rfl := pure_ok.mp h
      exact ⟨rfl, rfl⟩
  | hd :: batch, db, h => by
      rw [insertHeaders, List.foldlM_cons, bind_ok] at h
      obtain ⟨db₁, h₁, h₂⟩ := h
      obtain ⟨⟨db₂, inserted⟩, hins, rfl⟩ := map_ok.mp h₁
      obtain ⟨htx, hraw⟩ := keepsBodies_insertHeaders h₂
      rcases insertHeaderOnlyBlock_cases hins with ⟨-, rfl, -⟩ | ⟨-, -, db₃, -, hsame, rfl⟩
      · exact ⟨htx, hraw⟩
      · rw [hsame] at htx hraw
        exact ⟨htx, hraw⟩

theorem keepsBodies_upsertBalances (now : Instant) :
    ∀ (rows : List (String × String × ℕ)) (db : Db), KeepsBodies db (db.upsertBalances rows now)
  | [], _ => ⟨rfl, rfl⟩
  | _ :: rows, _ => keepsBodies_upsertBalances now rows _

/-! ### Transactions that store a body -/

/-- Only a block that is asked for by its body has its flag set. -/
theorem fills_storeOps {height : ℕ} {details : BlockDetailsInfo}
    {raw : Option (List UInt8)} {id : ℕ} (h : ∃ op ∈ db.storeOps details, op.Fills id) :
    ∀ e : Entry, e.id = id → (db.storeBrings height details raw e).fills := by
  obtain ⟨op, hop, hfills⟩ := h
  rintro e rfl
  unfold storeOps at hop
  split at hop
  · exact absurd hop List.not_mem_nil
  dsimp only at hop
  split_ifs at hop with hrec
  · split at hop
    · exact absurd hop List.not_mem_nil
    · next id hid =>
      obtain rfl := List.mem_singleton.mp hop
      obtain rfl : id = e.id := hfills
      refine decide_eq_true ?_
      rw [storesInto, if_pos hrec, hid]
      rfl
  · obtain rfl := List.mem_singleton.mp hop
    exact hfills.elim

theorem brought_storeKept {height : ℕ} {details : BlockDetailsInfo} {source : String}
    {raw : Option (List UInt8)} {now : Instant} (hs : source ≠ headerOnlySource)
    (h : db.storeKept N cfg height details source raw now = .ok db') :
    Brought N (db.storeBrings height details raw) db db' := by
  have hledger := ledger_storeKept hs h
  simp only [storeKept, bind_ok, pure_ok] at h
  obtain ⟨db₁, h₁, rfl⟩ := h
  have hcap : Ledger.CapturedFrom
      (fun id => ∀ e : Entry, e.id = id → (db.storeBrings height details raw e).fills) db.ledger
      ((db₁.recordContractFlags N height details.header.hash raw).keepRaw N cfg height
        details.header.hash raw "node" now).ledger := by
    rw [hledger]
    exact (Op.capturedFrom_applyAll _ _).mono fun id => fills_storeOps
  have hkept := keepsBytes_keepRaw N cfg (db₁.recordContractFlags N height details.header.hash raw)
    height details.header.hash raw "node" now
  rcases extends_storeBlock h₁ with ⟨htx, hraw⟩ | ⟨id, hext, hinto⟩
  · have hfresh : ∀ e ∈ db.ledger.entries.rows, e.id ≠ db.ledger.nextId :=
      fun e he => (Table.lt_nextId he).ne
    have hext : Extends db.ledger.nextId [] db db₁ := .of_tables htx hraw
    exact .of_body hcap hext (Or.inr hfresh) (fun e => rfl) hkept
  · refine .of_body hcap hext ?_ (fun e => rfl) hkept
    rcases hinto with ⟨hrec, hid⟩ | ⟨hrec, rfl⟩
    · refine Or.inl fun e he => if_pos ?_
      rw [storesInto, if_pos hrec, hid, he]
      rfl
    · rcases hfind : db.ledger.find details.header.height details.header.hash with _ | e₀
      · refine Or.inr fun e he => ?_
        rw [Ledger.entryId, hfind]
        exact (Table.lt_nextId he).ne
      · refine Or.inl fun e he => if_pos ?_
        rw [storesInto, if_neg hrec, blockId_ledger, he, Ledger.entryId, hfind]
        rfl

theorem brought_replaceBlock {height old : ℕ} {at_ : Instant} {hash : String}
    {details : BlockDetailsInfo} {source : String} {raw : Option (List UInt8)} {now : Instant}
    (hs : source ≠ headerOnlySource)
    (h : db.replaceBlock N cfg height old at_ hash (some (.store details source raw))
      now = .ok db') :
    Brought N ((db.appendStatus old .orphaned at_).storeBrings height details raw) db db' := by
  simp only [replaceBlock, markOrphaned, bind_ok] at h
  obtain ⟨db₁, h₁, h₂⟩ := h
  split_ifs at h₁
  obtain rfl := Except.ok.inj h₁
  obtain ⟨hcap, hflags, hkept⟩ := @brought_storeKept N cfg _ _ _ _ _ _ _ hs h₂
  exact ⟨hcap, hflags, hkept⟩

/-- A body for a block on record: retried, or handed over. -/
theorem brought_fill {height blockId : ℕ} {hash : String} {body : RetainedBlockInfo}
    {source : String} {raw : Option (List UInt8)}
    (hledger : db'.ledger = (Op.fill blockId height (body.transactions ≠ [])).apply db.ledger)
    (h₁ : db.insertTransactions blockId body = .ok db₁)
    (hkept : KeepsBytes N height hash raw
      ((db₁.markBodyRecovered blockId source).recordContractFlags N height hash raw) db') :
    Brought N (bodyBrings (some (blockId, true)) (positions body) height hash raw) db db' := by
  have hext : Extends blockId (positions body) db (db₁.markBodyRecovered blockId source) :=
    (extends_insertTransactions h₁).congr rfl rfl rfl rfl
  refine .of_body ?_ hext (Or.inl fun e he => ?_) (fun e => rfl) hkept
  · rw [hledger]
    refine (Op.capturedFrom_apply _ _).mono fun id (hid : blockId = id) e he => ?_
    exact decide_eq_true (by rw [hid, he])
  · exact if_pos (congrArg some he.symm)

theorem KeepsBytes.resolveGap {height : ℕ} {hash : String} {raw : Option (List UInt8)}
    (h : KeepsBytes N height hash raw db db₁) (k : ℕ) (at_ : Instant) (resolution : String) :
    KeepsBytes N height hash raw db (db₁.resolveGap k at_ resolution) :=
  ⟨h.entries, h.transactions, h.rawBlocks⟩

theorem brought_recoverBody {height blockId : ℕ} {hash : String} {retained : RetainedBlockInfo}
    {raw : List UInt8} {now : Instant}
    (h : db.recoverBody N cfg height hash blockId retained raw now = .ok db') :
    Brought N (bodyBrings (some (blockId, true)) (positions retained) height hash (some raw)) db
      db' := by
  have hledger := ledger_recoverBody h
  simp only [recoverBody, bind_ok, pure_ok] at h
  obtain ⟨db₁, h₁, rfl⟩ := h
  exact brought_fill hledger h₁ ((keepsBytes_keepRaw ..).resolveGap ..)

theorem brought_fillBody {height blockId : ℕ} {hash : String} {body : RetainedBlockInfo}
    {bytes : Option (List UInt8)} {source resolution : String} (hs : source ≠ headerOnlySource)
    {keep : Bool} {now : Instant}
    (h : db.fillBody N height hash blockId body bytes source resolution keep now = .ok db') :
    Brought N (bodyBrings (some (blockId, true)) (positions body) height hash bytes) db db' := by
  have hledger := ledger_fillBody hs h
  simp only [fillBody, bind_ok] at h
  obtain ⟨db₁, h₁, h₂⟩ := h
  rcases bytes with _ | bytes
  · simp only [bind_ok, pure_ok] at h₂
    obtain ⟨_, rfl, rfl⟩ := h₂
    have hscan : (db₁.markBodyRecovered blockId source).recordContractFlags N height hash none
        = db₁.markBodyRecovered blockId source := by
      unfold recordContractFlags
      split_ifs <;> rfl
    have hkept : KeepsBytes N height hash none
        ((db₁.markBodyRecovered blockId source).recordContractFlags N height hash none)
        ((db₁.markBodyRecovered blockId source).resolveGap height now resolution) := by
      rw [hscan]
      exact (KeepsBytes.refl none _).resolveGap ..
    exact brought_fill hledger h₁ hkept
  · split_ifs at h₂
    · simp only [bind_ok, map_ok, pure_ok] at h₂
      obtain ⟨_, ⟨⟨db₂, stored⟩, hraw, rfl⟩, rfl⟩ := h₂
      exact brought_fill hledger h₁ ((keepsBytes_storeRaw hraw).resolveGap ..)
    · simp only [bind_ok, pure_ok] at h₂
      obtain ⟨_, rfl, rfl⟩ := h₂
      exact brought_fill hledger h₁ ((KeepsBytes.refl (some bytes) _).resolveGap ..)

theorem callsOf_of_rows {k : ℕ} (h : (db'.transactions.rows.filter fun t => t.blockId = k)
    = db.transactions.rows.filter fun t => t.blockId = k) : db'.callsOf k = db.callsOf k := by
  rw [callsOf, callsOf, transactionsOf, transactionsOf, h]

/-- A pruned block has its flag no more. -/
theorem brought_pruneBlock {blockId : ℕ} (h : db.pruneBlock blockId = .ok db') :
    Brought N (fun _ => {}) db db' := by
  have hledger := ledger_pruneBlock h
  unfold pruneBlock at h
  dsimp only at h
  split_ifs at h
  obtain rfl := Except.ok.inj h
  refine .nothing ?_ (fun e he hc => callsOf_of_rows ?_) fun r hr => (List.mem_filter.mp hr).1
  · rw [hledger]
    exact (Op.capturedFrom_apply _ _).mono fun id hid => hid
  · rw [hledger] at he
    obtain ⟨e₀, he₀, ⟨hne, rfl⟩ | ⟨-, rfl⟩⟩ := Ledger.mem_setFlags.mp he
    · refine (List.filter_filter ..).trans (List.filter_congr fun t _ => ?_)
      by_cases ht : t.blockId = e.id
      · simp [ht, hne]
      · simp [ht]
    · exact absurd hc Bool.false_ne_true

/-- A receipt's transaction goes to a block below the archive. -/
theorem brought_receipt (harchived : db.ledger.CapturesArchived) {blockId : ℕ}
    {tx : ReceiptTransaction} {now : Instant} {inserted : Bool}
    (h : db.insertReceiptTransaction blockId tx now = .ok (db', inserted)) :
    Brought N (fun _ => {}) db db' := by
  have hledger := ledger_insertReceiptTransaction h
  have hentries : db'.ledger.entries = db.ledger.entries := by
    rw [hledger, Op.apply]
    split_ifs <;> rfl
  obtain ⟨hheader, -, -, hdone⟩ := insertReceiptTransaction_ok.mp h
  rw [isHeaderOnly, Option.any_eq_true] at hheader
  obtain ⟨b, hb, hb'⟩ := hheader
  obtain ⟨hmem, rfl⟩ := mem_of_block? hb
  refine .nothing ?_ (fun e he hc => ?_) fun r hr => ?_
  · exact Ledger.capturedFrom_of_mem fun e he _ => hentries ▸ he
  · rw [hentries] at he
    have hne : b.id ≠ e.id := by
      intro hid
      obtain rfl := Ledger.eq_of_id (List.mem_map_of_mem hmem) he hid
      have ha : b.archived = true := harchived _ he hc
      rw [ha] at hb'
      exact Bool.false_ne_true hb'
    rcases hdone with ⟨-, rfl, -⟩ | ⟨-, hwrite, -⟩
    · rfl
    · refine callsOf_of_rows ?_
      rw [(writeReceiptTransaction_ok hwrite).transactions, List.filter_append]
      simp [receiptRow, hne]
  · rcases hdone with ⟨-, rfl, -⟩ | ⟨-, hwrite, -⟩
    · exact hr
    · rw [(writeReceiptTransaction_ok hwrite).rest] at hr
      exact hr

end Db

/-! ### The transactions -/

/-- **Every transaction does what it brings.** -/
theorem Txn.brought {t : Txn} {db db' : Db} (ht : t.Genuine)
    (harchived : db.ledger.CapturesArchived)
    (h : t.exec N cfg db = .ok db') : Db.Brought N (t.brings cfg db) db db' := by
  have hledger := exec_ledger ht h
  have hnothing : (∀ op ∈ t.ops db, ∀ id, ¬ op.Fills id) → Db.KeepsBodies db db' →
      Db.Brought N (fun _ => {}) db db' := by
    rintro hops ⟨htx, hraw⟩
    refine .nothing ?_ (fun e _ _ => by rw [Db.callsOf_congr htx]) fun r hr => hraw ▸ hr
    rw [hledger]
    exact (Op.capturedFrom_applyAll _ _).mono fun id ⟨op, hop, hf⟩ => hops op hop id hf
  match t with
  | .ingest .. => exact Db.brought_storeKept ht h
  | .replace height old at_ hash (some (.store details source raw)) now =>
    have hexec : db.replaceBlock N cfg height old at_ hash (some (.store details source raw)) now
      = .ok db' := h
    exact Db.brought_replaceBlock (ht _ rfl) hexec
  | .recover .. => exact Db.brought_recoverBody h
  | .fillGap .. => exact Db.brought_fillBody ht h
  | .pruneBlock _ => exact Db.brought_pruneBlock h
  | .keepRaw height hash bytes now =>
    obtain rfl := Except.ok.inj h
    rw [brings]
    have hkept := Db.keepsBytes_keepRaw N cfg db height hash (some bytes) "node" now
    split_ifs with harch
    · exact .of_bytes hkept
    · have hsame : db.keepRaw N cfg height hash (some bytes) "node" now = db := by
        rw [Db.keepRaw, if_neg harch]
      exact hnothing (fun _ h => absurd h List.not_mem_nil) ⟨by rw [hsame], by rw [hsame]⟩
  | .fillRaw .. =>
    obtain ⟨⟨_, _⟩, hraw, rfl⟩ := map_ok.mp h
    exact .of_bytes (Db.keepsBytes_storeRaw hraw)
  | .receipt blockId tx now =>
    rw [exec] at h
    split at h
    · next hins =>
      obtain rfl := Except.ok.inj h
      exact Db.brought_receipt harchived hins
    · obtain rfl := Except.ok.inj h
      exact .nothing (Ledger.capturedFrom_of_mem fun _ he _ => he) (fun _ _ _ => rfl) fun _ hr => hr
  | .replace height old at_ hash none now =>
    have hexec : db.replaceBlock N cfg height old at_ hash none now = .ok db' := h
    simp only [Db.replaceBlock, Db.markOrphaned, bind_ok] at hexec
    obtain ⟨db₁, h₁, h₂⟩ := hexec
    split_ifs at h₁
    obtain rfl := Except.ok.inj h₁
    obtain rfl := pure_ok.mp h₂
    refine hnothing (fun op hop => ?_) ⟨rfl, rfl⟩
    simp only [ops, Db.replacementOps, List.mem_cons, List.not_mem_nil, or_false] at hop
    rcases hop with rfl | rfl
    · exact fun _ h => h
    · exact fun _ h => h
  | .replace height old at_ hash (some (.gap details note)) now =>
    have hexec : db.replaceBlock N cfg height old at_ hash (some (.gap details note)) now
      = .ok db' := h
    simp only [Db.replaceBlock, Db.markOrphaned, bind_ok] at hexec
    obtain ⟨db₁, h₁, h₂⟩ := hexec
    split_ifs at h₁
    obtain rfl := Except.ok.inj h₁
    obtain ⟨htx, hraw⟩ := Db.keepsBodies_recordGapBlock h₂
    refine hnothing (fun op hop => ?_) ⟨htx, hraw⟩
    rcases List.mem_cons.mp hop with rfl | hop
    · exact fun _ h => h
    · exact Db.not_fills_gapOps op hop
  | .gapBlock details note now =>
    exact hnothing Db.not_fills_gapOps (Db.keepsBodies_recordGapBlock h)
  | .headerBatch batch progress now =>
    simp only [exec] at h
    rcases hins : Db.insertHeaders now db batch with e | db₁ <;> rw [hins] at h
    · cases h
    · obtain rfl := Except.ok.inj h
      obtain ⟨htx, hraw⟩ := Db.keepsBodies_insertHeaders hins
      refine hnothing (fun op hop => ?_) ⟨htx, hraw⟩
      obtain ⟨hd, -, rfl⟩ := List.mem_map.mp hop
      exact fun _ h => h
  | .resolveGapsWithBodies _ =>
    obtain rfl := Except.ok.inj h
    refine hnothing (fun op hop => ?_) ⟨rfl, rfl⟩
    rw [List.mem_singleton.mp hop]
    exact fun _ h => h
  | .adoptProofClass height hash class_ =>
    obtain rfl := Except.ok.inj h
    refine hnothing (fun _ h => absurd h List.not_mem_nil) ?_
    unfold Db.adoptProofClass
    split_ifs
    · exact ⟨rfl, rfl⟩
    · exact ⟨rfl, rfl⟩
  | .upsertBalances rows now =>
    obtain rfl := Except.ok.inj h
    exact hnothing (fun _ h => absurd h List.not_mem_nil)
      (Db.keepsBodies_upsertBalances now rows db)
  | .sweepBalances now =>
    obtain rfl := Except.ok.inj h
    let db₁ := db.clearSpentInGapWithRecordedSpend
    obtain ⟨htx, hraw⟩ := Db.keepsBodies_upsertBalances now db₁.balanceRows db₁
    exact hnothing (fun _ h => absurd h List.not_mem_nil) ⟨htx, hraw⟩
  | .setState .. | .clearSpentInGap | .setTipSeen .. | .adoptTipSeen .. | .sweepSegment .. =>
    obtain rfl := Except.ok.inj h
    exact hnothing (fun _ h => absurd h List.not_mem_nil) ⟨rfl, rfl⟩

/-- Bytes are kept for blocks on record only. -/
def Db.RawRefers (db : Db) : Prop :=
  ∀ r ∈ db.rawBlocks.rows, ∃ e ∈ db.ledger.entries.rows, e.id = r.blockId

theorem Db.Brought.rawRefers {s : Entry → Brings} {db db' : Db} (h : Db.Brought N s db db')
    (hgrows : db.ledger.Grows db'.ledger) (hrefers : db.RawRefers) : db'.RawRefers := by
  intro r hr
  rcases h.kept r hr with hold | ⟨_, _, _, e, he, hid, _⟩
  · obtain ⟨e, he, hid⟩ := hrefers r hold
    obtain ⟨e', he', hid', -⟩ := hgrows e he
    exact ⟨e', he', hid'.trans hid⟩
  · exact ⟨e, he, hid⟩

end Permanode
