import Permanode.Import.InTurn
import Permanode.Ledger.Calls

/-!
# Import/AnySource — filling gaps from a source that may say anything

Whatever a source answers, a round of gap filling writes transactions only into blocks that were
asked for, and what it writes rebuilds the `tx_root` on record (`Db.Safe`).  A height whose answer
is not accepted keeps its block, its transactions and its gap (`Db.SameAt`).

The work is one body: `Db.filled_fillBody` says what recording it changes, and the round composes
such changes, one height each (`Db.safe_fillHeights`).
-/

namespace Permanode

open Outcome Prog

namespace Db

variable {db db' db'' : Db}

/-! ## What stays -/

/-- The rows of a transaction's lists are the same. -/
structure SameLists (db db' : Db) (txId : ℕ) : Prop where
  pageHashes : (db'.txPageHashes.rows.filter fun r => r.txId = txId)
    = db.txPageHashes.rows.filter fun r => r.txId = txId
  inputs : (db'.txInputs.rows.filter fun r => r.txId = txId)
    = db.txInputs.rows.filter fun r => r.txId = txId
  outputs : (db'.txOutputs.rows.filter fun r => r.txId = txId)
    = db.txOutputs.rows.filter fun r => r.txId = txId

/-- The blocks of a height, what they hold and the height's gap are the same. -/
structure SameAt (db db' : Db) (height : ℕ) : Prop where
  blocks : (db'.blocks.rows.filter fun b => b.height = height)
    = db.blocks.rows.filter fun b => b.height = height
  transactions : ∀ b ∈ db.blocks.rows, b.height = height →
    db'.transactionsOf b.id = db.transactionsOf b.id
  lists : ∀ b ∈ db.blocks.rows, b.height = height → ∀ t ∈ db.transactionsOf b.id,
    db.SameLists db' t.id
  gaps : (db'.ingestGaps.rows.filter fun g => g.height = height)
    = db.ingestGaps.rows.filter fun g => g.height = height

theorem SameLists.refl (db : Db) (txId : ℕ) : db.SameLists db txId := ⟨rfl, rfl, rfl⟩

theorem SameLists.trans {txId : ℕ} (h : db.SameLists db' txId) (h' : db'.SameLists db'' txId) :
    db.SameLists db'' txId :=
  ⟨h'.1.trans h.1, h'.2.trans h.2, h'.3.trans h.3⟩

theorem SameAt.refl (db : Db) (height : ℕ) : db.SameAt db height :=
  ⟨rfl, fun _ _ _ => rfl, fun _ _ _ _ _ => .refl db _, rfl⟩

/-! ## One body -/

/-- What inserting transactions into a block changes: they stand at the end of their table, and
their lists are theirs alone. -/
structure Adds (blockId : ℕ) (new : List TransactionRow) (db db' : Db) : Prop where
  transactions : db'.transactions.rows = db.transactions.rows ++ new
  own : ∀ t ∈ new, t.blockId = blockId
  lists : ∀ t ∈ db.transactions.rows, db.SameLists db' t.id
  blocks : db'.blocks = db.blocks
  gaps : db'.ingestGaps = db.ingestGaps

theorem Adds.trans {blockId : ℕ} {new new' : List TransactionRow} (h : Adds blockId new db db')
    (h' : Adds blockId new' db' db'') : Adds blockId (new ++ new') db db'' where
  transactions := by rw [h'.transactions, h.transactions, List.append_assoc]
  own := List.forall_mem_append.mpr ⟨h.own, h'.own⟩
  lists t ht := (h.lists t ht).trans
    (h'.lists t (h.transactions ▸ List.mem_append_left _ ht))
  blocks := h'.blocks.trans h.blocks
  gaps := h'.gaps.trans h.gaps

/-- Rows inserted under one key are not seen under another. -/
theorem filter_insertEach {ρ α : Type} [Row ρ] {row : Table ρ → ℕ → α → ρ} {own other : ρ → Bool}
    (hown : ∀ t i a, own (row t i a) = true) (hdisj : ∀ r, own r = true → other r = false)
    (l : List α) (i : ℕ) (t : Table ρ) :
    (Table.insertEach row i l t).rows.filter other = t.rows.filter other := by
  obtain ⟨new, hrows, hnew⟩ := Table.exists_append_insertEach row l i t
  rw [hrows]
  refine filter_other (fun r hr => ?_) hdisj
  obtain ⟨u, j, a, rfl⟩ := hnew r hr
  exact hown u j a

/-- The lists of one transaction are not those of another. -/
theorem sameLists_insert (db : Db) {txId id : ℕ} (hid : id ≠ txId) (hashes : List String)
    (inputs : List BlockTransactionInputInfo) (outputs : List BlockTransactionOutputInfo) :
    db.SameLists (((db.insertPageHashes txId hashes).insertInputs txId inputs).insertOutputs txId
      outputs) id where
  pageHashes := @filter_insertEach _ _ _ _ (fun r => r.txId = txId) _
    (fun _ _ _ => decide_eq_true rfl) (fun _ hr => decide_eq_false fun h =>
      hid (h.symm.trans (of_decide_eq_true hr))) hashes 0 db.txPageHashes
  inputs := @filter_insertEach _ _ _ _ (fun r => r.txId = txId) _
    (fun _ _ _ => decide_eq_true rfl) (fun _ hr => decide_eq_false fun h =>
      hid (h.symm.trans (of_decide_eq_true hr))) inputs 0 db.txInputs
  outputs := @filter_insertEach _ _ _ _ (fun r => r.txId = txId) _
    (fun _ _ _ => decide_eq_true rfl) (fun _ hr => decide_eq_false fun h =>
      hid (h.symm.trans (of_decide_eq_true hr))) outputs 0 db.txOutputs

theorem adds_insertTransaction {blockId : ℕ} {tx : BlockTransactionInfo}
    (hfree : ∀ t ∈ db.transactionsOf blockId, t.position ≠ tx.position.toNat)
    (h : insertTransaction blockId db tx = .ok db') :
    ∃ row : TransactionRow, Adds blockId [row] db db' ∧ row.position = tx.position.toNat
      ∧ row.txid = tx.txid := by
  let id := db.transactions.nextId TransactionRow.id
  obtain ⟨ts, hrows, hins⟩ := insertTransaction_free hfree
  obtain rfl := Except.ok.inj (h.symm.trans hins)
  refine ⟨transactionRow id blockId tx, ⟨hrows, ?_, fun t ht => ?_, rfl, rfl⟩, rfl, rfl⟩
  · exact List.forall_mem_singleton.mpr rfl
  · have hne : t.id ≠ id := (Table.lt_nextId ht).ne
    have hlists := sameLists_insert { db with transactions := ts } hne tx.pageHashes tx.inputs
      tx.outputs
    exact ⟨hlists.pageHashes, hlists.inputs, hlists.outputs⟩

/-- **The transactions of a body**, inserted from a position on that is free. -/
theorem adds_insertAll {blockId : ℕ} : ∀ {txs : List BlockTransactionInfo} {i : ℕ} {db : Db},
    (∀ t ∈ db.transactionsOf blockId, t.position < i) →
    (∀ (k : ℕ) (t : BlockTransactionInfo), txs[k]? = some t → t.position.toNat = i + k) →
    txs.foldlM (insertTransaction blockId) db = .ok db' →
    ∃ new : List TransactionRow, Adds blockId new db db'
      ∧ new.map TransactionRow.position = List.range' i txs.length
      ∧ new.map TransactionRow.txid = txs.map BlockTransactionInfo.txid
  | [], i, db, _, _, h => by
      obtain rfl := pure_ok.mp h
      exact ⟨[], ⟨(List.append_nil _).symm, fun _ ht => absurd ht List.not_mem_nil,
        fun t _ => .refl db t.id, rfl, rfl⟩, rfl, rfl⟩
  | tx :: txs, i, db, hlt, hpos, h => by
      rw [List.foldlM_cons, bind_ok] at h
      obtain ⟨db₁, h₁, h₂⟩ := h
      have hi : tx.position.toNat = i := hpos 0 tx rfl
      obtain ⟨row, hadds, hrow, htxid⟩ :=
        adds_insertTransaction (fun t ht => hi ▸ (hlt t ht).ne) h₁
      have hlt₁ : ∀ t ∈ db₁.transactionsOf blockId, t.position < i + 1 := by
        intro t ht
        obtain ⟨ht, hb⟩ := List.mem_filter.mp ht
        rw [hadds.transactions, List.mem_append, List.mem_singleton] at ht
        rcases ht with ht | rfl
        · exact Nat.lt_succ_of_lt (hlt t (List.mem_filter.mpr ⟨ht, hb⟩))
        · rw [hrow, hi]
          exact Nat.lt_succ_self i
      obtain ⟨new, hnew, hpositions, htxids⟩ := adds_insertAll hlt₁
        (fun k t ht => (hpos (k + 1) t ht).trans (by omega)) h₂
      refine ⟨row :: new, hadds.trans hnew, ?_, ?_⟩
      · rw [List.map_cons, hpositions, hrow, hi, List.length_cons, List.range'_succ]
      · rw [List.map_cons, htxids, htxid, List.map_cons]

/-- What the writes of a fill that insert nothing change: columns of the block's row other than its
height, contract calls of its transactions, the raw bytes and the height's gap. -/
structure Amends (id height : ℕ) (db db' : Db) : Prop where
  blocks : ∃ f : BlockRow → BlockRow, db'.blocks.rows = db.blocks.rows.map f
    ∧ (∀ c, c.id ≠ id → f c = c)
    ∧ ∀ c, (f c).id = c.id ∧ (f c).height = c.height ∧ (f c).hash = c.hash
  transactions : ∃ f : TransactionRow → TransactionRow,
    db'.transactions.rows = db.transactions.rows.map f ∧ (∀ t, t.blockId ≠ id → f t = t)
      ∧ ∀ t, (f t).blockId = t.blockId ∧ (f t).position = t.position ∧ (f t).txid = t.txid
  lists : ∀ txId, db.SameLists db' txId
  gaps : ∀ k, k ≠ height → (db'.ingestGaps.rows.filter fun g => g.height = k)
    = db.ingestGaps.rows.filter fun g => g.height = k

theorem Amends.of_same {id height : ℕ} (hblocks : db'.blocks = db.blocks)
    (htx : db'.transactions = db.transactions) (hlists : ∀ txId, db.SameLists db' txId)
    (hgaps : db'.ingestGaps = db.ingestGaps) : Amends id height db db' where
  blocks := ⟨_, (hblocks ▸ (List.map_id _).symm), fun _ _ => rfl, fun _ => ⟨rfl, rfl, rfl⟩⟩
  transactions := ⟨_, (htx ▸ (List.map_id _).symm), fun _ _ => rfl, fun _ => ⟨rfl, rfl, rfl⟩⟩
  lists := hlists
  gaps _ _ := by rw [hgaps]

theorem Amends.trans {id height : ℕ} (h : Amends id height db db')
    (h' : Amends id height db' db'') : Amends id height db db'' := by
  obtain ⟨f, hf, hfout, hfkeys⟩ := h.blocks
  obtain ⟨f', hf', hfout', hfkeys'⟩ := h'.blocks
  obtain ⟨g, hg, hgout, hgkeys⟩ := h.transactions
  obtain ⟨g', hg', hgout', hgkeys'⟩ := h'.transactions
  refine ⟨⟨f' ∘ f, ?_, fun c hc => ?_, fun c => ?_⟩, ⟨g' ∘ g, ?_, fun t ht => ?_, fun t => ?_⟩,
    fun txId => (h.lists txId).trans (h'.lists txId),
    fun k hk => (h'.gaps k hk).trans (h.gaps k hk)⟩
  · rw [hf', hf, List.map_map]
  · rw [Function.comp, hfout c hc, hfout' c hc]
  · obtain ⟨hi, hh, hs⟩ := hfkeys c
    obtain ⟨hi', hh', hs'⟩ := hfkeys' (f c)
    exact ⟨hi'.trans hi, hh'.trans hh, hs'.trans hs⟩
  · rw [hg', hg, List.map_map]
  · rw [Function.comp, hgout t ht, hgout' t ht]
  · obtain ⟨hi, hh, hs⟩ := hgkeys t
    obtain ⟨hi', hh', hs'⟩ := hgkeys' (g t)
    exact ⟨hi'.trans hi, hh'.trans hh, hs'.trans hs⟩

theorem amends_updateBlocks {id height : ℕ} {f : BlockRow → BlockRow}
    {hf : ∀ r s, Row.clash (f r) s = Row.clash r s}
    (hkeys : ∀ c, (f c).id = c.id ∧ (f c).height = c.height ∧ (f c).hash = c.hash) :
    Amends id height db (db.updateBlocks (fun b => b.id = id) f hf) where
  blocks := by
    refine ⟨Table.updated (fun b => b.id = id) f, rfl, fun c hc => ?_, fun c => ?_⟩
    · exact if_neg (by simpa using hc)
    · rw [Table.updated]
      split_ifs
      · exact hkeys c
      · exact ⟨rfl, rfl, rfl⟩
  transactions := ⟨_, (List.map_id _).symm, fun _ _ => rfl, fun _ => ⟨rfl, rfl, rfl⟩⟩
  lists txId := ⟨rfl, rfl, rfl⟩
  gaps _ _ := rfl

theorem amends_setContractFlags {id height : ℕ} {hash : String}
    (hid : ∀ i, db.blockId height hash = some i → i = id) (flags : List (ℕ × ℕ)) :
    Amends id height db (db.setContractFlags height hash flags) := by
  unfold setContractFlags
  split
  · exact .of_same rfl rfl (.refl db) rfl
  · next i hi =>
    obtain rfl := hid i hi
    refine Amends.trans ?_ (amends_updateBlocks fun _ => ⟨rfl, rfl, rfl⟩)
    let clear : TransactionRow → TransactionRow :=
      Table.updated (fun t => t.blockId = i ∧ t.contractFlags ≠ 0)
        fun t => { t with contractFlags := 0 }
    refine ⟨⟨_, (List.map_id _).symm, fun _ _ => rfl, fun _ => ⟨rfl, rfl, rfl⟩⟩,
      ⟨reflag i flags ∘ clear, ?_, fun t ht => ?_, fun t => ?_⟩, fun txId => ⟨rfl, rfl, rfl⟩,
      fun _ _ => rfl⟩
    · rw [← List.map_map]
      exact rows_flagPositions i flags _
    · have hclear : clear t = t := if_neg (by simp [ht])
      rw [Function.comp, hclear, reflag, if_neg ht]
    · simp only [Function.comp, reflag, clear, Table.updated]
      split_ifs <;> exact ⟨rfl, rfl, rfl⟩

theorem amends_recordContractFlags {id height : ℕ} {hash : String}
    (hid : ∀ i, db.blockId height hash = some i → i = id) (N : Noid) (raw : Option (List UInt8)) :
    Amends id height db (db.recordContractFlags N height hash raw) := by
  have hsame : Amends id height db db := .of_same rfl rfl (.refl db) rfl
  unfold recordContractFlags
  repeat' split
  all_goals first | exact hsame | exact amends_setContractFlags hid _

theorem amends_storeRaw {id height : ℕ} {N : Noid} {hash source : String} {bytes : List UInt8}
    {now : Instant} {stored : Bool}
    (h : db.storeRaw N height hash bytes source now = .ok (db', stored)) :
    Amends id height db db' := by
  have hsame : Amends id height db db := .of_same rfl rfl (.refl db) rfl
  unfold storeRaw at h
  split at h
  · obtain ⟨rfl, -⟩ := Prod.mk.inj (Except.ok.inj h)
    exact hsame
  · split_ifs at h
    · obtain ⟨rfl, -⟩ := Prod.mk.inj (Except.ok.inj h)
      exact hsame
    · simp only [bind_ok, pure_ok, Prod.mk.injEq] at h
      obtain ⟨_, _, rfl, _⟩ := h
      exact .of_same rfl rfl (fun _ => ⟨rfl, rfl, rfl⟩) rfl

theorem amends_resolveGap (db : Db) (id height : ℕ) (now : Instant) (resolution : String) :
    Amends id height db (db.resolveGap height now resolution) where
  blocks := ⟨_, (List.map_id _).symm, fun _ _ => rfl, fun _ => ⟨rfl, rfl, rfl⟩⟩
  transactions := ⟨_, (List.map_id _).symm, fun _ _ => rfl, fun _ => ⟨rfl, rfl, rfl⟩⟩
  lists txId := ⟨rfl, rfl, rfl⟩
  gaps k hk := Table.filter_map_updated fun g _ hg => by
    have hheight : g.height = height := (of_decide_eq_true hg).1
    have hne : ¬ g.height = k := fun h => hk (h.symm.trans hheight)
    exact ⟨decide_eq_false hne, decide_eq_false hne⟩

theorem KeepsHeaders.blockId_eq (h : db.KeepsHeaders db') (height : ℕ) (hash : String) :
    db'.blockId height hash = db.blockId height hash := by
  have hbare : ∀ d : Db, d.blockId height hash = ((d.blocks.rows.map BlockRow.bare).find? fun b =>
      b.height = height ∧ b.hash = hash).map BlockRow.id := fun d => by
    rw [List.find?_map, Option.map_map]
    rfl
  rw [hbare, hbare, h.headers]

/-- What a fill does once the body's transactions are in. -/
theorem amends_fillBody {N : Noid} {b : BlockRow} (hb : b ∈ db.blocks.rows)
    {body : RetainedBlockInfo} {bytes : Option (List UInt8)} {source resolution : String}
    {keep : Bool} {now : Instant}
    (h : db.fillBody N b.height b.hash b.id body bytes source resolution keep now = .ok db') :
    ∃ db₁, db.insertTransactions b.id body = .ok db₁ ∧ Amends b.id b.height db₁ db' := by
  simp only [fillBody, bind_ok] at h
  obtain ⟨db₁, h₁, h₂⟩ := h
  refine ⟨db₁, h₁, ?_⟩
  have hmark : Amends b.id b.height db₁ (db₁.markBodyRecovered b.id source) :=
    amends_updateBlocks fun _ => ⟨rfl, rfl, rfl⟩
  have hgap : ∀ d : Db, Amends b.id b.height d (d.resolveGap b.height now resolution) :=
    fun d => amends_resolveGap d b.id b.height now resolution
  rcases bytes with _ | bytes
  · simp only [bind_ok, pure_ok] at h₂
    obtain ⟨_, rfl, rfl⟩ := h₂
    exact hmark.trans (hgap _)
  -- the block that is scanned is the one that is filled
  have hid : ∀ i, (db₁.markBodyRecovered b.id source).blockId b.height b.hash = some i →
      i = b.id := by
    intro i hi
    have hkeeps : db.KeepsHeaders (db₁.markBodyRecovered b.id source) :=
      (keepsHeaders_insertTransactions h₁).trans (keepsHeaders_markBodyRecovered ..)
    rw [hkeeps.blockId_eq, blockId_eq_some hb] at hi
    exact (Option.some.inj hi).symm
  have hflags := hmark.trans (amends_recordContractFlags hid N (some bytes))
  split_ifs at h₂
  · simp only [bind_ok, map_ok, pure_ok] at h₂
    obtain ⟨_, ⟨⟨db₂, stored⟩, hraw, rfl⟩, rfl⟩ := h₂
    exact (hflags.trans (amends_storeRaw hraw)).trans (hgap _)
  · simp only [bind_ok, pure_ok] at h₂
    obtain ⟨_, rfl, rfl⟩ := h₂
    exact hflags.trans (hgap _)

/-- The transactions stand at positions `0, 1, …`, and their txids in order rebuild the root. -/
def RebuildsRoot (N : Noid) (txs : List TransactionRow) (root : String) : Prop :=
  txs.map TransactionRow.position = List.range txs.length
    ∧ ∃ ids, List.Forall₂ (fun t id => txidBytes t.txid = some id) txs ids
      ∧ Text.hexEncode (N.rootFromHashes ids) = root

theorem RebuildsRoot.congr {N : Noid} {txs txs' : List TransactionRow} {root : String}
    (h : RebuildsRoot N txs root)
    (hpos : txs'.map TransactionRow.position = txs.map TransactionRow.position)
    (htxid : txs'.map TransactionRow.txid = txs.map TransactionRow.txid) :
    RebuildsRoot N txs' root := by
  obtain ⟨hrange, ids, hids, hroot⟩ := h
  have hlen : txs'.length = txs.length := by simpa using congrArg List.length hpos
  refine ⟨by rw [hpos, hlen, hrange], ids, ?_, hroot⟩
  rw [← List.forall₂_map_left_iff (f := TransactionRow.txid)
    (R := fun s id => txidBytes s = some id)] at hids ⊢
  rwa [htxid]

/-- What recording a body changes. -/
structure Filled (N : Noid) (b : BlockRow) (db db' : Db) : Prop where
  headers : db.KeepsHeaders db'
  blocks : ∃ f : BlockRow → BlockRow, db'.blocks.rows = db.blocks.rows.map f
    ∧ (∀ c, c.id ≠ b.id → f c = c) ∧ ∀ c, (f c).height = c.height
  transactions : ∃ new, db'.transactions.rows = db.transactions.rows ++ new
    ∧ (∀ t ∈ new, t.blockId = b.id) ∧ RebuildsRoot N new b.txRoot
  lists : ∀ t ∈ db.transactions.rows, db.SameLists db' t.id
  gaps : ∀ k, k ≠ b.height → (db'.ingestGaps.rows.filter fun g => g.height = k)
    = db.ingestGaps.rows.filter fun g => g.height = k

/-- **What recording a body changes**: one that passed the check, in a block that holds nothing. -/
theorem filled_fillBody {N : Noid} {b : BlockRow} (hb : b ∈ db.blocks.rows)
    (hnone : db.transactionsOf b.id = []) {body : RetainedBlockInfo}
    (hcheck : checkBody N body b.txRoot = .ok ()) {bytes : Option (List UInt8)}
    {source resolution : String} {keep : Bool} {now : Instant}
    (h : db.fillBody N b.height b.hash b.id body bytes source resolution keep now = .ok db') :
    Filled N b db db' := by
  obtain ⟨db₁, h₁, hamends⟩ := amends_fillBody hb h
  simp only [insertTransactions, bind_ok] at h₁
  obtain ⟨-, -, h₁⟩ := h₁
  obtain ⟨⟨ids, hids, hroot⟩, -⟩ := checkBody_ok hcheck
  obtain ⟨htxids, hfits⟩ := checkTransactions_iff.mp hids
  have hset : Amends b.id b.height db (db.setBodyFields b.id body) :=
    amends_updateBlocks fun _ => ⟨rfl, rfl, rfl⟩
  have hempty : ∀ t ∈ (db.setBodyFields b.id body).transactionsOf b.id, t.position < 0 := by
    intro t ht
    have hin : t ∈ db.transactionsOf b.id := ht
    rw [hnone] at hin
    exact absurd hin List.not_mem_nil
  obtain ⟨new, hadds, hpositions, htxid⟩ :=
    adds_insertAll hempty (fun k t ht => (hfits k t ht).position) h₁
  have hlen : new.length = body.transactions.length := by
    simpa using congrArg List.length htxid
  have hnew : RebuildsRoot N new b.txRoot := by
    refine ⟨by rw [hpositions, hlen, List.range_eq_range'], ids, ?_, hroot⟩
    rw [← List.forall₂_map_left_iff (f := TransactionRow.txid)
      (R := fun s id => txidBytes s = some id), htxid, List.forall₂_map_left_iff]
    exact htxids
  obtain ⟨f, hf, hfout, hfkeys⟩ := hset.blocks
  obtain ⟨f', hf', hfout', hfkeys'⟩ := hamends.blocks
  obtain ⟨g, hg, hgout, hgkeys⟩ := hamends.transactions
  refine ⟨keepsHeaders_fillBody h, ⟨f' ∘ f, ?_, fun c hc => ?_, fun c => ?_⟩,
    ⟨new.map g, ?_, ?_, ?_⟩, fun t ht => ?_, fun k hk => ?_⟩
  · rw [hf', hadds.blocks, hf, List.map_map]
  · rw [Function.comp, hfout c hc, hfout' c hc]
  · exact (hfkeys' (f c)).2.1.trans (hfkeys c).2.1
  · -- what was there is of other blocks
    have hold : ∀ t ∈ db.transactions.rows, g t = t := fun t ht => hgout t fun hid => by
      have hin : t ∈ db.transactionsOf b.id := List.mem_filter.mpr ⟨ht, decide_eq_true hid⟩
      exact absurd (hnone ▸ hin) List.not_mem_nil
    have hrows : db₁.transactions.rows = db.transactions.rows ++ new := hadds.transactions
    rw [hg, hrows, List.map_append, List.map_congr_left hold, List.map_id']
  · intro t ht
    obtain ⟨t₀, ht₀, rfl⟩ := List.mem_map.mp ht
    exact (hgkeys t₀).1.trans (hadds.own t₀ ht₀)
  · refine hnew.congr ?_ ?_
    · rw [List.map_map]
      exact List.map_congr_left fun t _ => (hgkeys t).2.1
    · rw [List.map_map]
      exact List.map_congr_left fun t _ => (hgkeys t).2.2
  · have hlists := hadds.lists t ht
    have hfirst : db.SameLists db₁ t.id := ⟨hlists.pageHashes, hlists.inputs, hlists.outputs⟩
    exact hfirst.trans (hamends.lists t.id)
  · rw [hamends.gaps k hk, hadds.gaps]
    rfl

/-- **The other heights stay as they are.** -/
theorem Filled.sameAt {N : Noid} {b : BlockRow} (h : Filled N b db db') (hb : b ∈ db.blocks.rows)
    {height : ℕ} (hne : height ≠ b.height) : db.SameAt db' height := by
  have hother : ∀ c ∈ db.blocks.rows, c.height = height → c.id ≠ b.id := by
    intro c hc hh hid
    obtain rfl := db.blocks.eq_of_clash hc hb (decide_eq_true (Or.inl hid))
    exact hne hh.symm
  obtain ⟨f, hf, hfout, hfheight⟩ := h.blocks
  obtain ⟨new, hrows, hown, -⟩ := h.transactions
  refine ⟨?_, fun c hc hh => ?_, fun c hc hh t ht => ?_, h.gaps height hne⟩
  · rw [hf]
    refine Table.filter_map_of_unseen fun c hc => ?_
    by_cases hh : c.height = height
    · exact Or.inl (hfout c (hother c hc hh))
    · exact Or.inr ⟨decide_eq_false hh, decide_eq_false fun hh' => hh ((hfheight c).symm.trans hh')⟩
  · have hnil : new.filter (fun t => t.blockId = c.id) = [] :=
      List.filter_eq_nil_iff.mpr fun t ht hid =>
        hother c hc hh ((of_decide_eq_true hid).symm.trans (hown t ht))
    rw [transactionsOf, hrows, List.filter_append, hnil, List.append_nil]
    rfl
  · exact h.lists t (List.mem_filter.mp ht).1

theorem SameAt.mem_iff {height : ℕ} (h : db.SameAt db' height) {b : BlockRow}
    (hb : b.height = height) : b ∈ db'.blocks.rows ↔ b ∈ db.blocks.rows := by
  have hfilter : ∀ d : Db,
      b ∈ d.blocks.rows ↔ b ∈ d.blocks.rows.filter fun c => c.height = height := fun d =>
    ⟨fun hmem => List.mem_filter.mpr ⟨hmem, decide_eq_true hb⟩,
      fun hmem => (List.mem_filter.mp hmem).1⟩
  rw [hfilter, hfilter, h.blocks]

theorem SameAt.trans {height : ℕ} (h : db.SameAt db' height) (h' : db'.SameAt db'' height) :
    db.SameAt db'' height where
  blocks := h'.blocks.trans h.blocks
  transactions b hb hh :=
    (h'.transactions b ((h.mem_iff hh).mpr hb) hh).trans (h.transactions b hb hh)
  lists b hb hh t ht := by
    have ht' : t ∈ db'.transactionsOf b.id := (h.transactions b hb hh).symm ▸ ht
    exact (h.lists b hb hh t ht).trans (h'.lists b ((h.mem_iff hh).mpr hb) hh t ht')
  gaps := h'.gaps.trans h.gaps

/-- A height that stays as it is is asked for as before. -/
theorem SameAt.request_eq {height : ℕ} (h : db.SameAt db' height) (hkeeps : db.KeepsHeaders db') :
    db'.request height = db.request height := by
  refine hkeeps.request_eq fun hash => ?_
  have hfilter : ∀ d : Db, d.uncapturedBlockId height hash
      = ((d.blocks.rows.filter fun b => b.height = height).find? fun b =>
        b.hash = hash ∧ b.bodyCaptured = false ∧ b.archived).map BlockRow.id := fun d => by
    rw [List.find?_filter, uncapturedBlockId]
    refine congrArg (fun p => Option.map BlockRow.id (d.blocks.rows.find? p)) (funext fun b => ?_)
    simp only [decide_eq_true_eq]
  rw [hfilter, hfilter, h.blocks]

/-! ## A round -/

/-- A block whose body may be filled in: canonical, of the archive, without a body, its gap open. -/
structure OpenAt (db : Db) (b : BlockRow) : Prop where
  onRecord : b ∈ db.blocks.rows
  canonical : db.canonicalHashAt b.height = some (b.id, b.hash)
  archived : b.archived
  uncaptured : b.bodyCaptured = false
  gap : b.height ∈ db.openGapHeights 0

/-- Something that was said for the height was accepted as the body of the block asked for. -/
def Accepted (N : Noid) (db : Db) (said : List (Σ q : Query, q.Answer)) (height : ℕ) : Prop :=
  ∃ hash id root answer body bytes, ⟨.offer height hash, answer⟩ ∈ said
    ∧ db.request height = some (hash, id, root)
    ∧ judgeOffer N height hash root answer = .accepted body bytes

/-- **What filling gaps may do to a database**, given what was said: transactions enter only blocks
that were open, where they rebuild the root on record; and a height of which nothing was accepted
stays as it is. -/
structure Safe (N : Noid) (said : List (Σ q : Query, q.Answer)) (db db' : Db) : Prop where
  headers : db.KeepsHeaders db'
  transactions : ∃ new, db'.transactions.rows = db.transactions.rows ++ new
    ∧ ∀ t ∈ new, ∃ b, db.OpenAt b ∧ t.blockId = b.id
      ∧ RebuildsRoot N (db'.transactionsOf b.id) b.txRoot
  same : ∀ height, ¬ db.Accepted N said height → db.SameAt db' height

variable {N : Noid} {said said' : List (Σ q : Query, q.Answer)}

theorem Accepted.mono {height : ℕ} (h : db.Accepted N said height) (hsub : said ⊆ said') :
    db.Accepted N said' height := by
  obtain ⟨hash, id, root, answer, body, bytes, hmem, h⟩ := h
  exact ⟨hash, id, root, answer, body, bytes, hsub hmem, h⟩

theorem Safe.mono (h : Safe N said db db') (hsub : said ⊆ said') : Safe N said' db db' :=
  ⟨h.headers, h.transactions, fun k hk => h.same k fun hacc => hk (hacc.mono hsub)⟩

theorem Safe.refl (N : Noid) (said : List (Σ q : Query, q.Answer)) (db : Db) : Safe N said db db :=
  ⟨.refl db, ⟨[], (List.append_nil _).symm, fun _ ht => absurd ht List.not_mem_nil⟩,
    fun k _ => .refl db k⟩

/-- The block that is asked for is open. -/
theorem openAt_of_request {height id : ℕ} {hash root : String}
    (hreq : db.request height = some (hash, id, root)) (hgap : height ∈ db.openGapHeights 0) :
    ∃ b, db.OpenAt b ∧ b.id = id ∧ b.height = height ∧ b.hash = hash ∧ b.txRoot = root := by
  obtain ⟨b, hb, rfl, rfl, rfl, hcap, harch, rfl⟩ := mem_of_request hreq
  obtain ⟨⟨i, s⟩, hcanon, hs⟩ := Option.map_eq_some_iff.mp (request_eq_some.mp hreq).1
  obtain rfl : s = b.hash := hs
  obtain ⟨c, hc, rfl, hh, hhash⟩ := mem_of_canonicalHashAt hcanon
  obtain rfl := db.blocks.eq_of_clash hc hb (decide_eq_true (Or.inr (by rw [hh, hhash])))
  exact ⟨c, ⟨hb, hcanon, harch, hcap, hgap⟩, rfl, rfl, rfl, rfl⟩

section Round

variable {cfg : Config} {W : Type} {world : ∀ q : Query, W → q.Answer × W}
  {source resolution : String} {keep : Bool}

/-- **One gap of a round**, with what is said for it: nothing changes, or an answer that was
accepted is recorded. -/
theorem fillHeight_step (cfg : Config) (world : ∀ q : Query, W → q.Answer × W)
    (source resolution : String) (keep : Bool) (report : ImportReport) (k : ℕ) (db : Db)
    (w : W × List (Σ q : Query, q.Answer)) :
    ∃ r db' w', drive (Txn.exec N cfg) (recording world)
        (fillHeight N source resolution keep report k) db w = (r, db', w')
      ∧ w.2 ⊆ w'.2
      ∧ (∀ j hash answer, (⟨.offer j hash, answer⟩ : Σ q : Query, q.Answer) ∈ w'.2 →
          ⟨.offer j hash, answer⟩ ∈ w.2 ∨ j = k)
      ∧ (db' = db ∨ ∃ hash id root answer body bytes now, ⟨.offer k hash, answer⟩ ∈ w'.2
          ∧ db.request k = some (hash, id, root)
          ∧ judgeOffer N k hash root answer = .accepted body bytes
          ∧ db.fillBody N k hash id body bytes source resolution keep now = .ok db') := by
  rw [drive_fillHeight]
  rcases hreq : db.request k with _ | ⟨hash, id, root⟩
  · exact ⟨_, _, _, rfl, fun _ h => h, fun _ _ _ h => Or.inl h, Or.inl rfl⟩
  let answer := (world (.offer k hash) w.1).1
  let said := w.2 ++ [(⟨.offer k hash, answer⟩ : Σ q : Query, q.Answer)]
  have hsub : w.2 ⊆ said := List.subset_append_left ..
  have honly : ∀ j s a, (⟨.offer j s, a⟩ : Σ q : Query, q.Answer) ∈ said →
      ⟨.offer j s, a⟩ ∈ w.2 ∨ j = k := by
    intro j s a h
    refine (List.mem_append.mp h).imp_right fun h => ?_
    obtain ⟨hq, -⟩ := Sigma.mk.inj (List.mem_singleton.mp h)
    exact (Query.offer.inj hq).1
  dsimp only [recording]
  rcases hjudge : judgeOffer N k hash root answer with ⟨body, bytes⟩ | _ | _
  · dsimp only
    let now := (world .now (world (.offer k hash) w.1).2).1
    have hsub' : said ⊆ said ++ [(⟨.now, now⟩ : Σ q : Query, q.Answer)] :=
      List.subset_append_left ..
    have honly' : ∀ j s a, (⟨.offer j s, a⟩ : Σ q : Query, q.Answer) ∈ said ++ [⟨.now, now⟩] →
        ⟨.offer j s, a⟩ ∈ w.2 ∨ j = k := by
      intro j s a h
      rcases List.mem_append.mp h with h | h
      · exact honly j s a h
      · obtain ⟨hq, -⟩ := Sigma.mk.inj (List.mem_singleton.mp h)
        cases hq
    rcases hfill : db.fillBody N k hash id body bytes source resolution keep now with e | db'
    · exact ⟨_, _, _, rfl, List.Subset.trans hsub hsub', honly', Or.inl rfl⟩
    · refine ⟨_, _, _, rfl, List.Subset.trans hsub hsub', honly',
        Or.inr ⟨hash, id, root, answer, body, bytes, now, ?_, rfl, hjudge, hfill⟩⟩
      exact hsub' (List.mem_append_right _ (List.mem_singleton_self _))
  · exact ⟨_, _, _, rfl, hsub, honly, Or.inl rfl⟩
  · exact ⟨_, _, _, rfl, hsub, honly, Or.inl rfl⟩

/-- **Recording a body keeps a round safe.** -/
theorem Safe.filled {db₀ : Db} (h : Safe N said db₀ db)
    (h₀ : ∀ b ∈ db₀.blocks.rows, b.archived → b.bodyCaptured = false → db₀.transactionsOf b.id = [])
    {k id : ℕ} {hash root : String} (hgap : k ∈ db₀.openGapHeights 0)
    (hnot : ¬ db₀.Accepted N said k) (hsub : said ⊆ said')
    (hreq : db.request k = some (hash, id, root)) {answer : Except String (Option Offer)}
    {body : RetainedBlockInfo} {bytes : Option (List UInt8)} {now : Instant}
    (hmem : ⟨.offer k hash, answer⟩ ∈ said')
    (hjudge : judgeOffer N k hash root answer = .accepted body bytes)
    (hfill : db.fillBody N k hash id body bytes source resolution keep now = .ok db') :
    Safe N said' db₀ db' := by
  have hsame : db₀.SameAt db k := h.same k hnot
  have hreq₀ : db₀.request k = some (hash, id, root) := (hsame.request_eq h.headers).symm.trans hreq
  obtain ⟨b, hopen, rfl, rfl, rfl, rfl⟩ := openAt_of_request hreq₀ hgap
  have hb : b ∈ db.blocks.rows := (hsame.mem_iff rfl).mpr hopen.onRecord
  have hnone : db.transactionsOf b.id = [] :=
    (hsame.transactions b hopen.onRecord rfl).trans
      (h₀ b hopen.onRecord hopen.archived hopen.uncaptured)
  have hfilled := filled_fillBody hb hnone (judgeOffer_accepted hjudge) hfill
  obtain ⟨new, hrows, hnew⟩ := h.transactions
  obtain ⟨added, hadded, hown, hroot⟩ := hfilled.transactions
  have hof : ∀ i, db'.transactionsOf i
      = db.transactionsOf i ++ added.filter fun t => t.blockId = i := fun i => by
    rw [transactionsOf, hadded, List.filter_append]
    rfl
  refine ⟨h.headers.trans hfilled.headers, ⟨new ++ added, ?_, ?_⟩, fun j hj => ?_⟩
  · rw [hadded, hrows, List.append_assoc]
  · refine List.forall_mem_append.mpr ⟨fun t ht => ?_, fun t ht => ⟨b, hopen, hown t ht, ?_⟩⟩
    · -- the blocks filled before hold transactions, so they are others
      obtain ⟨c, hc, htc, hcroot⟩ := hnew t ht
      have hne : c.id ≠ b.id := fun hid => by
        have hin : t ∈ db.transactionsOf b.id :=
          List.mem_filter.mpr ⟨hrows ▸ List.mem_append_right _ ht, decide_eq_true (htc.trans hid)⟩
        exact absurd (hnone ▸ hin) List.not_mem_nil
      have hnil : added.filter (fun t => t.blockId = c.id) = [] :=
        List.filter_eq_nil_iff.mpr fun u hu hid =>
          hne ((of_decide_eq_true hid).symm.trans (hown u hu))
      refine ⟨c, hc, htc, ?_⟩
      rwa [hof, hnil, List.append_nil]
    · rwa [hof, hnone, List.nil_append,
        List.filter_eq_self.mpr fun t ht => decide_eq_true (hown t ht)]
  · have hacc : db₀.Accepted N said' b.height :=
      ⟨b.hash, b.id, b.txRoot, answer, body, bytes, hmem, hreq₀, hjudge⟩
    have hne : j ≠ b.height := fun hjb => hj (hjb ▸ hacc)
    exact (h.same j fun hacc => hj (hacc.mono hsub)).trans (hfilled.sameAt hb hne)

/-- **The gaps of a round.** -/
theorem safe_fillHeights (cfg : Config) (world : ∀ q : Query, W → q.Answer × W)
    (source resolution : String) (keep : Bool) {db₀ : Db}
    (h₀ : ∀ b ∈ db₀.blocks.rows, b.archived → b.bodyCaptured = false →
      db₀.transactionsOf b.id = []) :
    ∀ (heights : List ℕ) (report : ImportReport) (db : Db) (w : W × List (Σ q : Query, q.Answer)),
    heights.Nodup → (∀ k ∈ heights, k ∈ db₀.openGapHeights 0) →
    (∀ k ∈ heights, ¬ db₀.Accepted N w.2 k) → Safe N w.2 db₀ db →
    ∃ r db' w', drive (Txn.exec N cfg) (recording world)
        (foldEach (fillHeight N source resolution keep) report heights) db w = (r, db', w')
      ∧ Safe N w'.2 db₀ db'
  | [], report, db, w, _, _, _, hsafe => ⟨_, _, _, rfl, hsafe⟩
  | k :: heights, report, db, w, hnodup, hgaps, hnew, hsafe => by
      obtain ⟨hk, hnodup⟩ := List.nodup_cons.mp hnodup
      obtain ⟨hgap, hgaps⟩ := List.forall_mem_cons.mp hgaps
      obtain ⟨hnot, hnew⟩ := List.forall_mem_cons.mp hnew
      obtain ⟨r, db₁, w₁, hdrive, hsub, honly, hstep⟩ :=
        fillHeight_step (N := N) cfg world source resolution keep report k db w
      have hsafe₁ : Safe N w₁.2 db₀ db₁ := by
        rcases hstep with rfl | ⟨_, _, _, _, _, _, _, hmem, hreq, hjudge, hfill⟩
        · exact hsafe.mono hsub
        · exact hsafe.filled h₀ hgap hnot hsub hreq hmem hjudge hfill
      rw [drive_foldEach_cons, hdrive]
      rcases r with e | report₁
      · exact ⟨_, _, _, rfl, hsafe₁⟩
      refine safe_fillHeights cfg world source resolution keep h₀ heights report₁ db₁ w₁ hnodup
        hgaps (fun j hj hacc => ?_) hsafe₁
      obtain ⟨hash, id, root, answer, body, bytes, hmem, hrest⟩ := hacc
      rcases honly j hash answer hmem with hold | rfl
      · exact hnew j hj ⟨hash, id, root, answer, body, bytes, hold, hrest⟩
      · exact hk hj

/-- **Gap filling is safe against any source**: a run, ended by an error or not, is safe up to its
closing maintenance, which changes no block, no status and no transaction. -/
theorem fillGaps_safe (N : Noid) (cfg : Config) (world : ∀ q : Query, W → q.Answer × W)
    (max : Option ℕ) (source resolution : String) (keep : Bool) {db : Db}
    (h : ∀ b ∈ db.blocks.rows, b.archived → b.bodyCaptured = false → db.transactionsOf b.id = [])
    (w : W) :
    ∃ db', Safe N
        (answers (Txn.exec N cfg) world (fillGaps N max source resolution keep) db w) db db'
      ∧ ((drive (Txn.exec N cfg) world (fillGaps N max source resolution keep) db w).2.1 = db'
        ∨ ∃ now, (drive (Txn.exec N cfg) world (fillGaps N max source resolution keep) db w).2.1
            = db'.maintained now
          ∧ db'.Tidied now
            (drive (Txn.exec N cfg) world (fillGaps N max source resolution keep) db w).2.1) := by
  let run := drive (Txn.exec N cfg) (recording world) (fillGaps N max source resolution keep) db
    (w, [])
  have hrun : (drive (Txn.exec N cfg) world (fillGaps N max source resolution keep) db w).2.1
      = run.2.1 := by
    obtain ⟨said, hsaid⟩ : ∃ said, run = (_, _, _, said) :=
      drive_recording (fillGaps N max source resolution keep) db w []
    exact congrArg (fun x => x.2.1) hsaid.symm
  have htaken : ∀ k ∈ db.takenHeights max, k ∈ db.openGapHeights 0 := by
    intro k hk
    unfold takenHeights at hk
    rcases max with _ | n
    · exact hk
    · exact List.mem_of_mem_take hk
  have hnone : ∀ k, ¬ db.Accepted N [] k := by
    rintro k ⟨_, _, _, _, _, _, hmem, -⟩
    exact absurd hmem List.not_mem_nil
  obtain ⟨r, db', w', hdrive, hsafe⟩ := safe_fillHeights cfg world source resolution keep h
    (db.takenHeights max) { gaps := (db.openGapHeights 0).length } db (w, [])
    (db.nodup_takenHeights max) htaken (fun k _ => hnone k) (.refl N [] db)
  have hend : run = driveThen (Txn.exec N cfg) (recording world) fillMaintenance (r, db', w') := by
    rw [← hdrive, ← drive_fillGaps]
  rw [hrun]
  change ∃ db', Safe N run.2.2.2 db db' ∧ _
  rw [hend]
  rcases r with e | report
  · exact ⟨db', hsafe, Or.inl rfl⟩
  · exact ⟨db', hsafe.mono (List.subset_append_left ..), Or.inr ⟨_, rfl, db'.tidied_maintained _⟩⟩

end Round

/-- The gap of one block, two peers. -/
theorem fillGaps_safe_twoPeers : ∃ db', Safe Noid.sample
      (answers (Txn.exec Noid.sample {}) (Peers.twoPeers.world Noid.sample id (chainAnswers [] 0))
        (fillGaps Noid.sample none "peer" "recovered" true) Peers.gapDb {}) Peers.gapDb db'
    ∧ ((drive (Txn.exec Noid.sample {}) (Peers.twoPeers.world Noid.sample id (chainAnswers [] 0))
          (fillGaps Noid.sample none "peer" "recovered" true) Peers.gapDb {}).2.1 = db'
      ∨ ∃ now, (drive (Txn.exec Noid.sample {})
            (Peers.twoPeers.world Noid.sample id (chainAnswers [] 0))
            (fillGaps Noid.sample none "peer" "recovered" true) Peers.gapDb {}).2.1
          = db'.maintained now
        ∧ db'.Tidied now (drive (Txn.exec Noid.sample {})
            (Peers.twoPeers.world Noid.sample id (chainAnswers [] 0))
            (fillGaps Noid.sample none "peer" "recovered" true) Peers.gapDb {}).2.1) :=
  fillGaps_safe Noid.sample {} _ none "peer" "recovered" true (fun _ _ _ _ => rfl)
    ({} : Round)

end Db

end Permanode
