import Permanode.Ledger.Executions

/-!
# Ledger/Calls — contract calls and the bytes they are read from

The contract calls of a v2 block stand in its raw bytes alone; their flags go to its transactions
when the bytes are scanned.  This module says what the writers do to the flags of a block, position
by position (`Db.flagOn`): a scan sets them all (`callsOf_recordContractFlags`), a body that is
stored sets none (`Db.Extends`); and where the flag that a block has its body can come from
(`Op.capturedFrom_applyAll`).
-/

namespace Permanode

open Outcome

/-! ## Flags by position -/

/-- The flag a list of calls gives a position: that of its last entry, 0 without one. -/
def flagAt (flags : List (ℕ × ℕ)) (position : ℕ) : ℕ :=
  flags.foldl (fun flag f => if f.1 = position then f.2 else flag) 0

/-- A flag of another position does not count. -/
theorem foldl_flag_of_not_mem {flags : List (ℕ × ℕ)} {position : ℕ} (flag : ℕ)
    (h : ∀ f ∈ flags, f.1 ≠ position) :
    flags.foldl (fun flag f => if f.1 = position then f.2 else flag) flag = flag := by
  induction flags generalizing flag with
  | nil => rfl
  | cons f flags ih =>
    obtain ⟨hf, hflags⟩ := List.forall_mem_cons.mp h
    rw [List.foldl_cons, if_neg hf, ih flag hflags]

/-- A position that is not listed has no call. -/
theorem flagAt_of_not_mem {flags : List (ℕ × ℕ)} {position : ℕ} (h : ∀ f ∈ flags, f.1 ≠ position) :
    flagAt flags position = 0 := foldl_flag_of_not_mem 0 h

/-- Where every position is listed once, a flag is found at its position. -/
theorem flagAt_of_mem {flags : List (ℕ × ℕ)} (hone : flags.Pairwise fun f g => f.1 ≠ g.1)
    {f : ℕ × ℕ} (hf : f ∈ flags) : flagAt flags f.1 = f.2 := by
  suffices h : ∀ flag,
      flags.foldl (fun flag g => if g.1 = f.1 then g.2 else flag) flag = f.2 from h 0
  induction flags with
  | nil => exact absurd hf List.not_mem_nil
  | cons g flags ih =>
    intro flag
    obtain ⟨hfirst, hrest⟩ := List.pairwise_cons.mp hone
    rcases List.mem_cons.mp hf with rfl | hf
    · rw [List.foldl_cons, if_pos rfl]
      exact foldl_flag_of_not_mem _ fun g hg => (hfirst g hg).symm
    · exact ih hrest hf _

namespace Db

variable {db db' : Db}

/-- The transactions of a block, as positions and flags. -/
def callsOf (db : Db) (blockId : ℕ) : List (ℕ × ℕ) :=
  (db.transactionsOf blockId).map fun t => (t.position, t.contractFlags)

/-- The calls of a block are those of its transactions. -/
theorem mem_callsOf {blockId : ℕ} {c : ℕ × ℕ} : c ∈ db.callsOf blockId
    ↔ ∃ t ∈ db.transactions.rows, t.blockId = blockId ∧ (t.position, t.contractFlags) = c := by
  simp [callsOf, transactionsOf, and_assoc]

/-- A block holds one transaction a position. -/
theorem callsOf_pairwise (db : Db) (blockId : ℕ) :
    (db.callsOf blockId).Pairwise fun c d => c.1 ≠ d.1 := by
  refine List.pairwise_map.mpr (List.Pairwise.imp_of_mem ?_ (db.transactions.unique.filter _))
  intro t u ht hu hfree hpos
  have hblock : t.blockId = u.blockId :=
    (of_decide_eq_true (List.mem_filter.mp ht).2).trans
      (of_decide_eq_true (List.mem_filter.mp hu).2).symm
  have hclash : Row.clash t u = true := decide_eq_true (Or.inr (Prod.ext hblock hpos))
  exact Bool.false_ne_true (hfree.symm.trans hclash)

/-! ## Scanning -/

/-- The flag of a row of block `blockId` replaced, where `flags` lists its position. -/
def reflag (blockId : ℕ) (flags : List (ℕ × ℕ)) (t : TransactionRow) : TransactionRow :=
  if t.blockId = blockId then
    { t with contractFlags :=
        flags.foldl (fun flag f => if f.1 = t.position then f.2 else flag) t.contractFlags }
  else t

/-- The flags that are written, row by row. -/
theorem rows_flagPositions (blockId : ℕ) : ∀ (flags : List (ℕ × ℕ)) (ts : Table TransactionRow),
    (flags.foldl (flagPosition blockId) ts).rows = ts.rows.map (reflag blockId flags)
  | [], ts => by
      refine (List.map_id _).symm.trans (List.map_congr_left fun t _ => ?_)
      unfold reflag
      split_ifs <;> rfl
  | f :: flags, ts => by
      rw [List.foldl_cons, rows_flagPositions blockId flags, flagPosition, Table.rows_modify,
        List.map_map]
      refine List.map_congr_left fun t _ => ?_
      simp only [Function.comp, Table.updated, reflag, List.foldl_cons]
      by_cases hb : t.blockId = blockId
      · by_cases hp : t.position = f.1
        · simp [hb, hp]
        · simp [hb, hp, Ne.symm hp]
      · simp [hb]

/-- **A scan that is conclusive gives every transaction of its block the flag it lists.** -/
theorem callsOf_setContractFlags {height id : ℕ} {hash : String}
    (hid : db.blockId height hash = some id) (flags : List (ℕ × ℕ)) (k : ℕ) :
    (db.setContractFlags height hash flags).callsOf k
      = if k = id then (db.callsOf k).map fun c => (c.1, flagAt flags c.1) else db.callsOf k := by
  let set : TransactionRow → TransactionRow := fun t =>
    if t.blockId = id then { t with contractFlags := flagAt flags t.position } else t
  have hrows : (db.setContractFlags height hash flags).transactions.rows
      = db.transactions.rows.map set := by
    rw [setContractFlags, hid]
    change (flags.foldl (flagPosition id) _).rows = _
    rw [rows_flagPositions, Table.rows_modify, List.map_map]
    refine List.map_congr_left fun t _ => ?_
    simp only [Function.comp, Table.updated, reflag, set, flagAt]
    by_cases hb : t.blockId = id
    · by_cases hf : t.contractFlags = 0
      · simp [hb, hf]
      · simp [hb, hf]
    · simp [hb]
  have hblock : ∀ t, (set t).blockId = t.blockId := fun t => by
    simp only [set]
    split_ifs <;> rfl
  have hfilter : ((fun t => decide (t.blockId = k)) ∘ set) = fun t => decide (t.blockId = k) :=
    funext fun t => by simp [hblock]
  rw [callsOf, transactionsOf, hrows, List.filter_map, List.map_map, hfilter]
  split_ifs with hk
  · subst hk
    rw [callsOf, List.map_map]
    refine List.map_congr_left fun t ht => ?_
    have hb : t.blockId = k := of_decide_eq_true (List.mem_filter.mp ht).2
    simp only [Function.comp, set, if_pos hb]
  · refine List.map_congr_left fun t ht => ?_
    have hb : t.blockId = k := of_decide_eq_true (List.mem_filter.mp ht).2
    simp only [Function.comp, set, if_neg (hb.trans_ne hk)]

end Db

/-- What bytes handed over for `(height, hash)` list as its contract calls, if they are scanned. -/
def scanned (N : Noid) (height : ℕ) (hash : String) (raw : Option (List UInt8)) :
    Option (List (ℕ × ℕ)) :=
  if v2Active height then raw.bind fun bytes => (contractFlags N bytes height hash).toOption
  else none

namespace Db

variable {db db' : Db}

/-- **What a scan leaves of a block's calls**: what it lists, or what was on record. -/
theorem callsOf_recordContractFlags (N : Noid) (db : Db) (height : ℕ) (hash : String)
    (raw : Option (List UInt8)) (k : ℕ) :
    (db.recordContractFlags N height hash raw).callsOf k
      = if db.blockId height hash = some k then
          (scanned N height hash raw).elim (db.callsOf k)
            fun flags => (db.callsOf k).map fun c => (c.1, flagAt flags c.1)
        else db.callsOf k := by
  unfold recordContractFlags scanned
  split_ifs with hv hid hid
  · rcases raw with _ | bytes
    · rfl
    dsimp only [Option.bind_some]
    rcases hflags : contractFlags N bytes height hash with e | flags
    · rfl
    · exact (callsOf_setContractFlags hid flags k).trans (if_pos rfl)
  · rcases raw with _ | bytes
    · rfl
    dsimp only
    rcases hflags : contractFlags N bytes height hash with e | flags
    · rfl
    dsimp only
    rcases hid' : db.blockId height hash with _ | id
    · rw [setContractFlags, hid']
    · have hk : k ≠ id := fun hk => hid (hid'.trans (congrArg some hk.symm))
      exact (callsOf_setContractFlags hid' flags k).trans (if_neg hk)
  · rfl
  · rfl

/-- The kept bytes are as they were. -/
theorem rawBlocks_recordContractFlags (N : Noid) (db : Db) (height : ℕ) (hash : String)
    (raw : Option (List UInt8)) :
    (db.recordContractFlags N height hash raw).rawBlocks = db.rawBlocks := by
  have hset : ∀ flags, (db.setContractFlags height hash flags).rawBlocks = db.rawBlocks := by
    intro flags
    unfold setContractFlags
    split <;> rfl
  unfold recordContractFlags
  repeat' split
  all_goals first | rfl | exact hset _

/-! ## Storing a body -/

/-- The flag on record at a position of a block; 0 where there is no transaction. -/
def flagOn (db : Db) (blockId position : ℕ) : ℕ := flagAt (db.callsOf blockId) position

/-- The positions of the transactions of a block. -/
def positionsOf (db : Db) (blockId : ℕ) : List ℕ := (db.callsOf blockId).map Prod.fst

/-- The flag on a position is that of the block's transaction there. -/
theorem flagOn_eq {t : TransactionRow} (ht : t ∈ db.transactions.rows) :
    db.flagOn t.blockId t.position = t.contractFlags :=
  @flagAt_of_mem (db.callsOf t.blockId) (db.callsOf_pairwise _) (t.position, t.contractFlags)
    (mem_callsOf.mpr ⟨t, ht, rfl, rfl⟩)

/-- A transaction is at its position. -/
theorem mem_positionsOf {t : TransactionRow} (ht : t ∈ db.transactions.rows) :
    t.position ∈ db.positionsOf t.blockId :=
  @List.mem_map_of_mem _ _ (db.callsOf t.blockId) (t.position, t.contractFlags) Prod.fst
    (mem_callsOf.mpr ⟨t, ht, rfl, rfl⟩)

/-- **Storing transactions of a body changes no flag**: a position that was free has none. -/
structure Extends (blockId : ℕ) (positions : List ℕ) (db db' : Db) : Prop where
  flagOn : ∀ k p, db'.flagOn k p = db.flagOn k p
  positionsOf : ∀ k, ∀ p ∈ db'.positionsOf k, p ∈ db.positionsOf k ∨ k = blockId ∧ p ∈ positions
  rawBlocks : db'.rawBlocks = db.rawBlocks

/-- The calls depend on the transactions alone. -/
theorem callsOf_congr (h : db'.transactions = db.transactions) : db'.callsOf = db.callsOf :=
  funext fun k => by rw [callsOf, callsOf, transactionsOf, transactionsOf, h]

theorem flagOn_congr (h : db'.transactions = db.transactions) : db'.flagOn = db.flagOn :=
  funext fun k => funext fun p => by rw [flagOn, flagOn, callsOf_congr h]

theorem positionsOf_congr (h : db'.transactions = db.transactions) :
    db'.positionsOf = db.positionsOf :=
  funext fun k => by rw [positionsOf, positionsOf, callsOf_congr h]

/-- Nothing is added where the transactions stay as they are. -/
theorem Extends.of_tables {blockId : ℕ} {positions : List ℕ}
    (htx : db'.transactions = db.transactions)
    (hraw : db'.rawBlocks = db.rawBlocks) : Extends blockId positions db db' where
  flagOn k p := by rw [flagOn_congr htx]
  positionsOf k p hp := Or.inl (positionsOf_congr htx ▸ hp)
  rawBlocks := hraw

/-- **A transaction without a call is added at its position.** -/
theorem Extends.of_insert {row : TransactionRow}
    (htx : db'.transactions = db.transactions.insertOrIgnore row) (hflag : row.contractFlags = 0)
    (hraw : db'.rawBlocks = db.rawBlocks) : Extends row.blockId [row.position] db db' := by
  rcases Table.rows_insert_cases db.transactions row with ⟨hrows, hfree⟩ | ⟨hsame, -⟩
  swap
  · exact .of_tables (htx.trans hsame) hraw
  have hcalls : ∀ k, db'.callsOf k
      = db.callsOf k ++ if k = row.blockId then [(row.position, 0)] else [] := by
    intro k
    rw [callsOf, transactionsOf, htx, hrows, List.filter_append, List.map_append,
      List.filter_singleton]
    by_cases hk : k = row.blockId
    · simp [hk, hflag, callsOf, transactionsOf]
    · simp [hk, Ne.symm hk, callsOf, transactionsOf]
  refine ⟨fun k p => ?_, fun k p hp => ?_, hraw⟩
  · rw [Db.flagOn, Db.flagOn, hcalls, flagAt, List.foldl_append]
    split_ifs with hk
    swap
    · rfl
    rw [List.foldl_cons, List.foldl_nil]
    split_ifs with hp
    swap
    · rfl
    refine (flagAt_of_not_mem fun c hc hcp => ?_).symm
    obtain ⟨t, ht, hb, rfl⟩ := mem_callsOf.mp hc
    have hclash : Row.clash t row = true :=
      decide_eq_true (Or.inr (Prod.ext (hb.trans hk) (hcp.trans hp.symm)))
    exact Bool.false_ne_true ((hfree t ht).symm.trans hclash)
  · rw [Db.positionsOf, hcalls, List.map_append] at hp
    rcases List.mem_append.mp hp with hp | hp
    · exact Or.inl hp
    · split_ifs at hp with hk
      · exact Or.inr ⟨hk, hp⟩
      · exact absurd hp List.not_mem_nil

/-- So is one of a body. -/
theorem extends_insertTransaction {blockId : ℕ} {tx : BlockTransactionInfo}
    (h : insertTransaction blockId db tx = .ok db') :
    Extends blockId [tx.position.toNat] db db' := by
  simp only [insertTransaction, bind_ok, pure_ok] at h
  obtain ⟨_, _, rfl⟩ := h
  let row := transactionRow (db.transactions.nextId TransactionRow.id) blockId tx
  exact @Extends.of_insert db _ row rfl rfl rfl

/-- One after the other. -/
theorem Extends.trans {blockId : ℕ} {ps qs : List ℕ} {db₁ : Db} (h : Extends blockId ps db db₁)
    (h' : Extends blockId qs db₁ db') : Extends blockId (ps ++ qs) db db' where
  flagOn k p := (h'.flagOn k p).trans (h.flagOn k p)
  positionsOf k p hp := by
    rcases h'.positionsOf k p hp with hp | ⟨hk, hp⟩
    · exact (h.positionsOf k p hp).imp_right fun ⟨hk, hp⟩ => ⟨hk, List.mem_append_left _ hp⟩
    · exact Or.inr ⟨hk, List.mem_append_right _ hp⟩
  rawBlocks := h'.rawBlocks.trans h.rawBlocks

theorem Extends.congr {blockId : ℕ} {ps : List ℕ} {db₁ db₂ : Db} (h : Extends blockId ps db₁ db₂)
    (htx : db₁.transactions = db.transactions) (hraw : db₁.rawBlocks = db.rawBlocks)
    (htx' : db'.transactions = db₂.transactions) (hraw' : db'.rawBlocks = db₂.rawBlocks) :
    Extends blockId ps db db' := by
  refine ⟨fun k p => ?_, fun k p hp => ?_, hraw'.trans (h.rawBlocks.trans hraw)⟩
  · rw [flagOn_congr htx', h.flagOn, flagOn_congr htx]
  · rw [positionsOf_congr htx'] at hp
    exact positionsOf_congr htx ▸ h.positionsOf k p hp

/-- All of a body, by induction on it. -/
theorem extends_insertAll {blockId : ℕ} : ∀ {txs : List BlockTransactionInfo} {db : Db},
    txs.foldlM (insertTransaction blockId) db = .ok db' →
      Extends blockId (txs.map fun tx => tx.position.toNat) db db'
  | [], db, h => by
      obtain rfl := pure_ok.mp h
      exact .of_tables rfl rfl
  | tx :: txs, db, h => by
      rw [List.foldlM_cons, bind_ok] at h
      obtain ⟨db₁, h₁, h₂⟩ := h
      exact (extends_insertTransaction h₁).trans (extends_insertAll h₂)

/-- The positions of a body. -/
def positions (body : RetainedBlockInfo) : List ℕ :=
  body.transactions.map fun tx => tx.position.toNat

/-- **A body adds its positions**, none of them flagged. -/
theorem extends_insertTransactions {blockId : ℕ} {retained : RetainedBlockInfo}
    (h : db.insertTransactions blockId retained = .ok db') :
    Extends blockId (positions retained) db db' := by
  simp only [insertTransactions, bind_ok] at h
  obtain ⟨-, -, h⟩ := h
  exact (extends_insertAll h).congr rfl rfl rfl rfl

/-- **What storing a block does to the flags**: the body goes into a block by its id; the row of a
block that was not on record is that of its height and hash, or a new one. -/
theorem extends_storeBlock {details : BlockDetailsInfo} {source : String} {now : Instant}
    (h : db.storeBlock details source now = .ok db') :
    db'.transactions = db.transactions ∧ db'.rawBlocks = db.rawBlocks
      ∨ ∃ id, Extends id (details.retained.elim [] positions) db db'
        ∧ (db.isOnRecord details.header
            ∧ db.uncapturedBlockId details.header.height details.header.hash = some id
          ∨ ¬ db.isOnRecord details.header
            ∧ id = db.ledger.entryId details.header.height details.header.hash) := by
  simp only [storeBlock, bind_ok, orError_ok] at h
  obtain ⟨retained, hret, h⟩ := h
  rw [hret]
  split_ifs at h with hrec
  · split at h
    · obtain rfl := pure_ok.mp h
      exact Or.inl ⟨rfl, rfl⟩
    · next id hid =>
      simp only [bind_ok, pure_ok] at h
      obtain ⟨db₁, h₁, rfl⟩ := h
      exact Or.inr ⟨id, (extends_insertTransactions h₁).congr rfl rfl rfl rfl, Or.inl ⟨hrec, hid⟩⟩
  · simp only [bind_ok] at h
    obtain ⟨⟨db₁, id⟩, h₁, h₂⟩ := h
    refine Or.inr ⟨id, ?_, Or.inr ⟨hrec, (ledger_insertBlockHeaderRow h₁).2⟩⟩
    simp only [insertBlockHeaderRow, bind_ok, pure_ok, Prod.mk.injEq] at h₁
    obtain ⟨_, _, rfl, _⟩ := h₁
    exact (extends_insertTransactions h₂).congr rfl rfl rfl rfl

/-! ## Keeping bytes -/

/-- The block of a height and hash. -/
theorem blockId_iff {height : ℕ} {hash : String} {e : Entry} (he : e ∈ db.ledger.entries.rows) :
    db.blockId height hash = some e.id ↔ e.height = height ∧ e.hash = hash := by
  rw [blockId_ledger]
  constructor
  · intro h
    obtain ⟨e', he', hid⟩ := Option.map_eq_some_iff.mp h
    obtain rfl := Ledger.eq_of_id (List.mem_of_find?_eq_some he') he hid
    simpa using List.find?_some he'
  · rintro ⟨rfl, rfl⟩
    rw [Ledger.find_eq_some he rfl rfl, Option.map_some]

/-- What `blockId` finds is on record. -/
theorem mem_of_blockId {height id : ℕ} {hash : String} (h : db.blockId height hash = some id) :
    ∃ e ∈ db.ledger.entries.rows, e.id = id ∧ e.height = height ∧ e.hash = hash := by
  rw [blockId_ledger] at h
  obtain ⟨e, he, rfl⟩ := Option.map_eq_some_iff.mp h
  exact ⟨e, List.mem_of_find?_eq_some he, rfl, by simpa using List.find?_some he⟩

end Db

/-- The row holds `bytes`, as they are kept. -/
def RawBlockRow.Holds (r : RawBlockRow) (N : Noid) (bytes : List UInt8) : Prop :=
  r.codec = Permanode.codec ∧ r.rawLen = bytes.length ∧ r.data = N.deflate bytes

namespace Db

/-- Bytes were kept for `(height, hash)`, or nothing was done. -/
structure KeepsBytes (N : Noid) (height : ℕ) (hash : String) (raw : Option (List UInt8))
    (db db' : Db) : Prop where
  entries : db'.ledger.entries = db.ledger.entries
  transactions : db'.transactions = db.transactions
  rawBlocks : ∀ r ∈ db'.rawBlocks.rows, r ∈ db.rawBlocks.rows
    ∨ ∃ bytes, raw = some bytes ∧ r.Holds N bytes ∧ ¬ db.hasRawBlock r.blockId
      ∧ db.blockId height hash = some r.blockId ∧ verify N bytes height hash = .ok ()

variable {N : Noid} {height : ℕ} {hash source : String} {bytes : List UInt8} {now : Instant}

/-- Nothing is kept. -/
theorem KeepsBytes.refl (raw : Option (List UInt8)) (db : Db) :
    KeepsBytes N height hash raw db db :=
  ⟨rfl, rfl, fun _ hr => Or.inl hr⟩

/-- **Bytes that are stored have been verified.** -/
theorem keepsBytes_storeRaw {stored : Bool}
    (h : db.storeRaw N height hash bytes source now = .ok (db', stored)) :
    KeepsBytes N height hash (some bytes) db db' := by
  have hentries := congrArg Ledger.entries (ledger_storeRaw h)
  unfold storeRaw at h
  split at h
  · obtain ⟨rfl, -⟩ := Prod.mk.inj (Except.ok.inj h)
    exact .refl _ db
  · next id hid =>
    split_ifs at h with hhas
    · obtain ⟨rfl, -⟩ := Prod.mk.inj (Except.ok.inj h)
      exact .refl _ db
    · simp only [bind_ok, pure_ok, Prod.mk.injEq] at h
      obtain ⟨_, hverify, rfl, -⟩ := h
      refine ⟨hentries, rfl, fun r hr => (Table.mem_insert hr).imp_right fun hr => ?_⟩
      subst hr
      exact ⟨bytes, rfl, ⟨rfl, rfl, rfl⟩, hhas, hid, hverify⟩

/-- So have those that are kept if they prove to be the block. -/
theorem keepsBytes_keepRaw (N : Noid) (cfg : Config) (db : Db) (height : ℕ) (hash : String)
    (raw : Option (List UInt8)) (source : String) (now : Instant) :
    KeepsBytes N height hash raw db (db.keepRaw N cfg height hash raw source now) := by
  unfold keepRaw
  split_ifs
  · split
    · exact .refl _ db
    · split
      · next h => exact keepsBytes_storeRaw h
      · exact .refl _ db
  · exact .refl _ db

end Db

/-! ## The flag that says a body is on record -/

/-- The operation sets the flag of the block `id`. -/
def Op.Fills (id : ℕ) : Op → Prop
  | .fill blockId _ _ => blockId = id
  | _ => False

/-- A block whose flag is set was set before, or is filled, or is new. -/
def Ledger.CapturedFrom (fills : ℕ → Prop) (l l' : Ledger) : Prop :=
  ∀ e' ∈ l'.entries.rows, e'.captured → (∀ e ∈ l.entries.rows, e.id ≠ e'.id)
    ∨ ∃ e ∈ l.entries.rows, e.id = e'.id ∧ e.height = e'.height ∧ e.hash = e'.hash
      ∧ (e.captured ∨ fills e.id)

/-- More may be filled. -/
theorem Ledger.CapturedFrom.mono {fills fills' : ℕ → Prop} {l l' : Ledger}
    (h : CapturedFrom fills l l') (hf : ∀ id, fills id → fills' id) : CapturedFrom fills' l l' :=
  fun e he hc => (h e he hc).imp_right fun ⟨e₀, he₀, hi, hh, hs, hc₀⟩ =>
    ⟨e₀, he₀, hi, hh, hs, hc₀.imp_right (hf _)⟩

/-- Nothing is, if every block with its body had it before. -/
theorem Ledger.capturedFrom_of_mem {fills : ℕ → Prop} {l l' : Ledger}
    (h : ∀ e ∈ l'.entries.rows, e.captured → e ∈ l.entries.rows) : CapturedFrom fills l l' :=
  fun e he hc => Or.inr ⟨e, h e he hc, rfl, rfl, rfl, Or.inl hc⟩

/-- A block that is entered is new. -/
theorem Ledger.capturedFrom_enter (fills : ℕ → Prop) (l : Ledger) (height : ℕ) (hash : String)
    (archived captured : Bool) : CapturedFrom fills l (l.enter height hash archived captured) := by
  intro e he hc
  rcases enter_cases l height hash archived captured with ⟨_, _, _, _, _, hrows⟩ | ⟨_, _, hrows⟩
  · exact Or.inr ⟨e, hrows ▸ he, rfl, rfl, rfl, Or.inl hc⟩
  · rcases List.mem_append.mp (hrows ▸ he) with he | he
    · exact Or.inr ⟨e, he, rfl, rfl, rfl, Or.inl hc⟩
    · obtain rfl := List.mem_singleton.mp he
      exact Or.inl fun e he => (Table.lt_nextId he).ne

/-- **Where the flag of a block comes from.** -/
theorem Op.capturedFrom_apply (op : Op) (l : Ledger) :
    Ledger.CapturedFrom (fun id => op.Fills id) l (op.apply l) := by
  match op with
  | .enterBody height hash _ =>
    exact Ledger.capturedFrom_enter (fun _ => False) l height hash true true
  | .enterGap height hash =>
    exact Ledger.capturedFrom_enter (fun _ => False) l height hash true false
  | .enterHeader height hash =>
    rw [Op.apply]
    split_ifs
    · exact Ledger.capturedFrom_of_mem fun _ he _ => he
    · exact Ledger.capturedFrom_enter _ l height hash false false
  | .fill id height _ =>
    intro e he hc
    obtain ⟨e₀, he₀, ⟨-, rfl⟩ | ⟨rfl, rfl⟩⟩ := Ledger.mem_setFlags.mp he
    · exact Or.inr ⟨e, he₀, rfl, rfl, rfl, Or.inl hc⟩
    · exact Or.inr ⟨e₀, he₀, rfl, rfl, rfl, Or.inr rfl⟩
  | .prune id =>
    refine Ledger.capturedFrom_of_mem fun e he hc => ?_
    obtain ⟨e₀, he₀, ⟨-, rfl⟩ | ⟨-, rfl⟩⟩ := Ledger.mem_setFlags.mp he
    · exact he₀
    · exact absurd hc Bool.false_ne_true
  | .orphan _ | .openGap _ | .closeBodied => exact Ledger.capturedFrom_of_mem fun _ he _ => he
  | .attach _ =>
    rw [Op.apply]
    split_ifs
    · exact Ledger.capturedFrom_of_mem fun _ he _ => he
    · exact Ledger.capturedFrom_of_mem fun _ he _ => he

/-- **Only the operations that fill bodies do**, by induction on their list. -/
theorem Op.capturedFrom_applyAll : ∀ (ops : List Op) (l : Ledger),
    Ledger.CapturedFrom (fun id => ∃ op ∈ ops, op.Fills id) l (applyAll ops l)
  | [], _ => Ledger.capturedFrom_of_mem fun _ he _ => he
  | op :: ops, l => by
      intro e' he' hc'
      rcases capturedFrom_applyAll ops (op.apply l) e' he' hc' with
        hnew | ⟨e₁, he₁, hi₁, hh₁, hs₁, hc₁⟩
      · refine Or.inl fun e he => ?_
        obtain ⟨e₁, he₁, hi, -⟩ := op.grows_apply e he
        exact hi ▸ hnew e₁ he₁
      rcases hc₁ with hc₁ | ⟨o, ho, hfill⟩
      · rcases op.capturedFrom_apply l e₁ he₁ hc₁ with hnew | ⟨e, he, hi, hh, hs, hc⟩
        · exact Or.inl fun e he => hi₁ ▸ hnew e he
        · refine Or.inr ⟨e, he, hi.trans hi₁, hh.trans hh₁, hs.trans hs₁, hc.imp_right fun hf => ?_⟩
          exact ⟨op, List.mem_cons_self, hf⟩
      · by_cases hold : ∃ e ∈ l.entries.rows, e.id = e₁.id
        · obtain ⟨e, he, hid⟩ := hold
          obtain ⟨e₂, he₂, hi, hh, hs, -⟩ := op.grows_apply e he
          obtain rfl := Ledger.eq_of_id he₂ he₁ (hi.trans hid)
          refine Or.inr ⟨e, he, hid.trans hi₁, hh.symm.trans hh₁, hs.symm.trans hs₁, Or.inr ?_⟩
          exact ⟨o, List.mem_cons_of_mem _ ho, hid ▸ hfill⟩
        · push Not at hold
          exact Or.inl fun e he => hi₁ ▸ hold e he

end Permanode
