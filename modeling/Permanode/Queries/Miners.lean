import Mathlib.Data.String.Basic
import Permanode.Foundations.Ranking
import Permanode.Ledger.HeaderRun
import Permanode.Ledger.HeaderStatus

/-!
# Queries/Miners — who mined the blocks

`miners`, `blocks_mined` (`core/src/queries.rs`).  They count blocks without the status lookup for
header-only rows (`Db.canonicalOrHeaderOnly`); in every run that selects the canonical blocks
(`Execution.canonicalOrHeaderOnly`), so the report ranks the miners by their canonical blocks.  A
miner's share of the blocks, a floating-point quotient of two of its fields, is left out.
-/

namespace Permanode

/-- `BlocksMined`. -/
structure BlocksMined where
  count : ℕ
  firstHeight : Option ℕ
  lastHeight : Option ℕ
  countedFromHeight : Option ℕ
  deriving DecidableEq, Repr

/-- `MinerEntry`. -/
structure MinerEntry where
  address : String
  blocks : ℕ
  firstHeight : ℕ
  lastHeight : ℕ
  deriving DecidableEq, Repr

/-- `MinersReport`. -/
structure MinersReport where
  sinceTimestamp : Option ℤ
  blocks : ℕ
  fromHeight : Option ℕ
  toHeight : Option ℕ
  complete : Bool
  countedFromHeight : Option ℕ
  minerCount : ℕ
  miners : List MinerEntry
  deriving DecidableEq, Repr

/-- The order of a ranking: more blocks first, then the later last block. -/
def MinerEntry.Precedes (a b : MinerEntry) : Prop :=
  b.blocks < a.blocks ∨ b.blocks = a.blocks ∧ b.lastHeight ≤ a.lastHeight

instance (a b : MinerEntry) : Decidable (a.Precedes b) := inferInstanceAs (Decidable (_ ∨ _ ∧ _))

instance : Std.Total MinerEntry.Precedes := ⟨fun a b => by unfold MinerEntry.Precedes; omega⟩

instance : IsTrans MinerEntry MinerEntry.Precedes :=
  ⟨fun a b c => by unfold MinerEntry.Precedes; omega⟩

namespace Db

/-- `CANONICAL_OR_HEADER_ONLY`. -/
def canonicalOrHeaderOnly (db : Db) (b : BlockRow) : Bool := !b.archived || db.isCanonical b.id

/-- The lowest height a mining count can cover. -/
def lowestMinedHeight (db : Db) : Option ℕ := db.lowestRecordedHeight.map (max · 1)

/-- `blocks_mined`. -/
def blocksMined (db : Db) (address : String) : BlocksMined :=
  let heights := (db.blocks.rows.filter fun b =>
    b.miner = address ∧ 1 ≤ b.height ∧ db.canonicalOrHeaderOnly b).map BlockRow.height
  ⟨heights.length, heights.min?, heights.max?, db.lowestMinedHeight⟩

/-- The row of a miner, with the blocks of his group. -/
def minerEntry (g : String × List BlockRow) : MinerEntry where
  address := g.1
  blocks := g.2.length
  firstHeight := Sql.minOf BlockRow.height g.2
  lastHeight := Sql.maxOf BlockRow.height g.2

/-- Whether a block is from `sinceUnix` on. -/
def isSince (sinceUnix : Option ℤ) (b : BlockRow) : Bool := sinceUnix.all (· ≤ b.timestamp.toInt)

/-- The rows of the query, one a miner. -/
def minerEntries (db : Db) (sinceUnix : Option ℤ) : List MinerEntry :=
  (Sql.groups BlockRow.miner (db.blocks.rows.filter fun b =>
    isSince sinceUnix b ∧ 1 ≤ b.height ∧ db.canonicalOrHeaderOnly b)).map minerEntry

/-- `miners`. -/
def miners (db : Db) (sinceUnix : Option ℤ) (limit : ℕ) : MinersReport :=
  let entries := db.minerEntries sinceUnix
  { sinceTimestamp := sinceUnix
    blocks := (entries.map MinerEntry.blocks).sum
    fromHeight := (entries.map MinerEntry.firstHeight).min?
    toHeight := (entries.map MinerEntry.lastHeight).max?
    complete := match sinceUnix with
      | none => db.lowestMinedHeight = some 1
      | some since => ((db.blocks.rows.map fun b => b.timestamp.toInt).min?).any (· ≤ since)
    countedFromHeight := db.lowestMinedHeight
    minerCount := entries.length
    miners := ranked MinerEntry.Precedes limit entries }

/-- The blocks a period's report is about: canonical, from `sinceUnix` on, genesis excepted. -/
def minedBlocks (db : Db) (sinceUnix : Option ℤ) : List BlockRow :=
  db.blocks.rows.filter fun b => isSince sinceUnix b ∧ 1 ≤ b.height ∧ db.isCanonical b.id

/-- The blocks of the report that a miner mined. -/
def minedBy (db : Db) (sinceUnix : Option ℤ) (address : String) : List BlockRow :=
  (db.minedBlocks sinceUnix).filter fun b => b.miner = address

end Db

/-- What a report of the miners says of the canonical blocks: how many there are and of which
heights, how many miners, and of the first of these, ranked, which blocks they mined. -/
structure MinersReport.Exact (db : Db) (limit : ℕ) (r : MinersReport) : Prop where
  blocks : r.blocks = (db.minedBlocks r.sinceTimestamp).length
  fromHeight : r.fromHeight = ((db.minedBlocks r.sinceTimestamp).map BlockRow.height).min?
  toHeight : r.toHeight = ((db.minedBlocks r.sinceTimestamp).map BlockRow.height).max?
  minerCount : r.minerCount = ((db.minedBlocks r.sinceTimestamp).map BlockRow.miner).dedup.length
  listed : r.miners.length = min limit r.minerCount
  once : (r.miners.map MinerEntry.address).Nodup
  entry : ∀ e ∈ r.miners, e = Db.minerEntry (e.address, db.minedBy r.sinceTimestamp e.address)
    ∧ 0 < e.blocks
  ordered : r.miners.Pairwise MinerEntry.Precedes
  first : ∀ e ∈ r.miners, ∀ b ∈ db.minedBlocks r.sinceTimestamp,
    b.miner ∉ r.miners.map MinerEntry.address →
      (db.minedBy r.sinceTimestamp b.miner).length ≤ e.blocks

/-! ## Along a run -/

section Run

variable {N : Noid} {cfg : Config} {allow : ∀ q : Query, q.Answer → Prop}
  {tr : List (Db × Txn × Db)} {c : Prog.Config Query Query.Answer Db Txn String Thread}

/-- **What the quick filter selects is canonical, and all of it.** -/
theorem Execution.canonicalOrHeaderOnly (h : Execution N cfg allow tr c) {b : BlockRow}
    (hb : b ∈ c.store.blocks.rows) : c.store.canonicalOrHeaderOnly b
    = c.store.isCanonical b.id := by
  rcases ha : b.archived with _ | _
  · rw [Db.canonicalOrHeaderOnly, ha, h.isCanonical_header hb ha]
    rfl
  · rw [Db.canonicalOrHeaderOnly, ha]
    rfl

/-- The rows of the query are groups of canonical blocks. -/
theorem Execution.minerEntries (h : Execution N cfg allow tr c) (sinceUnix : Option ℤ) :
    c.store.minerEntries sinceUnix
      = (Sql.groups BlockRow.miner (c.store.minedBlocks sinceUnix)).map Db.minerEntry := by
  rw [Db.minerEntries, Db.minedBlocks]
  refine congrArg (fun rows => (Sql.groups BlockRow.miner rows).map Db.minerEntry) ?_
  exact List.filter_congr fun b hb => by rw [h.canonicalOrHeaderOnly hb]

/-- There is one for each miner of these. -/
theorem Execution.map_address (h : Execution N cfg allow tr c) (sinceUnix : Option ℤ) :
    (c.store.minerEntries sinceUnix).map MinerEntry.address
      = (Sql.groups BlockRow.miner (c.store.minedBlocks sinceUnix)).map Prod.fst := by
  rw [h.minerEntries, List.map_map]
  rfl

/-- An entry is of the blocks its miner mined. -/
theorem Execution.minerEntry (h : Execution N cfg allow tr c) {sinceUnix : Option ℤ}
    {e : MinerEntry} (he : e ∈ c.store.minerEntries sinceUnix) :
    e = Db.minerEntry (e.address, c.store.minedBy sinceUnix e.address) ∧ 0 < e.blocks := by
  rw [h.minerEntries] at he
  obtain ⟨g, hg, rfl⟩ := List.mem_map.mp he
  refine ⟨?_, List.length_pos_iff.mpr (Sql.group_ne_nil hg)⟩
  exact congrArg Db.minerEntry (Prod.ext rfl (Sql.rows_of_group hg))

/-- **The report ranks the miners by their canonical blocks.** -/
theorem Execution.exact_miners (h : Execution N cfg allow tr c) (sinceUnix : Option ℤ)
    (limit : ℕ) : (c.store.miners sinceUnix limit).Exact c.store limit where
  blocks := by
    change ((c.store.minerEntries sinceUnix).map MinerEntry.blocks).sum = _
    rw [h.minerEntries, List.map_map]
    exact Sql.sum_length_of_groups
  fromHeight := by
    change ((c.store.minerEntries sinceUnix).map MinerEntry.firstHeight).min? = _
    rw [h.minerEntries, List.map_map]
    exact @Sql.min?_groups BlockRow String _ BlockRow.miner _ BlockRow.height
  toHeight := by
    change ((c.store.minerEntries sinceUnix).map MinerEntry.lastHeight).max? = _
    rw [h.minerEntries, List.map_map]
    exact @Sql.max?_groups BlockRow String _ BlockRow.miner _ BlockRow.height
  minerCount := by
    change (c.store.minerEntries sinceUnix).length = _
    rw [h.minerEntries, List.length_map]
    exact Sql.length_groups
  listed := length_ranked
  once := by
    have hnodup : ((c.store.minerEntries sinceUnix).map MinerEntry.address).Nodup := by
      rw [h.map_address]
      exact Sql.nodup_groups
    have hsorted := ((List.perm_insertionSort MinerEntry.Precedes
      (c.store.minerEntries sinceUnix)).map MinerEntry.address).nodup_iff.mpr hnodup
    exact hsorted.sublist (ranked_sublist.map MinerEntry.address)
  entry e he := h.minerEntry (mem_of_ranked he)
  ordered := pairwise_ranked
  first e he b hb hcut := by
    have hmem : b.miner ∈ (c.store.minerEntries sinceUnix).map MinerEntry.address := by
      rw [h.map_address]
      exact Sql.mem_map_fst_groups.mpr ⟨b, hb, rfl⟩
    obtain ⟨e', he', haddr⟩ := List.mem_map.mp hmem
    -- the entry of the block's miner is one that was cut off
    have hle : e'.blocks ≤ e.blocks := by
      rcases ranked_before he he' fun hr => hcut (List.mem_map.mpr ⟨e', hr, haddr⟩)
        with hlt | ⟨heq, -⟩
      · exact hlt.le
      · exact heq.le
    rwa [(h.minerEntry he').1, haddr] at hle

/-- **The count of one miner is of his canonical blocks.** -/
theorem Execution.blocksMined_eq (h : Execution N cfg allow tr c) (address : String) :
    c.store.blocksMined address
      = ⟨(c.store.minedBy none address).length,
          ((c.store.minedBy none address).map BlockRow.height).min?,
          ((c.store.minedBy none address).map BlockRow.height).max?,
          c.store.lowestMinedHeight⟩ := by
  have hrows : (c.store.blocks.rows.filter fun b =>
      b.miner = address ∧ 1 ≤ b.height ∧ c.store.canonicalOrHeaderOnly b)
      = c.store.minedBy none address := by
    rw [Db.minedBy, Db.minedBlocks, List.filter_filter]
    refine List.filter_congr fun b hb => ?_
    rw [h.canonicalOrHeaderOnly hb]
    simp [Db.isSince]
  simp only [Db.blocksMined, hrows, List.length_map]

/-- **The mining figures are of the canonical blocks**, in every run: the quick filter selects
exactly these, and so do the report of a period, however short, and the count of one miner. -/
theorem Execution.mining_figures (h : Execution N cfg allow tr c) :
    (∀ b ∈ c.store.blocks.rows, c.store.canonicalOrHeaderOnly b = c.store.isCanonical b.id)
      ∧ (∀ sinceUnix limit, (c.store.miners sinceUnix limit).Exact c.store limit)
      ∧ ∀ address, c.store.blocksMined address
        = ⟨(c.store.minedBy none address).length,
            ((c.store.minedBy none address).map BlockRow.height).min?,
            ((c.store.minedBy none address).map BlockRow.height).max?, c.store.lowestMinedHeight⟩ :=
  ⟨fun _ => h.canonicalOrHeaderOnly, h.exact_miners, h.blocksMined_eq⟩

end Run

open Prog

/-- A chain up to `tip` of whose first two blocks the node has no body. -/
def prunedChain (tip : ℕ) : List BlockDetailsInfo :=
  (List.range (tip + 1)).map fun k =>
    (if k < 2 then bareBlock else bodyBlock) k (Nat.repr k) (Nat.repr (k - 1))

/-- The archive begins at height 2 and grows until the first headers below it are final; then these
are copied. -/
def belowStints : List (Stint Query Query.Answer Db Txn String Thread) :=
  [⟨.indexer, pollOnce Noid.sample { reorgCheckDepth := 0 },
      fun _ => chainAnswers (prunedChain 2) 1, 60⟩,
    ⟨.indexer, pollOnce Noid.sample { reorgCheckDepth := 0 },
      fun _ => chainAnswers (prunedChain 20) 2, 400⟩,
    ⟨.headers, backfillHeaders 0, fun _ => chainAnswers (prunedChain 20) 3, 60⟩]

/-- The database after that. -/
def belowDb : Db := playAll (Txn.exec Noid.sample { reorgCheckDepth := 0 }) belowStints Db.empty

/-- They are a run. -/
theorem run_belowStints : Execution Noid.sample { reorgCheckDepth := 0 } anyAnswer
    (traceAll (Txn.exec Noid.sample { reorgCheckDepth := 0 }) belowStints Db.empty)
    (Config.idle belowDb) := by
  refine run_playAll Db.empty ?_
  simp only [belowStints, List.forall_mem_cons]
  exact ⟨⟨.poll, fun _ _ => trivial⟩, ⟨.poll, fun _ _ => trivial⟩, ⟨.headers, fun _ _ => trivial⟩,
    List.forall_mem_nil _⟩

/-- An archive of nineteen blocks and two headers below it: the one at height 1 is counted, and
genesis is not. -/
theorem Execution.mining_figures_below :
    (belowDb.blocks.rows.filter fun b => ¬ b.archived).map BlockRow.height = [1, 0]
      ∧ (belowDb.miners none 10).miners = [⟨"m", 20, 1, 20⟩]
      ∧ (∀ b ∈ belowDb.blocks.rows, belowDb.canonicalOrHeaderOnly b = belowDb.isCanonical b.id)
      ∧ (belowDb.miners none 10).Exact belowDb 10 := by
  obtain ⟨hfilter, hexact, -⟩ := Execution.mining_figures run_belowStints
  dsimp only [Config.idle] at hfilter hexact
  exact ⟨by decide +kernel, by decide +kernel, hfilter, hexact none 10⟩

end Permanode
