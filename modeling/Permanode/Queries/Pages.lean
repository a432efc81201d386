import Permanode.Foundations.Paging
import Permanode.Ledger.Canonical
import Permanode.Queries.AddUp
import Permanode.Queries.Stats

/-!
# Queries/Pages — the list of blocks, page by page

`recent_blocks` (`core/src/queries.rs`) and `get_blocks` (`permanode/src/serve.rs`): the canonical
blocks below a height, the newest first.  A reader goes on below the last block he has got
(`readDown`), while the archive grows, is reorganized and backfilled.  He misses no block that is
canonical all the time, and gets none twice, if a height has one canonical block at a time
(`readDown_changing`); where one has two, pages of some size lose one (`readDown_complete_iff`).
-/

namespace Permanode

/-- `BlockSummary`. -/
structure BlockSummary where
  height : ℕ
  hash : String
  timestamp : Int64
  miner : String
  proofClass : Option String
  rewardMicronoid : Option Int64
  totalFeesMicronoid : Option String
  txCount : ℕ
  bodyCaptured : Bool
  archived : Bool
  txCountTotal : Option ℕ
  contractCalls : ℕ
  seenAtMs : Option ℤ
  deriving DecidableEq, Repr

/-- `i64::MAX`. -/
def maxI64 : ℤ := 2 ^ 63 - 1

namespace Db

/-- The line of a block in a list. -/
def blockSummary (db : Db) (b : BlockRow) : BlockSummary where
  height := b.height
  hash := b.hash
  timestamp := b.timestamp
  miner := b.miner
  proofClass := b.proofClass
  rewardMicronoid := b.rewardMicronoid
  totalFeesMicronoid := b.totalFeesMicronoid
  txCount := (db.transactionsOf b.id).length
  bodyCaptured := b.bodyCaptured
  archived := b.archived
  txCountTotal := b.txCountTotal
  contractCalls := ((db.transactionsOf b.id).filter fun t => t.contractFlags ≠ 0).length
  seenAtMs := b.tipSeenAtMs

/-- The blocks whose latest status is `canonical`. -/
def canonicalBlocks (db : Db) : List BlockRow := db.blocks.rows.filter fun b => db.isCanonical b.id

/-- The height of a row, as a number of the database. -/
def heightOf (b : BlockRow) : ℤ := b.height

/-- Canonical blocks below `before` (all if there is none), newest first. -/
def recentBlocks (db : Db) (limit : ℕ) (before : Option ℤ) : List BlockSummary :=
  (Paging.page heightOf limit (before.getD maxI64) db.canonicalBlocks).map db.blockSummary

end Db

/-! ## The endpoint -/

/-- `FINAL_CONFIRMATIONS`. -/
def finalConfirmations : ℤ := 18

/-- The page of a request, and whether it may be cached as final. -/
def getBlocks (db : Db) (limit before : Option ℤ) : List BlockSummary × Bool :=
  let limit := max 1 (min 200 (limit.getD 25))
  let blocks := db.recentBlocks limit.toNat before
  let completePage := blocks.length = limit ∨ blocks.getLast?.any fun b => b.height = 0
  let newestFinal := blocks.head?.any fun b =>
    db.indexedTip.any fun t => finalConfirmations ≤ t - b.height + 1
  (blocks, before.isSome && completePage && newestFinal)

/-- The pages of a reader who goes on below the last block he has got, each from the database as it
then is; an empty page is his last. -/
def readDown (limit : ℕ) : Option ℤ → List Db → List (List BlockSummary)
  | _, [] => []
  | before, db :: later =>
    let blocks := db.recentBlocks limit before
    blocks :: (blocks.getLast?.elim [] fun b => readDown limit (some (b.height : ℤ)) later)

/-! ## What a reader gets -/

namespace BlockSummary

/-- The height, as a number of the database. -/
def key (b : BlockSummary) : ℤ := b.height

/-- Which block a summary is of. -/
def ident (b : BlockSummary) : ℕ × String := (b.height, b.hash)

end BlockSummary

/-- What a page goes by. -/
def identKey (b : ℕ × String) : ℤ := b.1

theorem identKey_ident (s : BlockSummary) : identKey s.ident = s.key := rfl

namespace Db

/-- The canonical blocks, summed up. -/
def canonicalSummaries (db : Db) : List BlockSummary := db.canonicalBlocks.map db.blockSummary

/-- Whether a block is canonical. -/
def HasCanonical (db : Db) (b : ℕ × String) : Prop :=
  ∃ r ∈ db.blocks.rows, db.isCanonical r.id ∧ r.height = b.1 ∧ r.hash = b.2

variable {db : Db} {limit : ℕ} {before : Option ℤ}

theorem recentBlocks_eq : db.recentBlocks limit before
    = Paging.page BlockSummary.key limit (before.getD maxI64) db.canonicalSummaries :=
  Paging.map_page fun _ => rfl

theorem mem_canonicalIdents {b : ℕ × String} :
    b ∈ db.canonicalSummaries.map BlockSummary.ident ↔ db.HasCanonical b := by
  simp only [canonicalSummaries, canonicalBlocks, List.map_map, List.mem_map, List.mem_filter]
  constructor
  · rintro ⟨r, ⟨hr, hc⟩, rfl⟩
    exact ⟨r, hr, hc, rfl, rfl⟩
  · rintro ⟨r, hr, hc, hh, hhash⟩
    exact ⟨r, ⟨hr, hc⟩, Prod.ext hh hhash⟩

theorem nodup_blocks (db : Db) : db.blocks.rows.Nodup :=
  db.blocks.unique.imp fun h heq => by simp [Row.clash, heq] at h

/-- **One canonical block a height is distinct heights of the list.** -/
theorem oneCanonical_iff_nodup :
    db.OneCanonical ↔ (db.canonicalSummaries.map BlockSummary.key).Nodup := by
  have hheights : db.canonicalSummaries.map BlockSummary.key = db.canonicalBlocks.map heightOf := by
    rw [canonicalSummaries, List.map_map]
    rfl
  rw [hheights]
  constructor
  · intro h
    refine (db.nodup_blocks.filter _).map_on fun b hb c hc heq => ?_
    obtain ⟨hb, hbc⟩ := List.mem_filter.mp hb
    obtain ⟨hc, hcc⟩ := List.mem_filter.mp hc
    exact h b hb c hc (Int.ofNat_inj.mp heq) hbc hcc
  · intro h b hb c hc heq hbc hcc
    exact List.inj_on_of_nodup_map h (List.mem_filter.mpr ⟨hb, hbc⟩)
      (List.mem_filter.mpr ⟨hc, hcc⟩) (congrArg Nat.cast heq)

end Db

variable {limit : ℕ}

/-- **The reader's pages are a walk** through the canonical blocks. -/
theorem readDown_eq : ∀ {dbs : List Db} {before : Option ℤ}, readDown limit before dbs
    = Paging.walk BlockSummary.key limit (before.getD maxI64) (dbs.map Db.canonicalSummaries)
  | [], _ => rfl
  | db :: dbs, before => by
      rw [readDown, List.map_cons, Paging.walk_cons, ← Db.recentBlocks_eq]
      rcases (db.recentBlocks limit before).getLast? with _ | b
      · rfl
      · exact congrArg _ readDown_eq

/-- **Paging through an archive that stays as it is shows every canonical block once, by pages of
any size, if and only if a height has one canonical block.** -/
theorem readDown_complete_iff {db : Db} {n : ℕ} (hn : db.canonicalBlocks.length < n)
    (hheights : ∀ b ∈ db.blocks.rows, (b.height : ℤ) < maxI64) :
    (∀ limit, 0 < limit →
      (readDown limit none (List.replicate n db)).flatten.Perm db.canonicalSummaries)
      ↔ db.OneCanonical := by
  have hbefore : ∀ s ∈ db.canonicalSummaries, s.key < maxI64 := fun s hs => by
    obtain ⟨b, hb, rfl⟩ := List.mem_map.mp hs
    exact hheights b (List.mem_of_mem_filter hb)
  have hlen : db.canonicalSummaries.length < n := by rwa [Db.canonicalSummaries, List.length_map]
  simp only [readDown_eq, List.map_replicate, Option.getD_none]
  exact (Paging.walk_perm_iff hbefore hlen).trans Db.oneCanonical_iff_nodup.symm

/-- The pages of an archive of two blocks. -/
theorem readDown_complete_settled :
    (readDown 1 none (List.replicate 3 settledCoin)).flatten.Perm
      settledCoin.canonicalSummaries := by
  have hlen : settledCoin.canonicalBlocks.length < 3 := by decide +kernel
  have hheights : ∀ b ∈ settledCoin.blocks.rows, (b.height : ℤ) < maxI64 := by decide +kernel
  exact (readDown_complete_iff hlen hheights).mpr (by decide +kernel) 1 one_pos

/-- **A reader who pages down while the archive changes** gets no block twice, and none that was not
canonical when he came by; and a block that is canonical all the time he gets, unless he stopped
above it: where a height has one canonical block at a time. -/
theorem readDown_changing {dbs : List Db} (hone : ∀ db ∈ dbs, db.OneCanonical) (hlimit : 0 < limit)
    (before : Option ℤ) :
    ((readDown limit before dbs).flatten.Pairwise fun a b => b.height < a.height)
      ∧ (∀ s ∈ (readDown limit before dbs).flatten, ∃ db ∈ dbs, db.HasCanonical s.ident)
      ∧ ∀ b : ℕ × String, (∀ db ∈ dbs, db.HasCanonical b) → (b.1 : ℤ) < before.getD maxI64 →
        b ∈ (readDown limit before dbs).flatten.map BlockSummary.ident
          ∨ (readDown limit before dbs).length = dbs.length
            ∧ (∀ p ∈ readDown limit before dbs, p.length = limit)
            ∧ ∀ s ∈ (readDown limit before dbs).flatten, b.1 < s.height := by
  have hkeys : ∀ rows ∈ dbs.map Db.canonicalSummaries, (rows.map BlockSummary.key).Nodup :=
    List.forall_mem_map.mpr fun db hdb => Db.oneCanonical_iff_nodup.mp (hone db hdb)
  rw [readDown_eq]
  refine ⟨?_, fun s hs => ?_, fun b hb hlt => ?_⟩
  · refine (Paging.pairwise_walk fun rows h _ => Paging.pairwise_page_lt (hkeys rows h)).imp ?_
    exact fun h => Int.ofNat_lt.mp h
  · obtain ⟨-, rows, hrows, hmem⟩ := Paging.mem_walk_flatten hs
    obtain ⟨db, hdb, rfl⟩ := List.mem_map.mp hrows
    exact ⟨db, hdb, Db.mem_canonicalIdents.mp (List.mem_map_of_mem hmem)⟩
  -- the same walk by height and hash, in which the block is the same row all the time
  · have hmap : (Paging.walk BlockSummary.key limit (before.getD maxI64)
          (dbs.map Db.canonicalSummaries)).map (·.map BlockSummary.ident)
        = Paging.walk identKey limit (before.getD maxI64)
          ((dbs.map Db.canonicalSummaries).map (·.map BlockSummary.ident)) :=
      Paging.map_walk identKey_ident
    have hsources : ∀ rows ∈ (dbs.map Db.canonicalSummaries).map (·.map BlockSummary.ident),
        (rows.map identKey).Nodup ∧ b ∈ rows := by
      intro rows h
      obtain ⟨_, hs, rfl⟩ := List.mem_map.mp h
      obtain ⟨db, hdb, rfl⟩ := List.mem_map.mp hs
      refine ⟨?_, Db.mem_canonicalIdents.mpr (hb db hdb)⟩
      rw [List.map_map]
      exact Db.oneCanonical_iff_nodup.mp (hone db hdb)
    rw [List.map_flatten]
    rcases Paging.mem_walk hlimit (fun r h => (hsources r h).1) (fun r h => (hsources r h).2) hlt
      with hmem | ⟨hlen, hfull, hlow⟩
    · exact Or.inl (hmap ▸ hmem)
    · rw [← hmap] at hlen hfull hlow
      refine Or.inr ⟨by simpa using hlen, fun p hp => ?_, fun s hs => ?_⟩
      · rw [← hfull _ (List.mem_map_of_mem hp), List.length_map]
      · rw [← List.map_flatten] at hlow
        exact Int.ofNat_lt.mp (hlow _ (List.mem_map_of_mem hs))

/-- The archive with a block on top. -/
def grownCoin : Db :=
  (settledCoin.storeBlock ⟨plainHeader 3 "a3" "a2", some plainBody⟩ "details" 4).toOption.getD
    .empty

/-- The block that comes while he reads does not make him read one again. -/
theorem readDown_changing_grown :
    (readDown 1 none [settledCoin, grownCoin]).flatten.map BlockSummary.ident
        = [(2, "a2"), (1, "a1")]
      ∧ (readDown 1 none [settledCoin, grownCoin]).flatten.Pairwise
        fun a b => b.height < a.height := by
  have hone : ∀ db ∈ [settledCoin, grownCoin], db.OneCanonical := by decide +kernel
  exact ⟨by decide +kernel, (readDown_changing hone one_pos none).1⟩

end Permanode
