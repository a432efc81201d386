import Permanode.Foundations.Interleaving
import Permanode.Import.Fill
import Permanode.Indexer.Headers

/-!
# System — the threads of a permanode over one database

The indexer's loop, the sweep, the header backfill and the peer backfill run in one process, each on
a connection of its own, and an operator may start commands beside them: threads that interleave
transaction by transaction (`Foundations/Interleaving`).  A thread that is cut off — a failed call
or statement, a crash, a restart — leaves what it has committed.
-/

namespace Permanode

/-- Who works on the database. -/
inductive Thread
  | indexer
  | sweep
  | headers
  | peers
  | command (n : ℕ)
  deriving DecidableEq, Repr

/-- What each of them may be doing. -/
inductive Job (N : Noid) (cfg : Config) : Thread → Program Unit → Prop
  | startup : Job N cfg .indexer startup
  | poll : Job N cfg .indexer (pollOnce N cfg)
  | noteSightings : Job N cfg .indexer noteSightings
  | prune (h : cfg.retentionDays ≠ 0) : Job N cfg .indexer (prune cfg)
  | refresh : Job N cfg .indexer refreshKnownAddressBalances
  | sweep : Job N cfg .sweep (scanLiveState >>= fun _ => pure ())
  | headers : Job N cfg .headers (backfillHeaders cfg.reorgCheckDepth)
  | peers : Job N cfg .peers (peerRound N cfg.archiveRawBlocks)
  | fillFromPeer (n : ℕ) :
      Job N cfg (.command n) (fillFromPeers N none cfg.archiveRawBlocks >>= fun _ => pure ())
  | fillRawFromPeer (n below : ℕ) : Job N cfg (.command n) (fillRawFromPeers N below (2 ^ 63 - 1))
  | importBodies (n : ℕ) (sourceName : String) :
      Job N cfg (.command n) (importBodies N sourceName cfg.archiveRawBlocks)
  | importReceipts (n : ℕ) (receipts : List DecodedReceipt) :
      Job N cfg (.command n) (Prog.each importReceipt receipts)

/-- A run of the system from an empty database: any interleaving of the threads' actions, any
failures, crashes and restarts, with the transactions committed on the way. -/
abbrev Execution (N : Noid) (cfg : Config) (allow : ∀ q : Query, q.Answer → Prop) :
    List (Db × Txn × Db) → Prog.Config Query Query.Answer Db Txn String Thread → Prop :=
  Prog.Run (Job N cfg) allow (Txn.exec N cfg) (Prog.Config.idle Db.empty)

/-- The world may answer anything. -/
def anyAnswer : ∀ q : Query, q.Answer → Prop := fun _ _ => True

end Permanode
