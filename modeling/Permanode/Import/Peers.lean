import Permanode.Foundations.Worlds
import Permanode.Import.Fill

/-!
# Import/Peers — other permanodes as a source

The closures of `fill_from_peers` and `fill_raw_from_peers` (`permanode/src/import.rs`): the peers
are asked in turn, one that cannot be reached is left out for the rest of the round, and the first
answer is the source's.  `Peers.world` is the world a round meets: its peers and a clock.
-/

namespace Permanode

/-- What came of a request to a peer. -/
inductive Reply (α : Type)
  /-- `200`, with what was read -/
  | ok (value : α)
  /-- `200`, and it could not be read -/
  | unreadable
  /-- `404` -/
  | notFound
  /-- another status, or no answer -/
  | failed

/-- `PeerError`. -/
inductive PeerError
  | unreachable
  | bad
  deriving DecidableEq

/-- The peers of a configuration, and what each place of the list answers. -/
structure Peers where
  urls : List String
  raw : ℕ → ℕ → String → Reply (List UInt8)
  body : ℕ → ℕ → String → Reply RetainedBlockInfo
  /-- `raw_from` of `/peer/v1/status` -/
  rawFrom : ℕ → Reply (Option ℕ)

/-- What a round remembers: the peers left out, and how often it has read the clock. -/
structure Round where
  down : List String := []
  ticks : ℕ := 0

namespace Peers

variable (N : Noid) (p : Peers)

/-- The raw bytes of a block, read up to the length a block can have. -/
def fetchPeerRaw (place height : ℕ) (hash : String) :
    Except PeerError (Option (List UInt8)) :=
  match p.raw place height hash with
  | .ok bytes => if N.maxBlockBytes < bytes.length then .error .bad else .ok (some bytes)
  | .unreadable => .error .bad
  | .notFound => .ok none
  | .failed => .error .unreachable

/-- A peer's body of the block, `none` if it answers 404. -/
def fetchPeerBody (place height : ℕ) (hash : String) :
    Except PeerError (Option RetainedBlockInfo) :=
  match p.body place height hash with
  | .ok body => .ok (some body)
  | .unreadable => .error .bad
  | .notFound => .ok none
  | .failed => .error .unreachable

/-- A peer's raw bytes of the block if it kept them, else its body. -/
def fetchPeerOffer (place height : ℕ) (hash : String) : Except PeerError (Option Offer) := do
  match ← p.fetchPeerRaw N place height hash with
  | some bytes => return some (.raw bytes)
  | none => return (← p.fetchPeerBody place height hash).map Offer.body

/-- The peers from a place on, asked in turn. -/
def askPeers {β : Type} (fetch : ℕ → Except PeerError (Option β)) :
    ℕ → List String → List String → Except String (Option β) × List String
  | _, [], down => (.ok none, down)
  | place, url :: urls, down =>
    if url ∈ down then askPeers fetch (place + 1) urls down
    else match fetch place with
      | .ok (some answer) => (.ok (some answer), down)
      | .ok none => askPeers fetch (place + 1) urls down
      | .error .unreachable => askPeers fetch (place + 1) urls (down ++ [url])
      | .error .bad => (.error s!"from {url}", down)

/-- The peers whose status could not be read. -/
def silentPeers : List String :=
  p.urls.zipIdx.filterMap fun x => match p.rawFrom x.2 with
    | .ok _ => none
    | _ => some x.1

/-- The lowest height any peer kept raw bytes for. -/
def lowestRaw : Option ℕ :=
  (p.urls.zipIdx.filterMap fun x => match p.rawFrom x.2 with
    | .ok from_ => from_
    | _ => none).min?

/-- **The world of a round**: what the peers and the clock answer (`rest`: what nothing in a round
asks). -/
def world (clock : ℕ → Instant) (rest : ∀ q : Query, q.Answer) :
    ∀ q : Query, Round → q.Answer × Round
  | .offer height hash, w =>
    let (answer, down) := askPeers (fun place => p.fetchPeerOffer N place height hash)
      0 p.urls w.down
    (answer, { w with down })
  | .rawOffer height hash, w =>
    let (answer, down) := askPeers (fun place => p.fetchPeerRaw N place height hash) 0 p.urls w.down
    (answer, { w with down })
  | .peerRawFrom, w => (p.lowestRaw, { w with down := p.silentPeers })
  | .now, w => (clock w.ticks, { w with ticks := w.ticks + 1 })
  | q, w => (rest q, w)

/-- `fill_from_peers` against these peers: the report, the database and what the round remembers. -/
def runFillFromPeers (cfg : Config) (clock : ℕ → Instant) (rest : ∀ q : Query, q.Answer)
    (max : Option ℕ) (keep : Bool) (db : Db) : Except String ImportReport × Db × Round :=
  Prog.drive (Txn.exec N cfg) (p.world N clock rest) (fillFromPeers N max keep) db {}

end Peers

end Permanode
