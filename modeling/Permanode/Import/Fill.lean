import Permanode.Import.Body
import Permanode.Import.Receipt
import Permanode.Indexer.Poll

/-!
# Import/Fill — filling gaps from another permanode

The loops of `permanode/src/import.rs`: `fillGaps` offers every open gap to a source and records
what proves to be the body (`judgeOffer`), `fillRaw` does the same for raw bytes; and the rounds
built from them — a peer round, `import-bodies`, `import-receipts`.
-/

namespace Permanode

open Program

variable (N : Noid)

/-! ## Gaps -/

/-- What becomes of an offer. -/
inductive Verdict
  | accepted (body : RetainedBlockInfo) (bytes : Option (List UInt8))
  | notInSource
  | rejected

/-- A body that was decoded or handed over, checked against the header on record. -/
def judgeBody (txRoot : String) (body : RetainedBlockInfo) (bytes : Option (List UInt8)) :
    Verdict :=
  match checkBody N body txRoot with
  | .ok () => .accepted body bytes
  | .error _ => .rejected

/-- What is made of an offer: a body is checked, raw bytes are decoded first. -/
def judgeOffer (height : ℕ) (hash txRoot : String) : Except String (Option Offer) → Verdict
  | .ok (some (.body body)) => judgeBody N txRoot body none
  | .ok (some (.raw bytes)) =>
    match decodeRetainedBlock N bytes height hash with
    | .ok body => judgeBody N txRoot body (some bytes)
    | .error _ => .rejected
  | .ok none => .notInSource
  | .error _ => .rejected

/-- `ImportReport`, less the peers that could not be reached. -/
structure ImportReport where
  gaps : ℕ := 0
  imported : ℕ := 0
  notInSource : ℕ := 0
  rejected : ℕ := 0
  flagsCleared : ℕ := 0
  deriving DecidableEq, Repr

/-- One open gap. -/
def fillHeight (bodySource resolution : String) (keep : Bool) (report : ImportReport)
    (height : ℕ) : Program ImportReport := do
  match ← get fun db => db.canonicalHashAt height with
  | none => return report
  | some (_, hash) =>
    match ← get fun db => db.uncapturedBlockId height hash with
    | none => return report
    | some blockId =>
      match ← get fun db => (db.block? blockId).map BlockRow.txRoot with
      | none => Prog.fail noRowsError
      | some txRoot =>
        match judgeOffer N height hash txRoot (← ask (.offer height hash)) with
        | .notInSource => return { report with notInSource := report.notInSource + 1 }
        | .rejected => return { report with rejected := report.rejected + 1 }
        | .accepted body bytes =>
          let now ← ask .now
          commit (.fillGap height hash blockId body bytes bodySource resolution keep now)
          return { report with imported := report.imported + 1 }

/-- The outputs `clear_spent_in_gap_with_recorded_spend` clears. -/
def Db.flagsToClear (db : Db) : ℕ :=
  (db.txOutputs.rows.filter fun o =>
    o.spentInGap ∧ db.spentByRecordedInput ⊤ o.creationId).length

/-- The closing maintenance of a fill. -/
def fillMaintenance (report : ImportReport) : Program ImportReport :=
  Prog.commit .clearSpentInGap fun db _ => do
    let now ← ask .now
    commit (.resolveGapsWithBodies now)
    return { report with flagsCleared := db.flagsToClear }

/-- Offers every open gap (lowest first, at most `max`) to the source. -/
def fillGaps (max : Option ℕ) (bodySource resolution : String) (keep : Bool) :
    Program ImportReport := do
  let heights ← get fun db => db.openGapHeights 0
  let taken := match max with
    | some n => heights.take n
    | none => heights
  let report ← Prog.foldEach (fillHeight N bodySource resolution keep)
    { gaps := heights.length } taken
  fillMaintenance report

/-! ## Raw bytes -/

/-- Offers one block to the source and keeps the bytes that prove to be it. -/
def fillRawOne (source : String) (block : ℕ × String) : Program Unit := do
  match ← ask (.rawOffer block.1 block.2) with
  | .error _ => return ()
  | .ok none => return ()
  | .ok (some bytes) =>
    match verify N bytes block.1 block.2 with
    | .error _ => return ()
    | .ok () =>
      let now ← ask .now
      commit (.fillRaw block.1 block.2 bytes source now)

/-- Raw bytes for blocks that have none, one by one. -/
def fillRaw (source : String) (candidates : List (ℕ × String)) : Program Unit :=
  Prog.each (fillRawOne N source) candidates

/-- The raw bytes below the serving window, from the lowest height a peer kept any. -/
def fillRawFromPeers (below : ℕ) (max : ℕ) : Program Unit := do
  match ← ask .peerRawFrom with
  | none => return ()
  | some low =>
    if low < below then
      let candidates ← get fun db => db.blocksMissingRaw low (below - 1) max
      fillRaw N "peer" candidates
    else return ()

/-! ## Rounds -/

/-- `PEER_BACKFILL_BATCH`. -/
def peerBackfillBatch : ℕ := 500

/-- Arrival times a peer noted, each committed by itself. -/
def fillSeenFromPeers : Program Unit := do
  let rows ← ofAnswer (← ask .peerSeen)
  Prog.each (fun r => commit (.adoptTipSeen r.1 r.2.1 r.2.2)) rows

/-- Proof classes a peer has, each committed by itself. -/
def fillProofFromPeers : Program Unit := do
  let rows ← ofAnswer (← ask .peerProof)
  Prog.each (fun r => commit (.adoptProofClass r.1 r.2.1 r.2.2)) rows

/-- `fill_from_peers`: a round of gap filling whose offers are the peers'. -/
def fillFromPeers (max : Option ℕ) (keep : Bool) : Program ImportReport :=
  fillGaps N max "peer" "recovered from a peer permanode" keep

/-- One round of the peer backfill thread. -/
def peerRound (keep : Bool) : Program Unit := do
  let _ ← fillFromPeers N (some peerBackfillBatch) keep
  if keep then
    let processed ← get Db.processedHeight
    fillRawFromPeers N (processed - getblockServingWindow) peerBackfillBatch
  fillSeenFromPeers
  fillProofFromPeers

/-- `import-bodies`. -/
def importBodies (sourceName : String) (keep : Bool) : Program Unit := do
  let _ ← fillGaps N none "import" s!"recovered via import from {sourceName}" keep
  if keep then
    let candidates ← get fun db => db.blocksMissingRaw 0 (2 ^ 63 - 1) (2 ^ 63 - 1)
    fillRaw N "import" candidates

/-- `canonical_block_at`. -/
def Db.canonicalBlockAt (db : Db) (height : ℕ) : Option BlockRow :=
  (db.canonicalHashAt height).bind fun known => db.block? known.1

/-- `import_one`, from its first look at the database on. -/
def importReceipt (d : DecodedReceipt) : Program Unit := do
  match ← get fun db => db.canonicalBlockAt d.height with
  | none => return ()
  | some block =>
    if block.archived ∨ block.txRoot ≠ d.txRoot ∨ block.timestamp.toUInt64 ≠ d.timestamp then
      return ()
    else
      let now ← ask .now
      commit (.receipt block.id d.tx now)

end Permanode
