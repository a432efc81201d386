import Permanode.System

/-!
# System/Views — a node with a chain

What a node answers that holds a given chain.  The concrete runs of the following modules are played
against such nodes.
-/

namespace Permanode

/-- The answers of a node that holds the blocks `chain` from height 0 on, with the bodies given
there and no raw bytes, while the clock shows `now`. -/
def chainAnswers (chain : List BlockDetailsInfo) (now : Instant) : ∀ q : Query, q.Answer
  | .blockCount => .ok (chain.length - 1)
  | .blockHeader height => .ok (chain[height]?.map BlockDetailsInfo.header)
  | .blockDetails height => .ok chain[height]?
  | .block _ => .ok none
  | .stateMap => .ok ⟨0, 1, []⟩
  | .slot _ => .error "no slots"
  | .slotsByOwner _ => .ok []
  | .now => now
  | .unixTime => now
  | .rounds => 1
  | .offer _ _ => .ok none
  | .rawOffer _ _ => .ok none
  | .peerRawFrom => none
  | .peerSeen => .ok []
  | .peerProof => .ok []
  | .sightings => []

/-- A header with a hash and a parent. -/
def plainHeader (height : ℕ) (hash prevHash : String) : BlockHeaderInfo where
  height := height
  hash := hash
  prevHash := prevHash
  stateRoot := ""
  txRoot := ""
  timestamp := 0
  miner := "m"
  nonceHex := ""
  difficultyTarget := ""
  logSlots := 0
  activeSlotCount := 0
  allocCounter := 0

/-- A body of one coinbase that pays nothing. -/
def plainBody : RetainedBlockInfo where
  proofClass := ""
  logicalTransactions := 1
  userPages := 0
  liveInputs := 0
  liveOutputs := 0
  rewardMicronoid := 0
  totalFeesMicronoid := "0"
  blockBytes := 0
  transactions := [{
    position := 0
    txid := ""
    pageCount := 1
    liveInputs := 0
    liveOutputs := 0
    feeMicronoid := 0
    coinbase := true
    developmentPayout := false
    epochAnchor := ""
    inputOwner := none
    inputSumMicronoid := "0"
    outputSumMicronoid := "0"
    pageHashes := [""]
    inputs := []
    outputs := [] }]

/-- A block whose body the node retains. -/
def bodyBlock (height : ℕ) (hash prevHash : String) : BlockDetailsInfo :=
  ⟨plainHeader height hash prevHash, some plainBody⟩

/-- A block whose body the node has pruned. -/
def bareBlock (height : ℕ) (hash prevHash : String) : BlockDetailsInfo :=
  ⟨plainHeader height hash prevHash, none⟩

end Permanode
