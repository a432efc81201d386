import Permanode.Node.Rpc

/-!
# Node/Noid — the node's own crates

The permanode links the node's crates (`noid_chain`, `noid_tx`) for the wire format, the transaction
tree and the page rules, and `flate2` for compression.  Their code is not part of the repository:
`Noid` holds what the permanode calls of them, over types it never looks into, and every result that
relies on a property of theirs says so.  `Noid.sample` is small enough to run.

A number whose width the crates keep to themselves is as wide as the source converts it to.
-/

namespace Permanode

/-- An output of a page. -/
structure PageOutput (Address : Type) where
  slotIndex : UInt64
  amount : UInt64
  owner : Address

/-- An input of a page. -/
structure PageInput where
  slotIndex : UInt64
  amount : UInt64
  creationId : UInt64

/-- `BlockProofClass`. -/
inductive BlockProofClass
  | b25
  | b255

/-- The facts of a paged spend. -/
structure PagedSpendFacts (Address : Type) where
  logicalTxid : List UInt8
  liveInputs : UInt32
  liveOutputs : UInt32
  fee : UInt64
  epochAnchor : List UInt8
  inputOwner : Address
  inputSum : ℕ
  outputSum : ℕ

/-- A group of pages that form one spend. -/
structure PageGroup (Address : Type) where
  startPage : ℕ
  pageCount : UInt32
  spend : PagedSpendFacts Address

/-- What `validate_block_page_stream` finds in the pages of a block. -/
structure BlockPageStream (Address : Type) where
  groups : List (PageGroup Address)
  hasDevelopmentPayout : Bool
  liveInputs : UInt32
  liveOutputs : UInt32
  pageCount : UInt32
  proofClass : BlockProofClass

/-- The node's crates, as far as the permanode calls them. -/
structure Noid where
  Header : Type
  Page : Type
  Address : Type
  toBech32 : Address → String
  -- `Block` and its header
  height : Header → ℕ
  allocCounter : Header → UInt64
  txRoot : Header → List UInt8
  blockId : Header → List UInt8
  fromBytes : List UInt8 → Except String (Header × List Page)
  toBytes : Header × List Page → List UInt8
  tryComputeTxRoot : List Page → Except String (List UInt8)
  rootFromHashes : List (List UInt8) → List UInt8
  maxBlockBytes : ℕ
  -- pages
  liveInputs : Page → List (ℕ × PageInput)
  liveOutputs : Page → List (ℕ × PageOutput Address)
  epochAnchor : Page → List UInt8
  pageTxid : Page → List UInt8
  contractBit : Page → Bool
  terminalBit : Page → Bool
  validateBlockPageStream : List Page → Except String (BlockPageStream Address)
  tryComputeLogicalTxids : List Page → Except String (List (List UInt8))
  userBodyStart : BlockPageStream Address → ℕ → ℕ
  userLogicalIndex : BlockPageStream Address → ℕ → ℕ
  coinbaseCreationId : ℕ → UInt64
  v2Active : ℕ → Bool
  -- `flate2`: `inflate data n` reads at most `n` bytes
  deflate : List UInt8 → List UInt8
  inflate : List UInt8 → ℕ → Except String (List UInt8)

/-- `noid_chain::Block`. -/
abbrev Noid.Block (N : Noid) : Type := N.Header × List N.Page

/-! ## A small model of the crates -/

/-- A byte string that says where it ends. -/
def frame : List UInt8 → List UInt8
  | [] => [0]
  | b :: bs => 1 :: b :: frame bs

/-- A framed string and what follows it. -/
def unframe : List UInt8 → Except String (List UInt8 × List UInt8)
  | 0 :: rest => .ok ([], rest)
  | 1 :: b :: rest => do
    let (bs, rest) ← unframe rest
    return (b :: bs, rest)
  | _ => .error "unexpected end of input"

theorem unframe_frame (bs rest : List UInt8) : unframe (frame bs ++ rest) = .ok (bs, rest) := by
  induction bs with
  | nil => rfl
  | cons b bs ih =>
    rw [frame, List.cons_append, List.cons_append, unframe, ih]
    rfl

/-- A block of a height, a `tx_root` and one byte a page, on the wire. -/
def encodeSample (block : (UInt8 × List UInt8) × List UInt8) : List UInt8 :=
  block.1.1 :: (frame block.1.2 ++ block.2)

/-- The block on the wire, or that it is cut short. -/
def decodeSample : List UInt8 → Except String ((UInt8 × List UInt8) × List UInt8)
  | [] => .error "unexpected end of input"
  | height :: rest => do
    let (root, pages) ← unframe rest
    return ((height, root), pages)

theorem decodeSample_encodeSample (block : (UInt8 × List UInt8) × List UInt8) :
    decodeSample (encodeSample block) = .ok block := by
  rw [encodeSample, decodeSample, unframe_frame]
  rfl

/-- Crates small enough to run: a header is a height and a `tx_root`, a page is a byte, and ids and
roots are the bytes themselves. -/
def Noid.sample : Noid where
  Header := UInt8 × List UInt8
  Page := UInt8
  Address := Unit
  toBech32 _ := "o1"
  height h := h.1.toNat
  allocCounter _ := 0
  txRoot h := h.2
  blockId h := h.1 :: h.2
  fromBytes := decodeSample
  toBytes := encodeSample
  tryComputeTxRoot pages := .ok pages
  rootFromHashes hashes := hashes.flatten
  maxBlockBytes := 64
  liveInputs _ := []
  liveOutputs _ := []
  epochAnchor _ := []
  pageTxid page := [page]
  contractBit _ := false
  terminalBit _ := false
  validateBlockPageStream _ := .ok ⟨[], false, 0, 0, 0, .b25⟩
  tryComputeLogicalTxids pages := .ok (pages.map fun page => [page])
  userBodyStart _ page := page + 1
  userLogicalIndex _ index := index + 1
  coinbaseCreationId height := UInt64.ofNat height
  v2Active _ := false
  deflate bytes := bytes
  inflate bytes n := .ok (bytes.take n)

end Permanode
