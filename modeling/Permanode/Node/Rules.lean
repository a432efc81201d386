import Permanode.Node.Decoded

/-!
# Node/Rules — what the crates promise of the pages of a block

The decoder and its readers rely on the crates for the shape of a block: a coinbase, perhaps a
development payout, and spends of one page or more.  `Noid.Positions` is what they rely on for the
position of a transaction, `Noid.Rules` for all that a body says.
-/

namespace Permanode

open Outcome

/-- How many pages of a block mint: the coinbase's and, if there is one, the payout's. -/
def BlockPageStream.mintingPages {Address : Type} (stream : BlockPageStream Address) : ℕ :=
  if stream.hasDevelopmentPayout then 2 else 1

/-- **The positions of a block**: the spends follow the pages that mint, and a block has at most 256
logical transactions. -/
structure Noid.Positions (N : Noid) : Prop where
  index : ∀ {pages stream}, N.validateBlockPageStream pages = .ok stream →
    ∀ i, N.userLogicalIndex stream i = stream.mintingPages + i
  few : ∀ {pages stream}, N.validateBlockPageStream pages = .ok stream →
    stream.mintingPages + stream.groups.length ≤ 256

/-- The amounts of the inputs of a page, added up. -/
def inputAmount (N : Noid) (page : N.Page) : ℕ :=
  ((N.liveInputs page).map fun i => i.2.amount.toNat).sum

/-- What the crates say of a spend is what its pages say, and its fee closes it. -/
structure Noid.SpendFacts (N : Noid) (pages : List N.Page) (spend : PagedSpendFacts N.Address) :
    Prop where
  liveInputs : spend.liveInputs.toNat = inputCount N pages
  liveOutputs : spend.liveOutputs.toNat = outputCount N pages
  inputSum : spend.inputSum = (pages.map (inputAmount N)).sum
  outputSum : spend.outputSum = (pages.map (pageAmount N)).sum
  balance : spend.inputSum = spend.outputSum + spend.fee.toNat
  fits : spend.inputSum < 2 ^ 64

/-- What the crates say of the spends of a block.  The totals are the sums over the spends, amounts
add up within 64 bits, and the outputs of a block are counted within 32. -/
structure Noid.StreamFacts (N : Noid) (pages : List N.Page) (stream : BlockPageStream N.Address) :
    Prop where
  spends : ∀ group ∈ stream.groups, N.SpendFacts (groupPages N stream pages group) group.spend
  pageCount : stream.pageCount.toNat = (stream.groups.map fun g => g.pageCount.toNat).sum
  liveInputs : stream.liveInputs.toNat = (stream.groups.map fun g => g.spend.liveInputs.toNat).sum
  liveOutputs : stream.liveOutputs.toNat
    = (stream.groups.map fun g => g.spend.liveOutputs.toNat).sum
  minted : ∀ page ∈ pages.take stream.mintingPages, pageAmount N page < 2 ^ 64
  fees : (stream.groups.map fun g => g.spend.fee.toNat).sum < 2 ^ 64
  outputs : outputCount N (pages.take stream.mintingPages) + stream.liveOutputs.toNat < 2 ^ 32

/-- **The rules of a block**: its ids are those of the pages that mint, then those of the spends,
and they make its `tx_root`. -/
structure Noid.Rules (N : Noid) : Prop extends N.Positions where
  facts : ∀ {pages stream},
    N.validateBlockPageStream pages = .ok stream → N.StreamFacts pages stream
  txids : ∀ {pages stream ids}, N.validateBlockPageStream pages = .ok stream →
    N.tryComputeLogicalTxids pages = .ok ids →
      ids.length = stream.mintingPages + stream.groups.length
        ∧ ids.drop stream.mintingPages = stream.groups.map fun g => g.spend.logicalTxid
  width : ∀ {pages ids}, N.tryComputeLogicalTxids pages = .ok ids → ∀ id ∈ ids, id.length = 32
  root : ∀ {pages ids root}, N.tryComputeLogicalTxids pages = .ok ids →
    N.tryComputeTxRoot pages = .ok root → root = N.rootFromHashes ids

/-! ## Where a transaction stands -/

variable {N : Noid}

/-- The pages that mint are the coinbase and the payout, if there is one. -/
theorem length_payout {stream : BlockPageStream N.Address} {pages : List N.Page}
    {txids : List (List UInt8)} {cursor : UInt64} {payout : List BlockTransactionInfo}
    (h : PaidOut N stream pages txids cursor payout) : payout.length + 1 = stream.mintingPages := by
  rw [PaidOut] at h
  rw [BlockPageStream.mintingPages]
  split_ifs at h ⊢
  · obtain ⟨_, _, _, -, -, rfl, -⟩ := h
    rfl
  · rw [h]
    rfl

/-- **A user transaction is that of a group**, as far behind the pages that mint as the group is
behind the first. -/
theorem Decoding.exists_group {bytes : List UInt8} {height : ℕ} {hash : String}
    {body : RetainedBlockInfo} (D : Decoding N bytes height hash body) {k : ℕ}
    {t : BlockTransactionInfo} (ht : body.transactions[D.stream.mintingPages + k]? = some t) :
    ∃ group, D.stream.groups[k]? = some group ∧ OfGroup N D.stream D.block.2 k group t := by
  have hindex : D.stream.mintingPages + k = D.payout.length + k + 1 := by
    rw [← length_payout D.paidOut, Nat.add_right_comm]
  rw [D.transactions, hindex, List.getElem?_cons_succ,
    List.getElem?_append_right (Nat.le_add_right _ _), Nat.add_sub_cancel_left] at ht
  obtain ⟨⟨group, i⟩, hg, hof⟩ := forall₂_getElem? D.grouped ht
  rw [List.getElem?_zipIdx, Option.map_eq_some_iff] at hg
  obtain ⟨group', hg, hpair⟩ := hg
  obtain ⟨rfl, rfl⟩ := Prod.mk.inj hpair
  rw [Nat.zero_add] at hof
  exact ⟨group', hg, hof⟩

/-! ## The small chain keeps the rules -/

/-- The small node accepts one stream of pages. -/
theorem coins_validated {pages : List Noid.coins.Page} {stream : BlockPageStream Noid.coins.Address}
    (h : Noid.coins.validateBlockPageStream pages = .ok stream) :
    pages = ([0, 1, 2] : List UInt8) ∧ stream = coinsStream := by
  unfold Noid.coins at h
  dsimp only at h
  split_ifs at h with hpages
  exact ⟨hpages, (Except.ok.inj h).symm⟩

/-- Its lists fit their positions. -/
theorem positions_coins : Noid.coins.Positions where
  index h i := by
    rw [(coins_validated h).2]
    rfl
  few h := by
    rw [(coins_validated h).2]
    decide

/-- Its stream is as the rules say. -/
theorem facts_coins : Noid.coins.StreamFacts ([0, 1, 2] : List UInt8) coinsStream where
  spends group h := by
    obtain rfl := List.mem_singleton.mp h
    constructor <;> decide
  pageCount := by decide
  liveInputs := by decide
  liveOutputs := by decide
  minted := by decide
  fees := by decide
  outputs := by decide

/-- **The small node keeps the rules of a block.** -/
theorem rules_coins : Noid.coins.Rules where
  toPositions := positions_coins
  facts h := by
    obtain ⟨rfl, rfl⟩ := coins_validated h
    exact facts_coins
  txids h hids := by
    obtain ⟨rfl, rfl⟩ := coins_validated h
    obtain rfl := Except.ok.inj hids
    decide
  width h id hid := by
    obtain rfl := Except.ok.inj h
    obtain ⟨page, -, rfl⟩ := List.mem_map.mp hid
    exact List.length_replicate
  root h hroot := by
    obtain rfl := Except.ok.inj h
    obtain rfl := Except.ok.inj hroot
    exact List.flatMap_def

end Permanode
