import Mathlib.Algebra.BigOperators.Group.List.Basic
import Mathlib.Data.UInt
import Permanode.Node.Decode

/-!
# Node/Decoded — what the decoder makes of a block

`decodeRetainedBlock` threads a cursor through the outputs of a block.  Apart from the numbers it
hands out, a transaction is a function of its pages (`Minted`, `OfGroup`), and the numbers are those
that follow the cursor (`idsAfter`), whatever the pages:

    pageOutputs (what an output says)  ·  idsAfter (the number it gets)

`decodeRetainedBlock_ok` takes a successful decoding apart along these lines.
-/

namespace Permanode

open Outcome

variable (N : Noid)

/-! ## An output, and its number -/

/-- An output less its creation id. -/
def BlockTransactionOutputInfo.unnumbered (o : BlockTransactionOutputInfo) :
    BlockTransactionOutputInfo :=
  { o with creationId := 0 }

/-- The outputs of a page, not numbered. -/
def pageOutputs (page : ℕ) (outputs : List (ℕ × PageOutput N.Address)) :
    List BlockTransactionOutputInfo :=
  outputs.map fun (lane, o) =>
    ⟨UInt32.ofNat page, UInt32.ofNat (lane % 256), o.slotIndex, o.amount, N.toBech32 o.owner, 0⟩

/-- The `n` numbers after a cursor. -/
def idsAfter : UInt64 → ℕ → List UInt64
  | _, 0 => []
  | cursor, n + 1 => (cursor + 1) :: idsAfter (cursor + 1) n

@[simp] theorem length_idsAfter : ∀ (cursor : UInt64) (n : ℕ), (idsAfter cursor n).length = n
  | _, 0 => rfl
  | cursor, n + 1 => congrArg Nat.succ (length_idsAfter (cursor + 1) n)

theorem add_ofNat_zero (cursor : UInt64) : cursor + UInt64.ofNat 0 = cursor :=
  UInt64.add_zero cursor

/-- The cursor after `n + 1` numbers. -/
theorem add_ofNat_succ (cursor : UInt64) (n : ℕ) :
    cursor + UInt64.ofNat (n + 1) = cursor + 1 + UInt64.ofNat n := by
  rw [UInt64.ofNat_add, UInt64.add_comm (UInt64.ofNat n), ← UInt64.add_assoc]
  rfl

theorem idsAfter_append : ∀ (cursor : UInt64) (m n : ℕ),
    idsAfter cursor m ++ idsAfter (cursor + UInt64.ofNat m) n = idsAfter cursor (m + n)
  | cursor, 0, n => by
      rw [Nat.zero_add, add_ofNat_zero]
      rfl
  | cursor, m + 1, n => by
      rw [Nat.add_right_comm, idsAfter, idsAfter, List.cons_append, add_ofNat_succ,
        idsAfter_append (cursor + 1) m n]

/-- **The numbers of a page's outputs**: one each, in lane order. -/
theorem numberOutputs_eq (page : ℕ) (f : UInt64 → UInt64) :
    ∀ (outputs : List (ℕ × PageOutput N.Address)) (cursor : UInt64),
      (numberOutputs N page f cursor outputs).1.map BlockTransactionOutputInfo.unnumbered
          = pageOutputs N page outputs
        ∧ (numberOutputs N page f cursor outputs).1.map BlockTransactionOutputInfo.creationId
          = (idsAfter cursor outputs.length).map f
        ∧ (numberOutputs N page f cursor outputs).2 = cursor + UInt64.ofNat outputs.length
  | [], cursor => ⟨rfl, rfl, (add_ofNat_zero cursor).symm⟩
  | (lane, o) :: outputs, cursor => by
      obtain ⟨hout, hids, hlast⟩ := numberOutputs_eq page f outputs (cursor + 1)
      refine ⟨congrArg _ hout, congrArg _ hids, ?_⟩
      rw [List.length_cons, add_ofNat_succ]
      exact hlast

/-! ## The pages of a group -/

/-- The outputs of pages, in page and lane order. -/
def outputsOfPages (index : ℕ) (pages : List N.Page) : List BlockTransactionOutputInfo :=
  (pages.zipIdx index).flatMap fun (page, i) => pageOutputs N i (N.liveOutputs page)

/-- The inputs of pages, the first of them of the given index. -/
def inputsOfPages (index : ℕ) (pages : List N.Page) : List BlockTransactionInputInfo :=
  (pages.zipIdx index).flatMap fun (page, i) => pageInputs i (N.liveInputs page)

/-- How many outputs pages have. -/
def outputCount (pages : List N.Page) : ℕ := (pages.map fun page => (N.liveOutputs page).length).sum

/-- How many inputs pages have. -/
def inputCount (pages : List N.Page) : ℕ := (pages.map fun page => (N.liveInputs page).length).sum

theorem length_outputsOfPages : ∀ (index : ℕ) (pages : List N.Page),
    (outputsOfPages N index pages).length = outputCount N pages
  | _, [] => rfl
  | index, page :: pages => by
      have hrest := length_outputsOfPages (index + 1) pages
      simp only [outputsOfPages, outputCount, pageOutputs, List.zipIdx_cons, List.flatMap_cons,
        List.length_append, List.length_map, List.map_cons, List.sum_cons] at hrest ⊢
      rw [hrest]

theorem length_inputsOfPages : ∀ (index : ℕ) (pages : List N.Page),
    (inputsOfPages N index pages).length = inputCount N pages
  | _, [] => rfl
  | index, page :: pages => by
      have hrest := length_inputsOfPages (index + 1) pages
      simp only [inputsOfPages, inputCount, pageInputs, List.zipIdx_cons, List.flatMap_cons,
        List.length_append, List.length_map, List.map_cons, List.sum_cons] at hrest ⊢
      rw [hrest]

/-- **The lists of a group**: its pages' inputs and outputs, page after page, the outputs numbered
without a break. -/
theorem groupLists_eq : ∀ (pages : List N.Page) (index : ℕ) (cursor : UInt64),
    (groupLists N index cursor pages).1 = inputsOfPages N index pages
      ∧ (groupLists N index cursor pages).2.1.map BlockTransactionOutputInfo.unnumbered
        = outputsOfPages N index pages
      ∧ (groupLists N index cursor pages).2.1.map BlockTransactionOutputInfo.creationId
        = idsAfter cursor (outputCount N pages)
      ∧ (groupLists N index cursor pages).2.2 = cursor + UInt64.ofNat (outputCount N pages)
  | [], index, cursor => ⟨rfl, rfl, rfl, (add_ofNat_zero cursor).symm⟩
  | page :: pages, index, cursor => by
      obtain ⟨hout, hids, hlast⟩ := numberOutputs_eq N index id (N.liveOutputs page) cursor
      obtain ⟨hins, houts, hidss, hlasts⟩ := groupLists_eq pages (index + 1)
        (numberOutputs N index id cursor (N.liveOutputs page)).2
      have hcount : outputCount N (page :: pages)
          = (N.liveOutputs page).length + outputCount N pages := by
        rw [outputCount, List.map_cons, List.sum_cons, outputCount]
      rw [groupLists, inputsOfPages, outputsOfPages, List.zipIdx_cons, List.flatMap_cons,
        List.flatMap_cons, hcount]
      refine ⟨congrArg _ hins, ?_, ?_, ?_⟩
      · rw [List.map_append, hout]
        exact congrArg _ houts
      · rw [List.map_append, hids, List.map_id, hidss, hlast, idsAfter_append]
      · rw [hlasts, hlast, UInt64.add_assoc, ← UInt64.ofNat_add]

/-! ## The transactions of the groups -/

/-- The pages of a group. -/
def groupPages (stream : BlockPageStream N.Address) (pages : List N.Page)
    (group : PageGroup N.Address) : List N.Page :=
  (pages.drop (N.userBodyStart stream group.startPage)).take group.pageCount.toNat

/-- **A transaction of a group**: what the crates say of the spend, and what its pages say. -/
structure OfGroup (stream : BlockPageStream N.Address) (pages : List N.Page) (index : ℕ)
    (group : PageGroup N.Address) (t : BlockTransactionInfo) : Prop where
  range : (groupPages N stream pages group).length = group.pageCount.toNat
  position : t.position = UInt32.ofNat (N.userLogicalIndex stream index)
  txid : t.txid = Text.hexEncode group.spend.logicalTxid
  pageCount : t.pageCount = group.pageCount
  liveInputs : t.liveInputs = group.spend.liveInputs
  liveOutputs : t.liveOutputs = group.spend.liveOutputs
  fee : t.feeMicronoid = group.spend.fee
  coinbase : t.coinbase = false
  developmentPayout : t.developmentPayout = false
  epochAnchor : t.epochAnchor = Text.hexEncode group.spend.epochAnchor
  inputOwner : t.inputOwner = some (N.toBech32 group.spend.inputOwner)
  inputSum : t.inputSumMicronoid = Nat.repr group.spend.inputSum
  outputSum : t.outputSumMicronoid = Nat.repr group.spend.outputSum
  pageHashes : t.pageHashes
    = (groupPages N stream pages group).map fun page => Text.hexEncode (N.pageTxid page)
  inputs : t.inputs = inputsOfPages N 0 (groupPages N stream pages group)
  outputs : t.outputs.map BlockTransactionOutputInfo.unnumbered
    = outputsOfPages N 0 (groupPages N stream pages group)

/-- The creation ids of the outputs of transactions, in order. -/
def creationIds (txs : List BlockTransactionInfo) : List UInt64 :=
  txs.flatMap fun t => t.outputs.map BlockTransactionOutputInfo.creationId

/-- How many outputs the pages of groups have. -/
def groupOutputs (stream : BlockPageStream N.Address) (pages : List N.Page)
    (groups : List (PageGroup N.Address)) : ℕ :=
  (groups.map fun group => outputCount N (groupPages N stream pages group)).sum

/-- **The transactions of the groups**, one each in order, their outputs numbered without a
break. -/
theorem groupTransactions_ok {stream : BlockPageStream N.Address} {pages : List N.Page} :
    ∀ {groups : List (PageGroup N.Address)} {index : ℕ} {cursor last : UInt64}
      {txs : List BlockTransactionInfo},
      groupTransactions N stream pages index cursor groups = .ok (txs, last) →
        List.Forall₂ (fun g t => OfGroup N stream pages g.2 g.1 t) (groups.zipIdx index) txs
          ∧ creationIds txs = idsAfter cursor (groupOutputs N stream pages groups)
          ∧ last = cursor + UInt64.ofNat (groupOutputs N stream pages groups)
  | [], index, cursor, last, txs, h => by
      obtain ⟨rfl, rfl⟩ := Prod.mk.inj (Except.ok.inj h)
      exact ⟨.nil, rfl, (add_ofNat_zero cursor).symm⟩
  | group :: groups, index, cursor, last, txs, h => by
      simp only [groupTransactions, bind_ok, bailIf_ok, not_lt, pure_ok, Prod.mk.injEq,
        Prod.exists] at h
      obtain ⟨_, hrange, rest, last', hrest, rfl, rfl⟩ := h
      obtain ⟨hins, houts, hids, hcursor⟩ :=
        groupLists_eq N (groupPages N stream pages group) 0 cursor
      obtain ⟨hall, hidss, hlast⟩ := groupTransactions_ok hrest
      have hcount : groupOutputs N stream pages (group :: groups)
          = outputCount N (groupPages N stream pages group)
          + groupOutputs N stream pages groups := by
        rw [groupOutputs, List.map_cons, List.sum_cons, groupOutputs]
      refine ⟨.cons ?_ hall, ?_, ?_⟩
      · have hlength : (groupPages N stream pages group).length = group.pageCount.toNat := by
          rw [groupPages, List.length_take, List.length_drop]
          omega
        exact ⟨hlength, rfl, rfl, rfl, rfl, rfl, rfl, rfl, rfl, rfl, rfl, rfl, rfl, rfl,
          hins, houts⟩
      · rw [creationIds, List.flatMap_cons, hcount, ← idsAfter_append, ← hcursor]
        exact congrArg₂ _ hids hidss
      · rw [hcount, UInt64.ofNat_add, ← UInt64.add_assoc, ← hcursor]
        exact hlast

/-! ## The pages that mint -/

/-- **A transaction of a page that mints**, its outputs numbered `ids`. -/
def MintedFrom (position : UInt32) (page : N.Page) (txid : List UInt8) (payout : Bool) (sum : ℕ)
    (ids : List UInt64) (t : BlockTransactionInfo) : Prop :=
  ∃ count outs, t = mintTransaction N position page txid count payout sum outs
    ∧ count.toNat = (N.liveOutputs page).length
    ∧ outs.map BlockTransactionOutputInfo.unnumbered = pageOutputs N 0 (N.liveOutputs page)
    ∧ outs.map BlockTransactionOutputInfo.creationId = ids

theorem tryU16_ok {n : ℕ} {k : UInt32} (h : tryU16 n = .ok k) : k.toNat = n := by
  unfold tryU16 at h
  split_ifs at h with hn
  obtain rfl := Except.ok.inj h
  rw [UInt32.toNat_ofNat', Nat.mod_eq_of_lt (by omega)]

/-- The amounts of a page's outputs, added up. -/
def pageAmount (page : N.Page) : ℕ := ((N.liveOutputs page).map fun o => o.2.amount.toNat).sum

/-- **The development payout**, if the block has one: the second transaction, of the second page. -/
def PaidOut (stream : BlockPageStream N.Address) (pages : List N.Page) (txids : List (List UInt8))
    (cursor : UInt64) (payout : List BlockTransactionInfo) : Prop :=
  if stream.hasDevelopmentPayout then ∃ page txid t, pages[1]? = some page ∧ txids[1]? = some txid
    ∧ payout = [t]
    ∧ MintedFrom N 1 page txid true (pageAmount N page)
        (idsAfter cursor (N.liveOutputs page).length) t
  else payout = []

/-- **What a successful decoding found**, and what it wrote. -/
structure Decoding (bytes : List UInt8) (height : ℕ) (hash : String)
    (body : RetainedBlockInfo) where
  block : N.Block
  stream : BlockPageStream N.Address
  txids : List (List UInt8)
  coinbase : N.Page
  coinbaseTxid : List UInt8
  first : BlockTransactionInfo
  payout : List BlockTransactionInfo
  users : List BlockTransactionInfo
  /-- the counter after the coinbase -/
  cursor : UInt64
  bound : decodeBoundBlock N bytes height hash = .ok block
  validated : N.validateBlockPageStream block.2 = .ok stream
  computed : N.tryComputeLogicalTxids block.2 = .ok txids
  coinbase_eq : block.2[0]? = some coinbase
  coinbaseTxid_eq : txids[0]? = some coinbaseTxid
  transactions : body.transactions = first :: (payout ++ users)
  minted : MintedFrom N 0 coinbase coinbaseTxid false body.rewardMicronoid.toNat
    (List.replicate (N.liveOutputs coinbase).length (N.coinbaseCreationId (N.height block.1))) first
  paidOut : PaidOut N stream block.2 txids cursor payout
  grouped : List.Forall₂ (fun g t => OfGroup N stream block.2 g.2 g.1 t) stream.groups.zipIdx users
  reward : body.rewardMicronoid
    = ((N.liveOutputs coinbase).map fun o => o.2.amount).foldl saturatingAdd64 0
  fees : body.totalFeesMicronoid = Nat.repr (stream.groups.map fun g => g.spend.fee.toNat).sum
  logicalTransactions : body.logicalTransactions = UInt32.ofNat txids.length
  userPages : body.userPages = stream.pageCount
  liveInputs : body.liveInputs = stream.liveInputs
  liveOutputs : ∃ count, count.toNat = (creationIds payout).length ∧ body.liveOutputs
    = saturatingAdd32 (saturatingAdd32 stream.liveOutputs first.liveOutputs) count
  minted_le :
    stream.liveOutputs.toNat + (N.liveOutputs coinbase).length + (creationIds payout).length
      ≤ (N.allocCounter block.1).toNat
  cursor_eq : cursor = N.allocCounter block.1 - UInt64.ofNat (stream.liveOutputs.toNat
    + (N.liveOutputs coinbase).length + (creationIds payout).length)
    + UInt64.ofNat (N.liveOutputs coinbase).length
  ids : creationIds (payout ++ users) = idsAfter cursor (creationIds (payout ++ users)).length
  last : cursor + UInt64.ofNat (creationIds (payout ++ users)).length = N.allocCounter block.1

variable {N}

theorem payoutTransaction_ok {stream : BlockPageStream N.Address} {pages : List N.Page}
    {txids : List (List UInt8)} {count : UInt32} {cursor last : UInt64}
    {payout : List BlockTransactionInfo}
    (h : payoutTransaction N stream pages txids count cursor = .ok (payout, last))
    (hcount : (if stream.hasDevelopmentPayout then do
        let page ← orError "development payout flagged but block has no second page" pages[1]?
        tryU16 (N.liveOutputs page).length
      else pure 0 : Except String UInt32) = .ok count) :
    PaidOut N stream pages txids cursor payout
      ∧ count.toNat = (creationIds payout).length
      ∧ creationIds payout = idsAfter cursor (creationIds payout).length
      ∧ last = cursor + UInt64.ofNat (creationIds payout).length := by
  rw [payoutTransaction] at h
  rw [PaidOut]
  split_ifs at h hcount ⊢
  · simp only [bind_ok, orError_ok, pure_ok, Prod.mk.injEq] at h hcount
    obtain ⟨page, hpage, hcount⟩ := hcount
    obtain ⟨page', hpage', txid, htxid, rfl, rfl⟩ := h
    obtain rfl := Option.some.inj (hpage.symm.trans hpage')
    obtain ⟨hout, hids, hlast⟩ := numberOutputs_eq N 0 id (N.liveOutputs page) cursor
    rw [List.map_id] at hids
    have hcreated : ∀ t : BlockTransactionInfo,
        creationIds [t] = t.outputs.map BlockTransactionOutputInfo.creationId := fun t => by
      rw [creationIds, List.flatMap_singleton]
    have hlength := length_idsAfter cursor (N.liveOutputs page).length
    rw [hcreated, mintTransaction, hids, hlength]
    exact ⟨⟨page, txid, _, hpage, htxid, rfl, count, _, rfl, tryU16_ok hcount, hout, hids⟩,
      tryU16_ok hcount, rfl, hlast⟩
  · obtain ⟨rfl, rfl⟩ := Prod.mk.inj (Except.ok.inj h)
    obtain rfl := pure_ok.mp hcount
    exact ⟨rfl, rfl, rfl, (add_ofNat_zero cursor).symm⟩

/-- **A decoding that succeeds, taken apart.** -/
theorem decodeRetainedBlock_ok {bytes : List UInt8} {height : ℕ} {hash : String}
    {body : RetainedBlockInfo} (h : decodeRetainedBlock N bytes height hash = .ok body) :
    Nonempty (Decoding N bytes height hash body) := by
  simp only [decodeRetainedBlock, join_ok, bind_ok, bailIf_ok, orError_ok, mapError_ok, pure_ok,
    not_not, not_lt, Prod.exists] at h
  obtain ⟨_, -, header, pages, hbound, stream, hstream, txids, htxids, coinbase, hcoinbase,
    cbCount, hcbCount, devCount, hdevCount, _, hle, cbTxid, hcbTxid, payout, cursor₂, hpayout,
    users, cursor₃, husers, _, hlast, rfl⟩ := h
  obtain ⟨hout, hids, hcursor⟩ := numberOutputs_eq N 0
    (fun _ => N.coinbaseCreationId (N.height header)) (N.liveOutputs coinbase)
    (N.allocCounter header
      - UInt64.ofNat (stream.liveOutputs.toNat + cbCount.toNat + devCount.toNat))
  generalize numberOutputs N 0 _ _ (N.liveOutputs coinbase) = numbered
    at hout hids hcursor hpayout ⊢
  obtain ⟨outs, cursor⟩ := numbered
  obtain ⟨hpaid, hdev, hpayoutIds, hcursor₂⟩ := payoutTransaction_ok hpayout hdevCount
  obtain ⟨hgroups, huserIds, hcursor₃⟩ := groupTransactions_ok N husers
  have hcb := tryU16_ok hcbCount
  rw [List.map_const', length_idsAfter] at hids
  have hcreated : creationIds (payout ++ users) = idsAfter cursor ((creationIds payout).length
      + groupOutputs N stream pages stream.groups) := by
    rw [creationIds, List.flatMap_append, ← idsAfter_append, ← hcursor₂, ← huserIds]
    exact congrArg (· ++ _) hpayoutIds
  have hcount := congrArg List.length hcreated
  rw [length_idsAfter] at hcount
  refine ⟨⟨(header, pages), stream, txids, coinbase, cbTxid, _, payout, users, cursor, hbound,
    hstream, htxids, hcoinbase, hcbTxid, rfl, ⟨cbCount, outs, rfl, hcb, hout, hids⟩, hpaid,
    hgroups, rfl, rfl, rfl, rfl, rfl, ⟨devCount, hdev, rfl⟩, ?_, ?_, ?_, ?_⟩⟩
  · rw [← hcb, ← hdev]
    exact hle
  · rw [← hdev]
    rw [hcb] at hcursor
    exact hcursor
  · rw [hcount]
    exact hcreated
  · rw [hcount, ← hlast, hcursor₃, hcursor₂, UInt64.ofNat_add, ← UInt64.add_assoc]

/-! ## A small chain -/

/-- The spend of a block of `Noid.coins`. -/
def coinsSpend : PagedSpendFacts Unit where
  logicalTxid := List.replicate 32 2
  liveInputs := 1
  liveOutputs := 2
  fee := 1
  epochAnchor := []
  inputOwner := ()
  inputSum := 10
  outputSum := 9

/-- What the crates say of the pages of a block of `Noid.coins`: one spend, of the last page. -/
def coinsStream : BlockPageStream Unit where
  groups := [⟨0, 1, coinsSpend⟩]
  hasDevelopmentPayout := true
  liveInputs := 1
  liveOutputs := 2
  pageCount := 1
  proofClass := .b25

/-- Crates whose blocks are all alike: a coinbase, a payout and a spend of one page, four outputs
together.  A block is its height. -/
def Noid.coins : Noid where
  Header := ℕ
  Page := UInt8
  Address := Unit
  toBech32 _ := "o1"
  height h := h
  allocCounter h := UInt64.ofNat (4 * h)
  txRoot _ := List.replicate 32 0 ++ List.replicate 32 1 ++ List.replicate 32 2
  blockId h := [UInt8.ofNat h]
  fromBytes bytes := match bytes with
    | [h] => .ok (h.toNat, [0, 1, 2])
    | _ => .error "unexpected end of input"
  toBytes block := [UInt8.ofNat block.1]
  tryComputeTxRoot pages := .ok (pages.flatMap fun page => List.replicate 32 page)
  rootFromHashes hashes := hashes.flatten
  maxBlockBytes := 1
  liveInputs page := if page = 2 then [(0, ⟨5, 10, 1⟩)] else []
  liveOutputs page :=
    if page = 0 then [(0, ⟨6, 7, ()⟩)] else if page = 1 then [(0, ⟨7, 3, ()⟩)]
    else [(0, ⟨8, 4, ()⟩), (1, ⟨9, 5, ()⟩)]
  epochAnchor _ := []
  pageTxid page := List.replicate 32 page
  contractBit page := page = 2
  terminalBit _ := false
  validateBlockPageStream pages :=
    if pages = [0, 1, 2] then .ok coinsStream else .error "no such block"
  tryComputeLogicalTxids pages := .ok (pages.map fun page => List.replicate 32 page)
  userBodyStart _ page := 2 + page
  userLogicalIndex _ index := 2 + index
  coinbaseCreationId height := UInt64.ofNat (1000 + height)
  v2Active _ := true
  deflate bytes := bytes
  inflate bytes n := .ok (bytes.take n)

/-- The block of a height. -/
def coinsBlock (height : ℕ) : Noid.coins.Block := (height, ([0, 1, 2] : List UInt8))

instance : DecidableEq Noid.coins.Block := inferInstanceAs (DecidableEq (ℕ × List UInt8))

/-- A block of the small chain, as it is decoded. -/
def coinsBody (height : ℕ) : RetainedBlockInfo :=
  (decodeRetainedBlock Noid.coins [UInt8.ofNat height] height
    (Text.hexEncode [UInt8.ofNat height])).toOption.getD ⟨"", 0, 0, 0, 0, 0, "", 0, []⟩

end Permanode
