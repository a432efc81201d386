import Permanode.Import.Receipt
import Permanode.Node.Rules

/-!
# Import/Agreement — a transaction read twice

A transaction of a block is read from the block (`decodeRetainedBlock`) or from its payment receipt
(`decodeReceipt`), and both readings end in the same tables.  They agree field for field
(`SameTransaction`), the creation ids of the outputs apart, which a receipt does not know, and on
the contract call (`decodeReceipt_agrees`).

`Noid.Receipts` is what the crates promise: a receipt's pages are those of the block without their
authorization, and say the same.
-/

namespace Permanode

open Outcome

/-! ## The two readings -/

/-- An input as a receipt has it. -/
def BlockTransactionInputInfo.asReceipt (i : BlockTransactionInputInfo) : ReceiptInput :=
  ⟨i.page, i.lane, i.slotIndex, i.amountMicronoid, i.creationId⟩

/-- An output as a receipt has it, without its creation id. -/
def BlockTransactionOutputInfo.asReceipt (o : BlockTransactionOutputInfo) : ReceiptOutput :=
  ⟨o.page, o.lane, o.slotIndex, o.amountMicronoid, o.owner⟩

/-- **A receipt's transaction is a block's**, less the creation ids of its outputs. -/
structure SameTransaction (t : BlockTransactionInfo) (r : ReceiptTransaction) : Prop where
  position : r.position = t.position
  txid : r.txid = t.txid
  pageCount : r.pageCount = t.pageCount
  fee : r.feeMicronoid = t.feeMicronoid
  epochAnchor : r.epochAnchor = t.epochAnchor
  inputOwner : some r.inputOwner = t.inputOwner
  inputSum : r.inputSumMicronoid = t.inputSumMicronoid
  outputSum : r.outputSumMicronoid = t.outputSumMicronoid
  pageHashes : r.pageHashes = t.pageHashes
  inputs : r.inputs = t.inputs.map BlockTransactionInputInfo.asReceipt
  outputs : r.outputs = t.outputs.map BlockTransactionOutputInfo.asReceipt

variable {N : Noid} (R : ReceiptCrate N)

/-- **What the crates promise of receipts**: `strip` takes the authorization off a page. -/
structure ReceiptCrate.Promises (strip : N.Page → N.Page) : Prop where
  inputs : ∀ page, N.liveInputs (strip page) = N.liveInputs page
  outputs : ∀ page, N.liveOutputs (strip page) = N.liveOutputs page
  contractBit : ∀ page, N.contractBit (strip page) = N.contractBit page
  terminalBit : ∀ page, N.terminalBit (strip page) = N.terminalBit page
  /-- a page's txid is its `page_hash` -/
  pageHash : ∀ page, R.pageHash (strip page) = N.pageTxid page
  /-- a group's spend is `validate_paged_spend` of its pages -/
  spend : ∀ {pages stream}, N.validateBlockPageStream pages = .ok stream → ∀ group ∈ stream.groups,
    R.validatePagedSpend ((groupPages N stream pages group).map strip) = .ok group.spend
  /-- a spend has a page -/
  hasPage : ∀ facts, R.validatePagedSpend [] ≠ .ok facts

/-- A receipt made of the pages of a transaction and its position, whatever else it says. -/
structure ReceiptCrate.MadeOf (strip : N.Page → N.Page) (hex : String) (pages : List N.Page)
    (position : UInt32) : Prop where
  made : ∃ bytes receipt, Text.hexDecode hex = some bytes ∧ R.fromBytes bytes = .ok receipt
    ∧ R.pages (R.pagedSpend receipt) = .ok (pages.map strip) ∧ R.txIndex receipt = position

/-! ## The rows -/

variable {R} {strip : N.Page → N.Page}

theorem asReceipt_unnumbered (o : BlockTransactionOutputInfo) :
    o.unnumbered.asReceipt = o.asReceipt := rfl

theorem receiptInputs_strip (h : R.Promises strip) (pages : List N.Page) :
    receiptInputs (pages.map strip)
      = (inputsOfPages N 0 pages).map BlockTransactionInputInfo.asReceipt := by
  rw [receiptInputs, inputsOfPages, List.zipIdx_map, List.flatMap_map, List.map_flatMap]
  refine List.flatMap_congr fun p _ => ?_
  simp only [Prod.map, h.inputs, pageInputs, List.map_map]
  rfl

theorem receiptOutputs_strip (h : R.Promises strip) (pages : List N.Page) :
    receiptOutputs (pages.map strip)
      = (outputsOfPages N 0 pages).map BlockTransactionOutputInfo.asReceipt := by
  rw [receiptOutputs, outputsOfPages, List.zipIdx_map, List.flatMap_map, List.map_flatMap]
  refine List.flatMap_congr fun p _ => ?_
  simp only [Prod.map, h.outputs, pageOutputs, List.map_map]
  rfl

/-- **A receipt that is accepted says what its group says.** -/
theorem sameTransaction_of_decoded (hR : R.Promises strip) {pages : List N.Page}
    {stream : BlockPageStream N.Address} (hstream : N.validateBlockPageStream pages = .ok stream)
    {group : PageGroup N.Address} (hgroup : group ∈ stream.groups) {index : ℕ}
    {t : BlockTransactionInfo} (ht : OfGroup N stream pages index group t) {hex : String}
    (hmade : R.MadeOf strip hex (groupPages N stream pages group) t.position) {d : DecodedReceipt}
    (hd : decodeReceipt R hex = .ok d) : SameTransaction t d.tx
      ∧ d.tx.contractFlags = (groupPages N stream pages group).head?.elim 0 (contractFlag N) := by
  obtain ⟨bytes, receipt, hhex, hreceipt, hpages, hindex⟩ := hmade
  obtain ⟨bytes', hbytes, hd⟩ := bind_ok.mp hd
  obtain rfl := Option.some.inj (hhex.symm.trans (orError_ok.mp hbytes))
  simp only [hreceipt, pure_bind, bind_ok, bailIf_ok, mapError_ok, pure_ok, not_not] at hd
  obtain ⟨_, -, _, -, _, -, pages', hpages', facts, hfacts, _, htxid, _, -, rfl⟩ := hd
  obtain rfl := Except.ok.inj (hpages.symm.trans hpages')
  obtain rfl := Except.ok.inj ((hR.spend hstream group hgroup).symm.trans hfacts)
  refine ⟨⟨hindex, htxid.symm.trans ht.txid.symm, ?_, ht.fee.symm, ht.epochAnchor.symm,
    ht.inputOwner.symm, ht.inputSum.symm, ht.outputSum.symm, ?_, ?_, ?_⟩, ?_⟩
  · rw [ht.pageCount, List.length_map, ht.range, UInt32.ofNat_toNat]
  · rw [ht.pageHashes, List.map_map]
    exact List.map_congr_left fun page _ => congrArg _ (hR.pageHash page)
  · exact (receiptInputs_strip hR _).trans (congrArg _ ht.inputs.symm)
  · rw [← List.map_congr_left (fun o _ => asReceipt_unnumbered o)]
    refine (receiptOutputs_strip hR _).trans ?_
    rw [← ht.outputs, List.map_map]
    rfl
  · have hflag : ∀ page, contractFlag N (strip page) = contractFlag N page := fun page => by
      rw [contractFlag, contractFlag, hR.contractBit, hR.terminalBit]
    rw [List.head?_map, Option.elim_map]
    exact congrArg (Option.elim _ 0) (funext hflag)

/-! ## The contract call -/

/-- The flags listed for groups are those of their positions on. -/
theorem le_of_mem_groupFlags {stream : BlockPageStream N.Address} {pages : List N.Page} {m : ℕ}
    (hindex : ∀ i, N.userLogicalIndex stream i = m + i) :
    ∀ {groups : List (PageGroup N.Address)} {index : ℕ} {flags : List (ℕ × ℕ)},
      m + index + groups.length ≤ 2 ^ 32 → groupFlags N stream pages index groups = .ok flags →
        ∀ x ∈ flags, m + index ≤ x.1
  | [], _, flags, _, h => by
      obtain rfl := Except.ok.inj h
      exact nofun
  | group :: groups, index, flags, hfew, h => by
      simp only [groupFlags, bind_ok, orError_ok, pure_ok] at h
      obtain ⟨first, -, rest, hrest, rfl⟩ := h
      rw [List.length_cons] at hfew
      have hlater := le_of_mem_groupFlags hindex (by omega) hrest
      intro x hx
      split_ifs at hx
      · exact (Nat.le_succ _).trans (hlater x hx)
      · rcases List.mem_cons.mp hx with rfl | hx
        · rw [hindex, Nat.mod_eq_of_lt (by omega)]
        · exact (Nat.le_succ _).trans (hlater x hx)

/-- **The flag listed for the position of a group is that of its first page.** -/
theorem lookup_groupFlags {stream : BlockPageStream N.Address} {pages : List N.Page} {m : ℕ}
    (hindex : ∀ i, N.userLogicalIndex stream i = m + i) :
    ∀ {groups : List (PageGroup N.Address)} {index : ℕ} {flags : List (ℕ × ℕ)},
      m + index + groups.length ≤ 2 ^ 32 → groupFlags N stream pages index groups = .ok flags →
        ∀ (k : ℕ) (group : PageGroup N.Address) (page : N.Page), groups[k]? = some group →
          pages[N.userBodyStart stream group.startPage]? = some page →
            (flags.lookup (m + index + k)).getD 0 = contractFlag N page
  | [], _, _, _, _ => nofun
  | group :: groups, index, flags, hfew, h => by
      simp only [groupFlags, bind_ok, orError_ok, pure_ok] at h
      obtain ⟨first, hfirst, rest, hrest, rfl⟩ := h
      rw [List.length_cons] at hfew
      rw [hindex, Nat.mod_eq_of_lt (by omega)]
      rintro (_ | k) group' page hgroup hpage
      · obtain rfl := Option.some.inj hgroup
        obtain rfl := Option.some.inj (hfirst.symm.trans hpage)
        split_ifs with hflag
        · -- nothing is listed for this position, and the rest are later ones
          have hnone : rest.lookup (m + index + 0) = none := by
            refine List.lookup_eq_none_iff.mpr fun x hx => ?_
            have hlater := le_of_mem_groupFlags hindex (by omega) hrest x hx
            simp only [bne_iff_ne, ne_eq]
            omega
          rw [hnone, hflag]
          rfl
        · rw [Nat.add_zero, List.lookup_cons_self]
          rfl
      · have hrec := lookup_groupFlags hindex (by omega) hrest k group' page hgroup hpage
        have hshift : m + index + (k + 1) = m + (index + 1) + k := by omega
        rw [hshift]
        split_ifs
        · exact hrec
        · rw [List.lookup_cons]
          have hne : (m + (index + 1) + k == m + index) = false := by
            simp only [beq_eq_false_iff_ne, ne_eq]
            omega
          rw [hne]
          exact hrec

/-- The calls of a block can be listed if every group has a page. -/
theorem groupFlags_ok {stream : BlockPageStream N.Address} {pages : List N.Page} :
    ∀ (groups : List (PageGroup N.Address)) (index : ℕ),
      (∀ group ∈ groups, ∃ page, pages[N.userBodyStart stream group.startPage]? = some page) →
        ∃ flags, groupFlags N stream pages index groups = .ok flags
  | [], _, _ => ⟨[], rfl⟩
  | group :: groups, index, h => by
      obtain ⟨⟨page, hpage⟩, hgroups⟩ := List.forall_mem_cons.mp h
      obtain ⟨rest, hrest⟩ := groupFlags_ok groups (index + 1) hgroups
      exact ⟨_, bind_ok.mpr ⟨page, orError_ok.mpr hpage, bind_ok.mpr ⟨rest, hrest, rfl⟩⟩⟩

/-- The first page of a group. -/
theorem first_of_group (hR : R.Promises strip) {pages : List N.Page}
    {stream : BlockPageStream N.Address} (hstream : N.validateBlockPageStream pages = .ok stream)
    {group : PageGroup N.Address} (hgroup : group ∈ stream.groups) :
    ∃ page, pages[N.userBodyStart stream group.startPage]? = some page
      ∧ (groupPages N stream pages group).head? = some page := by
  have hspend := hR.spend hstream group hgroup
  rcases hpages : groupPages N stream pages group with _ | ⟨page, rest⟩
  · rw [hpages] at hspend
    exact absurd hspend (hR.hasPage _)
  · have hget : (groupPages N stream pages group)[0]? = some page := by rw [hpages]; rfl
    rw [groupPages, List.getElem?_take] at hget
    split_ifs at hget
    rw [List.getElem?_drop, Nat.add_zero] at hget
    exact ⟨page, hget, rfl⟩

/-- **The receipt decoder and the block decoder agree**: on every user transaction of a block that
is accepted, for every receipt made of it that is accepted, in every field and on the contract
call. -/
theorem decodeReceipt_agrees (hN : N.Positions) (hR : R.Promises strip) {bytes : List UInt8}
    {height : ℕ} {hash : String} {body : RetainedBlockInfo}
    (hdecoded : decodeRetainedBlock N bytes height hash = .ok body) :
    ∃ block stream, decodeBoundBlock N bytes height hash = .ok block
      ∧ N.validateBlockPageStream block.2 = .ok stream
      ∧ ∀ k t, body.transactions[stream.mintingPages + k]? = some t →
        ∃ group, stream.groups[k]? = some group
          ∧ ∀ hex d, R.MadeOf strip hex (groupPages N stream block.2 group) t.position →
            decodeReceipt R hex = .ok d → SameTransaction t d.tx
              ∧ ∃ flags, contractFlagsOf N block.2 = .ok flags
                ∧ d.tx.contractFlags = (flags.lookup t.position.toNat).getD 0 := by
  obtain ⟨D⟩ := decodeRetainedBlock_ok hdecoded
  refine ⟨D.block, D.stream, D.bound, D.validated, fun k t ht => ?_⟩
  obtain ⟨group, hk, hof⟩ := D.exists_group ht
  have hgroup := List.mem_of_getElem? hk
  refine ⟨group, hk, fun hex d hmade hd => ?_⟩
  obtain ⟨hsame, hcall⟩ := sameTransaction_of_decoded hR D.validated hgroup hof hmade hd
  obtain ⟨page, hpage, hfirst⟩ := first_of_group hR D.validated hgroup
  obtain ⟨flags, hflags⟩ : ∃ flags, groupFlags N D.stream D.block.2 0 D.stream.groups = .ok flags :=
    groupFlags_ok _ _ fun g hg => (first_of_group hR D.validated hg).imp fun _ h => h.1
  have hfew := hN.few D.validated
  have hlist : contractFlagsOf N D.block.2 = .ok flags :=
    bind_ok.mpr ⟨D.stream, mapError_ok.mpr D.validated, hflags⟩
  have hposition : t.position.toNat = D.stream.mintingPages + 0 + k := by
    have hlt := (List.getElem?_eq_some_iff.mp hk).1
    rw [hof.position, hN.index D.validated, UInt32.toNat_ofNat', Nat.mod_eq_of_lt (by omega),
      Nat.add_zero]
  refine ⟨hsame, flags, hlist, ?_⟩
  rw [hposition, lookup_groupFlags (hN.index D.validated) (by omega) hflags k group page hk hpage,
    hcall, hfirst]
  rfl

/-! ## A receipt of the small chain -/

/-- The one spend there is. -/
def validateCoinsSpend (pages : List UInt8) : Except String (PagedSpendFacts Unit) :=
  if pages = [2] then .ok coinsSpend else .error "no such spend"

/-- Receipts of the spend of a small block: a receipt is its one page. -/
def ReceiptCrate.coins : ReceiptCrate Noid.coins where
  Receipt := UInt8
  fromBytes bytes := match bytes with
    | [page] => .ok page
    | _ => .error "unexpected end of input"
  toBytes page := [page]
  verifyMerkleInclusion _ := true
  pagedSpend page := [page]
  claimedHeight _ := 1
  claimedRoot _ := []
  txIndex _ := 2
  txCount _ := 3
  logicalTxid page := List.replicate 32 page
  confirmedUnix _ := 0
  fee _ := 1
  inputs _ := [(5, ())]
  outputs _ := []
  pages bytes := .ok bytes
  validatePagedSpend := validateCoinsSpend
  pageHash page := List.replicate 32 page
  sameAddress := instDecidableEqPUnit

theorem promises_coins : ReceiptCrate.coins.Promises id where
  inputs _ := rfl
  outputs _ := rfl
  contractBit _ := rfl
  terminalBit _ := rfl
  pageHash _ := rfl
  spend h group hgroup := by
    obtain ⟨rfl, rfl⟩ := coins_validated h
    rw [List.mem_singleton.mp hgroup]
    rfl
  hasPage _ := nofun

/-- The receipt of the spend of the first small block, which is a contract call. -/
theorem decodeReceipt_agrees_coins : ∃ t ∈ (coinsBody 1).transactions, ∃ d : DecodedReceipt,
    decodeReceipt ReceiptCrate.coins "02" = .ok d ∧ SameTransaction t d.tx
      ∧ ∃ flags, contractFlagsOf Noid.coins (coinsBlock 1).2 = .ok flags
        ∧ d.tx.contractFlags = (flags.lookup t.position.toNat).getD 0 := by
  obtain ⟨block, stream, hbound, hstream, hagree⟩ :=
    decodeReceipt_agrees positions_coins promises_coins
      (by decide +kernel : decodeRetainedBlock Noid.coins [1] 1 "01" = .ok (coinsBody 1))
  have hblock : decodeBoundBlock Noid.coins [1] 1 "01" = .ok (coinsBlock 1) := by decide +kernel
  obtain rfl := Except.ok.inj (hbound.symm.trans hblock)
  obtain ⟨-, rfl⟩ := coins_validated hstream
  obtain ⟨t, ht, hposition⟩ : ∃ t, (coinsBody 1).transactions[2]? = some t ∧ t.position = 2 := by
    decide +kernel
  obtain ⟨group, hgroup, hreceipts⟩ := hagree 0 t ht
  obtain rfl := Option.some.inj hgroup
  have haccepted : (decodeReceipt ReceiptCrate.coins "02").toOption.isSome := by decide +kernel
  obtain ⟨d, hd⟩ := Option.isSome_iff_exists.mp haccepted
  have hd := mem_toOption.mp hd
  exact ⟨t, List.mem_of_getElem? ht, d, hd,
    hreceipts "02" d ⟨[2], (2 : UInt8), by decide +kernel, rfl, rfl, hposition.symm⟩ hd⟩

end Permanode
