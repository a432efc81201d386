import Permanode.Archive.Unique
import Permanode.Import.Filling
import Permanode.Import.Sums
import Permanode.Node.Rules
import Permanode.System.Views

/-!
# Import/Accepted — a decoded body passes the check

`decodeRetainedBlock` and `checkBody` compute the totals of a block apart from each other: from what
the crates say of the pages, and from the transactions of the body.  The way between them is through
the exact sums:

    the crates' facts  →  `AddsUp`, `NoOverflow`, `Counted`  →  `checkBody`

**`checkBody_of_decoded`**: what is decoded is accepted, and a gap that is offered its block is
filled.
-/

namespace Permanode

open Outcome Prog

/-! ## From exact sums to the check -/

/-- Every transaction stands at its index, and every count is that of a list. -/
structure RetainedBlockInfo.Counted (body : RetainedBlockInfo) : Prop where
  position : ∀ (k : ℕ) (t : BlockTransactionInfo), body.transactions[k]? = some t →
    t.position.toNat = k
  pages : ∀ t ∈ body.transactions, t.pageHashes.length = t.pageCount.toNat
  inputs : ∀ t ∈ body.transactions, t.liveInputs.toNat = t.inputs.length
  outputs : ∀ t ∈ body.transactions, t.liveOutputs.toNat = t.outputs.length
  few : body.transactions.length ≤ 256
  logicalTransactions : body.logicalTransactions.toNat = body.transactions.length

/-- **A body whose counts are right and whose sums fit is accepted.** -/
theorem checkBody_of_addsUp {N : Noid} {body : RetainedBlockInfo} {ids : List (List UInt8)}
    {first : BlockTransactionInfo} (hfirst : body.transactions.head? = some first)
    (hcoinbase : first.coinbase = true) (hcounted : body.Counted) (hadd : body.AddsUp)
    (hno : body.NoOverflow)
    (hids : List.Forall₂ (fun t id => txidBytes t.txid = some id) body.transactions ids) :
    checkBody N body (Text.hexEncode (N.rootFromHashes ids)) = .ok () := by
  have hout : ∀ t ∈ body.transactions, (outputTotal t).toNat = exactOutputs t := fun t ht =>
    outputTotal_iff.mpr (hno.outputs t ht)
  have hin : ∀ t ∈ body.transactions, (inputTotal t).toNat = exactInputs t := fun t ht =>
    inputTotal_iff.mpr (hno.inputs t ht)
  have hmem : first ∈ body.transactions := List.mem_of_mem_head? hfirst
  have hfits : ∀ (k : ℕ) (t : BlockTransactionInfo), body.transactions[k]? = some t →
      t.Fits (0 + k) := by
    intro k t hk
    have ht : t ∈ body.transactions := List.mem_of_getElem? hk
    refine ⟨?_, hcounted.pages t ht, hcounted.inputs t ht, hcounted.outputs t ht, ?_, ?_, ?_⟩
    · rw [Nat.zero_add]
      exact hcounted.position k t hk
    · rw [hadd.outputs t ht, hout t ht]
    · rw [hadd.inputs t ht, hin t ht]
    · intro hc hp
      apply UInt64.toNat_inj.mp
      rw [UInt64.toNat_add, hin t ht, hout t ht, Nat.mod_eq_of_lt (hno.balance t ht hc hp)]
      exact hadd.balance t ht hc hp
  refine checkBody_iff.mpr ⟨first, ids, hfirst, hcounted.few, hcoinbase,
    checkTransactions_iff.mpr ⟨hids, hfits⟩, rfl, ?_, ?_, hcounted.logicalTransactions, ?_, ?_, ?_⟩
  · rw [hadd.fees, feeTotal_iff.mpr hno.fees]
  · apply UInt64.toNat_inj.mp
    rw [hout first hmem, hadd.reward first hfirst]
  · apply UInt32.toNat_inj.mp
    rw [hadd.liveInputs, liveInputsTotal_iff.mpr hno.liveInputs]
  · apply UInt32.toNat_inj.mp
    rw [hadd.liveOutputs, liveOutputsTotal_iff.mpr hno.liveOutputs]
  · apply UInt32.toNat_inj.mp
    rw [hadd.userPages, userPagesTotal_iff.mpr hno.userPages]

/-! ## The pages that mint -/

variable {N : Noid}

theorem txidBytes_hexEncode {id : List UInt8} (h : id.length = 32) :
    txidBytes (Text.hexEncode id) = some id := by
  rw [txidBytes, Text.hexDecode_hexEncode]
  exact Option.filter_eq_some_iff.mpr ⟨rfl, decide_eq_true h⟩

/-- The amounts of outputs do not depend on their numbers. -/
theorem amounts_unnumbered (outs : List BlockTransactionOutputInfo) :
    outs.map (fun o => o.amountMicronoid.toNat)
      = (outs.map BlockTransactionOutputInfo.unnumbered).map fun o => o.amountMicronoid.toNat := by
  rw [List.map_map]
  rfl

theorem amounts_pageOutputs (i : ℕ) (outputs : List (ℕ × PageOutput N.Address)) :
    (pageOutputs N i outputs).map (fun o => o.amountMicronoid.toNat)
      = outputs.map fun o => o.2.amount.toNat := by
  rw [pageOutputs, List.map_map]
  rfl

/-- What a transaction of a page that mints adds to the sums. -/
structure Mints (page : N.Page) (position : UInt32) (id : List UInt8) (sum : ℕ)
    (t : BlockTransactionInfo) : Prop where
  position : t.position = position
  txid : t.txid = Text.hexEncode id
  coinbase : t.coinbase = true
  pages : t.pageHashes.length = t.pageCount.toNat
  liveInputs : t.liveInputs = 0
  inputs : t.inputs = []
  inputSum : t.inputSumMicronoid = Nat.repr 0
  outputs : t.liveOutputs.toNat = t.outputs.length
  length_outputs : t.outputs.length = (N.liveOutputs page).length
  outputSum : t.outputSumMicronoid = Nat.repr sum
  amount : exactOutputs t = pageAmount N page

theorem MintedFrom.mints {position : UInt32} {page : N.Page} {id : List UInt8} {payout : Bool}
    {sum : ℕ} {ids : List UInt64} {t : BlockTransactionInfo}
    (h : MintedFrom N position page id payout sum ids t) : Mints page position id sum t := by
  obtain ⟨count, outs, rfl, hcount, hout, -⟩ := h
  have hlength : outs.length = (N.liveOutputs page).length := by
    have hmap := congrArg List.length hout
    rwa [List.length_map, pageOutputs, List.length_map] at hmap
  refine ⟨rfl, rfl, rfl, rfl, rfl, rfl, rfl, hcount.trans hlength.symm, hlength, rfl, ?_⟩
  exact congrArg List.sum ((amounts_unnumbered outs).trans (by rw [hout, amounts_pageOutputs]))

theorem exists_cons {α : Type} {a : α} : ∀ {l : List α}, l[0]? = some a → ∃ rest, l = a :: rest
  | _ :: rest, h => ⟨rest, congrArg (· :: rest) (Option.some.inj h)⟩

/-- **The transactions that mint**: one of each page that does, in order. -/
theorem Decoding.mints {bytes : List UInt8} {height : ℕ} {hash : String} {body : RetainedBlockInfo}
    (D : Decoding N bytes height hash body)
    (hreward : body.rewardMicronoid.toNat = pageAmount N D.coinbase) :
    ∃ minting : List (N.Page × List UInt8),
      minting.map Prod.fst = D.block.2.take D.stream.mintingPages
        ∧ minting.map Prod.snd = D.txids.take D.stream.mintingPages
        ∧ List.Forall₂ (fun p t => Mints p.1.1 (UInt32.ofNat p.2) p.1.2 (pageAmount N p.1.1) t)
          minting.zipIdx (D.first :: D.payout) := by
  have hfirst := D.minted.mints
  have hpaid := D.paidOut
  rw [hreward] at hfirst
  rw [PaidOut] at hpaid
  obtain ⟨rest, hpages⟩ := exists_cons D.coinbase_eq
  obtain ⟨ids, htxids⟩ := exists_cons D.coinbaseTxid_eq
  rw [BlockPageStream.mintingPages, hpages, htxids]
  rw [hpages, htxids] at hpaid
  split_ifs at hpaid ⊢
  · obtain ⟨page, id, t, hpage, hid, hpayout, hmint⟩ := hpaid
    refine ⟨[(D.coinbase, D.coinbaseTxid), (page, id)], ?_, ?_, ?_⟩
    · rw [List.getElem?_cons_succ] at hpage
      rcases rest with _ | ⟨_, rest⟩
      · cases hpage
      · obtain rfl := Option.some.inj hpage
        rfl
    · rw [List.getElem?_cons_succ] at hid
      rcases ids with _ | ⟨_, ids⟩
      · cases hid
      · obtain rfl := Option.some.inj hid
        rfl
    · rw [hpayout]
      exact .cons hfirst (.cons hmint.mints .nil)
  · rw [hpaid]
    exact ⟨[(D.coinbase, D.coinbaseTxid)], rfl, rfl, .cons hfirst .nil⟩

/-! ## The spends -/

theorem amounts_inputsOfPages : ∀ (pages : List N.Page) (index : ℕ),
    ((inputsOfPages N index pages).map fun i => i.amountMicronoid.toNat).sum
      = (pages.map (inputAmount N)).sum
  | [], _ => rfl
  | page :: pages, index => by
      have hrest := amounts_inputsOfPages pages (index + 1)
      have hpage : (pageInputs index (N.liveInputs page)).map (fun i => i.amountMicronoid.toNat)
          = (N.liveInputs page).map fun i => i.2.amount.toNat := by
        rw [pageInputs, List.map_map]
        rfl
      rw [inputsOfPages] at hrest ⊢
      rw [List.zipIdx_cons, List.flatMap_cons, List.map_append, List.sum_append, hpage, hrest,
        List.map_cons, List.sum_cons, inputAmount]

theorem amounts_outputsOfPages : ∀ (pages : List N.Page) (index : ℕ),
    ((outputsOfPages N index pages).map fun o => o.amountMicronoid.toNat).sum
      = (pages.map (pageAmount N)).sum
  | [], _ => rfl
  | page :: pages, index => by
      have hrest := amounts_outputsOfPages pages (index + 1)
      rw [outputsOfPages] at hrest ⊢
      rw [List.zipIdx_cons, List.flatMap_cons, List.map_append, List.sum_append,
        amounts_pageOutputs, hrest, List.map_cons, List.sum_cons, pageAmount]

section OfGroup

variable {stream : BlockPageStream N.Address} {pages : List N.Page} {index : ℕ}
  {group : PageGroup N.Address} {t : BlockTransactionInfo}

theorem OfGroup.exactInputs (h : OfGroup N stream pages index group t)
    (facts : N.SpendFacts (groupPages N stream pages group) group.spend) :
    exactInputs t = group.spend.inputSum := by
  rw [Permanode.exactInputs, h.inputs, amounts_inputsOfPages, facts.inputSum]

theorem OfGroup.exactOutputs (h : OfGroup N stream pages index group t)
    (facts : N.SpendFacts (groupPages N stream pages group) group.spend) :
    exactOutputs t = group.spend.outputSum := by
  rw [Permanode.exactOutputs, amounts_unnumbered, h.outputs, amounts_outputsOfPages,
    facts.outputSum]

theorem OfGroup.length_inputs (h : OfGroup N stream pages index group t)
    (facts : N.SpendFacts (groupPages N stream pages group) group.spend) :
    t.liveInputs.toNat = t.inputs.length := by
  rw [h.liveInputs, h.inputs, length_inputsOfPages, facts.liveInputs]

theorem OfGroup.length_outputs (h : OfGroup N stream pages index group t)
    (facts : N.SpendFacts (groupPages N stream pages group) group.spend) :
    t.liveOutputs.toNat = t.outputs.length := by
  have hlength := congrArg List.length h.outputs
  rw [List.length_map, length_outputsOfPages] at hlength
  rw [h.liveOutputs, hlength, facts.liveOutputs]

end OfGroup

/-! ## The totals of a decoding -/

theorem toNat_saturatingAdd64 {a b : UInt64} (h : a.toNat + b.toNat < 2 ^ 64) :
    (saturatingAdd64 a b).toNat = a.toNat + b.toNat := by
  rw [saturatingAdd64, UInt64.toNat_ofNat', Nat.mod_eq_of_lt (by omega)]
  omega

theorem toNat_saturatingAdd32 {a b : UInt32} (h : a.toNat + b.toNat < 2 ^ 32) :
    (saturatingAdd32 a b).toNat = a.toNat + b.toNat := by
  rw [saturatingAdd32, UInt32.toNat_ofNat', Nat.mod_eq_of_lt (by omega)]
  omega

/-- A sum that saturates is exact if it fits. -/
theorem toNat_foldl_saturatingAdd64 : ∀ (l : List UInt64) (a : UInt64),
    a.toNat + (l.map UInt64.toNat).sum < 2 ^ 64 →
      (l.foldl saturatingAdd64 a).toNat = a.toNat + (l.map UInt64.toNat).sum
  | [], _, _ => rfl
  | b :: l, a, h => by
      rw [List.map_cons, List.sum_cons] at h ⊢
      have hstep := toNat_saturatingAdd64 (a := a) (b := b) (by omega)
      rw [List.foldl_cons, toNat_foldl_saturatingAdd64 l _ (by omega), hstep, Nat.add_assoc]

section Decoding

variable {bytes : List UInt8} {height : ℕ} {hash : String} {body : RetainedBlockInfo}
  (D : Decoding N bytes height hash body)

namespace Decoding

/-- The transactions that mint, then the spends. -/
theorem transactions_eq : body.transactions = (D.first :: D.payout) ++ D.users :=
  D.transactions

theorem length_minting : (D.first :: D.payout).length = D.stream.mintingPages :=
  length_payout D.paidOut

/-- The values of the spends are those of their groups. -/
theorem map_users {β : Type} {f : BlockTransactionInfo → β} {g : PageGroup N.Address → β}
    (hfg : ∀ index group t, OfGroup N D.stream D.block.2 index group t → f t = g group) :
    D.users.map f = D.stream.groups.map g := by
  rw [map_eq_of_forall₂ (f := fun p : PageGroup N.Address × ℕ => g p.1)
    (fun p t h => hfg p.2 p.1 t h) D.grouped]
  exact map_zipIdx_fst g _

theorem exists_of_mem_users {t : BlockTransactionInfo} (ht : t ∈ D.users) :
    ∃ index, ∃ group ∈ D.stream.groups, OfGroup N D.stream D.block.2 index group t := by
  obtain ⟨⟨group, index⟩, hmem, hof⟩ := exists_of_forall₂ D.grouped ht
  exact ⟨index, group, List.fst_mem_of_mem_zipIdx hmem, hof⟩

variable (rules : N.Rules)

include D rules

theorem reward_eq : body.rewardMicronoid.toNat = pageAmount N D.coinbase := by
  have hmem : D.coinbase ∈ D.block.2.take D.stream.mintingPages := by
    obtain ⟨rest, hpages⟩ := exists_cons D.coinbase_eq
    rw [hpages, BlockPageStream.mintingPages]
    split_ifs <;> exact List.mem_cons_self
  have hfits := (rules.facts D.validated).minted _ hmem
  have hmap : (((N.liveOutputs D.coinbase).map fun o => o.2.amount).map UInt64.toNat).sum
      = pageAmount N D.coinbase := by
    rw [List.map_map]
    rfl
  have hzero : (0 : UInt64).toNat = 0 := rfl
  rw [D.reward, toNat_foldl_saturatingAdd64 _ _ (by rw [hmap, hzero, Nat.zero_add]; exact hfits),
    hmap, hzero, Nat.zero_add]

/-- A transaction is that of a page that mints, or a spend. -/
theorem mem_cases {t : BlockTransactionInfo} (ht : t ∈ body.transactions) :
    (∃ page ∈ D.block.2.take D.stream.mintingPages, ∃ position id,
        Mints page position id (pageAmount N page) t)
      ∨ ∃ index, ∃ group ∈ D.stream.groups, OfGroup N D.stream D.block.2 index group t
        ∧ N.SpendFacts (groupPages N D.stream D.block.2 group) group.spend := by
  rw [D.transactions_eq, List.mem_append] at ht
  rcases ht with ht | ht
  · obtain ⟨minting, hpages, -, hmints⟩ := D.mints (D.reward_eq rules)
    obtain ⟨⟨⟨page, id⟩, i⟩, hmem, hmint⟩ := exists_of_forall₂ hmints ht
    refine Or.inl ⟨page, ?_, _, id, hmint⟩
    rw [← hpages]
    exact List.mem_map_of_mem (List.fst_mem_of_mem_zipIdx hmem)
  · obtain ⟨index, group, hgroup, hof⟩ := D.exists_of_mem_users ht
    exact Or.inr ⟨index, group, hgroup, hof, (rules.facts D.validated).spends group hgroup⟩

/-- The sum of what only the spends have. -/
theorem sum_of_spends {f : BlockTransactionInfo → ℕ} (hzero : ∀ t, t.coinbase = true →
    t.liveInputs = 0 → f t = 0) : (body.transactions.map f).sum = (D.users.map f).sum := by
  have hmints : ∀ t ∈ D.first :: D.payout, f t = 0 := by
    intro t ht
    obtain ⟨minting, -, -, hall⟩ := D.mints (D.reward_eq rules)
    obtain ⟨p, -, hmint⟩ := exists_of_forall₂ hall ht
    exact hzero t hmint.coinbase hmint.liveInputs
  have hnone : ((D.first :: D.payout).map f).sum = 0 := List.sum_eq_zero fun n hn => by
    obtain ⟨t, ht, rfl⟩ := List.mem_map.mp hn
    exact hmints t ht
  rw [D.transactions_eq, List.map_append, List.sum_append, hnone, Nat.zero_add]

/-- **The counts of a decoding.** -/
theorem counted : body.Counted := by
  have hlength : body.transactions.length = D.stream.mintingPages + D.stream.groups.length := by
    rw [D.transactions_eq, List.length_append, D.length_minting, ← D.grouped.length_eq,
      List.length_zipIdx]
  have hfew := rules.few D.validated
  refine ⟨fun k t hk => ?_, fun t ht => ?_, fun t ht => ?_, fun t ht => ?_, ?_, ?_⟩
  · have hlt : k < 256 := (List.getElem?_eq_some_iff.mp hk).1.trans_le (hlength.trans_le hfew)
    rcases lt_or_ge k D.stream.mintingPages with hmint | hspend
    · obtain ⟨minting, -, -, hmints⟩ := D.mints (D.reward_eq rules)
      rw [D.transactions_eq, List.getElem?_append_left (by rwa [D.length_minting])] at hk
      obtain ⟨⟨p, i⟩, hp, hm⟩ := forall₂_getElem? hmints hk
      rw [List.getElem?_zipIdx, Option.map_eq_some_iff] at hp
      obtain ⟨_, -, hpair⟩ := hp
      obtain ⟨-, rfl⟩ := Prod.mk.inj hpair
      rw [hm.position, UInt32.toNat_ofNat', Nat.zero_add, Nat.mod_eq_of_lt (by omega)]
    · obtain ⟨j, rfl⟩ := Nat.exists_eq_add_of_le hspend
      obtain ⟨group, -, hof⟩ := D.exists_group hk
      rw [hof.position, rules.index D.validated, UInt32.toNat_ofNat', Nat.mod_eq_of_lt (by omega)]
  · obtain ⟨page, -, _, id, hm⟩ | ⟨_, group, -, hof, facts⟩ := D.mem_cases rules ht
    · exact hm.pages
    · rw [hof.pageHashes, List.length_map, hof.range, hof.pageCount]
  · obtain ⟨page, -, _, id, hm⟩ | ⟨_, group, -, hof, facts⟩ := D.mem_cases rules ht
    · rw [hm.liveInputs, hm.inputs]
      rfl
    · exact hof.length_inputs facts
  · obtain ⟨page, -, _, id, hm⟩ | ⟨_, group, -, hof, facts⟩ := D.mem_cases rules ht
    · exact hm.outputs
    · exact hof.length_outputs facts
  · rw [hlength]
    exact hfew
  · rw [D.logicalTransactions, (rules.txids D.validated D.computed).1, UInt32.toNat_ofNat',
      Nat.mod_eq_of_lt (by omega), hlength]

theorem exactFees_eq : exactFees body.transactions
    = (D.stream.groups.map fun g => g.spend.fee.toNat).sum := by
  have hspends : ∀ t ∈ D.users, decide (¬ t.coinbase) = true := fun t ht => by
    obtain ⟨_, _, -, hof⟩ := D.exists_of_mem_users ht
    exact decide_eq_true (by rw [hof.coinbase]; exact Bool.false_ne_true)
  have hmints : ∀ t ∈ D.first :: D.payout, ¬ decide (¬ t.coinbase) = true := fun t ht => by
    obtain ⟨minting, -, -, hall⟩ := D.mints (D.reward_eq rules)
    obtain ⟨p, -, hmint⟩ := exists_of_forall₂ hall ht
    exact fun h => of_decide_eq_true h hmint.coinbase
  rw [exactFees, D.transactions_eq, List.filter_append, List.filter_eq_nil_iff.mpr hmints,
    List.nil_append, List.filter_eq_self.mpr hspends,
    D.map_users (g := fun g => g.spend.fee.toNat) fun _ _ _ h => by rw [h.fee]]

theorem exactUserPages_eq : exactUserPages body.transactions = D.stream.pageCount.toNat := by
  have hspends : ∀ t ∈ D.users, decide (¬ t.coinbase ∧ ¬ t.developmentPayout) = true :=
    fun t ht => by
      obtain ⟨_, _, -, hof⟩ := D.exists_of_mem_users ht
      rw [hof.coinbase, hof.developmentPayout]
      rfl
  have hmints : ∀ t ∈ D.first :: D.payout,
      ¬ decide (¬ t.coinbase ∧ ¬ t.developmentPayout) = true := fun t ht => by
    obtain ⟨minting, -, -, hall⟩ := D.mints (D.reward_eq rules)
    obtain ⟨p, -, hmint⟩ := exists_of_forall₂ hall ht
    exact fun h => (of_decide_eq_true h).1 hmint.coinbase
  rw [exactUserPages, D.transactions_eq, List.filter_append, List.filter_eq_nil_iff.mpr hmints,
    List.nil_append, List.filter_eq_self.mpr hspends, (rules.facts D.validated).pageCount,
    D.map_users (g := fun g => g.pageCount.toNat) fun _ _ _ h => by rw [h.pageCount]]

theorem exactLiveInputs_eq : exactLiveInputs body.transactions = D.stream.liveInputs.toNat := by
  have hmints : ∀ t : BlockTransactionInfo, t.coinbase = true → t.liveInputs = 0 →
      t.liveInputs.toNat = 0 := fun _ _ h => by rw [h]; rfl
  rw [exactLiveInputs, D.sum_of_spends rules hmints, (rules.facts D.validated).liveInputs,
    D.map_users (g := fun g => g.spend.liveInputs.toNat) fun _ _ _ h => by rw [h.liveInputs]]

theorem exactLiveOutputs_eq : exactLiveOutputs body.transactions
    = outputCount N (D.block.2.take D.stream.mintingPages) + D.stream.liveOutputs.toNat := by
  obtain ⟨minting, hpages, -, hmints⟩ := D.mints (D.reward_eq rules)
  have hmap : (D.first :: D.payout).map (fun t => t.liveOutputs.toNat)
      = (minting.map Prod.fst).map fun page => (N.liveOutputs page).length := by
    rw [map_eq_of_forall₂ (f := fun p : (N.Page × List UInt8) × ℕ => (N.liveOutputs p.1.1).length)
      (fun p t h => h.outputs.trans h.length_outputs) hmints, List.map_map]
    exact map_zipIdx_fst (fun p : N.Page × List UInt8 => (N.liveOutputs p.1).length) minting
  rw [exactLiveOutputs, D.transactions_eq, List.map_append, List.sum_append, hmap, hpages,
    (rules.facts D.validated).liveOutputs,
    D.map_users (g := fun g => g.spend.liveOutputs.toNat) fun _ _ _ h => by rw [h.liveOutputs]]
  rfl

theorem liveOutputs_eq : body.liveOutputs.toNat
    = outputCount N (D.block.2.take D.stream.mintingPages) + D.stream.liveOutputs.toNat := by
  obtain ⟨count, hcount, hlive⟩ := D.liveOutputs
  have hexact := D.exactLiveOutputs_eq rules
  have hfits := (rules.facts D.validated).outputs
  have hpayout : (D.payout.map fun t => t.liveOutputs.toNat).sum
    = (creationIds D.payout).length := by
    rw [creationIds, List.length_flatMap]
    refine congrArg List.sum (List.map_congr_left fun t ht => ?_)
    have hmem : t ∈ body.transactions := by
      rw [D.transactions_eq]
      exact List.mem_append_left _ (List.mem_cons_of_mem _ ht)
    rw [(D.counted rules).outputs t hmem, List.length_map]
  rw [exactLiveOutputs, D.transactions_eq, List.map_append, List.sum_append, List.map_cons,
    List.sum_cons, hpayout, D.map_users (g := fun g => g.spend.liveOutputs.toNat)
      fun _ _ _ h => by rw [h.liveOutputs], ← (rules.facts D.validated).liveOutputs] at hexact
  have hfirst : (saturatingAdd32 D.stream.liveOutputs D.first.liveOutputs).toNat
      = D.stream.liveOutputs.toNat + D.first.liveOutputs.toNat := toNat_saturatingAdd32 (by omega)
  rw [hlive, toNat_saturatingAdd32 (by omega), hfirst]
  omega

/-- **The sums of a decoding are exact.** -/
theorem addsUp : body.AddsUp := by
  refine ⟨fun t ht => ?_, fun t ht => ?_, fun t ht hc _ => ?_, ?_,
    fun first hfirst => ?_, ?_, ?_, ?_⟩
  · obtain ⟨page, -, _, id, hm⟩ | ⟨_, group, -, hof, facts⟩ := D.mem_cases rules ht
    · rw [hm.outputSum, hm.amount]
    · rw [hof.outputSum, hof.exactOutputs facts]
  · obtain ⟨page, -, _, id, hm⟩ | ⟨_, group, -, hof, facts⟩ := D.mem_cases rules ht
    · rw [hm.inputSum, exactInputs, hm.inputs]
      rfl
    · rw [hof.inputSum, hof.exactInputs facts]
  · obtain ⟨page, -, _, id, hm⟩ | ⟨_, group, -, hof, facts⟩ := D.mem_cases rules ht
    · exact absurd hm.coinbase (by rw [hc]; exact Bool.false_ne_true)
    · rw [hof.exactInputs facts, hof.exactOutputs facts, hof.fee, facts.balance]
  · rw [D.fees, D.exactFees_eq rules]
  · rw [D.transactions] at hfirst
    obtain rfl := Option.some.inj hfirst
    rw [D.reward_eq rules, (D.minted.mints).amount]
  · rw [D.liveInputs, D.exactLiveInputs_eq rules]
  · rw [D.liveOutputs_eq rules, D.exactLiveOutputs_eq rules]
  · rw [D.userPages, D.exactUserPages_eq rules]

/-- **No sum of a decoding leaves its type.** -/
theorem noOverflow : body.NoOverflow := by
  have hfacts := rules.facts D.validated
  refine ⟨fun t ht => ?_, fun t ht => ?_, fun t ht hc _ => ?_, ?_, ?_, ?_, ?_⟩
  · obtain ⟨page, hpage, _, id, hm⟩ | ⟨_, group, -, hof, facts⟩ := D.mem_cases rules ht
    · rw [hm.amount]
      exact hfacts.minted page hpage
    · rw [hof.exactOutputs facts]
      have hbalance := facts.balance
      have hfits := facts.fits
      omega
  · obtain ⟨page, -, _, id, hm⟩ | ⟨_, group, -, hof, facts⟩ := D.mem_cases rules ht
    · rw [exactInputs, hm.inputs]
      exact Nat.two_pow_pos 64
    · rw [hof.exactInputs facts]
      exact facts.fits
  · obtain ⟨page, -, _, id, hm⟩ | ⟨_, group, -, hof, facts⟩ := D.mem_cases rules ht
    · exact absurd hm.coinbase (by rw [hc]; exact Bool.false_ne_true)
    · rw [hof.exactOutputs facts, hof.fee, ← facts.balance]
      exact facts.fits
  · rw [D.exactFees_eq rules]
    exact hfacts.fees
  · rw [D.exactLiveInputs_eq rules]
    exact D.stream.liveInputs.toNat_lt
  · rw [D.exactLiveOutputs_eq rules]
    exact hfacts.outputs
  · rw [D.exactUserPages_eq rules]
    exact D.stream.pageCount.toNat_lt

/-- **The ids of a decoding** are those the crates compute. -/
theorem forall₂_txidBytes :
    List.Forall₂ (fun t id => txidBytes t.txid = some id) body.transactions D.txids := by
  obtain ⟨minting, -, hids, hmints⟩ := D.mints (D.reward_eq rules)
  obtain ⟨-, hspends⟩ := rules.txids D.validated D.computed
  have hmint : (D.first :: D.payout).map BlockTransactionInfo.txid
      = (D.txids.take D.stream.mintingPages).map Text.hexEncode := by
    rw [map_eq_of_forall₂ (f := fun p : (N.Page × List UInt8) × ℕ => Text.hexEncode p.1.2)
      (fun p t h => h.txid) hmints, ← hids, List.map_map]
    exact map_zipIdx_fst (fun p : N.Page × List UInt8 => Text.hexEncode p.2) minting
  have hall : body.transactions.map BlockTransactionInfo.txid = D.txids.map Text.hexEncode := by
    rw [D.transactions_eq, List.map_append, hmint,
      D.map_users (g := fun g => Text.hexEncode g.spend.logicalTxid) fun _ _ _ h => h.txid]
    have hmap : D.stream.groups.map (fun g => Text.hexEncode g.spend.logicalTxid)
        = (D.txids.drop D.stream.mintingPages).map Text.hexEncode := by
      rw [hspends, List.map_map]
      rfl
    rw [hmap, ← List.map_append, List.take_append_drop]
  have hbytes : body.transactions.map (fun t => txidBytes t.txid) = D.txids.map some := by
    have hmap := congrArg (List.map txidBytes) hall
    rw [List.map_map, List.map_map] at hmap
    exact hmap.trans (List.map_congr_left fun id hid =>
      txidBytes_hexEncode (rules.width D.computed id hid))
  rw [← List.forall₂_eq_eq_eq, List.forall₂_map_left_iff, List.forall₂_map_right_iff] at hbytes
  exact hbytes

/-- **What is decoded is accepted.** -/
theorem checkBody : checkBody N body (Text.hexEncode (N.txRoot D.block.1)) = .ok () := by
  obtain ⟨-, -, -, hroot, -⟩ := decodeBoundBlock_ok.mp D.bound
  have hpages : D.block.2 ≠ [] := by
    obtain ⟨rest, h⟩ := exists_cons D.coinbase_eq
    rw [h]
    exact List.cons_ne_nil _ _
  rw [rules.root D.computed (hroot hpages)]
  exact checkBody_of_addsUp (congrArg List.head? D.transactions) D.minted.mints.coinbase
    (D.counted rules) (D.addsUp rules) (D.noOverflow rules) (D.forall₂_txidBytes rules)

end Decoding

end Decoding

/-! ## The gap is filled -/

section Filling

variable {cfg : Config} {W : Type} {world : ∀ q : Query, W → q.Answer × W}

/-- A gap that is offered what passes is recorded when its turn comes. -/
theorem recorded_fillHeight (cfg : Config) (hfit : Db.Fits N world) {source : String}
    (hs : source ≠ headerOnlySource) (resolution : String) (keep : Bool) (report : ImportReport)
    {height id : ℕ} {hash root : String} {db : Db} {w : W} {body : RetainedBlockInfo}
    {bytes : Option (List UInt8)} (hreq : db.request height = some (hash, id, root))
    (hjudge : judgeOffer N height hash root (world (.offer height hash) w).1
      = .accepted body bytes) :
    ∃ report' db' w', drive (Txn.exec N cfg) world
        (fillHeight N source resolution keep report height) db w = (.ok report', db', w')
      ∧ db'.Recorded height hash := by
  obtain ⟨report', db', w', hdrive, -⟩ :=
    Db.fillHeight_filledAt cfg hfit source resolution keep report height db w
  refine ⟨report', db', w', hdrive, ?_⟩
  rw [Db.drive_fillHeight, hreq] at hdrive
  dsimp only at hdrive
  rw [hjudge] at hdrive
  dsimp only at hdrive
  split at hdrive
  · next hfill =>
    obtain ⟨-, rfl, -⟩ := (Prod.mk.inj hdrive).imp_right Prod.mk.inj
    obtain ⟨b, hb, hid, hh, hhash, -⟩ := Db.mem_of_request hreq
    exact Db.recorded_fillBody hs hfill ⟨b, hb, hid, hh, hhash⟩
  · exact nomatch (Prod.mk.inj hdrive).1

/-- **A gap that is offered what passes is recorded by the round**, whatever the others get. -/
theorem recorded_fillHeights (cfg : Config) (hfit : Db.Fits N world) {source : String}
    (hs : source ≠ headerOnlySource) (resolution : String) (keep : Bool) {height id : ℕ}
    {hash root : String} (hoffer : ∀ w, ∃ body bytes, judgeOffer N height hash root
      (world (.offer height hash) w).1 = .accepted body bytes) :
    ∀ (heights : List ℕ) (report : ImportReport) (db : Db) (w : W), heights.Nodup →
      height ∈ heights → db.request height = some (hash, id, root) →
      ∃ report' db' w', drive (Txn.exec N cfg) world
          (foldEach (fillHeight N source resolution keep) report heights) db w
            = (.ok report', db', w')
        ∧ db'.Recorded height hash
  | [], _, _, _, _, hmem, _ => absurd hmem List.not_mem_nil
  | k :: heights, report, db, w, hnodup, hmem, hreq => by
      obtain ⟨hk, hnodup⟩ := List.nodup_cons.mp hnodup
      rw [drive_foldEach_cons]
      by_cases hkh : height = k
      · subst hkh
        obtain ⟨body, bytes, hjudge⟩ := hoffer w
        obtain ⟨report₁, db₁, w₁, hdrive, hrec⟩ :=
          recorded_fillHeight cfg hfit hs resolution keep report hreq hjudge
        rw [hdrive]
        -- the gaps that follow are of other heights
        refine Db.fillHeights_inv cfg hfit (fun j hj d d' hd hI => ?_) report₁ db₁ w₁ hrec
        have hne : height ≠ j := fun h => hk (h ▸ hj)
        exact (hd.recorded_iff hs hne hash).mpr hI
      · obtain ⟨report₁, db₁, w₁, hdrive, hfilled⟩ :=
          Db.fillHeight_filledAt cfg hfit source resolution keep report k db w
        rw [hdrive]
        exact recorded_fillHeights cfg hfit hs resolution keep hoffer heights report₁ db₁ w₁ hnodup
          ((List.mem_cons.mp hmem).resolve_left hkh) ((hfilled.request_eq hs hkh).trans hreq)

end Filling

/-- **The decoder's output is never refused**: what is decoded for a height and hash passes the
check against that block's `tx_root`, so that every round which takes up the gap and is offered the
bytes records the body. -/
theorem checkBody_of_decoded (rules : N.Rules) {bytes : List UInt8} {height : ℕ} {hash : String}
    {body : RetainedBlockInfo} (hdecoded : decodeRetainedBlock N bytes height hash = .ok body) :
    ∃ block, decodeBoundBlock N bytes height hash = .ok block
      ∧ checkBody N body (Text.hexEncode (N.txRoot block.1)) = .ok ()
      ∧ ∀ (cfg : Config) {W : Type} (world : ∀ q : Query, W → q.Answer × W) (max : Option ℕ)
          (source resolution : String) (keep : Bool) (db : Db) (id : ℕ) (w : W),
        source ≠ headerOnlySource → Db.Fits N world →
        (∀ w, (world (.offer height hash) w).1 = .ok (some (.raw bytes))) →
        height ∈ db.takenHeights max →
        db.request height = some (hash, id, Text.hexEncode (N.txRoot block.1)) →
        ∃ report db' w', drive (Txn.exec N cfg) world (fillGaps N max source resolution keep) db w
            = (.ok report, db', w')
          ∧ db'.Recorded height hash := by
  obtain ⟨D⟩ := decodeRetainedBlock_ok hdecoded
  have hcheck := D.checkBody rules
  refine ⟨D.block, D.bound, hcheck, ?_⟩
  intro cfg W world max source resolution keep db id w hs hfit hraw hmem hreq
  have hjudge : ∀ w, ∃ body bytes, judgeOffer N height hash (Text.hexEncode (N.txRoot D.block.1))
      (world (.offer height hash) w).1 = .accepted body bytes := by
    intro w
    refine ⟨body, some bytes, ?_⟩
    simp only [hraw w, judgeOffer, hdecoded, judgeBody, hcheck]
  obtain ⟨report, db', w', hdrive, hrec⟩ := recorded_fillHeights cfg hfit hs resolution keep hjudge
    (db.takenHeights max) { gaps := (db.openGapHeights 0).length } db w (db.nodup_takenHeights max)
    hmem hreq
  rw [Db.drive_fillGaps, hdrive]
  exact ⟨_, _, _, rfl, Db.recorded_maintained hrec⟩

/-! ### A gap of the small chain -/

/-- The header of a block of the small chain. -/
def coinsHeader : BlockHeaderInfo :=
  { sampleHeader with hash := "07", txRoot := Text.hexEncode (Noid.coins.txRoot (7 : ℕ)) }

/-- The block at height 7 as the node's header has it, an open gap. -/
def coinsGap : Db :=
  ({ Db.empty with blocks := Table.insertOrIgnore ∅ (Db.headerRow 1 coinsHeader false none 100) }
    |>.appendStatus 1 .canonical 100).recordGap 7 (some "07") 100 "pruned"

/-- A source that has the raw bytes of the block. -/
def coinsSource : ∀ q : Query, Unit → q.Answer × Unit
  | .offer _ _, w => (.ok (some (.raw [7])), w)
  | q, w => (chainAnswers [] 0 q, w)

/-- The gap is filled, and the body has three transactions. -/
theorem checkBody_of_decoded_coins :
    checkBody Noid.coins (coinsBody 7) coinsHeader.txRoot = .ok ()
      ∧ (coinsBody 7).transactions.length = 3
      ∧ ∃ report db' w', drive (Txn.exec Noid.coins {}) coinsSource
          (fillGaps Noid.coins none "import" "recovered" true) coinsGap () = (.ok report, db', w')
        ∧ db'.Recorded 7 "07" := by
  obtain ⟨block, hbound, hcheck, hfill⟩ := checkBody_of_decoded rules_coins
    (by decide +kernel : decodeRetainedBlock Noid.coins [7] 7 "07" = .ok (coinsBody 7))
  have hblock : decodeBoundBlock Noid.coins [7] 7 "07" = .ok (coinsBlock 7) := by decide +kernel
  obtain rfl := Except.ok.inj (hbound.symm.trans hblock)
  refine ⟨hcheck, by decide +kernel,
    hfill {} coinsSource none "import" "recovered" true coinsGap 1 () (by decide) ?_ (fun _ => rfl)
      (by decide +kernel) (by decide +kernel)⟩
  intro height hash w bytes h
  obtain rfl := Offer.raw.inj (Option.some.inj (Except.ok.inj h))
  exact le_refl 1

end Permanode
