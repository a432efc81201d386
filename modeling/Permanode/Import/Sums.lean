import Permanode.Foundations.Words
import Permanode.Import.RoundTrip

/-!
# Import/Sums — what the sums of a checked body are worth

`checkBody` adds up 64-bit amounts and 32-bit counts, and the sums wrap.  It compares them with what
the body says, so a body is accepted whose exact sums are others (`Db.checkBody_wraps`).

**`checkBody_exact_iff`**: an accepted body adds up exactly iff none of its sums wraps.
-/

namespace Permanode

/-! ## The exact sums -/

/-- The output amounts of a transaction, added up exactly. -/
def exactOutputs (t : BlockTransactionInfo) : ℕ :=
  (t.outputs.map fun o => o.amountMicronoid.toNat).sum

/-- The sum of the inputs, exact. -/
def exactInputs (t : BlockTransactionInfo) : ℕ :=
  (t.inputs.map fun i => i.amountMicronoid.toNat).sum

/-- The fees of the transactions that are no coinbase. -/
def exactFees (txs : List BlockTransactionInfo) : ℕ :=
  ((txs.filter fun t => ¬ t.coinbase).map fun t => t.feeMicronoid.toNat).sum

/-- The inputs of a body, exact. -/
def exactLiveInputs (txs : List BlockTransactionInfo) : ℕ :=
  (txs.map fun t => t.liveInputs.toNat).sum

/-- Its outputs, exact. -/
def exactLiveOutputs (txs : List BlockTransactionInfo) : ℕ :=
  (txs.map fun t => t.liveOutputs.toNat).sum

/-- The pages of the transactions that spend. -/
def exactUserPages (txs : List BlockTransactionInfo) : ℕ :=
  ((txs.filter fun t => ¬ t.coinbase ∧ ¬ t.developmentPayout).map fun t => t.pageCount.toNat).sum

namespace RetainedBlockInfo

/-- Every sum of the body is the exact one. -/
structure AddsUp (body : RetainedBlockInfo) : Prop where
  outputs : ∀ t ∈ body.transactions, t.outputSumMicronoid = Nat.repr (exactOutputs t)
  inputs : ∀ t ∈ body.transactions, t.inputSumMicronoid = Nat.repr (exactInputs t)
  balance : ∀ t ∈ body.transactions, t.coinbase = false → t.developmentPayout = false →
    exactInputs t = exactOutputs t + t.feeMicronoid.toNat
  fees : body.totalFeesMicronoid = Nat.repr (exactFees body.transactions)
  reward : ∀ first ∈ body.transactions.head?, body.rewardMicronoid.toNat = exactOutputs first
  liveInputs : body.liveInputs.toNat = exactLiveInputs body.transactions
  liveOutputs : body.liveOutputs.toNat = exactLiveOutputs body.transactions
  userPages : body.userPages.toNat = exactUserPages body.transactions

/-- No sum of the body leaves its type. -/
structure NoOverflow (body : RetainedBlockInfo) : Prop where
  outputs : ∀ t ∈ body.transactions, exactOutputs t < 2 ^ 64
  inputs : ∀ t ∈ body.transactions, exactInputs t < 2 ^ 64
  balance : ∀ t ∈ body.transactions, t.coinbase = false → t.developmentPayout = false →
    exactOutputs t + t.feeMicronoid.toNat < 2 ^ 64
  fees : exactFees body.transactions < 2 ^ 64
  liveInputs : exactLiveInputs body.transactions < 2 ^ 32
  liveOutputs : exactLiveOutputs body.transactions < 2 ^ 32
  userPages : exactUserPages body.transactions < 2 ^ 32

end RetainedBlockInfo

/-! ## The sums of the code -/

theorem outputTotal_iff {t : BlockTransactionInfo} :
    (outputTotal t).toNat = exactOutputs t ↔ exactOutputs t < 2 ^ 64 := by
  have h := UInt64.toNat_sum_eq_iff (l := t.outputs.map BlockTransactionOutputInfo.amountMicronoid)
  rwa [List.map_map] at h

theorem inputTotal_iff {t : BlockTransactionInfo} :
    (inputTotal t).toNat = exactInputs t ↔ exactInputs t < 2 ^ 64 := by
  have h := UInt64.toNat_sum_eq_iff (l := t.inputs.map BlockTransactionInputInfo.amountMicronoid)
  rwa [List.map_map] at h

theorem feeTotal_iff {txs : List BlockTransactionInfo} :
    (feeTotal txs).toNat = exactFees txs ↔ exactFees txs < 2 ^ 64 := by
  have h := UInt64.toNat_sum_eq_iff
    (l := (txs.filter fun t => ¬ t.coinbase).map BlockTransactionInfo.feeMicronoid)
  rwa [List.map_map] at h

theorem liveInputsTotal_iff {txs : List BlockTransactionInfo} :
    (liveInputsTotal txs).toNat = exactLiveInputs txs ↔ exactLiveInputs txs < 2 ^ 32 := by
  have h := UInt32.toNat_sum_eq_iff (l := txs.map BlockTransactionInfo.liveInputs)
  rwa [List.map_map] at h

theorem liveOutputsTotal_iff {txs : List BlockTransactionInfo} :
    (liveOutputsTotal txs).toNat = exactLiveOutputs txs ↔ exactLiveOutputs txs < 2 ^ 32 := by
  have h := UInt32.toNat_sum_eq_iff (l := txs.map BlockTransactionInfo.liveOutputs)
  rwa [List.map_map] at h

theorem userPagesTotal_iff {txs : List BlockTransactionInfo} :
    (userPagesTotal txs).toNat = exactUserPages txs ↔ exactUserPages txs < 2 ^ 32 := by
  have h := UInt32.toNat_sum_eq_iff (l := (txs.filter fun t =>
    ¬ t.coinbase ∧ ¬ t.developmentPayout).map BlockTransactionInfo.pageCount)
  rwa [List.map_map] at h

/-- The fee closes a transaction that does not wrap. -/
theorem balance_iff {t : BlockTransactionInfo} (hin : exactInputs t < 2 ^ 64)
    (hout : exactOutputs t < 2 ^ 64) (h : inputTotal t = outputTotal t + t.feeMicronoid) :
    exactInputs t = exactOutputs t + t.feeMicronoid.toNat
      ↔ exactOutputs t + t.feeMicronoid.toNat < 2 ^ 64 := by
  have hsum := congrArg UInt64.toNat h
  rw [UInt64.toNat_add, inputTotal_iff.mpr hin, outputTotal_iff.mpr hout] at hsum
  rw [hsum]
  exact mod_eq_iff_lt (by decide)

/-- Every transaction of a body that is accepted fits its index. -/
theorem fits_of_mem {txs : List BlockTransactionInfo} {ids : List (List UInt8)}
    (h : checkTransactions 0 txs = .ok ids) {t : BlockTransactionInfo} (ht : t ∈ txs) :
    ∃ i, t.Fits i := by
  obtain ⟨k, hk⟩ := List.mem_iff_getElem?.mp ht
  exact ⟨_, (checkTransactions_iff.mp h).2 k t hk⟩

/-- A number that was written down as its wrapped sum is written down exactly iff it fits. -/
theorem repr_iff {sum : String} {total exact bound : ℕ} (h : Nat.repr total = sum)
    (hiff : total = exact ↔ exact < bound) : sum = Nat.repr exact ↔ exact < bound := by
  rw [← h, Text.repr_injective.eq_iff, hiff]

/-- **An accepted body adds up exactly iff no sum wraps.** -/
theorem checkBody_exact_iff (N : Noid) (body : RetainedBlockInfo) (txRoot : String)
    (h : checkBody N body txRoot = .ok ()) : body.AddsUp ↔ body.NoOverflow := by
  obtain ⟨first, ids, hfirst, -, -, hids, -, hfees, hreward, -, hin, hout, hpages⟩ :=
    checkBody_iff.mp h
  have hfits : ∀ t ∈ body.transactions,
      (t.outputSumMicronoid = Nat.repr (exactOutputs t) ↔ exactOutputs t < 2 ^ 64)
        ∧ (t.inputSumMicronoid = Nat.repr (exactInputs t) ↔ exactInputs t < 2 ^ 64)
        ∧ (t.coinbase = false → t.developmentPayout = false →
          inputTotal t = outputTotal t + t.feeMicronoid) := by
    intro t ht
    obtain ⟨i, hfit⟩ := fits_of_mem hids ht
    exact ⟨repr_iff hfit.outputSum outputTotal_iff, repr_iff hfit.inputSum inputTotal_iff,
      hfit.balance⟩
  have hmem : first ∈ body.transactions := List.mem_of_mem_head? hfirst
  constructor
  · intro hadd
    have houts : ∀ t ∈ body.transactions, exactOutputs t < 2 ^ 64 := fun t ht =>
      (hfits t ht).1.mp (hadd.outputs t ht)
    have hins : ∀ t ∈ body.transactions, exactInputs t < 2 ^ 64 := fun t ht =>
      (hfits t ht).2.1.mp (hadd.inputs t ht)
    refine ⟨houts, hins, fun t ht hc hp => ?_, (repr_iff hfees feeTotal_iff).mp hadd.fees,
      liveInputsTotal_iff.mp (hin ▸ hadd.liveInputs),
      liveOutputsTotal_iff.mp (hout ▸ hadd.liveOutputs),
      userPagesTotal_iff.mp (hpages ▸ hadd.userPages)⟩
    exact (balance_iff (hins t ht) (houts t ht) ((hfits t ht).2.2 hc hp)).mp
      (hadd.balance t ht hc hp)
  · intro hno
    refine ⟨fun t ht => (hfits t ht).1.mpr (hno.outputs t ht),
      fun t ht => (hfits t ht).2.1.mpr (hno.inputs t ht), fun t ht hc hp => ?_,
      (repr_iff hfees feeTotal_iff).mpr hno.fees, fun f hf => ?_,
      hin ▸ liveInputsTotal_iff.mpr hno.liveInputs,
      hout ▸ liveOutputsTotal_iff.mpr hno.liveOutputs,
      hpages ▸ userPagesTotal_iff.mpr hno.userPages⟩
    · exact (balance_iff (hno.inputs t ht) (hno.outputs t ht) ((hfits t ht).2.2 hc hp)).mpr
        (hno.balance t ht hc hp)
    · obtain rfl := Option.some.inj (hfirst.symm.trans hf)
      rw [← hreward]
      exact outputTotal_iff.mpr (hno.outputs first hmem)

/-- The sample body adds up. -/
theorem checkBody_exact_iff_sample : sampleBody.AddsUp ↔ sampleBody.NoOverflow :=
  checkBody_exact_iff Noid.sample sampleBody sampleHeader.txRoot (by decide +kernel)

/-- A coinbase that mints `2⁶³` twice and says it mints nothing. -/
def wrappingCoinbase : BlockTransactionInfo :=
  { sampleCoinbase with
    outputSumMicronoid := "0"
    outputs := [⟨0, 0, 70000, 9223372036854775808, "o1miner", 1⟩,
      ⟨0, 1, 70001, 9223372036854775808, "o1miner", 2⟩] }

/-- The sample body with this coinbase, and with what it says. -/
def wrappingBody : RetainedBlockInfo :=
  { sampleBody with
    rewardMicronoid := 0
    transactions := [wrappingCoinbase, sampleTransfer] }

/-- **A body whose sums wrap is accepted.** -/
theorem checkBody_wraps : ¬ ∀ (N : Noid) (body : RetainedBlockInfo) (txRoot : String),
    checkBody N body txRoot = .ok () → body.AddsUp := by
  intro h
  have hadd := h Noid.sample wrappingBody sampleHeader.txRoot (by decide +kernel)
  exact absurd (hadd.reward wrappingCoinbase rfl) (by decide +kernel)

end Permanode
