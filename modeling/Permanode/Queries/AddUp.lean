import Permanode.Queries.Balances
import Permanode.System.Views

/-!
# Queries/AddUp — the figures of an address against each other

Over a canonical chain in which coins are created once and spent once (`Db.CoinHistory`),

    received = confirmed + spent in a gap + (sent − sent from unrecorded)

holds of `address_balance` exactly if the coins an address spent that are on record in replaced
blocks only come to nothing (`Db.addressBalance_addsUp_iff`): these were sent and not received, but
an output of a replaced block is enough for a coin not to be "unrecorded".
-/

namespace Permanode

namespace Db

/-! ## A valid coin history -/

/-- The transactions that count form a history of coins: created at most once, spent at most once,
what is created and spent is spent by its owner and in full, and a transaction's `input_sum` is the
sum of its inputs. -/
structure CoinHistory (db : Db) : Prop where
  creates : ∀ o ∈ db.txOutputs.rows, ∀ o' ∈ db.txOutputs.rows,
    db.counts o.txId → db.counts o'.txId →
    o.creationId ≠ none → o.creationId = o'.creationId → o = o'
  spends : ∀ i ∈ db.txInputs.rows, ∀ i' ∈ db.txInputs.rows, db.counts i.txId → db.counts i'.txId →
    i.creationId = i'.creationId → i = i'
  pays : ∀ i ∈ db.txInputs.rows, ∀ o ∈ db.txOutputs.rows, db.counts i.txId → db.counts o.txId →
    o.creationId = some i.creationId → db.senderOf i.txId = some o.owner ∧ i.amount = o.amount
  sums : ∀ t ∈ db.transactions.rows, db.counts t.id →
    t.inputSum = ((db.txInputs.rows.filter fun i => i.txId = t.id).map InputRow.amount).sum

/-- The inputs of an address whose coin is on record, but in no block that counts. -/
def replacedInputs (db : Db) (address : String) : List InputRow :=
  db.txInputs.rows.filter fun i => db.senderOf i.txId = some address ∧ db.counts i.txId
    ∧ (db.txOutputs.rows.any fun o => o.creationId = some i.creationId)
    ∧ ¬ db.txOutputs.rows.any fun o => o.creationId = some i.creationId ∧ db.counts o.txId

/-! ## Outputs and inputs, split -/

variable {db : Db} {address : String}

/-- The inputs an address spent. -/
def sentInputs (db : Db) (address : String) : List InputRow :=
  db.txInputs.rows.filter fun i => db.senderOf i.txId = some address ∧ db.counts i.txId

/-- The inputs whose coin a block that counts created. -/
def knownInputs (db : Db) (address : String) : List InputRow :=
  (db.sentInputs address).filter fun i =>
    db.txOutputs.rows.any fun o => o.creationId = some i.creationId ∧ db.counts o.txId

/-- The outputs of an address that a recorded input spends. -/
def spentOutputs (db : Db) (address : String) : List OutputRow :=
  (db.receivedOutputs address).filter fun o => db.spentByRecordedInput ⊤ o.creationId

theorem mem_receivedOutputs {o : OutputRow} : o ∈ db.receivedOutputs address
    ↔ o ∈ db.txOutputs.rows ∧ o.owner = address ∧ db.counts o.txId = true := by
  simp [receivedOutputs]

theorem mem_sentInputs {i : InputRow} : i ∈ db.sentInputs address
    ↔ i ∈ db.txInputs.rows ∧ db.senderOf i.txId = some address ∧ db.counts i.txId = true := by
  simp [sentInputs]

/-- What was received is spent on record, confirmed or gone. -/
theorem sum_received : ((db.receivedOutputs address).map OutputRow.amount).sum
    = ((db.spentOutputs address).map OutputRow.amount).sum
      + (((db.unspentOf address false).map OutputRow.amount).sum
        + ((db.unspentOf address true).map OutputRow.amount).sum) := by
  let spent : OutputRow → Bool := fun o => db.spentByRecordedInput ⊤ o.creationId
  let rest := (db.receivedOutputs address).filter fun o => !spent o
  have htrue : rest.filter OutputRow.spentInGap = db.unspentOf address true := by
    simp only [rest, receivedOutputs, List.filter_filter, unspentOf]
    refine List.filter_congr fun o _ => ?_
    by_cases hs : spent o = true <;> cases o.spentInGap <;> simp_all [spent, and_comm]
  have hfalse : (rest.filter fun o => !o.spentInGap) = db.unspentOf address false := by
    simp only [rest, receivedOutputs, List.filter_filter, unspentOf]
    refine List.filter_congr fun o _ => ?_
    by_cases hs : spent o = true <;> cases o.spentInGap <;> simp_all [spent, and_comm]
  rw [← Sql.sum_filter_add spent, ← Sql.sum_filter_add OutputRow.spentInGap _ rest, htrue, hfalse,
    add_comm (List.sum (List.map OutputRow.amount (db.unspentOf address true)))]
  rfl

/-- What was sent was received on the canonical chain, is on record elsewhere, or is not on
record. -/
theorem sum_sentInputs : ((db.sentInputs address).map InputRow.amount).sum
    = ((db.knownInputs address).map InputRow.amount).sum
      + (((db.replacedInputs address).map InputRow.amount).sum
        + ((db.unrecordedInputs address).map InputRow.amount).sum) := by
  let known : InputRow → Bool := fun i =>
    db.txOutputs.rows.any fun o => o.creationId = some i.creationId ∧ db.counts o.txId
  let onRecord : InputRow → Bool := fun i =>
    db.txOutputs.rows.any fun o => o.creationId = some i.creationId
  let rest := (db.sentInputs address).filter fun i => !known i
  have hsub : ∀ i, known i = true → onRecord i = true := by
    intro i hi
    obtain ⟨o, ho, hc⟩ := List.any_eq_true.mp hi
    exact List.any_eq_true.mpr ⟨o, ho, decide_eq_true (of_decide_eq_true hc).1⟩
  have hon : rest.filter onRecord = db.replacedInputs address := by
    simp only [rest, sentInputs, List.filter_filter, replacedInputs]
    refine List.filter_congr fun i _ => ?_
    change _ = decide (_ ∧ _ ∧ onRecord i = true ∧ ¬ known i = true)
    rw [Bool.eq_iff_iff]
    simp only [Bool.and_eq_true, Bool.not_eq_true', decide_eq_true_eq, Bool.not_eq_true]
    tauto
  have hoff : (rest.filter fun i => !onRecord i) = db.unrecordedInputs address := by
    simp only [rest, sentInputs, List.filter_filter, unrecordedInputs]
    refine List.filter_congr fun i _ => ?_
    change _ = decide (_ ∧ _ ∧ ¬ onRecord i = true)
    have hknown : onRecord i = false → known i = false := fun ho =>
      Bool.eq_false_iff.mpr fun hk => Bool.false_ne_true (ho.symm.trans (hsub i hk))
    rw [Bool.eq_iff_iff]
    simp only [Bool.and_eq_true, Bool.not_eq_true', decide_eq_true_eq, Bool.not_eq_true]
    tauto
  rw [← Sql.sum_filter_add known, ← Sql.sum_filter_add onRecord _ rest, hon, hoff]
  rfl

/-! ## Sent, transaction by transaction and input by input -/

/-- **The transactions an address sent come to its inputs.** -/
theorem CoinHistory.sum_sent (h : db.CoinHistory) :
    ((db.sentTransactions address).map TransactionRow.inputSum).sum
      = ((db.sentInputs address).map InputRow.amount).sum := by
  have hmem : ∀ t ∈ db.sentTransactions address,
      t ∈ db.transactions.rows ∧ t.inputOwner = some address ∧ db.counts t.id = true := by
    intro t ht
    simpa [sentTransactions] using ht
  have hsender : ∀ t ∈ db.transactions.rows, db.senderOf t.id = t.inputOwner := fun t ht => by
    rw [senderOf, transaction?_eq_some ht, Option.bind_some]
  have hkeys : ((db.sentTransactions address).map TransactionRow.id).Nodup :=
    (db.nodup_transactionIds).sublist (List.filter_sublist.map _)
  have hcover : ∀ r ∈ (db.sentInputs address).map fun i => (i.txId, i.amount),
      r.1 ∈ (db.sentTransactions address).map TransactionRow.id := by
    intro r hr
    obtain ⟨i, hi, rfl⟩ := List.mem_map.mp hr
    obtain ⟨-, hs, hc⟩ := mem_sentInputs.mp hi
    obtain ⟨t, ht⟩ := transaction?_of_counts hc
    obtain ⟨hmem, hid⟩ := mem_of_transaction? ht
    rw [senderOf, ht, Option.bind_some] at hs
    refine List.mem_map.mpr ⟨t, ?_, hid⟩
    simp [sentTransactions, hmem, hs, hid, hc]
  have hrows : ∀ t ∈ db.sentTransactions address, ((((db.sentInputs address).map fun i =>
      (i.txId, i.amount)).filter fun r => r.1 = t.id).map Prod.snd).sum = t.inputSum := by
    intro t ht
    obtain ⟨htx, howner, hc⟩ := hmem t ht
    rw [h.sums t htx hc, List.filter_map, List.map_map]
    simp only [sentInputs, List.filter_filter]
    refine congrArg List.sum (congrArg _ (List.filter_congr fun i _ => ?_))
    by_cases hid : i.txId = t.id
    · simp [hid, hsender t htx, howner, hc]
    · simp [hid]
  calc ((db.sentTransactions address).map TransactionRow.inputSum).sum
      = (((db.sentTransactions address).map TransactionRow.id).map fun k =>
          ((((db.sentInputs address).map fun i => (i.txId, i.amount)).filter fun r =>
            r.1 = k).map Prod.snd).sum).sum := by
        rw [List.map_map]
        exact congrArg List.sum (List.map_congr_left fun t ht => (hrows t ht).symm)
    _ = (((db.sentInputs address).map fun i => (i.txId, i.amount)).map Prod.snd).sum :=
        Sql.sum_groups hkeys hcover
    _ = ((db.sentInputs address).map InputRow.amount).sum := by
        rw [List.map_map]
        rfl

/-! ## Coins received and spent -/

theorem nodup_outputs (db : Db) : db.txOutputs.rows.Nodup :=
  db.txOutputs.unique.imp fun h heq => by simp [Row.clash, heq] at h

theorem nodup_inputs (db : Db) : db.txInputs.rows.Nodup :=
  db.txInputs.unique.imp fun h heq => by simp [Row.clash, heq] at h

/-- **What an address received and spent on record is one sum, over the outputs or over the
inputs.** -/
theorem CoinHistory.sum_spent (h : db.CoinHistory) :
    ((db.spentOutputs address).map OutputRow.amount).sum
      = ((db.knownInputs address).map InputRow.amount).sum := by
  have hout : ∀ o ∈ db.spentOutputs address, o ∈ db.txOutputs.rows ∧ o.owner = address
      ∧ db.counts o.txId = true
      ∧ ∃ i ∈ db.txInputs.rows, some i.creationId = o.creationId ∧ db.counts i.txId = true := by
    intro o ho
    obtain ⟨hr, hs⟩ := List.mem_filter.mp ho
    obtain ⟨hmem, howner, hc⟩ := mem_receivedOutputs.mp hr
    exact ⟨hmem, howner, hc, spentByRecordedInput_top.mp hs⟩
  have hin : ∀ i ∈ db.knownInputs address, i ∈ db.txInputs.rows
      ∧ db.senderOf i.txId = some address ∧ db.counts i.txId = true
      ∧ ∃ o ∈ db.txOutputs.rows, o.creationId = some i.creationId ∧ db.counts o.txId = true := by
    intro i hi
    obtain ⟨hs, hk⟩ := List.mem_filter.mp hi
    obtain ⟨hmem, hsender, hc⟩ := mem_sentInputs.mp hs
    obtain ⟨o, ho, hoc⟩ := List.any_eq_true.mp hk
    exact ⟨hmem, hsender, hc, o, ho, of_decide_eq_true hoc⟩
  refine Sql.sum_eq_of_paired (k := OutputRow.creationId)
    (l := fun i => some i.creationId) ?_ ?_ ?_ ?_
  · refine List.Nodup.map_on (fun o ho o' ho' heq => ?_) ((nodup_outputs db).filter _ |>.filter _)
    obtain ⟨hmem, -, hc, i, -, hi, -⟩ := hout o ho
    obtain ⟨hmem', -, hc', -⟩ := hout o' ho'
    have hsome : o.creationId ≠ none := fun hnone => nomatch hi.trans hnone
    exact h.creates o hmem o' hmem' hc hc' hsome heq
  · refine List.Nodup.map_on (fun i hi i' hi' heq => ?_) ((nodup_inputs db).filter _ |>.filter _)
    obtain ⟨hmem, -, hc, -⟩ := hin i hi
    obtain ⟨hmem', -, hc', -⟩ := hin i' hi'
    exact h.spends i hmem i' hmem' hc hc' (Option.some.inj heq)
  · intro o ho
    obtain ⟨hmem, howner, hc, i, hi, hid, hic⟩ := hout o ho
    obtain ⟨hsender, hamount⟩ := h.pays i hi o hmem hic hc hid.symm
    refine ⟨i, List.mem_filter.mpr ⟨mem_sentInputs.mpr ⟨hi, howner ▸ hsender, hic⟩, ?_⟩,
      hid, hamount⟩
    exact List.any_eq_true.mpr ⟨o, hmem, decide_eq_true ⟨hid.symm, hc⟩⟩
  · intro i hi
    obtain ⟨hmem, hsender, hic, o, ho, hid, hc⟩ := hin i hi
    obtain ⟨howner, hamount⟩ := h.pays i hmem o ho hic hc hid
    have haddress : o.owner = address := Option.some.inj (howner.symm.trans hsender)
    refine ⟨o, List.mem_filter.mpr ⟨mem_receivedOutputs.mpr ⟨ho, haddress, hc⟩, ?_⟩,
      hid, hamount.symm⟩
    exact spentByRecordedInput_top.mpr ⟨i, hmem, hid.symm, hic⟩

/-! ## The identity -/

/-- **The figures add up exactly if the coins known from replaced blocks only come to nothing.** -/
theorem addressBalance_addsUp_iff (h : db.CoinHistory) {bal : AddressBalance}
    (hbal : db.addressBalance address = .ok bal) :
    bal.confirmedBalance + bal.spentInGap + (bal.totalSent - bal.sentFromUnrecorded)
        = bal.totalReceived
      ↔ ((db.replacedInputs address).map InputRow.amount).sum = 0 := by
  obtain ⟨hreceived, hconfirmed, hgap, hsent, hunrecorded⟩ := addressBalance_ok hbal
  rw [hreceived, hconfirmed, hgap, hsent, hunrecorded, h.sum_sent, sum_received, sum_sentInputs,
    h.sum_spent]
  constructor
  · intro heq
    omega
  · intro hzero
    omega

end Db

/-! ## A coin of a replaced block -/

/-- A body that creates coin 7 for alice. -/
def coinBody : RetainedBlockInfo :=
  { plainBody with
    transactions := plainBody.transactions.map fun t =>
      { t with outputs := [⟨0, 0, 3, 5, "alice", 7⟩] } }

/-- A body in which alice spends coin 7. -/
def spendBody : RetainedBlockInfo :=
  { plainBody with
    transactions := plainBody.transactions.map fun t => { t with
      coinbase := false
      inputOwner := some "alice"
      inputSumMicronoid := "5"
      inputs := [⟨0, 0, 3, 5, 7⟩]
      outputs := [⟨0, 0, 4, 5, "bob", 8⟩] } }

/-- The coin is created in a block that a reorg replaces with one whose body is gone, and spent in
the next. -/
def replacedCoin : Db :=
  (do
    let db ← Db.empty.storeBlock ⟨plainHeader 1 "a1" "a0", some coinBody⟩ "details" 1
    let db ← db.markOrphaned 1 2
    let db ← db.recordGapBlock (bareBlock 1 "b1" "a0") Db.reorgNote 2
    db.storeBlock ⟨plainHeader 2 "b2" "b1", some spendBody⟩ "details" 3).toOption.getD .empty

/-- **A coin known from a replaced block only is sent and never received**: alice's figures do not
add up. -/
theorem Db.addressBalance_short : replacedCoin.CoinHistory
    ∧ ∃ bal, replacedCoin.addressBalance "alice" = .ok bal
      ∧ bal.confirmedBalance + bal.spentInGap + (bal.totalSent - bal.sentFromUnrecorded)
        ≠ bal.totalReceived :=
  ⟨⟨by decide +kernel, by decide +kernel, by decide +kernel, by decide +kernel⟩,
    ⟨0, 0, 0, 5, 0, 0, 0⟩, by decide +kernel, by decide⟩

/-- The same coin in a block that stays. -/
def settledCoin : Db :=
  (do
    let db ← Db.empty.storeBlock ⟨plainHeader 1 "a1" "a0", some coinBody⟩ "details" 1
    db.storeBlock ⟨plainHeader 2 "a2" "a1", some spendBody⟩ "details" 3).toOption.getD .empty

/-- The figures of a coin received and spent on the canonical chain. -/
theorem Db.addressBalance_addsUp_settled :
    settledCoin.addressBalance "alice" = .ok ⟨0, 0, 5, 5, 0, 0, 0⟩
      ∧ (0 + 0 + (5 - 0) = (5 : ℤ)
        ↔ ((settledCoin.replacedInputs "alice").map InputRow.amount).sum = 0) :=
  have hcoins : settledCoin.CoinHistory :=
    ⟨by decide +kernel, by decide +kernel, by decide +kernel, by decide +kernel⟩
  have hbal : settledCoin.addressBalance "alice" = .ok ⟨0, 0, 5, 5, 0, 0, 0⟩ := by decide +kernel
  ⟨hbal, Db.addressBalance_addsUp_iff hcoins hbal⟩

end Permanode
