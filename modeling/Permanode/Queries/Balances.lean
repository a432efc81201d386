import Permanode.Core.LiveState
import Permanode.Foundations.Aggregates
import Permanode.Foundations.Tally

/-!
# Queries/Balances — the figures of an address

`address_balance` and `balance_changes_by_hour` of `core/src/queries.rs`.  Their rows are joins that
go by unique ids, so each is a filter of one table by functions of the transaction:

    recordedHeight (does it count?)  ·  senderOf  ·  hourOf

An amount is the number its column holds, a text column of amounts is read as SQLite reads it.
-/

namespace Permanode

/-- `strftime('%s', …)` of a moment, which counts nanoseconds. -/
def Instant.unixSeconds (at_ : Instant) : ℤ := at_ / 10 ^ 9

/-- `n / 3600 * 3600`, with a division that rounds towards zero. -/
def hourStart (n : ℤ) : ℤ := n.tdiv 3600 * 3600

theorem dvd_hourStart (n : ℤ) : 3600 ∣ hourStart n := Dvd.intro_left _ rfl

/-- An output's amount. -/
def OutputRow.amount (o : OutputRow) : ℤ := o.amountMicronoid.toInt

/-- An input's amount. -/
def InputRow.amount (i : InputRow) : ℤ := i.amountMicronoid.toInt

/-- What the inputs of a transaction come to, as it says. -/
def TransactionRow.inputSum (t : TransactionRow) : ℤ := Sql.castInteger t.inputSumMicronoid

/-- `AddressBalance`. -/
structure AddressBalance where
  confirmedBalance : ℤ
  confirmedUtxos : ℕ
  totalReceived : ℤ
  totalSent : ℤ
  spentInGap : ℤ
  spentInGapUtxos : ℕ
  sentFromUnrecorded : ℤ
  deriving DecidableEq, Repr

namespace Db

/-- The transaction of an id. -/
def transaction? (db : Db) (txId : ℕ) : Option TransactionRow :=
  db.transactions.rows.find? fun t => t.id = txId

/-- Whether a transaction is a recorded one of a canonical block. -/
def counts (db : Db) (txId : ℕ) : Bool := (db.recordedHeight txId).isSome

/-- `t.input_owner`. -/
def senderOf (db : Db) (txId : ℕ) : Option String :=
  (db.transaction? txId).bind TransactionRow.inputOwner

/-- The hour of a transaction's block; only asked of one that counts, which has a block. -/
def hourOf (db : Db) (txId : ℕ) : ℤ :=
  hourStart (((db.transaction? txId).bind fun t => db.block? t.blockId).elim 0 fun b =>
    b.timestamp.toInt)

/-! ## The rows -/

/-- The outputs an address received. -/
def receivedOutputs (db : Db) (address : String) : List OutputRow :=
  db.txOutputs.rows.filter fun o => o.owner = address ∧ db.counts o.txId

/-- Those no recorded input spends, flagged as spent in a gap or not. -/
def unspentOf (db : Db) (address : String) (spentInGap : Bool) : List OutputRow :=
  db.txOutputs.rows.filter fun o => o.owner = address ∧ db.counts o.txId
    ∧ o.spentInGap = spentInGap ∧ ¬ db.spentByRecordedInput ⊤ o.creationId

/-- The transactions an address sent. -/
def sentTransactions (db : Db) (address : String) : List TransactionRow :=
  db.transactions.rows.filter fun t => t.inputOwner = some address ∧ db.counts t.id

/-- The inputs of these whose creation id no output on record has, in whatever block. -/
def unrecordedInputs (db : Db) (address : String) : List InputRow :=
  db.txInputs.rows.filter fun i => db.senderOf i.txId = some address ∧ db.counts i.txId
    ∧ ¬ db.txOutputs.rows.any fun o => o.creationId = some i.creationId

/-- The outputs of an address flagged as spent in a gap, with the moment of the flag. -/
def flaggedOutputs (db : Db) (address : String) : List OutputRow :=
  db.txOutputs.rows.filter fun o => o.owner = address ∧ o.spentInGap ∧ o.spentInGapAt.isSome
    ∧ db.counts o.txId

/-! ## The figures -/

/-- `address_balance`: what an address received, sent and holds, and what of it the record does not
cover. -/
def addressBalance (db : Db) (address : String) : Except String AddressBalance := do
  let totalReceived ← Sql.sum ((db.receivedOutputs address).map OutputRow.amount)
  let confirmedBalance ← Sql.sum ((db.unspentOf address false).map OutputRow.amount)
  let spentInGap ← Sql.sum ((db.unspentOf address true).map OutputRow.amount)
  let totalSent ← Sql.sum ((db.sentTransactions address).map TransactionRow.inputSum)
  let sentFromUnrecorded ← Sql.sum ((db.unrecordedInputs address).map InputRow.amount)
  return {
    confirmedBalance
    confirmedUtxos := (db.unspentOf address false).length
    totalReceived
    totalSent
    spentInGap
    spentInGapUtxos := (db.unspentOf address true).length
    sentFromUnrecorded }

/-- `balance_changes_by_hour`: how the balance changed, hour by hour. -/
def balanceChangesByHour (db : Db) (address : String) : Except String (List (ℤ × ℤ)) := do
  let received ← Sql.sumBy ((db.receivedOutputs address).map fun o => (db.hourOf o.txId, o.amount))
  let byHour := Tally.empty.addAll 1 received
  let sent ← Sql.sumTextBy ((db.sentTransactions address).map fun t =>
    (db.hourOf t.id, t.inputSumMicronoid))
  let byHour := byHour.addAll (-1) sent
  let gone ← Sql.sumBy ((db.flaggedOutputs address).map fun o =>
    (hourStart (o.spentInGapAt.elim 0 Instant.unixSeconds), o.amount))
  return (byHour.addAll (-1) gone).nonzero

/-! ## What they report -/

variable {db : Db} {address : String}

/-- **The figures of an address, as sums over its rows.** -/
theorem addressBalance_ok {bal : AddressBalance} (h : db.addressBalance address = .ok bal) :
    bal.totalReceived = ((db.receivedOutputs address).map OutputRow.amount).sum
      ∧ bal.confirmedBalance = ((db.unspentOf address false).map OutputRow.amount).sum
      ∧ bal.spentInGap = ((db.unspentOf address true).map OutputRow.amount).sum
      ∧ bal.totalSent = ((db.sentTransactions address).map TransactionRow.inputSum).sum
      ∧ bal.sentFromUnrecorded = ((db.unrecordedInputs address).map InputRow.amount).sum := by
  simp only [addressBalance, Outcome.bind_ok, Outcome.pure_ok] at h
  obtain ⟨_, h₁, _, h₂, _, h₃, _, h₄, _, h₅, rfl⟩ := h
  exact ⟨Sql.eq_of_sum h₁, Sql.eq_of_sum h₂, Sql.eq_of_sum h₃, Sql.eq_of_sum h₄, Sql.eq_of_sum h₅⟩

theorem transaction?_eq_some {t : TransactionRow} (h : t ∈ db.transactions.rows) :
    db.transaction? t.id = some t :=
  db.transactions.find?_eq_some h (decide_eq_true rfl) fun _ _ hp =>
    decide_eq_true (Or.inl (of_decide_eq_true hp))

theorem mem_of_transaction? {txId : ℕ} {t : TransactionRow} (h : db.transaction? txId = some t) :
    t ∈ db.transactions.rows ∧ t.id = txId :=
  ⟨List.mem_of_find?_eq_some h, by simpa using List.find?_some h⟩

theorem nodup_transactionIds (db : Db) : (db.transactions.rows.map TransactionRow.id).Nodup :=
  List.pairwise_map.mpr (db.transactions.unique.imp fun h hid => by simp [Row.clash, hid] at h)

/-- Deleting transactions keeps the others. -/
theorem transaction?_filter {db' : Db} {q : TransactionRow → Bool}
    (h : db'.transactions.rows = db.transactions.rows.filter q) (txId : ℕ) :
    db'.transaction? txId = (db.transaction? txId).filter q := by
  have hmem : ∀ {t : TransactionRow}, t ∈ db'.transactions.rows
      ↔ t ∈ db.transactions.rows ∧ q t = true := by
    intro t
    rw [h, List.mem_filter]
  rcases ht : db.transaction? txId with _ | t
  · exact List.find?_eq_none.mpr fun t ht' => List.find?_eq_none.mp ht t (hmem.mp ht').1
  · obtain ⟨hrow, rfl⟩ := mem_of_transaction? ht
    rw [Option.filter_some]
    by_cases hq : q t = true
    · rw [if_pos hq]
      exact transaction?_eq_some (hmem.mpr ⟨hrow, hq⟩)
    · rw [if_neg hq]
      refine List.find?_eq_none.mpr fun s hs hid => ?_
      obtain ⟨hs, hqs⟩ := hmem.mp hs
      have hsame := transaction?_eq_some hs
      rw [of_decide_eq_true hid, ht] at hsame
      exact hq (Option.some.inj hsame ▸ hqs)

/-- Whether a coin is spent on record, whatever the height. -/
theorem spentByRecordedInput_top {creationId : Option String} :
    db.spentByRecordedInput ⊤ creationId = true
      ↔ ∃ i ∈ db.txInputs.rows, some i.creationId = creationId ∧ db.counts i.txId = true := by
  simp only [spentByRecordedInput, List.any_eq_true, decide_eq_true_eq, le_top, decide_true]
  refine exists_congr fun i => and_congr_right fun _ => and_congr_right fun _ => ?_
  rw [counts]
  cases db.recordedHeight i.txId <;> simp

/-- A transaction that counts is on record. -/
theorem transaction?_of_counts {txId : ℕ} (h : db.counts txId = true) :
    ∃ t, db.transaction? txId = some t := by
  rcases ht : db.transaction? txId with _ | t
  · rw [counts, recordedHeight] at h
    rw [transaction?] at ht
    rw [ht] at h
    exact absurd h Bool.false_ne_true
  · exact ⟨t, rfl⟩

/-- A test of the height a transaction is recorded at. -/
theorem any_recordedHeight {txId : ℕ} {p : WithTop ℕ → Bool} :
    Option.any p (do let a ← db.recordedHeight txId; pure (a : WithTop ℕ)) = true
      ↔ ∃ h : ℕ, db.recordedHeight txId = some h ∧ p h = true := by
  rcases db.recordedHeight txId with _ | a
  · exact ⟨fun h => absurd h Bool.false_ne_true, nofun⟩
  · exact ⟨fun h => ⟨a, rfl, h⟩, fun ⟨_, ha, h⟩ => Option.some.inj ha ▸ h⟩

/-- A transaction recorded at a height that passes a test counts. -/
theorem counts_of_any {txId : ℕ} {p : WithTop ℕ → Bool}
    (h : Option.any p (do let a ← db.recordedHeight txId; pure (a : WithTop ℕ)) = true) :
    db.counts txId = true := by
  obtain ⟨a, ha, -⟩ := any_recordedHeight.mp h
  rw [counts, ha]
  rfl

/-- A transaction that counts came from a body. -/
theorem fromReceipt_of_counts {txId : ℕ} (h : db.counts txId = true) :
    db.fromReceipt txId = false := by
  obtain ⟨t, ht⟩ := transaction?_of_counts h
  rw [Bool.eq_false_iff, ne_eq, fromReceipt, List.any_eq_true]
  rintro ⟨t', ht', hreceipt⟩
  obtain ⟨rfl, hsource⟩ := of_decide_eq_true hreceipt
  have hsame := Option.some.inj ((transaction?_eq_some ht').symm.trans ht)
  subst hsame
  have hread : db.recordedHeight t'.id = (db.transaction? t'.id).bind fun t =>
      (db.block? t.blockId).bind fun b =>
        if t.recorded = true ∧ db.isCanonical b.id = true then some b.height else none := rfl
  rw [counts, hread, ht, Option.bind_some] at h
  obtain ⟨_, hb⟩ := Option.isSome_iff_exists.mp h
  obtain ⟨b, -, hb⟩ := Option.bind_eq_some_iff.mp hb
  have hbody : t'.recorded = false := decide_eq_false fun hne => hne hsource
  rw [hbody, if_neg fun hrec => Bool.false_ne_true hrec.1] at hb
  cases hb

end Db

end Permanode
