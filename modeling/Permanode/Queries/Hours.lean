import Permanode.Live.Outputs
import Permanode.Queries.Balances
import Permanode.System.Views

/-!
# Queries/Hours — the hourly history against the figures

The changes of `balance_changes_by_hour` come to

    received − sent − spent in a gap

as `address_balance` reports them exactly if the outputs that are flagged as spent in a gap *and*
spent by a recorded input come to nothing (`Execution.hours_sum_iff`): the history subtracts these
twice, once at the flag and once at the spend, until the next sweep or fill clears the flag.

Sums are those of 64-bit arithmetic.
-/

namespace Permanode

open Prog

/-! ## Flags carry their moment -/

/-- Every flag says when it was set. -/
def Db.FlagsTimed (db : Db) : Prop :=
  ∀ o ∈ db.txOutputs.rows, o.spentInGap = true → o.spentInGapAt.isSome = true

namespace Db

variable {db db' : Db} {ids : List String} {address : String}

theorem FlagsTimed.gains (h : db.FlagsTimed) (hgains : db.Gains ids db') : db'.FlagsTimed := by
  intro o ho hflag
  rcases hgains o ho with hold | ⟨hnew, -⟩
  · exact h o hold hflag
  · exact absurd (hnew.symm.trans hflag) Bool.false_ne_true

theorem FlagsTimed.flagOutputs (h : db.FlagsTimed) {p : OutputRow → Bool} {flag : Bool}
    {at_ : Option Instant} (hat : flag = true → at_.isSome = true) :
    (db.flagOutputs p flag at_).FlagsTimed := by
  intro o ho hflag
  obtain ⟨o₀, ho₀, rfl⟩ := List.mem_map.mp ho
  unfold Table.updated at hflag ⊢
  split_ifs at hflag ⊢
  · exact hat hflag
  · exact h o₀ ho₀ hflag

theorem FlagsTimed.clear (h : db.FlagsTimed) : db.clearSpentInGapWithRecordedSpend.FlagsTimed :=
  h.flagOutputs nofun

theorem FlagsTimed.sweepSegment (h : db.FlagsTimed) (segment : UInt64) (slots : SlotRange)
    (live : List StateSlot) (startHeight : ℕ) (now : Instant) :
    (db.sweepSegment segment slots live startHeight now).FlagsTimed := by
  rw [Db.sweepSegment]
  refine FlagsTimed.flagOutputs ?_ fun _ => rfl
  exact FlagsTimed.flagOutputs h nofun

/-- **A transaction leaves no flag without its moment.** -/
theorem FlagsTimed.exec {N : Noid} {cfg : Config} {t : Txn} (h : db.FlagsTimed)
    (hexec : t.exec N cfg db = .ok db') : db'.FlagsTimed := by
  by_cases ht : t.Flags
  · match t, ht with
    | .clearSpentInGap, _ =>
      obtain rfl := Except.ok.inj hexec
      exact h.clear
    | .sweepSegment .., _ =>
      obtain rfl := Except.ok.inj hexec
      exact h.sweepSegment _ _ _ _ _
    | .sweepBalances now, _ =>
      obtain rfl := Except.ok.inj hexec
      let db₁ := db.clearSpentInGapWithRecordedSpend
      have hsame : (db₁.upsertBalances db₁.balanceRows now).txOutputs = db₁.txOutputs :=
        outputs_upsertBalances now db₁.balanceRows db₁
      exact @FlagsTimed.gains _ _ [] h.clear (gains_of_eq hsame)
  · exact h.gains (Txn.exec_gains ht hexec)

/-! ## What the history adds up to -/

/-- The outputs of an address that are flagged and spent on record. -/
def countedTwice (db : Db) (address : String) : List OutputRow :=
  (db.receivedOutputs address).filter fun o =>
    o.spentInGap ∧ db.spentByRecordedInput ⊤ o.creationId

/-- The flagged outputs are those spent in a gap and those counted twice. -/
theorem FlagsTimed.sum_flagged (h : db.FlagsTimed) :
    ((db.flaggedOutputs address).map OutputRow.amount).sum
      = ((db.unspentOf address true).map OutputRow.amount).sum
        + ((db.countedTwice address).map OutputRow.amount).sum := by
  let spent : OutputRow → Bool := fun o => db.spentByRecordedInput ⊤ o.creationId
  have htwice : (db.flaggedOutputs address).filter spent = db.countedTwice address := by
    simp only [flaggedOutputs, countedTwice, receivedOutputs, List.filter_filter]
    refine List.filter_congr fun o ho => ?_
    have htimed := h o ho
    rw [Bool.eq_iff_iff]
    simp only [Bool.and_eq_true, decide_eq_true_eq, spent]
    tauto
  have hgap : ((db.flaggedOutputs address).filter fun o => !spent o)
    = db.unspentOf address true := by
    simp only [flaggedOutputs, unspentOf, List.filter_filter]
    refine List.filter_congr fun o ho => ?_
    have htimed := h o ho
    rw [Bool.eq_iff_iff]
    simp only [Bool.and_eq_true, Bool.not_eq_true', decide_eq_true_eq, Bool.not_eq_true, spent]
    tauto
  rw [← Sql.sum_filter_add spent, htwice, hgap, add_comm]

/-- **The hours are in order, start on the hour and have changes other than zero.** -/
theorem balanceChangesByHour_hours {changes : List (ℤ × ℤ)}
    (h : db.balanceChangesByHour address = .ok changes) :
    (changes.map Prod.fst).Pairwise (· < ·) ∧ ∀ x ∈ changes, 3600 ∣ x.1 ∧ x.2 ≠ 0 := by
  simp only [balanceChangesByHour, Outcome.bind_ok, Outcome.pure_ok] at h
  obtain ⟨received, hr, sent, hs, gone, hg, rfl⟩ := h
  refine ⟨Tally.nonzero_sorted _, fun x hx => ?_⟩
  obtain ⟨hmem, hne⟩ := List.mem_filter.mp hx
  refine ⟨?_, of_decide_eq_true hne⟩
  have hreceived : ∀ g ∈ received, (3600 : ℤ) ∣ g.1 := by
    intro g hgr
    obtain ⟨r, hmemr, hk⟩ := Sql.key_of_sumBy hr g hgr
    obtain ⟨o, -, rfl⟩ := List.mem_map.mp hmemr
    exact hk ▸ dvd_hourStart _
  have hsent : ∀ g ∈ sent, (3600 : ℤ) ∣ g.1 := by
    intro g hgs
    obtain ⟨r, hmemr, hk⟩ := Sql.key_of_sumBy (Sql.sumTextBy_ok hs) g hgs
    obtain ⟨r', hr', rfl⟩ := List.mem_map.mp hmemr
    obtain ⟨t, -, rfl⟩ := List.mem_map.mp hr'
    exact hk ▸ dvd_hourStart _
  have hgone : ∀ g ∈ gone, (3600 : ℤ) ∣ g.1 := by
    intro g hgg
    obtain ⟨r, hmemr, hk⟩ := Sql.key_of_sumBy hg g hgg
    obtain ⟨o, -, rfl⟩ := List.mem_map.mp hmemr
    exact hk ▸ dvd_hourStart _
  rcases Tally.key_of_addAll x hmem with ⟨y, hy, hk⟩ | ⟨g, hgm, hk⟩
  · rcases Tally.key_of_addAll y hy with ⟨z, hz, hkz⟩ | ⟨g, hgm, hkz⟩
    · rcases Tally.key_of_addAll z hz with ⟨_, hempty, -⟩ | ⟨g, hgm, hkg⟩
      · exact absurd hempty List.not_mem_nil
      · exact hk ▸ hkz ▸ hkg ▸ hreceived g hgm
    · exact hk ▸ hkz ▸ hsent g hgm
  · exact hk ▸ hgone g hgm

/-- **The changes come to what was received, less what was sent and what is flagged.** -/
theorem balanceChangesByHour_sum {changes : List (ℤ × ℤ)}
    (h : db.balanceChangesByHour address = .ok changes) :
    (changes.map Prod.snd).sum ≡ ((db.receivedOutputs address).map OutputRow.amount).sum
      - ((db.sentTransactions address).map TransactionRow.inputSum).sum
      - ((db.flaggedOutputs address).map OutputRow.amount).sum [ZMOD 2 ^ 64] := by
  simp only [balanceChangesByHour, Outcome.bind_ok, Outcome.pure_ok] at h
  obtain ⟨received, hr, sent, hs, gone, hg, rfl⟩ := h
  have h₁ : (received.map Prod.snd).sum
      = ((db.receivedOutputs address).map OutputRow.amount).sum := by
    rw [Sql.sum_of_sumBy hr, List.map_map]
    rfl
  have h₂ : (sent.map Prod.snd).sum
      = ((db.sentTransactions address).map TransactionRow.inputSum).sum := by
    rw [Sql.sum_of_sumBy (Sql.sumTextBy_ok hs), List.map_map, List.map_map]
    rfl
  have h₃ : (gone.map Prod.snd).sum = ((db.flaggedOutputs address).map OutputRow.amount).sum := by
    rw [Sql.sum_of_sumBy hg, List.map_map]
    rfl
  have htotal := Tally.total_addAll (-1) gone ((Tally.empty.addAll 1 received).addAll (-1) sent)
  have htotal₂ := Tally.total_addAll (-1) sent (Tally.empty.addAll 1 received)
  have htotal₁ := Tally.total_addAll 1 received (Tally.empty : Tally ℤ)
  rw [Tally.sum_nonzero]
  refine htotal.trans ?_
  refine ((htotal₂.trans (htotal₁.add_right _)).add_right _).trans ?_
  rw [h₁, h₂, h₃]
  refine congrArg (· % (2 : ℤ) ^ 64) ?_
  rw [Tally.total, Tally.empty, List.map_nil, List.sum_nil]
  ring

end Db

/-! ## Along a run -/

variable {N : Noid} {cfg : Config}

theorem Execution.flagsTimed {allow : ∀ q : Query, q.Answer → Prop} {tr : List (Db × Txn × Db)}
    {c : Prog.Config Query Query.Answer Db Txn String Thread} (h : Execution N cfg allow tr c) :
    c.store.FlagsTimed := by
  have hstep : ∀ (db : Db) t db', Txn.Issued cfg (fun _ => True) t → db.FlagsTimed → True →
      t.exec N cfg db = .ok db' → db'.FlagsTimed := fun _ _ _ _ hdb _ hexec => hdb.exec hexec
  have hempty : Db.empty.FlagsTimed := fun o ho => absurd ho List.not_mem_nil
  exact (Run.invariant (fun _ _ hp => Job.commits (bodySource_any N allow) hp) hstep hempty h
    fun _ _ => trivial).1

/-- **The hourly history adds up to the figures exactly if the outputs counted twice come to
nothing.** -/
theorem Execution.hours_sum_iff {tr : List (Db × Txn × Db)}
    {c : Prog.Config Query Query.Answer Db Txn String Thread} (h : Execution N cfg anyAnswer tr c)
    {address : String} {bal : AddressBalance} (hbal : c.store.addressBalance address = .ok bal)
    {changes : List (ℤ × ℤ)} (hchanges : c.store.balanceChangesByHour address = .ok changes) :
    ((changes.map Prod.fst).Pairwise (· < ·) ∧ ∀ x ∈ changes, 3600 ∣ x.1 ∧ x.2 ≠ 0)
      ∧ ((changes.map Prod.snd).sum ≡ bal.totalReceived - bal.totalSent - bal.spentInGap
          [ZMOD 2 ^ 64]
        ↔ ((c.store.countedTwice address).map OutputRow.amount).sum ≡ 0 [ZMOD 2 ^ 64]) := by
  refine ⟨Db.balanceChangesByHour_hours hchanges, ?_⟩
  obtain ⟨hreceived, -, hgap, hsent, -⟩ := Db.addressBalance_ok hbal
  have hsum := Db.balanceChangesByHour_sum hchanges
  rw [h.flagsTimed.sum_flagged, ← hreceived, ← hsent, ← hgap] at hsum
  have hdvd := hsum.dvd
  constructor
  · intro heq
    have hdvd' := heq.dvd
    refine (Int.modEq_iff_dvd.mpr ?_)
    omega
  · intro hzero
    have hdvd' := hzero.dvd
    refine (Int.modEq_iff_dvd.mpr ?_)
    omega

/-! ## An output flagged and then spent on record -/

/-- The small crates where the second page of a block spends coin 7. -/
def Noid.spending : Noid :=
  { Noid.sample with
    liveInputs := fun page : UInt8 => if page = 9 then [(0, ⟨3, 5, 7⟩)] else []
    validateBlockPageStream := fun _ =>
      .ok ⟨[⟨0, 1, ⟨[], 1, 0, 0, [], (), 5, 5⟩⟩], false, 1, 0, 1, .b25⟩ }

/-- A block that creates coin 7, and one whose body the node serves late. -/
def gapChain : List BlockDetailsInfo :=
  [bareBlock 0 "a0" "",
    ⟨plainHeader 1 "a1" "a0", some { plainBody with
      transactions := plainBody.transactions.map fun t =>
        { t with outputs := [⟨0, 0, 3, 5, "o1", 7⟩] } }⟩,
    bareBlock 2 "020009" "a1"]

/-- A node with the first blocks of that chain, an empty state, and the late body or not. -/
def gapAnswers (blocks : ℕ) (served : Bool) : ∀ q : Query, q.Answer
  | .block height =>
    .ok (if served ∧ height = 2 then some [2, 1, 0, 1, 9, 0, 0, 9] else none)
  | .stateMap => .ok ⟨0, 8, []⟩
  | .slot index => .ok ⟨index, 0, 0, "", true⟩
  | q => chainAnswers (gapChain.take blocks) 1 q

/-- Two polls record the coin and the gap. -/
def coinStints : List (Stint Query Query.Answer Db Txn String Thread) :=
  [⟨.indexer, pollOnce Noid.spending {}, fun _ => gapAnswers 2 false, 200⟩,
    ⟨.indexer, pollOnce Noid.spending {}, fun _ => gapAnswers 3 false, 200⟩]

/-- The sweep finds the coin gone, and the next poll recovers the body that spends it. -/
def lateSpendStints : List (Stint Query Query.Answer Db Txn String Thread) :=
  coinStints ++ [⟨.sweep, scanLiveState >>= fun _ => pure (), fun _ => gapAnswers 3 false, 200⟩,
    ⟨.indexer, pollOnce Noid.spending {}, fun _ => gapAnswers 3 true, 200⟩]

theorem run_coinStints : Execution Noid.spending {} anyAnswer
    (traceAll (Txn.exec Noid.spending {}) coinStints Db.empty)
    (Config.idle (playAll (Txn.exec Noid.spending {}) coinStints Db.empty)) := by
  refine run_playAll Db.empty ?_
  simp only [coinStints, List.forall_mem_cons]
  exact ⟨⟨.poll, fun _ _ => trivial⟩, ⟨.poll, fun _ _ => trivial⟩, nofun⟩

theorem run_lateSpendStints : Execution Noid.spending {} anyAnswer
    (traceAll (Txn.exec Noid.spending {}) lateSpendStints Db.empty)
    (Config.idle (playAll (Txn.exec Noid.spending {}) lateSpendStints Db.empty)) := by
  refine run_playAll Db.empty ?_
  simp only [lateSpendStints, coinStints, List.cons_append, List.nil_append, List.forall_mem_cons]
  exact ⟨⟨.poll, fun _ _ => trivial⟩, ⟨.poll, fun _ _ => trivial⟩, ⟨.sweep, fun _ _ => trivial⟩,
    ⟨.poll, fun _ _ => trivial⟩, nofun⟩

/-- **An output flagged by the sweep and then spent by a recovered body is subtracted twice.** -/
theorem Execution.hours_subtract_twice :
    ∃ tr c, Execution Noid.spending {} anyAnswer tr c ∧ ∃ bal changes,
      c.store.addressBalance "o1" = .ok bal ∧ c.store.balanceChangesByHour "o1" = .ok changes
        ∧ ¬ (changes.map Prod.snd).sum ≡ bal.totalReceived - bal.totalSent - bal.spentInGap
          [ZMOD 2 ^ 64] :=
  ⟨_, _, run_lateSpendStints, ⟨0, 0, 5, 5, 0, 0, 0⟩, [(0, -5)], by decide +kernel,
    by decide +kernel, by decide⟩

/-- Before the sweep, the coin is a change of its hour. -/
theorem Execution.hours_sum_coin :
    ((([(0, 5)] : List (ℤ × ℤ)).map Prod.fst).Pairwise (· < ·)
        ∧ ∀ x ∈ ([(0, 5)] : List (ℤ × ℤ)), 3600 ∣ x.1 ∧ x.2 ≠ 0)
      ∧ ((([(0, 5)] : List (ℤ × ℤ)).map Prod.snd).sum ≡ 5 - 0 - 0 [ZMOD 2 ^ 64]
        ↔ (((playAll (Txn.exec Noid.spending {}) coinStints Db.empty).countedTwice "o1").map
            OutputRow.amount).sum ≡ 0 [ZMOD 2 ^ 64]) :=
  have hbal : (playAll (Txn.exec Noid.spending {}) coinStints Db.empty).addressBalance "o1"
      = .ok ⟨5, 1, 5, 0, 0, 0, 0⟩ := by decide +kernel
  have hchanges :
      (playAll (Txn.exec Noid.spending {}) coinStints Db.empty).balanceChangesByHour "o1"
        = .ok [(0, 5)] := by decide +kernel
  Execution.hours_sum_iff run_coinStints hbal hchanges

end Permanode
