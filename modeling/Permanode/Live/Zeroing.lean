import Permanode.Foundations.History
import Permanode.Live.Outputs
import Permanode.Queries.AddUp

/-!
# Live/Zeroing — the balances a sweep sets to zero

A sweep commits the balances of the picture, looks at the node once more, which may take minutes,
and then sets the cached balance of every other address to zero.  Which addresses hold anything is
what it read at the commit: of an address it is about to set to zero this is all there is to say
(`Execution.zeroing_left_out`), so it holds nothing now if no transaction since then brought it into
the picture (`Execution.zeroing_spares_holders`) — and may hold a coin if one did.
-/

namespace Permanode

open Prog

/-! ## The addresses of the picture -/

/-- Whether an address holds a live coin in the picture. -/
def Db.holds (db : Db) (address : String) : Bool := db.liveCoins.any fun c => c.1 = address

/-- Whether a transaction is the sweep's balance commit. -/
def Txn.isSweepBalances : Txn → Bool
  | .sweepBalances _ => true
  | _ => false

/-- The transactions since the last balance commit. -/
def sinceBalances (tr : List (Db × Txn × Db)) : List (Db × Txn × Db) :=
  tr.rtakeWhile fun x => !x.2.1.isSweepBalances

/-- The address whose balance a transaction sets to zero. -/
def Txn.zeroed? : Txn → Option String
  | .upsertBalances [(address, "0", 0)] _ => some address
  | _ => none

/-- The address whose balance the sweep is about to set to zero. -/
def aboutToZero (c : Prog.Config Query Query.Answer Db Txn String Thread) : Option String :=
  ((c.thread .sweep).bind Prog.next?).bind Txn.zeroed?

/-- The last balance commit left an address outside the picture. -/
def LeftOut (address : String) (tr : List (Db × Txn × Db)) : Prop :=
  ∃ tr₀ db now db', tr = tr₀ ++ (db, .sweepBalances now, db') :: sinceBalances tr
    ∧ db'.holds address = false

variable {N : Noid} {cfg : Config} {address : String}

namespace Db

theorem holds_iff {db : Db} : db.holds address = true ↔ address ∈ db.liveBalances.map Prod.fst := by
  rw [holds, List.any_eq_true, liveBalances, List.map_map]
  simp only [decide_eq_true_eq, Function.comp_def, List.map_id', List.mem_dedup, List.mem_map]

/-- The balance cache is no part of the picture. -/
theorem liveCoins_upsertBalances (now : Instant) : ∀ (rows : List (String × String × ℕ)) (db : Db),
    (db.upsertBalances rows now).liveCoins = db.liveCoins
  | [], _ => rfl
  | _ :: rows, db => liveCoins_upsertBalances now rows (db.upsertAddressBalanceCache _ _ _ now)

end Db

/-! ## The history since the balance commit -/

variable {tr more : List (Db × Txn × Db)}

theorem sinceBalances_append {x : Db × Txn × Db} (hx : x.2.1.isSweepBalances = false) :
    sinceBalances (tr ++ [x]) = sinceBalances tr ++ [x] :=
  List.rtakeWhile_concat_pos _ _ _ (by rw [hx]; rfl)

/-- **Other transactions leave it at what was left out.** -/
theorem LeftOut.append (h : LeftOut address tr)
    (hmore : ∀ x ∈ more, x.2.1.isSweepBalances = false) : LeftOut address (tr ++ more) := by
  induction more generalizing tr with
  | nil => rwa [List.append_nil]
  | cons x more ih =>
    obtain ⟨hx, hmore⟩ := List.forall_mem_cons.mp hmore
    rw [List.append_cons]
    refine ih ?_ hmore
    obtain ⟨tr₀, db, now, db', htr, hout⟩ := h
    refine ⟨tr₀, db, now, db', ?_, hout⟩
    rw [sinceBalances_append hx, ← List.cons_append, ← List.append_assoc, ← htr]

theorem leftOut_balances {db db' : Db} {now : Instant} (hout : db'.holds address = false) :
    LeftOut address (tr ++ [(db, .sweepBalances now, db')]) := by
  refine ⟨tr, db, now, db', ?_, hout⟩
  rw [sinceBalances, List.rtakeWhile_concat_neg _ _ _ Bool.false_ne_true]

/-- The addresses that are kept are those of the picture the balance commit leaves. -/
theorem not_holds_sweepBalances {db : Db} {now : Instant}
    (h : address ∉ db.clearSpentInGapWithRecordedSpend.liveBalances.map Prod.fst) :
    (db.sweepBalances now).holds address = false := by
  have hcoins : (db.sweepBalances now).liveCoins = db.clearSpentInGapWithRecordedSpend.liveCoins :=
    Db.liveCoins_upsertBalances now _ _
  rw [Db.holds, hcoins, ← Db.holds, Bool.eq_false_iff]
  exact fun hholds => h (Db.holds_iff.mp hholds)

/-! ## The sweep, watched -/

/-- What the sweep owes: the addresses it sets to zero were left out. -/
def zeroWatch (N : Noid) (cfg : Config) : Watch Query Query.Answer Db Txn String where
  allow := anyAnswer
  exec := Txn.exec N cfg
  others t := t.isSweepBalances = false
  guar tr t := ∀ address, t.zeroed? = some address → LeftOut address tr

theorem watch_zeroBalances {keep : List String} (now : Instant)
    (h : ∀ address ∉ keep, LeftOut address tr) :
    watch (zeroWatch N cfg) (zeroBalances keep now) (fun _ _ => True) tr := by
  refine watch_mono (fun _ _ _ => trivial) (watch_of_commits
    (I := fun tr => ∀ address ∉ keep, LeftOut address tr) ?_ ?_ ?_
    (zeroBalances_commits keep now) h)
  · rintro tr _ db db' ⟨a, -, rfl⟩ hleft - address hkeep
    exact (hleft address hkeep).append (List.forall_mem_singleton.mpr rfl)
  · rintro tr _ ⟨a, hkeep, rfl⟩ hleft address hzero
    obtain rfl := Option.some.inj hzero
    exact hleft a hkeep
  · exact fun tr more hmore hleft address hkeep => (hleft address hkeep).append hmore

theorem watch_ofAnswer {α β : Type} {r : Except String α} {f : α → Program β}
    {R : β → List (Db × Txn × Db) → Prop}
    (hf : ∀ a, watch (zeroWatch N cfg) (f a) R tr) :
    watch (zeroWatch N cfg) (Program.ofAnswer r >>= f) R tr := by
  rcases r with e | a
  · exact trivial
  · exact hf a

theorem watch_segments (size : UInt64) (segments : List UInt64) :
    watch (zeroWatch N cfg) (Prog.each (sweepOne size) segments) (fun _ _ => True) tr := by
  have hcommits : (Prog.each (sweepOne size) segments).Commits anyAnswer
      (fun t => ∃ segment slots live height now, t = .sweepSegment segment slots live height now)
      fun _ => True := by
    refine commits_each fun segment _ => commits_mono (fun _ ht => ?_) (fun _ h => h)
      (sweepOne_commits size segment)
    obtain ⟨live, height, now, rfl, -⟩ := ht
    exact ⟨segment, _, live, height, now, rfl⟩
  refine watch_mono (fun _ _ _ => trivial) (watch_of_commits (I := fun _ => True)
    (fun _ _ _ _ _ _ _ => trivial) ?_ (fun _ _ _ _ => trivial) hcommits trivial)
  rintro _ _ ⟨_, _, _, _, _, rfl⟩ - _ hzero
  exact nomatch hzero

/-- **The sweep sets to zero what its balance commit left out.** -/
theorem watch_scanLiveState (tr : List (Db × Txn × Db)) :
    watch (zeroWatch N cfg) scanLiveState (fun _ _ => True) tr := by
  refine watch_bind (watch_mono (fun m tr _ => ?_) (watch_of_silent (I := fun _ => True)
    (fun _ _ _ _ => trivial) (stateMapRounds_commits 10) trivial))
  intro more _ db
  refine watch_ofAnswer fun differing => ?_
  refine watch_bind (watch_mono (fun _ tr _ => ?_) (watch_segments _ differing))
  intro now _
  -- the balance commit, and then the last look at the node
  change watch _ (commitBalances now >>= _) _ _
  refine watch_bind fun more _ => ⟨fun _ hzero => (nomatch hzero), fun db db' hexec => ?_⟩
  obtain rfl := Except.ok.inj hexec
  have hleft : ∀ address ∉ db.clearSpentInGapWithRecordedSpend.liveBalances.map Prod.fst,
      LeftOut address (tr ++ more ++ [(db, .sweepBalances now, db.sweepBalances now)]) :=
    fun address hkeep => leftOut_balances (not_holds_sweepBalances hkeep)
  have hlook := watch_of_silent (W := zeroWatch N cfg)
    (I := fun tr => ∀ address ∉ db.clearSpentInGapWithRecordedSpend.liveBalances.map Prod.fst,
      LeftOut address tr)
    (fun tr more hmore hleft address hkeep => (hleft address hkeep).append hmore)
    (stateMapRounds_commits 10) hleft
  refine watch_bind (watch_mono (fun check tr hcheck => ?_) hlook)
  intro more hmore db₂
  refine watch_ofAnswer fun still => ?_
  have hkept : ∀ address ∉ db.clearSpentInGapWithRecordedSpend.liveBalances.map Prod.fst,
      LeftOut address (tr ++ more) := fun address hkeep => (hcheck.1 address hkeep).append hmore
  dsimp only
  split_ifs
  · exact watch_bind (watch_mono (fun _ _ _ => trivial) (watch_zeroBalances now hkept))
  · exact trivial

theorem Job.watched {p : Program Unit} (h : Job N cfg .sweep p) (tr : List (Db × Txn × Db)) :
    watch (zeroWatch N cfg) p (fun _ _ => True) tr := by
  cases h with
  | sweep => exact watch_bind (watch_mono (fun _ _ _ => trivial) (watch_scanLiveState tr))

/-- No other thread commits the balances of a sweep. -/
theorem Job.others {i : Thread} {p : Program Unit} (hi : i ≠ .sweep) (h : Job N cfg i p) :
    p.Commits anyAnswer (fun t => t.isSweepBalances = false) fun _ => True := by
  refine commits_mono (fun t ht => ?_) (fun _ hr => hr) (h.by (bodySource_any N anyAnswer))
  cases ht with
  | balances => exact absurd rfl hi
  | _ => rfl

/-! ## The run -/

/-- **What the sweep is about to set to zero, its balance commit left out.** -/
theorem Execution.zeroing_left_out {c : Prog.Config Query Query.Answer Db Txn String Thread}
    (h : Execution N cfg anyAnswer tr c) (hzero : aboutToZero c = some address) :
    LeftOut address tr := by
  obtain ⟨t, ht, hzero⟩ := Option.bind_eq_some_iff.mp hzero
  obtain ⟨p, hp, hnext⟩ := Option.bind_eq_some_iff.mp ht
  obtain ⟨k, rfl⟩ := eq_commit_of_next? hnext
  have hwatch := (Run.watched .sweep (fun p tr hp => hp.watched tr)
    (fun i p hi hp => hp.others hi) h).1 _ hp
  have hguar := (hwatch [] nofun).1 address hzero
  rwa [List.append_nil] at hguar

/-- **A sweep sets no holder's balance to zero** if no transaction since its balance commit brought
the address into the picture. -/
theorem Execution.zeroing_spares_holders {c : Prog.Config Query Query.Answer Db Txn String Thread}
    (h : Execution N cfg anyAnswer tr c) (hzero : aboutToZero c = some address)
    (hsince : ∀ x ∈ sinceBalances tr, x.2.2.holds address = true → x.1.holds address = true) :
    c.store.holds address = false := by
  obtain ⟨tr₀, db, now, db', htr, hout⟩ := h.zeroing_left_out hzero
  have hchain := h.chained
  rw [htr, chained_append] at hchain
  obtain ⟨_, -, -, hchain⟩ := hchain
  refine hchain.carries (P := fun db => db.holds address = false) (fun x hx hstart => ?_) hout
  rw [Bool.eq_false_iff] at hstart ⊢
  exact fun hend => hstart (hsince x hx hend)

/-! ## A coin that comes in between -/

/-- A chain whose second block pays alice. -/
def newcomerChain : List BlockDetailsInfo :=
  [bareBlock 0 "a0" "", ⟨plainHeader 1 "a1" "a0", some coinBody⟩, bareBlock 2 "a2" "a1"]

/-- A node with the first blocks of that chain, whose state holds alice's coin or does not. -/
def newcomerAnswers (blocks : ℕ) (coin : Bool) : ∀ q : Query, q.Answer
  | .stateMap => .ok ⟨0, 8, if coin then [1] else [0]⟩
  | .slot index => .ok ⟨index, 0, 0, "", true⟩
  | .slotsByOwner owner => .ok (if coin ∧ owner = "alice" then [⟨3, 5, 7, "alice", false⟩] else [])
  | q => chainAnswers (newcomerChain.take blocks) 1 q

/-- A sweep commits its balances; before its last look at the node, the indexer records alice's coin
and refreshes her balance. -/
def newcomerTurns : List (Turn Query Query.Answer Db Txn String Thread) :=
  [⟨.indexer, some (pollOnce Noid.sample {}), fun _ => newcomerAnswers 1 false, 200⟩,
    ⟨.sweep, some (scanLiveState >>= fun _ => pure ()), fun _ => newcomerAnswers 1 false, 9⟩,
    ⟨.indexer, some (pollOnce Noid.sample {}), fun _ => newcomerAnswers 2 true, 200⟩,
    ⟨.indexer, some refreshKnownAddressBalances, fun _ => newcomerAnswers 2 true, 50⟩,
    ⟨.sweep, none, fun _ => newcomerAnswers 2 true, 11⟩]

/-- **A sweep sets a balance to zero whose address holds a coin since the balance commit.** -/
theorem Execution.zeroing_hits_holder : ∃ tr c, Execution Noid.sample {} anyAnswer tr c
    ∧ aboutToZero c = some "alice" ∧ c.store.holds "alice" = true := by
  have hrun : Execution Noid.sample {} anyAnswer
      ((Config.idle Db.empty).turnsTrace (Txn.exec Noid.sample {}) newcomerTurns)
      ((Config.idle Db.empty).turns (Txn.exec Noid.sample {}) newcomerTurns) := by
    refine run_turns _ ?_
    simp only [newcomerTurns, List.forall_mem_cons, Option.some.injEq, forall_eq', reduceCtorEq,
      false_implies, implies_true, true_and]
    exact ⟨⟨.poll, fun _ _ => trivial⟩, ⟨.sweep, fun _ _ => trivial⟩, ⟨.poll, fun _ _ => trivial⟩,
      ⟨.refresh, fun _ _ => trivial⟩, fun _ _ => trivial, nofun⟩
  exact ⟨_, _, hrun, by decide +kernel, by decide +kernel⟩

/-- Alice's coin is recorded, cached and then found gone; the next block pays nobody. -/
def goneTurns : List (Turn Query Query.Answer Db Txn String Thread) :=
  [⟨.indexer, some (pollOnce Noid.sample {}), fun _ => newcomerAnswers 2 true, 200⟩,
    ⟨.indexer, some refreshKnownAddressBalances, fun _ => newcomerAnswers 2 true, 50⟩,
    ⟨.sweep, some (scanLiveState >>= fun _ => pure ()), fun _ => newcomerAnswers 2 false, 22⟩,
    ⟨.indexer, some (pollOnce Noid.sample {}), fun _ => newcomerAnswers 3 false, 200⟩,
    ⟨.sweep, none, fun _ => newcomerAnswers 3 false, 7⟩]

/-- The balance of an address whose coin is gone is set to zero. -/
theorem Execution.zeroing_spares_holders_gone :
    aboutToZero ((Config.idle Db.empty).turns (Txn.exec Noid.sample {}) goneTurns) = some "alice"
      ∧ (sinceBalances ((Config.idle Db.empty).turnsTrace (Txn.exec Noid.sample {})
          goneTurns)).length = 2
      ∧ ((Config.idle Db.empty).turns (Txn.exec Noid.sample {}) goneTurns).store.holds "alice"
        = false := by
  have hrun : Execution Noid.sample {} anyAnswer
      ((Config.idle Db.empty).turnsTrace (Txn.exec Noid.sample {}) goneTurns)
      ((Config.idle Db.empty).turns (Txn.exec Noid.sample {}) goneTurns) := by
    refine run_turns _ ?_
    simp only [goneTurns, List.forall_mem_cons, Option.some.injEq, forall_eq', reduceCtorEq,
      false_implies, implies_true, true_and]
    exact ⟨⟨.poll, fun _ _ => trivial⟩, ⟨.refresh, fun _ _ => trivial⟩,
      ⟨.sweep, fun _ _ => trivial⟩, ⟨.poll, fun _ _ => trivial⟩, fun _ _ => trivial, nofun⟩
  have hzero : aboutToZero ((Config.idle Db.empty).turns (Txn.exec Noid.sample {}) goneTurns)
      = some "alice" := by decide +kernel
  exact ⟨hzero, by decide +kernel, hrun.zeroing_spares_holders hzero (by decide +kernel)⟩

end Permanode
