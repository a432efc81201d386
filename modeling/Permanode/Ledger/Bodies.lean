import Permanode.Import.RoundTrip
import Permanode.Ledger.Executions
import Permanode.System.Views

/-!
# Ledger/Bodies — the flag that says a body is on record

Of a block of the archive, `body_captured` is to say whether its transactions are on record.  Every
path sets the flag with the transactions, except where a block returns that was recorded without its
body: its row is met by `ON CONFLICT DO NOTHING` and keeps the flag while the transactions go in
(`Execution.body_unflagged`).

**`Execution.flagged_iff`**: the flag is right throughout a run iff no block stored with its body
meets a row of its own without one.
-/

namespace Permanode

open Outcome Prog

namespace Ledger

/-- Of every block of the archive the flag says whether it has transactions. -/
def Flagged (l : Ledger) : Prop :=
  ∀ e ∈ l.entries.rows, e.archived → l.bodied e.id = e.captured

variable {l : Ledger} {height id : ℕ} {hash : String} {archived captured : Bool}

/-- A new row has no transactions yet. -/
theorem Based.bodied_nextId (h : l.Based) : l.bodied l.nextId = false := by
  by_contra hb
  obtain ⟨e, he, hid⟩ := h l.nextId (Bool.eq_true_of_not_eq_false hb)
  exact (Table.lt_nextId he).ne hid

/-- A block that enters without transactions. -/
theorem flagged_enter (hb : l.Based) (hl : l.Flagged) (hc : archived → captured = false) :
    (l.enter height hash archived captured).Flagged := by
  intro e he ha
  rcases enter_cases l height hash archived captured with ⟨_, _, _, _, _, hrows⟩ | ⟨_, _, hrows⟩
  · exact hl e (hrows ▸ he) ha
  · rcases List.mem_append.mp (hrows ▸ he) with he | he
    · exact hl e he ha
    · obtain rfl := List.mem_singleton.mp he
      exact hb.bodied_nextId.trans (hc ha).symm

end Ledger

/-- A block stored with its body meets no row of its own without one. -/
def Op.MeetsBody (l : Ledger) : Op → Prop
  | .enterBody height hash _ => l.lacks height hash false = false
  | _ => True

/-- The body an operation stores holds transactions. -/
def Op.Filled : Op → Prop
  | .enterBody _ _ filled => filled = true
  | .fill _ _ filled => filled = true
  | _ => True

/-- Storing a block with its body keeps the flags right iff its row does not lack a body. -/
theorem Op.flagged_enterBody {l : Ledger} {height : ℕ} {hash : String} (hl : l.Flagged) :
    ((Op.enterBody height hash true).apply l).Flagged ↔ l.lacks height hash false = false := by
  let l' := (Op.enterBody height hash true).apply l
  have hother : ∀ k, k ≠ l.entryId height hash → l'.bodied k = l.bodied k := by
    intro k hk
    change (Function.update l.bodied (l.entryId height hash) _ : ℕ → Bool) k = _
    rw [Function.update_of_ne hk]
  have hhas : (l.enter height hash true true).has (l.entryId height hash) = true := by
    have hfind : ((l.enter height hash true true).find height hash).map Entry.id
        = some (l.entryId height hash) := Ledger.find_enter
    obtain ⟨e, he, hid⟩ := Option.map_eq_some_iff.mp hfind
    exact List.any_eq_true.mpr ⟨e, List.mem_of_find?_eq_some he, decide_eq_true hid⟩
  have hown : l'.bodied (l.entryId height hash) = true := by
    simp [l', Op.apply, Ledger.addBody, hhas]
  rcases Ledger.enter_cases l height hash true true with
    ⟨e₀, he₀, hh, hs, hid, hrows⟩ | ⟨hnone, hid, hrows⟩
  · rw [Ledger.lacks_of_mem he₀ hh hs]
    rw [hid] at hother hown
    constructor
    · intro h
      rcases ha : e₀.archived with _ | _
      · rfl
      · have hc : l'.bodied e₀.id = e₀.captured := h e₀ (hrows ▸ he₀) ha
        rw [← hc, hown]
        rfl
    · intro h e he ha
      have he' : e ∈ l.entries.rows := hrows ▸ he
      by_cases hk : e.id = e₀.id
      · obtain rfl := Ledger.eq_of_id he' he₀ hk
        rw [ha] at h
        exact hown.trans (by simpa using h.symm)
      · exact (hother _ hk).trans (hl e he' ha)
  · rw [Ledger.lacks_of_new hnone]
    refine iff_of_true (fun e he ha => ?_) rfl
    rw [hid] at hother hown
    rcases List.mem_append.mp (hrows ▸ he) with he | he
    · exact (hother _ (Table.lt_nextId he).ne).trans (hl e he ha)
    · obtain rfl := List.mem_singleton.mp he
      exact hown

/-- **An operation keeps the flags right iff it meets its condition.** -/
theorem Op.flagged_apply {l : Ledger} (op : Op) (hop : op.Filled) (hb : l.Based) (hl : l.Flagged) :
    (op.apply l).Flagged ↔ op.MeetsBody l := by
  match op with
  | .enterBody height hash filled =>
    obtain rfl : filled = true := hop
    exact flagged_enterBody hl
  | .enterGap height hash => exact iff_of_true (Ledger.flagged_enter hb hl fun _ => rfl) trivial
  | .enterHeader height hash =>
    refine iff_of_true ?_ trivial
    rw [Op.apply]
    split_ifs
    · exact hl
    · exact Ledger.flagged_enter hb hl fun _ => rfl
  | .orphan _ => exact iff_of_true hl trivial
  | .fill id height filled =>
    obtain rfl : filled = true := hop
    refine iff_of_true (fun e he ha => ?_) trivial
    change Function.update l.bodied id (l.bodied id || (true && l.has id)) e.id = e.captured
    obtain ⟨e₀, he₀, ⟨hne, rfl⟩ | ⟨rfl, rfl⟩⟩ := Ledger.mem_setFlags.mp he
    · rw [Function.update_of_ne hne, hl e he₀ ha]
    · have hhas : l.has e₀.id = true := List.any_eq_true.mpr ⟨e₀, he₀, decide_eq_true rfl⟩
      rw [Function.update_self, hhas]
      simp
  | .openGap _ => exact iff_of_true hl trivial
  | .closeBodied => exact iff_of_true hl trivial
  | .prune id =>
    refine iff_of_true (fun e he ha => ?_) trivial
    change Function.update l.bodied id false e.id = e.captured
    obtain ⟨e₀, he₀, ⟨hne, rfl⟩ | ⟨rfl, rfl⟩⟩ := Ledger.mem_setFlags.mp he
    · rw [Function.update_of_ne hne, hl e he₀ ha]
    · rw [Function.update_self]
  | .attach id =>
    refine iff_of_true ?_ trivial
    rw [Op.apply]
    split_ifs with hany
    · intro e he ha
      obtain ⟨e₀, he₀, h₀⟩ := List.any_eq_true.mp hany
      obtain ⟨rfl, harch⟩ := of_decide_eq_true h₀
      change Function.update l.bodied e₀.id true e.id = e.captured
      rw [Function.update_of_ne, hl e he ha]
      intro hid
      rw [Ledger.eq_of_id he he₀ hid, harch] at ha
      exact Bool.false_ne_true ha
    · exact hl

namespace Db

/-- Of every block of the archive, canonical or not, `body_captured` says whether it has
transactions. -/
def BodiesFlagged (db : Db) : Prop :=
  ∀ b ∈ db.blocks.rows, b.archived →
    ((∃ t ∈ db.transactions.rows, t.blockId = b.id) ↔ b.bodyCaptured = true)

instance (db : Db) : Decidable db.BodiesFlagged := by unfold BodiesFlagged; infer_instance

theorem bodiesFlagged_iff (db : Db) : db.BodiesFlagged ↔ db.ledger.Flagged := by
  have hbodied : ∀ id, db.ledger.bodied id = true ↔ ∃ t ∈ db.transactions.rows, t.blockId = id := by
    intro id
    simp [ledger]
  constructor
  · intro h e he ha
    obtain ⟨b, hb, rfl⟩ := List.mem_map.mp he
    rw [Bool.eq_iff_iff, hbodied]
    exact h b hb ha
  · intro h b hb ha
    rw [← hbodied, ← Bool.eq_iff_iff]
    exact h b.entry (List.mem_map_of_mem hb) ha

end Db

/-! ## Where bodies come from -/

/-- A node whose bodies hold at least their coinbase; everything else may answer anything. -/
def coinbaseAnswers : ∀ q : Query, q.Answer → Prop
  | .blockDetails _, .ok (some details) => ∀ r ∈ details.retained, r.transactions ≠ []
  | _, _ => True

/-- A decoded body begins with the coinbase. -/
theorem decodeRetainedBlock_ne_nil {N : Noid} {bytes : List UInt8} {height : ℕ} {hash : String}
    {r : RetainedBlockInfo} (h : decodeRetainedBlock N bytes height hash = .ok r) :
    r.transactions ≠ [] := by
  simp only [decodeRetainedBlock, bind_ok] at h
  obtain ⟨_, _, _, _, _, _, _, _, _, _, _, _, h⟩ := h
  split_ifs at h <;> simp only [bind_ok, pure_ok] at h
  · obtain ⟨_, _, _, _, _, _, _, _, _, _, _, _, _, _, rfl⟩ := h
    exact List.cons_ne_nil _ _
  · obtain ⟨_, _, _, _, _, _, _, _, _, _, _, _, rfl⟩ := h
    exact List.cons_ne_nil _ _

theorem bodySource_coinbase (N : Noid) :
    BodySource N coinbaseAnswers fun b => b.transactions ≠ [] where
  details _ _ h := h
  decoded _ _ _ _ h := decodeRetainedBlock_ne_nil h
  checked _ _ h := (Db.checkBody_ok h).2.1

/-! ## Along a run -/

variable {N : Noid} {cfg : Config}

theorem chainAnswers_coinbase {chain : List BlockDetailsInfo} (now : Instant)
    (h : ∀ d ∈ chain, ∀ r ∈ d.retained, r.transactions ≠ []) (q : Query) :
    coinbaseAnswers q (chainAnswers chain now q) := by
  match q with
  | .blockDetails height =>
    rcases hd : chain[height]? with _ | d
    · simp only [chainAnswers, hd, coinbaseAnswers]
    · simp only [chainAnswers, hd, coinbaseAnswers]
      exact h d (List.mem_of_getElem? hd)
  | .blockCount | .blockHeader _ | .block _ | .stateMap | .slot _ | .slotsByOwner _ | .now
  | .unixTime | .rounds | .offer _ _ | .rawOffer _ _ | .peerRawFrom | .peerSeen | .peerProof
  | .sightings => exact trivial

/-- Block `A` is recorded without a body, gives way to `B`, and returns with its body. -/
def returnStints : List (Stint Query Query.Answer Db Txn String Thread) :=
  [⟨.indexer, pollOnce Noid.sample {},
      fun _ => chainAnswers [bareBlock 0 "G" "", bareBlock 1 "A" "G"] 1, 60⟩,
    ⟨.indexer, pollOnce Noid.sample {},
      fun _ => chainAnswers [bareBlock 0 "G" "", bodyBlock 1 "B" "G"] 2, 60⟩,
    ⟨.indexer, pollOnce Noid.sample {},
      fun _ => chainAnswers [bareBlock 0 "G" "", bodyBlock 1 "A" "G"] 3, 60⟩]

theorem run_returnStints : Execution Noid.sample {} coinbaseAnswers
    (traceAll (Txn.exec Noid.sample {}) returnStints Db.empty)
    (Config.idle (playAll (Txn.exec Noid.sample {}) returnStints Db.empty)) := by
  refine run_playAll Db.empty ?_
  simp only [returnStints, List.forall_mem_cons]
  exact ⟨⟨.poll, fun _ => chainAnswers_coinbase 1 (by decide)⟩,
    ⟨.poll, fun _ => chainAnswers_coinbase 2 (by decide)⟩,
    ⟨.poll, fun _ => chainAnswers_coinbase 3 (by decide)⟩, nofun⟩

/-- **A block that returns has transactions and no flag.** -/
theorem Execution.body_unflagged :
    ∃ tr c, Execution Noid.sample {} coinbaseAnswers tr c ∧ ¬ c.store.BodiesFlagged :=
  ⟨_, _, run_returnStints, by decide⟩

/-- **The flags are right throughout iff every block stored with its body meets no row of its own
without one.** -/
theorem Execution.flagged_iff {tr : List (Db × Txn × Db)}
    {c : Prog.Config Query Query.Answer Db Txn String Thread}
    (h : Execution N cfg coinbaseAnswers tr c) :
    ((∀ x ∈ tr, x.2.1.Meets Op.MeetsBody x.1) → c.store.BodiesFlagged)
      ∧ ((∀ x ∈ tr, x.2.2.BodiesFlagged) ↔ ∀ x ∈ tr, x.2.1.Meets Op.MeetsBody x.1) := by
  simp only [Db.bodiesFlagged_iff]
  refine Execution.judged (bodySource_coinbase N) (Q := Op.Filled) ?_
    (fun op l hop hb hl => op.flagged_apply hop hb hl) ?_ ?_ h
  · intro t db ht op hop
    have hjust := t.ops_justified db op hop
    match op with
    | .enterBody .. | .fill .. =>
      obtain ⟨b, hb, rfl⟩ := hjust
      exact decide_eq_true (ht.bodies b hb)
    | .enterGap .. | .enterHeader .. | .orphan _ | .openGap _ | .closeBodied | .prune _
    | .attach _ => exact trivial
  · intro op l hlead
    match op with
    | .orphan _ => exact trivial
    | .enterHeader .. => exact trivial
  · exact fun e he => absurd he List.not_mem_nil

/-- In the run of the returning block a transaction misses its condition. -/
theorem Execution.flagged_iff_return :
    ∃ tr c, Execution Noid.sample {} coinbaseAnswers tr c
      ∧ ∃ x ∈ tr, ¬ x.2.1.Meets Op.MeetsBody x.1 := by
  refine ⟨_, _, run_returnStints, ?_⟩
  by_contra hall
  push Not at hall
  exact absurd ((Execution.flagged_iff run_returnStints).1 hall) (by decide)

end Permanode
