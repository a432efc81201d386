import Permanode.Indexer.Slices
import Permanode.System.Issued
import Permanode.System.Views

/-!
# Ledger/Readings — the two readings of "canonical"

`canonicalHashAt` takes the entries of a block's latest moment, every other query the last entry of
its log.  The moments come from a wall clock: an orphaned block whose orphaning is not dated later
than its recording stays canonical to the first reading, and a block that returns under an earlier
date does not become so (`Execution.reads_orphaned`).

**`Execution.selects_canonical`**: the readings agree in every state of a run whose entries are in
step with the clock.
-/

namespace Permanode

open Prog

namespace Db

variable {db db' : Db} {height id : ℕ} {status : Status} {now : Instant}

/-! ## The readings -/

/-- The block is canonical by an entry of its latest moment. -/
def CanonicalByClock (db : Db) (id : ℕ) : Prop :=
  ∃ s ∈ db.statusesOf id, s.observedAt = db.lastObservedAt id ∧ s.status = .canonical

/-- The readings agree on every block. -/
def ReadingsAgree (db : Db) : Prop := ∀ id, db.CanonicalByClock id ↔ db.isCanonical id

/-- `canonicalHashAt` returns a block whose last entry is canonical if there is one at the height,
and nothing otherwise. -/
def SelectsCanonical (db : Db) (height : ℕ) : Prop :=
  match db.canonicalHashAt height with
  | some (id, hash) =>
    ∃ b ∈ db.blocks.rows, b.id = id ∧ b.height = height ∧ b.hash = hash ∧ db.isCanonical b.id
  | none => ∀ b ∈ db.blocks.rows, b.height = height → db.isCanonical b.id = false

instance (db : Db) (height : ℕ) : Decidable (db.SelectsCanonical height) := by
  unfold SelectsCanonical
  split <;> infer_instance

theorem mem_canonicalEntriesAt {x : BlockRow × StatusRow} :
    x ∈ db.canonicalEntriesAt height ↔ x.1 ∈ db.blocks.rows ∧ x.1.height = height
      ∧ x.2 ∈ db.statusesOf x.1.id ∧ x.2.observedAt = db.lastObservedAt x.1.id
      ∧ x.2.status = .canonical := by
  obtain ⟨b, s⟩ := x
  simp only [canonicalEntriesAt, List.mem_flatMap, List.mem_filter, List.mem_map,
    decide_eq_true_eq, Prod.mk.injEq]
  constructor
  · rintro ⟨_, ⟨hb, hh⟩, _, ⟨hs, hlast, hst⟩, rfl, rfl⟩
    exact ⟨hb, hh, hs, hlast, hst⟩
  · rintro ⟨hb, hh, hs, hlast, hst⟩
    exact ⟨b, ⟨hb, hh⟩, s, ⟨hs, hlast, hst⟩, rfl, rfl⟩

/-- **Where the readings agree, `canonicalHashAt` selects what is canonical.** -/
theorem ReadingsAgree.selects (h : db.ReadingsAgree) (height : ℕ) : db.SelectsCanonical height := by
  rw [SelectsCanonical, canonicalHashAt]
  rcases hmax : List.argmax (fun x : BlockRow × StatusRow => x.2.id) (db.canonicalEntriesAt height)
    with _ | ⟨b, s⟩
  · intro b hb hh
    by_contra hcanon
    obtain ⟨s, hs, hlast, hst⟩ := (h b.id).mpr (by simpa using hcanon)
    have hmem : (b, s) ∈ db.canonicalEntriesAt height :=
      mem_canonicalEntriesAt.mpr ⟨hb, hh, hs, hlast, hst⟩
    rw [List.argmax_eq_none.mp hmax] at hmem
    exact List.not_mem_nil hmem
  · obtain ⟨hb, hh, hs, hlast, hst⟩ := mem_canonicalEntriesAt.mp (List.argmax_mem hmax)
    exact ⟨b, hb, rfl, hh, rfl, (h b.id).mp ⟨s, hs, hlast, hst⟩⟩

/-! ## One entry -/

/-- A status entry in step with the clock: it says what the block's last entry says, or it is dated
later than every entry of the block (not earlier will do for a canonical one). -/
def InStep (db : Db) (id : ℕ) (status : Status) (now : Instant) : Prop :=
  db.latestStatus id = some status
    ∨ ∀ s ∈ db.statusesOf id, match status with
      | .canonical => s.observedAt ≤ now
      | .orphaned => s.observedAt < now

instance (db : Db) (id : ℕ) (status : Status) (now : Instant) :
    Decidable (db.InStep id status now) := by
  unfold InStep
  rcases status with _ | _ <;> infer_instance

theorem latestStatus_appendStatus (db : Db) (id : ℕ) (status : Status) (now : Instant) :
    (db.appendStatus id status now).latestStatus id = some status := by
  rw [latestStatus, statusesOf_appendStatus, if_pos rfl, argmax_append_of_lt]
  · rfl
  · exact fun s hs => Table.lt_nextId (List.mem_filter.mp hs).1

theorem lastObservedAt_appendStatus (db : Db) (id : ℕ) (status : Status) (now : Instant) :
    (db.appendStatus id status now).lastObservedAt id = max (db.lastObservedAt id) now := by
  have happend : ∀ l : List Instant, (l ++ [now]).foldr max 0 = max (l.foldr max 0) now := by
    intro l
    induction l with
    | nil => simp
    | cons m l ih => rw [List.cons_append, List.foldr_cons, ih, List.foldr_cons, max_assoc]
  rw [lastObservedAt, statusesOf_appendStatus, if_pos rfl, List.map_append, List.map_singleton,
    happend]
  rfl

theorem observedAt_le_last {s : StatusRow} (hs : s ∈ db.statusesOf id) :
    s.observedAt ≤ db.lastObservedAt id := Table.le_foldr_max (List.mem_map_of_mem hs)

/-- **An entry in step keeps the readings in agreement.** -/
theorem ReadingsAgree.appendStatus (h : db.ReadingsAgree) (hstep : db.InStep id status now) :
    (db.appendStatus id status now).ReadingsAgree := by
  intro k
  by_cases hk : k = id
  swap
  · have hsame : (db.appendStatus id status now).statusesOf k = db.statusesOf k := by
      rw [statusesOf_appendStatus, if_neg hk]
    rw [CanonicalByClock, lastObservedAt, isCanonical, latestStatus, hsame]
    exact h k
  subst hk
  rw [isCanonical, latestStatus_appendStatus, CanonicalByClock, lastObservedAt_appendStatus,
    statusesOf_appendStatus, if_pos rfl]
  rcases status with _ | _
  · -- a canonical entry: it is of the latest moment, or an earlier canonical one is
    refine iff_of_true ?_ rfl
    by_cases hle : db.lastObservedAt k ≤ now
    · exact ⟨_, List.mem_append_right _ (List.mem_singleton_self _), (max_eq_right hle).symm, rfl⟩
    · rcases hstep with hsame | hall
      · obtain ⟨s, hs, hlast, hst⟩ := (h k).mpr (by simp [isCanonical, hsame])
        refine ⟨s, List.mem_append_left _ hs, ?_, hst⟩
        rw [hlast, max_eq_left (not_le.mp hle).le]
      · refine absurd (List.max_le_of_forall_le _ now fun t ht => ?_) hle
        obtain ⟨s, hs, rfl⟩ := List.mem_map.mp ht
        exact hall s hs
  · -- an orphaned entry: no canonical one is of the latest moment
    refine iff_of_false ?_ Bool.false_ne_true
    rintro ⟨s, hs, hlast, hst⟩
    rcases List.mem_append.mp hs with hs | hs
    · rcases hstep with hsame | hall
      · have heq : s.observedAt = db.lastObservedAt k :=
          le_antisymm (observedAt_le_last hs) ((le_max_left _ _).trans hlast.ge)
        have hcanon : db.isCanonical k := (h k).mp ⟨s, hs, heq, hst⟩
        simp [isCanonical, hsame] at hcanon
      · have hle : now ≤ s.observedAt := (le_max_right _ _).trans hlast.ge
        exact absurd (hall s hs) (not_lt.mpr hle)
    · rw [List.mem_singleton.mp hs] at hst
      cases hst

theorem ReadingsAgree.of_log (h : db.ReadingsAgree)
    (hlog : db'.blockStatusLog = db.blockStatusLog) : db'.ReadingsAgree := by
  intro id
  have hsame : db'.statusesOf id = db.statusesOf id := by rw [statusesOf, statusesOf, hlog]
  rw [CanonicalByClock, lastObservedAt, isCanonical, latestStatus, hsame]
  exact h id

/-! ## Blocks -/

/-- A canonical entry for the block of `h` is in step, if the block is on record. -/
def EntersInStep (db : Db) (h : BlockHeaderInfo) (now : Instant) : Prop :=
  ∀ b ∈ db.blocks.rows, b.height = h.height → b.hash = h.hash → db.InStep b.id .canonical now

instance (db : Db) (h : BlockHeaderInfo) (now : Instant) : Decidable (db.EntersInStep h now) := by
  unfold EntersInStep
  infer_instance

/-- A block that is not on record has no entries. -/
theorem statusesOf_new (hlog : db.LogRefers) :
    db.statusesOf (db.blocks.nextId BlockRow.id) = [] := by
  rw [statusesOf, List.filter_eq_nil_iff]
  intro s hs hid
  obtain ⟨b, hb, hbid⟩ := hlog s hs
  have hlt : b.id < db.blocks.nextId BlockRow.id := Table.lt_nextId hb
  have hs : s.blockId = db.blocks.nextId BlockRow.id := of_decide_eq_true hid
  omega

theorem inStep_new (hlog : db.LogRefers) :
    db.InStep (db.blocks.nextId BlockRow.id) status now := by
  refine Or.inr ?_
  rw [statusesOf_new hlog]
  exact nofun

theorem InStep.of_log (h : db.InStep id status now)
    (hlog : db'.blockStatusLog = db.blockStatusLog) : db'.InStep id status now := by
  have hsame : db'.statusesOf id = db.statusesOf id := by rw [statusesOf, statusesOf, hlog]
  rw [InStep, latestStatus, hsame]
  exact h

theorem ReadingsAgree.insertBlockHeaderRow {h : BlockHeaderInfo} {captured : Bool}
    {source : Option String} (hagree : db.ReadingsAgree) (hlog : db.LogRefers)
    (hstep : db.EntersInStep h now)
    (hins : db.insertBlockHeaderRow h captured source now = .ok (db', id)) : db'.ReadingsAgree := by
  obtain ⟨db₁, rfl, hsame, ⟨b, hb, rfl, hh, hhash⟩, -, hnew, -⟩ := insertBlockHeaderRow_cases hins
  refine (hagree.of_log hsame).appendStatus (InStep.of_log ?_ hsame)
  rcases hnew b hb with hmem | hid
  · exact hstep b hmem hh hhash
  · rw [hid]
    exact inStep_new hlog

theorem ReadingsAgree.insertHeaders : ∀ {batch : List BlockHeaderInfo} {db : Db},
    db.ReadingsAgree → db.LogRefers → insertHeaders now db batch = .ok db' →
      db'.ReadingsAgree ∧ db'.LogRefers
  | [], db, hagree, hlog, hins => by
      obtain rfl := Outcome.pure_ok.mp hins
      exact ⟨hagree, hlog⟩
  | h :: batch, db, hagree, hlog, hins => by
      rw [Db.insertHeaders, List.foldlM_cons, Outcome.bind_ok] at hins
      obtain ⟨_, hmap, h₂⟩ := hins
      obtain ⟨⟨db₁, inserted⟩, h₁, rfl⟩ := Outcome.map_ok.mp hmap
      refine ReadingsAgree.insertHeaders ?_ (hlog.insertHeaderOnlyBlock h₁) h₂
      rcases insertHeaderOnlyBlock_cases h₁ with ⟨-, rfl, -⟩ | ⟨-, -, db₂, -, hsame, rfl⟩
      · exact hagree
      · have hlog₂ : db₂.blockStatusLog = db.blockStatusLog := by rw [hsame]
        exact (hagree.of_log hlog₂).appendStatus ((inStep_new hlog).of_log hlog₂)

end Db

/-! ## A run -/

/-- The status entries of a transaction are in step with the clock. -/
def Txn.InStep (db : Db) : Txn → Prop
  | .ingest _ details _ _ now => db.EntersInStep details.header now
  | .gapBlock details _ now => db.EntersInStep details.header now
  | .replace _ oldBlockId orphanedAt _ replacement now =>
    db.InStep oldBlockId .orphaned orphanedAt ∧ ∀ out ∈ replacement,
      (db.appendStatus oldBlockId .orphaned orphanedAt).EntersInStep out.header now
  | _ => True

instance (db : Db) : ∀ t : Txn, Decidable (t.InStep db)
  | .ingest _ details _ _ now => inferInstanceAs (Decidable (db.EntersInStep details.header now))
  | .gapBlock details _ now => inferInstanceAs (Decidable (db.EntersInStep details.header now))
  | .replace .. => inferInstanceAs (Decidable (_ ∧ _))
  | .setState .. | .recover .. | .keepRaw .. | .fillGap .. | .fillRaw .. | .clearSpentInGap
  | .resolveGapsWithBodies _ | .pruneBlock _ | .setTipSeen .. | .adoptTipSeen ..
  | .adoptProofClass .. | .sweepSegment .. | .sweepBalances _ | .upsertBalances ..
  | .headerBatch .. | .receipt .. => .isTrue trivial

variable {N : Noid} {cfg : Config} {allow : ∀ q : Query, q.Answer → Prop} {t : Txn} {db db' : Db}

/-- **A transaction in step keeps the readings in agreement.** -/
theorem Txn.readingsAgree (hagree : db.ReadingsAgree) (hlog : db.LogRefers) (hstep : t.InStep db)
    (hexec : t.exec N cfg db = .ok db') : db'.ReadingsAgree ∧ db'.LogRefers := by
  have hkept : ∀ {db₁ db₂ : Db}, db₁.ReadingsAgree → db₁.LogRefers → db₁.KeepsHeaders db₂ →
      db₂.ReadingsAgree ∧ db₂.LogRefers :=
    fun ha hl hk => ⟨ha.of_log hk.log, hl.keepsHeaders hk⟩
  have hstore : ∀ {db₁ : Db} {height details source raw now}, db₁.ReadingsAgree → db₁.LogRefers →
      db₁.EntersInStep details.header now →
      db₁.storeKept N cfg height details source raw now = .ok db' →
      db'.ReadingsAgree ∧ db'.LogRefers := by
    intro db₁ height details source raw now ha hl hs hst
    rcases Db.storeKept_cases hst with ⟨-, hkeep⟩ | ⟨db₂, id, hins, hkeep⟩
    · exact hkept ha hl hkeep
    · exact hkept (ha.insertBlockHeaderRow hl hs hins) (hl.insertBlockHeaderRow hins) hkeep
  have hgap : ∀ {db₁ : Db} {details note now}, db₁.ReadingsAgree → db₁.LogRefers →
      db₁.EntersInStep details.header now → db₁.recordGapBlock details note now = .ok db' →
      db'.ReadingsAgree ∧ db'.LogRefers := by
    intro db₁ details note now ha hl hs hst
    rcases Db.recordGapBlock_cases hst with ⟨-, hkeep⟩ | ⟨db₂, id, hins, hkeep⟩
    · exact hkept ha hl hkeep
    · exact hkept (ha.insertBlockHeaderRow hl hs hins) (hl.insertBlockHeaderRow hins) hkeep
  by_cases henters : t.Enters
  swap
  · exact hkept hagree hlog (Txn.exec_keepsHeaders henters hexec)
  match t with
  | .ingest .. => exact hstore hagree hlog hstep hexec
  | .gapBlock .. => exact hgap hagree hlog hstep hexec
  | .replace height old orphanedAt headerHash replacement now =>
    simp only [exec, Db.replaceBlock, Outcome.bind_ok] at hexec
    obtain ⟨db₁, hmark, hrest⟩ := hexec
    unfold Db.markOrphaned at hmark
    split_ifs at hmark with hsome
    obtain rfl := Except.ok.inj hmark
    obtain ⟨b, hb⟩ := Option.isSome_iff_exists.mp hsome
    have ha : (db.appendStatus old .orphaned orphanedAt).ReadingsAgree :=
      hagree.appendStatus hstep.1
    have hl : (db.appendStatus old .orphaned orphanedAt).LogRefers :=
      hlog.appendStatus ⟨b, Db.mem_of_block? hb⟩
    rcases replacement with _ | ⟨details, source, raw⟩ | ⟨details, note⟩
    · obtain rfl := Outcome.pure_ok.mp hrest
      exact hkept ha hl ⟨rfl, rfl⟩
    · exact hstore ha hl (hstep.2 _ rfl) hrest
    · exact hgap ha hl (hstep.2 _ rfl) hrest
  | .headerBatch batch progress now =>
    obtain ⟨db₁, hins, rfl⟩ := Outcome.map_ok.mp hexec
    obtain ⟨ha, hl⟩ := hagree.insertHeaders hlog hins
    exact hkept ha hl ⟨rfl, rfl⟩

/-- A node that reorganises to `B` and back to `A` while the clock is set back. -/
def setBackStints : List (Stint Query Query.Answer Db Txn String Thread) :=
  [⟨.indexer, pollOnce Noid.sample {},
      fun _ => chainAnswers [bareBlock 0 "G" "", bodyBlock 1 "A" "G"] 5, 60⟩,
    ⟨.indexer, pollOnce Noid.sample {},
      fun _ => chainAnswers [bareBlock 0 "G" "", bodyBlock 1 "B" "G"] 3, 60⟩,
    ⟨.indexer, pollOnce Noid.sample {},
      fun _ => chainAnswers [bareBlock 0 "G" "", bodyBlock 1 "A" "G"] 4, 60⟩]

theorem run_setBackStints : Execution Noid.sample {} anyAnswer
    (traceAll (Txn.exec Noid.sample {}) setBackStints Db.empty)
    (Config.idle (playAll (Txn.exec Noid.sample {}) setBackStints Db.empty)) := by
  refine run_playAll Db.empty ?_
  simp only [setBackStints, List.forall_mem_cons]
  exact ⟨⟨.poll, fun _ _ => trivial⟩, ⟨.poll, fun _ _ => trivial⟩,
    ⟨.poll, fun _ _ => trivial⟩, nofun⟩

/-- **A clock that is set back makes the readings differ**: an orphaned block is selected, at a
height where none is canonical by its last entry. -/
theorem Execution.reads_orphaned :
    ∃ tr c, Execution Noid.sample {} anyAnswer tr c ∧ ¬ ∀ height, c.store.SelectsCanonical height :=
  ⟨_, _, run_setBackStints, fun h => absurd (h 1) (by decide +kernel)⟩

/-- **Where every entry is in step with the clock, `canonicalHashAt` selects what is canonical.** -/
theorem Execution.selects_canonical {tr : List (Db × Txn × Db)}
    {c : Prog.Config Query Query.Answer Db Txn String Thread} (h : Execution N cfg allow tr c)
    (hstep : ∀ x ∈ tr, x.2.1.InStep x.1) (height : ℕ) : c.store.SelectsCanonical height := by
  have hexec : ∀ (db : Db) t db', Txn.Issued cfg (fun _ => True) t →
      db.ReadingsAgree ∧ db.LogRefers → t.InStep db → t.exec N cfg db = .ok db' →
      db'.ReadingsAgree ∧ db'.LogRefers :=
    fun db t db' _ hi hc hexec => Txn.readingsAgree hi.1 hi.2 hc hexec
  have hempty : Db.empty.ReadingsAgree ∧ Db.empty.LogRefers :=
    ⟨fun id => iff_of_false nofun nofun, nofun⟩
  have hinv : c.store.ReadingsAgree ∧ c.store.LogRefers :=
    (Run.invariant (fun _ _ hp => Job.commits (bodySource_any N allow) hp) hexec hempty h hstep).1
  exact hinv.1.selects height

/-- A node that reorganises to `B` and back to `A` while the clock goes on. -/
def onwardStints : List (Stint Query Query.Answer Db Txn String Thread) :=
  [⟨.indexer, pollOnce Noid.sample {},
      fun _ => chainAnswers [bareBlock 0 "G" "", bodyBlock 1 "A" "G"] 3, 60⟩,
    ⟨.indexer, pollOnce Noid.sample {},
      fun _ => chainAnswers [bareBlock 0 "G" "", bodyBlock 1 "B" "G"] 4, 60⟩,
    ⟨.indexer, pollOnce Noid.sample {},
      fun _ => chainAnswers [bareBlock 0 "G" "", bodyBlock 1 "A" "G"] 5, 60⟩]

theorem run_onwardStints : Execution Noid.sample {} anyAnswer
    (traceAll (Txn.exec Noid.sample {}) onwardStints Db.empty)
    (Config.idle (playAll (Txn.exec Noid.sample {}) onwardStints Db.empty)) := by
  refine run_playAll Db.empty ?_
  simp only [onwardStints, List.forall_mem_cons]
  exact ⟨⟨.poll, fun _ _ => trivial⟩, ⟨.poll, fun _ _ => trivial⟩,
    ⟨.poll, fun _ _ => trivial⟩, nofun⟩

/-- With the clock going on the block that is back is selected again. -/
theorem Execution.selects_canonical_onward :
    (playAll (Txn.exec Noid.sample {}) onwardStints Db.empty).SelectsCanonical 1 :=
  Execution.selects_canonical run_onwardStints (by decide +kernel) 1

end Permanode
