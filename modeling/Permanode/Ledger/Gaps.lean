import Permanode.Ledger.Executions
import Permanode.System.Views

/-!
# Ledger/Gaps — a block without a body has an open gap

A gap belongs to a height, a body to a block.  A canonical block of the archive whose body is
missing is found again through the open gap of its height, so a gap must not be resolved while a
canonical block of its height still lacks its body, and must be open when such a block enters.  The
second fails where a gap was resolved for one block and the chain then brings another one without a
body: `record_gap` leaves a gap on record as it is (`Execution.gap_lost`).

**`Execution.findable_iff`**: with retention off, the gaps are open throughout a run iff every
transaction meets `Op.KeepsFindable`.
-/

namespace Permanode

open Prog

namespace Ledger

/-- Block `id` is canonical at `height`, of the archive, and lacks its body. -/
def Lacking (l : Ledger) (height id : ℕ) : Prop :=
  ∃ e ∈ l.entries.rows, e.id = id ∧ e.height = height ∧ e.archived ∧ e.captured = false ∧
    l.canonical id

/-- Every block that lacks its body has an open gap. -/
def Findable (l : Ledger) : Prop := ∀ h i, l.Lacking h i → l.gap h = some true

variable {l : Ledger} {height id : ℕ} {hash : String} {archived captured filled : Bool}

/-- A block that enters may lack its body; the others are as before. -/
theorem lacking_enter {h i : ℕ} :
    (l.enter height hash archived captured).Lacking h i ↔
      l.Lacking h i ∨ h = height ∧ i = l.entryId height hash
        ∧ l.lacks height hash (archived && !captured) := by
  have hcanon : (l.enter height hash archived captured).canonical
      = Function.update l.canonical (l.entryId height hash) true := rfl
  unfold Lacking
  rw [hcanon]
  rcases enter_cases l height hash archived captured with
    ⟨e₀, he₀, hh, hs, hid, hrows⟩ | ⟨hnone, hid, hrows⟩
  · rw [hrows, hid, lacks_of_mem he₀ hh hs]
    constructor
    · rintro ⟨e, he, rfl, rfl, ha, hb, hc⟩
      by_cases hi : e.id = e₀.id
      · obtain rfl := eq_of_id he he₀ hi
        exact Or.inr ⟨hh, rfl, by simp [ha, hb]⟩
      · exact Or.inl ⟨e, he, rfl, rfl, ha, hb, by rwa [Function.update_of_ne hi] at hc⟩
    · rintro (⟨e, he, rfl, rfl, ha, hb, hc⟩ | ⟨rfl, rfl, hl⟩)
      · refine ⟨e, he, rfl, rfl, ha, hb, ?_⟩
        by_cases hi : e.id = e₀.id
        · rw [hi, Function.update_self]
        · rwa [Function.update_of_ne hi]
      · simp only [Bool.and_eq_true, Bool.not_eq_true'] at hl
        exact ⟨e₀, he₀, rfl, hh, hl.1, hl.2, by rw [Function.update_self]⟩
  · have hne : ∀ e ∈ l.entries.rows, e.id ≠ l.nextId := fun e he => (Table.lt_nextId he).ne
    rw [hrows, hid, lacks_of_new hnone]
    constructor
    · rintro ⟨e, he, rfl, rfl, ha, hb, hc⟩
      rcases List.mem_append.mp he with he | he
      · exact Or.inl ⟨e, he, rfl, rfl, ha, hb, by rwa [Function.update_of_ne (hne e he)] at hc⟩
      · obtain rfl := List.mem_singleton.mp he
        exact Or.inr ⟨rfl, rfl, Bool.and_eq_true_iff.mpr ⟨ha, congrArg not hb⟩⟩
    · rintro (⟨e, he, rfl, rfl, ha, hb, hc⟩ | ⟨rfl, rfl, hl⟩)
      · exact ⟨e, List.mem_append_left _ he, rfl, rfl, ha, hb, by
          rwa [Function.update_of_ne (hne e he)]⟩
      · simp only [Bool.and_eq_true, Bool.not_eq_true'] at hl
        exact ⟨_, List.mem_append_right _ (List.mem_singleton_self _), rfl, rfl, hl.1, hl.2, by
          rw [Function.update_self]⟩

/-- A block that has got its body lacks it no more. -/
theorem lacking_fill {h i : ℕ} :
    ((Op.fill id height filled).apply l).Lacking h i ↔ l.Lacking h i ∧ i ≠ id := by
  constructor
  · rintro ⟨e, he, rfl, rfl, ha, hb, hc⟩
    obtain ⟨e₀, he₀, ⟨hne, rfl⟩ | ⟨-, rfl⟩⟩ := mem_setFlags.mp he
    · exact ⟨⟨e, he₀, rfl, rfl, ha, hb, hc⟩, hne⟩
    · exact nomatch hb
  · rintro ⟨⟨e, he, rfl, rfl, ha, hb, hc⟩, hne⟩
    exact ⟨e, mem_setFlags.mpr ⟨e, he, Or.inl ⟨hne, rfl⟩⟩, rfl, rfl, ha, hb, hc⟩

/-- `record_gap` opens a gap that is not on record, and leaves one that is. -/
theorem gap_withGap {h : ℕ} :
    (l.withGap height).gap h = some true ↔
      l.gap h = some true ∨ h = height ∧ l.gap height = none := by
  by_cases hh : h = height
  · subst hh
    rcases hg : l.gap h with _ | b <;> simp [withGap, hg]
  · simp [withGap, hh]

end Ledger

/-- What keeps every block that lacks its body findable:
a block that returns without its body although one was handed over has an open gap;
a block that enters without one meets no resolved gap;
a gap is resolved only when no canonical block of its height lacks its body. -/
def Op.KeepsFindable (l : Ledger) : Op → Prop
  | .enterBody height hash _ => l.lacks height hash false → l.gap height = some true
  | .enterGap height hash => l.lacks height hash true → l.gap height ≠ some false
  | .fill id height _ => ∀ i, l.Lacking height i → i = id
  | .closeBodied => ∀ h i, l.Lacking h i → l.bodyAt h = false
  | _ => True

/-- **An operation keeps blocks findable iff it meets its condition.** -/
theorem Op.findable_apply {l : Ledger} (op : Op) (hop : ∀ id, op ≠ .prune id) (hl : l.Findable) :
    (op.apply l).Findable ↔ op.KeepsFindable l := by
  match op with
  | .enterBody height hash filled =>
    have hiff : ∀ h i, ((Op.enterBody height hash filled).apply l).Lacking h i ↔
        l.Lacking h i ∨ h = height ∧ i = l.entryId height hash ∧ l.lacks height hash false :=
      fun h i => Ledger.lacking_enter
    constructor
    · exact fun h hlacks => h height _ ((hiff _ _).mpr (Or.inr ⟨rfl, rfl, hlacks⟩))
    · intro hc h i hi
      rcases (hiff h i).mp hi with hi | ⟨rfl, -, hlacks⟩
      · exact hl h i hi
      · exact hc hlacks
  | .enterGap height hash =>
    have hiff : ∀ h i, ((Op.enterGap height hash).apply l).Lacking h i ↔
        l.Lacking h i ∨ h = height ∧ i = l.entryId height hash ∧ l.lacks height hash true :=
      fun h i => Ledger.lacking_enter
    have hgap : ∀ h, ((Op.enterGap height hash).apply l).gap h = some true ↔
        l.gap h = some true ∨ h = height ∧ l.gap height = none :=
      fun h => Ledger.gap_withGap (l := l.enter height hash true false)
    constructor
    · intro h hlacks hres
      have := (hgap height).mp (h height _ ((hiff _ _).mpr (Or.inr ⟨rfl, rfl, hlacks⟩)))
      simp [hres] at this
    · intro hc h i hi
      rw [hgap]
      rcases (hiff h i).mp hi with hi | ⟨rfl, -, hlacks⟩
      · exact Or.inl (hl h i hi)
      · have hne := hc hlacks
        rcases hg : l.gap h with _ | _ | _
        · exact Or.inr ⟨rfl, rfl⟩
        · exact absurd hg hne
        · exact Or.inl rfl
  | .enterHeader height hash =>
    refine iff_of_true ?_ trivial
    rw [Op.apply]
    split_ifs with hany
    · exact hl
    · intro h i hi
      rcases Ledger.lacking_enter.mp hi with hi | ⟨rfl, -, hlacks⟩
      · exact hl h i hi
      · have hnone : l.find h hash = none := List.find?_eq_none.mpr fun e he hk =>
          hany (List.any_eq_true.mpr ⟨e, he, decide_eq_true (of_decide_eq_true hk).1⟩)
        simp [Ledger.lacks, hnone] at hlacks
  | .orphan id =>
    refine iff_of_true (fun h i hlacking => ?_) trivial
    obtain ⟨e, he, hi, hh, ha, hb, hc⟩ := hlacking
    refine hl h i ⟨e, he, hi, hh, ha, hb, ?_⟩
    by_cases hid : i = id
    · simp [Op.apply, hid] at hc
    · simpa [Op.apply, Function.update_of_ne hid] using hc
  | .fill id height filled =>
    have hgap : ∀ h, ((Op.fill id height filled).apply l).gap h = some true ↔
        l.gap h = some true ∧ h ≠ height := by
      intro h
      rw [ne_eq, ← decide_eq_false_iff_not]
      exact @Ledger.resolve_eq_open l (fun h => h = height) h
    constructor
    · intro h i hi
      by_contra hne
      exact ((hgap height).mp (h height i (Ledger.lacking_fill.mpr ⟨hi, hne⟩))).2 rfl
    · intro hc h i hi
      obtain ⟨hold, hne⟩ := Ledger.lacking_fill.mp hi
      refine (hgap h).mpr ⟨hl h i hold, ?_⟩
      rintro rfl
      exact hne (hc i hold)
  | .openGap height =>
    exact iff_of_true (fun h i hi => Ledger.gap_withGap.mpr (Or.inl (hl h i hi))) trivial
  | .closeBodied =>
    have hgap : ∀ h, (Op.closeBodied.apply l).gap h = some true ↔
        l.gap h = some true ∧ l.bodyAt h = false := fun h => Ledger.resolve_eq_open
    exact ⟨fun h k i hi => ((hgap k).mp (h k i hi)).2,
      fun hc h i hi => (hgap h).mpr ⟨hl h i hi, hc h i hi⟩⟩
  | .prune id => exact absurd rfl (hop id)
  | .attach id =>
    refine iff_of_true ?_ trivial
    rw [Op.apply]
    split_ifs
    · exact hl
    · exact hl

namespace Db

/-- Every block of the archive that is canonical and without a body has an open gap. -/
def GapsOpen (db : Db) : Prop :=
  ∀ b ∈ db.blocks.rows, b.archived → b.bodyCaptured = false → db.isCanonical b.id →
    ∃ g ∈ db.ingestGaps.rows, g.height = b.height ∧ g.resolvedAt = none

instance (db : Db) : Decidable db.GapsOpen := by unfold GapsOpen; infer_instance

theorem gapsOpen_iff (db : Db) : db.GapsOpen ↔ db.ledger.Findable := by
  constructor
  · rintro h k i ⟨e, he, rfl, rfl, ha, hb, hc⟩
    obtain ⟨b, hbm, rfl⟩ := List.mem_map.mp he
    exact (db.gap_ledger _).mpr (h b hbm ha hb hc)
  · exact fun h b hbm ha hb hc => (db.gap_ledger _).mp (h b.height b.id
      ⟨b.entry, List.mem_map_of_mem hbm, rfl, rfl, ha, hb, hc⟩)

end Db

variable {N : Noid} {cfg : Config} {allow : ∀ q : Query, q.Answer → Prop}

/-- Block `A` without a body opens the gap; its replacement `B` has one, and a restart closes the
gap; the replacement `C` of `B` has none. -/
def gapLostStints : List (Stint Query Query.Answer Db Txn String Thread) :=
  [⟨.indexer, pollOnce Noid.sample {},
      fun _ => chainAnswers [bareBlock 0 "G" "", bareBlock 1 "A" "G"] 1, 60⟩,
    ⟨.indexer, pollOnce Noid.sample {},
      fun _ => chainAnswers [bareBlock 0 "G" "", bodyBlock 1 "B" "G"] 2, 60⟩,
    ⟨.indexer, startup, fun _ => chainAnswers [bareBlock 0 "G" "", bodyBlock 1 "B" "G"] 3, 5⟩,
    ⟨.indexer, pollOnce Noid.sample {},
      fun _ => chainAnswers [bareBlock 0 "G" "", bareBlock 1 "C" "G"] 4, 60⟩]

theorem run_gapLostStints : Execution Noid.sample {} anyAnswer
    (traceAll (Txn.exec Noid.sample {}) gapLostStints Db.empty)
    (Config.idle (playAll (Txn.exec Noid.sample {}) gapLostStints Db.empty)) := by
  refine run_playAll Db.empty ?_
  simp only [gapLostStints, List.forall_mem_cons]
  exact ⟨⟨.poll, fun _ _ => trivial⟩, ⟨.poll, fun _ _ => trivial⟩, ⟨.startup, fun _ _ => trivial⟩,
    ⟨.poll, fun _ _ => trivial⟩, nofun⟩

/-- **A block without a body loses its gap to the one before it.** -/
theorem Execution.gap_lost :
    ∃ tr c, Execution Noid.sample {} anyAnswer tr c ∧ ¬ c.store.GapsOpen :=
  ⟨_, _, run_gapLostStints, by decide⟩

/-- **With retention off, every gap is open throughout iff every operation keeps blocks
findable.** -/
theorem Execution.findable_iff (hret : cfg.retentionDays = 0) {tr : List (Db × Txn × Db)}
    {c : Prog.Config Query Query.Answer Db Txn String Thread} (h : Execution N cfg allow tr c) :
    ((∀ x ∈ tr, x.2.1.Meets Op.KeepsFindable x.1) → c.store.GapsOpen)
      ∧ ((∀ x ∈ tr, x.2.2.GapsOpen) ↔ ∀ x ∈ tr, x.2.1.Meets Op.KeepsFindable x.1) := by
  simp only [Db.gapsOpen_iff]
  refine Execution.judged (bodySource_any N allow) (Q := fun op => ∀ id, op ≠ .prune id) ?_
    (fun op l hop _ hl => op.findable_apply hop hl) ?_ ?_ h
  · rintro t db ht _ hop id rfl
    exact ht.retention id (t.ops_justified db _ hop) hret
  · intro op l hlead
    match op with
    | .orphan _ => exact trivial
    | .enterHeader .. => exact trivial
  · rintro _ _ ⟨_, he, _⟩
    exact absurd he List.not_mem_nil

/-- In the run that loses the gap a transaction misses its condition. -/
theorem Execution.findable_iff_lost :
    ∃ tr c, Execution Noid.sample {} anyAnswer tr c
      ∧ ∃ x ∈ tr, ¬ x.2.1.Meets Op.KeepsFindable x.1 := by
  refine ⟨_, _, run_gapLostStints, ?_⟩
  by_contra hall
  push Not at hall
  exact absurd ((Execution.findable_iff rfl run_gapLostStints).1 hall) (by decide)

end Permanode
