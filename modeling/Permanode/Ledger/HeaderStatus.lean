import Permanode.Ledger.HeaderRows

/-!
# Ledger/HeaderStatus — a header-only block stays canonical

Only the re-check of a height orphans a block, and it leaves those of headers only alone; what it
found to be of the archive still is when it commits (`Execution.founded`).  So every block of a
header only is canonical in every run (`Execution.headersCanonical`), whatever the node answers.
-/

namespace Permanode

open Outcome Prog

namespace Ledger

/-- Every block of a header only is canonical. -/
def HeadersCanonical (l : Ledger) : Prop :=
  ∀ e ∈ l.entries.rows, e.archived = false → l.canonical e.id = true

variable {l : Ledger}

theorem canonical_enter {height : ℕ} {hash : String} {id : ℕ} (h : l.canonical id = true) :
    Function.update l.canonical (l.entryId height hash) true id = true := by
  by_cases hid : id = l.entryId height hash
  · rw [hid, Function.update_self]
  · rwa [Function.update_of_ne hid]

/-- Only by being orphaned does a block cease to be canonical. -/
theorem canonical_apply {op : Op} {id : ℕ} (h : l.canonical id = true) (hop : op ≠ .orphan id) :
    (op.apply l).canonical id = true := by
  match op with
  | .enterBody .. => exact canonical_enter h
  | .enterGap .. => exact canonical_enter h
  | .enterHeader .. =>
    rw [Op.apply]
    split_ifs
    · exact h
    · exact canonical_enter h
  | .orphan k =>
    have hne : id ≠ k := fun hid => hop (by rw [hid])
    change Function.update l.canonical k false id = true
    rwa [Function.update_of_ne hne]
  | .fill .. | .openGap _ | .closeBodied | .prune _ => exact h
  | .attach _ =>
    rw [Op.apply]
    split_ifs
    · exact h
    · exact h

/-- **An operation that orphans blocks of the archive only leaves the others canonical.** -/
theorem HeadersCanonical.apply (h : l.HeadersCanonical) (op : Op)
    (hop : ∀ id, op = .orphan id → ∃ height, l.ArchivedAt id height) :
    (op.apply l).HeadersCanonical := by
  have hold : ∀ e ∈ l.entries.rows, e.archived = false → (op.apply l).canonical e.id = true := by
    intro e he ha
    refine canonical_apply (h e he ha) fun horphan => ?_
    obtain ⟨_, e', he', hid, -, ha'⟩ := hop e.id horphan
    obtain rfl := eq_of_id he' he hid
    exact absurd (ha'.symm.trans ha) (by simp)
  intro e' he' ha'
  by_cases hheader : ∃ height hash, op = .enterHeader height hash
  · obtain ⟨height, hash, rfl⟩ := hheader
    rw [Op.apply] at he' hold ⊢
    split_ifs at he' hold ⊢
    · exact hold e' he' ha'
    rcases enter_cases l height hash false false with ⟨_, -, -, -, -, hsame⟩ | ⟨-, hid, hrows⟩
    · rw [hsame] at he'
      exact hold e' he' ha'
    · rw [hrows] at he'
      rcases List.mem_append.mp he' with he' | he'
      · exact hold e' he' ha'
      · obtain rfl := List.mem_singleton.mp he'
        change Function.update l.canonical (l.entryId height hash) true l.nextId = true
        rw [← hid, Function.update_self]
  · obtain ⟨e, he, ha, hid, -⟩ := op.unarchived_apply
      (fun height hash heq => hheader ⟨height, hash, heq⟩) he' ha'
    exact hid ▸ hold e he ha

theorem HeadersCanonical.applyAll : ∀ (ops : List Op) {l : Ledger}, l.HeadersCanonical →
    (∀ op ∈ ops, ∀ id, op = .orphan id → ∃ height, l.ArchivedAt id height) →
      (Op.applyAll ops l).HeadersCanonical
  | [], _, h, _ => h
  | op :: ops, l, h, hops => by
      refine applyAll ops (h.apply op (hops op List.mem_cons_self)) fun o ho id hid => ?_
      obtain ⟨height, ha⟩ := hops o (List.mem_cons_of_mem _ ho) id hid
      exact ⟨height, (Op.grows_applyAll [op] l).archivedAt ha⟩

end Ledger

variable {N : Noid} {cfg : Config} {allow : ∀ q : Query, q.Answer → Prop} {t : Txn} {db db' : Db}

/-- **A transaction orphans only blocks of the archive.** -/
theorem Txn.Founded.orphans (hf : t.Founded db) {op : Op} (hop : op ∈ t.ops db) {id : ℕ}
    (hid : op = .orphan id) : ∃ height, db.ledger.ArchivedAt id height := by
  match t with
  | .ingest .. => exact absurd hid ((storeOps_gentle hop).1 id)
  | .gapBlock .. => exact absurd hid ((gapOps_gentle hop).1 id)
  | .replace _ old _ _ replacement _ =>
    rcases List.mem_cons.mp hop with rfl | hop
    · obtain rfl := Op.orphan.inj hid
      exact hf
    · rcases replacement with _ | ⟨details, source, raw⟩ | ⟨details, note⟩
      · rw [List.mem_singleton.mp hop] at hid
        exact Op.noConfusion hid
      · exact absurd hid ((storeOps_gentle hop).1 id)
      · exact absurd hid ((gapOps_gentle hop).1 id)
  | .recover .. | .fillGap .. | .pruneBlock _ | .resolveGapsWithBodies _ =>
    rw [List.mem_singleton.mp hop] at hid
    exact Op.noConfusion hid
  | .headerBatch batch _ _ =>
    obtain ⟨_, -, rfl⟩ := List.mem_map.mp hop
    exact Op.noConfusion hid
  | .receipt blockId tx now =>
    rw [Txn.ops] at hop
    split at hop
    · rw [List.mem_singleton.mp hop] at hid
      exact Op.noConfusion hid
    · exact absurd hop List.not_mem_nil
  | .setState .. | .keepRaw .. | .fillRaw .. | .clearSpentInGap | .setTipSeen ..
  | .adoptTipSeen .. | .adoptProofClass .. | .sweepSegment .. | .sweepBalances _
  | .upsertBalances .. => exact absurd hop List.not_mem_nil

/-- **Every block of a header only is canonical, in every run.** -/
theorem Execution.headersCanonical {tr : List (Db × Txn × Db)}
    {c : Prog.Config Query Query.Answer Db Txn String Thread} (h : Execution N cfg allow tr c) :
    c.store.ledger.HeadersCanonical := by
  have hstep : ∀ (db : Db) (t : Txn) (db' : Db), t.Issued cfg (fun _ => True) →
      db.ledger.HeadersCanonical → t.Founded db → t.exec N cfg db = .ok db' →
      db'.ledger.HeadersCanonical := by
    intro db t db' ht hl hf hexec
    rw [Txn.exec_ledger ht.genuine hexec]
    exact hl.applyAll _ fun op hop id hid => hf.orphans hop hid
  exact (Run.invariant (fun _ _ hjob => hjob.commits (bodySource_any N allow)) hstep
    (fun _ he => absurd he List.not_mem_nil : Db.empty.ledger.HeadersCanonical) h h.founded).1

/-- A header-only row is canonical, in every run. -/
theorem Execution.isCanonical_header {tr : List (Db × Txn × Db)}
    {c : Prog.Config Query Query.Answer Db Txn String Thread} (h : Execution N cfg allow tr c)
    {b : BlockRow} (hb : b ∈ c.store.blocks.rows) (ha : b.archived = false) :
    c.store.isCanonical b.id :=
  h.headersCanonical b.entry (List.mem_map_of_mem hb) ha

end Permanode
