import Permanode.Ledger.Finality
import Permanode.Ledger.Readings

/-!
# Ledger/CanonicalRun — the threads keep one canonical block per height

A block becomes canonical in four ways.  A header of the backfill enters where nothing is.  A
re-check orphans what `canonicalHashAt` says is canonical before it records the replacement, be that
a new block or one that returns; what it read is still the only canonical block of the height when
it commits, however the other threads take their turns in between.  But `ingestHeight`, with a body
or without, looks for no other block, and meets one when the process was stopped between the commit
of a block and the progress entry for it, and the chain was reorganised before the restart
(`Execution.canonical_twice`).

**`Execution.sole_iff`**: in a run whose status entries are in step with the clock there is one
canonical block per height throughout iff no height is recorded beside another canonical block of
it.
-/

namespace Permanode

open Outcome Prog

/-! ## The condition -/

/-- No block of another hash than `h` is canonical at its height. -/
def Db.NoneBut (db : Db) (h : BlockHeaderInfo) : Prop :=
  ∀ b ∈ db.blocks.rows, b.height = h.height → db.isCanonical b.id → b.hash = h.hash

instance (db : Db) (h : BlockHeaderInfo) : Decidable (db.NoneBut h) := by
  unfold Db.NoneBut
  infer_instance

/-- What is recorded at a height without orphaning a block there meets no other canonical block.
Of a re-check nothing is asked but that: its replacement is of the height it orphans a block of,
unless the node answers with a block of another height than it was asked for. -/
def Txn.MeetsNone (db : Db) : Txn → Prop
  | .ingest _ details _ _ _ => db.NoneBut details.header
  | .gapBlock details _ _ => db.NoneBut details.header
  | .replace height _ _ _ replacement _ =>
    ∀ r ∈ replacement, r.header.height ≠ height → db.NoneBut r.header
  | _ => True

instance (db : Db) : ∀ t : Txn, Decidable (t.MeetsNone db)
  | .ingest _ details _ _ _ => inferInstanceAs (Decidable (db.NoneBut details.header))
  | .gapBlock details _ _ => inferInstanceAs (Decidable (db.NoneBut details.header))
  | .replace _ _ _ _ replacement _ => inferInstanceAs (Decidable (∀ r ∈ replacement, _ → _))
  | .setState .. | .recover .. | .keepRaw .. | .fillGap .. | .fillRaw .. | .clearSpentInGap
  | .resolveGapsWithBodies _ | .pruneBlock _ | .setTipSeen .. | .adoptTipSeen ..
  | .adoptProofClass .. | .sweepSegment .. | .sweepBalances _ | .upsertBalances ..
  | .headerBatch .. | .receipt .. => .isTrue trivial

/-! ## Operations that enter where nothing is -/

/-- An operation that enters a block, if it does, at a height where there is none. -/
def Op.Apart (op : Op) : Prop :=
  ∀ (l : Ledger) height hash, op.entering l = some (height, hash) →
    ∀ e ∈ l.entries.rows, e.height ≠ height

/-- A transaction that records a block of the archive. -/
def Txn.Records : Txn → Prop
  | .ingest .. | .gapBlock .. | .replace .. => True
  | _ => False

/-- An operation that enters nothing. -/
theorem Op.apart_of_silent {op : Op} (h : ∀ l, op.entering l = none) : op.Apart :=
  fun l _ _ henter => absurd (henter.symm.trans (h l)) (Option.some_ne_none _)

/-- A header of the backfill enters only where nothing is. -/
theorem Op.apart_enterHeader (height : ℕ) (hash : String) : (Op.enterHeader height hash).Apart := by
  intro l k s henter e he hk
  rw [Op.entering] at henter
  split_ifs at henter with hany
  obtain ⟨rfl, -⟩ := Prod.mk.inj (Option.some.inj henter)
  exact hany (List.any_eq_true.mpr ⟨e, he, decide_eq_true hk⟩)

/-- **Every other transaction enters blocks only where there are none.** -/
theorem Txn.ops_apart {t : Txn} {db : Db} (h : ¬ t.Records) : ∀ op ∈ t.ops db, op.Apart := by
  intro op hop
  match t with
  | .ingest .. | .gapBlock .. | .replace .. => exact absurd trivial h
  | .headerBatch batch _ _ =>
    obtain ⟨hd, -, rfl⟩ := List.mem_map.mp hop
    exact Op.apart_enterHeader hd.height hd.hash
  | .recover .. | .fillGap .. | .resolveGapsWithBodies _ | .pruneBlock _ =>
    rw [List.mem_singleton.mp hop]
    exact Op.apart_of_silent fun _ => rfl
  | .receipt blockId tx now =>
    simp only [ops] at hop
    split at hop
    · rw [List.mem_singleton.mp hop]
      exact Op.apart_of_silent fun _ => rfl
    · exact absurd hop List.not_mem_nil
  | .setState .. | .keepRaw .. | .fillRaw .. | .clearSpentInGap | .setTipSeen .. | .adoptTipSeen ..
  | .adoptProofClass .. | .sweepSegment .. | .sweepBalances _ | .upsertBalances .. =>
    exact absurd hop List.not_mem_nil

/-- Where nothing is, nothing is canonical. -/
theorem Op.Apart.entersAlone {l : Ledger} {op : Op} (h : op.Apart) : op.EntersAlone l :=
  fun height hash henter e he hk _ => absurd hk (h l height hash henter e he)

namespace Ledger

variable {l l' l'' : Ledger} {height old : ℕ}

/-- What is canonical at a height where there was a block already was canonical there. -/
def NewOnly (l l' : Ledger) : Prop :=
  ∀ height id, l'.CanonicalAt height id →
    l.CanonicalAt height id ∨ ∀ e ∈ l.entries.rows, e.height ≠ height

/-- Nothing done. -/
theorem NewOnly.refl (l : Ledger) : l.NewOnly l := fun _ _ h => Or.inl h

/-- **One after the other**: a height that has a block keeps one. -/
theorem NewOnly.trans (hgrow : l.Grows l') (h : l.NewOnly l') (h' : l'.NewOnly l'') :
    l.NewOnly l'' := by
  intro height id hc
  rcases h' height id hc with hc | hnone
  · exact h height id hc
  · refine Or.inr fun e he hh => ?_
    obtain ⟨e', he', -, hh', -⟩ := hgrow e he
    exact hnone e' he' (hh'.trans hh)

/-- The block `old` is on record at the height, and no other is canonical there. -/
def SoleAt (l : Ledger) (height old : ℕ) : Prop :=
  (∃ e ∈ l.entries.rows, e.id = old ∧ e.height = height)
    ∧ ∀ id, l.CanonicalAt height id → id = old

/-- **What was read stays so**: nothing enters at the height of a block on record. -/
theorem SoleAt.stays (h : l.SoleAt height old) (hgrow : l.Grows l') (hnew : l.NewOnly l') :
    l'.SoleAt height old := by
  obtain ⟨⟨e, he, hid, hh⟩, hsole⟩ := h
  obtain ⟨e', he', hid', hh', -⟩ := hgrow e he
  refine ⟨⟨e', he', hid'.trans hid, hh'.trans hh⟩, fun id hc => ?_⟩
  rcases hnew height id hc with hc | hnone
  · exact hsole id hc
  · exact absurd hh (hnone e he)

end Ledger

/-- Operations that enter where nothing is leave the canonical blocks of the other heights. -/
theorem Op.newOnly_applyAll : ∀ (ops : List Op) {l : Ledger}, (∀ op ∈ ops, op.Apart) →
    l.NewOnly (applyAll ops l)
  | [], l, _ => .refl l
  | op :: ops, l, h => by
      have hfirst : l.NewOnly (op.apply l) := by
        intro height id hc
        rcases op.canonicalAt_apply.mp hc with ⟨hc, -⟩ | ⟨hash, henter, -⟩
        · exact Or.inl hc
        · exact Or.inr (h op List.mem_cons_self l height hash henter)
      exact hfirst.trans op.grows_apply
        (newOnly_applyAll ops fun o ho => h o (List.mem_cons_of_mem _ ho))

/-- They keep the canonical blocks alone, by induction on the list. -/
theorem Op.sole_applyAll : ∀ (ops : List Op) {l : Ledger}, (∀ op ∈ ops, op.Apart) → l.Sole →
    (applyAll ops l).Sole
  | [], _, _, hl => hl
  | op :: ops, _, h, hl => sole_applyAll ops (fun o ho => h o (List.mem_cons_of_mem _ ho))
      ((op.sole_apply hl).mpr (h op List.mem_cons_self).entersAlone)

/-! ## One transaction -/

namespace Db

variable {db db' : Db} {h : BlockHeaderInfo} {height old : ℕ} {at_ : Instant}

/-- Where `canonicalHashAt` reads the one canonical block, the block taken to be on record is it. -/
theorem noneBut_of_onRecord (hs : db.OneCanonical) (ha : db.ReadingsAgree)
    (hrec : db.isOnRecord h) : db.NoneBut h := by
  intro b' hb' hh' hc'
  have hsel := ha.selects h.height
  rw [SelectsCanonical] at hsel
  rw [isOnRecord] at hrec
  rcases hknown : db.canonicalHashAt h.height with _ | ⟨id, hash⟩
  · rw [hknown] at hrec
    exact absurd hrec Bool.false_ne_true
  · rw [hknown] at hsel hrec
    obtain ⟨b, hb, -, hh, hhash, hc⟩ := hsel
    have hsame : hash = h.hash := of_decide_eq_true hrec
    rw [hs b' hb' b hb (hh'.trans hh.symm) hc' hc, hhash, hsame]

/-- **Recording a block keeps the canonical blocks alone iff it meets no other one.** -/
theorem sole_recording {ops : List Op} (hs : db.OneCanonical) (ha : db.ReadingsAgree)
    (hnew : db.isOnRecord h = false →
      ∃ op, ops = [op] ∧ ∀ l, op.entering l = some (h.height, h.hash))
    (hold : db.isOnRecord h = true → ∀ op ∈ ops, op.Apart) :
    (Op.applyAll ops db.ledger).Sole ↔ db.NoneBut h := by
  have hsole := (oneCanonical_iff db).mp hs
  rcases hrec : db.isOnRecord h with _ | _
  · obtain ⟨op, rfl, henter⟩ := hnew hrec
    refine (op.sole_apply hsole).trans
      ⟨fun halone b hb hh hc => ?_, fun hnone k s hks e he hk hc => ?_⟩
    · exact halone _ _ (henter _) b.entry (List.mem_map_of_mem hb) hh hc
    · obtain ⟨rfl, rfl⟩ := Prod.mk.inj (Option.some.inj ((henter _).symm.trans hks))
      obtain ⟨b, hb, rfl⟩ := List.mem_map.mp he
      exact hnone b hb hk hc
  · exact iff_of_true (Op.sole_applyAll ops (hold hrec) hsole) (noneBut_of_onRecord hs ha hrec)

/-- A block with its body: it is entered, or it is on record and its body is filled in. -/
theorem sole_storeOps {details : BlockDetailsInfo} (hs : db.OneCanonical) (ha : db.ReadingsAgree)
    (hret : details.retained.isSome) :
    (Op.applyAll (db.storeOps details) db.ledger).Sole ↔ db.NoneBut details.header := by
  obtain ⟨retained, hr⟩ := Option.isSome_iff_exists.mp hret
  refine sole_recording hs ha (fun hrec => ?_) fun hrec op hop => ?_
  · exact ⟨_, by rw [storeOps, hr]; exact if_neg (by rw [hrec]; exact Bool.false_ne_true),
      fun _ => rfl⟩
  · rw [storeOps, hr] at hop
    dsimp only at hop
    rw [if_pos hrec] at hop
    split at hop
    · exact absurd hop List.not_mem_nil
    · rw [List.mem_singleton.mp hop]
      exact Op.apart_of_silent fun _ => rfl

/-- A block without one: it is entered, or it is on record already. -/
theorem sole_gapOps {details : BlockDetailsInfo} (hs : db.OneCanonical) (ha : db.ReadingsAgree) :
    (Op.applyAll (db.gapOps details) db.ledger).Sole ↔ db.NoneBut details.header := by
  refine sole_recording hs ha (fun hrec => ?_) fun hrec op hop => ?_
  · exact ⟨_, if_neg (by rw [hrec]; exact Bool.false_ne_true), fun _ => rfl⟩
  · rw [gapOps, if_pos hrec] at hop
    rw [List.mem_singleton.mp hop]
    exact Op.apart_of_silent fun _ => rfl

/-- The mark of a reorg, as an operation of the ledger. -/
theorem ledger_orphaned (db : Db) (old : ℕ) (at_ : Instant) :
    (db.appendStatus old .orphaned at_).ledger = (Op.orphan old).apply db.ledger := by
  rw [ledger_appendStatus]
  rfl

/-- **Once its only canonical block is orphaned, a height has none**; the other heights keep
theirs. -/
theorem noneBut_orphaned (hsole : db.ledger.SoleAt height old) :
    (db.appendStatus old .orphaned at_).NoneBut h ↔ (h.height ≠ height → db.NoneBut h) := by
  obtain ⟨⟨e, he, rfl, rfl⟩, hsole⟩ := hsole
  have hcanon : ∀ id, (db.appendStatus e.id .orphaned at_).isCanonical id
      = Function.update db.isCanonical e.id false id := fun id =>
    congrFun (congrArg Ledger.canonical (db.ledger_orphaned e.id at_)) id
  constructor
  · intro hnone hne b hb hh hc
    have hid : b.id ≠ e.id := by
      intro hid
      obtain rfl := Ledger.eq_of_id (List.mem_map_of_mem hb) he hid
      exact hne hh.symm
    exact hnone b hb hh (by rwa [hcanon, Function.update_of_ne hid])
  · intro hnone b hb hh hc
    rw [hcanon] at hc
    by_cases hid : b.id = e.id
    · rw [hid, Function.update_self] at hc
      exact absurd hc Bool.false_ne_true
    · rw [Function.update_of_ne hid] at hc
      by_cases hne : h.height = e.height
      · exact absurd (hsole b.id ⟨b.entry, List.mem_map_of_mem hb, rfl, hh.trans hne, hc⟩) hid
      · exact hnone hne b hb hh hc

end Db

/-- The block a re-check replaces is the only canonical one of its height. -/
def Txn.ReplacesSole (db : Db) : Txn → Prop
  | .replace height oldBlockId _ _ _ _ => db.ledger.SoleAt height oldBlockId
  | _ => True

variable {N : Noid} {cfg : Config} {allow : ∀ q : Query, q.Answer → Prop} {t : Txn} {db db' : Db}
  {i : Thread}

/-- **A transaction keeps the canonical blocks alone iff what it records beside a re-check meets no
other one.** -/
theorem Txn.oneCanonical_exec (hs : db.OneCanonical) (ha : db.ReadingsAgree) (hg : t.Genuine)
    (hsole : t.ReplacesSole db) (hstep : t.InStep db) (hexec : t.exec N cfg db = .ok db') :
    db'.OneCanonical ↔ t.MeetsNone db := by
  rw [Db.oneCanonical_iff, Txn.exec_ledger hg hexec]
  by_cases hrecords : t.Records
  swap
  · refine iff_of_true
      (Op.sole_applyAll _ (Txn.ops_apart hrecords) ((Db.oneCanonical_iff db).mp hs)) ?_
    match t with
    | .ingest .. | .gapBlock .. | .replace .. => exact absurd trivial hrecords
    | .setState .. | .recover .. | .keepRaw .. | .fillGap .. | .fillRaw .. | .clearSpentInGap
    | .resolveGapsWithBodies _ | .pruneBlock _ | .setTipSeen .. | .adoptTipSeen ..
    | .adoptProofClass .. | .sweepSegment .. | .sweepBalances _ | .upsertBalances ..
    | .headerBatch .. | .receipt .. => exact trivial
  match t with
  | .ingest .. => exact Db.sole_storeOps hs ha (retained_of_storeKept hexec)
  | .gapBlock .. => exact Db.sole_gapOps hs ha
  | .replace height old orphanedAt hash replacement now =>
    -- the mark leaves the height without a canonical block, and the other heights as they are
    have hmark : (Op.orphan old).apply db.ledger
        = (db.appendStatus old .orphaned orphanedAt).ledger :=
        (db.ledger_orphaned old orphanedAt).symm
    have hs₁ : (db.appendStatus old .orphaned orphanedAt).OneCanonical := by
      rw [Db.oneCanonical_iff, ← hmark]
      exact ((Op.orphan old).sole_apply ((Db.oneCanonical_iff db).mp hs)).mpr nofun
    have ha₁ : (db.appendStatus old .orphaned orphanedAt).ReadingsAgree := ha.appendStatus hstep.1
    change (Op.applyAll
      ((db.appendStatus old .orphaned orphanedAt).replacementOps height replacement)
      ((Op.orphan old).apply db.ledger)).Sole ↔ ∀ r ∈ replacement, _
    rw [hmark]
    rcases replacement with _ | ⟨details, source, raw⟩ | ⟨details, note⟩
    · refine iff_of_true (Op.sole_applyAll _ ?_ ((Db.oneCanonical_iff _).mp hs₁)) nofun
      exact List.forall_mem_singleton.mpr (Op.apart_of_silent fun _ => rfl)
    · have hret : details.retained.isSome := by
        simp only [exec, Db.replaceBlock, bind_ok] at hexec
        obtain ⟨_, -, hstore⟩ := hexec
        exact retained_of_storeKept hstore
      refine (Db.sole_storeOps hs₁ ha₁ hret).trans ((Db.noneBut_orphaned hsole).trans ?_)
      exact ⟨fun h _ hr => Option.some.inj hr ▸ h, fun h => h _ rfl⟩
    · refine (Db.sole_gapOps hs₁ ha₁).trans ((Db.noneBut_orphaned hsole).trans ?_)
      exact ⟨fun h _ hr => Option.some.inj hr ▸ h, fun h => h _ rfl⟩

/-! ## What the threads owe each other -/

/-- One block is canonical at a height, and `canonicalHashAt` reads it. -/
def Db.Legible (db : Db) : Prop := db.OneCanonical ∧ db.ReadingsAgree ∧ db.LogRefers

theorem Db.legible_empty : Db.empty.Legible :=
  ⟨fun _ h => absurd h List.not_mem_nil, fun _ => iff_of_false nofun nofun, nofun⟩

/-- **What `canonicalHashAt` reads is the only canonical block of the height.** -/
theorem Db.Legible.soleAt {height id : ℕ} {hash : String} (h : db.Legible)
    (hknown : db.canonicalHashAt height = some (id, hash)) : db.ledger.SoleAt height id := by
  have hsel := h.2.1.selects height
  rw [Db.SelectsCanonical, hknown] at hsel
  obtain ⟨b, hb, rfl, rfl, -, hc⟩ := hsel
  refine ⟨⟨b.entry, List.mem_map_of_mem hb, rfl, rfl⟩, fun id hc' => ?_⟩
  exact (Db.oneCanonical_iff db).mp h.1 b.height id b.id hc'
    ⟨b.entry, List.mem_map_of_mem hb, rfl, rfl, hc⟩

/-- What the other threads do between two actions of thread `i`: no block leaves the record, and to
the indexer nothing enters where there is a block. -/
def soleRely (i : Thread) (db db' : Db) : Prop :=
  db.ledger.Grows db'.ledger ∧ (i = .indexer → db.ledger.NewOnly db'.ledger)

/-- What thread `i` keeps to in return, and what it knows of a block it replaces. -/
def soleGuar (i : Thread) (db : Db) (t : Txn) (db' : Db) : Prop :=
  (db.ledger.Grows db'.ledger ∧ (i ≠ .indexer → db.ledger.NewOnly db'.ledger))
    ∧ t.Genuine ∧ t.ReplacesSole db

theorem soleRely_refl (i : Thread) (db : Db) : soleRely i db db := ⟨.refl _, fun _ => .refl _⟩

theorem soleRely_trans (i : Thread) (db db' db'' : Db) (h : soleRely i db db')
    (h' : soleRely i db' db'') : soleRely i db db'' :=
  ⟨h.1.trans h'.1, fun hi => (h.2 hi).trans h.1 (h'.2 hi)⟩

/-- What one thread keeps to, the others can count on. -/
theorem soleRely_of_guar {i j : Thread} (hij : i ≠ j) (h : soleGuar i db t db') :
    soleRely j db db' :=
  ⟨h.1.1, fun hj => h.1.2 fun hi => hij (hi.trans hj.symm)⟩

/-- A condition under which a transaction keeps the canonical blocks alone. -/
def Suffices (N : Noid) (cfg : Config) (C : Db → Txn → Prop) : Prop :=
  ∀ (db : Db) (t : Txn) (db' : Db), db.Legible → t.Genuine → t.ReplacesSole db → t.InStep db →
    C db t → t.exec N cfg db = .ok db' → db'.OneCanonical

/-- The setting of thread `i`, every transaction being in step with the clock and meeting `C`. -/
abbrev soleSetting (N : Noid) (cfg : Config) (allow : ∀ q : Query, q.Answer → Prop)
    (C : Db → Txn → Prop) (i : Thread) : Setting Query Query.Answer Db Txn String :=
  ⟨allow, Txn.exec N cfg, Db.Legible, soleRely i, soleGuar i, fun db t => t.InStep db ∧ C db t⟩

section Threads

variable {C : Db → Txn → Prop} (hC : Suffices N cfg C)
include hC

/-- A transaction that meets the condition keeps the database legible. -/
theorem Db.Legible.exec (h : db.Legible) (hg : t.Genuine) (hsole : t.ReplacesSole db)
    (hc : t.InStep db ∧ C db t) (hexec : t.exec N cfg db = .ok db') : db'.Legible :=
  ⟨hC db t db' h hg hsole hc.1 hc.2 hexec, Txn.readingsAgree h.2.1 h.2.2 hc.1 hexec⟩

/-! ## The programs -/

/-- A program that replaces nothing is safe anywhere. -/
theorem anywhere_of_unreplacing {α : Type} {p : Program α} {R : α → Prop}
    (h : p.Commits allow
      (fun t => t.Genuine ∧ t.orphaned = none ∧ (i ≠ .indexer → ¬ t.Records)) R) :
    Anywhere (soleSetting N cfg allow C i) p := by
  refine anywhere_of_commits (V := soleSetting N cfg allow C i) ?_ h
  intro db t db' ⟨hg, horph, hrec⟩ hinv hc hexec
  have hsole : t.ReplacesSole db := by
    unfold Txn.ReplacesSole
    split
    · exact absurd horph (Option.some_ne_none _)
    · exact trivial
  refine ⟨hinv.exec hC hg hsole hc hexec, ⟨Txn.exec_grows hg hexec, fun hi => ?_⟩, hg, hsole⟩
  rw [Txn.exec_ledger hg hexec]
  exact Op.newOnly_applyAll _ (Txn.ops_apart (hrec hi))

/-- The parts of a poll that only record. -/
theorem anywhere_of_plainIndexer {α : Type} {p : Program α} {R : α → Prop}
    (h : p.Commits allow (Txn.Plain fun _ => True) R) :
    Anywhere (soleSetting N cfg allow C .indexer) p :=
  anywhere_of_unreplacing hC
    (commits_mono (fun _ ht => ⟨ht.1, ht.2.2, fun hi => absurd rfl hi⟩) (fun _ hr => hr) h)

/-- **A re-check replaces the only canonical block of the height**: what it read is so still. -/
theorem anywhere_recheckSole (height : ℕ) :
    Anywhere (soleSetting N cfg allow C .indexer) (recheckHeight N cfg height) := by
  have hB := bodySource_any N allow
  refine fun db => wp_ask.mpr fun answer _ => ?_
  rcases answer with e | _ | header
  · exact trivial
  · exact trivial
  refine wp_ask.mpr fun now _ => wp_get.mpr fun db₁ hinv₁ _ => ?_
  rcases hknown : db₁.canonicalHashAt height with _ | ⟨blockId, knownHash⟩
  · exact trivial
  dsimp only
  split_ifs
  · exact trivial
  have hstable : ∀ db db' : Db, db'.Legible → soleRely .indexer db db' →
      db.ledger.SoleAt height blockId → db'.ledger.SoleAt height blockId :=
    fun _ _ _ hrely hsole => hsole.stays hrely.1 (hrely.2 rfl)
  refine wp_get.mpr fun db₂ hinv₂ hrely₂ => ?_
  have hsole₂ := hstable _ _ hinv₂ hrely₂ (hinv₁.soleAt hknown)
  split_ifs
  · exact trivial
  refine wp_then (wp_silently hstable (fetchReplacement_commits (H := fun _ => True) hB
    fun _ _ => trivial) hsole₂) (fun _ _ => trivial) fun r db₃ ⟨hsole₃, hr, _⟩ => ?_
  refine wp_then (wp_silently hstable (withRaw_commits hr) hsole₃) (fun _ _ => trivial)
    fun r db₄ ⟨hsole₄, hr, _⟩ => ?_
  refine wp_ask.mpr fun later _ => wp_last.mpr fun db₅ hinv₅ hrely₅ => ⟨fun db₆ hc hexec => ?_,
    fun _ _ => trivial⟩
  have hgen : ∀ out ∈ r, out.Genuine := by
    rintro (⟨details, source, raw⟩ | ⟨details, note⟩) hout
    · exact (hr _ hout).1
    · exact trivial
  have hsole₅ := hstable _ _ hinv₅ hrely₅ hsole₄
  let t : Txn := .replace height blockId now header.hash r later
  have hg : t.Genuine := hgen
  exact ⟨hinv₅.exec hC hg hsole₅ hc hexec,
    ⟨⟨Txn.exec_grows hg hexec, fun hi => absurd rfl hi⟩, hg, hsole₅⟩, trivial⟩

/-- A poll: only the re-checks replace. -/
theorem anywhere_pollSole :
    Anywhere (soleSetting N cfg allow C .indexer) (pollOnce N cfg) := by
  have hB := bodySource_any N allow
  have hplain : ∀ {t : Txn}, t.headers = [] ∧ t.orphaned = none → t.Genuine →
      t.Plain fun _ => True := fun h hg => Txn.plain_of_nil hg h
  refine fun db => wp_ask.mpr fun answer _ => ?_
  rcases answer with e | tip
  · exact trivial
  refine anywhere_bind (anywhere_of_plainIndexer hC (heightsToIngest_commits tip))
    (fun heights => ?_) db
  refine anywhere_bind (anywhere_of_plainIndexer hC
    (ingestHeights_speaks ⟨fun _ _ _ => trivial, fun _ _ _ => trivial⟩ heights)) fun _ => ?_
  refine anywhere_bind (anywhere_each (anywhere_recheckSole hC) _) fun _ => ?_
  refine anywhere_bind (anywhere_of_plainIndexer hC (retryGaps_commits hB tip
    fun _ _ _ _ _ _ _ => hplain ⟨rfl, rfl⟩ trivial)) fun _ => ?_
  exact anywhere_of_plainIndexer hC (retryRaw_commits tip fun _ _ _ _ => hplain ⟨rfl, rfl⟩ trivial)

end Threads

/-- Only the indexer records blocks of the archive. -/
theorem Txn.By.unrecorded {B : RetainedBlockInfo → Prop} (h : t.By cfg B i) (hi : i ≠ .indexer) :
    ¬ t.Records ∧ t.orphaned = none := by
  cases h with
  | ingest | gapBlock | mismatches | processed | replace | recover | keepRaw | started | sighting
  | prune | refresh => exact absurd rfl hi
  | segment | balances | zero | headers | headersDone | fillGap | cleared | filled | fillRaw | seen
  | proofClass | receipt => exact ⟨id, rfl⟩

/-- **Every job is safe**: the indexer replaces what it has read, and the others enter only where
nothing is. -/
theorem wp_jobSole {C : Db → Txn → Prop} (hC : Suffices N cfg C) {p : Program Unit}
    (h : Job N cfg i p) : Anywhere (soleSetting N cfg allow C i) p := by
  by_cases hi : i = .indexer
  · subst hi
    by_cases hp : p = pollOnce N cfg
    · subst hp
      exact anywhere_pollSole hC
    · exact anywhere_of_plainIndexer hC
        (h.speaks ⟨fun _ _ _ => trivial, fun _ _ _ => trivial⟩ hp)
  · refine anywhere_of_unreplacing hC (commits_mono (fun t ht => ?_) (fun _ hr => hr)
      (h.by (bodySource_any N allow)))
    obtain ⟨hrec, horph⟩ := ht.unrecorded hi
    exact ⟨ht.issued.genuine, horph, fun _ => hrec⟩

/-! ## A run -/

variable {tr : List (Db × Txn × Db)}
  {c : Prog.Config Query Query.Answer Db Txn String Thread}

/-- **Where every transaction meets a condition that suffices, the whole run is legible**, and every
re-check replaces the only canonical block of its height. -/
theorem Execution.legible {C : Db → Txn → Prop} (hC : Suffices N cfg C)
    (h : Execution N cfg allow tr c) (hc : ∀ x ∈ tr, x.2.1.InStep x.1 ∧ C x.1 x.2.1) :
    c.store.Legible ∧ ∀ x ∈ tr, x.1.Legible ∧ x.2.1.Genuine ∧ x.2.1.ReplacesSole x.1
      ∧ x.2.1.exec N cfg x.1 = .ok x.2.2 := by
  have hjobs : ∀ (i : Thread) (p : Program Unit) (db : Db), Job N cfg i p → db.Legible →
      wp (soleSetting N cfg allow C i) p (fun _ _ => True) db :=
    fun _ _ db hjob _ => wp_jobSole hC hjob db
  obtain ⟨hend, -, htr⟩ := Run.rely_guarantee soleRely soleGuar soleRely_refl soleRely_trans
    (fun _ _ _ _ _ hij hg => soleRely_of_guar hij hg) hjobs Db.legible_empty h hc
  refine ⟨hend, fun x hx => ?_⟩
  obtain ⟨hinv, hexec, i, -, hg, hsole⟩ := htr x hx
  exact ⟨hinv, hg, hsole, hexec⟩

/-- To meet no other canonical block is such a condition. -/
theorem suffices_meetsNone (N : Noid) (cfg : Config) :
    Suffices N cfg fun db t => t.MeetsNone db :=
  fun _ _ _ hinv hg hsole hstep hc hexec =>
    (Txn.oneCanonical_exec hinv.1 hinv.2.1 hg hsole hstep hexec).mpr hc

/-- A process stopped between the commit of block `A` and the progress entry for it; on the restart
the chain has block `B` there. -/
def restartStints : List (Stint Query Query.Answer Db Txn String Thread) :=
  [⟨.indexer, pollOnce Noid.sample {},
      fun _ => chainAnswers [bareBlock 0 "G" "", bodyBlock 1 "A" "G"] 1, 7⟩,
    ⟨.indexer, pollOnce Noid.sample {},
      fun _ => chainAnswers [bareBlock 0 "G" "", bodyBlock 1 "B" "G"] 2, 60⟩]

theorem run_restartStints : Execution Noid.sample {} anyAnswer
    (traceAll (Txn.exec Noid.sample {}) restartStints Db.empty)
    (Config.idle (playAll (Txn.exec Noid.sample {}) restartStints Db.empty)) := by
  refine run_playAll Db.empty ?_
  simp only [restartStints, List.forall_mem_cons]
  exact ⟨⟨.poll, fun _ _ => trivial⟩, ⟨.poll, fun _ _ => trivial⟩, nofun⟩

/-- **A restart leaves two canonical blocks at one height.** -/
theorem Execution.canonical_twice :
    ∃ tr c, Execution Noid.sample {} anyAnswer tr c ∧ ¬ c.store.OneCanonical :=
  ⟨_, _, run_restartStints, by decide⟩

/-- **One canonical block per height, throughout, iff nothing is recorded beside another one**: the
re-checks, their replacements and the blocks that return, and the header backfill keep it by
themselves. -/
theorem Execution.sole_iff (h : Execution N cfg allow tr c)
    (hstep : ∀ x ∈ tr, x.2.1.InStep x.1) :
    ((∀ x ∈ tr, x.2.1.MeetsNone x.1) → c.store.OneCanonical)
      ∧ ((∀ x ∈ tr, x.2.2.OneCanonical) ↔ ∀ x ∈ tr, x.2.1.MeetsNone x.1) := by
  refine ⟨fun hnone => ?_, fun hone x hx => ?_, fun hnone x hx => ?_⟩
  · exact (h.legible (suffices_meetsNone N cfg) fun x hx => ⟨hstep x hx, hnone x hx⟩).1.1
  · -- that its outcome has one canonical block a height suffices, too
    have hC : Suffices N cfg fun db t => ∀ db', t.exec N cfg db = .ok db' → db'.OneCanonical :=
      fun _ _ db' _ _ _ _ hc hexec => hc db' hexec
    have hmeets : ∀ y ∈ tr, y.2.1.InStep y.1
        ∧ ∀ db', y.2.1.exec N cfg y.1 = .ok db' → db'.OneCanonical := fun y hy => by
      refine ⟨hstep y hy, fun db' hexec => ?_⟩
      rw [Except.ok.inj (hexec.symm.trans (h.committed y hy))]
      exact hone y hy
    obtain ⟨hinv, hg, hsole, hexec⟩ := (h.legible hC hmeets).2 x hx
    exact (Txn.oneCanonical_exec hinv.1 hinv.2.1 hg hsole (hstep x hx) hexec).mp (hone x hx)
  · obtain ⟨hinv, hg, hsole, hexec⟩ := (h.legible (suffices_meetsNone N cfg)
      fun y hy => ⟨hstep y hy, hnone y hy⟩).2 x hx
    exact (Txn.oneCanonical_exec hinv.1 hinv.2.1 hg hsole (hstep x hx) hexec).mpr (hnone x hx)

/-- The chain goes to `B` and back to `A`: one re-check replaces a block, and another brings the
first one back. -/
theorem Execution.sole_iff_onward :
    let db := playAll (Txn.exec Noid.sample {}) onwardStints Db.empty
    (db.blocks.rows.map fun b => (b.hash, b.height, db.isCanonical b.id))
        = [("A", 1, true), ("B", 1, false)]
      ∧ db.OneCanonical :=
  ⟨by decide +kernel, (Execution.sole_iff run_onwardStints (by decide +kernel)).1
    (by decide +kernel)⟩

end Permanode
