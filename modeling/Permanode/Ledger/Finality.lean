import Permanode.Ledger.Canonical
import Permanode.Ledger.Founded

/-!
# Ledger/Finality — what no reorg reaches any more

A node whose chain is settled up to a height answers, there, with the blocks of one chain
(`SettledTo`).  Every header on record is one a node answered with (`Job.speaks`), and a re-check
orphans only a block with another hash than the node's, so in a run with such a node no canonical
block up to the height is of another chain, and none ever stops being canonical, in whatever order
the threads take their turns and whatever the peers send (`Run.final_blocks`).
-/

namespace Permanode

open Outcome Prog

/-- What a node answers whose chain is settled up to a height: what it is asked for, and up to there
the blocks of the chain. -/
def SettledTo (final : ℕ) (chain : ℕ → String) : ∀ q : Query, q.Answer → Prop
  | .blockHeader k, r => ∀ h, r = .ok (some h) → h.height = k ∧ (k ≤ final → h.hash = chain k)
  | .blockDetails k, r => ∀ details, r = .ok (some details) →
    details.header.height = k ∧ (k ≤ final → details.header.hash = chain k)
  | _, _ => True

/-- A header that is of the chain, as far as that is settled. -/
def BlockHeaderInfo.OfChain (final : ℕ) (chain : ℕ → String) (h : BlockHeaderInfo) : Prop :=
  h.height ≤ final → h.hash = chain h.height

/-! ## The headers a transaction puts on record -/

/-- The headers a transaction puts on record. -/
def Txn.headers : Txn → List BlockHeaderInfo
  | .ingest _ details _ _ _ => [details.header]
  | .gapBlock details _ _ => [details.header]
  | .replace _ _ _ _ replacement _ => (replacement.map BodyOutcome.header).toList
  | .headerBatch batch _ _ => batch
  | _ => []

/-- The block a transaction orphans. -/
def Txn.orphaned : Txn → Option ℕ
  | .replace _ oldBlockId _ _ _ _ => some oldBlockId
  | _ => none

/-- Every header a transaction puts on record satisfies `H`. -/
def Txn.Speaks (H : BlockHeaderInfo → Prop) (t : Txn) : Prop := ∀ h ∈ t.headers, H h

variable {N : Noid} {cfg : Config} {allow : ∀ q : Query, q.Answer → Prop} {t : Txn}
  {H : BlockHeaderInfo → Prop} {i : Thread}

/-- Only the indexer and the header backfill put headers on record. -/
theorem Txn.By.headers_eq_nil (h : t.By cfg (fun _ => True) i) (hi : i ≠ .headers)
    (hind : i ≠ .indexer ∨ t.Aside cfg) : t.headers = [] ∧ t.orphaned = none := by
  cases h with
  | ingest | gapBlock | replace =>
    rcases hind with hind | haside
    · exact absurd rfl hind
    · exact haside.elim
  | headers | headersDone => exact absurd rfl hi
  | mismatches | processed | recover | keepRaw | started | sighting | prune | refresh | segment
  | balances | zero | fillGap | cleared | filled | fillRaw | seen | proofClass | receipt =>
    exact ⟨rfl, rfl⟩

/-- An operation enters no block but one with a header among these. -/
def Op.EntersOf (headers : List BlockHeaderInfo) (op : Op) : Prop :=
  ∀ (l : Ledger) height hash, op.entering l = some (height, hash) →
    ∃ h ∈ headers, h.height = height ∧ h.hash = hash

theorem Db.mem_storeOps {db : Db} {details : BlockDetailsInfo} {op : Op}
    (hop : op ∈ db.storeOps details) :
    (∀ id, op ≠ .orphan id) ∧ op.EntersOf [details.header] := by
  unfold storeOps at hop
  split at hop
  · exact absurd hop List.not_mem_nil
  · dsimp only at hop
    split_ifs at hop
    · split at hop
      · exact absurd hop List.not_mem_nil
      · rw [List.mem_singleton.mp hop]
        exact ⟨nofun, fun _ _ _ h => nomatch h⟩
    · rw [List.mem_singleton.mp hop]
      refine ⟨nofun, fun _ _ _ h => ?_⟩
      obtain ⟨rfl, rfl⟩ := Prod.mk.inj (Option.some.inj h)
      exact ⟨details.header, List.mem_singleton_self _, rfl, rfl⟩

theorem Db.mem_gapOps {db : Db} {details : BlockDetailsInfo} {op : Op}
    (hop : op ∈ db.gapOps details) : (∀ id, op ≠ .orphan id) ∧ op.EntersOf [details.header] := by
  unfold gapOps at hop
  dsimp only at hop
  split_ifs at hop
  · rw [List.mem_singleton.mp hop]
    exact ⟨nofun, fun _ _ _ h => nomatch h⟩
  · rw [List.mem_singleton.mp hop]
    refine ⟨nofun, fun _ _ _ h => ?_⟩
    obtain ⟨rfl, rfl⟩ := Prod.mk.inj (Option.some.inj h)
    exact ⟨details.header, List.mem_singleton_self _, rfl, rfl⟩

/-- **The operations of a transaction enter only blocks of its headers, and orphan only its
block.** -/
theorem Txn.mem_ops {db : Db} {op : Op} (hop : op ∈ t.ops db) :
    (∀ id, op = .orphan id → t.orphaned = some id) ∧ op.EntersOf t.headers := by
  have hsilent : ∀ {op : Op}, (∀ id, op ≠ .orphan id) → (∀ l, op.entering l = none) →
      (∀ id, op = .orphan id → t.orphaned = some id) ∧ op.EntersOf t.headers := fun hne hnone =>
    ⟨fun id h => absurd h (hne id), fun l _ _ h =>
      absurd ((hnone l).symm.trans h) (Option.some_ne_none _).symm⟩
  match t with
  | .ingest _ details _ _ _ =>
    obtain ⟨hne, hof⟩ := Db.mem_storeOps hop
    exact ⟨fun id h => absurd h (hne id), hof⟩
  | .gapBlock details _ _ =>
    obtain ⟨hne, hof⟩ := Db.mem_gapOps hop
    exact ⟨fun id h => absurd h (hne id), hof⟩
  | .replace height oldBlockId orphanedAt hash replacement now =>
    rcases List.mem_cons.mp hop with rfl | hop
    · exact ⟨fun id h => congrArg some (Op.orphan.inj h), fun _ _ _ h => by cases h⟩
    · rcases replacement with _ | ⟨details, source, raw⟩ | ⟨details, note⟩
      · rw [List.mem_singleton.mp hop]
        exact hsilent (fun _ h => by cases h) fun _ => rfl
      · obtain ⟨hne, hof⟩ := Db.mem_storeOps hop
        exact ⟨fun id h => absurd h (hne id), hof⟩
      · obtain ⟨hne, hof⟩ := Db.mem_gapOps hop
        exact ⟨fun id h => absurd h (hne id), hof⟩
  | .headerBatch batch _ _ =>
    obtain ⟨h, hmem, rfl⟩ := List.mem_map.mp hop
    refine ⟨(fun id h => by cases h), fun l height hash henter => ?_⟩
    rw [Op.entering] at henter
    split_ifs at henter
    obtain ⟨rfl, rfl⟩ := Prod.mk.inj (Option.some.inj henter)
    exact ⟨h, hmem, rfl, rfl⟩
  | .recover .. | .fillGap .. | .resolveGapsWithBodies _ | .pruneBlock _ =>
    rw [List.mem_singleton.mp hop]
    exact hsilent (fun _ h => by cases h) fun _ => rfl
  | .receipt blockId tx now =>
    simp only [ops] at hop
    split at hop
    · rw [List.mem_singleton.mp hop]
      exact hsilent (fun _ h => by cases h) fun _ => rfl
    · exact absurd hop List.not_mem_nil
  | .setState .. | .keepRaw .. | .fillRaw .. | .clearSpentInGap | .setTipSeen .. | .adoptTipSeen ..
  | .adoptProofClass .. | .sweepSegment .. | .sweepBalances _ | .upsertBalances .. =>
    exact absurd hop List.not_mem_nil

/-! ## The programs -/

/-- A transaction that speaks `H` and orphans nothing. -/
def Txn.Plain (H : BlockHeaderInfo → Prop) (t : Txn) : Prop :=
  t.Genuine ∧ t.Speaks H ∧ t.orphaned = none

theorem Txn.plain_of_nil (hg : t.Genuine) (h : t.headers = [] ∧ t.orphaned = none) : t.Plain H :=
  ⟨hg, fun _ hmem => absurd (h.1 ▸ hmem) List.not_mem_nil, h.2⟩

/-- What comes of programs that speak for a node. -/
structure Answered (allow : ∀ q : Query, q.Answer → Prop) (H : BlockHeaderInfo → Prop) : Prop where
  header : ∀ k h, allow (.blockHeader k) (.ok (some h)) → H h
  details : ∀ k details, allow (.blockDetails k) (.ok (some details)) → H details.header

theorem ingestHeight_speaks (hH : Answered allow H) (height : ℕ) :
    (ingestHeight N cfg height).Commits allow (Txn.Plain H) fun _ => True := by
  have hB := bodySource_any N allow
  refine commits_ask.mpr fun answer hanswer => ?_
  rcases answer with e | _ | details
  · exact trivial
  · exact trivial
  refine commits_bind (fun out hout => ?_)
    (resolveBody_commits hB (hB.details _ _ hanswer) (hH.details _ _ hanswer) _)
  rcases out with ⟨details, source, raw⟩ | ⟨details, note⟩
  · refine commits_bind (fun raw _ => ?_) (rawOrFetch_commits ..)
    refine commits_ask.mpr fun now _ => commits_commit.mpr
      ⟨⟨hout.1, List.forall_mem_singleton.mpr hout.2.1, rfl⟩, ?_⟩
    rcases raw with _ | raw
    · exact trivial
    · dsimp only
      split_ifs
      · refine commits_bind (fun _ _ => ?_) (selfcheck_commits height details raw fun _ =>
          Txn.plain_of_nil trivial ⟨rfl, rfl⟩)
        exact trivial
      · exact trivial
  · exact commits_ask.mpr fun now _ => commits_commit.mpr
      ⟨⟨trivial, List.forall_mem_singleton.mpr hout, rfl⟩, trivial⟩

theorem ingestHeights_speaks (hH : Answered allow H) : ∀ heights : List ℕ,
    (ingestHeights N cfg heights).Commits allow (Txn.Plain H) fun _ => True
  | [] => trivial
  | height :: heights => by
      refine commits_bind (fun more _ => ?_) (ingestHeight_speaks hH height)
      rcases more with _ | _
      · exact trivial
      · exact commits_commit.mpr
          ⟨Txn.plain_of_nil trivial ⟨rfl, rfl⟩, ingestHeights_speaks hH heights⟩

/-- **Beside the polls every header on record is one a node answered with**, and nothing is
orphaned. -/
theorem Job.speaks (hH : Answered allow H) {p : Program Unit} (h : Job N cfg i p)
    (hp : p ≠ pollOnce N cfg) : p.Commits allow (Txn.Plain H) fun _ => True := by
  have hB := bodySource_any N allow
  have hnil : ∀ {i : Thread} {t : Txn}, t.By cfg (fun _ => True) i → i ≠ .headers →
      (i ≠ .indexer ∨ t.Aside cfg) → t.Plain H := fun ht hi hind =>
    Txn.plain_of_nil ht.issued.genuine (ht.headers_eq_nil hi hind)
  by_cases hi : i = .headers
  · subst hi
    cases h with
    | headers =>
      refine backfillHeaders_commits (fun batch _ hanswered progress now => ⟨trivial, ?_, rfl⟩)
        (Txn.plain_of_nil trivial ⟨rfl, rfl⟩) _
      exact fun h hmem => hH.header _ h (hanswered h hmem)
  · rcases h.kinds allow with hb | ⟨-, rfl⟩ | ⟨hfills, -⟩
    · exact commits_mono (fun t ht => hnil ht.2 hi (Or.inr ht.1)) (fun _ hr => hr) hb
    · exact absurd rfl hp
    · refine commits_mono (fun t ht => hnil ht hi (Or.inl ?_)) (fun _ hr => hr) (h.by hB)
      rintro rfl
      exact hfills

/-! ## What was read is still so -/

section Settled

variable (final : ℕ) (chain : ℕ → String)

/-- Up to the settled height the headers of a transaction are of the chain, and the block it orphans
is not. -/
def Txn.KeepsFinal (db : Db) (t : Txn) : Prop :=
  t.Speaks (BlockHeaderInfo.OfChain final chain)
    ∧ ∀ id, t.orphaned = some id → ∀ e ∈ db.ledger.entries.rows, e.id = id → e.height ≤ final →
      e.hash ≠ chain e.height

/-- What the other threads do to what was read, and what a thread owes in return. -/
abbrev finalSetting (N : Noid) (cfg : Config) (allow : ∀ q : Query, q.Answer → Prop) :
    Setting Query Query.Answer Db Txn String :=
  ⟨allow, Txn.exec N cfg, fun _ => True, fun db db' => db.ledger.Grows db'.ledger,
    fun db t db' => db.ledger.Grows db'.ledger ∧ t.Genuine ∧ t.KeepsFinal final chain db,
    fun _ _ => True⟩

variable {final chain}

theorem answered_of_settled (hallow : ∀ q r, allow q r → SettledTo final chain q r) :
    Answered allow (BlockHeaderInfo.OfChain final chain) where
  header k h ha hle := by
    obtain ⟨rfl, hhash⟩ := hallow _ _ ha h rfl
    exact hhash hle
  details k details ha hle := by
    obtain ⟨rfl, hhash⟩ := hallow _ _ ha details rfl
    exact hhash hle

theorem anywhere_of_plain {α : Type} {p : Program α} {R : α → Prop}
    (h : p.Commits allow (Txn.Plain (BlockHeaderInfo.OfChain final chain)) R) :
    Anywhere (finalSetting final chain N cfg allow) p := by
  have hstep : ∀ (db : Db) (t : Txn) (db' : Db), t.Plain (BlockHeaderInfo.OfChain final chain) →
      True → True → t.exec N cfg db = .ok db' →
        True ∧ db.ledger.Grows db'.ledger ∧ t.Genuine ∧ t.KeepsFinal final chain db :=
    fun db t db' ht _ _ hexec =>
    ⟨trivial, Txn.exec_grows ht.1 hexec, ht.1, ht.2.1, fun id h => nomatch ht.2.2.symm.trans h⟩
  exact anywhere_of_commits (V := finalSetting final chain N cfg allow) hstep h

/-- **A re-check orphans no block of the settled chain**: it has seen another hash than the
node's. -/
theorem anywhere_recheckFinal (hallow : ∀ q r, allow q r → SettledTo final chain q r) (height : ℕ) :
    Anywhere (finalSetting final chain N cfg allow) (recheckHeight N cfg height) := by
  have hB := bodySource_any N allow
  have hH := answered_of_settled hallow
  refine fun db => wp_ask.mpr fun answer hanswer => ?_
  rcases answer with e | _ | header
  · exact trivial
  · exact trivial
  obtain ⟨rfl, hhash⟩ := hallow _ _ hanswer header rfl
  refine wp_ask.mpr fun now _ => wp_get.mpr fun db₁ _ _ => ?_
  rcases hknown : db₁.canonicalHashAt header.height with _ | ⟨blockId, knownHash⟩
  · exact trivial
  dsimp only
  split_ifs with hsame
  · exact trivial
  refine wp_get.mpr fun db₂ _ hrely₂ => ?_
  split_ifs
  · exact trivial
  -- the block that was read is another than the chain's, now and later
  let Other : Db → Prop := fun db => ∃ e ∈ db.ledger.entries.rows, e.id = blockId
    ∧ e.height = header.height ∧ e.hash = knownHash
  have hstable : ∀ {db db' : Db}, db.ledger.Grows db'.ledger → Other db → Other db' := by
    rintro db db' hgrow ⟨e, he, hid, hh, hs⟩
    obtain ⟨e', he', hid', hh', hs', -⟩ := hgrow e he
    exact ⟨e', he', hid'.trans hid, hh'.trans hh, hs'.trans hs⟩
  have hother : Other db₂ := by
    obtain ⟨b, hb, hid, hh, hs⟩ := Db.mem_of_canonicalHashAt hknown
    exact hstable hrely₂ ⟨b.entry, List.mem_map_of_mem hb, hid, hh, hs⟩
  have hkept : ∀ db db' : Db, True → db.ledger.Grows db'.ledger → Other db → Other db' :=
    fun _ _ _ hgrow => hstable hgrow
  refine wp_then (wp_silently hkept (fetchReplacement_commits hB fun details ha =>
    hH.details _ _ ha) hother) (fun _ _ => trivial) fun r db₃ ⟨ho₃, hr, _⟩ => ?_
  refine wp_then (wp_silently hkept (withRaw_commits hr) ho₃) (fun _ _ => trivial)
    fun r db₄ ⟨ho₄, hr, _⟩ => ?_
  refine wp_ask.mpr fun later _ => wp_last.mpr fun db₅ _ hrely => ⟨fun db₆ _ hexec => ?_,
    fun _ _ => trivial⟩
  have hgen : ∀ out ∈ r, out.Genuine := by
    rintro (⟨details, source, raw⟩ | ⟨details, note⟩) hout
    · exact (hr _ hout).1
    · exact trivial
  have hgrow : db₅.ledger.Grows db₆.ledger := @Txn.exec_grows N cfg
    (.replace header.height blockId now header.hash r later) hgen _ _ hexec
  refine ⟨trivial, ⟨hgrow, hgen, fun h hmem => ?_, ?_⟩, trivial⟩
  · obtain ⟨out, hout, rfl⟩ := Option.map_eq_some_iff.mp (Option.mem_toList.mp hmem)
    rcases out with ⟨details, source, raw⟩ | ⟨details, note⟩
    · exact (hr _ hout).2.1
    · exact hr _ hout
  · rintro _ ⟨⟩ e he hid hle heq
    obtain ⟨e', he', hid', hh', hs'⟩ := hstable hrely ho₄
    obtain rfl := Ledger.eq_of_id he he' (hid.trans hid'.symm)
    rw [hh'] at hle heq
    exact hsame (hs'.symm.trans (heq.trans (hhash hle).symm))

theorem anywhere_pollFinal (hallow : ∀ q r, allow q r → SettledTo final chain q r) :
    Anywhere (finalSetting final chain N cfg allow) (pollOnce N cfg) := by
  have hB := bodySource_any N allow
  have hplain : ∀ {t : Txn}, t.headers = [] ∧ t.orphaned = none → t.Genuine →
      t.Plain (BlockHeaderInfo.OfChain final chain) := fun h hg => Txn.plain_of_nil hg h
  refine fun db => wp_ask.mpr fun answer _ => ?_
  rcases answer with e | tip
  · exact trivial
  refine anywhere_bind (anywhere_of_plain (heightsToIngest_commits tip)) (fun heights => ?_) db
  refine anywhere_bind (anywhere_of_plain
    (ingestHeights_speaks (answered_of_settled hallow) heights)) fun _ => ?_
  refine anywhere_bind (anywhere_each (anywhere_recheckFinal hallow) _) fun _ => ?_
  refine anywhere_bind (anywhere_of_plain (retryGaps_commits hB tip
    fun _ _ _ _ _ _ _ => hplain ⟨rfl, rfl⟩ trivial)) fun _ => ?_
  exact anywhere_of_plain (retryRaw_commits tip fun _ _ _ _ => hplain ⟨rfl, rfl⟩ trivial)

/-- **Every transaction of a run keeps to the settled chain.** -/
theorem run_keepsFinal (hallow : ∀ q r, allow q r → SettledTo final chain q r) {db₀ : Db}
    {tr : List (Db × Txn × Db)} {c : Prog.Config Query Query.Answer Db Txn String Thread}
    (h : Prog.Run (Job N cfg) allow (Txn.exec N cfg) (Config.idle db₀) tr c) :
    ∀ x ∈ tr, x.2.1.exec N cfg x.1 = .ok x.2.2
      ∧ x.2.1.Genuine ∧ x.2.1.KeepsFinal final chain x.1 := by
  have hjobs : ∀ (i : Thread) (p : Program Unit) (db : Db), Job N cfg i p →
      (finalSetting final chain N cfg allow).inv db →
        wp (finalSetting final chain N cfg allow) p (fun _ _ => True) db := by
    intro i p db hjob _
    by_cases hp : p = pollOnce N cfg
    · subst hp
      exact anywhere_pollFinal hallow db
    · exact anywhere_of_plain (hjob.speaks (answered_of_settled hallow) hp) db
  obtain ⟨-, -, htr⟩ := Run.rely_guarantee
    (fun _ => (finalSetting final chain N cfg allow).rely)
    (fun _ => (finalSetting final chain N cfg allow).guar) (fun _ db => .refl db.ledger)
    (fun _ _ _ _ h h' => h.trans h') (fun _ _ _ _ _ _ hg => hg.1) hjobs trivial h
    fun _ _ => trivial
  intro x hx
  obtain ⟨-, hexec, i, -, hg, hkeeps⟩ := htr x hx
  exact ⟨hexec, hg, hkeeps⟩

/-! ## The canonical blocks -/

/-- A row after an operation was there, or is the block that entered. -/
theorem Op.mem_apply {l : Ledger} {e : Entry} (op : Op) (he : e ∈ (op.apply l).entries.rows) :
    (∃ e₀ ∈ l.entries.rows, e₀.id = e.id ∧ e₀.height = e.height ∧ e₀.hash = e.hash)
      ∨ op.entering l = some (e.height, e.hash) := by
  have henter : ∀ {height : ℕ} {hash : String} {archived captured : Bool},
      e ∈ (l.enter height hash archived captured).entries.rows →
        op.entering l = some (height, hash) →
          (∃ e₀ ∈ l.entries.rows, e₀.id = e.id ∧ e₀.height = e.height ∧ e₀.hash = e.hash)
            ∨ op.entering l = some (e.height, e.hash) := by
    intro height hash archived captured he hop
    rcases Table.mem_insert he with he | rfl
    · exact Or.inl ⟨e, he, rfl, rfl, rfl⟩
    · exact Or.inr hop
  have hflags : ∀ {id : ℕ} {f : Bool → Bool} {c : Bool}, e ∈ (l.setFlags id f c).rows →
      ∃ e₀ ∈ l.entries.rows, e₀.id = e.id ∧ e₀.height = e.height ∧ e₀.hash = e.hash := by
    intro id f c he
    obtain ⟨e₀, he₀, ⟨-, rfl⟩ | ⟨-, rfl⟩⟩ := Ledger.mem_setFlags.mp he
    · exact ⟨e, he₀, rfl, rfl, rfl⟩
    · exact ⟨e₀, he₀, rfl, rfl, rfl⟩
  match op with
  | .enterBody .. => exact henter he rfl
  | .enterGap .. => exact henter he rfl
  | .enterHeader height hash =>
    rw [Op.apply] at he
    split_ifs at he with hany
    · exact Or.inl ⟨e, he, rfl, rfl, rfl⟩
    · exact henter he (if_neg hany)
  | .fill .. => exact Or.inl (hflags he)
  | .prune _ => exact Or.inl (hflags he)
  | .attach _ =>
    rw [Op.apply] at he
    split_ifs at he <;> exact Or.inl ⟨e, he, rfl, rfl, rfl⟩
  | .orphan _ | .openGap _ | .closeBodied => exact Or.inl ⟨e, he, rfl, rfl, rfl⟩

variable (final chain) in
/-- Up to the settled height the canonical blocks are of the chain. -/
def Ledger.Final (l : Ledger) : Prop :=
  ∀ e ∈ l.entries.rows, e.height ≤ final → l.canonical e.id → e.hash = chain e.height

variable {headers : List BlockHeaderInfo}

theorem Ledger.Final.apply {l : Ledger} (h : l.Final final chain) {op : Op}
    (hop : op.EntersOf headers) (hof : ∀ h ∈ headers, h.OfChain final chain) :
    (op.apply l).Final final chain := by
  intro e he hle hc
  have hentered : ∀ {hash}, op.entering l = some (e.height, hash) → hash = chain e.height := by
    intro hash henter
    obtain ⟨hd, hmem, hh, rfl⟩ := hop l e.height hash henter
    rw [← hh]
    exact hof hd hmem (hh.trans_le hle)
  rcases op.mem_apply he with ⟨e₀, he₀, hid, hh, hs⟩ | henter
  · rw [← hs]
    rcases op.canonicalAt_apply.mp ⟨e, he, rfl, rfl, hc⟩
      with ⟨⟨e₁, -, -, -, hc₀⟩, -⟩ | ⟨hash, henter, hid'⟩
    · rw [← hh]
      exact h e₀ he₀ (hh.trans_le hle) (hid ▸ hc₀)
    · rw [← hh] at hid'
      rw [(Ledger.entryId_eq_iff he₀).mp (hid.trans hid')]
      exact hentered henter
  · exact hentered henter

theorem Ledger.Final.applyAll (hof : ∀ h ∈ headers, h.OfChain final chain) :
    ∀ (ops : List Op) {l : Ledger}, (∀ op ∈ ops, op.EntersOf headers) → l.Final final chain →
      (Op.applyAll ops l).Final final chain
  | [], _, _, h => h
  | op :: ops, _, hops, h => Ledger.Final.applyAll hof ops
    (fun o ho => hops o (List.mem_cons_of_mem _ ho))
      (h.apply (hops op List.mem_cons_self) hof)

namespace Db

variable {db db' db'' : Db}

variable (final chain) in
/-- Up to the settled height the canonical blocks are of the chain. -/
def Final (db : Db) : Prop :=
  ∀ b ∈ db.blocks.rows, b.height ≤ final → db.isCanonical b.id → b.hash = chain b.height

theorem final_iff : db.Final final chain ↔ db.ledger.Final final chain := by
  constructor
  · intro h e he
    obtain ⟨b, hb, rfl⟩ := List.mem_map.mp he
    exact h b hb
  · intro h b hb
    exact h b.entry (List.mem_map_of_mem hb)

variable (final) in
/-- Up to the settled height, what is canonical stays canonical. -/
def KeepsCanonical (db db' : Db) : Prop :=
  ∀ b ∈ db.blocks.rows, b.height ≤ final → db.isCanonical b.id →
    ∃ b' ∈ db'.blocks.rows, b'.id = b.id ∧ b'.height = b.height ∧ b'.hash = b.hash
      ∧ db'.isCanonical b'.id

theorem KeepsCanonical.refl (db : Db) : KeepsCanonical final db db :=
  fun b hb _ hc => ⟨b, hb, rfl, rfl, rfl, hc⟩

theorem KeepsCanonical.trans (h : KeepsCanonical final db db')
    (h' : KeepsCanonical final db' db'') : KeepsCanonical final db db'' := by
  intro b hb hle hc
  obtain ⟨b', hb', hid, hh, hs, hc'⟩ := h b hb hle hc
  obtain ⟨b'', hb'', hid', hh', hs', hc''⟩ := h' b' hb' (hh.trans_le hle) hc'
  exact ⟨b'', hb'', hid'.trans hid, hh'.trans hh, hs'.trans hs, hc''⟩

/-- **A transaction that keeps to the settled chain leaves its blocks canonical.** -/
theorem Final.exec (h : db.Final final chain) (hg : t.Genuine) (ht : t.KeepsFinal final chain db)
    (hexec : t.exec N cfg db = .ok db') : db'.Final final chain ∧ KeepsCanonical final db db' := by
  have hledger := Txn.exec_ledger hg hexec
  refine ⟨final_iff.mpr ?_, fun b hb hle hc => ?_⟩
  · rw [hledger]
    exact Ledger.Final.applyAll ht.1 _ (fun op hop => (Txn.mem_ops hop).2) (final_iff.mp h)
  · have hstays : ∀ op ∈ t.ops db, op ≠ .orphan b.id := by
      rintro op hop rfl
      exact ht.2 b.id ((Txn.mem_ops hop).1 _ rfl) b.entry (List.mem_map_of_mem hb) rfl hle
        (h b hb hle hc)
    have hat : db.ledger.CanonicalAt b.height b.id :=
      ⟨b.entry, List.mem_map_of_mem hb, rfl, rfl, hc⟩
    have hat' : db'.ledger.CanonicalAt b.height b.id :=
      hledger ▸ Op.canonicalAt_applyAll (t.ops db) hstays hat
    obtain ⟨e, he, hid, hh, hc'⟩ := hat'
    obtain ⟨e', he', hid', -, hs', -⟩ := Txn.exec_grows hg hexec b.entry (List.mem_map_of_mem hb)
    obtain rfl := Ledger.eq_of_id he he' (hid.trans hid'.symm)
    obtain ⟨b', hb', rfl⟩ := List.mem_map.mp he
    exact ⟨b', hb', hid, hh, hs', (congrArg db'.isCanonical hid).trans hc'⟩

end Db

/-- **No reorg of the record below the settled height**: in a run from a database whose canonical
blocks are of the settled chain up to there, they are so at every moment, whatever the threads do
and the peers answer, and what is canonical at one moment is canonical from then on. -/
theorem run_final (hallow : ∀ q r, allow q r → SettledTo final chain q r) {db₀ : Db}
    (h₀ : db₀.Final final chain) {tr : List (Db × Txn × Db)}
    {c : Prog.Config Query Query.Answer Db Txn String Thread}
    (h : Prog.Run (Job N cfg) allow (Txn.exec N cfg) (Config.idle db₀) tr c) :
    (c.store.Final final chain ∧ Db.KeepsCanonical final db₀ c.store)
      ∧ ∀ x ∈ tr, x.1.Final final chain ∧ Db.KeepsCanonical final x.1 c.store := by
  have hkeeps := run_keepsFinal hallow h
  let R : Db → Db → Prop := fun db db' => db.Final final chain →
    db'.Final final chain ∧ Db.KeepsCanonical final db db'
  obtain ⟨hend, htr⟩ := Run.related (R := R) (fun db h => ⟨h, .refl db⟩)
    (fun _ _ _ h h' hf => ⟨(h' (h hf).1).1, (h hf).2.trans (h' (h hf).1).2⟩) h
    fun x hx hf => hf.exec (hkeeps x hx).2.1 (hkeeps x hx).2.2 (hkeeps x hx).1
  exact ⟨hend h₀, fun x hx => ⟨((htr x hx).1 h₀).1, ((htr x hx).2 ((htr x hx).1 h₀).1).2⟩⟩

/-- **One canonical block a height, and it stays**: below the settled height the record is the
chain's at every moment of the run, and a block that is canonical once is so from then on. -/
theorem settled_stays (hallow : ∀ q r, allow q r → SettledTo final chain q r) {db₀ : Db}
    (h₀ : ∀ b ∈ db₀.blocks.rows, b.height ≤ final → db₀.isCanonical b.id → b.hash = chain b.height)
    {tr : List (Db × Txn × Db)} {c : Prog.Config Query Query.Answer Db Txn String Thread}
    (h : Prog.Run (Job N cfg) allow (Txn.exec N cfg) (Config.idle db₀) tr c) :
    (∀ b ∈ c.store.blocks.rows, b.height ≤ final → c.store.isCanonical b.id →
        b.hash = chain b.height ∧ ∀ b' ∈ c.store.blocks.rows, b'.height = b.height →
          c.store.isCanonical b'.id → b' = b)
      ∧ ∀ x ∈ tr, ∀ b ∈ x.1.blocks.rows, b.height ≤ final → x.1.isCanonical b.id →
        ∃ b' ∈ c.store.blocks.rows, b'.id = b.id ∧ b'.height = b.height ∧ b'.hash = b.hash
          ∧ c.store.isCanonical b'.id := by
  obtain ⟨⟨hfinal, -⟩, htr⟩ := run_final hallow h₀ h
  refine ⟨fun b hb hle hc => ⟨hfinal b hb hle hc, fun b' hb' hh hc' => ?_⟩,
    fun x hx => (htr x hx).2⟩
  have hhash : b'.hash = b.hash := by
    rw [hfinal b hb hle hc, hfinal b' hb' (hh.trans_le hle) hc', hh]
  exact c.store.blocks.eq_of_clash hb' hb (decide_eq_true (Or.inr (by rw [hh, hhash])))

/-- A node that holds blocks of which those up to the settled height are of the chain. -/
theorem chainAnswers_settled {blocks : List BlockDetailsInfo} (now : Instant)
    (h : ∀ x ∈ blocks.zipIdx, x.1.header.height = x.2
      ∧ (x.2 ≤ final → x.1.header.hash = chain x.2)) (q : Query) :
    SettledTo final chain q (chainAnswers blocks now q) := by
  have hget : ∀ {k : ℕ} {d : BlockDetailsInfo}, blocks[k]? = some d →
      d.header.height = k ∧ (k ≤ final → d.header.hash = chain k) := fun hk =>
    h (_, _) (List.mem_zipIdx_iff_getElem?.mpr hk)
  match q with
  | .blockHeader k =>
    intro header hok
    obtain ⟨d, hd, rfl⟩ := Option.map_eq_some_iff.mp (Except.ok.inj hok)
    exact hget hd
  | .blockDetails k => exact fun d hok => hget (Except.ok.inj hok)
  | .blockCount | .now | .block _ | .stateMap | .slot _ | .slotsByOwner _ | .unixTime | .rounds
  | .offer _ _ | .rawOffer _ _ | .peerRawFrom | .peerSeen | .peerProof | .sightings => exact trivial

end Settled

/-- The chain up to height 1. -/
def youngChain (k : ℕ) : String := if k = 0 then "G" else "A"

/-- Block 2 is replaced between two polls. -/
def youngStints : List (Stint Query Query.Answer Db Txn String Thread) :=
  [⟨.indexer, pollOnce Noid.sample {},
      fun _ => chainAnswers [bareBlock 0 "G" "", bodyBlock 1 "A" "G"] 1, 60⟩,
    ⟨.indexer, pollOnce Noid.sample {},
      fun _ => chainAnswers [bareBlock 0 "G" "", bodyBlock 1 "A" "G", bodyBlock 2 "B" "A"] 2, 60⟩,
    ⟨.indexer, pollOnce Noid.sample {},
      fun _ => chainAnswers [bareBlock 0 "G" "", bodyBlock 1 "A" "G", bodyBlock 2 "C" "A"] 3, 60⟩]

/-- The database after that. -/
def youngDb : Db := playAll (Txn.exec Noid.sample {}) youngStints Db.empty

theorem run_youngStints : Prog.Run (Job Noid.sample {}) (SettledTo 1 youngChain)
    (Txn.exec Noid.sample {}) (Config.idle Db.empty)
    (traceAll (Txn.exec Noid.sample {}) youngStints Db.empty) (Config.idle youngDb) := by
  refine run_playAll Db.empty ?_
  simp only [youngStints, List.forall_mem_cons]
  exact ⟨⟨.poll, fun _ => chainAnswers_settled _ (by decide)⟩,
    ⟨.poll, fun _ => chainAnswers_settled _ (by decide)⟩,
    ⟨.poll, fun _ => chainAnswers_settled _ (by decide)⟩, nofun⟩

/-- Block 1 stands, the blocks of height 2 come and go. -/
theorem settled_stays_young :
    (youngDb.blocks.rows.map fun b => (b.hash, youngDb.isCanonical b.id))
        = [("A", true), ("B", false), ("C", true)]
      ∧ ∀ b ∈ youngDb.blocks.rows, b.height ≤ 1 → youngDb.isCanonical b.id →
          b.hash = youngChain b.height :=
  ⟨by decide +kernel, fun b hb hle hc =>
    ((settled_stays (fun _ _ h => h) (fun _ h => absurd h List.not_mem_nil) run_youngStints).1
      b hb hle hc).1⟩

end Permanode
