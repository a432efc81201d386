import Permanode.Ledger.HeaderBatch
import Permanode.System.Views

/-!
# Ledger/HeaderRun — the headers below the archive along a run

The header backfill reads where to begin, fetches a batch, and only then commits it; it may be ended
at any action and begun anew.  What it knows in between is `Db.Hung`: the lowest row on record still
is where it was, and still names the parent it named.  That the other threads leave it so rests on
`Txn.SparesFirst`; with no header on record yet nothing protects the archive's first block, and
`Txn.BeginsBelowFirst` says when the first batch still fits.
-/

namespace Permanode

open Outcome Prog

variable {N : Noid} {cfg : Config} {allow : ∀ q : Query, q.Answer → Prop}

/-- While headers hang below the archive, nothing moves at its first block or further down. -/
def Txn.SparesFirst (db : Db) (t : Txn) : Prop :=
  db.hasHeaders → ∀ first ∈ db.archiveFirstHeight, ∀ k ∈ t.moves db, first < k

/-- The first header to be put on record is the parent of the archive's first block. -/
def Txn.BeginsBelowFirst (db : Db) : Txn → Prop
  | .headerBatch batch _ _ => db.hasHeaders = false → ∀ h ∈ (db.unrecorded batch).head?,
      db.archiveFirstHeight = some (h.height + 1)
        ∧ (db.canonicalLinkAt (h.height + 1)).map Prod.snd = some h.hash
  | _ => True

instance (db : Db) (t : Txn) : Decidable (t.SparesFirst db) :=
  inferInstanceAs (Decidable (db.hasHeaders → ∀ first ∈ db.archiveFirstHeight,
    ∀ k ∈ t.moves db, first < k))

instance (db : Db) : (t : Txn) → Decidable (t.BeginsBelowFirst db)
  | .headerBatch batch _ _ => inferInstanceAs (Decidable (db.hasHeaders = false →
      ∀ h ∈ (db.unrecorded batch).head?, db.archiveFirstHeight = some (h.height + 1)
        ∧ (db.canonicalLinkAt (h.height + 1)).map Prod.snd = some h.hash))
  | .setState .. | .ingest .. | .gapBlock .. | .replace .. | .recover .. | .keepRaw ..
  | .fillGap .. | .fillRaw .. | .clearSpentInGap | .resolveGapsWithBodies _ | .pruneBlock _
  | .setTipSeen .. | .adoptTipSeen .. | .adoptProofClass .. | .sweepSegment .. | .sweepBalances _
  | .upsertBalances .. | .receipt .. => .isTrue trivial

namespace Db

variable {db db' db'' : Db} {noGenesis : Prop} {height low n : ℕ} {expected last : String}
  {batch : List BlockHeaderInfo}

/-- The progress entry says done only where the headers reach genesis, or the block above it, the
node having no header of genesis. -/
def DoneReaches (noGenesis : Prop) (db : Db) : Prop :=
  db.getState headerBackfillKey = some "done" →
    db.lowestRecordedHeight = some 0 ∨ db.lowestRecordedHeight = some 1 ∧ noGenesis

/-- What the others leave of what the header backfill has read. -/
structure HeadersKept (db db' : Db) : Prop where
  grows : db.ledger.Grows db'.ledger
  still : db'.hasHeaders → db.hasHeaders ∧ db'.lowestRecordedHeight = db.lowestRecordedHeight
    ∧ ∀ low ∈ db.lowestRecordedHeight, db'.canonicalLinkAt low = db.canonicalLinkAt low

theorem HeadersKept.refl (db : Db) : HeadersKept db db :=
  ⟨.refl _, fun h => ⟨h, rfl, fun _ _ => rfl⟩⟩

theorem HeadersKept.trans (h : HeadersKept db db') (h' : HeadersKept db' db'') :
    HeadersKept db db'' := by
  refine ⟨h.grows.trans h'.grows, fun hh => ?_⟩
  obtain ⟨hh', hlow', hlink'⟩ := h'.still hh
  obtain ⟨hh, hlow, hlink⟩ := h.still hh'
  exact ⟨hh, hlow'.trans hlow, fun low hl =>
    (hlink' low (by rwa [hlow])).trans (hlink low hl)⟩

/-- The lowest height on record only goes down. -/
theorem lowest_le_of_grows (h : db.ledger.Grows db'.ledger)
    (hlow : db.lowestRecordedHeight = some low) :
    ∃ low' ≤ low, db'.lowestRecordedHeight = some low' := by
  obtain ⟨⟨b, hb, rfl⟩, -⟩ := lowestRecordedHeight_iff.mp hlow
  obtain ⟨e', he', -, hh, -, -⟩ := h b.entry (List.mem_map_of_mem hb)
  obtain ⟨b', hb', rfl⟩ := List.mem_map.mp he'
  rcases hl : db'.lowestRecordedHeight with _ | low'
  · rw [lowestRecordedHeight, List.min?_eq_none_iff, List.map_eq_nil_iff] at hl
    exact absurd (hl ▸ hb') List.not_mem_nil
  · exact ⟨low', ((lowestRecordedHeight_iff.mp hl).2 b' hb').trans_eq hh, rfl⟩

theorem DoneReaches.grows (hd : db.DoneReaches noGenesis)
    (hstate : db'.getState headerBackfillKey = db.getState headerBackfillKey)
    (hgrow : db.ledger.Grows db'.ledger) : db'.DoneReaches noGenesis := by
  intro hdone
  rcases hd (hstate ▸ hdone) with hlow | ⟨hlow, hno⟩
  · obtain ⟨low', hle, hlow'⟩ := lowest_le_of_grows hgrow hlow
    rw [Nat.le_zero.mp hle] at hlow'
    exact Or.inl hlow'
  · obtain ⟨low', hle, hlow'⟩ := lowest_le_of_grows hgrow hlow
    rcases Nat.le_one_iff_eq_zero_or_eq_one.mp hle with rfl | rfl
    · exact Or.inl hlow'
    · exact Or.inr ⟨hlow', hno⟩

/-- **Where the header backfill goes on**: the record reaches down to the height, and where there
are headers, that is their lowest, and the one it names as its parent comes next. -/
structure Hung (height : ℕ) (expected : String) (db : Db) : Prop where
  reaches : ∃ low ≤ height, db.lowestRecordedHeight = some low
  awaits : db.hasHeaders → db.Awaits height expected

theorem Hung.kept (hh : Hung height expected db) (h : HeadersKept db db') :
    Hung height expected db' := by
  refine ⟨?_, fun hhas => ?_⟩
  · obtain ⟨low, hle, hlow⟩ := hh.reaches
    obtain ⟨low', hle', hlow'⟩ := lowest_le_of_grows h.grows hlow
    exact ⟨low', hle'.trans hle, hlow'⟩
  · obtain ⟨hhas, hlow, hlink⟩ := h.still hhas
    obtain ⟨hlow₀, hash, hlink₀⟩ := hh.awaits hhas
    exact ⟨hlow.trans hlow₀, hash, (hlink height hlow₀).trans hlink₀⟩

/-- The rest of a batch begins with a header that is not on record. -/
theorem unrecorded_cons {h : BlockHeaderInfo} {rest : List BlockHeaderInfo}
    (hrest : db.unrecorded batch = h :: rest) : h.hash ∉ db.hashesAt h.height := by
  have hhead := List.head?_dropWhile_not (fun h : BlockHeaderInfo => h.hash ∈ db.hashesAt h.height)
    batch
  rw [show List.dropWhile _ batch = h :: rest from hrest] at hhead
  simpa using hhead

/-- **A batch leaves the headers linked**, and the backfill goes on where it ends. -/
theorem Hung.insertHeaders {now : Instant} (hl : db.HeadersLinked) (hlog : db.LogRefers)
    (hh : Hung (low + n) expected db) (hb : Fetched noGenesis expected (downTo low n) batch last)
    (hbegin : Txn.BeginsBelowFirst db (.headerBatch batch "" now))
    (hins : db.insertHeaders now batch = .ok db') :
    db'.HeadersLinked ∧ ∃ bottom, (bottom = low ∨ noGenesis ∧ low = 0 ∧ bottom = 1)
      ∧ Hung bottom last db' := by
  have hbottom : ∀ {m : ℕ} {exp : String} {part : List BlockHeaderInfo},
      Fetched noGenesis exp (downTo low m) part last → db'.Awaits (low + m - part.length) last →
        ∃ bottom, (bottom = low ∨ noGenesis ∧ low = 0 ∧ bottom = 1) ∧ Hung bottom last db' := by
    intro m exp part hpart hawait
    refine ⟨low + m - part.length, ?_, ⟨_, le_rfl, hawait.1⟩, fun _ => hawait⟩
    rcases hpart.length with hlen | ⟨hno, hlow, hlen⟩
    · exact Or.inl (by omega)
    · exact Or.inr ⟨hno, hlow, by omega⟩
  rcases hhas : db.hasHeaders with _ | _
  · obtain ⟨m, hm, expected', hpart⟩ := hb.unrecorded db
    rw [insertHeaders_unrecorded] at hins
    rcases hrest : db.unrecorded batch with _ | ⟨h, rest⟩
    · -- every header of the batch is on record already
      rw [hrest] at hins
      obtain rfl := pure_ok.mp hins
      refine ⟨hl, ?_⟩
      have hrec : ∀ h ∈ batch, h.hash ∈ db.hashesAt h.height := fun h hmem => by
        simpa using List.dropWhile_eq_nil_iff.mp hrest h hmem
      have hreach : ∃ low' ≤ low + n - batch.length, db.lowestRecordedHeight = some low' := by
        obtain ⟨low', hle, hlow⟩ := hh.reaches
        refine ⟨low', ?_, hlow⟩
        by_cases hne : batch = []
        · simpa [hne] using hle
        obtain ⟨h, hmem, hheight⟩ := hb.last_height hne
        obtain ⟨b, hbmem, -⟩ := List.mem_map.mp (hrec h hmem)
        obtain ⟨hrow, hbh⟩ := List.mem_filter.mp hbmem
        rw [← hheight, ← of_decide_eq_true hbh]
        exact (lowestRecordedHeight_iff.mp hlow).2 b hrow
      refine ⟨low + n - batch.length, ?_, hreach, fun h => absurd (hhas.symm.trans h) (by simp)⟩
      rcases hb.length with hlen | ⟨hno, hlow, hlen⟩
      · exact Or.inl (by omega)
      · exact Or.inr ⟨hno, hlow, by omega⟩
    · obtain ⟨hfirst, hlink⟩ := hbegin hhas h (by rw [hrest]; rfl)
      obtain ⟨⟨above, named⟩, hlink, rfl⟩ := Option.map_eq_some_iff.mp hlink
      rw [hrest] at hins hpart
      have hawait : db.Awaits (low + m) expected' := by
        obtain ⟨hheight, rfl⟩ := hpart.begins
        rw [← hheight]
        exact ⟨(lowest_eq_first hhas).trans hfirst, above, hlink⟩
      obtain ⟨hl', hawait'⟩ := hl.insertBatch hlog hpart hawait hins
      exact ⟨hl', hbottom hpart hawait'⟩
  · obtain ⟨hl', hawait'⟩ := hl.insertBatch hlog hb (hh.awaits hhas) hins
    exact ⟨hl', hbottom hb hawait'⟩

end Db

/-! ## What a transaction does -/

variable {t : Txn} {db db' : Db} {i : Thread}

/-- Only the header backfill commits batches, and moves its progress entry. -/
theorem Txn.By.not_headers {B : RetainedBlockInfo → Prop} (h : t.By cfg B i) (hi : i ≠ .headers) :
    ¬ t.IsHeaderBatch ∧ ¬ t.SetsState headerBackfillKey := by
  cases h with
  | headers | headersDone => exact absurd rfl hi
  | mismatches | processed => exact ⟨id, (by decide : _ ≠ headerBackfillKey)⟩
  | ingest | gapBlock | replace | recover | keepRaw | started | sighting | prune | refresh | segment
  | balances | zero | fillGap | cleared | filled | fillRaw | seen | proofClass | receipt =>
    exact ⟨id, id⟩

/-- What holds of the headers in every database reached. -/
structure Db.HeadersHold (noGenesis : Prop) (db : Db) : Prop where
  linked : db.HeadersLinked
  refers : db.LogRefers
  done : db.DoneReaches noGenesis

/-- **The other threads leave the headers as they are.** -/
theorem Db.HeadersHold.other {noGenesis : Prop} (h : db.HeadersHold noGenesis)
    (ht : t.By cfg (fun _ => True) i) (hi : i ≠ .headers) (hspare : t.SparesFirst db)
    (hf : t.Founded db) (hexec : t.exec N cfg db = .ok db') :
    db'.HeadersHold noGenesis ∧ Db.HeadersKept db db' := by
  obtain ⟨hbatch, hsets⟩ := ht.not_headers hi
  have hg := ht.issued.genuine
  have hgrow : db.ledger.Grows db'.ledger := Txn.exec_grows hg hexec
  have hstate := Txn.exec_getState (by decide) hsets hexec
  have hdone := h.done.grows hstate hgrow
  have hrefers := Txn.exec_logRefers h.refers hexec
  by_cases hhas : db.hasHeaders
  · obtain ⟨b, hb, ha⟩ := Db.hasHeaders_iff.mp hhas
    obtain ⟨low, first, hlow, hfirst, hle, hlt⟩ := h.linked.bounds hb ha
    have hs : Db.Spares first db db' := Txn.spares hg hbatch hf (hspare hhas first hfirst) hexec
    refine ⟨⟨h.linked.spares hfirst hs, hrefers, hdone⟩, hgrow, fun _ =>
      ⟨hhas, hs.lowest hfirst, fun k hk => Db.canonicalLinkAt_congr (hs.slices k ?_)⟩⟩
    obtain rfl := Option.some.inj (hlow.symm.trans hk)
    omega
  · have hnone : db'.hasHeaders = false := by
      by_contra hhas'
      obtain ⟨b', hb', ha'⟩ := Db.hasHeaders_iff.mp (by simpa using hhas')
      obtain ⟨b, hb, ha, -⟩ := Txn.header_old hg hbatch hexec b' hb' ha'
      exact hhas (Db.hasHeaders_iff.mpr ⟨b, hb, ha⟩)
    exact ⟨⟨Db.headersLinked_of_none hnone, hrefers, hdone⟩, hgrow, fun h' =>
      absurd (hnone.symm.trans h') (by simp)⟩

/-- **A batch that begins where the headers end extends them**, and is done only at genesis. -/
theorem Db.HeadersHold.batch {noGenesis : Prop} {low n : ℕ} {expected last progress : String}
    {batch : List BlockHeaderInfo} {now : Instant} (h : db.HeadersHold noGenesis)
    (hh : db.Hung (low + n) expected) (hb : Fetched noGenesis expected (downTo low n) batch last)
    (hp : progress = "done" → low = 0)
    (hbegin : Txn.BeginsBelowFirst db (.headerBatch batch progress now))
    (hexec : (Txn.headerBatch batch progress now).exec N cfg db = .ok db') :
    db'.HeadersHold noGenesis ∧ (0 < low → db'.Hung low last) := by
  obtain ⟨db₁, hins, rfl⟩ := map_ok.mp hexec
  obtain ⟨hl, bottom, hbottom, hh'⟩ := hh.insertHeaders h.linked h.refers hb hbegin hins
  refine ⟨⟨⟨hl.alone, hl.interval, hl.linked, hl.canonical⟩,
    (h.refers.insertHeaders hins).keepsHeaders ⟨rfl, rfl⟩, fun hdone => ?_⟩, fun hpos => ?_⟩
  · rw [Db.getState_setState, if_pos rfl] at hdone
    have hzero := hp (Option.some.inj hdone)
    obtain ⟨low', hle, hlow'⟩ := hh'.reaches
    change db₁.lowestRecordedHeight = _ ∨ db₁.lowestRecordedHeight = _ ∧ _
    rcases hbottom with rfl | ⟨hno, -, rfl⟩
    · rw [hlow', Nat.le_zero.mp (hle.trans_eq hzero)]
      exact Or.inl rfl
    · rcases Nat.le_one_iff_eq_zero_or_eq_one.mp hle with rfl | rfl
      · exact Or.inl hlow'
      · exact Or.inr ⟨hlow', hno⟩
  · rcases hbottom with rfl | ⟨-, hlow, -⟩
    · exact ⟨hh'.reaches, hh'.awaits⟩
    · omega

/-! ## The threads -/

/-- What the other threads do to what thread `i` has read. -/
def headerRely (i : Thread) (db db' : Db) : Prop := i = .headers → Db.HeadersKept db db'

/-- What thread `i` keeps to in return. -/
def headerGuar (i : Thread) (db : Db) (_ : Txn) (db' : Db) : Prop :=
  (i ≠ .headers → Db.HeadersKept db db') ∧ db'.HeadersLinked

/-- The setting of thread `i`. -/
abbrev headerSetting (N : Noid) (cfg : Config) (allow : ∀ q : Query, q.Answer → Prop) (i : Thread) :
    Setting Query Query.Answer Db Txn String :=
  ⟨allow, Txn.exec N cfg, Db.HeadersHold (NoGenesis allow), headerRely i, headerGuar i,
    fun db t => (t.SparesFirst db ∧ t.BeginsBelowFirst db) ∧ t.Founded db⟩

/-- A part of the header backfill that commits nothing keeps what it knows. -/
theorem wp_fetching {α : Type} {p : Program α} {I : Db → Prop} {R : α → Prop}
    (hI : ∀ db db', Db.HeadersKept db db' → I db → I db')
    (h : p.Commits allow (fun _ => False) R) (hdb : I db) :
    wp (headerSetting N cfg allow .headers) p (onOk fun a db => I db ∧ R a) db :=
  wp_silently (V := headerSetting N cfg allow .headers)
    (fun db db' _ hrely hi => hI db db' (hrely rfl) hi) h hdb

theorem wp_copyBatches (depth : ℕ) : ∀ (n next : ℕ) (expected : String) {db : Db},
    db.Hung (next + 1) expected →
      wp (headerSetting N cfg allow .headers) (copyBatches depth n next expected)
        (fun _ _ => True) db
  | 0, _, _, _, _ => trivial
  | n + 1, next, expected, db, hh => by
      have hkept : ∀ {height expected} (db db' : Db), Db.HeadersKept db db' →
          db.Hung height expected → db'.Hung height expected := fun _ _ hk hh => hh.kept hk
      refine wp_then (wp_fetching (R := fun _ => True) hkept
        (commits_ask.mpr fun rounds _ => tipRounds_commits rounds) hh) (fun _ _ => trivial) ?_
      rintro tip db₁ ⟨hh₁, -⟩
      dsimp only
      split
      · exact wp_copyBatches depth n next expected hh₁
      have hle : next - (headerBatchSize - 1) ≤ next := Nat.sub_le _ _
      generalize next - (headerBatchSize - 1) = low at hle
      obtain ⟨m, rfl⟩ := Nat.exists_eq_add_of_le hle
      refine wp_then (wp_fetching hkept (fetchBatch_commits _ _) hh₁) (fun _ _ => trivial) ?_
      rintro ⟨batch, last⟩ db₂ ⟨hh₂, hb⟩
      have hdown : (heightsUpTo low (low + m)).reverse = downTo low (m + 1) := by
        rw [reverse_heightsUpTo]
        exact congrArg (downTo low) (by omega)
      rw [hdown] at hb
      have hkept₂ : ∀ {db₃}, headerRely .headers db₂ db₃ → db₃.Hung (low + (m + 1)) expected :=
        fun hrely => hh₂.kept (hrely rfl)
      refine wp_ask.mpr fun now _ => ?_
      dsimp only
      split_ifs with hzero
      · refine wp_last.mpr fun db₃ hinv hrely => ⟨fun db₄ hc hexec => ?_, fun _ _ => trivial⟩
        have hexec : Txn.exec N cfg (.headerBatch batch "done" now) db₃ = .ok db₄ := hexec
        obtain ⟨hinv', -⟩ :=
          Db.HeadersHold.batch hinv (hkept₂ hrely) hb (fun _ => hzero) hc.1.2 hexec
        exact ⟨hinv', ⟨fun hne => absurd rfl hne, hinv'.linked⟩, trivial⟩
      · refine wp_commit.mpr fun db₃ hinv hrely => ⟨fun db₄ hc hexec => ?_, fun _ _ => trivial⟩
        have hprogress : Nat.repr (low - 1) = "done" → low = 0 := fun h =>
          absurd h (Text.repr_ne_of_not_digit (by decide))
        have hexec : Txn.exec N cfg (.headerBatch batch (Nat.repr (low - 1)) now) db₃ = .ok db₄ :=
          hexec
        obtain ⟨hinv', hh'⟩ := Db.HeadersHold.batch hinv (hkept₂ hrely) hb hprogress hc.1.2 hexec
        refine ⟨hinv', ⟨fun hne => absurd rfl hne, hinv'.linked⟩, ?_⟩
        have hnext : db₄.Hung (low - 1 + 1) last := by
          rw [Nat.sub_add_cancel (Nat.pos_of_ne_zero hzero)]
          exact hh' (Nat.pos_of_ne_zero hzero)
        exact wp_copyBatches depth n (low - 1) last hnext

theorem wp_archiveRounds : ∀ (n : ℕ) {db : Db},
    wp (headerSetting N cfg allow .headers) (archiveRounds n)
      (onOk fun first db => ∃ low ≤ first, db.lowestRecordedHeight = some low) db
  | 0, _ => trivial
  | n + 1, db => by
      refine wp_get.mpr fun db₁ _ _ => ?_
      rcases hfirst : db₁.archiveFirstHeight with _ | first
      · exact wp_archiveRounds n
      · obtain ⟨⟨b, hb, -, rfl⟩, -⟩ := Db.archiveFirstHeight_iff_rows.mp hfirst
        rcases hl : db₁.lowestRecordedHeight with _ | low
        · rw [Db.lowestRecordedHeight, List.min?_eq_none_iff, List.map_eq_nil_iff] at hl
          exact absurd (hl ▸ hb) List.not_mem_nil
        · exact ⟨low, (Db.lowestRecordedHeight_iff.mp hl).2 b hb, hl⟩

theorem wp_backfillHeaders (depth : ℕ) (db : Db) :
    wp (headerSetting N cfg allow .headers) (backfillHeaders depth) (fun _ _ => True) db := by
  refine wp_ask.mpr fun rounds _ => wp_then (wp_archiveRounds rounds) (fun _ _ => trivial) ?_
  rintro first db₁ ⟨low, hle, hlow⟩
  refine wp_get.mpr fun db₂ hinv hrely => ?_
  split_ifs
  · exact trivial
  obtain ⟨low₂, hle₂, hlow₂⟩ := Db.lowest_le_of_grows (hrely rfl).grows hlow
  refine wp_get.mpr fun db₃ hinv₃ hrely₃ => ?_
  obtain ⟨low₃, hle₃, hlow₃⟩ := Db.lowest_le_of_grows (hrely₃ rfl).grows hlow₂
  rw [hlow₃, Option.getD_some]
  rcases low₃ with _ | next
  · refine wp_last.mpr fun db₄ hinv hrely₄ => ⟨fun db₅ _ hexec => ?_, fun _ _ => trivial⟩
    obtain rfl := Except.ok.inj hexec
    obtain ⟨low₄, hle₄, hlow₄⟩ := Db.lowest_le_of_grows (hrely₄ rfl).grows hlow₃
    rw [Nat.le_zero.mp hle₄] at hlow₄
    have hl : (db₄.setState headerBackfillKey "done").HeadersLinked :=
      ⟨hinv.linked.alone, hinv.linked.interval, hinv.linked.linked, hinv.linked.canonical⟩
    exact ⟨⟨hl, hinv.refers.keepsHeaders ⟨rfl, rfl⟩, fun _ => Or.inl hlow₄⟩,
      ⟨fun hne => absurd rfl hne, hl⟩, trivial⟩
  · refine wp_get.mpr fun db₄ hinv₄ hrely₄ => ?_
    rcases hlink : db₄.canonicalLinkAt (next + 1) with _ | ⟨hash, parent⟩
    · exact trivial
    refine wp_ask.mpr fun rounds _ => wp_copyBatches depth rounds next parent ⟨?_, fun hhas => ?_⟩
    · exact Db.lowest_le_of_grows (hrely₄ rfl).grows hlow₃
    · exact ⟨(((hrely₄ rfl).still hhas).2.1).trans hlow₃, hash, hlink⟩

/-- The other jobs are judged by their transactions alone. -/
theorem wp_headers {p : Program Unit} (h : Job N cfg i p) (db : Db) :
    wp (headerSetting N cfg allow i) p (fun _ _ => True) db := by
  by_cases hi : i = .headers
  · subst hi
    cases h with
    | headers => exact wp_backfillHeaders _ db
  · refine wp_of_commits (fun db t db' ht hinv hc hexec => ?_) (h.by (bodySource_any N allow))
    obtain ⟨hinv', hkept⟩ := Db.HeadersHold.other hinv ht hi hc.1.1 hc.2 hexec
    exact ⟨hinv', fun _ => hkept, hinv'.linked⟩

theorem Db.headersHold_empty (noGenesis : Prop) : Db.empty.HeadersHold noGenesis :=
  ⟨Db.headersLinked_of_none rfl, fun _ hr => absurd hr List.not_mem_nil, fun h => nomatch h⟩

/-! ## The run -/

/-- A batch of headers goes down. -/
def Txn.Descends (t : Txn) : Prop := ∀ batch progress now, t = .headerBatch batch progress now →
  batch.Pairwise fun a b => b.height < a.height

theorem Job.descends {p : Program Unit} (h : Job N cfg i p) :
    p.Commits allow Txn.Descends fun _ => True := by
  by_cases hi : i = .headers
  · subst hi
    cases h with
    | headers =>
      refine backfillHeaders_commits (fun batch hdesc _ progress now => ?_)
        (fun _ _ _ h => nomatch h) _
      rintro _ _ _ ⟨⟩
      exact hdesc
  · refine commits_mono (fun t ht batch progress now heq => ?_) (fun _ hr => hr)
      (h.by (bodySource_any N allow))
    subst heq
    exact absurd trivial (ht.not_headers hi).1

/-- **Linked headers were begun right below the archive.** -/
theorem Txn.beginsBelowFirst_of_linked (hdesc : t.Descends) (hlog : db.LogRefers)
    (hexec : t.exec N cfg db = .ok db') (hl : db'.HeadersLinked) : t.BeginsBelowFirst db := by
  match t with
  | .headerBatch batch progress now =>
    intro hnone h hhead
    obtain ⟨rest, hrest⟩ := List.head?_eq_some_iff.mp hhead
    obtain ⟨db₁, hins, rfl⟩ := map_ok.mp hexec
    rw [Db.insertHeaders_unrecorded, hrest] at hins
    obtain ⟨db₂, hhangs, hlog₂, hins⟩ :=
      Db.insertHeaders_cons (Db.unrecorded_cons hrest) hlog hins
    have hlt : ∀ g ∈ rest, g.height < h.height := by
      have hpart := (hdesc batch progress now rfl).sublist (db.unrecorded_sublist batch)
      rw [hrest] at hpart
      exact fun g hg => List.rel_of_pairwise_cons hpart hg
    have hbelow := Db.hungBelow_insertHeaders hlog₂ hlt hins
    have hall := hhangs.below.trans (hbelow.mono (Nat.le_succ _))
    obtain ⟨⟨row, hrows, hrh, hrhash, hra, -⟩, -, -, -⟩ := hhangs
    obtain ⟨new, hrows₁, hnew⟩ := hbelow.rows
    have hmem : row ∈ db₁.blocks.rows := by
      rw [hrows₁, hrows]
      simp
    obtain ⟨low, first, hlow, hfirst, hle, hlt'⟩ :=
      (hl.interval row.height).mp ⟨row, hmem, hra, rfl⟩
    have hnext : first = h.height + 1 := by
      by_contra hne
      obtain ⟨b, hb, ha, hbh⟩ := (hl.interval (h.height + 1)).mpr
        ⟨low, first, hlow, hfirst, by omega, by omega⟩
      have hb : b ∈ db₁.blocks.rows := hb
      rw [hrows₁, hrows, List.mem_append, List.mem_append, List.mem_singleton] at hb
      rcases hb with (hb | rfl) | hb
      · exact absurd (Db.hasHeaders_iff.mpr ⟨b, hb, ha⟩) (by simp [hnone])
      · omega
      · have := (hnew b hb).2
        omega
    obtain ⟨hash, hlink⟩ := hl.linked row hmem hra
    have hlink : db₁.canonicalLinkAt (row.height + 1) = some (hash, row.hash) := hlink
    rw [hrh, hrhash, Db.canonicalLinkAt_congr (hall.slices _ le_rfl)] at hlink
    refine ⟨?_, by rw [hlink]; rfl⟩
    rw [← hnext, ← hall.first_eq]
    exact hfirst
  | .setState .. | .ingest .. | .gapBlock .. | .replace .. | .recover .. | .keepRaw ..
  | .fillGap .. | .fillRaw .. | .clearSpentInGap | .resolveGapsWithBodies _ | .pruneBlock _
  | .setTipSeen .. | .adoptTipSeen .. | .adoptProofClass .. | .sweepSegment .. | .sweepBalances _
  | .upsertBalances .. | .receipt .. => exact trivial

/-- **The headers below the archive, along a run** in which nothing moves at the archive's first
block once they hang there: they are linked in every database reached, and called done at genesis
only, if and only if the first batch begins below the archive's first block as it is by then. -/
theorem Execution.headers_linked_iff {tr : List (Db × Txn × Db)}
    {c : Prog.Config Query Query.Answer Db Txn String Thread} (h : Execution N cfg allow tr c)
    (hspare : ∀ x ∈ tr, x.2.1.SparesFirst x.1) :
    ((∀ x ∈ tr, x.2.1.BeginsBelowFirst x.1) →
        c.store.HeadersLinked ∧ c.store.DoneReaches (NoGenesis allow))
      ∧ ((∀ x ∈ tr, x.2.2.HeadersLinked) ↔ ∀ x ∈ tr, x.2.1.BeginsBelowFirst x.1) := by
  have hrun := fun hbegin : ∀ x ∈ tr, x.2.1.BeginsBelowFirst x.1 =>
    Run.rely_guarantee headerRely headerGuar (fun _ db _ => .refl db)
      (fun _ _ _ _ h h' hi => (h hi).trans (h' hi))
      (fun _ _ _ _ _ hij hg hj => hg.1 fun hi => hij (hi.trans hj.symm))
      (fun _ _ db hjob _ => wp_headers hjob db) (Db.headersHold_empty (NoGenesis allow)) h
      fun x hx => ⟨⟨hspare x hx, hbegin x hx⟩, h.founded x hx⟩
  refine ⟨fun hbegin => ⟨(hrun hbegin).1.linked, (hrun hbegin).1.done⟩, fun hlinked x hx => ?_,
    fun hbegin x hx => ?_⟩
  · have htr := (Run.invariant (fun _ _ hp => Job.descends hp)
      (fun _ _ _ _ hlog (_ : True) hexec => Txn.exec_logRefers hlog hexec)
      (fun _ hr => absurd hr List.not_mem_nil : Db.empty.LogRefers) h fun _ _ => trivial).2 x hx
    exact Txn.beginsBelowFirst_of_linked htr.2.1 htr.1 htr.2.2 (hlinked x hx)
  · obtain ⟨-, -, i, hguar⟩ := (hrun hbegin).2.2 x hx
    exact hguar.2

/-- The archive begins at height 1; then its parent is copied. -/
def headerStints : List (Stint Query Query.Answer Db Txn String Thread) :=
  [⟨.indexer, pollOnce Noid.sample {},
      fun _ => chainAnswers [bareBlock 0 "G" "", bodyBlock 1 "A" "G"] 1, 60⟩,
    ⟨.headers, backfillHeaders (Config.reorgCheckDepth {}),
      fun _ => chainAnswers [bareBlock 0 "G" "", bodyBlock 1 "A" "G"] 2, 60⟩]

theorem run_headerStints : Execution Noid.sample {} anyAnswer
    (traceAll (Txn.exec Noid.sample {}) headerStints Db.empty)
    (Config.idle (playAll (Txn.exec Noid.sample {}) headerStints Db.empty)) := by
  refine run_playAll Db.empty ?_
  simp only [headerStints, List.forall_mem_cons]
  exact ⟨⟨.poll, fun _ _ => trivial⟩, ⟨.headers, fun _ _ => trivial⟩, nofun⟩

/-- The header of genesis is linked to the archive. -/
theorem Execution.headers_linked_sample :
    (playAll (Txn.exec Noid.sample {}) headerStints Db.empty).hasHeaders = true
      ∧ (playAll (Txn.exec Noid.sample {}) headerStints Db.empty).HeadersLinked :=
  ⟨by decide +kernel,
    ((Execution.headers_linked_iff run_headerStints (by decide +kernel)).1 (by decide +kernel)).1⟩

/-- The first block of the archive is replaced between the reading of its parent and the copying. -/
def unlinkedTurns : List (Turn Query Query.Answer Db Txn String Thread) :=
  [⟨.indexer, some (pollOnce Noid.sample {}),
      fun _ => chainAnswers [bareBlock 0 "G" "", bodyBlock 1 "A" "G"] 1, 60⟩,
    ⟨.headers, some (backfillHeaders (Config.reorgCheckDepth {})),
      fun _ => chainAnswers [bareBlock 0 "G" "", bodyBlock 1 "A" "G"] 2, 8⟩,
    ⟨.indexer, some (pollOnce Noid.sample {}),
      fun _ => chainAnswers [bareBlock 0 "H" "", bodyBlock 1 "B" "H"] 3, 60⟩,
    ⟨.headers, none, fun _ => chainAnswers [bareBlock 0 "G" "", bodyBlock 1 "A" "G"] 4, 60⟩]

/-- The database after that. -/
def unlinkedEnd : Db := ((Config.idle Db.empty).turns (Txn.exec Noid.sample {}) unlinkedTurns).store

/-- **A header is put on record that is not the parent of the archive's first block any more.** -/
theorem Execution.headers_unlinked : ∃ tr c, Execution Noid.sample {} anyAnswer tr c
    ∧ (∀ x ∈ tr, x.2.1.SparesFirst x.1) ∧ ¬ c.store.HeadersLinked := by
  have hrun : Execution Noid.sample {} anyAnswer
      ((Config.idle Db.empty).turnsTrace (Txn.exec Noid.sample {}) unlinkedTurns)
      ((Config.idle Db.empty).turns (Txn.exec Noid.sample {}) unlinkedTurns) := by
    refine run_turns _ ?_
    simp only [unlinkedTurns, List.forall_mem_cons, Option.some.injEq, forall_eq', reduceCtorEq,
      false_implies, implies_true, true_and]
    exact ⟨⟨.poll, fun _ _ => trivial⟩, ⟨.headers, fun _ _ => trivial⟩, ⟨.poll, fun _ _ => trivial⟩,
      fun _ _ => trivial, nofun⟩
  have hbroken : ∃ b ∈ unlinkedEnd.blocks.rows, b.archived = false
      ∧ (unlinkedEnd.canonicalLinkAt (b.height + 1)).map Prod.snd ≠ some b.hash := by
    decide +kernel
  refine ⟨_, _, hrun, by decide +kernel, fun (hl : unlinkedEnd.HeadersLinked) => ?_⟩
  obtain ⟨b, hb, ha, hne⟩ := hbroken
  obtain ⟨hash, hlink⟩ := hl.linked b hb ha
  exact hne (by rw [hlink]; rfl)

end Permanode
