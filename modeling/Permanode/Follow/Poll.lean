import Permanode.Indexer.Slices
import Permanode.System.Issued

/-!
# Follow/Poll — a poll against a chain that stands still

While the node's chain does not change, a poll brings heights to it: those above the progress entry
(`wp_ingestHeights`) and those of a window below the tip that have a canonical block on record
(`wp_recheckHeights`).  Every other height keeps its slice.  **`wp_pollOnce`** puts the two
together.
-/

namespace Permanode

open Outcome Prog

/-! ## The node's chain -/

/-- The headers of a node's chain, from height 0 to its tip. -/
structure View where
  headers : List BlockHeaderInfo
  heights : headers.map BlockHeaderInfo.height = List.range headers.length
  nonempty : headers ≠ []
  bound : headers.length ≤ 2 ^ 64

namespace View

/-- The height of its last block. -/
def tip (v : View) : ℕ := v.headers.length - 1

/-- The hash the node reports at a height. -/
def hash (v : View) (height : ℕ) : Option String := v.headers[height]?.map BlockHeaderInfo.hash

/-- What the node answers: the header and the details, with a body or without, of every height up to
the tip.  The clock shows no time before `since`; the rest may be anything. -/
def answers (v : View) (since : Instant) : ∀ q : Query, q.Answer → Prop
  | .blockCount, r => r = .ok v.tip
  | .blockHeader height, r => r = .ok v.headers[height]?
  | .blockDetails height, r =>
    ∃ details : Option BlockDetailsInfo, r = .ok details
      ∧ details.map BlockDetailsInfo.header = v.headers[height]?
  | .now, t => since ≤ t
  | _, _ => True

variable {v : View} {height : ℕ} {h : BlockHeaderInfo}

theorem height_of_get (hget : v.headers[height]? = some h) : h.height = height := by
  have hlt : height < v.headers.length := (List.getElem?_eq_some_iff.mp hget).1
  have hmap := congrArg (·[height]?) v.heights
  simpa only [List.getElem?_map, hget, List.getElem?_range hlt, Option.map_some,
    Option.some.injEq] using hmap

theorem hash_of_get (hget : v.headers[height]? = some h) : v.hash height = some h.hash :=
  congrArg (Option.map BlockHeaderInfo.hash) hget

theorem length_eq (v : View) : v.headers.length = v.tip + 1 := by
  have := List.length_pos_iff.mpr v.nonempty
  rw [tip]
  omega

theorem get_of_le (h : height ≤ v.tip) : ∃ hd, v.headers[height]? = some hd := by
  have hlt : height < v.headers.length := by
    have := v.length_eq
    omega
  exact ⟨_, List.getElem?_eq_getElem hlt⟩

theorem hash_ne_none (h : height ≤ v.tip) : v.hash height ≠ none := by
  obtain ⟨hd, hget⟩ := get_of_le h
  rw [hash_of_get hget]
  exact Option.some_ne_none _

theorem lt_of_le (h : height ≤ v.tip) : height < 2 ^ 64 := by
  have := v.length_eq
  have := v.bound
  omega

end View

/-! ## What a poll rests on -/

/-- Every status entry is of a block on record, and every block is of the archive. -/
structure Db.Sound (db : Db) : Prop where
  log : db.LogRefers
  archived : ∀ b ∈ db.blocks.rows, b.archived

/-- No operation but the header backfill's records a block outside the archive. -/
theorem Op.archived_apply {l : Ledger} (op : Op)
    (hop : ∀ height hash, op ≠ .enterHeader height hash)
    (h : ∀ e ∈ l.entries.rows, e.archived) : ∀ e ∈ (op.apply l).entries.rows, e.archived := by
  have henter : ∀ {height : ℕ} {hash : String} {captured : Bool},
      ∀ e ∈ (l.enter height hash true captured).entries.rows, e.archived := by
    intro height hash captured e he
    rcases Table.mem_insert he with he | rfl
    · exact h e he
    · rfl
  have hflags : ∀ {id : ℕ} {f : Bool → Bool} {c : Bool}, (∀ a, a = true → f a = true) →
      ∀ e ∈ (l.setFlags id f c).rows, e.archived := by
    intro id f c hf e he
    obtain ⟨e₀, he₀, ⟨-, rfl⟩ | ⟨-, rfl⟩⟩ := Ledger.mem_setFlags.mp he
    · exact h e he₀
    · exact hf _ (h e₀ he₀)
  match op with
  | .enterBody .. => exact henter
  | .enterGap .. => exact henter
  | .enterHeader height hash => exact absurd rfl (hop height hash)
  | .fill .. => exact hflags fun _ _ => rfl
  | .prune _ => exact hflags fun _ ha => ha
  | .attach _ =>
    rw [Op.apply]
    split_ifs <;> exact h
  | .orphan _ | .openGap _ | .closeBodied => exact h

variable {N : Noid} {cfg : Config} {v : View} {since : Instant} {t : Txn} {db db' db'' : Db}

theorem Db.Sound.exec (hs : db.Sound) (hg : t.Genuine)
    (hops : ∀ op ∈ t.ops db, ∀ height hash, op ≠ .enterHeader height hash)
    (hexec : t.exec N cfg db = .ok db') (hlog : db'.LogRefers) : db'.Sound := by
  refine ⟨hlog, fun b hb => ?_⟩
  have hall : ∀ (ops : List Op) (l : Ledger),
      (∀ op ∈ ops, ∀ height hash, op ≠ .enterHeader height hash) →
      (∀ e ∈ l.entries.rows, e.archived) → ∀ e ∈ (Op.applyAll ops l).entries.rows, e.archived := by
    intro ops
    induction ops with
    | nil => exact fun l _ h => h
    | cons op ops ih =>
      exact fun l hops h => ih _ (fun o ho => hops o (List.mem_cons_of_mem _ ho))
        (op.archived_apply (hops op List.mem_cons_self) h)
  have hentry : b.entry ∈ db'.ledger.entries.rows := List.mem_map_of_mem hb
  rw [Txn.exec_ledger hg hexec] at hentry
  refine hall (t.ops db) db.ledger hops (fun e he => ?_) b.entry hentry
  obtain ⟨b', hb', rfl⟩ := List.mem_map.mp he
  exact hs.archived b' hb'

theorem storeOps_ne_header {details : BlockDetailsInfo} :
    ∀ op ∈ db.storeOps details, ∀ height hash, op ≠ .enterHeader height hash := by
  intro op hop height hash
  unfold Db.storeOps at hop
  split at hop
  · exact absurd hop List.not_mem_nil
  · dsimp only at hop
    split_ifs at hop
    · split at hop
      · exact absurd hop List.not_mem_nil
      · rw [List.mem_singleton.mp hop]
        exact nofun
    · rw [List.mem_singleton.mp hop]
      exact nofun

theorem gapOps_ne_header {details : BlockDetailsInfo} :
    ∀ op ∈ db.gapOps details, ∀ height hash, op ≠ .enterHeader height hash := by
  intro op hop height hash
  unfold Db.gapOps at hop
  dsimp only at hop
  split_ifs at hop <;> rw [List.mem_singleton.mp hop] <;> exact nofun

theorem Txn.Quiet.exec (ht : t.Quiet) (hs : db.Sound) (hexec : t.exec N cfg db = .ok db') :
    db'.Sound ∧ db.KeepsHeaders db' ∧ db'.lastProcessed = db.lastProcessed := by
  have hkeep : db.KeepsHeaders db' := by
    match t with
    | .setState .. =>
      obtain rfl := Except.ok.inj hexec
      exact ⟨rfl, rfl⟩
    | .recover .. => exact Db.keepsHeaders_recoverBody hexec
    | .keepRaw .. =>
      obtain rfl := Except.ok.inj hexec
      exact Db.keepsHeaders_keepRaw ..
  have hprogress : db'.lastProcessed = db.lastProcessed := by
    refine Txn.exec_lastProcessed ?_ hexec
    rintro value rfl
    exact ht rfl
  refine ⟨hs.exec ?_ ?_ hexec (hs.log.keepsHeaders hkeep), hkeep, hprogress⟩ <;>
  · match t with
    | .setState .. | .recover .. | .keepRaw .. => simp [Txn.Genuine, Txn.ops]

theorem Db.ClockedAt.mono {height : ℕ} {hash : String} {now : Instant}
    (h : db.ClockedAt height hash since) (hle : since ≤ now) : db.ClockedAt height hash now :=
  fun x hx hh s hs => (h x hx hh s hs).trans hle

/-- The progress entry of a height. -/
theorem Db.lastProcessed_setProgress {height : ℕ} (h : height < 2 ^ 64) :
    (db.setState lastProcessedKey (Nat.repr height)).lastProcessed = some height := by
  rw [lastProcessed, getState_setState, if_pos rfl, Option.bind_some, Text.parseU64_repr h,
    Option.map_some, UInt64.toNat_ofNat_of_lt' h]

/-- The canonical block of a height, by the hash. -/
theorem Db.hashAt_eq_none {height : ℕ} :
    db.hashAt height = none ↔ db.canonicalHashAt height = none :=
  Option.map_eq_none_iff

/-- What a poll does, `low` being the lowest height it ingests. -/
structure Db.Polled (v : View) (depth low : ℕ) (db db' : Db) : Prop where
  progress : db'.lastProcessed = if low ≤ v.tip then some v.tip else db.lastProcessed
  ingested : ∀ k, low ≤ k → k ≤ v.tip → db'.hashAt k = v.hash k
  rechecked : ∀ k, k < low → k ≤ v.tip → v.tip ≤ k + depth →
    (db.hashAt k ≠ none → db'.hashAt k = v.hash k)
    ∧ (db.hashAt k = none → db'.slice k = db.slice k)
  others : ∀ k, k < low ∧ k + depth < v.tip ∨ v.tip < k → db'.slice k = db.slice k

/-! ## The parts of a poll -/

/-- The setting of a poll that has the database to itself. -/
abbrev followSetting (N : Noid) (cfg : Config) (v : View) (since : Instant) :
    Setting Query Query.Answer Db Txn String :=
  ⟨v.answers since, Txn.exec N cfg, Db.Sound, Eq, fun _ _ _ => True, fun _ _ => True⟩

namespace Follow

theorem wp_quiet {α : Type} {p : Program α} {R : α → Prop}
    (h : p.Commits (v.answers since) Txn.Quiet R) (db : Db) :
    wp (followSetting N cfg v since) p
      (onOk fun a db' => R a ∧ db.KeepsHeaders db' ∧ db'.lastProcessed = db.lastProcessed) db := by
  refine wp_mono (fun r db' hr => ?_) (wp_of_commits_keeping
    (I := fun db' => db.KeepsHeaders db' ∧ db'.lastProcessed = db.lastProcessed) ?_ ?_ h
    ⟨.refl db, rfl⟩)
  · rcases r with e | a
    · exact trivial
    · exact ⟨hr.2 a rfl, hr.1⟩
  · intro db₁ t db₂ ht hs hi _ hexec
    obtain ⟨hs', hkeep, hlast⟩ := ht.exec hs hexec
    exact ⟨hs', trivial, hi.1.trans hkeep, hlast.trans hi.2⟩
  · exact fun _ _ _ hrely hi => hrely ▸ hi

/-- **A height that is ingested is brought to the node's chain.** -/
theorem wp_ingestHeight {height : ℕ} {h : BlockHeaderInfo} (hget : v.headers[height]? = some h)
    (hclock : db.ClockedAt height h.hash since) :
    wp (followSetting N cfg v since) (ingestHeight N cfg height)
      (onOk fun more db' => more = true ∧ db.Writes h db' ∧ db'.lastProcessed = db.lastProcessed)
      db := by
  have hh : h.height = height := v.height_of_get hget
  refine wp_ask.mpr fun answer hanswer => ?_
  obtain ⟨details?, rfl, hdetails⟩ := hanswer
  rcases details? with _ | details
  · exact absurd (hdetails.trans hget) nofun
  have hheader : details.header = h := Option.some.inj (hdetails.trans hget)
  refine wp_then (wp_quiet (resolveBody_commits (H := (· = h)) (bodySource_any N _)
    (fun _ _ => trivial) hheader _) db) (fun _ _ => trivial) ?_
  rintro (⟨details, source, raw⟩ | ⟨details, note⟩) db₁ ⟨hout, hk₁, hl₁⟩
  · refine wp_then (wp_quiet (rawOrFetch_commits raw _ height) db₁) (fun _ _ => trivial)
      fun raw' db₂ ⟨_, hk₂, hl₂⟩ => ?_
    refine wp_ask.mpr fun now hnow => wp_commit.mpr fun db₃ hs hrely =>
      ⟨fun db₄ _ hexec => ?_, fun _ _ => trivial⟩
    obtain rfl := hrely
    have hkeep := hk₁.trans hk₂
    obtain ⟨hg, rfl, -⟩ := hout
    obtain ⟨hw, hlog⟩ := Db.writes_storeKept hs.log (fun x hx => (hclock.mono hnow) x
      (by rwa [hh, hkeep.slice] at hx)) hexec
    have hw₄ : db.Writes details.header db₄ :=
      ⟨hw.own, fun k hne => (hw.others k hne).trans (hkeep.slice k)⟩
    have hl₄ : db₄.lastProcessed = db.lastProcessed :=
      (Txn.exec_lastProcessed (t := .ingest height details source raw' now)
        (fun _ h => Txn.noConfusion h) hexec).trans (hl₂.trans hl₁)
    refine ⟨hs.exec (t := .ingest height details source raw' now) hg storeOps_ne_header hexec hlog,
      trivial, ?_⟩
    rcases raw' with _ | raw'
    · exact ⟨rfl, hw₄, hl₄⟩
    · dsimp only
      split_ifs
      · have hself : (selfcheck N height details raw').Commits (v.answers since) Txn.Quiet
            fun _ => True := selfcheck_commits height details raw' fun _ => mismatches_ne_processed
        refine wp_then (wp_quiet hself db₄) (fun _ _ => trivial)
          fun _ db₅ ⟨_, hk₅, hl₅⟩ => ?_
        exact ⟨rfl, hw₄.keepsHeaders hk₅, hl₅.trans hl₄⟩
      · exact ⟨rfl, hw₄, hl₄⟩
  · refine wp_ask.mpr fun now hnow => wp_commit.mpr fun db₂ hs hrely =>
      ⟨fun db₃ _ hexec => ?_, fun _ _ => trivial⟩
    obtain rfl := hrely
    obtain rfl : details.header = h := hout
    obtain ⟨hw, hlog⟩ := Db.writes_recordGapBlock hs.log (fun x hx => (hclock.mono hnow) x
      (by rwa [hh, hk₁.slice] at hx)) hexec
    have hexec : Txn.exec N cfg (.gapBlock details note now) db₁ = .ok db₃ := hexec
    refine ⟨hs.exec (t := .gapBlock details note now) trivial gapOps_ne_header hexec hlog, trivial,
      rfl, ⟨hw.own, fun k hne => (hw.others k hne).trans (hk₁.slice k)⟩, ?_⟩
    exact (Txn.exec_lastProcessed (t := .gapBlock details note now)
      (fun _ h => Txn.noConfusion h) hexec).trans hl₁

/-- The ingest loop over the `n` heights from `height` on, none of which is on record. -/
theorem wp_ingestHeights : ∀ (n height : ℕ) {db : Db},
    (∀ k, height ≤ k → k < height + n → k ≤ v.tip) → (∀ k, height ≤ k → db.slice k = []) →
    wp (followSetting N cfg v since) (ingestHeights N cfg (List.range' height n))
      (onOk fun _ db' => (∀ k, height ≤ k → k < height + n → db'.hashAt k = v.hash k)
        ∧ (∀ k, k < height ∨ height + n ≤ k → db'.slice k = db.slice k)
        ∧ db'.lastProcessed = if n = 0 then db.lastProcessed else some (height + n - 1)) db
  | 0, height, db, _, _ => ⟨fun k hk hlt => by omega, fun k _ => rfl, rfl⟩
  | n + 1, height, db, hle, hempty => by
      obtain ⟨h, hget⟩ := v.get_of_le (hle height le_rfl (by omega))
      have hclock : db.ClockedAt height h.hash since := by
        rw [Db.ClockedAt, hempty height le_rfl]
        exact fun x hx => absurd hx List.not_mem_nil
      refine wp_then (wp_ingestHeight hget hclock) (fun _ _ => trivial) ?_
      rintro _ db₁ ⟨rfl, hw, hl⟩
      obtain rfl := v.height_of_get hget
      refine wp_commit.mpr fun db₂ hs hrely => ⟨fun db₃ _ hexec => ?_, fun _ _ => trivial⟩
      obtain rfl := hrely
      obtain rfl := Except.ok.inj hexec
      refine ⟨⟨hs.log, hs.archived⟩, trivial, ?_⟩
      have hempty' : ∀ k, h.height + 1 ≤ k →
          (db₁.setState lastProcessedKey (Nat.repr h.height)).slice k = [] := fun k hk =>
        (hw.others k (by omega)).trans (hempty k (by omega))
      refine wp_mono (fun r db₄ hr => ?_) (wp_ingestHeights n (h.height + 1)
        (fun k hk hlt => hle k (by omega) (by omega)) hempty')
      rcases r with e | _
      · exact trivial
      obtain ⟨hown, hothers, hlast⟩ := hr
      refine ⟨fun k hk hlt => ?_, fun k hk => ?_, ?_⟩
      · by_cases hkh : k = h.height
        · subst hkh
          rw [v.hash_of_get hget, ← hw.own]
          exact Db.hashAt_congr (hothers h.height (Or.inl (Nat.lt_succ_self _)))
        · exact hown k (by omega) (by omega)
      · exact (hothers k (by omega)).trans (hw.others k (by omega))
      · rw [hlast, if_neg (Nat.succ_ne_zero n)]
        split_ifs with hn
        · subst hn
          exact Db.lastProcessed_setProgress (v.lt_of_le (hle _ le_rfl (by omega)))
        · exact congrArg some (by omega)

/-! ## The re-check -/

/-- **A replacement brings its height to the node's chain.** -/
theorem writes_replace {height old : ℕ} {orphanedAt now : Instant} {hash : String}
    {r : BodyOutcome} {b : BlockRow} (hs : db.Sound) (hb : b ∈ db.blocks.rows) (hid : b.id = old)
    (hheight : b.height = r.header.height) (hhash : b.hash ≠ r.header.hash) (hg : r.Genuine)
    (hclock : db.ClockedAt r.header.height r.header.hash now)
    (hexec : (Txn.replace height old orphanedAt hash (some r) now).exec N cfg db = .ok db') :
    db'.Sound ∧ db.Writes r.header db' ∧ db'.lastProcessed = db.lastProcessed := by
  have hreplace := hexec
  simp only [Txn.exec, Db.replaceBlock, Db.markOrphaned, bind_ok] at hreplace
  obtain ⟨db₁, h₁, h₂⟩ := hreplace
  split_ifs at h₁
  obtain rfl := Except.ok.inj h₁
  have hlog : (db.appendStatus old .orphaned orphanedAt).LogRefers :=
    hs.log.appendStatus ⟨b, hb, hid⟩
  -- the entries of the block that returns are none of those just written
  have hclock' : (db.appendStatus old .orphaned orphanedAt).ClockedAt r.header.height
      r.header.hash now := by
    rintro x hx hxh s hsx
    obtain ⟨c, hc, rfl⟩ := List.mem_map.mp hx
    obtain ⟨hc, hch⟩ := List.mem_filter.mp hc
    have hne : c.id ≠ old := by
      intro hcid
      obtain rfl := db.blocks.eq_of_clash hc hb (decide_eq_true (Or.inl (hcid.trans hid.symm)))
      exact hhash hxh
    refine hclock (c.bare, db.statusesOf c.id) ?_ hxh s ?_
    · exact List.mem_map.mpr ⟨c, List.mem_filter.mpr ⟨hc, hch⟩, rfl⟩
    · rw [Db.statusesOf_appendStatus, if_neg hne] at hsx
      exact hsx
  have hslice : ∀ k, k ≠ r.header.height →
      (db.appendStatus old .orphaned orphanedAt).slice k = db.slice k := fun k hk =>
    Db.slice_appendStatus fun c hc hcid hch => hk (by
      obtain rfl := db.blocks.eq_of_clash hc hb (decide_eq_true (Or.inl (hcid.trans hid.symm)))
      exact hch.symm.trans hheight)
  have hwrites : (db.appendStatus old .orphaned orphanedAt).Writes r.header db'
    ∧ db'.LogRefers := by
    rcases r with ⟨details, source, raw⟩ | ⟨details, note⟩
    · exact Db.writes_storeKept hlog hclock' h₂
    · exact Db.writes_recordGapBlock hlog hclock' h₂
  have hgen : (Txn.replace height old orphanedAt hash (some r) now).Genuine := by
    rintro _ ⟨⟩
    exact hg
  refine ⟨hs.exec hgen ?_ hexec hwrites.2, ⟨hwrites.1.own, fun k hk =>
    (hwrites.1.others k hk).trans (hslice k hk)⟩,
    Txn.exec_lastProcessed (fun _ h => Txn.noConfusion h) hexec⟩
  rintro op hop k hash' rfl
  rcases List.mem_cons.mp hop with hop | hop
  · cases hop
  · rcases r with ⟨details, source, raw⟩ | ⟨details, note⟩
    · exact storeOps_ne_header _ hop k hash' rfl
    · exact gapOps_ne_header _ hop k hash' rfl

/-- **A height that is re-checked is brought to the node's chain**, if it has a canonical block. -/
theorem wp_recheckHeight {height : ℕ} {h : BlockHeaderInfo} (hget : v.headers[height]? = some h)
    (hclock : db.hashAt height ≠ some h.hash → db.ClockedAt height h.hash since) :
    wp (followSetting N cfg v since) (recheckHeight N cfg height)
      (onOk fun _ db' => (db.hashAt height ≠ none → db'.hashAt height = some h.hash)
        ∧ (db.hashAt height = none → db'.slice height = db.slice height)
        ∧ (∀ k, k ≠ height → db'.slice k = db.slice k) ∧ db'.lastProcessed = db.lastProcessed)
      db := by
  have hh : h.height = height := v.height_of_get hget
  refine wp_ask.mpr fun answer hanswer => ?_
  obtain rfl : answer = .ok (some h) := hanswer.trans (congrArg _ hget)
  refine wp_ask.mpr fun now hnow => wp_get.mpr fun db₀ hs hrely => ?_
  obtain rfl := hrely
  rcases hknown : db.canonicalHashAt height with _ | ⟨blockId, knownHash⟩
  · exact ⟨fun hne => absurd (Db.hashAt_eq_none.mpr hknown) hne, fun _ => rfl, fun _ _ => rfl, rfl⟩
  have hhash : db.hashAt height = some knownHash := by rw [Db.hashAt, hknown]; rfl
  have hsome : db.hashAt height ≠ none := by rw [hhash]; exact Option.some_ne_none _
  dsimp only
  split_ifs with heq
  · exact ⟨fun _ => hhash.trans (congrArg some heq), fun _ => rfl, fun _ _ => rfl, rfl⟩
  refine wp_get.mpr fun db₀ _ hrely => ?_
  obtain rfl := hrely
  obtain ⟨b, hb, hbid, hbh, rfl⟩ := Db.mem_of_canonicalHashAt hknown
  have harch : db.isHeaderOnly blockId = false := by
    rw [Db.isHeaderOnly, ← hbid, Db.block?_eq_some hb, Option.any_some, hs.archived b hb]
    rfl
  rw [harch, if_neg Bool.false_ne_true]
  have hfetch : (fetchReplacement N cfg height).Commits (v.answers since) Txn.Quiet
      fun r => (∀ out ∈ r, out.Issued (fun _ => True) (· = h)) ∧ (r = none → _) :=
    fetchReplacement_commits (bodySource_any N _) fun details hdetails => by
      obtain ⟨_, hok, hd⟩ := hdetails
      obtain rfl := Except.ok.inj hok
      exact Option.some.inj (hd.trans hget)
  refine wp_then (wp_quiet hfetch db) (fun _ _ => trivial) fun r db₁ h₁ => ?_
  obtain ⟨⟨hr, hnone⟩, hk₁, hl₁⟩ := h₁
  refine wp_then (wp_quiet (withRaw_commits hr) db₁) (fun _ _ => trivial) fun r' db₂ h₂ => ?_
  obtain ⟨⟨hr', hnone'⟩, hk₂, hl₂⟩ := h₂
  refine wp_ask.mpr fun later hlater => wp_last.mpr fun db₃ hs₃ hrely =>
    ⟨fun db₄ _ hexec => ?_, fun _ _ => trivial⟩
  obtain rfl := hrely
  have hkeep := hk₁.trans hk₂
  rcases r' with _ | out
  · obtain ⟨_, hok, hd⟩ := hnone (hnone' rfl)
    obtain rfl := Except.ok.inj hok
    cases hd.trans hget
  have hout : out.Genuine ∧ out.header = h := by
    rcases out with ⟨details, source, raw⟩ | ⟨details, note⟩
    · exact ⟨(hr' _ rfl).1, (hr' _ rfl).2.1⟩
    · exact ⟨trivial, hr' _ rfl⟩
  obtain ⟨hg, rfl⟩ := hout
  -- the block on record is still there under its id
  obtain ⟨b', hb', hbare⟩ : ∃ b' ∈ db₂.blocks.rows, b'.bare = b.bare := by
    have hmem : b.bare ∈ db₂.blocks.rows.map BlockRow.bare :=
      hkeep.headers ▸ List.mem_map_of_mem hb
    exact List.mem_map.mp hmem
  have hexec' : Txn.exec N cfg (.replace height blockId now out.header.hash (some out) later) db₂
    = .ok db₄ := hexec
  obtain ⟨hs₄, hw, hl₄⟩ := writes_replace hs₃ hb' ((congrArg BlockRow.id hbare).trans hbid)
    ((congrArg BlockRow.height hbare).trans (hbh.trans hh.symm))
    (fun h => heq ((congrArg BlockRow.hash hbare).symm.trans h)) hg (fun x hx =>
      ((hclock (fun h => heq (Option.some.inj (hhash.symm.trans h)))).mono hlater) x
        (by rwa [hh, hkeep.slice] at hx)) hexec'
  refine ⟨hs₄, trivial, fun _ => hh ▸ hw.own, fun hn => absurd hn hsome, fun k hk => ?_, ?_⟩
  · exact (hw.others k (hh ▸ hk)).trans (hkeep.slice k)
  · exact hl₄.trans (hl₂.trans hl₁)

/-- The re-check of the `n` heights from `height` on. -/
theorem wp_recheckHeights : ∀ (n height : ℕ) {db : Db},
    (∀ k, height ≤ k → k < height + n → k ≤ v.tip) →
    (∀ k, height ≤ k → k < height + n → ∀ hash, db.hashAt k ≠ some hash →
      v.hash k = some hash → db.ClockedAt k hash since) →
    wp (followSetting N cfg v since) (Prog.each (recheckHeight N cfg) (List.range' height n))
      (onOk fun _ db' => (∀ k, height ≤ k → k < height + n →
          (db.hashAt k ≠ none → db'.hashAt k = v.hash k)
          ∧ (db.hashAt k = none → db'.slice k = db.slice k))
        ∧ (∀ k, k < height ∨ height + n ≤ k → db'.slice k = db.slice k)
        ∧ db'.lastProcessed = db.lastProcessed) db
  | 0, height, db, _, _ => ⟨fun k hk hlt => by omega, fun k _ => rfl, rfl⟩
  | n + 1, height, db, hle, hclock => by
      obtain ⟨h, hget⟩ := v.get_of_le (hle height le_rfl (by omega))
      refine wp_then (wp_recheckHeight hget fun hne => hclock height le_rfl (by omega) h.hash hne
        (v.hash_of_get hget)) (fun _ _ => trivial) ?_
      rintro _ db₁ ⟨hown, hnone, hothers, hl⟩
      have hclock' : ∀ k, height + 1 ≤ k → k < height + 1 + n → ∀ hash,
          db₁.hashAt k ≠ some hash → v.hash k = some hash → db₁.ClockedAt k hash since := by
        intro k hk hlt hash hne hv
        have hsame := hothers k (by omega)
        rw [Db.ClockedAt, hsame]
        exact hclock k (by omega) (by omega) hash (Db.hashAt_congr hsame ▸ hne) hv
      refine wp_mono (fun r db₂ hr => ?_) (wp_recheckHeights n (height + 1)
        (fun k hk hlt => hle k (by omega) (by omega)) hclock')
      rcases r with e | _
      · exact trivial
      obtain ⟨hrest, hothers', hl'⟩ := hr
      refine ⟨fun k hk hlt => ?_, fun k hk => ?_, hl'.trans hl⟩
      · by_cases hkh : k = height
        · subst hkh
          have hsame := hothers' k (Or.inl (Nat.lt_succ_self _))
          exact ⟨fun hne => (Db.hashAt_congr hsame).trans
            ((hown hne).trans (v.hash_of_get hget).symm), fun hn => hsame.trans (hnone hn)⟩
        · have hsame := hothers k hkh
          rw [← Db.hashAt_congr hsame, ← hsame]
          exact hrest k (by omega) (by omega)
      · exact (hothers' k (by omega)).trans (hothers k (by omega))

/-! ## The poll -/

/-- The heights a poll ingests are those above the progress, or any to the tip of a fresh
database. -/
theorem wp_heightsToIngest (db : Db) :
    wp (followSetting N cfg v since) (heightsToIngest v.tip)
      (onOk fun heights db' => db' = db ∧ ∃ low, heights = List.range' low (v.tip + 1 - low)
        ∧ ∀ last, db.lastProcessed = some last → low = last + 1) db := by
  refine wp_get.mpr fun db₀ _ hrely => ?_
  obtain rfl := hrely
  rcases hl : db.lastProcessed with _ | last
  · have hprobe : (probeBodies v.tip
        (heightsUpTo (v.tip - getblockServingWindow) v.tip).reverse).Commits (v.answers since)
        (fun _ => False) fun _ => True := probeBodies_commits _ _
    exact wp_then (wp_silently (I := fun db' => db' = db)
      (fun _ _ _ hrely hi => Eq.trans (Eq.symm hrely) hi) hprobe rfl) (fun _ _ => trivial)
      fun _ _ h => ⟨h.1, _, rfl, nofun⟩
  · exact ⟨rfl, last + 1, rfl, fun _ h => congrArg (· + 1) (Option.some.inj h)⟩

/-- **What a poll does against a chain that stands still**, when nothing above the progress is on
record and the clock is not behind the status log. -/
theorem wp_pollOnce (hclock : ∀ s ∈ db.blockStatusLog.rows, s.observedAt ≤ since)
    (hnone : db.lastProcessed = none → ∀ k, db.slice k = [])
    (habove : ∀ last, db.lastProcessed = some last → ∀ k, last < k → db.slice k = []) :
    wp (followSetting N cfg v since) (pollOnce N cfg)
      (onOk fun _ db' => ∃ low, (∀ last, db.lastProcessed = some last → low = last + 1)
        ∧ db.Polled v cfg.reorgCheckDepth low db') db := by
  refine wp_ask.mpr fun answer hanswer => ?_
  obtain rfl : answer = .ok v.tip := hanswer
  refine wp_then (p := heightsToIngest v.tip) (wp_heightsToIngest db) (fun _ _ => trivial) ?_
  rintro _ db₀ ⟨rfl, low, rfl, hlow⟩
  have hempty : ∀ k, low ≤ k → db₀.slice k = [] := by
    intro k hk
    rcases hl : db₀.lastProcessed with _ | last
    · exact hnone hl k
    · have := hlow last hl
      exact habove last hl k (by omega)
  refine wp_then (wp_ingestHeights (v.tip + 1 - low) low (fun k _ hk => by omega) hempty)
    (fun _ _ => trivial) fun _ db₁ ⟨hown, hothers, hl₁⟩ => ?_
  have hslice : ∀ k, k < low → db₁.slice k = db₀.slice k := fun k hk => hothers k (Or.inl hk)
  have hclock₁ : ∀ k, k ≤ v.tip → ∀ hash, db₁.hashAt k ≠ some hash → v.hash k = some hash →
      db₁.ClockedAt k hash since := by
    intro k hk hash hne hv
    by_cases hkl : k < low
    · rw [Db.ClockedAt, hslice k hkl]
      rintro x hx - s hs
      obtain ⟨b, -, rfl⟩ := List.mem_map.mp hx
      exact hclock s (List.mem_filter.mp hs).1
    · exact absurd ((hown k (by omega) (by omega)).trans hv) hne
  refine wp_then (wp_recheckHeights (v.tip + 1 - (v.tip - cfg.reorgCheckDepth))
    (v.tip - cfg.reorgCheckDepth) (fun k _ hk => by omega) fun k _ hk => hclock₁ k (by omega))
    (fun _ _ => trivial) fun _ db₂ ⟨hwindow, hrest, hl₂⟩ => ?_
  have hgaps : (retryGaps N cfg v.tip).Commits (v.answers since) Txn.Quiet fun _ => True :=
    retryGaps_commits (bodySource_any N _) v.tip fun _ _ _ _ _ _ _ => trivial
  refine wp_then (wp_quiet hgaps db₂) (fun _ _ => trivial)
    fun _ db₃ ⟨_, hk₃, hl₃⟩ => ?_
  refine wp_mono (fun r db₄ hr => ?_) (wp_quiet (retryRaw_commits v.tip fun _ _ _ _ => trivial) db₃)
  rcases r with e | _
  · exact trivial
  obtain ⟨-, hk₄, hl₄⟩ := hr
  have hkeep := hk₃.trans hk₄
  refine ⟨low, hlow, ?_, fun k hk hle => ?_, fun k hk hle hwin => ?_, fun k hk => ?_⟩
  · rw [hl₄, hl₃, hl₂, hl₁]
    by_cases hle : low ≤ v.tip
    · rw [if_pos hle, if_neg (by omega)]
      exact congrArg some (by omega)
    · rw [if_neg hle, if_pos (by omega)]
  · rw [Db.hashAt_congr (hkeep.slice k)]
    have hnew : db₁.hashAt k = v.hash k := hown k hk (by omega)
    by_cases hwin : v.tip - cfg.reorgCheckDepth ≤ k
    · exact (hwindow k hwin (by omega)).1 (hnew ▸ v.hash_ne_none hle)
    · exact (Db.hashAt_congr (hrest k (Or.inl (by omega)))).trans hnew
  · rw [Db.hashAt_congr (hkeep.slice k), hkeep.slice k, ← hslice k hk,
      ← Db.hashAt_congr (hslice k hk)]
    exact hwindow k (by omega) (by omega)
  · exact (hkeep.slice k).trans ((hrest k (by omega)).trans (hothers k (by omega)))

end Follow

end Permanode
