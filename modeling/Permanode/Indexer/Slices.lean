import Permanode.Indexer.Frames

/-!
# Indexer/Slices — the record of one height

A height is known by its blocks and their status entries: its *slice*.  Its canonical block is read
off the slice (`Db.canonicalHashAt_congr`).  What is stored of a body leaves every slice as it is
(`Db.KeepsHeaders`); a header or a status entry moves the slice of its own height only.
-/

namespace Permanode

open Outcome

/-- The columns a header fills; those of its body, and what is learned later, are blank. -/
def BlockRow.bare (b : BlockRow) : BlockRow :=
  { b with
    proofClass := none
    rewardMicronoid := none
    totalFeesMicronoid := none
    bodyCaptured := false
    bodySource := none
    contractsScanned := none
    txCountTotal := none
    tipSeenAtMs := none }

/-- The databases have the same headers and the same status log. -/
structure Db.KeepsHeaders (db db' : Db) : Prop where
  headers : db'.blocks.rows.map BlockRow.bare = db.blocks.rows.map BlockRow.bare
  log : db'.blockStatusLog = db.blockStatusLog

namespace Db

variable {db db' db'' : Db}

/-! ## Bodies leave headers alone -/

theorem KeepsHeaders.refl (db : Db) : db.KeepsHeaders db := ⟨rfl, rfl⟩

/-- One after the other. -/
theorem KeepsHeaders.trans (h : db.KeepsHeaders db') (h' : db'.KeepsHeaders db'') :
    db.KeepsHeaders db'' :=
  ⟨h'.1.trans h.1, h'.2.trans h.2⟩

/-- Other columns of `blocks` may change. -/
theorem keepsHeaders_updateBlocks {p : BlockRow → Bool} {f : BlockRow → BlockRow}
    {hf : ∀ r s, Row.clash (f r) s = Row.clash r s} (h : ∀ b, (f b).bare = b.bare) :
    db.KeepsHeaders (db.updateBlocks p f hf) := by
  refine ⟨?_, rfl⟩
  rw [updateBlocks, Table.rows_modify, List.map_map]
  refine List.map_congr_left fun b _ => ?_
  simp only [Function.comp, Table.updated]
  split_ifs
  · exact h b
  · rfl

/-- The rows of a body are in other tables. -/
theorem keepsHeaders_insertAll {blockId : ℕ} : ∀ {txs : List BlockTransactionInfo} {db : Db},
    txs.foldlM (insertTransaction blockId) db = .ok db' → db.KeepsHeaders db'
  | [], db, h => by
      obtain rfl := pure_ok.mp h
      exact .refl _
  | tx :: txs, db, h => by
      rw [List.foldlM_cons, bind_ok] at h
      obtain ⟨db₁, h₁, h₂⟩ := h
      simp only [insertTransaction, bind_ok, pure_ok] at h₁
      obtain ⟨_, _, rfl⟩ := h₁
      refine KeepsHeaders.trans ?_ (keepsHeaders_insertAll h₂)
      exact ⟨rfl, rfl⟩

/-- A body that is written changes no header. -/
theorem keepsHeaders_insertTransactions {blockId : ℕ} {retained : RetainedBlockInfo}
    (h : db.insertTransactions blockId retained = .ok db') : db.KeepsHeaders db' := by
  simp only [insertTransactions, bind_ok] at h
  obtain ⟨_, _, h⟩ := h
  have hfields : db.KeepsHeaders (db.setBodyFields blockId retained) :=
    keepsHeaders_updateBlocks fun _ => rfl
  exact hfields.trans (keepsHeaders_insertAll h)

/-- Nor does the mark that it is there. -/
theorem keepsHeaders_markBodyRecovered (db : Db) (blockId : ℕ) (source : String) :
    db.KeepsHeaders (db.markBodyRecovered blockId source) := keepsHeaders_updateBlocks fun _ => rfl

/-- Nor do its contract flags. -/
theorem keepsHeaders_recordContractFlags (N : Noid) (db : Db) (height : ℕ) (hash : String)
    (raw : Option (List UInt8)) : db.KeepsHeaders (db.recordContractFlags N height hash raw) := by
  have hset : ∀ flags, db.KeepsHeaders (db.setContractFlags height hash flags) := by
    intro flags
    unfold setContractFlags
    split
    · exact .refl _
    · refine KeepsHeaders.trans ?_ (keepsHeaders_updateBlocks fun _ => rfl)
      exact ⟨rfl, rfl⟩
  unfold recordContractFlags
  repeat' split
  all_goals first | exact .refl _ | exact hset _

theorem keepsHeaders_storeRaw {N : Noid} {height : ℕ} {hash : String} {bytes : List UInt8}
    {source : String} {now : Instant} {stored : Bool}
    (h : db.storeRaw N height hash bytes source now = .ok (db', stored)) : db.KeepsHeaders db' := by
  unfold storeRaw at h
  split at h
  · obtain ⟨rfl, -⟩ := Prod.mk.inj (Except.ok.inj h)
    exact .refl _
  · split_ifs at h
    · obtain ⟨rfl, -⟩ := Prod.mk.inj (Except.ok.inj h)
      exact .refl _
    · simp only [bind_ok, pure_ok, Prod.mk.injEq] at h
      obtain ⟨_, _, rfl, _⟩ := h
      exact ⟨rfl, rfl⟩

/-- Raw bytes are in a table of their own. -/
theorem keepsHeaders_keepRaw (N : Noid) (cfg : Config) (db : Db) (height : ℕ) (hash : String)
    (bytes : Option (List UInt8)) (source : String) (now : Instant) :
    db.KeepsHeaders (db.keepRaw N cfg height hash bytes source now) := by
  unfold keepRaw
  split_ifs
  · split
    · exact .refl _
    · split
      · next h => exact keepsHeaders_storeRaw h
      · exact .refl _
  · exact .refl _

/-- **Recovering a body changes no header and no status.** -/
theorem keepsHeaders_recoverBody {N : Noid} {cfg : Config} {height blockId : ℕ} {hash : String}
    {retained : RetainedBlockInfo} {raw : List UInt8} {now : Instant}
    (h : db.recoverBody N cfg height hash blockId retained raw now = .ok db') :
    db.KeepsHeaders db' := by
  simp only [recoverBody, bind_ok, pure_ok] at h
  obtain ⟨db₁, h₁, rfl⟩ := h
  have hmark : db.KeepsHeaders (db₁.markBodyRecovered blockId "getblock") :=
    (keepsHeaders_insertTransactions h₁).trans (keepsHeaders_markBodyRecovered ..)
  exact (hmark.trans (keepsHeaders_recordContractFlags ..)).trans
    ((keepsHeaders_keepRaw ..).trans ⟨rfl, rfl⟩)

/-- **Neither does filling a gap.** -/
theorem keepsHeaders_fillBody {N : Noid} {height blockId : ℕ} {hash : String}
    {body : RetainedBlockInfo} {bytes : Option (List UInt8)} {source resolution : String}
    {keep : Bool} {now : Instant}
    (h : db.fillBody N height hash blockId body bytes source resolution keep now = .ok db') :
    db.KeepsHeaders db' := by
  simp only [fillBody, bind_ok] at h
  obtain ⟨db₁, h₁, h₂⟩ := h
  have hmark : db.KeepsHeaders (db₁.markBodyRecovered blockId source) :=
    (keepsHeaders_insertTransactions h₁).trans (keepsHeaders_markBodyRecovered ..)
  rcases bytes with _ | bytes
  · simp only [bind_ok, pure_ok] at h₂
    obtain ⟨_, rfl, rfl⟩ := h₂
    exact hmark.trans ⟨rfl, rfl⟩
  · split_ifs at h₂
    · simp only [bind_ok, map_ok, pure_ok] at h₂
      obtain ⟨_, ⟨⟨db₂, stored⟩, hraw, rfl⟩, rfl⟩ := h₂
      exact (hmark.trans (keepsHeaders_recordContractFlags ..)).trans
        ((keepsHeaders_storeRaw hraw).trans ⟨rfl, rfl⟩)
    · simp only [bind_ok, pure_ok] at h₂
      obtain ⟨_, rfl, rfl⟩ := h₂
      exact hmark.trans ((keepsHeaders_recordContractFlags ..).trans ⟨rfl, rfl⟩)

/-! ## Slices -/

/-- The blocks of a height with their status entries. -/
def slice (db : Db) (height : ℕ) : List (BlockRow × List StatusRow) :=
  (db.blocks.rows.filter fun b => b.height = height).map fun b => (b.bare, db.statusesOf b.id)

/-- A height reads as before. -/
theorem KeepsHeaders.slice (h : db.KeepsHeaders db') (height : ℕ) :
    db'.slice height = db.slice height := by
  have hbare : ∀ db : Db, db.slice height
      = ((db.blocks.rows.map BlockRow.bare).filter fun b => b.height = height).map
        fun b => (b, db.statusesOf b.id) := fun db => by
    rw [List.filter_map, List.map_map]
    rfl
  rw [hbare, hbare, h.headers]
  refine congrArg (fun f => List.map f _) (funext fun b => ?_)
  rw [statusesOf, statusesOf, h.log]

/-- The canonical entries of the latest moment of each block of a slice. -/
def canonicalEntries (x : BlockRow × List StatusRow) : List (BlockRow × StatusRow) :=
  (x.2.filter fun s => s.observedAt = (x.2.map StatusRow.observedAt).foldr max 0
    ∧ s.status = .canonical).map (x.1, ·)

/-- **`canonicalHashAt` looks at one height only.** -/
theorem canonicalHashAt_slice (db : Db) (height : ℕ) : db.canonicalHashAt height
    = (List.argmax (fun x : BlockRow × StatusRow => x.2.id)
      ((db.slice height).flatMap canonicalEntries)).map fun x => (x.1.id, x.1.hash) := by
  have hentries : (db.slice height).flatMap canonicalEntries
      = (db.canonicalEntriesAt height).map fun x => (x.1.bare, x.2) := by
    rw [slice, canonicalEntriesAt, List.flatMap_map, List.map_flatMap]
    refine congrArg (fun f => List.flatMap f _) (funext fun b => ?_)
    rw [List.map_map]
    rfl
  rw [hentries, argmax_map, Option.map_map]
  rfl

/-- **The canonical block of a height is read off its slice.** -/
theorem canonicalHashAt_congr {height : ℕ} (h : db'.slice height = db.slice height) :
    db'.canonicalHashAt height = db.canonicalHashAt height := by
  rw [canonicalHashAt_slice, canonicalHashAt_slice, h]

/-- The hash of the canonical block on record at a height. -/
def hashAt (db : Db) (height : ℕ) : Option String := (db.canonicalHashAt height).map Prod.snd

/-- So what it reads is the same where the height is. -/
theorem hashAt_congr {height : ℕ} (h : db'.slice height = db.slice height) :
    db'.hashAt height = db.hashAt height := by
  rw [hashAt, hashAt, canonicalHashAt_congr h]

/-- A height that has a canonical block has a row. -/
theorem slice_ne_nil {height : ℕ} (h : db.hashAt height ≠ none) : db.slice height ≠ [] := by
  intro hnil
  refine h ?_
  rw [hashAt, canonicalHashAt_slice, hnil]
  rfl

/-- A height with a block on record has something to read. -/
theorem slice_ne_nil_iff {height : ℕ} :
    db.slice height ≠ [] ↔ ∃ b ∈ db.blocks.rows, b.height = height := by
  rw [slice, ne_eq, List.map_eq_nil_iff, List.filter_eq_nil_iff]
  simp

/-- On record is what reads as canonical. -/
theorem isOnRecord_iff {h : BlockHeaderInfo} :
    db.isOnRecord h ↔ db.hashAt h.height = some h.hash := by
  rw [isOnRecord, hashAt, Option.any_eq_true, Option.map_eq_some_iff]
  simp

/-! ## What moves a slice -/

/-- A status entry moves the slice of its block's height only. -/
theorem slice_appendStatus {id height : ℕ} {status : Status} {now : Instant}
    (h : ∀ b ∈ db.blocks.rows, b.id = id → b.height ≠ height) :
    (db.appendStatus id status now).slice height = db.slice height := by
  refine List.map_congr_left fun b hb => ?_
  obtain ⟨hb, hh⟩ := List.mem_filter.mp hb
  have hid : b.id ≠ id := fun hid => h b hb hid (of_decide_eq_true hh)
  rw [statusesOf_appendStatus, if_neg hid]

/-- Every status entry is of a block on record. -/
def LogRefers (db : Db) : Prop :=
  ∀ s ∈ db.blockStatusLog.rows, ∃ b ∈ db.blocks.rows, b.id = s.blockId

/-- The log still refers to blocks that are there. -/
theorem LogRefers.keepsHeaders (hlog : db.LogRefers) (h : db.KeepsHeaders db') : db'.LogRefers := by
  intro s hs
  obtain ⟨b, hb, hid⟩ := hlog s (h.log ▸ hs)
  have hbare : b.bare ∈ db'.blocks.rows.map BlockRow.bare := h.headers ▸ List.mem_map_of_mem hb
  obtain ⟨b', hb', hbb⟩ := List.mem_map.mp hbare
  exact ⟨b', hb', (congrArg BlockRow.id hbb).trans hid⟩

/-- So it does with an entry for one of them. -/
theorem LogRefers.appendStatus {id : ℕ} {status : Status} {now : Instant} (hlog : db.LogRefers)
    (hid : ∃ b ∈ db.blocks.rows, b.id = id) : (db.appendStatus id status now).LogRefers := by
  intro s hs
  rcases Table.mem_insert hs with hs | rfl
  · exact hlog s hs
  · exact hid

/-- No entry of the block `hash` at `height` is later than `now`. -/
def ClockedAt (db : Db) (height : ℕ) (hash : String) (now : Instant) : Prop :=
  ∀ x ∈ db.slice height, x.1.hash = hash → ∀ s ∈ x.2, s.observedAt ≤ now

/-- The header is the canonical one of its height, and every other height is as it was. -/
structure Writes (h : BlockHeaderInfo) (db db' : Db) : Prop where
  own : db'.hashAt h.height = some h.hash
  others : ∀ k, k ≠ h.height → db'.slice k = db.slice k

variable {h : BlockHeaderInfo} {captured : Bool} {source : Option String} {now : Instant} {id : ℕ}

/-- The row of a header, with its entry: where it is, and what is there besides. -/
theorem insertBlockHeaderRow_cases
    (hins : db.insertBlockHeaderRow h captured source now = .ok (db', id)) :
    ∃ db₁ : Db, db' = db₁.appendStatus id .canonical now ∧ db₁.blockStatusLog = db.blockStatusLog
      ∧ (∃ b ∈ db₁.blocks.rows, b.id = id ∧ b.height = h.height ∧ b.hash = h.hash)
      ∧ (∀ b ∈ db.blocks.rows, b ∈ db₁.blocks.rows)
      ∧ (∀ b ∈ db₁.blocks.rows, b ∈ db.blocks.rows ∨ b.id = db.blocks.nextId BlockRow.id)
      ∧ ∀ k, k ≠ h.height → db₁.slice k = db.slice k := by
  simp only [insertBlockHeaderRow, bind_ok, orError_ok, pure_ok, Prod.mk.injEq] at hins
  obtain ⟨id', hid, rfl, rfl⟩ := hins
  refine ⟨_, rfl, rfl, ?_, fun b hb => Table.mem_insert_of_mem hb, fun b hb => ?_, fun k hk => ?_⟩
  · obtain ⟨b, hb, rfl⟩ := Option.map_eq_some_iff.mp hid
    exact ⟨b, List.mem_of_find?_eq_some hb, rfl, by simpa using List.find?_some hb⟩
  · rcases Table.mem_insert hb with hb | rfl
    · exact Or.inl hb
    · exact Or.inr rfl
  · rcases Table.rows_insert_cases db.blocks
      (headerRow (db.blocks.nextId BlockRow.id) h captured source now) with ⟨hrows, -⟩ | ⟨hsame, -⟩
    · have hne : ¬ h.height = k := fun hh => hk hh.symm
      rw [slice, hrows, List.filter_append, List.filter_singleton]
      simp [headerRow, hne, slice, statusesOf]
    · rw [hsame]

/-- A block comes with its first entry. -/
theorem LogRefers.insertBlockHeaderRow (hlog : db.LogRefers)
    (hins : db.insertBlockHeaderRow h captured source now = .ok (db', id)) : db'.LogRefers := by
  obtain ⟨db₁, rfl, hsame, ⟨b, hb, hid, -⟩, hold, -⟩ := insertBlockHeaderRow_cases hins
  refine LogRefers.appendStatus (fun s hs => ?_) ⟨b, hb, hid⟩
  obtain ⟨b', hb', hid'⟩ := hlog s (hsame ▸ hs)
  exact ⟨b', hold b' hb', hid'⟩

/-- **A header that is written is the canonical one of its height**, if the clock does not show a
time before the block's last entry. -/
theorem writes_insertBlockHeaderRow (hlog : db.LogRefers)
    (hclock : db.ClockedAt h.height h.hash now)
    (hins : db.insertBlockHeaderRow h captured source now = .ok (db', id)) : Writes h db db' := by
  obtain ⟨db₁, rfl, hsame, ⟨b, hb, rfl, hh, hhash⟩, -, hnew, hslice⟩ :=
    insertBlockHeaderRow_cases hins
  refine ⟨?_, fun k hk => (slice_appendStatus fun b' hb' hid => ?_).trans (hslice k hk)⟩
  swap
  · obtain rfl := db₁.blocks.eq_of_clash hb' hb (decide_eq_true (Or.inl hid))
    exact fun hh' => hk (hh'.symm.trans hh)
  let entry : StatusRow := ⟨db₁.blockStatusLog.nextId StatusRow.id, b.id, .canonical, now⟩
  let db₂ := db₁.appendStatus b.id .canonical now
  have hstat : db₂.statusesOf b.id = db₁.statusesOf b.id ++ [entry] :=
    (statusesOf_appendStatus ..).trans (if_pos rfl)
  have hold : ∀ s ∈ db₁.statusesOf b.id, s.observedAt ≤ now := by
    intro s hs
    rw [statusesOf, hsame] at hs
    rcases hnew b hb with hmem | hid
    · have hx : (b.bare, db.statusesOf b.id) ∈ db.slice h.height :=
        List.mem_map.mpr ⟨b, List.mem_filter.mpr ⟨hmem, decide_eq_true hh⟩, rfl⟩
      exact hclock _ hx hhash s hs
    · obtain ⟨hs, hsid⟩ := List.mem_filter.mp hs
      obtain ⟨b', hb', hid'⟩ := hlog s hs
      have hlt : b'.id < db.blocks.nextId BlockRow.id := Table.lt_nextId hb'
      have hb : s.blockId = b.id := of_decide_eq_true hsid
      omega
  have hlast : db₂.lastObservedAt b.id = now := by
    rw [lastObservedAt, hstat, List.map_append]
    refine le_antisymm (List.max_le_of_forall_le _ now fun t ht => ?_)
      (Table.le_foldr_max (List.mem_append_right _ (List.mem_singleton_self _)))
    rcases List.mem_append.mp ht with ht | ht
    · obtain ⟨s, hs, rfl⟩ := List.mem_map.mp ht
      exact hold s hs
    · exact (List.mem_singleton.mp ht).le
  have hlogrows : db₂.blockStatusLog.rows = db₁.blockStatusLog.rows ++ [entry] :=
    Table.rows_insert_of_free fun s hs => by simpa [Row.clash] using (Table.lt_nextId hs).ne
  have hmax : List.argmax (fun x : BlockRow × StatusRow => x.2.id) (db₂.canonicalEntriesAt h.height)
      = some (b, entry) := by
    refine argmax_eq_of_forall ?_ ?_
    · refine List.mem_flatMap.mpr ⟨b, List.mem_filter.mpr ⟨hb, decide_eq_true hh⟩, ?_⟩
      refine List.mem_map.mpr ⟨entry, List.mem_filter.mpr
        ⟨?_, decide_eq_true ⟨hlast.symm, rfl⟩⟩, rfl⟩
      exact hstat ▸ List.mem_append_right _ (List.mem_singleton_self _)
    · rintro ⟨b', s⟩ hx
      obtain ⟨b'', hb'', hs⟩ := List.mem_flatMap.mp hx
      obtain ⟨s', hs', hpair⟩ := List.mem_map.mp hs
      obtain ⟨rfl, rfl⟩ := Prod.mk.inj hpair
      obtain ⟨hmem, hsid⟩ := List.mem_filter.mp (List.mem_filter.mp hs').1
      rcases List.mem_append.mp (hlogrows ▸ hmem) with hmem | hmem
      · exact Or.inl (Table.lt_nextId hmem)
      · obtain rfl := List.mem_singleton.mp hmem
        have hid : b''.id = b.id := (of_decide_eq_true hsid).symm
        exact Or.inr (Prod.ext (db₁.blocks.eq_of_clash (List.mem_filter.mp hb'').1 hb
          (decide_eq_true (Or.inl hid))) rfl)
  have hcanon : db₂.canonicalHashAt h.height = some (b.id, b.hash) := by
    rw [canonicalHashAt, hmax]
    rfl
  rw [← hhash]
  exact congrArg (Option.map Prod.snd) hcanon

theorem Writes.keepsHeaders (hw : Writes h db db') (hk : db'.KeepsHeaders db'') :
    Writes h db db'' :=
  ⟨(hashAt_congr (hk.slice _)).trans hw.own, fun k hne => (hk.slice k).trans (hw.others k hne)⟩

/-- A block that is on record is not written again. -/
theorem writes_of_onRecord (hrec : db.isOnRecord h) (hk : db.KeepsHeaders db') : Writes h db db' :=
  ⟨(hashAt_congr (hk.slice _)).trans (isOnRecord_iff.mp hrec), fun k _ => hk.slice k⟩

/-- **A block with its body is on record, or its header is written**; nothing else moves a
header. -/
theorem storeKept_cases {N : Noid} {cfg : Config} {height : ℕ} {details : BlockDetailsInfo}
    {source : String} {raw : Option (List UInt8)}
    (hs : db.storeKept N cfg height details source raw now = .ok db') :
    db.isOnRecord details.header ∧ db.KeepsHeaders db'
      ∨ ∃ db₁ id, db.insertBlockHeaderRow details.header true (some source) now = .ok (db₁, id)
        ∧ db₁.KeepsHeaders db' := by
  simp only [storeKept, storeBlock, bind_ok, pure_ok] at hs
  obtain ⟨db₁, ⟨retained, -, h₁⟩, rfl⟩ := hs
  have hkept := (keepsHeaders_recordContractFlags N db₁ height details.header.hash raw).trans
    (keepsHeaders_keepRaw N cfg _ height details.header.hash raw "node" now)
  split_ifs at h₁ with hrec
  · refine Or.inl ⟨hrec, KeepsHeaders.trans ?_ hkept⟩
    split at h₁
    · obtain rfl := pure_ok.mp h₁
      exact .refl _
    · simp only [bind_ok, pure_ok] at h₁
      obtain ⟨db₂, h₂, rfl⟩ := h₁
      exact (keepsHeaders_insertTransactions h₂).trans
        ((keepsHeaders_markBodyRecovered ..).trans ⟨rfl, rfl⟩)
  · simp only [bind_ok] at h₁
    obtain ⟨⟨db₂, id⟩, h₂, h₃⟩ := h₁
    exact Or.inr ⟨db₂, id, h₂, (keepsHeaders_insertTransactions h₃).trans hkept⟩

/-- The same of a block without its body. -/
theorem recordGapBlock_cases {details : BlockDetailsInfo} {note : String}
    (hs : db.recordGapBlock details note now = .ok db') :
    db.isOnRecord details.header ∧ db.KeepsHeaders db'
      ∨ ∃ db₁ id, db.insertBlockHeaderRow details.header false none now = .ok (db₁, id)
        ∧ db₁.KeepsHeaders db' := by
  unfold recordGapBlock at hs
  dsimp only at hs
  split_ifs at hs with hrec
  · obtain rfl := pure_ok.mp hs
    exact Or.inl ⟨hrec, ⟨rfl, rfl⟩⟩
  · simp only [bind_ok, pure_ok] at hs
    obtain ⟨⟨db₁, id⟩, h₁, rfl⟩ := hs
    exact Or.inr ⟨db₁, id, h₁, ⟨rfl, rfl⟩⟩

/-- **A block with its body is written at its height and nowhere else.** -/
theorem writes_storeKept {N : Noid} {cfg : Config} {height : ℕ} {details : BlockDetailsInfo}
    {source : String} {raw : Option (List UInt8)} (hlog : db.LogRefers)
    (hclock : db.ClockedAt details.header.height details.header.hash now)
    (hs : db.storeKept N cfg height details source raw now = .ok db') :
    Writes details.header db db' ∧ db'.LogRefers := by
  rcases storeKept_cases hs with ⟨hrec, hkeep⟩ | ⟨db₁, id, hins, hkeep⟩
  · exact ⟨writes_of_onRecord hrec hkeep, hlog.keepsHeaders hkeep⟩
  · exact ⟨(writes_insertBlockHeaderRow hlog hclock hins).keepsHeaders hkeep,
      (hlog.insertBlockHeaderRow hins).keepsHeaders hkeep⟩

/-- **So is one without.** -/
theorem writes_recordGapBlock {details : BlockDetailsInfo} {note : String} (hlog : db.LogRefers)
    (hclock : db.ClockedAt details.header.height details.header.hash now)
    (hs : db.recordGapBlock details note now = .ok db') :
    Writes details.header db db' ∧ db'.LogRefers := by
  rcases recordGapBlock_cases hs with ⟨hrec, hkeep⟩ | ⟨db₁, id, hins, hkeep⟩
  · exact ⟨writes_of_onRecord hrec hkeep, hlog.keepsHeaders hkeep⟩
  · exact ⟨(writes_insertBlockHeaderRow hlog hclock hins).keepsHeaders hkeep,
      (hlog.insertBlockHeaderRow hins).keepsHeaders hkeep⟩

/-! ## Header-only blocks -/

/-- **A header below the archive is there already, or gets a row of its own**: nothing is on record
at its height. -/
theorem insertHeaderOnlyBlock_cases {inserted : Bool}
    (hins : db.insertHeaderOnlyBlock h now = .ok (db', inserted)) :
    inserted = false ∧ db' = db ∧ h.hash ∈ db.hashesAt h.height
      ∨ inserted = true ∧ db.hashesAt h.height = []
        ∧ ∃ db₁ : Db, db₁.blocks.rows = db.blocks.rows
            ++ [headerRow (db.blocks.nextId BlockRow.id) h false (some headerOnlySource) now]
          ∧ db₁ = { db with blocks := db₁.blocks }
          ∧ db' = db₁.appendStatus (db.blocks.nextId BlockRow.id) .canonical now := by
  unfold insertHeaderOnlyBlock at hins
  split_ifs at hins with hmem
  · obtain ⟨rfl, rfl⟩ := Prod.mk.inj (Except.ok.inj hins)
    exact Or.inl ⟨rfl, rfl, hmem⟩
  split at hins
  · exact nomatch hins
  · next hnone =>
    have hempty : db.hashesAt h.height = [] := List.head?_eq_none_iff.mp hnone
    obtain ⟨rfl, rfl⟩ := Prod.mk.inj (Except.ok.inj hins)
    refine Or.inr ⟨rfl, hempty, _, Table.rows_insert_of_free fun b hb => ?_, rfl, rfl⟩
    have hheight : b.height ≠ h.height := by
      intro hh
      have hb : b.hash ∈ db.hashesAt h.height :=
        List.mem_map_of_mem (List.mem_filter.mpr ⟨hb, decide_eq_true hh⟩)
      rw [hempty] at hb
      exact List.not_mem_nil hb
    have hid : b.id ≠ db.blocks.nextId BlockRow.id := (Table.lt_nextId hb).ne
    simp [Row.clash, headerRow, hheight, hid]

theorem LogRefers.insertHeaderOnlyBlock {inserted : Bool} (hlog : db.LogRefers)
    (hins : db.insertHeaderOnlyBlock h now = .ok (db', inserted)) : db'.LogRefers := by
  rcases insertHeaderOnlyBlock_cases hins with ⟨-, rfl, -⟩ | ⟨-, -, db₁, hrows, hsame, rfl⟩
  · exact hlog
  · have hlog₁ : db₁.blockStatusLog = db.blockStatusLog := by rw [hsame]
    have hrow : headerRow (db.blocks.nextId BlockRow.id) h false (some headerOnlySource) now
        ∈ db₁.blocks.rows := by
      rw [hrows]
      exact List.mem_append_right _ (List.mem_singleton_self _)
    refine LogRefers.appendStatus (fun s hs => ?_) ⟨_, hrow, rfl⟩
    obtain ⟨b, hb, hid⟩ := hlog s (hlog₁ ▸ hs)
    exact ⟨b, hrows ▸ List.mem_append_left _ hb, hid⟩

/-! ## Transactions that enter no block -/

theorem keepsHeaders_upsertBalances (now : Instant) :
    ∀ (rows : List (String × String × ℕ)) (db : Db), db.KeepsHeaders (db.upsertBalances rows now)
  | [], db => .refl db
  | r :: rows, db => by
      have hfirst : db.KeepsHeaders (db.upsertAddressBalanceCache r.1 r.2.1 r.2.2 now) := ⟨rfl, rfl⟩
      exact hfirst.trans (keepsHeaders_upsertBalances now rows _)

/-- Pruning a body leaves its header. -/
theorem keepsHeaders_pruneBlock {blockId : ℕ} (h : db.pruneBlock blockId = .ok db') :
    db.KeepsHeaders db' := by
  unfold pruneBlock at h
  dsimp only at h
  split_ifs at h
  obtain rfl := Except.ok.inj h
  refine KeepsHeaders.trans ?_ (keepsHeaders_updateBlocks fun _ => rfl)
  exact ⟨rfl, rfl⟩

/-- A receipt changes the count of its block alone. -/
theorem keepsHeaders_insertReceiptTransaction {blockId : ℕ} {tx : ReceiptTransaction}
    {inserted : Bool} (h : db.insertReceiptTransaction blockId tx now = .ok (db', inserted)) :
    db.KeepsHeaders db' := by
  obtain ⟨-, -, -, ⟨-, rfl, -⟩ | ⟨-, hwrite, -⟩⟩ := insertReceiptTransaction_ok.mp h
  · exact .refl _
  · rw [(writeReceiptTransaction_ok hwrite).rest]
    refine KeepsHeaders.trans ?_ (keepsHeaders_updateBlocks fun _ => rfl)
    exact ⟨rfl, rfl⟩

end Db

/-- A transaction that may put a block, or a status of one, on record. -/
def Txn.Enters : Txn → Prop
  | .ingest .. | .gapBlock .. | .replace .. | .headerBatch .. => True
  | _ => False

/-- **Every other transaction keeps the headers and the status log.** -/
theorem Txn.exec_keepsHeaders {N : Noid} {cfg : Config} {t : Txn} {db db' : Db} (ht : ¬ t.Enters)
    (h : t.exec N cfg db = .ok db') : db.KeepsHeaders db' := by
  match t with
  | .ingest .. | .gapBlock .. | .replace .. | .headerBatch .. => exact absurd trivial ht
  | .recover .. => exact Db.keepsHeaders_recoverBody h
  | .fillGap .. => exact Db.keepsHeaders_fillBody h
  | .keepRaw .. =>
    obtain rfl := Except.ok.inj h
    exact Db.keepsHeaders_keepRaw ..
  | .fillRaw .. =>
    obtain ⟨⟨_, _⟩, hraw, rfl⟩ := map_ok.mp h
    exact Db.keepsHeaders_storeRaw hraw
  | .pruneBlock _ => exact Db.keepsHeaders_pruneBlock h
  | .setTipSeen .. | .adoptTipSeen .. =>
    obtain rfl := Except.ok.inj h
    exact Db.keepsHeaders_updateBlocks fun _ => rfl
  | .adoptProofClass .. =>
    obtain rfl := Except.ok.inj h
    unfold Db.adoptProofClass
    split_ifs
    · exact .refl _
    · exact Db.keepsHeaders_updateBlocks fun _ => rfl
  | .sweepBalances _ =>
    obtain rfl := Except.ok.inj h
    have hrows : ∀ db' : Db, db'.KeepsHeaders { db' with
        indexerState := db'.indexerState.delete
          fun r => r.key = "slot_scan_low" ∨ r.key = "slot_scan_high" } := fun _ => ⟨rfl, rfl⟩
    refine Db.KeepsHeaders.trans ?_ (hrows _)
    refine Db.KeepsHeaders.trans ?_ (Db.keepsHeaders_upsertBalances ..)
    exact ⟨rfl, rfl⟩
  | .upsertBalances .. =>
    obtain rfl := Except.ok.inj h
    exact Db.keepsHeaders_upsertBalances ..
  | .receipt .. =>
    rw [exec] at h
    split at h
    · next h' =>
      obtain rfl := Except.ok.inj h
      exact Db.keepsHeaders_insertReceiptTransaction h'
    · obtain rfl := Except.ok.inj h
      exact .refl _
  | .setState .. | .clearSpentInGap | .resolveGapsWithBodies _ | .sweepSegment .. =>
    obtain rfl := Except.ok.inj h
    exact ⟨rfl, rfl⟩

end Permanode
