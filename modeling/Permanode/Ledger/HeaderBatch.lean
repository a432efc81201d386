import Mathlib.Data.List.TakeWhile
import Permanode.Ledger.HeaderRows

/-!
# Ledger/HeaderBatch — a batch of headers

A batch committed right below the lowest row on record extends what hangs there
(`HeadersLinked.insertBatch`).  Headers that are on record already are passed over, so a batch
begins with the first that is not (`Db.unrecorded`).
-/

namespace Permanode

open Outcome

variable {noGenesis : Prop} {expected last : String} {low n : ℕ} {batch : List BlockHeaderInfo}

namespace Db

variable {db db' : Db} {now : Instant}

/-- The rest of a batch from the first header on that is not on record. -/
def unrecorded (db : Db) (batch : List BlockHeaderInfo) : List BlockHeaderInfo :=
  batch.dropWhile fun h => h.hash ∈ db.hashesAt h.height

theorem unrecorded_sublist (db : Db) (batch : List BlockHeaderInfo) :
    (db.unrecorded batch).Sublist batch := List.dropWhile_sublist _

/-- Headers on record are passed over. -/
theorem insertHeaders_unrecorded (now : Instant) (db : Db) : ∀ batch : List BlockHeaderInfo,
    db.insertHeaders now batch = db.insertHeaders now (db.unrecorded batch)
  | [] => rfl
  | h :: batch => by
      by_cases hmem : h.hash ∈ db.hashesAt h.height
      · have hskip : db.insertHeaderOnlyBlock h now = .ok (db, false) := by
          rw [insertHeaderOnlyBlock, if_pos hmem]
        have hdrop : db.unrecorded (h :: batch) = db.unrecorded batch :=
          List.dropWhile_cons_of_pos (decide_eq_true hmem)
        rw [hdrop, ← insertHeaders_unrecorded now db batch, insertHeaders, List.foldlM_cons, hskip]
        rfl
      · have hkeep : db.unrecorded (h :: batch) = h :: batch :=
          List.dropWhile_cons_of_neg (by simpa using hmem)
        rw [hkeep]

end Db

/-- What is left of a batch is a batch. -/
theorem Fetched.unrecorded (db : Db) (h : Fetched noGenesis expected (downTo low n) batch last) :
    ∃ m ≤ n, ∃ expected',
      Fetched noGenesis expected' (downTo low m) (db.unrecorded batch) last := by
  induction n generalizing expected batch with
  | zero =>
    cases h
    exact ⟨0, le_rfl, _, .done _⟩
  | succ n ih =>
    rw [downTo_succ] at h
    generalize hk : low + n = k at h
    cases h with
    | genesis _ _ hno =>
      refine ⟨n + 1, le_rfl, last, ?_⟩
      rw [downTo_succ, hk]
      exact .genesis _ _ hno
    | @header h _ batch _ hb =>
      by_cases hmem : h.hash ∈ db.hashesAt h.height
      · have hdrop : db.unrecorded (h :: batch) = db.unrecorded batch :=
          List.dropWhile_cons_of_pos (decide_eq_true hmem)
        obtain ⟨m, hm, expected', hrest⟩ := ih hb
        exact ⟨m, hm.trans (Nat.le_succ n), expected', hdrop ▸ hrest⟩
      · have hkeep : db.unrecorded (h :: batch) = h :: batch :=
          List.dropWhile_cons_of_neg (by simpa using hmem)
        refine ⟨n + 1, le_rfl, h.hash, ?_⟩
        rw [hkeep, downTo_succ, hk]
        exact .header hb

namespace Db

variable {db db' : Db} {now : Instant} {h : BlockHeaderInfo} {inserted : Bool}

theorem hashesAt_eq_nil {height : ℕ} :
    db.hashesAt height = [] ↔ ∀ b ∈ db.blocks.rows, b.height ≠ height := by
  rw [hashesAt, List.map_eq_nil_iff, List.filter_eq_nil_iff]
  simp

/-- **A header where nothing is on record**: its row is the only one there, canonical, and
everything else is as it was. -/
structure Hangs (h : BlockHeaderInfo) (db db' : Db) : Prop where
  rows : ∃ row : BlockRow, db'.blocks.rows = db.blocks.rows ++ [row] ∧ row.height = h.height
    ∧ row.hash = h.hash ∧ row.archived = false ∧ db'.isCanonical row.id
  statuses : ∀ b ∈ db.blocks.rows, db'.statusesOf b.id = db.statusesOf b.id
  slices : ∀ k, k ≠ h.height → db'.slice k = db.slice k
  link : db'.canonicalLinkAt h.height = some (h.hash, h.prevHash)

theorem hangs_insertHeaderOnlyBlock (hlog : db.LogRefers)
    (hfree : ∀ b ∈ db.blocks.rows, b.height ≠ h.height)
    (hins : db.insertHeaderOnlyBlock h now = .ok (db', inserted)) : Hangs h db db' := by
  rcases insertHeaderOnlyBlock_cases hins with ⟨-, -, hmem⟩ | ⟨-, -, db₁, hrows, hsame, rfl⟩
  · rw [hashesAt_eq_nil.mpr hfree] at hmem
    exact absurd hmem List.not_mem_nil
  let row := headerRow (db.blocks.nextId BlockRow.id) h false (some headerOnlySource) now
  let entry : StatusRow := ⟨db₁.blockStatusLog.nextId StatusRow.id, row.id, .canonical, now⟩
  have hstat₁ : ∀ id, db₁.statusesOf id = db.statusesOf id := fun id => by
    rw [hsame]
    rfl
  have hnew : db.statusesOf row.id = [] := statusesOf_new hlog
  have hrow : (db₁.appendStatus row.id .canonical now).statusesOf row.id = [entry] := by
    rw [statusesOf_appendStatus, if_pos rfl, hstat₁, hnew]
    rfl
  have hslice₁ : ∀ k, k ≠ h.height → db₁.slice k = db.slice k := by
    intro k hk
    have hne : ¬ h.height = k := fun hh => hk hh.symm
    rw [slice, hrows, List.filter_append, List.filter_singleton]
    simp [headerRow, hne, slice, hstat₁]
  have hown : (db₁.appendStatus row.id .canonical now).slice h.height = [(row.bare, [entry])] := by
    have hnil : db.blocks.rows.filter (fun b => b.height = h.height) = [] :=
      List.filter_eq_nil_iff.mpr fun b hb => by simpa using hfree b hb
    have hfilter : db₁.blocks.rows.filter (fun b => b.height = h.height) = [row] := by
      rw [hrows, List.filter_append, hnil, List.filter_singleton]
      simp [headerRow, row]
    change (db₁.blocks.rows.filter fun b => b.height = h.height).map _ = _
    rw [hfilter, List.map_singleton, hrow]
  refine ⟨⟨row, hrows, rfl, rfl, rfl, ?_⟩, fun b hb => ?_, fun k hk => ?_, ?_⟩
  · change (db₁.appendStatus row.id .canonical now).isCanonical row.id
    rw [isCanonical, latestStatus, hrow]
    rfl
  · have hne : b.id ≠ row.id := (Table.lt_nextId hb).ne
    change (db₁.appendStatus row.id .canonical now).statusesOf b.id = _
    rw [statusesOf_appendStatus, if_neg hne, hstat₁]
  · refine (slice_appendStatus fun b hb hid => ?_).trans (hslice₁ k hk)
    have hmem : row ∈ db₁.blocks.rows := hrows ▸ List.mem_append_right _ (List.mem_singleton_self _)
    obtain rfl := db₁.blocks.eq_of_clash hb hmem (decide_eq_true (Or.inl hid))
    exact fun hh => hk hh.symm
  · change (db₁.appendStatus row.id .canonical now).canonicalLinkAt h.height = _
    rw [canonicalLinkAt_slice, hown]
    have hentries : canonicalEntries (row.bare, [entry]) = [(row.bare, entry)] := by
      simp [canonicalEntries, entry]
    rw [List.flatMap_singleton, hentries]
    rfl

/-- **A header right below the lowest row, and the parent it names, extends what hangs there.** -/
theorem HeadersLinked.hangs (hl : db.HeadersLinked)
    (hlow : db.lowestRecordedHeight = some (h.height + 1)) {above : String}
    (hlink : db.canonicalLinkAt (h.height + 1) = some (above, h.hash)) (hh : Hangs h db db') :
    db'.HeadersLinked ∧ db'.lowestRecordedHeight = some h.height := by
  obtain ⟨⟨row, hrows, hrh, hrhash, hra, hrc⟩, hstat, hslices, -⟩ := hh
  obtain ⟨⟨b₀, hb₀, hh₀⟩, hle⟩ := lowestRecordedHeight_iff.mp hlow
  have hmem : ∀ {b : BlockRow}, b ∈ db'.blocks.rows ↔ b ∈ db.blocks.rows ∨ b = row := by
    intro b
    rw [hrows, List.mem_append, List.mem_singleton]
  have hlow' : db'.lowestRecordedHeight = some h.height := by
    refine lowestRecordedHeight_iff.mpr ⟨⟨row, hmem.mpr (Or.inr rfl), hrh⟩, fun b hb => ?_⟩
    rcases hmem.mp hb with hb | rfl
    · have := hle b hb
      omega
    · exact hrh.ge
  have hfirst' : db'.archiveFirstHeight = db.archiveFirstHeight := by
    rw [archiveFirstHeight, archiveFirstHeight, hrows, List.filter_append, List.filter_singleton,
      hra]
    simp
  obtain ⟨first, hfirst, hlt⟩ : ∃ first, db.archiveFirstHeight = some first ∧ h.height < first := by
    by_cases ha : b₀.archived
    · have hone : (db.blocks.rows.filter BlockRow.archived).map BlockRow.height ≠ [] :=
        List.ne_nil_of_mem (List.mem_map_of_mem (List.mem_filter.mpr ⟨hb₀, ha⟩))
      rcases hf : db.archiveFirstHeight with _ | first
      · exact absurd (List.min?_eq_none_iff.mp hf) hone
      · obtain ⟨⟨b, hb, -, hbh⟩, -⟩ := archiveFirstHeight_iff_rows.mp hf
        have := hle b hb
        exact ⟨first, rfl, by omega⟩
    · obtain ⟨low, first, hlow₀, hf, -, hlt⟩ := hl.bounds hb₀ (by simpa using ha)
      exact ⟨first, hf, by omega⟩
  refine ⟨⟨?_, fun k => ?_, ?_, ?_⟩, hlow'⟩
  · intro b hb ha b' hb' hh'
    rcases hmem.mp hb with hb | rfl
    · rcases hmem.mp hb' with hb' | rfl
      · exact hl.alone b hb ha b' hb' hh'
      · have := hle b hb
        omega
    · rcases hmem.mp hb' with hb' | rfl
      · have := hle b' hb'
        omega
      · rfl
  · rw [hlow', hfirst', hfirst]
    constructor
    · rintro ⟨b, hb, ha, rfl⟩
      rcases hmem.mp hb with hb | rfl
      · obtain ⟨low, first', -, hf, -, hlt'⟩ := hl.bounds hb ha
        obtain rfl := Option.some.inj (hfirst.symm.trans hf)
        have := hle b hb
        exact ⟨h.height, first, rfl, rfl, by omega, hlt'⟩
      · exact ⟨h.height, first, rfl, rfl, hrh.ge, by omega⟩
    · rintro ⟨low, first', hlo, hf, hk, hk'⟩
      obtain rfl := Option.some.inj hlo
      obtain rfl := Option.some.inj hf
      by_cases heq : k = h.height
      · exact ⟨row, hmem.mpr (Or.inr rfl), hra, hrh.trans heq.symm⟩
      · obtain ⟨b, hb, ha, hbk⟩ := (hl.interval k).mpr ⟨_, _, hlow, hfirst, by omega, hk'⟩
        exact ⟨b, hmem.mpr (Or.inl hb), ha, hbk⟩
  · intro b hb ha
    rcases hmem.mp hb with hb | rfl
    · have := hle b hb
      rw [canonicalLinkAt_congr (hslices _ (by omega))]
      exact hl.linked b hb ha
    · rw [hrh, hrhash, canonicalLinkAt_congr (hslices _ (by omega))]
      exact ⟨above, hlink⟩
  · intro b hb ha
    rcases hmem.mp hb with hb | rfl
    · rw [isCanonical_congr (hstat b hb)]
      exact hl.canonical b hb ha
    · exact hrc

/-! ## Batches -/

/-- The record extended by rows of headers below the height `n`. -/
structure HungBelow (n : ℕ) (db db' : Db) : Prop where
  rows : ∃ new, db'.blocks.rows = db.blocks.rows ++ new
    ∧ ∀ b ∈ new, b.archived = false ∧ b.height < n
  slices : ∀ k, n ≤ k → db'.slice k = db.slice k

theorem HungBelow.refl (n : ℕ) (db : Db) : HungBelow n db db :=
  ⟨⟨[], (List.append_nil _).symm, fun _ hb => absurd hb List.not_mem_nil⟩, fun _ _ => rfl⟩

theorem HungBelow.trans {n : ℕ} {db'' : Db} (h : HungBelow n db db') (h' : HungBelow n db' db'') :
    HungBelow n db db'' := by
  obtain ⟨new, hrows, hnew⟩ := h.rows
  obtain ⟨new', hrows', hnew'⟩ := h'.rows
  refine ⟨⟨new ++ new', by rw [hrows', hrows, List.append_assoc], fun b hb => ?_⟩, fun k hk =>
    (h'.slices k hk).trans (h.slices k hk)⟩
  rcases List.mem_append.mp hb with hb | hb
  · exact hnew b hb
  · exact hnew' b hb

theorem HungBelow.mono {n m : ℕ} (hle : n ≤ m) (h : HungBelow n db db') : HungBelow m db db' := by
  obtain ⟨new, hrows, hnew⟩ := h.rows
  exact ⟨⟨new, hrows, fun b hb => ⟨(hnew b hb).1, (hnew b hb).2.trans_le hle⟩⟩,
    fun k hk => h.slices k (hle.trans hk)⟩

theorem Hangs.below (hh : Hangs h db db') : HungBelow (h.height + 1) db db' := by
  obtain ⟨⟨row, hrows, hrh, -, hra, -⟩, -, hslices, -⟩ := hh
  refine ⟨⟨[row], hrows, fun b hb => ?_⟩, fun k hk => hslices k (by omega)⟩
  obtain rfl := List.mem_singleton.mp hb
  exact ⟨hra, hrh.trans_lt (Nat.lt_succ_self _)⟩

theorem HungBelow.first_eq {n : ℕ} (hh : HungBelow n db db') :
    db'.archiveFirstHeight = db.archiveFirstHeight := by
  obtain ⟨new, hrows, hnew⟩ := hh.rows
  have hnone : new.filter BlockRow.archived = [] :=
    List.filter_eq_nil_iff.mpr fun b hb => by simp [(hnew b hb).1]
  rw [archiveFirstHeight, archiveFirstHeight, hrows, List.filter_append, hnone, List.append_nil]

/-- What is inserted is new to the height. -/
theorem hangs_of_unrecorded (hlog : db.LogRefers) (hmem : h.hash ∉ db.hashesAt h.height)
    (hins : db.insertHeaderOnlyBlock h now = .ok (db', inserted)) : Hangs h db db' := by
  refine hangs_insertHeaderOnlyBlock hlog (hashesAt_eq_nil.mp ?_) hins
  rw [insertHeaderOnlyBlock, if_neg hmem] at hins
  rcases hl : db.hashesAt h.height with _ | ⟨other, l⟩
  · rfl
  · rw [hl] at hins
    exact absurd hins (by simp)

/-- **A batch of headers hangs below its first.** -/
theorem hungBelow_insertHeaders : ∀ {batch : List BlockHeaderInfo} {db : Db} {n : ℕ},
    db.LogRefers → (∀ h ∈ batch, h.height < n) → db.insertHeaders now batch = .ok db' →
      HungBelow n db db'
  | [], db, n, _, _, hins => by
      obtain rfl := pure_ok.mp hins
      exact .refl n _
  | h :: batch, db, n, hlog, hlt, hins => by
      rw [insertHeaders, List.foldlM_cons, bind_ok] at hins
      obtain ⟨_, hmap, hrest⟩ := hins
      obtain ⟨⟨db₁, inserted⟩, h₁, rfl⟩ := map_ok.mp hmap
      have hlt' : ∀ h ∈ batch, h.height < n := fun g hg => hlt g (List.mem_cons_of_mem _ hg)
      have hbelow := hungBelow_insertHeaders (hlog.insertHeaderOnlyBlock h₁) hlt' hrest
      refine HungBelow.trans ?_ hbelow
      by_cases hmem : h.hash ∈ db.hashesAt h.height
      · rw [insertHeaderOnlyBlock, if_pos hmem] at h₁
        obtain ⟨rfl, -⟩ := Prod.mk.inj (Except.ok.inj h₁)
        exact .refl n db
      · exact (hangs_of_unrecorded hlog hmem h₁).below.mono (hlt h List.mem_cons_self)

/-- The first header of what is left of a batch, and what inserting it comes to. -/
theorem insertHeaders_cons (hmem : h.hash ∉ db.hashesAt h.height) {rest : List BlockHeaderInfo}
    (hlog : db.LogRefers) (hins : db.insertHeaders now (h :: rest) = .ok db') :
    ∃ db₁ : Db, Hangs h db db₁ ∧ db₁.LogRefers ∧ db₁.insertHeaders now rest = .ok db' := by
  rw [insertHeaders, List.foldlM_cons, bind_ok] at hins
  obtain ⟨_, hmap, hrest⟩ := hins
  obtain ⟨⟨db₁, inserted⟩, h₁, rfl⟩ := map_ok.mp hmap
  exact ⟨db₁, hangs_of_unrecorded hlog hmem h₁, hlog.insertHeaderOnlyBlock h₁, hrest⟩

/-- The row right above the headers is the lowest on record, and names the first as its parent. -/
def Awaits (db : Db) (height : ℕ) (expected : String) : Prop :=
  db.lowestRecordedHeight = some height
    ∧ ∃ hash, db.canonicalLinkAt height = some (hash, expected)

/-- **A batch that begins right below the lowest row extends what hangs there**, and the next one
may begin where it ends. -/
theorem HeadersLinked.insertBatch : ∀ {n : ℕ} {db : Db} {expected : String}
    {batch : List BlockHeaderInfo}, db.HeadersLinked → db.LogRefers →
      Fetched noGenesis expected (downTo low n) batch last → db.Awaits (low + n) expected →
      db.insertHeaders now batch = .ok db' →
        db'.HeadersLinked ∧ db'.Awaits (low + n - batch.length) last
  | 0, db, expected, batch, hl, _, hb, hawait, hins => by
      cases hb
      obtain rfl := pure_ok.mp hins
      exact ⟨hl, hawait⟩
  | n + 1, db, expected, batch, hl, hlog, hb, hawait, hins => by
      rw [downTo_succ] at hb
      generalize hk : low + n = k at hb
      cases hb with
      | genesis =>
        obtain rfl := pure_ok.mp hins
        exact ⟨hl, hawait⟩
      | @header h _ batch _ hb =>
        obtain ⟨hlow, above, hlink⟩ := hawait
        have hsum : low + (n + 1) = h.height + 1 := by omega
        rw [hsum] at hlow hlink
        have hmem : h.hash ∉ db.hashesAt h.height := by
          rw [hashesAt_eq_nil.mpr fun b hb hh => ?_]
          · exact List.not_mem_nil
          · have := (lowestRecordedHeight_iff.mp hlow).2 b hb
            omega
        obtain ⟨db₁, hhangs, hlog₁, hrest⟩ := insertHeaders_cons hmem hlog hins
        obtain ⟨hl₁, hlow₁⟩ := hl.hangs hlow hlink hhangs
        have hawait₁ : db₁.Awaits (low + n) h.prevHash := by
          rw [hk]
          exact ⟨hlow₁, h.hash, hhangs.link⟩
        obtain ⟨hl', hawait'⟩ := hl₁.insertBatch hlog₁ hb hawait₁ hrest
        refine ⟨hl', ?_⟩
        have hlen : low + (n + 1) - (h :: batch).length = low + n - batch.length := by
          rw [List.length_cons]
          omega
        rwa [hlen]

end Db

end Permanode
