import Permanode.Core.Migrate

/-!
# Core/Releases — what each statement does to a file of a release

Each statement of the script keeps every row with its values (`Catalog.Extends`) and leaves a file
of a release; it gives its facts, does nothing where they stand, and succeeds where what it needs
does (`Catalog.lasting_script`).  The one with work to do is the rebuild of `tx_outputs`, which is
one step of a copy (`Catalog.relax_eq`).
-/

namespace Permanode

open Outcome Script

/-! ## Tables and files that keep what they had -/

variable {s s' : Catalog} {n : String} {R R' : StoredTable} {c : Column}

namespace StoredTable

/-- A row keeps itself. -/
theorem RowKept.refl (r : StoredRow) : RowKept R R r r :=
  ⟨rfl, fun _ _ => rfl, fun _ hc hnot => absurd (List.mem_map_of_mem hc) hnot⟩

/-- A table keeps its own rows. -/
theorem KeptBy.refl (R : StoredTable) : R.KeptBy R :=
  ⟨fun c hc => ⟨c, hc, rfl, rfl⟩, List.forall₂_same.mpr fun r _ => RowKept.refl r⟩

/-- No column is lost. -/
theorem KeptBy.names_subset (h : R.KeptBy R') : R.names ⊆ R'.names := by
  intro n hn
  obtain ⟨c, hc, rfl⟩ := List.mem_map.mp hn
  obtain ⟨c', hc', hname, -⟩ := h.columns c hc
  exact hname ▸ List.mem_map_of_mem hc'

/-- Columns of one name are one column. -/
theorem eq_of_name {c c' : Column} (hc : c ∈ R.columns) (hc' : c' ∈ R.columns)
    (h : c.name = c'.name) : c = c' :=
  List.inj_on_of_nodup_map R.declares.1 hc hc' h

/-- **A row kept twice is kept**: a column that is new to the second table is new to the first or
had its default there. -/
theorem RowKept.trans {R'' : StoredTable} {r r' r'' : StoredRow} (h : R.KeptBy R')
    (h' : R'.KeptBy R'') (hr : RowKept R R' r r') (hr' : RowKept R' R'' r' r'') :
    RowKept R R'' r r'' := by
  obtain ⟨hid, hold, hnew⟩ := hr
  obtain ⟨hid', hold', hnew'⟩ := hr'
  refine ⟨hid'.trans hid, fun n hn => (hold' n (h.names_subset hn)).trans (hold n hn),
    fun c hc hnot => ?_⟩
  by_cases hmid : c.name ∈ R'.names
  · obtain ⟨d, hd, hname⟩ := List.mem_map.mp hmid
    obtain ⟨d', hd', hname', hdef⟩ := h'.columns d hd
    obtain rfl := eq_of_name hd' hc (hname'.trans hname)
    rw [hold' _ hmid, hdef, ← hname]
    exact hnew d hd (hname ▸ hnot)
  · exact hnew' c hc hmid

/-- So with tables, row by row. -/
theorem KeptBy.trans {R'' : StoredTable} (h : R.KeptBy R') (h' : R'.KeptBy R'') :
    R.KeptBy R'' := by
  refine ⟨fun c hc => ?_, ?_⟩
  · obtain ⟨d, hd, hname, hdef⟩ := h.columns c hc
    obtain ⟨d', hd', hname', hdef'⟩ := h'.columns d hd
    exact ⟨d', hd', hname'.trans hname, hdef'.trans hdef⟩
  · have hrows : ∀ {l l' l'' : List StoredRow}, List.Forall₂ (RowKept R R') l l' →
        List.Forall₂ (RowKept R' R'') l' l'' → List.Forall₂ (RowKept R R'') l l'' := by
      intro l l' l'' h₁ h₂
      induction h₁ generalizing l'' with
      | nil =>
        obtain rfl := List.forall₂_nil_left_iff.mp h₂
        exact .nil
      | cons hr _ ih =>
        obtain ⟨r'', l'', hr', hrest, rfl⟩ := List.forall₂_cons_left_iff.mp h₂
        exact .cons (RowKept.trans h h' hr hr') (ih hrest)
    exact hrows h.rows h'.rows

/-- `ALTER TABLE … ADD COLUMN` keeps the rows. -/
theorem keptBy_addColumn (h : R.addColumn c = .ok R') : R.KeptBy R' := by
  obtain ⟨hname, hcols, -, hrows⟩ := addColumn_ok h
  refine ⟨fun d hd => ⟨d, hcols ▸ List.mem_append_left _ hd, rfl, rfl⟩, ?_⟩
  rw [hrows, List.forall₂_map_right_iff]
  refine List.forall₂_same.mpr fun r hr => ⟨rfl, fun n hn => ?_, fun d hd hnot => ?_⟩
  · rw [hcols]
    exact cell_extend (R.admits.1 r hr) hn _
  · rw [hcols] at hd ⊢
    rcases List.mem_append.mp hd with hd | hd
    · exact absurd (List.mem_map_of_mem hd) hnot
    · obtain rfl := List.mem_singleton.mp hd
      exact cell_extend_new (R.admits.1 r hr) hname _

/-- The rebuild keeps the rows. -/
theorem keptBy_insertSelect {selected : List String} {target : StoredTable}
    (hempty : target.rows = []) (h : insertSelect target R selected = .ok R')
    (hall : target.names = selected) (hold : ∀ c ∈ R.columns,
      ∃ c' ∈ target.columns, c'.name = c.name ∧ c'.default = c.default) : R.KeptBy R' := by
  obtain ⟨hs, hcols, -, hrows⟩ := insertSelect_ok h
  refine ⟨hcols ▸ hold, ?_⟩
  rw [hrows, hempty, List.nil_append, List.forall₂_map_right_iff]
  refine List.forall₂_same.mpr fun r hr => ⟨rfl, fun n hn => ?_, fun d hd hnot => ?_⟩
  · obtain ⟨c, hc, rfl⟩ := List.mem_map.mp hn
    obtain ⟨c', hc', hname, -⟩ := hold c hc
    have hmem : c.name ∈ target.names := hname ▸ List.mem_map_of_mem hc'
    rw [hcols]
    exact cell_copyRow_eq hr (hall ▸ hmem) hmem target.declares.1 hn
  · rw [hcols] at hd
    exact absurd (hs (hall ▸ List.mem_map_of_mem hd)) hnot

end StoredTable

namespace Catalog

/-- A file loses nothing to itself. -/
theorem Extends.refl (s : Catalog) : s.Extends s :=
  ⟨fun _ R h => ⟨R, h, .refl R⟩, fun _ i h => ⟨i, h, rfl⟩, id⟩

/-- **Steps that lose nothing lose nothing together.** -/
theorem Extends.trans {s'' : Catalog} (h : s.Extends s') (h' : s'.Extends s'') : s.Extends s'' := by
  refine ⟨fun n R hR => ?_, fun n i hi => ?_, fun hn => h'.nullable (h.nullable hn)⟩
  · obtain ⟨R', hR', hk⟩ := h.tables n R hR
    obtain ⟨R'', hR'', hk'⟩ := h'.tables n R' hR'
    exact ⟨R'', hR'', hk.trans hk'⟩
  · obtain ⟨i', hi', ht⟩ := h.indexes n i hi
    obtain ⟨i'', hi'', ht'⟩ := h'.indexes n i' hi'
    exact ⟨i'', hi'', ht'.trans ht⟩

/-- A table is put in the place of one whose rows it keeps. -/
theorem extends_setTable (hold : ∀ R, s.table n = some R → R.KeptBy R')
    (hnull : (∀ R, s.table n = some R → R.isNotNull "creation_id" = false) → n = "tx_outputs" →
      R'.isNotNull "creation_id" = false) : s.Extends (s.setTable n R') := by
  refine ⟨fun m R hR => ?_, fun m i hi => ⟨i, hi, rfl⟩, fun h => ?_⟩
  · by_cases hm : m = n
    · subst hm
      exact ⟨R', table_setTable .., hold R hR⟩
    · exact ⟨R, (table_setTable_of_ne hm ..).trans hR, .refl R⟩
  · by_cases hn : n = "tx_outputs"
    · subst hn
      rw [columnIsNotNull, table_setTable]
      refine hnull (fun R hR => ?_) rfl
      rw [columnIsNotNull, hR] at h
      exact h
    · rw [columnIsNotNull, table_setTable_of_ne (Ne.symm hn)]
      exact h

/-- The file of a release with another table of one. -/
theorem ofRelease_setTable (hs : s.OfRelease) (hR : R'.OfRelease n) :
    (s.setTable n R').OfRelease := by
  refine ⟨fun m R h => ?_, fun m i hi => ⟨(hs.indexes m i hi).1, ?_⟩⟩
  · by_cases hm : m = n
    · subst hm
      rw [table_setTable] at h
      exact Option.some.inj h ▸ hR
    · rw [table_setTable_of_ne hm] at h
      exact hs.tables m R h
  · by_cases hm : i.table = n
    · rw [hm, table_setTable]
      rfl
    · rw [table_setTable_of_ne hm]
      exact (hs.indexes m i hi).2

/-! ## One statement

Each by what it can do when it succeeds (`_ok`), when it does nothing (`_idle`) and when it does its
work (`_new`). -/

/-! ### `CREATE TABLE` -/

/-- **What `CREATE TABLE IF NOT EXISTS` can do**: nothing, where the name is taken, or put an empty
table there. -/
theorem createTable_ok {columns : List Column} {keys : List (List String)}
    (h : s.createTableIfNotExists n columns keys = .ok s') :
    (s.table n).isSome ∧ s' = s ∨ s.table n = none ∧ ∃ h : Declares columns keys,
      s' = s.setTable n (.blank columns keys h) := by
  unfold createTableIfNotExists createTable at h
  split_ifs at h with hsome hindex hd
  · exact Or.inl ⟨hsome, (Except.ok.inj h).symm⟩
  · exact Or.inr ⟨Option.not_isSome_iff_eq_none.mp hsome, hd, (Except.ok.inj h).symm⟩

/-- Where neither a table nor an index has the name, the table is created. -/
theorem createTable_new {columns : List Column} {keys : List (List String)}
    (hnone : s.table n = none) (hindex : s.index n = none) (hd : Declares columns keys) :
    s.createTable n columns keys = .ok (s.setTable n (.blank columns keys hd)) := by
  unfold createTable
  rw [hnone, hindex, Option.isSome_none, Option.isSome_none, if_neg Bool.false_ne_true,
    if_neg Bool.false_ne_true, dif_pos hd]

/-! ### `CREATE INDEX` -/

/-- **What `CREATE INDEX IF NOT EXISTS` can do**: nothing, where the index is there, or enter it.
Its table is there in any case. -/
theorem createIndex_ok {i : Index} (h : s.createIndexIfNotExists i = .ok s') :
    (s.table i.table).isSome ∧ ((s.index i.name).isSome ∧ s' = s ∨ s.index i.name = none
      ∧ s' = { s with index := Function.update s.index i.name (some i) }) := by
  unfold createIndexIfNotExists at h
  split at h
  · cases h
  · rename_i R hR
    split_ifs at h with htable hindex hcols
    · exact ⟨by rw [hR]; rfl, Or.inl ⟨hindex, (Except.ok.inj h).symm⟩⟩
    · exact ⟨by rw [hR]; rfl, Or.inr ⟨Option.not_isSome_iff_eq_none.mp hindex,
        (Except.ok.inj h).symm⟩⟩

/-- An index that is there is left alone. -/
theorem createIndex_idle {i : Index} (htable : (s.table i.table).isSome)
    (hfree : s.table i.name = none) (hindex : (s.index i.name).isSome) :
    s.createIndexIfNotExists i = .ok s := by
  obtain ⟨R, hR⟩ := Option.isSome_iff_exists.mp htable
  unfold createIndexIfNotExists
  rw [hR]
  simp [hfree, hindex]

/-- One that is not is entered, if the table has its columns. -/
theorem createIndex_new {i : Index} (hR : s.table i.table = some R) (hfree : s.table i.name = none)
    (hnone : s.index i.name = none) (hcols : i.mentions ⊆ R.names) :
    s.createIndexIfNotExists i
      = .ok { s with index := Function.update s.index i.name (some i) } := by
  unfold createIndexIfNotExists
  rw [hR]
  simp [hfree, hnone, hcols]

/-! ### `ALTER TABLE` -/

/-- **What `add_column_if_missing` can do**: nothing, where the column is there, or add it. -/
theorem addColumnIfMissing_ok (h : s.addColumnIfMissing n c = .ok s') : ∃ R, s.table n = some R
    ∧ (c.name ∈ R.names ∧ s' = s ∨ ∃ R', R.addColumn c = .ok R' ∧ s' = s.setTable n R') := by
  unfold addColumnIfMissing at h
  rcases hR : s.table n with _ | R
  · rw [hR] at h
    cases h
  · rw [hR] at h
    refine ⟨R, rfl, ?_⟩
    by_cases hc : c.name ∈ R.names
    · rw [if_pos (by simpa using hc)] at h
      exact Or.inl ⟨hc, (Except.ok.inj h).symm⟩
    · rw [if_neg (by simpa using hc)] at h
      obtain ⟨R', hadd, rfl⟩ := map_ok.mp h
      exact Or.inr ⟨R', hadd, rfl⟩

/-- A column that is there is left alone. -/
theorem addColumnIfMissing_idle (hR : s.table n = some R) (hc : c.name ∈ R.names) :
    s.addColumnIfMissing n c = .ok s := by
  unfold addColumnIfMissing
  rw [hR, if_pos (by simpa using hc)]

/-- One that is not is added as SQLite adds it. -/
theorem addColumnIfMissing_new (hR : s.table n = some R) (hadd : R.addColumn c = .ok R') :
    s.addColumnIfMissing n c = .ok (s.setTable n R') := by
  unfold addColumnIfMissing
  rw [hR, if_neg (by simpa using (StoredTable.addColumn_ok hadd).1)]
  exact map_ok.mpr ⟨R', hadd, rfl⟩

/-! ### The rebuild of `tx_outputs` -/

theorem table_dropTable (s : Catalog) (n : String) : (s.dropTable n).table n = none :=
  Function.update_self ..

theorem table_dropTable_of_ne {m : String} (h : m ≠ n) (s : Catalog) :
    (s.dropTable n).table m = s.table m := Function.update_of_ne h ..

/-- A table that is not there is not missed. -/
theorem dropTable_eq (htable : s.table n = none)
    (hindex : ∀ j i, s.index j = some i → i.table ≠ n) : s.dropTable n = s := by
  rcases s with ⟨table, index⟩
  refine congrArg₂ Catalog.mk (Function.update_eq_self_iff.mpr htable.symm) (funext fun j => ?_)
  rcases hj : index j with _ | i
  · simp [hj]
  · simp [hj, hindex j i hj]

/-- Indexes entered one after the other. -/
def enterIndexes (l : List Index) (f : String → Option Index) : String → Option Index :=
  l.foldl (fun f i => Function.update f i.name (some i)) f

/-- A name that is not in the list keeps its index. -/
theorem enterIndexes_of_not_mem {l : List Index} {f : String → Option Index} {j : String}
    (h : j ∉ l.map Index.name) : enterIndexes l f j = f j := by
  induction l generalizing f with
  | nil => rfl
  | cons i l ih =>
    obtain ⟨hne, h⟩ := not_or.mp (List.mem_cons.not.mp h)
    exact (ih h).trans (Function.update_of_ne hne ..)

/-- A name that is in it gets that of the list. -/
theorem enterIndexes_of_mem {l : List Index} {f : String → Option Index} {i : Index}
    (hdup : (l.map Index.name).Nodup) (h : i ∈ l) : enterIndexes l f i.name = some i := by
  induction l generalizing f with
  | nil => exact absurd h List.not_mem_nil
  | cons j l ih =>
    obtain ⟨hnot, hdup⟩ := List.nodup_cons.mp hdup
    rcases List.mem_cons.mp h with rfl | h
    · exact (enterIndexes_of_not_mem hnot).trans (Function.update_self ..)
    · exact ih hdup h

/-- **Indexes are recreated one after the other**, by induction on the list: the names are free and
stay so for those to come. -/
theorem createIndexes {l : List Index} (hdup : (l.map Index.name).Nodup)
    (hl : ∀ i ∈ l, (∃ R, s.table i.table = some R ∧ i.mentions ⊆ R.names) ∧ s.table i.name = none
      ∧ s.index i.name = none) :
    l.foldlM createIndexIfNotExists s = .ok { s with index := enterIndexes l s.index } := by
  induction l generalizing s with
  | nil => rfl
  | cons i l ih =>
    obtain ⟨hnot, hdup⟩ := List.nodup_cons.mp hdup
    obtain ⟨⟨⟨R, hR, hcols⟩, hfree, hnone⟩, hl⟩ := List.forall_mem_cons.mp hl
    rw [List.foldlM_cons, createIndex_new hR hfree hnone hcols]
    refine ih hdup fun j hj => ⟨(hl j hj).1, (hl j hj).2.1, ?_⟩
    have hne : j.name ≠ i.name := fun h => hnot (h ▸ List.mem_map_of_mem hj)
    exact (Function.update_of_ne hne ..).trans (hl j hj).2.2

/-- The file after the rebuild. -/
def relaxed (s : Catalog) (copy : StoredTable) : Catalog where
  table := Function.update s.table "tx_outputs" (some copy)
  index := enterIndexes outputIndexes fun j => (s.index j).filter fun i => i.table ≠ "tx_outputs"

theorem table_relaxed (s : Catalog) (copy : StoredTable) :
    (s.relaxed copy).table = Function.update s.table "tx_outputs" (some copy) := rfl

/-- The file has no table the script does not create. -/
theorem table_eq_none (hs : s.OfRelease) (h : created n = none) : s.table n = none := by
  by_contra hne
  obtain ⟨R, hR⟩ := Option.ne_none_iff_exists'.mp hne
  obtain ⟨d, hd, -⟩ := hs.tables n R hR
  exact absurd (h.symm.trans hd) (Option.some_ne_none _).symm

/-- It has no index the script does not name. -/
theorem index_eq_none (hs : s.OfRelease) (h : ∀ j ∈ indexSpecs, j.name ≠ n) : s.index n = none := by
  by_contra hne
  obtain ⟨i, hi⟩ := Option.ne_none_iff_exists'.mp hne
  obtain ⟨⟨j, hj, hname, -⟩, -⟩ := hs.indexes n i hi
  exact h j hj hname

/-- None of its indexes is on the table of the rebuild. -/
theorem not_index_new (hs : s.OfRelease) (j : String) (i : Index) (hi : s.index j = some i) :
    i.table ≠ "tx_outputs_new" := by
  obtain ⟨⟨k, hk, -, ht⟩, -⟩ := hs.indexes j i hi
  exact ht ▸ (not_index_outputs k hk).2.2

/-- **The copy takes the place of the old table**, whose indexes are gone with it. -/
theorem renameTable_new (hs : s.OfRelease) (T copy : StoredTable) :
    (((s.setTable "tx_outputs_new" T).setTable "tx_outputs_new" copy).dropTable
        "tx_outputs").renameTable "tx_outputs_new" "tx_outputs"
      = .ok ⟨Function.update s.table "tx_outputs" (some copy),
          fun j => (s.index j).filter fun i => i.table ≠ "tx_outputs"⟩ := by
  let s₁ := ((s.setTable "tx_outputs_new" T).setTable "tx_outputs_new" copy).dropTable "tx_outputs"
  have hold : s₁.table "tx_outputs_new" = some copy :=
    (table_dropTable_of_ne (by decide) _).trans (table_setTable ..)
  have hfree : s₁.table "tx_outputs" = none := table_dropTable ..
  have hname : s₁.index "tx_outputs" = none := by
    change (s.index "tx_outputs").filter _ = none
    rw [index_eq_none hs fun j hj => (not_index_outputs j hj).1]
    rfl
  change s₁.renameTable "tx_outputs_new" "tx_outputs" = _
  unfold renameTable
  rw [hold, hfree, hname]
  refine congrArg Except.ok (congrArg₂ Catalog.mk (funext fun n => ?_) (funext fun j => ?_))
  · by_cases hn : n = "tx_outputs"
    · rw [hn, Function.update_self, Function.update_self]
    · rw [Function.update_of_ne hn, Function.update_of_ne hn]
      by_cases hnew : n = "tx_outputs_new"
      · rw [hnew, Function.update_self, table_eq_none hs created_new]
      · rw [Function.update_of_ne hnew]
        exact (table_dropTable_of_ne hn _).trans ((table_setTable_of_ne hnew ..).trans
          (table_setTable_of_ne hnew ..))
  · change ((s.index j).filter _).map _ = _
    rcases hj : s.index j with _ | i
    · rfl
    · by_cases ht : i.table = "tx_outputs"
      · simp [Option.filter_some, ht]
      · simp [Option.filter_some, ht, not_index_new hs j i hj]

theorem nodup_outputIndexes : (outputIndexes.map Index.name).Nodup := by decide +kernel

/-- **The rebuild, as one step.** -/
theorem relax_eq (hs : s.OfRelease) (hR : s.table "tx_outputs" = some R)
    (hnull : s.columnIsNotNull "tx_outputs" "creation_id" = true) :
    s.relaxOutputCreationId = ((StoredTable.blank rebuiltColumns [["tx_id", "idx"]]
      declares_rebuilt).insertSelect R copiedNames).map s.relaxed := by
  have htable : s.table "tx_outputs_new" = none := table_eq_none hs created_new
  have hindex : s.index "tx_outputs_new" = none :=
    index_eq_none hs fun j hj => (not_index_outputs j hj).2.1
  have hok : ∀ {α β : Type} (a : α) (f : α → Except String β), (Except.ok a >>= f) = f a :=
    fun _ _ => rfl
  unfold relaxOutputCreationId
  rw [hnull, Bool.not_true, if_neg Bool.false_ne_true, hR,
    dropTable_eq htable (not_index_new hs), createTable_new htable hindex declares_rebuilt]
  simp only [orError, hok, table_setTable]
  rcases hcopy : (StoredTable.blank rebuiltColumns [["tx_id", "idx"]]
      declares_rebuilt).insertSelect R copiedNames with e | copy
  · rfl
  · obtain ⟨-, hcols, -, hrows⟩ := StoredTable.insertSelect_ok hcopy
    have hlen : copy.rows.length = R.rows.length := by
      rw [hrows, List.length_append, List.length_map]
      exact Nat.zero_add _
    rw [hok, bailIf, if_neg (not_not.mpr hlen), hok, renameTable_new hs, hok]
    refine createIndexes nodup_outputIndexes fun i hi => ?_
    obtain ⟨hspec, ht, hfree, hcopied, hne, -⟩ := outputIndexes_spec i hi
    refine ⟨⟨copy, ht ▸ Function.update_self .., ?_⟩, ?_, ?_⟩
    · rw [StoredTable.names, hcols]
      exact names_rebuilt ▸ hcopied
    · exact (Function.update_of_ne hne ..).trans (table_eq_none hs hfree)
    · change (s.index i.name).filter _ = none
      rcases hj : s.index i.name with _ | j
      · rfl
      · obtain ⟨⟨k, hk, hname, htk⟩, -⟩ := hs.indexes i.name j hj
        have hout : j.table = "tx_outputs" := htk ▸ (table_of_name k hk i hspec hname).trans ht
        simp [hout]

/-! ## Statements of the script -/

variable {t : Statement}

/-- **`CREATE TABLE` keeps the file**, and the table is there. -/
theorem step_createTable {columns : List Column} {keys : List (List String)}
    (ht : Statement.createTable n columns keys ∈ script) (hs : s.OfRelease)
    (h : s.createTableIfNotExists n columns keys = .ok s') :
    s.Extends s' ∧ s'.OfRelease ∧ (s'.table n).isSome := by
  have hproper := proper_script _ ht
  simp only [Statement.proper, Bool.and_eq_true, decide_eq_true_eq] at hproper
  obtain ⟨⟨⟨hcreated, -⟩, -⟩, hnull⟩ := hproper
  rcases createTable_ok h with ⟨hsome, rfl⟩ | ⟨hnone, hd, rfl⟩
  · exact ⟨.refl _, hs, hsome⟩
  · have habsent : ∀ R, s.table n ≠ some R :=
      fun R hR => Option.some_ne_none R (hR.symm.trans hnone)
    refine ⟨extends_setTable (fun R hR => absurd hR (habsent R)) fun _ hn =>
      StoredTable.isNotNull_eq_false.mpr (hnull hn), ofRelease_setTable hs ?_, ?_⟩
    · exact ⟨_, hcreated, rfl, fun c hc => ⟨c, List.mem_append_left _ hc, Or.inl rfl⟩,
        fun b hb => List.mem_map_of_mem hb⟩
    · rw [table_setTable]
      rfl

/-- **`CREATE INDEX` keeps the file**, and the index is there. -/
theorem step_createIndex {i : Index} (ht : Statement.createIndex i ∈ script) (hs : s.OfRelease)
    (h : s.createIndexIfNotExists i = .ok s') :
    s.Extends s' ∧ s'.OfRelease ∧ ∃ j, s'.index i.name = some j ∧ j.table = i.table := by
  have hproper := proper_script _ ht
  simp only [Statement.proper, Bool.and_eq_true, decide_eq_true_eq] at hproper
  obtain ⟨hspec, -⟩ := hproper
  obtain ⟨htable, ⟨hsome, rfl⟩ | ⟨hnone, rfl⟩⟩ := createIndex_ok h
  · obtain ⟨j, hj⟩ := Option.isSome_iff_exists.mp hsome
    obtain ⟨⟨k, hk, hname, hkt⟩, -⟩ := hs.indexes _ j hj
    exact ⟨.refl s', hs, j, hj, hkt ▸ table_of_name k hk i hspec hname⟩
  · refine ⟨⟨fun _ R hR => ⟨R, hR, .refl R⟩, fun m j hj => ⟨j, ?_, rfl⟩, id⟩,
      ⟨hs.tables, fun m j hj => ?_⟩, i, Function.update_self .., rfl⟩
    · have hne : m ≠ i.name := fun hm => Option.some_ne_none j (hj.symm.trans (hm ▸ hnone))
      exact (Function.update_of_ne hne ..).trans hj
    · by_cases hm : m = i.name
      · subst hm
        have hj : Function.update s.index i.name (some i) i.name = some j := hj
        rw [Function.update_self] at hj
        obtain rfl := Option.some.inj hj
        exact ⟨⟨i, hspec, rfl, rfl⟩, htable⟩
      · exact hs.indexes m j ((Function.update_of_ne hm ..).symm.trans hj)

/-- **`ALTER TABLE` keeps the file**, and the column is there. -/
theorem step_addColumn (ht : Statement.addColumnIfMissing n c ∈ script) (hs : s.OfRelease)
    (h : s.addColumnIfMissing n c = .ok s') :
    s.Extends s' ∧ s'.OfRelease ∧ ∃ R, s'.table n = some R ∧ c.name ∈ R.names := by
  have hproper := proper_script _ ht
  simp only [Statement.proper, Bool.and_eq_true, decide_eq_true_eq] at hproper
  obtain ⟨⟨hadded, -⟩, hname⟩ := hproper
  obtain ⟨R, hR, ⟨hmem, rfl⟩ | ⟨R', hadd, rfl⟩⟩ := addColumnIfMissing_ok h
  · exact ⟨.refl s', hs, R, hR, hmem⟩
  obtain ⟨-, hcols, hkeys, -⟩ := StoredTable.addColumn_ok hadd
  have hnames : R'.names = R.names ++ [c.name] := by
    rw [StoredTable.names, hcols, List.map_append]
    rfl
  refine ⟨extends_setTable (fun R₀ hR₀ => ?_) fun hold _ => ?_, ofRelease_setTable hs ?_,
    R', table_setTable .., ?_⟩
  · obtain rfl := Option.some.inj (hR.symm.trans hR₀)
    exact StoredTable.keptBy_addColumn hadd
  · refine StoredTable.isNotNull_eq_false.mpr fun d hd hdn => ?_
    rcases List.mem_append.mp (hcols ▸ hd) with hd | hd
    · exact StoredTable.isNotNull_eq_false.mp (hold R hR) d hd hdn
    · exact absurd ((List.mem_singleton.mp hd) ▸ hdn) hname
  · obtain ⟨d, hd, hk, hold, hbase⟩ := hs.tables n R hR
    refine ⟨d, hd, hkeys.trans hk, fun e he => ?_, fun b hb => ?_⟩
    · rcases List.mem_append.mp (hcols ▸ he) with he | he
      · exact hold e he
      · obtain rfl := List.mem_singleton.mp he
        exact ⟨e, List.mem_append_right _ hadded, Or.inl rfl⟩
    · exact hnames ▸ List.mem_append_left _ (hbase b hb)
  · exact hnames ▸ List.mem_append_right _ (List.mem_singleton_self _)

/-- A column of `tx_outputs` is one of the rebuilt table, but for the `NOT NULL` of
`creation_id`. -/
theorem was_rebuilt (hs : s.OfRelease) (hR : s.table "tx_outputs" = some R) (hc : c ∈ R.columns) :
    ∃ b ∈ rebuiltColumns, c = b ∨ c = { b with notNull := true } := by
  obtain ⟨d, hd, -, hold, -⟩ := hs.tables _ R hR
  obtain rfl := Option.some.inj (created_outputs.symm.trans hd)
  obtain ⟨b, hb, hwas⟩ := hold c hc
  exact ⟨b, outputs_columns ▸ hb, hwas.imp_right fun h => h.2.2⟩

/-- A column that is `NOT NULL` is one of a table. -/
theorem exists_of_isNotNull (h : s.columnIsNotNull "tx_outputs" "creation_id" = true) :
    ∃ R, s.table "tx_outputs" = some R := by
  rcases hR : s.table "tx_outputs" with _ | R
  · rw [columnIsNotNull, hR] at h
    cases h
  · exact ⟨R, rfl⟩

/-- **The rebuild keeps the file**, and `creation_id` may be `NULL`. -/
theorem step_relax (hs : s.OfRelease) (h : s.relaxOutputCreationId = .ok s') :
    s.Extends s' ∧ s'.OfRelease ∧ s'.columnIsNotNull "tx_outputs" "creation_id" = false := by
  by_cases hnull : s.columnIsNotNull "tx_outputs" "creation_id" = true
  swap
  · have hnull : s.columnIsNotNull "tx_outputs" "creation_id" = false := Bool.eq_false_iff.mpr hnull
    unfold relaxOutputCreationId at h
    rw [hnull, Bool.not_false, if_pos rfl] at h
    obtain rfl := Except.ok.inj h
    exact ⟨.refl s, hs, hnull⟩
  obtain ⟨R, hR⟩ := exists_of_isNotNull hnull
  rw [relax_eq hs hR hnull] at h
  obtain ⟨copy, hcopy, rfl⟩ := map_ok.mp h
  obtain ⟨-, hcols, hkeys, -⟩ := StoredTable.insertSelect_ok hcopy
  have hcols : copy.columns = rebuiltColumns := hcols
  have hcopied : (s.relaxed copy).table "tx_outputs" = some copy := by
    rw [table_relaxed, Function.update_self]
  have hother : ∀ {m}, m ≠ "tx_outputs" → (s.relaxed copy).table m = s.table m := fun hm => by
    rw [table_relaxed, Function.update_of_ne hm]
  -- an index has its name in the list exactly if it is on the table
  have hentered : ∀ {m i}, s.index m = some i → i.table ≠ "tx_outputs" →
      (s.relaxed copy).index m = some i := by
    intro m i hi hne
    have hnot : m ∉ outputIndexes.map Index.name := fun hm => by
      obtain ⟨k, hk, rfl⟩ := List.mem_map.mp hm
      obtain ⟨⟨j, hj, hname, htj⟩, -⟩ := hs.indexes _ i hi
      obtain ⟨hspec, htk, -⟩ := outputIndexes_spec k hk
      exact hne (htj ▸ (table_of_name j hj k hspec hname).trans htk)
    refine (enterIndexes_of_not_mem hnot).trans ?_
    rw [hi, Option.filter_some, if_pos (decide_eq_true hne)]
  refine ⟨⟨fun m T hT => ?_, fun m i hi => ?_, fun hf => absurd hnull (Bool.eq_false_iff.mp hf)⟩,
    ⟨fun m T hT => ?_, fun m i hi => ?_⟩, ?_⟩
  · by_cases hm : m = "tx_outputs"
    · subst hm
      obtain rfl := Option.some.inj (hR.symm.trans hT)
      refine ⟨copy, hcopied, StoredTable.keptBy_insertSelect rfl hcopy names_rebuilt fun c hc => ?_⟩
      obtain ⟨b, hb, rfl | rfl⟩ := was_rebuilt hs hR hc
      · exact ⟨c, hb, rfl, rfl⟩
      · exact ⟨b, hb, rfl, rfl⟩
    · exact ⟨T, (hother hm).trans hT, .refl T⟩
  · by_cases ht : i.table = "tx_outputs"
    · obtain ⟨⟨j, hj, rfl, htj⟩, -⟩ := hs.indexes m i hi
      obtain ⟨k, hk, hname⟩ := outputIndexes_of_table j hj (htj.trans ht)
      exact ⟨k, hname ▸ enterIndexes_of_mem nodup_outputIndexes hk,
        (outputIndexes_spec k hk).2.1.trans ht.symm⟩
    · exact ⟨i, hentered hi ht, rfl⟩
  · by_cases hm : m = "tx_outputs"
    · subst hm
      obtain rfl := Option.some.inj (hcopied.symm.trans hT)
      refine ⟨_, created_outputs, hkeys, fun c hc => ⟨c, ?_, Or.inl rfl⟩, fun b hb => ?_⟩
      · rw [outputs_columns]
        exact hcols ▸ hc
      · have hb : b ∈ rebuiltColumns := outputs_columns ▸ List.mem_append_left _ hb
        exact List.mem_map_of_mem (hcols ▸ hb)
    · exact hs.tables m T ((hother hm).symm.trans hT)
  · by_cases hm : m ∈ outputIndexes.map Index.name
    · obtain ⟨k, hk, rfl⟩ := List.mem_map.mp hm
      obtain rfl := Option.some.inj ((enterIndexes_of_mem nodup_outputIndexes hk).symm.trans hi)
      obtain ⟨hspec, htk, -⟩ := outputIndexes_spec k hk
      exact ⟨⟨k, hspec, rfl, rfl⟩, by rw [htk, hcopied]; rfl⟩
    · have hi := (enterIndexes_of_not_mem hm).symm.trans hi
      obtain ⟨hold, hne⟩ := Option.filter_eq_some_iff.mp hi
      have hne : i.table ≠ "tx_outputs" := of_decide_eq_true hne
      obtain ⟨hspec, hsome⟩ := hs.indexes m i hold
      exact ⟨hspec, by rwa [hother hne]⟩
  · rw [columnIsNotNull, hcopied]
    refine StoredTable.isNotNull_eq_false.mpr ?_
    rw [hcols]
    decide +kernel

/-- A statement of the script keeps what is in the file, and the file one of a release. -/
theorem step_exec (ht : t ∈ script) (hs : s.OfRelease) (h : t.exec s = .ok s') :
    s.Extends s' ∧ s'.OfRelease := by
  match t with
  | .createTable .. => exact ⟨(step_createTable ht hs h).1, (step_createTable ht hs h).2.1⟩
  | .createIndex _ => exact ⟨(step_createIndex ht hs h).1, (step_createIndex ht hs h).2.1⟩
  | .addColumnIfMissing .. => exact ⟨(step_addColumn ht hs h).1, (step_addColumn ht hs h).2.1⟩
  | .relaxOutputCreationId => exact ⟨(step_relax hs h).1, (step_relax hs h).2.1⟩

/-- A table that is there has the columns it was created with. -/
theorem holds_created {columns : List Column} {keys : List (List String)} (hs : s.OfRelease)
    (hcreated : created n = some (columns, keys)) (hsome : (s.table n).isSome) :
    ∀ f ∈ (Statement.createTable n columns keys).gives, f.Holds s := by
  obtain ⟨R, hR⟩ := Option.isSome_iff_exists.mp hsome
  obtain ⟨d, hd, -, -, hbase⟩ := hs.tables n R hR
  obtain rfl := Option.some.inj (hcreated.symm.trans hd)
  refine List.forall_mem_cons.mpr ⟨hsome, List.forall_mem_map.mpr fun c hc => ⟨R, hR, hbase c hc⟩⟩

/-- A statement gives its facts. -/
theorem brings_exec (ht : t ∈ script) (hs : s.OfRelease) (h : t.exec s = .ok s') :
    ∀ f ∈ t.gives, f.Holds s' := by
  have hproper := proper_script t ht
  match t with
  | .createTable n columns keys =>
    simp only [Statement.proper, Bool.and_eq_true, decide_eq_true_eq] at hproper
    obtain ⟨-, hs', hsome⟩ := step_createTable ht hs h
    exact holds_created hs' hproper.1.1.1 hsome
  | .createIndex i => exact List.forall_mem_singleton.mpr (step_createIndex ht hs h).2.2
  | .addColumnIfMissing n c => exact List.forall_mem_singleton.mpr (step_addColumn ht hs h).2.2
  | .relaxOutputCreationId => exact List.forall_mem_singleton.mpr (step_relax hs h).2.2

/-- Where they stand already, it does nothing. -/
theorem idle_exec (ht : t ∈ script) (hs : s.OfRelease) (hf : ∀ f ∈ t.gives, f.Holds s) :
    t.exec s = .ok s := by
  have hproper := proper_script t ht
  match t with
  | .createTable n columns keys => exact if_pos (hf _ List.mem_cons_self)
  | .createIndex i =>
    simp only [Statement.proper, Bool.and_eq_true, decide_eq_true_eq] at hproper
    obtain ⟨j, hj, htable⟩ := hf _ List.mem_cons_self
    exact createIndex_idle (htable ▸ (hs.indexes _ j hj).2) (table_eq_none hs hproper.2)
      (by rw [hj]; rfl)
  | .addColumnIfMissing n c =>
    obtain ⟨R, hR, hc⟩ := hf _ List.mem_cons_self
    exact addColumnIfMissing_idle hR hc
  | .relaxOutputCreationId =>
    have hnull : s.columnIsNotNull "tx_outputs" "creation_id" = false := hf _ List.mem_cons_self
    change s.relaxOutputCreationId = _
    unfold relaxOutputCreationId
    rw [hnull, Bool.not_false, if_pos rfl]

/-- Columns of the rebuilt table go by their names. -/
theorem eq_of_name_rebuilt :
    ∀ b ∈ rebuiltColumns, ∀ c ∈ rebuiltColumns, b.name = c.name → b = c := by
  decide +kernel

/-- **The rebuild succeeds** where the columns it copies are there: what the old table admits, the
new one does. -/
theorem runs_relax (hs : s.OfRelease)
    (hf : ∀ f ∈ Statement.relaxOutputCreationId.needs, f.Holds s) :
    ∃ s', s.relaxOutputCreationId = .ok s' := by
  by_cases hnull : s.columnIsNotNull "tx_outputs" "creation_id" = true
  swap
  · unfold relaxOutputCreationId
    rw [Bool.eq_false_iff.mpr hnull, Bool.not_false, if_pos rfl]
    exact ⟨s, rfl⟩
  obtain ⟨R, hR⟩ := exists_of_isNotNull hnull
  have hall : copiedNames ⊆ R.names := fun n hn => by
    obtain ⟨R', hR', hmem⟩ := hf (.column "tx_outputs" n)
      (List.mem_cons_of_mem _ (List.mem_map_of_mem hn))
    exact Option.some.inj (hR.symm.trans hR') ▸ hmem
  obtain ⟨d, hd, hkeys, -⟩ := hs.tables _ R hR
  obtain rfl := Option.some.inj (created_outputs.symm.trans hd)
  have hadmits : Admits rebuiltColumns [["tx_id", "idx"]]
      (R.rows.map (StoredTable.copyRow rebuiltColumns R copiedNames)) := by
    refine StoredTable.admits_copy declares_rebuilt (fun k hk => hkeys ▸ hk) fun c hc => ?_
    have hcopied : c.name ∈ copiedNames := names_rebuilt ▸ List.mem_map_of_mem hc
    obtain ⟨e, he, hname⟩ := List.mem_map.mp (hall hcopied)
    refine ⟨hcopied, e, he, hname, ?_⟩
    obtain ⟨b, hb, rfl | rfl⟩ := was_rebuilt hs hR he
    · exact eq_of_name_rebuilt e hb c hc hname ▸ id
    · exact fun _ => rfl
  have hnames : copiedNames ⊆ rebuiltColumns.map Column.name := by
    rw [names_rebuilt]
    exact List.Subset.refl _
  obtain ⟨copy, hcopy⟩ : ∃ copy, (StoredTable.blank rebuiltColumns [["tx_id", "idx"]]
      declares_rebuilt).insertSelect R copiedNames = .ok copy :=
    StoredTable.exists_insertSelect rfl hall hnames hadmits
  rw [relax_eq hs hR hnull, hcopy]
  exact ⟨_, rfl⟩

/-- **A statement succeeds where what it needs is there.** -/
theorem runs_exec (ht : t ∈ script) (hs : s.OfRelease) (hf : ∀ f ∈ t.needs, f.Holds s) :
    ∃ s', t.exec s = .ok s' := by
  have hproper := proper_script t ht
  match t with
  | .createTable n columns keys =>
    simp only [Statement.proper, Bool.and_eq_true, decide_eq_true_eq] at hproper
    obtain ⟨⟨⟨-, hd⟩, hindex⟩, -⟩ := hproper
    change ∃ s', s.createTableIfNotExists n columns keys = .ok s'
    unfold createTableIfNotExists
    rcases hn : s.table n with _ | R
    · rw [Option.isSome_none, if_neg Bool.false_ne_true,
        createTable_new hn (index_eq_none hs hindex) hd]
      exact ⟨_, rfl⟩
    · exact ⟨s, rfl⟩
  | .createIndex i =>
    simp only [Statement.proper, Bool.and_eq_true, decide_eq_true_eq] at hproper
    obtain ⟨htable, hcols⟩ := List.forall_mem_cons.mp hf
    have hfree : s.table i.name = none := table_eq_none hs hproper.2
    obtain ⟨R, hR⟩ := Option.isSome_iff_exists.mp htable
    rcases hn : s.index i.name with _ | j
    · refine ⟨_, createIndex_new hR hfree hn fun m hm => ?_⟩
      obtain ⟨R', hR', hmem⟩ := List.forall_mem_map.mp hcols m hm
      exact Option.some.inj (hR.symm.trans hR') ▸ hmem
    · exact ⟨s, createIndex_idle htable hfree (by rw [hn]; rfl)⟩
  | .addColumnIfMissing n c =>
    simp only [Statement.proper, Bool.and_eq_true, decide_eq_true_eq] at hproper
    obtain ⟨R, hR⟩ := Option.isSome_iff_exists.mp (hf _ List.mem_cons_self)
    by_cases hc : c.name ∈ R.names
    · exact ⟨s, addColumnIfMissing_idle hR hc⟩
    · obtain ⟨R', hadd⟩ := StoredTable.exists_addColumn hc fun ⟨h₁, h₂⟩ => by
        simp [h₁, h₂] at hproper
      exact ⟨_, addColumnIfMissing_new hR hadd⟩
  | .relaxOutputCreationId => exact runs_relax hs hf

/-- What a statement makes sure of is not undone by one that loses nothing. -/
theorem Extends.holds (h : s.Extends s') : ∀ f : Fact, f.Kept → f.Holds s → f.Holds s'
  | .table n, _, hold => by
      obtain ⟨R, hR⟩ := Option.isSome_iff_exists.mp hold
      obtain ⟨R', hR', -⟩ := h.tables n R hR
      exact Option.isSome_iff_exists.mpr ⟨R', hR'⟩
  | .column n c, _, ⟨R, hR, hc⟩ =>
      have ⟨R', hR', hk⟩ := h.tables n R hR
      ⟨R', hR', hk.names_subset hc⟩
  | .index n on, _, ⟨i, hi, hon⟩ =>
      have ⟨i', hi', ht⟩ := h.indexes n i hi
      ⟨i', hi', ht.trans hon⟩
  | .nullable _ _, ⟨hn, hc⟩, hold => by
      subst hn hc
      exact h.nullable hold

/-- **Every statement of the script lasts.** -/
theorem lasting_script : ∀ t ∈ script, Lasting Statement.exec Fact.Holds OfRelease Fact.Kept
    Statement.needs Statement.gives t := fun t ht =>
  { sound := fun hs h => (step_exec ht hs h).2
    brings := brings_exec ht
    idle := idle_exec ht
    keeps := fun hs h => (step_exec ht hs h).1.holds
    runs := runs_exec ht
    kept_needs := (kept_script t ht).1
    kept_gives := (kept_script t ht).2 }

end Catalog

end Permanode
