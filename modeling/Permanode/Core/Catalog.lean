import Mathlib.Data.Int.Notation
import Mathlib.Data.List.Forall2
import Mathlib.Data.List.Nodup
import Mathlib.Logic.Function.Basic
import Permanode.Foundations.Outcome

/-!
# Core/Catalog — the tables of a file, and the statements that set them up

What `open` (`core/src/db.rs`) finds in a file: tables with their declared columns and their rows,
and indexes.  The statements are those of SQLite that `init_schema`, `add_column_if_missing` and
`relax_output_creation_id` use; a table carries what its declarations promise of its rows, so a
statement that would break it is refused.
-/

namespace Permanode

/-- A stored value. -/
inductive Value
  | null
  | integer (n : ℤ)
  | text (s : String)
  | blob (bytes : List UInt8)
  deriving DecidableEq

/-- A column, as it is declared. -/
structure Column where
  name : String
  declType : String
  notNull : Bool
  default : Value
  references : Option String
  deriving DecidableEq

/-- A row: a value for each column, in their order. -/
structure StoredRow where
  rowid : ℤ
  values : List Value
  deriving DecidableEq

/-- The value of a row in a column. -/
def cell (columns : List Column) (r : StoredRow) (name : String) : Option Value :=
  ((columns.map Column.name).zip r.values).lookup name

/-- The values fit the columns. -/
def FitsColumns (columns : List Column) (r : StoredRow) : Prop :=
  columns.length = r.values.length
    ∧ ∀ x ∈ columns.zip r.values, x.1.notNull = true → x.2 ≠ .null

/-- Two rows that a key tells apart only by a NULL clash on nothing. -/
def KeyClash (columns : List Column) (key : List String) (r s : StoredRow) : Prop :=
  ∀ n ∈ key, cell columns r n = cell columns s n ∧ cell columns r n ≠ some .null

instance (columns : List Column) (r : StoredRow) : Decidable (FitsColumns columns r) :=
  inferInstanceAs (Decidable (columns.length = r.values.length
    ∧ ∀ x ∈ columns.zip r.values, x.1.notNull = true → x.2 ≠ .null))

instance (columns : List Column) (key : List String) (r s : StoredRow) :
    Decidable (KeyClash columns key r s) :=
  inferInstanceAs (Decidable
    (∀ n ∈ key, cell columns r n = cell columns s n ∧ cell columns r n ≠ some .null))

/-- The columns and keys of a table are in order. -/
def Declares (columns : List Column) (keys : List (List String)) : Prop :=
  (columns.map Column.name).Nodup ∧ ∀ k ∈ keys, ∀ n ∈ k, n ∈ columns.map Column.name

instance (columns : List Column) (keys : List (List String)) : Decidable (Declares columns keys) :=
  inferInstanceAs (Decidable ((columns.map Column.name).Nodup
    ∧ ∀ k ∈ keys, ∀ n ∈ k, n ∈ columns.map Column.name))

/-- The rows keep to what the columns and keys promise. -/
def Admits (columns : List Column) (keys : List (List String)) (rows : List StoredRow) : Prop :=
  (∀ r ∈ rows, FitsColumns columns r) ∧ (rows.map StoredRow.rowid).Nodup
    ∧ ∀ k ∈ keys, rows.Pairwise fun r s => ¬ KeyClash columns k r s

instance (columns : List Column) (keys : List (List String)) (rows : List StoredRow) :
    Decidable (Admits columns keys rows) :=
  inferInstanceAs (Decidable ((∀ r ∈ rows, FitsColumns columns r) ∧ (rows.map StoredRow.rowid).Nodup
    ∧ ∀ k ∈ keys, rows.Pairwise fun r s => ¬ KeyClash columns k r s))

/-- A table of the file, with its keys (primary and `UNIQUE`). -/
structure StoredTable where
  columns : List Column
  keys : List (List String)
  rows : List StoredRow
  declares : Declares columns keys
  admits : Admits columns keys rows

namespace StoredTable

variable {R R' : StoredTable} {c : Column} {r : StoredRow} {n : String}

/-- The names of the columns. -/
def names (R : StoredTable) : List String := R.columns.map Column.name

/-- The column is declared `NOT NULL`. -/
def isNotNull (column : String) (R : StoredTable) : Bool :=
  R.columns.any fun c => c.name = column && c.notNull

/-- A column may be `NULL` if no column of its name is declared otherwise. -/
theorem isNotNull_eq_false :
    R.isNotNull n = false ↔ ∀ c ∈ R.columns, c.name = n → c.notNull = false := by
  rw [isNotNull, List.any_eq_false]
  simp

/-- A table without rows. -/
def blank (columns : List Column) (keys : List (List String)) (h : Declares columns keys) :
    StoredTable :=
  ⟨columns, keys, [], h, by simp [Admits]⟩

/-! ## Reading a row -/

/-- Values read by name are the same with more columns behind them. -/
theorem lookup_zip_append {names : List String} {values more : List Value} {added : List String}
    (hlen : names.length = values.length) (h : n ∈ names) :
    ((names ++ added).zip (values ++ more)).lookup n = (names.zip values).lookup n := by
  induction names generalizing values with
  | nil => exact absurd h List.not_mem_nil
  | cons m names ih =>
    match values, hlen with
    | v :: values, hlen =>
      rw [List.cons_append, List.cons_append, List.zip_cons_cons, List.zip_cons_cons,
        List.lookup_cons, List.lookup_cons]
      by_cases hm : n = m
      · rw [hm, beq_self_eq_true]
      · rw [beq_false_of_ne hm]
        exact ih (Nat.succ.inj hlen) ((List.mem_cons.mp h).resolve_left hm)

/-- The last column has the last value. -/
theorem lookup_zip_last {names : List String} {values : List Value} {v : Value}
    (hlen : names.length = values.length) (h : n ∉ names) :
    ((names ++ [n]).zip (values ++ [v])).lookup n = some v := by
  induction names generalizing values with
  | nil =>
    match values, hlen with
    | [], _ => simp
  | cons m names ih =>
    match values, hlen with
    | u :: values, hlen =>
      obtain ⟨hm, h⟩ := not_or.mp (List.mem_cons.not.mp h)
      rw [List.cons_append, List.cons_append, List.zip_cons_cons, List.lookup_cons,
        beq_false_of_ne hm]
      exact ih (Nat.succ.inj hlen) h

/-- A fitting row has a value in each column, and none that a `NOT NULL` forbids. -/
theorem exists_cell {columns : List Column} (hfits : FitsColumns columns r) (hc : c ∈ columns)
    (hdup : (columns.map Column.name).Nodup) :
    ∃ v, cell columns r c.name = some v ∧ (c.notNull = true → v ≠ .null) := by
  obtain ⟨hlen, hnull⟩ := hfits
  obtain ⟨values, hvalues⟩ : ∃ values, values = r.values := ⟨_, rfl⟩
  rw [cell, ← hvalues]
  rw [← hvalues] at hlen hnull
  clear hvalues
  induction columns generalizing values with
  | nil => exact absurd hc List.not_mem_nil
  | cons d columns ih =>
    match values, hlen with
    | v :: values, hlen =>
      rw [List.map_cons, List.nodup_cons] at hdup
      rw [List.map_cons, List.zip_cons_cons, List.lookup_cons]
      rw [List.zip_cons_cons, List.forall_mem_cons] at hnull
      rcases List.mem_cons.mp hc with rfl | hc
      · exact ⟨v, by rw [beq_self_eq_true], hnull.1⟩
      · have hne : c.name ≠ d.name := fun h => hdup.1 (h ▸ List.mem_map_of_mem hc)
        rw [beq_false_of_ne hne]
        exact ih hc hdup.2 values hnull.2 (Nat.succ.inj hlen)

/-! ## Adding a column -/

/-- A row with the value of a new column. -/
def extend (v : Value) (r : StoredRow) : StoredRow := ⟨r.rowid, r.values ++ [v]⟩

/-- **A new column leaves the cells of the others as they are.** -/
theorem cell_extend {columns : List Column} (hfits : FitsColumns columns r)
    (h : n ∈ columns.map Column.name) (v : Value) :
    cell (columns ++ [c]) (extend v r) n = cell columns r n := by
  rw [cell, List.map_append, cell]
  exact lookup_zip_append (by rw [List.length_map, hfits.1]) h

/-- The new one holds what it was filled with. -/
theorem cell_extend_new {columns : List Column} (hfits : FitsColumns columns r)
    (h : c.name ∉ columns.map Column.name) (v : Value) :
    cell (columns ++ [c]) (extend v r) c.name = some v := by
  rw [cell, List.map_append]
  exact lookup_zip_last (by rw [List.length_map, hfits.1]) h

/-- Two rows clash in a key with the new column iff they did before. -/
theorem keyClash_extend {columns : List Column} {keys : List (List String)} {key : List String}
    {s : StoredRow} (hd : Declares columns keys) (hk : key ∈ keys) (hr : FitsColumns columns r)
    (hs : FitsColumns columns s) (v : Value) :
    KeyClash (columns ++ [c]) key (extend v r) (extend v s) ↔ KeyClash columns key r s := by
  refine forall₂_congr fun n hn => ?_
  rw [cell_extend hr (hd.2 key hk n hn), cell_extend hs (hd.2 key hk n hn)]

/-- **A table that gets a column with a default still meets its constraints.** -/
theorem admits_extend {columns : List Column} {keys : List (List String)} {rows : List StoredRow}
    (hd : Declares columns keys) (h : Admits columns keys rows)
    (hnull : ¬ (c.notNull = true ∧ c.default = .null)) :
    Admits (columns ++ [c]) keys (rows.map (extend c.default)) := by
  obtain ⟨hfits, hids, hkeys⟩ := h
  refine ⟨List.forall_mem_map.mpr fun r hr => ⟨?_, ?_⟩, ?_, fun k hk => ?_⟩
  · rw [List.length_append, extend, List.length_append, (hfits r hr).1]
    rfl
  · rw [extend, List.zip_append (hfits r hr).1, List.forall_mem_append]
    exact ⟨(hfits r hr).2, List.forall_mem_singleton.mpr fun hn hv => hnull ⟨hn, hv⟩⟩
  · rwa [List.map_map]
  · rw [List.pairwise_map]
    exact (hkeys k hk).imp_of_mem fun hr hs hne h =>
      hne ((keyClash_extend hd hk (hfits _ hr) (hfits _ hs) _).mp h)

/-- `ALTER TABLE … ADD COLUMN`. -/
def addColumn (R : StoredTable) (c : Column) : Except String StoredTable :=
  if hname : c.name ∈ R.names then .error s!"duplicate column name: {c.name}"
  else if hnull : c.notNull = true ∧ c.default = .null then
    .error "Cannot add a NOT NULL column with default value NULL"
  else
    .ok { columns := R.columns ++ [c]
          keys := R.keys
          rows := R.rows.map (extend c.default)
          declares := by
            refine ⟨?_, fun k hk n hn => ?_⟩
            · rw [List.map_append, List.map_singleton]
              exact List.nodup_append.mpr ⟨R.declares.1, List.nodup_singleton _, fun a ha b hb h =>
                hname (List.mem_singleton.mp hb ▸ h ▸ ha)⟩
            · rw [List.map_append]
              exact List.mem_append_left _ (R.declares.2 k hk n hn)
          admits := admits_extend R.declares R.admits hnull }

/-- What `ALTER TABLE … ADD COLUMN` has done. -/
theorem addColumn_ok (h : R.addColumn c = .ok R') : c.name ∉ R.names ∧ R'.columns = R.columns ++ [c]
    ∧ R'.keys = R.keys ∧ R'.rows = R.rows.map (extend c.default) := by
  unfold addColumn at h
  split_ifs at h with hname hnull
  obtain rfl := Except.ok.inj h
  exact ⟨hname, rfl, rfl, rfl⟩

/-- It succeeds for a new name, unless the column must not be `NULL` and defaults to it. -/
theorem exists_addColumn (hname : c.name ∉ R.names)
    (hnull : ¬ (c.notNull = true ∧ c.default = .null)) : ∃ R', R.addColumn c = .ok R' := by
  unfold addColumn
  rw [dif_neg hname, dif_neg hnull]
  exact ⟨_, rfl⟩

/-! ## Copying rows -/

/-- The values a copied row gets: what is selected by name, else the default. -/
def copyRow (columns : List Column) (source : StoredTable) (selected : List String)
    (r : StoredRow) : StoredRow :=
  ⟨r.rowid, columns.map fun c =>
    if c.name ∈ selected then (cell source.columns r c.name).getD .null else c.default⟩

/-- `INSERT INTO … (rowid, selected) SELECT rowid, selected FROM …`. -/
def insertSelect (target source : StoredTable) (selected : List String) :
    Except String StoredTable :=
  if ¬ selected ⊆ source.names then .error "no such column"
  else if ¬ selected ⊆ target.names then .error "table has no column of that name"
  else if h : Admits target.columns target.keys
      (target.rows ++ source.rows.map (copyRow target.columns source selected)) then
    .ok { target with
          rows := target.rows ++ source.rows.map (copyRow target.columns source selected)
          admits := h }
  else .error "constraint failed"

/-- What `INSERT INTO … SELECT` has done. -/
theorem insertSelect_ok {selected : List String} {target : StoredTable}
    (h : insertSelect target R selected = .ok R') : selected ⊆ R.names ∧ R'.columns = target.columns
      ∧ R'.keys = target.keys
      ∧ R'.rows = target.rows ++ R.rows.map (copyRow target.columns R selected) := by
  unfold insertSelect at h
  split_ifs at h with hs ht hadm
  obtain rfl := Except.ok.inj h
  exact ⟨hs, rfl, rfl, rfl⟩

/-- A copied row has the cells that were selected. -/
theorem cell_copyRow {columns : List Column} {selected : List String} (hn : n ∈ selected)
    (hcol : n ∈ columns.map Column.name) (hdup : (columns.map Column.name).Nodup) :
    cell columns (copyRow columns R selected r) n = some ((cell R.columns r n).getD .null) := by
  rw [cell, copyRow]
  induction columns with
  | nil => exact absurd hcol List.not_mem_nil
  | cons d columns ih =>
    rw [List.map_cons, List.nodup_cons] at hdup
    rw [List.map_cons, List.map_cons, List.zip_cons_cons, List.lookup_cons]
    by_cases hd : n = d.name
    · rw [hd, beq_self_eq_true, if_pos (hd ▸ hn)]
    · rw [beq_false_of_ne hd]
      exact ih ((List.mem_cons.mp hcol).resolve_left hd) hdup.2

/-- A copied row has in a selected column what the row had. -/
theorem cell_copyRow_eq {columns : List Column} {selected : List String} (hr : r ∈ R.rows)
    (hn : n ∈ selected) (hcol : n ∈ columns.map Column.name)
    (hdup : (columns.map Column.name).Nodup) (hold : n ∈ R.names) :
    cell columns (copyRow columns R selected r) n = cell R.columns r n := by
  obtain ⟨d, hd, rfl⟩ := List.mem_map.mp hold
  obtain ⟨v, hv, -⟩ := exists_cell (R.admits.1 r hr) hd R.declares.1
  rw [cell_copyRow hn hcol hdup, hv]
  rfl

/-- **The copy of all columns is admitted** where no column promises more than it did. -/
theorem admits_copy {columns : List Column} {keys : List (List String)} {selected : List String}
    (hd : Declares columns keys) (hkeys : ∀ k ∈ keys, k ∈ R.keys)
    (hcols : ∀ c ∈ columns, c.name ∈ selected
      ∧ ∃ d ∈ R.columns, d.name = c.name ∧ (c.notNull = true → d.notNull = true)) :
    Admits columns keys (R.rows.map (copyRow columns R selected)) := by
  have hsel : ∀ n ∈ columns.map Column.name, n ∈ selected ∧ n ∈ R.names := by
    refine List.forall_mem_map.mpr fun c hc => ?_
    obtain ⟨hs, d, hdm, hname, -⟩ := hcols c hc
    exact ⟨hs, hname ▸ List.mem_map_of_mem hdm⟩
  refine ⟨List.forall_mem_map.mpr fun r hr => ⟨?_, ?_⟩, ?_, fun k hk => ?_⟩
  · rw [copyRow, List.length_map]
  · rw [copyRow, ← List.map_prod_left_eq_zip]
    refine List.forall_mem_map.mpr fun c hc hnull => ?_
    obtain ⟨hs, d, hdm, hname, himp⟩ := hcols c hc
    obtain ⟨v, hv, hne⟩ := exists_cell (R.admits.1 r hr) hdm R.declares.1
    change (if c.name ∈ selected then (cell R.columns r c.name).getD .null else c.default) ≠ .null
    rw [if_pos hs, ← hname, hv]
    exact hne (himp hnull)
  · rw [List.map_map]
    exact R.admits.2.1
  · rw [List.pairwise_map]
    refine (R.admits.2.2 k (hkeys k hk)).imp_of_mem fun hr hs hne hclash => hne fun n hn => ?_
    obtain ⟨hmem, hold⟩ := hsel n (hd.2 k hk n hn)
    have h := hclash n hn
    rwa [cell_copyRow_eq hr hmem (hd.2 k hk n hn) hd.1 hold,
      cell_copyRow_eq hs hmem (hd.2 k hk n hn) hd.1 hold] at h

/-- It succeeds into an empty table that admits the copies. -/
theorem exists_insertSelect {selected : List String} {target : StoredTable}
    (hempty : target.rows = []) (hs : selected ⊆ R.names) (ht : selected ⊆ target.names)
    (h : Admits target.columns target.keys (R.rows.map (copyRow target.columns R selected))) :
    ∃ R', insertSelect target R selected = .ok R' := by
  unfold insertSelect
  rw [if_neg (not_not.mpr hs), if_neg (not_not.mpr ht), dif_pos (by rwa [hempty, List.nil_append])]
  exact ⟨_, rfl⟩

/-! ## Inserting a row -/

/-- `INSERT INTO … (names) VALUES (values)`: the row is the last, and the columns not named have
their defaults. -/
def insertValues (R : StoredTable) (values : List (String × Value)) : Except String StoredTable :=
  let row : StoredRow := ⟨(R.rows.map StoredRow.rowid).foldl max 0 + 1,
    R.columns.map fun c => (values.lookup c.name).getD c.default⟩
  if ¬ values.map Prod.fst ⊆ R.names then .error "table has no column of that name"
  else if h : Admits R.columns R.keys (R.rows ++ [row]) then
    .ok { R with
          rows := R.rows ++ [row]
          admits := h }
  else .error "constraint failed"

/-- An inserted row leaves columns and keys as they are. -/
theorem insertValues_ok {values : List (String × Value)} (h : R.insertValues values = .ok R') :
    R'.columns = R.columns ∧ R'.keys = R.keys := by
  unfold insertValues at h
  dsimp only at h
  split_ifs at h
  obtain rfl := Except.ok.inj h
  exact ⟨rfl, rfl⟩

end StoredTable

/-! ## The file -/

/-- An index; a partial one keeps the rows where its column meets a condition. -/
structure Index where
  name : String
  table : String
  columns : List String
  filter : Option (String × String)
  deriving DecidableEq

/-- The columns an index mentions. -/
def Index.mentions (i : Index) : List String := i.columns ++ i.filter.toList.map Prod.fst

/-- What a file holds, by name. -/
structure Catalog where
  table : String → Option StoredTable
  index : String → Option Index

namespace Catalog

/-- A new file. -/
def empty : Catalog := ⟨fun _ => none, fun _ => none⟩

/-- The file with `R` under a name. -/
def setTable (s : Catalog) (name : String) (R : StoredTable) : Catalog :=
  { s with table := Function.update s.table name (some R) }

/-- The table that was put there. -/
theorem table_setTable (s : Catalog) (name : String) (R : StoredTable) :
    (s.setTable name R).table name = some R := Function.update_self ..

/-- The other tables. -/
theorem table_setTable_of_ne {name other : String} (h : other ≠ name) (s : Catalog)
    (R : StoredTable) : (s.setTable name R).table other = s.table other :=
    Function.update_of_ne h ..

/-- `CREATE TABLE`. -/
def createTable (s : Catalog) (name : String) (columns : List Column)
    (keys : List (List String)) : Except String Catalog :=
  if (s.table name).isSome then .error s!"table {name} already exists"
  else if (s.index name).isSome then .error s!"there is already an index named {name}"
  else if h : Declares columns keys then
    .ok (s.setTable name (.blank columns keys h))
  else .error "duplicate column name"

/-- `CREATE TABLE IF NOT EXISTS`. -/
def createTableIfNotExists (s : Catalog) (name : String) (columns : List Column)
    (keys : List (List String)) : Except String Catalog :=
  if (s.table name).isSome then .ok s else s.createTable name columns keys

/-- `CREATE INDEX IF NOT EXISTS`. -/
def createIndexIfNotExists (s : Catalog) (i : Index) : Except String Catalog :=
  match s.table i.table with
  | none => .error s!"no such table: {i.table}"
  | some R =>
    if (s.table i.name).isSome then .error s!"there is already a table named {i.name}"
    else if (s.index i.name).isSome then .ok s
    else if i.mentions ⊆ R.names then
      .ok { s with index := Function.update s.index i.name (some i) }
    else .error "no such column"

/-- `add_column_if_missing`. -/
def addColumnIfMissing (s : Catalog) (table : String) (c : Column) : Except String Catalog :=
  if (s.table table).any fun R => c.name ∈ R.names then .ok s
  else match s.table table with
    | none => .error s!"no such table: {table}"
    | some R => (R.addColumn c).map (s.setTable table)

/-- `column_is_not_null`. -/
def columnIsNotNull (s : Catalog) (table column : String) : Bool :=
  (s.table table).any (StoredTable.isNotNull column)

/-- `DROP TABLE IF EXISTS`: its indexes go with it. -/
def dropTable (s : Catalog) (name : String) : Catalog where
  table := Function.update s.table name none
  index := fun j => (s.index j).filter fun i => i.table ≠ name

/-- `ALTER TABLE … RENAME TO`. -/
def renameTable (s : Catalog) (old new : String) : Except String Catalog :=
  match s.table old with
  | none => .error s!"no such table: {old}"
  | some R =>
    if (s.table new).isSome || (s.index new).isSome then
      .error s!"there is already another table or index with this name: {new}"
    else .ok {
      table := Function.update (Function.update s.table old none) new (some R)
      index := fun j => (s.index j).map fun i =>
        if i.table = old then { i with table := new } else i }

end Catalog

end Permanode
