import Permanode.Core.Catalog
import Permanode.Foundations.Script

/-!
# Core/Migrate — the statements that open a file, and the files they meet

`init_schema` and `migrate_locked` of `core/src/db.rs`, statement by statement, with what each gives
and needs.  A file of an earlier release may lack tables, indexes and columns added since, and may
have `creation_id` as `NOT NULL` (`Catalog.OfRelease`).
-/

namespace Permanode

open Outcome Script

/-! ## The statements -/

/-- A statement of `init_schema` or `migrate_locked`. -/
inductive Statement
  | createTable (name : String) (columns : List Column) (keys : List (List String))
  | createIndex (i : Index)
  | addColumnIfMissing (table : String) (column : Column)
  | relaxOutputCreationId
  deriving DecidableEq

/-- A column that may be `NULL`. -/
def nullableColumn (name declType : String) : Column := ⟨name, declType, false, .null, none⟩

/-- One that is `NOT NULL`. -/
def requiredColumn (name declType : String) : Column := ⟨name, declType, true, .null, none⟩

/-- `INTEGER NOT NULL REFERENCES table(id)`. -/
def referringColumn (name table : String) : Column := ⟨name, "INTEGER", true, .null, some table⟩

/-- `INTEGER NOT NULL DEFAULT 0`. -/
def zeroColumn (name : String) : Column := ⟨name, "INTEGER", true, .integer 0, none⟩

/-- `init_schema`. -/
def initSchema : List Statement := [
  .createTable "blocks" [
    nullableColumn "id" "INTEGER", requiredColumn "height" "INTEGER", requiredColumn "hash" "TEXT",
    requiredColumn "prev_hash" "TEXT", requiredColumn "state_root" "TEXT",
    requiredColumn "tx_root" "TEXT", requiredColumn "timestamp" "INTEGER",
    requiredColumn "miner" "TEXT", requiredColumn "nonce_hex" "TEXT",
    requiredColumn "difficulty_target" "TEXT", nullableColumn "proof_class" "TEXT",
    nullableColumn "reward_micronoid" "INTEGER", nullableColumn "total_fees_micronoid" "TEXT",
    requiredColumn "body_captured" "INTEGER", requiredColumn "first_seen_at" "TEXT"]
    [["id"], ["height", "hash"]],
  .createIndex ⟨"idx_blocks_height", "blocks", ["height"], none⟩,
  .createTable "block_status_log" [
    nullableColumn "id" "INTEGER", referringColumn "block_id" "blocks",
    requiredColumn "status" "TEXT", requiredColumn "observed_at" "TEXT"] [["id"]],
  .createIndex ⟨"idx_status_log_block", "block_status_log", ["block_id"], none⟩,
  .createTable "transactions" [
    nullableColumn "id" "INTEGER", referringColumn "block_id" "blocks",
    requiredColumn "position" "INTEGER", requiredColumn "txid" "TEXT",
    requiredColumn "page_count" "INTEGER", requiredColumn "fee_micronoid" "INTEGER",
    requiredColumn "coinbase" "INTEGER", requiredColumn "development_payout" "INTEGER",
    requiredColumn "epoch_anchor" "TEXT", nullableColumn "input_owner" "TEXT",
    requiredColumn "input_sum_micronoid" "TEXT", requiredColumn "output_sum_micronoid" "TEXT"]
    [["id"], ["block_id", "position"]],
  .createIndex ⟨"idx_tx_txid", "transactions", ["txid"], none⟩,
  .createIndex ⟨"idx_tx_block", "transactions", ["block_id"], none⟩,
  .createIndex ⟨"idx_tx_owner", "transactions", ["input_owner"], none⟩,
  .createTable "tx_page_hashes" [
    referringColumn "tx_id" "transactions", requiredColumn "idx" "INTEGER",
    requiredColumn "page_hash" "TEXT"] [["tx_id", "idx"]],
  .createTable "tx_inputs" [
    referringColumn "tx_id" "transactions", requiredColumn "idx" "INTEGER",
    requiredColumn "page" "INTEGER", requiredColumn "lane" "INTEGER",
    requiredColumn "slot_index" "INTEGER", requiredColumn "amount_micronoid" "INTEGER",
    requiredColumn "creation_id" "TEXT"] [["tx_id", "idx"]],
  .createTable "tx_outputs" [
    referringColumn "tx_id" "transactions", requiredColumn "idx" "INTEGER",
    requiredColumn "page" "INTEGER", requiredColumn "lane" "INTEGER",
    requiredColumn "slot_index" "INTEGER", requiredColumn "amount_micronoid" "INTEGER",
    requiredColumn "owner" "TEXT", nullableColumn "creation_id" "TEXT"] [["tx_id", "idx"]],
  .createIndex ⟨"idx_outputs_owner", "tx_outputs", ["owner"], none⟩,
  .createTable "ingest_gaps" [
    nullableColumn "height" "INTEGER", nullableColumn "hash" "TEXT",
    requiredColumn "detected_at" "TEXT", requiredColumn "note" "TEXT"] [["height"]],
  .createTable "indexer_state" [
    nullableColumn "key" "TEXT", requiredColumn "value" "TEXT"] [["key"]],
  .createTable "address_balance_cache" [
    nullableColumn "address" "TEXT", requiredColumn "live_balance_micronoid" "TEXT",
    requiredColumn "live_utxo_count" "INTEGER", requiredColumn "fetched_at" "TEXT"] [["address"]]]

/-- `migrate_locked`. -/
def migrateLocked : List Statement := [
  .addColumnIfMissing "blocks" (nullableColumn "body_source" "TEXT"),
  .addColumnIfMissing "ingest_gaps" (nullableColumn "resolved_at" "TEXT"),
  .addColumnIfMissing "ingest_gaps" (nullableColumn "resolution" "TEXT"),
  .addColumnIfMissing "tx_outputs" (zeroColumn "spent_in_gap"),
  .addColumnIfMissing "tx_outputs" (nullableColumn "spent_in_gap_at" "TEXT"),
  .addColumnIfMissing "blocks" (nullableColumn "log_slots" "INTEGER"),
  .addColumnIfMissing "transactions" (zeroColumn "contract_flags"),
  .addColumnIfMissing "blocks" (nullableColumn "contracts_scanned" "INTEGER"),
  .createTable "state_slots" [
    nullableColumn "slot_index" "INTEGER", requiredColumn "segment" "INTEGER",
    requiredColumn "creation_id" "TEXT", requiredColumn "owner" "TEXT",
    requiredColumn "amount_micronoid" "INTEGER", requiredColumn "seen_height" "INTEGER",
    requiredColumn "seen_at" "TEXT"] [["slot_index"]],
  .createIndex ⟨"idx_state_slots_segment", "state_slots", ["segment"], none⟩,
  .createIndex ⟨"idx_state_slots_creation", "state_slots", ["creation_id"], none⟩,
  .createIndex ⟨"idx_outputs_slot", "tx_outputs", ["slot_index"], none⟩,
  .createIndex ⟨"idx_inputs_creation", "tx_inputs", ["creation_id"], none⟩,
  .createIndex ⟨"idx_outputs_creation", "tx_outputs", ["creation_id"], none⟩,
  .createIndex ⟨"idx_blocks_timestamp", "blocks", ["timestamp"], none⟩,
  .createIndex ⟨"idx_tx_contract", "transactions", ["block_id"],
    some ("contract_flags", "contract_flags != 0")⟩,
  .createIndex ⟨"idx_blocks_miner", "blocks", ["miner", "body_source", "height"], none⟩,
  .createIndex ⟨"idx_blocks_header_only", "blocks", ["height"],
    some ("body_source", "body_source = 'header'")⟩,
  .createIndex ⟨"idx_blocks_archive_height", "blocks", ["height", "body_source"],
    some ("body_source", "body_source IS NOT 'header'")⟩,
  .createIndex ⟨"idx_blocks_archive_timestamp", "blocks", ["timestamp", "body_source"],
    some ("body_source", "body_source IS NOT 'header'")⟩,
  .addColumnIfMissing "transactions" (nullableColumn "source" "TEXT"),
  .addColumnIfMissing "blocks" (nullableColumn "tx_count_total" "INTEGER"),
  .addColumnIfMissing "blocks" (nullableColumn "tip_seen_at_ms" "INTEGER"),
  .createIndex ⟨"idx_blocks_seen", "blocks", ["height"],
    some ("tip_seen_at_ms", "tip_seen_at_ms IS NOT NULL")⟩,
  .createTable "tx_receipts" [
    ⟨"tx_id", "INTEGER", false, .null, some "transactions"⟩, requiredColumn "receipt_hex" "TEXT",
    requiredColumn "imported_at" "TEXT"] [["tx_id"]],
  .createIndex ⟨"idx_tx_receipt", "transactions", ["block_id"],
    some ("source", "source = 'receipt'")⟩,
  .relaxOutputCreationId,
  .createTable "raw_blocks" [
    ⟨"block_id", "INTEGER", false, .null, some "blocks"⟩, requiredColumn "codec" "TEXT",
    requiredColumn "raw_len" "INTEGER", requiredColumn "data" "BLOB",
    requiredColumn "source" "TEXT", requiredColumn "stored_at" "TEXT"] [["block_id"]]]

/-! ### The rebuild of `tx_outputs` -/

/-- The columns of `tx_outputs_new`. -/
def rebuiltColumns : List Column := [
  referringColumn "tx_id" "transactions", requiredColumn "idx" "INTEGER",
  requiredColumn "page" "INTEGER", requiredColumn "lane" "INTEGER",
  requiredColumn "slot_index" "INTEGER", requiredColumn "amount_micronoid" "INTEGER",
  requiredColumn "owner" "TEXT", nullableColumn "creation_id" "TEXT",
  zeroColumn "spent_in_gap", nullableColumn "spent_in_gap_at" "TEXT"]

/-- The columns copied to it. -/
def copiedNames : List String := ["tx_id", "idx", "page", "lane", "slot_index", "amount_micronoid",
  "owner", "creation_id", "spent_in_gap", "spent_in_gap_at"]

/-- The indexes recreated after it. -/
def outputIndexes : List Index := [⟨"idx_outputs_owner", "tx_outputs", ["owner"], none⟩,
  ⟨"idx_outputs_creation", "tx_outputs", ["creation_id"], none⟩,
  ⟨"idx_outputs_slot", "tx_outputs", ["slot_index"], none⟩]

namespace Catalog

/-- `relax_output_creation_id`. -/
def relaxOutputCreationId (s : Catalog) : Except String Catalog :=
  if !s.columnIsNotNull "tx_outputs" "creation_id" then .ok s
  else do
    let source ← orError "no such table: tx_outputs" (s.table "tx_outputs")
    let rows := source.rows.length
    let s₁ ← (s.dropTable "tx_outputs_new").createTable "tx_outputs_new" rebuiltColumns
      [["tx_id", "idx"]]
    let target ← orError "no such table: tx_outputs_new" (s₁.table "tx_outputs_new")
    let copy ← target.insertSelect source copiedNames
    bailIf (copy.rows.length ≠ rows)
      s!"tx_outputs rebuild copied {copy.rows.length} of {rows} rows"
    let s₂ ← ((s₁.setTable "tx_outputs_new" copy).dropTable "tx_outputs").renameTable
      "tx_outputs_new" "tx_outputs"
    outputIndexes.foldlM createIndexIfNotExists s₂

end Catalog

/-- A statement, run on a file. -/
def Statement.exec : Statement → Catalog → Except String Catalog
  | .createTable name columns keys, s => s.createTableIfNotExists name columns keys
  | .createIndex i, s => s.createIndexIfNotExists i
  | .addColumnIfMissing table column, s => s.addColumnIfMissing table column
  | .relaxOutputCreationId, s => s.relaxOutputCreationId

/-- All statements of an `open`. -/
def script : List Statement := initSchema ++ migrateLocked

/-! ## What they give -/

/-- What a statement makes sure of. -/
inductive Fact
  | table (name : String)
  | column (table name : String)
  | index (name table : String)
  | nullable (table column : String)
  deriving DecidableEq

/-- The fact stands in the file. -/
def Fact.Holds : Fact → Catalog → Prop
  | .table n, s => (s.table n).isSome
  | .column n c, s => ∃ R, s.table n = some R ∧ c ∈ R.names
  | .index n on, s => ∃ i, s.index n = some i ∧ i.table = on
  | .nullable n c, s => s.columnIsNotNull n c = false

/-- The facts a statement makes sure of. -/
def Statement.gives : Statement → List Fact
  | .createTable n columns _ => .table n :: columns.map fun c => .column n c.name
  | .createIndex i => [.index i.name i.table]
  | .addColumnIfMissing n c => [.column n c.name]
  | .relaxOutputCreationId => [.nullable "tx_outputs" "creation_id"]

/-- The facts it fails without. -/
def Statement.needs : Statement → List Fact
  | .createTable .. => []
  | .createIndex i => .table i.table :: i.mentions.map (.column i.table)
  | .addColumnIfMissing n _ => [.table n]
  | .relaxOutputCreationId => .table "tx_outputs" :: copiedNames.map (.column "tx_outputs")

/-- Of the columns that may be NULL, the script frees one. -/
def Fact.Kept : Fact → Prop
  | .nullable n c => n = "tx_outputs" ∧ c = "creation_id"
  | _ => True

instance : DecidablePred Fact.Kept
  | .nullable n c => inferInstanceAs (Decidable (n = "tx_outputs" ∧ c = "creation_id"))
  | .table _ => .isTrue trivial
  | .column _ _ => .isTrue trivial
  | .index _ _ => .isTrue trivial

/-! ## Files of this and of earlier releases -/

/-- The columns and keys a statement creates the table `n` with, if it does. -/
def Statement.creates (n : String) : Statement → Option (List Column × List (List String))
  | .createTable m columns keys => if m = n then some (columns, keys) else none
  | _ => none

/-- The column it adds to it, if it does. -/
def Statement.adds (n : String) : Statement → Option Column
  | .addColumnIfMissing m c => if m = n then some c else none
  | _ => none

/-- The index it creates, if it does. -/
def Statement.index? : Statement → Option Index
  | .createIndex i => some i
  | _ => none

/-- The columns and keys a table is created with. -/
def created (n : String) : Option (List Column × List (List String)) :=
  script.findSome? (Statement.creates n)

/-- The columns added to it since. -/
def added (n : String) : List Column := script.filterMap (Statement.adds n)

/-- The indexes of the script. -/
def indexSpecs : List Index := script.filterMap Statement.index?

/-- A column of a file is the one of the script; earlier, `creation_id` was `NOT NULL`. -/
def Column.Was (n : String) (c b : Column) : Prop :=
  c = b ∨ n = "tx_outputs" ∧ b.name = "creation_id" ∧ c = { b with notNull := true }

/-- A table as this or an earlier release left it: some columns added since may be missing. -/
def StoredTable.OfRelease (n : String) (R : StoredTable) : Prop :=
  ∃ d, created n = some d ∧ R.keys = d.2
    ∧ (∀ c ∈ R.columns, ∃ b ∈ d.1 ++ added n, c.Was n b) ∧ ∀ b ∈ d.1, b.name ∈ R.names

/-- **A file as this or an earlier release left it**: tables and indexes may be missing. -/
structure Catalog.OfRelease (s : Catalog) : Prop where
  tables : ∀ n R, s.table n = some R → R.OfRelease n
  indexes : ∀ n i, s.index n = some i →
    (∃ j ∈ indexSpecs, j.name = n ∧ j.table = i.table) ∧ (s.table i.table).isSome

/-- A row with its values, and the defaults in the columns that are new. -/
def RowKept (R R' : StoredTable) (r r' : StoredRow) : Prop :=
  r'.rowid = r.rowid ∧ (∀ n ∈ R.names, cell R'.columns r' n = cell R.columns r n)
    ∧ ∀ c ∈ R'.columns, c.name ∉ R.names → cell R'.columns r' c.name = some c.default

/-- **Every row is kept, in its order.** -/
structure StoredTable.KeptBy (R R' : StoredTable) : Prop where
  columns : ∀ c ∈ R.columns, ∃ c' ∈ R'.columns, c'.name = c.name ∧ c'.default = c.default
  rows : List.Forall₂ (RowKept R R') R.rows R'.rows

/-- **Nothing of a file is lost.** -/
structure Catalog.Extends (s s' : Catalog) : Prop where
  tables : ∀ n R, s.table n = some R → ∃ R', s'.table n = some R' ∧ R.KeptBy R'
  indexes : ∀ n i, s.index n = some i → ∃ i', s'.index n = some i' ∧ i'.table = i.table
  nullable : s.columnIsNotNull "tx_outputs" "creation_id" = false →
    s'.columnIsNotNull "tx_outputs" "creation_id" = false

/-! ### What the script says -/

/-- What the proofs use of a statement of the script, and can be read off it. -/
def Statement.proper : Statement → Bool
  | .createTable n columns keys => decide (created n = some (columns, keys))
      && decide (Declares columns keys) && decide (∀ j ∈ indexSpecs, j.name ≠ n)
      && decide (n = "tx_outputs" → ∀ c ∈ columns, c.name = "creation_id" → c.notNull = false)
  | .createIndex i => decide (i ∈ indexSpecs) && decide (created i.name = none)
  | .addColumnIfMissing n c => decide (c ∈ added n)
      && !(c.notNull && decide (c.default = .null)) && decide (c.name ≠ "creation_id")
  | .relaxOutputCreationId => true

/-- The columns of a table, those added since among them, have names of their own. -/
def Statement.distinct : Statement → Bool
  | .createTable n columns _ => decide ((columns ++ added n).map Column.name).Nodup
  | _ => true

/-- What is checked of each statement of the script, all at once. -/
theorem checked_script : ∀ t ∈ script, t.proper = true
    ∧ ((∀ f ∈ t.needs, f.Kept) ∧ ∀ f ∈ t.gives, f.Kept) ∧ t.distinct = true := by
  decide +kernel

/-- Every statement is proper: it declares what this release has. -/
theorem proper_script (t : Statement) (ht : t ∈ script) : t.proper = true := (checked_script t ht).1

/-- What a statement needs and what it gives is kept by those that follow. -/
theorem kept_script (t : Statement) (ht : t ∈ script) :
    (∀ f ∈ t.needs, f.Kept) ∧ ∀ f ∈ t.gives, f.Kept := (checked_script t ht).2.1

/-- No statement declares a column twice. -/
theorem distinct_script (t : Statement) (ht : t ∈ script) : t.distinct = true :=
  (checked_script t ht).2.2

/-- The name of an index decides its table. -/
theorem table_of_name :
    ∀ i ∈ indexSpecs, ∀ j ∈ indexSpecs, i.name = j.name → i.table = j.table := by
  decide +kernel

/-- No index has to do with the table of the rebuild, and those on `tx_outputs` are recreated. -/
theorem checked_indexes : ∀ j ∈ indexSpecs, (j.name ≠ "tx_outputs" ∧ j.name ≠ "tx_outputs_new"
    ∧ j.table ≠ "tx_outputs_new")
      ∧ (j.table = "tx_outputs" → ∃ i ∈ outputIndexes, i.name = j.name) := by
  decide +kernel

/-- No index is named like the tables of the rebuild, and none is on the new one. -/
theorem not_index_outputs (j : Index) (hj : j ∈ indexSpecs) : j.name ≠ "tx_outputs"
    ∧ j.name ≠ "tx_outputs_new" ∧ j.table ≠ "tx_outputs_new" := (checked_indexes j hj).1

/-- Every index on `tx_outputs` is created again after the rebuild. -/
theorem outputIndexes_of_table (j : Index) (hj : j ∈ indexSpecs) (h : j.table = "tx_outputs") :
    ∃ i ∈ outputIndexes, i.name = j.name := (checked_indexes j hj).2 h

/-- The columns `tx_outputs` is created with. -/
def createdOutputs : List Column := rebuiltColumns.take 8

/-- The rebuilt table is the one of this release, with its columns in their order. -/
theorem checked_rebuild : created "tx_outputs" = some (createdOutputs, [["tx_id", "idx"]])
    ∧ createdOutputs ++ added "tx_outputs" = rebuiltColumns
    ∧ rebuiltColumns.map Column.name = copiedNames ∧ created "tx_outputs_new" = none
    ∧ Declares rebuiltColumns [["tx_id", "idx"]]
    ∧ ∀ i ∈ outputIndexes, i ∈ indexSpecs ∧ i.table = "tx_outputs" ∧ created i.name = none
      ∧ i.mentions ⊆ copiedNames ∧ i.name ≠ "tx_outputs" ∧ i.name ≠ "tx_outputs_new" := by
  decide +kernel

/-- `tx_outputs`, as `init_schema` creates it. -/
theorem created_outputs : created "tx_outputs" = some (createdOutputs, [["tx_id", "idx"]]) :=
  checked_rebuild.1

/-- With the columns that were added it has those of the rebuilt table. -/
theorem outputs_columns : createdOutputs ++ added "tx_outputs" = rebuiltColumns :=
  checked_rebuild.2.1

/-- The rebuild copies every column. -/
theorem names_rebuilt : rebuiltColumns.map Column.name = copiedNames := checked_rebuild.2.2.1

/-- No other statement creates the new table. -/
theorem created_new : created "tx_outputs_new" = none := checked_rebuild.2.2.2.1

/-- The columns and keys of the rebuilt table fit each other. -/
theorem declares_rebuilt : Declares rebuiltColumns [["tx_id", "idx"]] := checked_rebuild.2.2.2.2.1

/-- The indexes created after the rebuild are indexes of `tx_outputs` on columns it copies. -/
theorem outputIndexes_spec : ∀ i ∈ outputIndexes, i ∈ indexSpecs ∧ i.table = "tx_outputs"
    ∧ created i.name = none ∧ i.mentions ⊆ copiedNames ∧ i.name ≠ "tx_outputs"
    ∧ i.name ≠ "tx_outputs_new" := checked_rebuild.2.2.2.2.2

end Permanode
