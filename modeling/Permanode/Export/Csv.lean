import Permanode.Foundations.Csv
import Permanode.Queries.Stats

/-!
# Export/Csv — the files of the export

`field`, `write_query` and `export_csv` (`permanode/src/export.rs`).  A file is a header line and a
line for each row of its query; `NULL` is an empty field.  Read as comma-separated texts, each file
gives its header and the rows' texts, field for field (`exportCsv_reads_back`).

What SQLite and the database write for times (`datetime(…, 'unixepoch')`, the texts of `fetched_at`)
is a parameter (`Clock`).
-/

namespace Permanode

/-- How times are written. -/
structure Clock where
  /-- `datetime(timestamp, 'unixepoch')`, which is `NULL` outside its range -/
  utc : Int64 → Option String
  /-- the text of an instant in the database -/
  instant : Instant → String

/-- `rusqlite::types::Value`; no column of the export is a floating-point number. -/
inductive SqlValue
  | null
  | integer (v : ℤ)
  | text (s : String)
  | blob (bytes : List UInt8)

namespace SqlValue

/-- A boolean column: 0 or 1. -/
def flag (b : Bool) : SqlValue := .integer (if b then 1 else 0)

/-- A column that may be `NULL`. -/
def ofOption {α : Type} (f : α → SqlValue) : Option α → SqlValue
  | none => .null
  | some a => f a

/-- The text of a value in a file. -/
def csv : SqlValue → List Char
  | .null => []
  | .integer v => (toString v).toList
  | .text s => Csv.field s.toList
  | .blob _ => []

/-- The text of a value. -/
def shown : SqlValue → List Char
  | .null => []
  | .integer v => (toString v).toList
  | .text s => s.toList
  | .blob _ => []

end SqlValue

/-! ## Writing -/

/-- The line of a row. -/
def rowLine : List SqlValue → List Char
  | [] => ['\n']
  | [v] => v.csv ++ ['\n']
  | v :: vs => v.csv ++ ',' :: rowLine vs

/-- The text of a file, and the number of its rows. -/
def writeQuery (header : String) (rows : List (List SqlValue)) : List Char × ℕ :=
  (header.toList ++ '\n' :: rows.flatMap rowLine, rows.length)

section Lines

variable (clock : Clock)

/-- A line of `blocks.csv`. -/
def BlockLine.values (l : BlockLine) : List SqlValue :=
  [.integer l.height, .text l.hash, .text l.prevHash, .integer l.timestamp.toInt,
    .ofOption .text (clock.utc l.timestamp), .text l.miner,
    .ofOption (fun v => .integer v.toInt) l.coinbaseValue, .ofOption .integer l.totalFees,
    .ofOption (fun n : ℕ => .integer n) l.logSlots, .flag l.bodyCaptured,
    .ofOption .text l.bodySource, .ofOption .flag l.canonical, .integer l.txCount]

/-- A line of `transactions.csv`. -/
def TransactionLine.values (l : TransactionLine) : List SqlValue :=
  [.integer l.txId, .text l.txid, .integer l.blockHeight, .text l.blockHash,
    .integer l.timestamp.toInt, .ofOption .text (clock.utc l.timestamp), .integer l.fee.toInt,
    .ofOption .flag l.canonical, .flag l.finalized, .flag l.coinbase, .flag l.developmentPayout,
    .ofOption .text l.sender, .integer l.inputSum, .integer l.outputSum, .integer l.txPosition,
    .integer l.pageCount, .text l.contract]

/-- A line of `inputs.csv`. -/
def InputLine.values (l : InputLine) : List SqlValue :=
  [.integer l.txId, .text l.txid, .integer l.inputIndex, .ofOption .text l.address,
    .integer l.amount.toInt, .integer l.slotIndex.toInt, .text l.creationId,
    .integer l.blockHeight, .ofOption .flag l.canonical]

/-- A line of `outputs.csv`. -/
def OutputLine.values (l : OutputLine) : List SqlValue :=
  [.integer l.txId, .text l.txid, .integer l.outputIndex, .text l.address,
    .integer l.amount.toInt, .integer l.slotIndex.toInt, .ofOption .text l.creationId,
    .integer l.blockHeight, .ofOption .flag l.canonical, .flag l.spent, .flag l.spentInGap]

/-- A line of `addresses.csv`. -/
def BalanceRow.values (r : BalanceRow) : List SqlValue :=
  [.text r.address, .integer (Sql.castInteger r.liveBalanceMicronoid), .integer r.liveUtxoCount,
    .text (clock.instant r.fetchedAt)]

/-- The cached balances, the largest first. -/
def Db.addressRows (db : Db) : List BalanceRow :=
  db.addressBalanceCache.rows.insertionSort fun a b =>
    Sql.castInteger b.liveBalanceMicronoid ≤ Sql.castInteger a.liveBalanceMicronoid

/-- The header lines, as they are written. -/
def blocksHeader : String :=
  "height,hash,prev_hash,timestamp,time_utc,miner,coinbase_value,total_fees,log_slots,"
    ++ "body_captured,body_source,canonical,tx_count"

/-- That of `transactions.csv`. -/
def transactionsHeader : String :=
  "tx_id,txid,block_height,block_hash,timestamp,time_utc,fee,canonical,finalized,coinbase,"
    ++ "development_payout,sender,input_sum,output_sum,tx_position,page_count,contract"

/-- That of `inputs.csv`. -/
def inputsHeader : String :=
  "tx_id,txid,input_index,address,amount,slot_index,creation_id,block_height,canonical"

/-- That of `outputs.csv`. -/
def outputsHeader : String :=
  "tx_id,txid,output_index,address,amount,slot_index,creation_id,block_height,canonical,spent,"
    ++ "spent_in_gap"

/-- That of `addresses.csv`. -/
def addressesHeader : String := "address,live_balance,live_utxo_count,fetched_at"

/-- The files, each with the number of rows that is reported. -/
structure ExportedFiles where
  blocks : List Char × ℕ
  transactions : List Char × ℕ
  inputs : List Char × ℕ
  outputs : List Char × ℕ
  addresses : List Char × ℕ

/-- `export_csv`: the files, each the lines of its query. -/
def exportCsv (db : Db) : ExportedFiles where
  blocks := writeQuery blocksHeader (db.blockLines.map (BlockLine.values clock))
  transactions :=
    writeQuery transactionsHeader (db.transactionLines.map (TransactionLine.values clock))
  inputs := writeQuery inputsHeader (db.inputLines.map InputLine.values)
  outputs := writeQuery outputsHeader (db.outputLines.map OutputLine.values)
  addresses := writeQuery addressesHeader (db.addressRows.map (BalanceRow.values clock))

end Lines

/-! ## Reading back -/

/-- A digit needs no quotes. -/
theorem isSpecial_digit {c : Char} (h : c.isDigit) : Csv.isSpecial c = false := by
  rcases hs : Csv.isSpecial c with _ | _
  · rfl
  · have hc : c = ',' ∨ c = '"' ∨ c = '\n' := by simpa [Csv.isSpecial] using hs
    rcases hc with rfl | rfl | rfl <;> exact absurd h (by decide)

/-- Nor does a natural number. -/
theorem any_special_repr (n : ℕ) : (Nat.repr n).toList.any Csv.isSpecial = false := by
  rw [Nat.toList_repr, List.any_eq_false]
  intro c hc
  rw [isSpecial_digit (Nat.isDigit_of_mem_toDigits (by decide) (by decide) hc)]
  exact Bool.false_ne_true

/-- A number needs no quotes. -/
theorem field_integer (v : ℤ) : Csv.field (toString v).toList = (toString v).toList := by
  have hnone : (toString v).toList.any Csv.isSpecial = false := by
    cases v with
    | ofNat n => exact any_special_repr n
    | negSucc n =>
      change ("-" ++ Nat.repr (n + 1)).toList.any Csv.isSpecial = false
      rw [String.toList_append, List.any_append, any_special_repr]
      decide
  rw [Csv.field, hnone, if_neg Bool.false_ne_true]

/-- **A value is written as the field of its text**, quoted where need be. -/
theorem SqlValue.csv_eq_field (v : SqlValue) : v.csv = Csv.field v.shown := by
  match v with
  | .null | .blob _ => rfl
  | .integer v => exact (field_integer v).symm
  | .text _ => rfl

/-- A row is written as the line of its texts. -/
theorem rowLine_eq_line : ∀ vs : List SqlValue, rowLine vs = Csv.line (vs.map SqlValue.shown)
  | [] => rfl
  | [v] => by rw [rowLine, v.csv_eq_field]; rfl
  | v :: w :: vs => by
      have hline : rowLine (v :: w :: vs) = v.csv ++ ',' :: rowLine (w :: vs) := rfl
      rw [hline, v.csv_eq_field, rowLine_eq_line (w :: vs)]
      rfl

/-- **A file reads back**: as its header and the rows' texts, each as many as the header has
columns. -/
structure ReadsBack (file : List Char × ℕ) (columns : List String) (rows : List (List SqlValue)) :
    Prop where
  read : Csv.read file.1 = some (columns.map String.toList :: rows.map (·.map SqlValue.shown))
  count : file.2 = rows.length
  columns : ∀ row ∈ rows, row.length = columns.length

/-- **A file that is written reads back**, if its header line names its columns and every row has a
value for each. -/
theorem readsBack_writeQuery {header : String} {columns : List String}
    {rows : List (List SqlValue)} (hne : columns ≠ [])
    (hheader : header.toList ++ ['\n'] = Csv.line (columns.map String.toList))
    (hrows : ∀ row ∈ rows, row.length = columns.length) :
    ReadsBack (writeQuery header rows) columns rows := by
  refine ⟨?_, rfl, hrows⟩
  have hlines : rows.flatMap rowLine = (rows.map (·.map SqlValue.shown)).flatMap Csv.line := by
    rw [List.flatMap_map]
    exact List.flatMap_congr fun row _ => rowLine_eq_line row
  have htext : (writeQuery header rows).1
      = Csv.write (columns.map String.toList :: rows.map (·.map SqlValue.shown)) := by
    rw [Csv.write, List.flatMap_cons, ← hheader, ← hlines, List.append_assoc]
    rfl
  rw [htext]
  refine Csv.read_write fun fs hfs => ?_
  rcases List.mem_cons.mp hfs with rfl | hfs
  · exact fun h => hne (List.map_eq_nil_iff.mp h)
  · obtain ⟨row, hrow, rfl⟩ := List.mem_map.mp hfs
    intro h
    rw [List.map_eq_nil_iff] at h
    have := hrows row hrow
    rw [h] at this
    exact hne (List.length_eq_zero_iff.mp this.symm)

/-- The columns of `blocks.csv`, as a reader gets them. -/
def blocksColumns : List String :=
  ["height", "hash", "prev_hash", "timestamp", "time_utc", "miner", "coinbase_value", "total_fees",
    "log_slots", "body_captured", "body_source", "canonical", "tx_count"]

/-- Those of `transactions.csv`. -/
def transactionsColumns : List String :=
  ["tx_id", "txid", "block_height", "block_hash", "timestamp", "time_utc", "fee", "canonical",
    "finalized", "coinbase", "development_payout", "sender", "input_sum", "output_sum",
    "tx_position", "page_count", "contract"]

/-- Those of `inputs.csv`. -/
def inputsColumns : List String :=
  ["tx_id", "txid", "input_index", "address", "amount", "slot_index", "creation_id",
    "block_height", "canonical"]

/-- Those of `outputs.csv`. -/
def outputsColumns : List String :=
  ["tx_id", "txid", "output_index", "address", "amount", "slot_index", "creation_id",
    "block_height", "canonical", "spent", "spent_in_gap"]

/-- Those of `addresses.csv`. -/
def addressesColumns : List String := ["address", "live_balance", "live_utxo_count", "fetched_at"]

section Files

variable (clock : Clock) (db : Db)

/-- `blocks.csv` reads back. -/
theorem readsBack_blocks : ReadsBack (exportCsv clock db).blocks blocksColumns
    (db.blockLines.map (BlockLine.values clock)) :=
  readsBack_writeQuery (List.cons_ne_nil _ _) (by decide +kernel)
    (List.forall_mem_map.mpr fun _ _ => rfl)

/-- `transactions.csv` reads back. -/
theorem readsBack_transactions : ReadsBack (exportCsv clock db).transactions transactionsColumns
    (db.transactionLines.map (TransactionLine.values clock)) :=
  readsBack_writeQuery (List.cons_ne_nil _ _) (by decide +kernel)
    (List.forall_mem_map.mpr fun _ _ => rfl)

theorem readsBack_inputs : ReadsBack (exportCsv clock db).inputs inputsColumns
    (db.inputLines.map InputLine.values) :=
  readsBack_writeQuery (List.cons_ne_nil _ _) (by decide +kernel)
    (List.forall_mem_map.mpr fun _ _ => rfl)

theorem readsBack_outputs : ReadsBack (exportCsv clock db).outputs outputsColumns
    (db.outputLines.map OutputLine.values) :=
  readsBack_writeQuery (List.cons_ne_nil _ _) (by decide +kernel)
    (List.forall_mem_map.mpr fun _ _ => rfl)

theorem readsBack_addresses : ReadsBack (exportCsv clock db).addresses addressesColumns
    (db.addressRows.map (BalanceRow.values clock)) :=
  readsBack_writeQuery (List.cons_ne_nil _ _) (by decide +kernel)
    (List.forall_mem_map.mpr fun _ _ => rfl)

/-- **The files of the export read back**, whatever the texts hold: as their headers and the rows'
texts, each row with all its fields; and the rows are counted right. -/
theorem exportCsv_reads_back :
    ReadsBack (exportCsv clock db).blocks blocksColumns
        (db.blockLines.map (BlockLine.values clock))
      ∧ ReadsBack (exportCsv clock db).transactions transactionsColumns
        (db.transactionLines.map (TransactionLine.values clock))
      ∧ ReadsBack (exportCsv clock db).inputs inputsColumns (db.inputLines.map InputLine.values)
      ∧ ReadsBack (exportCsv clock db).outputs outputsColumns
        (db.outputLines.map OutputLine.values)
      ∧ ReadsBack (exportCsv clock db).addresses addressesColumns
        (db.addressRows.map (BalanceRow.values clock)) :=
  ⟨readsBack_blocks clock db, readsBack_transactions clock db, readsBack_inputs clock db,
    readsBack_outputs clock db, readsBack_addresses clock db⟩

end Files

end Permanode
