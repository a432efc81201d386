import Permanode.Export.Csv
import Permanode.Foundations.Joins

/-!
# Export/Joins — the files join on `tx_id`

`tx_id` is the key of `transactions.csv`, and each line of the inputs and outputs has one that is
there.  So a reader of the files alone finds the one transaction each record belongs to, agrees with
it on what both say of it, and misses no row (`export_joins`).
-/

namespace Permanode

namespace Db

variable {db : Db} {txId : ℕ} {t : TransactionRow} {b : BlockRow}

theorem recordedIn_eq_some : db.recordedIn txId = some (t, b) ↔
    db.transaction? txId = some t ∧ db.block? t.blockId = some b ∧ t.recorded := by
  simp only [recordedIn, bind, Option.bind_eq_some_iff]
  constructor
  · rintro ⟨t', ht, b', hb, hrec⟩
    split_ifs at hrec with h
    obtain ⟨rfl, rfl⟩ := Prod.mk.inj (Option.some.inj hrec)
    exact ⟨ht, hb, h⟩
  · rintro ⟨ht, hb, h⟩
    exact ⟨t, ht, b, hb, if_pos h⟩

theorem recordedIn_id (h : db.recordedIn txId = some (t, b)) :
    t ∈ db.transactions.rows ∧ t.id = txId ∧ db.recordedIn t.id = some (t, b) := by
  obtain ⟨ht, hid⟩ := mem_of_transaction? (recordedIn_eq_some.mp h).1
  exact ⟨ht, hid, by rwa [hid]⟩

/-- The transactions of the export with their blocks. -/
theorem mem_recorded : (t, b) ∈ db.transactions.rows.filterMap (fun t => db.recordedIn t.id) ↔
    db.recordedIn t.id = some (t, b) := by
  rw [List.mem_filterMap]
  constructor
  · rintro ⟨t', -, h⟩
    exact (recordedIn_id h).2.2
  · exact fun h => ⟨t, (recordedIn_id h).1, h⟩

/-- **`tx_id` is a key of the transactions.** -/
theorem nodup_txIds : (db.transactionLines.map TransactionLine.txId).Nodup := by
  have hids : ∀ l : List TransactionRow,
      ((l.filterMap fun t => db.recordedIn t.id).map fun r => r.1.id).Sublist
        (l.map TransactionRow.id) := by
    intro l
    induction l with
    | nil => exact List.Sublist.slnil
    | cons t l ih =>
      rw [List.filterMap_cons, List.map_cons]
      rcases hrec : db.recordedIn t.id with _ | ⟨t', b⟩
      · exact ih.cons _
      · rw [List.map_cons]
        have hid : t'.id = t.id := (recordedIn_id hrec).2.1
        exact hid ▸ ih.cons_cons t'.id
  rw [transactionLines, List.map_map]
  exact ((List.perm_insertionSort _ _).map _).nodup_iff.mpr
    ((db.nodup_transactionIds).sublist (hids _))

/-- A recorded transaction has its line. -/
theorem transactionLine_of (h : db.recordedIn txId = some (t, b)) :
    ∃ l ∈ db.transactionLines, l.txId = txId ∧ l.txid = t.txid ∧ l.blockHeight = b.height
      ∧ l.canonical = db.canonicalColumn b.id ∧ l.sender = t.inputOwner := by
  obtain ⟨-, hid, hself⟩ := recordedIn_id h
  exact ⟨_, List.mem_map.mpr ⟨(t, b), (List.mem_insertionSort _).mpr (mem_recorded.mpr hself), rfl⟩,
    hid, rfl, rfl, rfl, rfl⟩

/-- **A recorded transaction is found by its `tx_id`**, alone. -/
theorem filter_txId (h : db.recordedIn txId = some (t, b)) :
    ∃ l, db.transactionLines.filter (fun l => l.txId = txId) = [l] ∧ l.txId = txId
      ∧ l.txid = t.txid ∧ l.blockHeight = b.height ∧ l.canonical = db.canonicalColumn b.id
      ∧ l.sender = t.inputOwner := by
  obtain ⟨l, hl, hid, hrest⟩ := transactionLine_of h
  refine ⟨l, ?_, hid, hrest⟩
  have hmem : l ∈ db.transactionLines.filter fun l => l.txId = txId :=
    List.mem_filter.mpr ⟨hl, decide_eq_true hid⟩
  rw [filter_key_eq_find? txId nodup_txIds] at hmem ⊢
  rw [Option.mem_toList.mp hmem]
  rfl

/-- An input's line is of the transaction it belongs to. -/
theorem inputLine_of {l : InputLine} (hl : l ∈ db.inputLines) : ∃ t b,
    db.recordedIn l.txId = some (t, b) ∧ l.txid = t.txid ∧ l.address = t.inputOwner
      ∧ l.blockHeight = b.height ∧ l.canonical = db.canonicalColumn b.id := by
  obtain ⟨⟨i, t, b⟩, hmem, rfl⟩ := List.mem_map.mp hl
  obtain ⟨i', -, hi⟩ := List.mem_filterMap.mp ((List.mem_insertionSort _).mp hmem)
  obtain ⟨⟨t', b'⟩, hrec, heq⟩ := Option.map_eq_some_iff.mp hi
  obtain ⟨rfl, rfl, rfl⟩ : i' = i ∧ t' = t ∧ b' = b := by simpa using heq
  exact ⟨t', b', (recordedIn_id hrec).2.2, rfl, rfl, rfl, rfl⟩

/-- An output's line is of the transaction it belongs to. -/
theorem outputLine_of {l : OutputLine} (hl : l ∈ db.outputLines) : ∃ t b,
    db.recordedIn l.txId = some (t, b) ∧ l.txid = t.txid
      ∧ l.blockHeight = b.height ∧ l.canonical = db.canonicalColumn b.id := by
  obtain ⟨⟨o, t, b⟩, hmem, rfl⟩ := List.mem_map.mp hl
  obtain ⟨o', -, ho⟩ := List.mem_filterMap.mp ((List.mem_insertionSort _).mp hmem)
  obtain ⟨⟨t', b'⟩, hrec, heq⟩ := Option.map_eq_some_iff.mp ho
  obtain ⟨rfl, rfl, rfl⟩ : o' = o ∧ t' = t ∧ b' = b := by simpa using heq
  exact ⟨t', b', (recordedIn_id hrec).2.2, rfl, rfl, rfl⟩

end Db

/-! ## Records -/

/-- A record of a file. -/
abbrev Record : Type := List (List Char)

/-- **Records find what they belong to**: the first field of each is that of one record of `ts`, and
the two agree in the columns that are paired. -/
def JoinsOnce (ts rs : List Record) (columns : List (ℕ × ℕ)) : Prop :=
  ∀ r ∈ rs, ∃ t, ts.filter (fun t => t[0]? = r[0]?) = [t] ∧ ∀ p ∈ columns, r[p.1]? = t[p.2]?

/-- How many records begin with a field. -/
def countFirst (rs : List Record) (f : List Char) : ℕ := rs.countP fun r => r[0]? = some f

/-- The text of a row's key. -/
def keyText (n : ℕ) : List Char := (SqlValue.integer n).shown

theorem keyText_injective : Function.Injective keyText := fun _ _ h =>
  Text.repr_injective (String.toList_injective h)

/-- The records of rows. -/
def records {ρ : Type} (values : ρ → List SqlValue) (rows : List ρ) : List Record :=
  (rows.map values).map (·.map SqlValue.shown)

section Keyed

variable {ρ : Type} {values : ρ → List SqlValue} {key : ρ → ℕ}

/-- The key stands first in a row's record. -/
theorem shown_first (hkey : ∀ l, (values l)[0]? = some (.integer (key l))) (l : ρ) :
    ((values l).map SqlValue.shown)[0]? = some (keyText (key l)) := by
  rw [List.getElem?_map, hkey]
  rfl

/-- **Looking for a key's text in the records is looking for the key in the rows.** -/
theorem filter_records (hkey : ∀ l, (values l)[0]? = some (.integer (key l))) (rows : List ρ)
    (n : ℕ) : (records values rows).filter (fun r => r[0]? = some (keyText n))
      = records values (rows.filter fun l => key l = n) := by
  rw [records, records, List.map_map, List.map_map, List.filter_map]
  refine congrArg _ (List.filter_congr fun l _ => ?_)
  rw [Function.comp_apply, Function.comp_apply, shown_first hkey, decide_eq_decide,
    Option.some.injEq]
  exact keyText_injective.eq_iff

theorem countFirst_records (hkey : ∀ l, (values l)[0]? = some (.integer (key l)))
    (rows : List ρ) (n : ℕ) :
    countFirst (records values rows) (keyText n) = rows.countP fun l => key l = n := by
  rw [countFirst, List.countP_eq_length_filter, filter_records hkey, records, List.length_map,
    List.length_map, List.countP_eq_length_filter]

end Keyed

theorem TransactionLine.first {clock : Clock} (l : TransactionLine) :
    (l.values clock)[0]? = some (.integer l.txId) := rfl

theorem InputLine.first (l : InputLine) : l.values[0]? = some (.integer l.txId) := rfl

theorem OutputLine.first (l : OutputLine) : l.values[0]? = some (.integer l.txId) := rfl

namespace Db

variable {ρ : Type} {values : ρ → List SqlValue} {key : ρ → ℕ} {rows : List ρ}
  {columns : List (ℕ × ℕ)}

/-- Rows whose transactions are in the file join with it, where what they say of their transaction
is what its line says. -/
theorem joinsOnce_records (clock : Clock) (db : Db)
    (hkey : ∀ l, (values l)[0]? = some (.integer (key l)))
    (hof : ∀ l ∈ rows, (db.recordedIn (key l)).isSome)
    (hagree : ∀ l ∈ rows, ∀ t b, db.recordedIn (key l) = some (t, b) →
      ∀ lt : TransactionLine, lt.txId = key l → lt.txid = t.txid → lt.blockHeight = b.height →
        lt.canonical = db.canonicalColumn b.id → lt.sender = t.inputOwner →
          ∀ p ∈ columns, (values l)[p.1]? = (lt.values clock)[p.2]?) :
    JoinsOnce (records (TransactionLine.values clock) db.transactionLines) (records values rows)
      columns := by
  intro r hr
  obtain ⟨vs, hvs, rfl⟩ := List.mem_map.mp hr
  obtain ⟨l, hl, rfl⟩ := List.mem_map.mp hvs
  obtain ⟨⟨t, b⟩, hrec⟩ := Option.isSome_iff_exists.mp (hof l hl)
  obtain ⟨lt, hfilter, hid, htxid, hheight, hcanonical, hsender⟩ := filter_txId hrec
  refine ⟨(lt.values clock).map SqlValue.shown, ?_, fun p hp => ?_⟩
  · rw [shown_first hkey, filter_records TransactionLine.first, hfilter]
    rfl
  · rw [List.getElem?_map, List.getElem?_map,
      hagree l hl t b hrec lt hid htxid hheight hcanonical hsender p hp]

theorem joinsOnce_inputs (clock : Clock) (db : Db) :
    JoinsOnce (records (TransactionLine.values clock) db.transactionLines)
      (records InputLine.values db.inputLines) [(0, 0), (1, 1), (3, 11), (7, 2), (8, 7)] := by
  refine joinsOnce_records clock db InputLine.first (fun l hl => ?_)
    fun l hl t b hrec lt hid htxid hheight hcanonical hsender => ?_
  · obtain ⟨t, b, hrec, -⟩ := inputLine_of hl
    exact Option.isSome_of_eq_some hrec
  · obtain ⟨t', b', hrec', htxid', haddress, hheight', hcanonical'⟩ := inputLine_of hl
    obtain ⟨rfl, rfl⟩ : t' = t ∧ b' = b := by simpa using hrec'.symm.trans hrec
    simp [InputLine.values, TransactionLine.values, hid, htxid, hheight, hcanonical, hsender,
      htxid', haddress, hheight', hcanonical']

theorem joinsOnce_outputs (clock : Clock) (db : Db) :
    JoinsOnce (records (TransactionLine.values clock) db.transactionLines)
      (records OutputLine.values db.outputLines) [(0, 0), (1, 1), (7, 2), (8, 7)] := by
  refine joinsOnce_records clock db OutputLine.first (fun l hl => ?_)
    fun l hl t b hrec lt hid htxid hheight hcanonical hsender => ?_
  · obtain ⟨t, b, hrec, -⟩ := outputLine_of hl
    exact Option.isSome_of_eq_some hrec
  · obtain ⟨t', b', hrec', htxid', hheight', hcanonical'⟩ := outputLine_of hl
    obtain ⟨rfl, rfl⟩ : t' = t ∧ b' = b := by simpa using hrec'.symm.trans hrec
    simp [OutputLine.values, TransactionLine.values, hid, htxid, hheight, hcanonical,
      htxid', hheight', hcanonical']

/-- The rows joined with a recorded transaction are all that have its key. -/
theorem countP_recorded {σ : Type} (db : Db) (rows : List σ) (txId : σ → ℕ) {n : ℕ}
    (hn : (db.recordedIn n).isSome) :
    (rows.filterMap fun a => (db.recordedIn (txId a)).map (a, ·)).countP (fun r => r.2.1.id = n)
      = rows.countP fun a => txId a = n := by
  rw [List.countP_filterMap]
  refine List.countP_congr fun a _ => ?_
  rcases hrec : db.recordedIn (txId a) with _ | ⟨t, b⟩
  · have hne : txId a ≠ n := fun h => by simp [← h, hrec] at hn
    simp [hne]
  · simp [(recordedIn_id hrec).2.1]

theorem countP_inputLines (db : Db) {n : ℕ} (hn : (db.recordedIn n).isSome) :
    db.inputLines.countP (fun l => l.txId = n) = db.txInputs.rows.countP fun i => i.txId = n := by
  rw [inputLines, List.countP_map]
  exact ((List.perm_insertionSort _ _).countP_eq _).trans (countP_recorded db _ _ hn)

theorem countP_outputLines (db : Db) {n : ℕ} (hn : (db.recordedIn n).isSome) :
    db.outputLines.countP (fun l => l.txId = n)
      = db.txOutputs.rows.countP fun o => o.txId = n := by
  rw [outputLines, List.countP_map]
  exact ((List.perm_insertionSort _ _).countP_eq _).trans (countP_recorded db _ _ hn)

theorem countP_transactionLines (db : Db) {n : ℕ} (hn : (db.recordedIn n).isSome) :
    db.transactionLines.countP (fun l => l.txId = n) = 1 := by
  obtain ⟨⟨t, b⟩, hrec⟩ := Option.isSome_iff_exists.mp hn
  obtain ⟨l, hl, -⟩ := filter_txId hrec
  rw [List.countP_eq_length_filter, hl, List.length_singleton]

end Db

/-! ## The files -/

/-- The places of columns that are named. -/
def columnPairs (columns txColumns : List String) (names : List (String × String)) :
    List (ℕ × ℕ) :=
  names.map fun p => (columns.idxOf p.1, txColumns.idxOf p.2)

/-- What an input's record repeats of its transaction's. -/
def inputsRepeat : List (ℕ × ℕ) :=
  columnPairs inputsColumns transactionsColumns
    [("tx_id", "tx_id"), ("txid", "txid"), ("address", "sender"), ("block_height", "block_height"),
      ("canonical", "canonical")]

/-- What an output's record repeats of its transaction's. -/
def outputsRepeat : List (ℕ × ℕ) :=
  columnPairs outputsColumns transactionsColumns
    [("tx_id", "tx_id"), ("txid", "txid"), ("block_height", "block_height"),
      ("canonical", "canonical")]

/-- The records of a file below its header. -/
def bodyOf (columns : List String) (file : List Char × ℕ) (rs : List Record) : Prop :=
  Csv.read file.1 = some (columns.map String.toList :: rs)

/-- **The files join on `tx_id`**: who reads them finds one transaction for each input and each
output, which repeats what it says of it; and a recorded transaction is there once, with all its
inputs and outputs. -/
theorem export_joins (clock : Clock) (db : Db) : ∃ ts is os,
    bodyOf transactionsColumns (exportCsv clock db).transactions ts
      ∧ bodyOf inputsColumns (exportCsv clock db).inputs is
      ∧ bodyOf outputsColumns (exportCsv clock db).outputs os
      ∧ JoinsOnce ts is inputsRepeat ∧ JoinsOnce ts os outputsRepeat
      ∧ ∀ n, (db.recordedIn n).isSome → countFirst ts (keyText n) = 1
        ∧ countFirst is (keyText n) = db.txInputs.rows.countP (fun i => i.txId = n)
        ∧ countFirst os (keyText n) = db.txOutputs.rows.countP fun o => o.txId = n := by
  have hinputs : inputsRepeat = [(0, 0), (1, 1), (3, 11), (7, 2), (8, 7)] := by decide
  have houtputs : outputsRepeat = [(0, 0), (1, 1), (7, 2), (8, 7)] := by decide
  refine ⟨records (TransactionLine.values clock) db.transactionLines,
    records InputLine.values db.inputLines, records OutputLine.values db.outputLines,
    (readsBack_transactions clock db).read, (readsBack_inputs clock db).read,
    (readsBack_outputs clock db).read, hinputs ▸ db.joinsOnce_inputs clock,
    houtputs ▸ db.joinsOnce_outputs clock, fun n hn => ⟨?_, ?_, ?_⟩⟩
  · rw [countFirst_records TransactionLine.first,
      db.countP_transactionLines hn]
  · rw [countFirst_records InputLine.first, db.countP_inputLines hn]
  · rw [countFirst_records OutputLine.first, db.countP_outputLines hn]

end Permanode
