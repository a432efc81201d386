import Permanode.Core.Releases

/-!
# Core/Opening — opening a file of any earlier release, by many at once

`open` and `migrate` of `core/src/db.rs`.  The statements of `init_schema` commit one by one, those
of `migrate_locked` together.

* `openDatabase_ofRelease` — a file of any earlier release opens, keeps every row and is then of
  this release.
* `openers_ofRelease` — indexer, server and sweep open the file at once, each cut off anywhere,
  while others write rows: no row is lost, none is refused, and once one is through none changes
  anything.
-/

namespace Permanode

open Outcome Prog Script

/-! ## The file as this release has it -/

/-- **Every table has the columns of this release**, and every index is there. -/
structure Catalog.Current (s : Catalog) : Prop where
  tables : ∀ n d, created n = some d → ∃ R, s.table n = some R
    ∧ R.columns.Perm (d.1 ++ added n) ∧ R.keys = d.2
  indexes : ∀ i ∈ indexSpecs, ∃ j, s.index i.name = some j ∧ j.table = i.table

/-- A column that was added has a statement that adds it. -/
theorem mem_added {n : String} {c : Column} (h : c ∈ added n) :
    Statement.addColumnIfMissing n c ∈ script := by
  obtain ⟨t, ht, hadds⟩ := List.mem_filterMap.mp h
  match t with
  | .addColumnIfMissing m d =>
    rw [Statement.adds, Option.ite_none_right_eq_some] at hadds
    obtain ⟨rfl, hd⟩ := hadds
    exact Option.some.inj hd ▸ ht
  | .createTable .. | .createIndex _ | .relaxOutputCreationId => cases hadds

/-- A table that is created has one that creates it. -/
theorem mem_created {n : String} {d : List Column × List (List String)} (h : created n = some d) :
    Statement.createTable n d.1 d.2 ∈ script := by
  obtain ⟨t, ht, hcreates⟩ := List.exists_of_findSome?_eq_some h
  match t with
  | .createTable m columns keys =>
    rw [Statement.creates, Option.ite_none_right_eq_some] at hcreates
    obtain ⟨rfl, hd⟩ := hcreates
    exact Option.some.inj hd ▸ ht
  | .addColumnIfMissing .. | .createIndex _ | .relaxOutputCreationId => cases hcreates

theorem mem_indexSpecs {i : Index} (h : i ∈ indexSpecs) : Statement.createIndex i ∈ script := by
  obtain ⟨t, ht, hindex⟩ := List.mem_filterMap.mp h
  match t with
  | .createIndex j => exact Option.some.inj hindex ▸ ht
  | .createTable .. | .addColumnIfMissing .. | .relaxOutputCreationId => cases hindex

/-- A table has one column of a name. -/
theorem nodup_names {n : String} {d : List Column × List (List String)} (h : created n = some d) :
    ((d.1 ++ added n).map Column.name).Nodup :=
  of_decide_eq_true (distinct_script _ (mem_created h))

theorem mem_facts {t : Statement} (ht : t ∈ script) {f : Fact} (hf : f ∈ t.gives) :
    f ∈ script.flatMap Statement.gives := List.mem_flatMap.mpr ⟨t, ht, hf⟩

/-- **Where every fact stands, the file is of this release.** -/
theorem Catalog.OfRelease.current {s : Catalog} (hs : s.OfRelease)
    (hall : ∀ f ∈ script.flatMap Statement.gives, f.Holds s) : s.Current := by
  refine ⟨fun n d hd => ?_, fun i hi => hall _ (mem_facts (mem_indexSpecs hi)
    (List.mem_singleton_self _))⟩
  have htable : (s.table n).isSome :=
    hall (.table n) (mem_facts (mem_created hd) List.mem_cons_self)
  obtain ⟨R, hR⟩ := Option.isSome_iff_exists.mp htable
  obtain ⟨d', hd', hkeys, hold, hbase⟩ := hs.tables n R hR
  obtain rfl := Option.some.inj (hd.symm.trans hd')
  have hnames := nodup_names hd
  have hsub : ∀ c ∈ R.columns, c ∈ d.1 ++ added n := by
    intro c hc
    obtain ⟨b, hb, rfl | ⟨rfl, hname, rfl⟩⟩ := hold c hc
    · exact hb
    · have hnull : s.columnIsNotNull "tx_outputs" "creation_id" = false :=
        hall (.nullable "tx_outputs" "creation_id")
          (mem_facts (by decide +kernel : Statement.relaxOutputCreationId ∈ script)
            (List.mem_singleton_self _))
      rw [columnIsNotNull, hR] at hnull
      have := StoredTable.isNotNull_eq_false.mp hnull _ hc hname
      cases this
  refine ⟨R, hR, (List.perm_ext_iff_of_nodup R.declares.1.of_map hnames.of_map).mpr fun b =>
    ⟨hsub b, fun hb => ?_⟩, hkeys⟩
  have hmem : b.name ∈ R.names := by
    rcases List.mem_append.mp hb with hb | hb
    · exact hbase b hb
    · obtain ⟨R', hR', hmem⟩ := hall (.column n b.name)
        (mem_facts (mem_added hb) (List.mem_singleton_self _))
      exact Option.some.inj (hR.symm.trans hR') ▸ hmem
  obtain ⟨c, hc, hname⟩ := List.mem_map.mp hmem
  exact List.inj_on_of_nodup_map hnames (hsub c hc) hb hname ▸ hc

/-! ## Opening -/

/-- A transaction of the indexer's: rows change, tables and indexes stay as declared. -/
structure RowWrite where
  run : Catalog → Except String Catalog
  keeps : ∀ s s', run s = .ok s' → s'.index = s.index ∧ ∀ n,
    (s'.table n).map (fun R => (R.columns, R.keys)) = (s.table n).map fun R => (R.columns, R.keys)

/-- A row of a table is inserted. -/
def RowWrite.insert (table : String) (values : List (String × Value)) : RowWrite where
  run s := do
    let R ← orError s!"no such table: {table}" (s.table table)
    let R' ← R.insertValues values
    return s.setTable table R'
  keeps s s' h := by
    obtain ⟨R, hR, h⟩ := bind_ok.mp h
    obtain ⟨R', hins, h⟩ := bind_ok.mp h
    obtain rfl := pure_ok.mp h
    refine ⟨rfl, fun n => ?_⟩
    by_cases hn : n = table
    · obtain ⟨hcolumns, hkeys⟩ := StoredTable.insertValues_ok hins
      rw [hn, Catalog.table_setTable, orError_ok.mp hR, Option.map_some, Option.map_some,
        hcolumns, hkeys]
    · rw [Catalog.table_setTable_of_ne hn]

/-- A transaction on the file: of an opener, or on rows only. -/
inductive FileTxn
  | schema (batch : List Statement)
  | rows (w : RowWrite)

/-- What a transaction does to the file, all of it or nothing. -/
def FileTxn.exec : FileTxn → Catalog → Except String Catalog
  | .schema batch, s => runAll Statement.exec batch s
  | .rows w, s => w.run s

/-- The statements of `init_schema` commit one by one, `migrate` is one transaction. -/
def openTransactions : List FileTxn :=
  initSchema.map (fun t => .schema [t]) ++ [.schema migrateLocked]

/-- `open`, for a process that has the file to itself. -/
def openDatabase (s : Catalog) : Except String Catalog := runAll FileTxn.exec openTransactions s

/-- What it fails without; writes of rows are the business of their writers. -/
def FileTxn.needs : FileTxn → List Fact
  | .schema batch => missing Statement.needs Statement.gives batch
  | .rows _ => []

/-- What it makes sure of. -/
def FileTxn.gives : FileTxn → List Fact
  | .schema batch => batch.flatMap Statement.gives
  | .rows _ => []

/-- **An open needs nothing of a file**: each transaction finds what it needs given before it. -/
theorem missing_open : missing FileTxn.needs FileTxn.gives openTransactions = [] := by
  decide +kernel

/-- An open gives what the statements of the script give. -/
theorem gives_open : openTransactions.flatMap FileTxn.gives = script.flatMap Statement.gives := by
  have hone : ∀ t, FileTxn.gives (.schema [t]) = t.gives := fun t => List.append_nil _
  rw [openTransactions, List.flatMap_append, List.flatMap_map, script, List.flatMap_append,
    List.flatMap_singleton]
  exact congrArg (· ++ _) (congrArg (List.flatMap · initSchema) (funext hone))

/-- Its transactions are made of statements of the script. -/
theorem mem_openTransactions {x : FileTxn} (hx : x ∈ openTransactions) :
    ∃ batch, x = .schema batch ∧ batch ⊆ script := by
  rcases List.mem_append.mp hx with hx | hx
  · obtain ⟨t, ht, rfl⟩ := List.mem_map.mp hx
    refine ⟨[t], rfl, ?_⟩
    rw [List.cons_subset]
    exact ⟨List.mem_append_left _ ht, List.nil_subset _⟩
  · exact ⟨migrateLocked, List.mem_singleton.mp hx, List.subset_append_right _ _⟩

/-- **Every transaction of an open lasts.** -/
theorem lasting_open : ∀ x ∈ openTransactions, Lasting FileTxn.exec Fact.Holds Catalog.OfRelease
    Fact.Kept FileTxn.needs FileTxn.gives x := by
  intro x hx
  obtain ⟨batch, rfl, hsub⟩ := mem_openTransactions hx
  have hbatch := Lasting.batch fun t ht => Catalog.lasting_script t (hsub ht)
  exact ⟨hbatch.sound, hbatch.brings, hbatch.idle, hbatch.keeps, hbatch.runs, hbatch.kept_needs,
    hbatch.kept_gives⟩

/-- **A transaction of an opener loses nothing**, statement by statement. -/
theorem extends_batch {batch : List Statement} {s s' : Catalog} (hsub : batch ⊆ script)
    (hs : s.OfRelease) (h : runAll Statement.exec batch s = .ok s') : s.Extends s' := by
  induction batch generalizing s with
  | nil => exact Except.ok.inj h ▸ .refl s
  | cons t l ih =>
    obtain ⟨s₁, h₁, h₂⟩ := runAll_cons_ok.mp h
    obtain ⟨ht, hsub⟩ := List.cons_subset.mp hsub
    obtain ⟨hext, hs₁⟩ := Catalog.step_exec ht hs h₁
    exact hext.trans (ih hsub hs₁ h₂)

/-- **Nor does an open**, transaction by transaction. -/
theorem extends_open {l : List FileTxn} {s s' : Catalog} (hsub : l ⊆ openTransactions)
    (hs : s.OfRelease) (h : runAll FileTxn.exec l s = .ok s') : s.Extends s' := by
  induction l generalizing s with
  | nil => exact Except.ok.inj h ▸ .refl s
  | cons x l ih =>
    obtain ⟨s₁, h₁, h₂⟩ := runAll_cons_ok.mp h
    obtain ⟨hx, hrest⟩ := List.cons_subset.mp hsub
    obtain ⟨batch, rfl, hbatch⟩ := mem_openTransactions hx
    exact (extends_batch hbatch hs h₁).trans (ih hrest ((lasting_open _ hx).sound hs h₁) h₂)

/-- **A file of any earlier release opens**: it is then of this release, with every row it had, and
opening it again changes nothing. -/
theorem openDatabase_ofRelease {s : Catalog} (hs : s.OfRelease) : ∃ s', openDatabase s = .ok s'
    ∧ s.Extends s' ∧ s'.Current ∧ openDatabase s' = .ok s' := by
  have hnone : ∀ f ∈ missing FileTxn.needs FileTxn.gives openTransactions, f.Holds s := by
    rw [missing_open]
    exact List.forall_mem_nil _
  obtain ⟨s', h⟩ := exists_runAll lasting_open hs hnone
  have hs' := good_runAll lasting_open hs h
  have hall := gives_runAll lasting_open hs h
  exact ⟨s', h, extends_open (List.Subset.refl _) hs h, hs'.current (gives_open ▸ hall),
    idle_runAll lasting_open hs' hall⟩

/-- A new file is one of them. -/
example : Catalog.empty.OfRelease :=
  ⟨fun _ R h => absurd h.symm (Option.some_ne_none R), fun _ i h =>
    absurd h.symm (Option.some_ne_none i)⟩

/-- A file with the outputs of a release whose `creation_id` was `NOT NULL`. -/
def earlierOutputs : StoredTable where
  columns := createdOutputs.map fun c => { c with notNull := true }
  keys := [["tx_id", "idx"]]
  rows := [⟨1, [.integer 1, .integer 0, .integer 0, .integer 0, .integer 5, .integer 7,
    .text "owner", .text "9"]⟩]
  declares := by decide +kernel
  admits := by decide +kernel

/-- A file of that table alone. -/
def earlierFile : Catalog where
  table := fun n => if n = "tx_outputs" then some earlierOutputs else none
  index := fun _ => none

instance (n : String) (c b : Column) : Decidable (c.Was n b) :=
  inferInstanceAs (Decidable
    (c = b ∨ n = "tx_outputs" ∧ b.name = "creation_id" ∧ c = { b with notNull := true }))

/-- It is a file of an earlier release. -/
theorem ofRelease_earlierFile : earlierFile.OfRelease := by
  refine ⟨fun n R hR => ?_, fun _ i hi => absurd hi.symm (Option.some_ne_none i)⟩
  obtain ⟨rfl, hR⟩ := Option.ite_none_right_eq_some.mp hR
  obtain rfl := Option.some.inj hR
  exact ⟨_, created_outputs, rfl, by decide +kernel, by decide +kernel⟩

/-- It opens, with the row it has. -/
theorem openDatabase_earlierFile : ∃ s', openDatabase earlierFile = .ok s'
    ∧ earlierFile.Extends s' ∧ s'.Current ∧ openDatabase s' = .ok s' :=
  openDatabase_ofRelease ofRelease_earlierFile

/-! ## Openers at once -/

section Openers

variable {Q ι : Type} {A : Q → Type} [DecidableEq ι]
  {jobs : ι → Prog Q A Catalog FileTxn String Unit → Prop} {allow : ∀ q, A q → Prop}
  {s₀ : Catalog} {tr : List (Catalog × FileTxn × Catalog)}
  {c : Config Q A Catalog FileTxn String ι}

/-- A transaction that sets up the file. -/
def FileTxn.IsSchema (t : FileTxn) : Prop := ∃ batch, t = .schema batch

/-- A transaction on rows leaves the facts. -/
theorem holds_rows {w : RowWrite} {s s' : Catalog} (hs : s.OfRelease) (h : w.run s = .ok s') :
    s'.OfRelease ∧ ∀ f : Fact, f.Kept → f.Holds s → f.Holds s' := by
  obtain ⟨hindex, hshape⟩ := w.keeps s s' h
  have hback : ∀ {n R'}, s'.table n = some R' →
      ∃ R, s.table n = some R ∧ R'.columns = R.columns ∧ R'.keys = R.keys := by
    intro n R' hR'
    have hn := hshape n
    rw [hR', Option.map_some] at hn
    obtain ⟨R, hR, heq⟩ := Option.map_eq_some_iff.mp hn.symm
    obtain ⟨hcols, hkeys⟩ := Prod.mk.inj heq
    exact ⟨R, hR, hcols.symm, hkeys.symm⟩
  have hforth : ∀ {n R}, s.table n = some R →
      ∃ R', s'.table n = some R' ∧ R'.columns = R.columns := by
    intro n R hR
    have hn := hshape n
    rw [hR, Option.map_some] at hn
    obtain ⟨R', hR', heq⟩ := Option.map_eq_some_iff.mp hn
    exact ⟨R', hR', (Prod.mk.inj heq).1⟩
  have hsome : ∀ {n}, (s.table n).isSome → (s'.table n).isSome := by
    intro n h
    obtain ⟨R, hR⟩ := Option.isSome_iff_exists.mp h
    obtain ⟨R', hR', -⟩ := hforth hR
    exact Option.isSome_iff_exists.mpr ⟨R', hR'⟩
  refine ⟨⟨fun n R' hR' => ?_, fun n i hi => ?_⟩, fun f _ hold => ?_⟩
  · obtain ⟨R, hR, hcols, hkeys⟩ := hback hR'
    have hold := hs.tables n R hR
    rwa [StoredTable.OfRelease, StoredTable.names, ← hcols, ← hkeys] at hold
  · obtain ⟨hspec, ht⟩ := hs.indexes n i (hindex ▸ hi)
    exact ⟨hspec, hsome ht⟩
  · cases f with
    | table n => exact hsome hold
    | column n d =>
      obtain ⟨R, hR, hd⟩ := hold
      obtain ⟨R', hR', hcols⟩ := hforth hR
      exact ⟨R', hR', by rwa [StoredTable.names, hcols]⟩
    | index n on =>
      obtain ⟨i, hi, hon⟩ := hold
      exact ⟨i, hindex ▸ hi, hon⟩
    | nullable n d =>
      change (s'.table n).any _ = false
      rcases hR' : s'.table n with _ | R'
      · rfl
      · obtain ⟨R, hR, hcols, -⟩ := hback hR'
        have hnull : (s.table n).any (StoredTable.isNotNull d) = false := hold
        rw [hR] at hnull
        rw [Option.any_some, StoredTable.isNotNull, hcols]
        exact hnull

theorem nodup_open : openTransactions.Nodup := by
  have hscript : initSchema.Nodup ∧ ∀ t ∈ initSchema, [t] ≠ migrateLocked := by decide +kernel
  refine List.nodup_append.mpr ⟨?_, List.nodup_singleton _, fun x hx y hy h => ?_⟩
  · exact hscript.1.map fun t u h => List.singleton_inj.mp (FileTxn.schema.inj h)
  · obtain ⟨t, ht, rfl⟩ := List.mem_map.mp hx
    obtain rfl := List.mem_singleton.mp hy
    exact hscript.2 t ht (FileTxn.schema.inj h)

/-- **Openers at once**, on a file of any earlier release, each cut off anywhere and starting over,
while others write rows.  Whatever an opener does keeps every row; none is refused; once one is
through, the file is of this release and no opener changes it again. -/
theorem openers_ofRelease
    (hjobs : ∀ i p, jobs i p → p = opener openTransactions
      ∨ p.Commits allow (fun t => ∃ w, t = .rows w) fun _ => True)
    (hs : s₀.OfRelease) (h : Run jobs allow FileTxn.exec (Config.idle s₀) tr c) :
    (∀ x ∈ tr, x.2.1.IsSchema → x.1.Extends x.2.2)
      ∧ (∀ i t k, c.thread i = some (.commit t k) → t.IsSchema → ∃ s', t.exec c.store = .ok s')
      ∧ ((∃ x ∈ tr, x.2.1 = .schema migrateLocked) → c.store.Current
        ∧ ∀ i t k, c.thread i = some (.commit t k) → t.IsSchema →
          t.exec c.store = .ok c.store) := by
  have hothers : ∀ (t : FileTxn) (s s' : Catalog), (∃ w, t = .rows w) → s.OfRelease →
      t.exec s = .ok s' → s'.OfRelease ∧ ∀ f : Fact, f.Kept → f.Holds s → f.Holds s' := by
    rintro _ s s' ⟨w, rfl⟩ hs h
    exact holds_rows hs h
  obtain ⟨hstore, hthreads, htr⟩ := run_openers lasting_open hothers hjobs hs h
  have hopener : ∀ {i t k}, c.thread i = some (.commit t k) → t.IsSchema →
      Underway Fact.Holds FileTxn.gives openTransactions (.commit t k) c.store := by
    rintro i t k hi ⟨batch, rfl⟩
    rcases hthreads i _ hi with hu | hc
    · exact hu
    · obtain ⟨w, hw⟩ := hc.1
      cases hw
  refine ⟨fun x hx hschema => ?_, fun i t k hi hschema => ?_, fun hthrough => ?_⟩
  · obtain ⟨hx₁, hdid⟩ := htr x hx
    obtain ⟨batch, hbatch⟩ := hschema
    rcases hdid.turn with ⟨w, hw⟩ | ⟨done, rest, hsplit, -⟩
    · cases hbatch.symm.trans hw
    · have hmem : x.2.1 ∈ openTransactions := hsplit ▸ List.mem_append_right _ List.mem_cons_self
      obtain ⟨batch', hbatch', hsub⟩ := mem_openTransactions hmem
      have hexec := hdid.exec
      rw [hbatch'] at hexec
      exact extends_batch hsub hx₁ hexec
  · exact Underway.next missing_open lasting_open hstore (hopener hi hschema)
  · have hall := holds_of_through lasting_open hothers hjobs hs h nodup_open rfl
      (fun ⟨w, hw⟩ => by cases hw) hthrough
    exact ⟨hstore.current (gives_open ▸ hall), fun i t k hi hschema =>
      Underway.idle lasting_open hstore hall (hopener hi hschema)⟩

end Openers

/-- A second output of the transaction in `earlierFile`. -/
def writeOutput : RowWrite := .insert "tx_outputs" [("tx_id", .integer 1), ("idx", .integer 1),
  ("page", .integer 0), ("lane", .integer 1), ("slot_index", .integer 6),
  ("amount_micronoid", .integer 2), ("owner", .text "payee"), ("creation_id", .text "10")]

/-- One opener is overtaken by another, and goes on; in between an output is written. -/
def openerTurns : List (Turn Empty (fun _ => Unit) Catalog FileTxn String (Fin 3)) := [
  ⟨0, some (opener openTransactions), fun _ _ => (), 4⟩,
  ⟨2, some (Prog.transact (.rows writeOutput)), fun _ _ => (), 1⟩,
  ⟨1, some (opener openTransactions), fun _ _ => (), 100⟩,
  ⟨0, none, fun _ _ => (), 100⟩]

/-- Where they end. -/
def openedFile : Config Empty (fun _ => Unit) Catalog FileTxn String (Fin 3) :=
  (Config.idle earlierFile).turns FileTxn.exec openerTurns

/-- The turns are a run of openers and a writer. -/
theorem run_openerTurns : Run
    (fun _ p => p = opener openTransactions ∨ p = Prog.transact (.rows writeOutput))
    (fun _ _ => True) FileTxn.exec (Config.idle earlierFile)
    ((Config.idle earlierFile).turnsTrace FileTxn.exec openerTurns) openedFile := by
  refine run_turns _ ?_
  simp only [openerTurns, List.forall_mem_cons]
  exact ⟨⟨fun p hp => Or.inl (Option.some.inj hp).symm, fun _ _ => trivial⟩,
    ⟨fun p hp => Or.inr (Option.some.inj hp).symm, fun _ _ => trivial⟩,
    ⟨fun p hp => Or.inl (Option.some.inj hp).symm, fun _ _ => trivial⟩,
    ⟨fun p hp => absurd hp.symm (Option.some_ne_none p), fun _ _ => trivial⟩,
    List.forall_mem_nil _⟩

/-- The last transaction of an opener. -/
def FileTxn.isMigrate : FileTxn → Bool
  | .schema batch => decide (batch = migrateLocked)
  | .rows _ => false

/-- One of the two openers got through. -/
theorem through_openerTurns : ∃ x ∈ (Config.idle earlierFile).turnsTrace FileTxn.exec openerTurns,
    x.2.1 = .schema migrateLocked := by
  have hany : ((Config.idle earlierFile).turnsTrace FileTxn.exec openerTurns).any
      (fun x => x.2.1.isMigrate) = true := by decide +kernel
  obtain ⟨x, hx, hmigrate⟩ := List.any_eq_true.mp hany
  refine ⟨x, hx, ?_⟩
  rcases htxn : x.2.1 with batch | w
  · rw [htxn] at hmigrate
    exact congrArg FileTxn.schema (of_decide_eq_true hmigrate)
  · rw [htxn] at hmigrate
    cases hmigrate

/-- The rebuild of `tx_outputs` keeps the output that was written in between. -/
theorem openers_earlierFile :
    ((openedFile.store.table "tx_outputs").map fun R => R.rows.map fun r =>
        cell R.columns r "owner") = some [some (.text "owner"), some (.text "payee")]
      ∧ (∀ x ∈ (Config.idle earlierFile).turnsTrace FileTxn.exec openerTurns,
          x.2.1.IsSchema → x.1.Extends x.2.2)
      ∧ (∀ i t k, openedFile.thread i = some (.commit t k) → t.IsSchema →
        ∃ s', t.exec openedFile.store = .ok s')
      ∧ openedFile.store.Current
      ∧ ∀ i t k, openedFile.thread i = some (.commit t k) → t.IsSchema →
        t.exec openedFile.store = .ok openedFile.store := by
  have hjobs : ∀ (_ : Fin 3) (p : Prog Empty (fun _ => Unit) Catalog FileTxn String Unit),
      p = opener openTransactions ∨ p = Prog.transact (.rows writeOutput) →
      p = opener openTransactions
        ∨ p.Commits (fun _ _ => True) (fun t => ∃ w, t = .rows w) fun _ => True := by
    rintro _ _ (rfl | rfl)
    · exact Or.inl rfl
    · exact Or.inr ⟨⟨writeOutput, rfl⟩, fun _ _ => trivial⟩
  obtain ⟨hkept, hnext, hthrough⟩ := openers_ofRelease hjobs ofRelease_earlierFile run_openerTurns
  exact ⟨by decide +kernel, hkept, hnext, hthrough through_openerTurns⟩

end Permanode
