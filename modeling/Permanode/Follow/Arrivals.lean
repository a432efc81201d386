import Permanode.Foundations.FirstWrite
import Permanode.Indexer.Slices
import Permanode.System.Views

/-!
# Follow/Arrivals — who says when a block arrived

    note_sightings (set_tip_seen)  ·  fill_seen_from_peers (adopt_tip_seen)

write `blocks.tip_seen_at_ms` on connections of their own, in any order, and both keep a time that
is there.  Nothing else writes the column (`Txn.exec_keepsArrivals`), so over any run a block has
the time written first (`Execution.tipSeen_eq`), and the permanode's own sighting wins exactly if no
peer's time was there before it, or none but the same (`Execution.own_wins_iff`).
-/

namespace Permanode

open Outcome Prog

/-- Height, hash and arrival time of a block. -/
def BlockRow.arrival (b : BlockRow) : (ℕ × String) × Option ℤ := ((b.height, b.hash), b.tipSeenAtMs)

namespace Db

/-- Blocks keep their arrival times; those added have none. -/
def KeepsArrivals (db db' : Db) : Prop :=
  ∃ new : List ((ℕ × String) × Option ℤ),
    db'.blocks.rows.map BlockRow.arrival = db.blocks.rows.map BlockRow.arrival ++ new
      ∧ ∀ x ∈ new, x.2 = none

variable {db db' db'' : Db} {now : Instant} {blockId height : ℕ} {hash : String}

/-! ## What leaves arrival times alone -/

/-- The arrivals are columns of `blocks`. -/
theorem KeepsArrivals.of_blocks (h : db'.blocks = db.blocks) : db.KeepsArrivals db' :=
  ⟨[], by rw [h, List.append_nil], List.forall_mem_nil _⟩

theorem KeepsArrivals.refl (db : Db) : db.KeepsArrivals db := .of_blocks rfl

/-- One after the other. -/
theorem KeepsArrivals.trans (h : db.KeepsArrivals db') (h' : db'.KeepsArrivals db'') :
    db.KeepsArrivals db'' := by
  obtain ⟨new, hrows, hnew⟩ := h
  obtain ⟨new', hrows', hnew'⟩ := h'
  exact ⟨new ++ new', by rw [hrows', hrows, List.append_assoc],
    List.forall_mem_append.mpr ⟨hnew, hnew'⟩⟩

/-- Other columns of it may change. -/
theorem keepsArrivals_updateBlocks {p : BlockRow → Bool} {f : BlockRow → BlockRow}
    {hf : ∀ r s, Row.clash (f r) s = Row.clash r s} (h : ∀ b, (f b).arrival = b.arrival) :
    db.KeepsArrivals (db.updateBlocks p f hf) := by
  refine ⟨[], ?_, List.forall_mem_nil _⟩
  rw [updateBlocks, Table.rows_modify, List.map_map, List.append_nil]
  refine List.map_congr_left fun b _ => ?_
  simp only [Function.comp, Table.updated]
  split_ifs
  · exact h b
  · rfl

/-- A row of a header comes without an arrival time. -/
theorem keepsArrivals_insert (id : ℕ) (h : BlockHeaderInfo) (captured : Bool)
    (source : Option String) :
    db.KeepsArrivals { db with
      blocks := db.blocks.insertOrIgnore (headerRow id h captured source now) } := by
  rcases Table.rows_insert_cases db.blocks (headerRow id h captured source now) with
    ⟨hrows, -⟩ | ⟨hsame, -⟩
  · exact ⟨[(headerRow id h captured source now).arrival], by rw [hrows, List.map_append]; rfl,
      List.forall_mem_singleton.mpr rfl⟩
  · exact .of_blocks hsame

/-- **A new row comes behind the others**, without a time. -/
theorem keepsArrivals_insertBlockHeaderRow {h : BlockHeaderInfo} {captured : Bool}
    {source : Option String} {id : ℕ}
    (hins : db.insertBlockHeaderRow h captured source now = .ok (db', id)) :
    db.KeepsArrivals db' := by
  simp only [insertBlockHeaderRow, bind_ok, orError_ok, pure_ok, Prod.mk.injEq] at hins
  obtain ⟨_, -, rfl, -⟩ := hins
  exact (keepsArrivals_insert ..).trans (.of_blocks rfl)

/-- The rows of a body are in other tables. -/
theorem keepsArrivals_insertAll : ∀ {txs : List BlockTransactionInfo} {db : Db},
    txs.foldlM (insertTransaction blockId) db = .ok db' → db.KeepsArrivals db'
  | [], db, h => by
      obtain rfl := pure_ok.mp h
      exact .refl _
  | tx :: txs, db, h => by
      rw [List.foldlM_cons, bind_ok] at h
      obtain ⟨db₁, h₁, h₂⟩ := h
      simp only [insertTransaction, bind_ok, pure_ok] at h₁
      obtain ⟨_, _, rfl⟩ := h₁
      refine KeepsArrivals.trans ?_ (keepsArrivals_insertAll h₂)
      exact .of_blocks rfl

theorem keepsArrivals_insertTransactions {retained : RetainedBlockInfo}
    (h : db.insertTransactions blockId retained = .ok db') : db.KeepsArrivals db' := by
  simp only [insertTransactions, bind_ok] at h
  obtain ⟨_, -, h⟩ := h
  have hfields : db.KeepsArrivals (db.setBodyFields blockId retained) :=
    keepsArrivals_updateBlocks fun _ => rfl
  exact hfields.trans (keepsArrivals_insertAll h)

theorem keepsArrivals_markBodyRecovered (db : Db) (blockId : ℕ) (source : String) :
    db.KeepsArrivals (db.markBodyRecovered blockId source) :=
  keepsArrivals_updateBlocks fun _ => rfl

/-- The flags touch no arrival. -/
theorem keepsArrivals_recordContractFlags (N : Noid) (db : Db) (height : ℕ) (hash : String)
    (raw : Option (List UInt8)) : db.KeepsArrivals (db.recordContractFlags N height hash raw) := by
  have hset : ∀ flags, db.KeepsArrivals (db.setContractFlags height hash flags) := by
    intro flags
    unfold setContractFlags
    split
    · exact .refl _
    · exact KeepsArrivals.trans (.of_blocks rfl) (keepsArrivals_updateBlocks fun _ => rfl)
  unfold recordContractFlags
  repeat' split
  all_goals first | exact .refl _ | exact hset _

theorem keepsArrivals_storeRaw {N : Noid} {bytes : List UInt8} {source : String} {stored : Bool}
    (h : db.storeRaw N height hash bytes source now = .ok (db', stored)) :
    db.KeepsArrivals db' := by
  unfold storeRaw at h
  split at h
  · obtain ⟨rfl, -⟩ := Prod.mk.inj (Except.ok.inj h)
    exact .refl _
  · split_ifs at h
    · obtain ⟨rfl, -⟩ := Prod.mk.inj (Except.ok.inj h)
      exact .refl _
    · simp only [bind_ok, pure_ok, Prod.mk.injEq] at h
      obtain ⟨_, _, rfl, _⟩ := h
      exact .of_blocks rfl

theorem keepsArrivals_keepRaw (N : Noid) (cfg : Config) (db : Db) (height : ℕ) (hash : String)
    (bytes : Option (List UInt8)) (source : String) (now : Instant) :
    db.KeepsArrivals (db.keepRaw N cfg height hash bytes source now) := by
  unfold keepRaw
  split_ifs
  · split
    · exact .refl _
    · split
      · next h => exact keepsArrivals_storeRaw h
      · exact .refl _
  · exact .refl _

/-- **A block that is stored keeps the arrivals.** -/
theorem keepsArrivals_storeKept {N : Noid} {cfg : Config} {details : BlockDetailsInfo}
    {source : String} {raw : Option (List UInt8)}
    (h : db.storeKept N cfg height details source raw now = .ok db') : db.KeepsArrivals db' := by
  simp only [storeKept, storeBlock, bind_ok, pure_ok] at h
  obtain ⟨db₁, ⟨retained, -, h₁⟩, rfl⟩ := h
  have hkept := (keepsArrivals_recordContractFlags N db₁ height details.header.hash raw).trans
    (keepsArrivals_keepRaw N cfg _ height details.header.hash raw "node" now)
  refine KeepsArrivals.trans ?_ hkept
  split_ifs at h₁
  · split at h₁
    · obtain rfl := pure_ok.mp h₁
      exact .refl _
    · simp only [bind_ok, pure_ok] at h₁
      obtain ⟨db₂, h₂, rfl⟩ := h₁
      exact (keepsArrivals_insertTransactions h₂).trans
        ((keepsArrivals_markBodyRecovered ..).trans (.of_blocks rfl))
  · simp only [bind_ok] at h₁
    obtain ⟨⟨db₂, id⟩, h₂, h₃⟩ := h₁
    exact (keepsArrivals_insertBlockHeaderRow h₂).trans (keepsArrivals_insertTransactions h₃)

/-- A block recorded without its body does. -/
theorem keepsArrivals_recordGapBlock {details : BlockDetailsInfo} {note : String}
    (h : db.recordGapBlock details note now = .ok db') : db.KeepsArrivals db' := by
  unfold recordGapBlock at h
  dsimp only at h
  split_ifs at h
  · obtain rfl := pure_ok.mp h
    exact .of_blocks rfl
  · simp only [bind_ok, pure_ok] at h
    obtain ⟨⟨db₁, id⟩, h₁, rfl⟩ := h
    exact (keepsArrivals_insertBlockHeaderRow h₁).trans (.of_blocks rfl)

/-- So does a re-check. -/
theorem keepsArrivals_replaceBlock {N : Noid} {cfg : Config} {old : ℕ} {at_ : Instant}
    {replacement : Option BodyOutcome}
    (h : db.replaceBlock N cfg height old at_ hash replacement now = .ok db') :
    db.KeepsArrivals db' := by
  simp only [replaceBlock, bind_ok] at h
  obtain ⟨db₁, h₁, h₂⟩ := h
  unfold markOrphaned at h₁
  split_ifs at h₁
  obtain rfl := Except.ok.inj h₁
  have horphaned : db.KeepsArrivals (db.appendStatus old .orphaned at_) := .of_blocks rfl
  rcases replacement with _ | ⟨details, source, raw⟩ | ⟨details, note⟩
  · obtain rfl := pure_ok.mp h₂
    exact .of_blocks rfl
  · exact horphaned.trans (keepsArrivals_storeKept h₂)
  · exact horphaned.trans (keepsArrivals_recordGapBlock h₂)

/-- A body that is recovered comes to a row that is there. -/
theorem keepsArrivals_recoverBody {N : Noid} {cfg : Config} {retained : RetainedBlockInfo}
    {raw : List UInt8} (h : db.recoverBody N cfg height hash blockId retained raw now = .ok db') :
    db.KeepsArrivals db' := by
  simp only [recoverBody, bind_ok, pure_ok] at h
  obtain ⟨db₁, h₁, rfl⟩ := h
  have hmark : db.KeepsArrivals (db₁.markBodyRecovered blockId "getblock") :=
    (keepsArrivals_insertTransactions h₁).trans (keepsArrivals_markBodyRecovered ..)
  exact (hmark.trans (keepsArrivals_recordContractFlags ..)).trans
    ((keepsArrivals_keepRaw ..).trans (.of_blocks rfl))

/-- So does one that fills a gap. -/
theorem keepsArrivals_fillBody {N : Noid} {body : RetainedBlockInfo} {bytes : Option (List UInt8)}
    {source resolution : String} {keep : Bool}
    (h : db.fillBody N height hash blockId body bytes source resolution keep now = .ok db') :
    db.KeepsArrivals db' := by
  simp only [fillBody, bind_ok] at h
  obtain ⟨db₁, h₁, h₂⟩ := h
  have hmark : db.KeepsArrivals (db₁.markBodyRecovered blockId source) :=
    (keepsArrivals_insertTransactions h₁).trans (keepsArrivals_markBodyRecovered ..)
  rcases bytes with _ | bytes
  · simp only [bind_ok, pure_ok] at h₂
    obtain ⟨_, rfl, rfl⟩ := h₂
    exact hmark.trans (.of_blocks rfl)
  · split_ifs at h₂
    · simp only [bind_ok, map_ok, pure_ok] at h₂
      obtain ⟨_, ⟨⟨db₂, stored⟩, hraw, rfl⟩, rfl⟩ := h₂
      exact (hmark.trans (keepsArrivals_recordContractFlags ..)).trans
        ((keepsArrivals_storeRaw hraw).trans (.of_blocks rfl))
    · simp only [bind_ok, pure_ok] at h₂
      obtain ⟨_, rfl, rfl⟩ := h₂
      exact hmark.trans ((keepsArrivals_recordContractFlags ..).trans (.of_blocks rfl))

/-- Pruning a body leaves the row. -/
theorem keepsArrivals_pruneBlock (h : db.pruneBlock blockId = .ok db') : db.KeepsArrivals db' := by
  unfold pruneBlock at h
  dsimp only at h
  split_ifs at h
  obtain rfl := Except.ok.inj h
  exact KeepsArrivals.trans (.of_blocks rfl) (keepsArrivals_updateBlocks fun _ => rfl)

/-- A batch of headers, by induction on it. -/
theorem keepsArrivals_insertHeaders : ∀ {batch : List BlockHeaderInfo} {db : Db},
    insertHeaders now db batch = .ok db' → db.KeepsArrivals db'
  | [], db, h => by
      obtain rfl := pure_ok.mp h
      exact .refl _
  | b :: batch, db, h => by
      rw [insertHeaders, List.foldlM_cons, bind_ok] at h
      obtain ⟨db₁, h₁, h₂⟩ := h
      obtain ⟨⟨_, inserted⟩, hins, rfl⟩ := map_ok.mp h₁
      refine KeepsArrivals.trans ?_ (keepsArrivals_insertHeaders h₂)
      rcases insertHeaderOnlyBlock_cases hins with ⟨-, rfl, -⟩ | ⟨-, -, db₂, hrows, -, rfl⟩
      · exact .refl _
      · exact ⟨[_], by rw [appendStatus, hrows, List.map_append, List.map_singleton],
          List.forall_mem_singleton.mpr rfl⟩

/-- The cached balances are in a table of their own. -/
theorem keepsArrivals_upsertBalances :
    ∀ (rows : List (String × String × ℕ)) (db : Db), db.KeepsArrivals (db.upsertBalances rows now)
  | [], db => .refl db
  | r :: rows, db => by
      have hfirst : db.KeepsArrivals (db.upsertAddressBalanceCache r.1 r.2.1 r.2.2 now) :=
        .of_blocks rfl
      exact hfirst.trans (keepsArrivals_upsertBalances rows _)

/-- A receipt changes the count of its block alone. -/
theorem keepsArrivals_insertReceiptTransaction {tx : ReceiptTransaction} {inserted : Bool}
    (h : db.insertReceiptTransaction blockId tx now = .ok (db', inserted)) :
    db.KeepsArrivals db' := by
  obtain ⟨-, -, -, ⟨-, rfl, -⟩ | ⟨-, hwrite, -⟩⟩ := insertReceiptTransaction_ok.mp h
  · exact .refl _
  · rw [(writeReceiptTransaction_ok hwrite).rest]
    exact KeepsArrivals.trans (.of_blocks rfl) (keepsArrivals_updateBlocks fun _ => rfl)

end Db

/-- A transaction that writes arrival times. -/
def Txn.Sights : Txn → Prop
  | .setTipSeen .. | .adoptTipSeen .. => True
  | _ => False

/-- **Nothing else writes an arrival time.** -/
theorem Txn.exec_keepsArrivals {N : Noid} {cfg : Config} {t : Txn} {db db' : Db} (ht : ¬ t.Sights)
    (h : t.exec N cfg db = .ok db') : db.KeepsArrivals db' := by
  match t with
  | .setTipSeen .. | .adoptTipSeen .. => exact absurd trivial ht
  | .ingest .. => exact Db.keepsArrivals_storeKept h
  | .gapBlock .. => exact Db.keepsArrivals_recordGapBlock h
  | .replace .. => exact Db.keepsArrivals_replaceBlock h
  | .recover .. => exact Db.keepsArrivals_recoverBody h
  | .fillGap .. => exact Db.keepsArrivals_fillBody h
  | .keepRaw .. =>
    obtain rfl := Except.ok.inj h
    exact Db.keepsArrivals_keepRaw ..
  | .fillRaw .. =>
    obtain ⟨⟨_, _⟩, hraw, rfl⟩ := map_ok.mp h
    exact Db.keepsArrivals_storeRaw hraw
  | .pruneBlock _ => exact Db.keepsArrivals_pruneBlock h
  | .adoptProofClass .. =>
    obtain rfl := Except.ok.inj h
    unfold Db.adoptProofClass
    split_ifs
    · exact .refl _
    · exact Db.keepsArrivals_updateBlocks fun _ => rfl
  | .sweepBalances _ =>
    obtain rfl := Except.ok.inj h
    refine Db.KeepsArrivals.trans ?_ (.of_blocks rfl)
    exact Db.KeepsArrivals.trans (.of_blocks rfl) (Db.keepsArrivals_upsertBalances ..)
  | .upsertBalances .. =>
    obtain rfl := Except.ok.inj h
    exact Db.keepsArrivals_upsertBalances ..
  | .headerBatch .. =>
    obtain ⟨db₁, hins, rfl⟩ := map_ok.mp h
    exact (Db.keepsArrivals_insertHeaders hins).trans (.of_blocks rfl)
  | .receipt .. =>
    rw [exec] at h
    split at h
    · next h' =>
      obtain rfl := Except.ok.inj h
      exact Db.keepsArrivals_insertReceiptTransaction h'
    · obtain rfl := Except.ok.inj h
      exact .refl _
  | .setState .. | .clearSpentInGap | .resolveGapsWithBodies _ | .sweepSegment .. =>
    obtain rfl := Except.ok.inj h
    exact .of_blocks rfl

/-! ## The time of a block -/

namespace Db

variable {db db' : Db} {height : ℕ} {hash : String}

/-- The row of a block. -/
def rowOf (db : Db) (height : ℕ) (hash : String) : Option BlockRow :=
  db.blocks.rows.find? fun b => b.height = height ∧ b.hash = hash

/-- Height and hash find a row. -/
theorem rowOf_eq_some {b : BlockRow} (h : b ∈ db.blocks.rows) :
    db.rowOf b.height b.hash = some b :=
  db.blocks.find?_eq_some h (decide_eq_true ⟨rfl, rfl⟩) fun _ _ hp =>
    decide_eq_true (Or.inr (Prod.ext_iff.mpr (of_decide_eq_true hp)))

/-- The row found has them. -/
theorem key_of_rowOf {b : BlockRow} (h : db.rowOf height hash = some b) :
    b.height = height ∧ b.hash = hash := by
  simpa using List.find?_some h

/-- `tip_seen_at_ms` of a block, if it is on record. -/
def tipSeenOf (db : Db) (height : ℕ) (hash : String) : Option (Option ℤ) :=
  (db.rowOf height hash).map BlockRow.tipSeenAtMs

/-- The time on record is that of the first arrival listed. -/
theorem tipSeenOf_eq (db : Db) (height : ℕ) (hash : String) : db.tipSeenOf height hash
    = ((db.blocks.rows.map BlockRow.arrival).find? fun x =>
      x.1.1 = height ∧ x.1.2 = hash).map Prod.snd := by
  rw [tipSeenOf, rowOf, List.find?_map, Option.map_map]
  rfl

/-- **A block keeps its time, or is new and has none.** -/
theorem KeepsArrivals.tipSeenOf (h : db.KeepsArrivals db') (height : ℕ) (hash : String) :
    db'.tipSeenOf height hash = db.tipSeenOf height hash
      ∨ db.tipSeenOf height hash = none ∧ db'.tipSeenOf height hash = some none := by
  obtain ⟨new, hrows, hnew⟩ := h
  rw [tipSeenOf_eq db', tipSeenOf_eq db, hrows, List.find?_append]
  let isIt : (ℕ × String) × Option ℤ → Bool := fun x => x.1.1 = height ∧ x.1.2 = hash
  rcases (db.blocks.rows.map BlockRow.arrival).find? isIt with _ | x
  · rw [Option.none_or]
    rcases hfind : new.find? isIt with _ | x
    · exact Or.inl rfl
    · exact Or.inr ⟨rfl, congrArg some (hnew x (List.mem_of_find?_eq_some hfind))⟩
  · exact Or.inl rfl

/-- The time of a block after a statement that keeps heights and hashes. -/
theorem tipSeenOf_updateBlocks {p : BlockRow → Bool} {f : BlockRow → BlockRow}
    {hf : ∀ r s, Row.clash (f r) s = Row.clash r s}
    (height : ℕ) (hash : String) (hkey : ∀ b, (f b).height = b.height ∧ (f b).hash = b.hash) :
    (db.updateBlocks p f hf).tipSeenOf height hash
      = (db.rowOf height hash).map fun b => (Table.updated p f b).tipSeenAtMs := by
  have hsame : (fun b : BlockRow => decide (b.height = height ∧ b.hash = hash)) ∘ Table.updated p f
      = fun b => decide (b.height = height ∧ b.hash = hash) := by
    funext c
    simp only [Function.comp, Table.updated]
    split_ifs
    · rw [(hkey c).1, (hkey c).2]
    · rfl
  rw [tipSeenOf, rowOf, updateBlocks, Table.rows_modify, List.find?_map, hsame, Option.map_map]
  rfl

end Db

/-- The arrival time a transaction writes on a block: a sighting of the permanode's own (left), or
one a peer noted (right). -/
def Txn.arrival? (height : ℕ) (hash : String) : Txn → Option (ℤ ⊕ ℤ)
  | .setTipSeen k s atMs => if k = height ∧ s = hash then some (.inl atMs) else none
  | .adoptTipSeen k s atMs => if k = height ∧ s = hash then some (.inr atMs) else none
  | _ => none

/-- What a transaction leaves of a time. -/
def Txn.leaves (t : Txn) (height : ℕ) (hash : String) (seen : Option ℤ) : Option ℤ :=
  ((t.arrival? height hash).toList.map FirstWrite.value).foldl FirstWrite.write seen

/-- **One transaction** writes the time of a block on record as a register that keeps its first
write, or leaves it; a block it puts on record has no time. -/
theorem Txn.exec_tipSeenOf {N : Noid} {cfg : Config} {t : Txn} {db db' : Db}
    (h : t.exec N cfg db = .ok db') (height : ℕ) (hash : String) :
    db'.tipSeenOf height hash = (db.tipSeenOf height hash).map (t.leaves height hash)
      ∨ db.tipSeenOf height hash = none ∧ db'.tipSeenOf height hash = some none := by
  by_cases hsights : t.Sights
  swap
  · have hleaves : t.leaves height hash = id := by
      cases t with
      | setTipSeen | adoptTipSeen => exact absurd trivial hsights
      | _ => rfl
    rw [hleaves, Option.map_id]
    exact (exec_keepsArrivals hsights h).tipSeenOf height hash
  refine Or.inl ?_
  cases t with
  | setTipSeen k s atMs =>
    obtain rfl := Except.ok.inj h
    have hset : (db.setTipSeen k s atMs).1.tipSeenOf height hash = _ :=
      Db.tipSeenOf_updateBlocks height hash fun _ => ⟨rfl, rfl⟩
    refine hset.trans ?_
    rw [Db.tipSeenOf]
    rcases hrow : db.rowOf height hash with _ | b
    · rfl
    obtain ⟨rfl, rfl⟩ := Db.key_of_rowOf hrow
    rw [Option.map_some, Option.map_some, Option.map_some, leaves, arrival?, Table.updated]
    by_cases hk : b.height = k ∧ b.hash = s
    · obtain ⟨rfl, rfl⟩ := hk
      simp [FirstWrite.write, FirstWrite.value]
    · have hk' : ¬ (k = b.height ∧ s = b.hash) := fun h => hk ⟨h.1.symm, h.2.symm⟩
      simp [hk, hk']
  | adoptTipSeen k s atMs =>
    obtain rfl := Except.ok.inj h
    have hadopt : (db.adoptTipSeen k s atMs).tipSeenOf height hash = _ :=
      Db.tipSeenOf_updateBlocks height hash fun _ => ⟨rfl, rfl⟩
    refine hadopt.trans ?_
    rw [Db.tipSeenOf]
    rcases hrow : db.rowOf height hash with _ | b
    · rfl
    obtain ⟨rfl, rfl⟩ := Db.key_of_rowOf hrow
    rw [Option.map_some, Option.map_some, Option.map_some, leaves, arrival?, Table.updated]
    by_cases hk : b.height = k ∧ b.hash = s
    · obtain ⟨rfl, rfl⟩ := hk
      rcases hb : b.tipSeenAtMs with _ | seen
      · simp [FirstWrite.write, FirstWrite.value]
      · simp [FirstWrite.write, hb]
    · have hk' : ¬ (k = b.height ∧ s = b.hash) := fun h => hk ⟨h.1.symm, h.2.symm⟩
      have hrow : ¬ (b.height = k ∧ b.hash = s ∧ b.tipSeenAtMs = none) := fun h => hk ⟨h.1, h.2.1⟩
      simp [hrow, hk']
  | _ => exact absurd hsights id

/-! ## Runs -/

/-- The arrival times a run writes on a block, from when the block is on record. -/
def arrivals (height : ℕ) (hash : String) (tr : List (Db × Txn × Db)) : List (ℤ ⊕ ℤ) :=
  tr.filterMap fun x =>
    if (x.1.rowOf height hash).isSome then x.2.1.arrival? height hash else none

/-- What one transaction more brings. -/
theorem arrivals_append (height : ℕ) (hash : String) (tr : List (Db × Txn × Db))
    (x : Db × Txn × Db) : arrivals height hash (tr ++ [x]) = arrivals height hash tr
      ++ (if (x.1.rowOf height hash).isSome then x.2.1.arrival? height hash else none).toList := by
  rw [arrivals, List.filterMap_append, List.filterMap_cons]
  rcases if (x.1.rowOf height hash).isSome then x.2.1.arrival? height hash else none with _ | w
  · rfl
  · rfl

/-- A block is not on record and no time was written on it, or it has what a register that keeps its
first write has after the times that were. -/
def Db.Timed (db : Db) (height : ℕ) (hash : String) (l : List (ℤ ⊕ ℤ)) : Prop :=
  db.tipSeenOf height hash = none ∧ l = []
    ∨ db.tipSeenOf height hash = some ((l.map FirstWrite.value).foldl FirstWrite.write none)

/-- **A transaction keeps the column in step with what has been written.** -/
theorem Txn.exec_timed {N : Noid} {cfg : Config} {t : Txn} {db db' : Db} {height : ℕ}
    {hash : String} {l : List (ℤ ⊕ ℤ)} (h : t.exec N cfg db = .ok db')
    (hl : db.Timed height hash l) : db'.Timed height hash (l
      ++ (if (db.rowOf height hash).isSome then t.arrival? height hash else none).toList) := by
  have hstep := exec_tipSeenOf h height hash
  rcases hl with ⟨hnone, rfl⟩ | hsome
  · rw [Option.map_eq_none_iff.mp hnone]
    rcases hstep with hsame | ⟨-, hnew⟩
    · exact Or.inl ⟨by rw [hsame, hnone, Option.map_none], rfl⟩
    · exact Or.inr hnew
  · have hrow : (db.rowOf height hash).isSome := by
      obtain ⟨b, hb, -⟩ := Option.map_eq_some_iff.mp hsome
      exact Option.isSome_of_eq_some hb
    rw [if_pos hrow]
    rcases hstep with hwritten | ⟨hnone, -⟩
    · refine Or.inr ?_
      rw [hwritten, hsome, Option.map_some, List.map_append, List.foldl_append]
      rfl
    · exact absurd (hnone.symm.trans hsome) (Option.some_ne_none _).symm

section Runs

variable {N : Noid} {cfg : Config} {allow : ∀ q : Query, q.Answer → Prop}
  {height : ℕ} {hash : String}
  {tr : List (Db × Txn × Db)} {c : Prog.Config Query Query.Answer Db Txn String Thread}

/-- **So does a run.** -/
theorem Execution.timed (h : Execution N cfg allow tr c) (height : ℕ) (hash : String) :
    c.store.Timed height hash (arrivals height hash tr) := by
  induction h with
  | init => exact Or.inl ⟨rfl, rfl⟩
  | silent _ hs ih =>
    cases hs with
    | start | ask | read | halt => exact ih
  | commit _ hs ih =>
    cases hs with
    | commit i hth hexec =>
      rw [arrivals_append]
      exact Txn.exec_timed hexec ih

/-- **A block on record has the time written first**, whoever wrote it. -/
theorem Execution.tipSeen_eq (h : Execution N cfg allow tr c) {b : BlockRow}
    (hb : b ∈ c.store.blocks.rows) :
    b.tipSeenAtMs = ((arrivals b.height b.hash tr).map FirstWrite.value).head? := by
  have hrow : c.store.tipSeenOf b.height b.hash = some b.tipSeenAtMs := by
    rw [Db.tipSeenOf, Db.rowOf_eq_some hb, Option.map_some]
  rcases h.timed b.height b.hash with ⟨hnone, -⟩ | hsome
  · exact absurd (hnone.symm.trans hrow) (Option.some_ne_none _).symm
  · rw [FirstWrite.foldl_write, Option.none_or] at hsome
    exact Option.some.inj (hrow.symm.trans hsome)

end Runs

/-! ## Both orders -/

/-- A node with one block after the genesis block, which the permanode saw arrive at 500 and a peer
at 700. -/
def seenAnswers : ∀ q : Query, q.Answer
  | .sightings => [(1, "A", 500)]
  | .peerSeen => .ok [(1, "A", 700)]
  | q => chainAnswers [bareBlock 0 "G" "", bodyBlock 1 "A" "G"] 1 q

/-- The block is recorded, and then a thread each writes what it knows. -/
def seenStints (jobs : List (Thread × Program Unit)) :
    List (Stint Query Query.Answer Db Txn String Thread) :=
  ⟨.indexer, pollOnce Noid.sample {}, fun _ => seenAnswers, 60⟩
    :: jobs.map fun x => ⟨x.1, x.2, fun _ => seenAnswers, 60⟩

theorem run_seenStints (jobs : List (Thread × Program Unit))
    (hjobs : ∀ x ∈ jobs, Job Noid.sample {} x.1 x.2) : Execution Noid.sample {} anyAnswer
      (traceAll (Txn.exec Noid.sample {}) (seenStints jobs) Db.empty)
      (Config.idle (playAll (Txn.exec Noid.sample {}) (seenStints jobs) Db.empty)) := by
  refine run_playAll Db.empty (List.forall_mem_cons.mpr ⟨⟨.poll, fun _ _ => trivial⟩, ?_⟩)
  intro p hp
  obtain ⟨x, hx, rfl⟩ := List.mem_map.mp hp
  exact ⟨hjobs x hx, fun _ _ => trivial⟩

/-- The peers' round comes first. -/
def peerFirst : List (Thread × Program Unit) :=
  [(.peers, peerRound Noid.sample true), (.indexer, noteSightings)]

/-- The sighting comes first. -/
def ownFirst : List (Thread × Program Unit) :=
  [(.indexer, noteSightings), (.peers, peerRound Noid.sample true)]

/-- **A peer's time that is adopted before the sighting is written stays.** -/
theorem Execution.own_sighting_loses : ∃ tr c, Execution Noid.sample {} anyAnswer tr c
    ∧ ∃ b ∈ c.store.blocks.rows,
      b.tipSeenAtMs ≠ FirstWrite.preferred (arrivals b.height b.hash tr) := by
  refine ⟨_, _, run_seenStints peerFirst ?_, ?_⟩
  · exact List.forall_mem_cons.mpr ⟨.peers, List.forall_mem_singleton.mpr .noteSightings⟩
  · decide +kernel

section Exactly

variable {N : Noid} {cfg : Config} {allow : ∀ q : Query, q.Answer → Prop}
  {tr : List (Db × Txn × Db)} {c : Prog.Config Query Query.Answer Db Txn String Thread}

/-- **The permanode's own sighting wins** — its first one, if there is any, else the first time of a
peer — exactly if no other time of a peer's was there before it. -/
theorem Execution.own_sighting_wins_iff (h : Execution N cfg allow tr c) {b : BlockRow}
    (hb : b ∈ c.store.blocks.rows) :
    b.tipSeenAtMs = FirstWrite.preferred (arrivals b.height b.hash tr)
      ↔ FirstWrite.Undisputed (arrivals b.height b.hash tr) := by
  rw [h.tipSeen_eq hb]
  exact FirstWrite.head_eq_preferred_iff _

end Exactly

/-- A sighting that is written first is kept. -/
theorem Execution.own_sighting_wins_first :
    ∃ tr c, Execution Noid.sample {} anyAnswer tr c ∧ arrivals 1 "A" tr = [.inl 500, .inr 700]
      ∧ ∃ b ∈ c.store.blocks.rows, b.height = 1 ∧ b.hash = "A"
        ∧ b.tipSeenAtMs = FirstWrite.preferred (arrivals b.height b.hash tr) := by
  have hrun := run_seenStints ownFirst
    (List.forall_mem_cons.mpr ⟨.noteSightings, List.forall_mem_singleton.mpr .peers⟩)
  have hwritten : arrivals 1 "A" (traceAll (Txn.exec Noid.sample {}) (seenStints ownFirst) Db.empty)
      = [.inl 500, .inr 700] := by decide +kernel
  obtain ⟨b, hb, hheight, hhash⟩ : ∃ b ∈ (playAll (Txn.exec Noid.sample {}) (seenStints ownFirst)
      Db.empty).blocks.rows, b.height = 1 ∧ b.hash = "A" := by decide +kernel
  refine ⟨_, _, hrun, hwritten, b, hb, hheight, hhash, (hrun.own_sighting_wins_iff hb).mpr ?_⟩
  rw [hheight, hhash, hwritten]
  intro p hp
  exact absurd (Option.some.inj hp) Sum.inl_ne_inr

end Permanode
