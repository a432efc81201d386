import Permanode.Ledger.Brings
import Permanode.System.Views

/-!
# Ledger/CallsRun — the flags of a block and its kept bytes

The flags of a v2 block with its body are to be those its kept bytes list (`Db.CallsRight`).
`poll_once`'s retry and `fill_raw` keep bytes without a look at the flags
(`Execution.calls_missed`).

**`Execution.callsRight`**: in every run whose transactions leave the flags right where they bring
something (`Txn.KeepsCalls`), they are right.
-/

namespace Permanode

open Outcome Prog

variable (N : Noid) (cfg : Config)

/-- The bytes kept for a block. -/
def Db.keptBytes (db : Db) (blockId : ℕ) : List (List UInt8) :=
  (db.rawBlocks.rows.filter fun r => r.blockId = blockId).filterMap fun r =>
    (decompress N r.codec r.data r.rawLen).toOption

/-- **The flags are those the kept bytes list**, in every v2 block with its body. -/
def Db.CallsRight (db : Db) : Prop :=
  ∀ b ∈ db.blocks.rows, v2Active b.height → b.bodyCaptured → ∀ bytes ∈ db.keptBytes N b.id,
    ∀ flags ∈ (contractFlags N bytes b.height b.hash).toOption,
      ∀ t ∈ db.transactionsOf b.id, t.contractFlags = flagAt flags t.position

/-- The bytes a block has after a transaction, less those that are scanned by it: the bytes on
record, or the bytes that are kept as they are. -/
def Brings.unscanned (s : Brings) (db : Db) (e : Entry) : List (List UInt8) :=
  if db.hasRawBlock e.id then db.keptBytes N e.id
  else (s.keeps.filter fun bytes => verify N bytes e.height e.hash matches .ok ()).toList

/-- Where a transaction brings something for a v2 block with its body, it leaves the flags as the
bytes list them that it does not scan. -/
def Txn.KeepsCalls (t : Txn) (db : Db) : Prop :=
  ∀ e ∈ db.ledger.entries.rows, t.brings cfg db e ≠ {} → v2Active e.height →
    e.captured ∨ (t.brings cfg db e).fills →
      ∀ bytes ∈ (t.brings cfg db e).unscanned N db e,
        ∀ flags ∈ (contractFlags N bytes e.height e.hash).toOption,
          ∀ p ∈ db.positionsOf e.id ++ (t.brings cfg db e).positions,
            (t.brings cfg db e).flagLeft N db e p = flagAt flags p

instance (db : Db) : Decidable (db.CallsRight N) := by
  unfold Db.CallsRight
  infer_instance

instance (t : Txn) (db : Db) : Decidable (t.KeepsCalls N cfg db) := by
  unfold Txn.KeepsCalls
  infer_instance

variable {N cfg}

namespace Db

variable {db db' : Db}

theorem mem_keptBytes {blockId : ℕ} {bytes : List UInt8} : bytes ∈ db.keptBytes N blockId
    ↔ ∃ r ∈ db.rawBlocks.rows, r.blockId = blockId
      ∧ decompress N r.codec r.data r.rawLen = .ok bytes := by
  rw [keptBytes, List.mem_filterMap]
  simp only [List.mem_filter, decide_eq_true_eq, and_assoc]
  exact exists_congr fun r => and_congr_right fun _ => and_congr_right fun _ => mem_toOption

/-- The same of the record of blocks, position by position. -/
theorem callsRight_iff : db.CallsRight N ↔ ∀ e ∈ db.ledger.entries.rows, v2Active e.height →
    e.captured → ∀ bytes ∈ db.keptBytes N e.id,
      ∀ flags ∈ (contractFlags N bytes e.height e.hash).toOption,
        ∀ p ∈ db.positionsOf e.id, db.flagOn e.id p = flagAt flags p := by
  constructor
  · intro h e he hv hc bytes hkept flags hflags p hp
    obtain ⟨b, hb, rfl⟩ := List.mem_map.mp he
    obtain ⟨c, hc', rfl⟩ := List.mem_map.mp hp
    obtain ⟨t, ht, hid, rfl⟩ := mem_callsOf.mp hc'
    have hflag : db.flagOn b.entry.id t.position = t.contractFlags := hid ▸ flagOn_eq ht
    rw [hflag]
    exact h b hb hv hc bytes hkept flags hflags t (List.mem_filter.mpr ⟨ht, decide_eq_true hid⟩)
  · intro h b hb hv hc bytes hkept flags hflags t ht
    obtain ⟨ht, hid⟩ := List.mem_filter.mp ht
    have hid : t.blockId = b.id := of_decide_eq_true hid
    have hpos : t.position ∈ db.positionsOf b.id := hid ▸ mem_positionsOf ht
    have hflag : db.flagOn b.id t.position = t.contractFlags := hid ▸ flagOn_eq ht
    rw [← hflag]
    exact h b.entry (List.mem_map_of_mem hb) hv hc bytes hkept flags hflags t.position hpos

end Db

/-- Compressed bytes come back as they were. -/
def Noid.Lossless (N : Noid) : Prop :=
  ∀ bytes n, bytes.length < n → N.inflate (N.deflate bytes) n = .ok bytes

theorem RawBlockRow.Holds.decompress_eq (hN : N.Lossless) {r : RawBlockRow} {bytes out : List UInt8}
    (h : r.Holds N bytes) (hout : decompress N r.codec r.data r.rawLen = .ok out) :
    out = bytes := by
  obtain ⟨-, hlen, hdata⟩ := h
  simp only [decompress, bind_ok, mapError_ok, pure_ok, hlen, hdata] at hout
  obtain ⟨-, -, -, -, raw, hraw, -, -, rfl⟩ := hout
  exact (Except.ok.inj (hraw.symm.trans (hN bytes _ (Nat.lt_succ_self _))))

/-- **The flags stay right where what is brought leaves them right.** -/
theorem Txn.callsRight_of_brought (hN : N.Lossless) {t : Txn} {db db' : Db} (hrefers : db.RawRefers)
    (hright : db.CallsRight N) (hkeeps : t.KeepsCalls N cfg db)
    (h : Db.Brought N (t.brings cfg db) db db') : db'.CallsRight N := by
  refine Db.callsRight_iff.mpr fun e he hv hc out hkept flags hflags p hp => ?_
  obtain ⟨r, hr, hid, hout⟩ := Db.mem_keptBytes.mp hkept
  obtain ⟨hflag, hpos⟩ := h.flags e he hc p hp
  rw [hflag]
  rcases h.kept r hr with hold | ⟨bytes, hholds, hnone, e', he', hid', hverify, hfrom⟩
  · -- bytes on record: the block is not new
    obtain ⟨e₀, he₀, hid₀⟩ := hrefers r hold
    rcases h.captured e he hc with hnew | ⟨e₁, he₁, hi, hh, hs, hc₁⟩
    · exact absurd (hid₀.trans hid) (hnew e₀ he₀)
    have hkey : t.brings cfg db e₁ = t.brings cfg db e := t.byKey_brings db e₁ e hi hh hs
    have hkept₁ : out ∈ db.keptBytes N e₁.id :=
      Db.mem_keptBytes.mpr ⟨r, hold, hid.trans hi.symm, hout⟩
    have hhas : db.hasRawBlock e₁.id :=
      List.any_eq_true.mpr ⟨r, hold, decide_eq_true (hid.trans hi.symm)⟩
    have hpos₁ : p ∈ db.positionsOf e₁.id ++ (t.brings cfg db e₁).positions := by
      rw [hi, hkey]
      rcases hpos with hp | hp | hnew
      · exact List.mem_append_left _ hp
      · exact List.mem_append_right _ hp
      · exact absurd hi (hnew e₁ he₁)
    have hcap : e₁.captured ∨ (t.brings cfg db e₁).fills := hc₁.imp_right fun hf => hf e₁ rfl
    rw [← hh, ← hs] at hflags
    rw [← hh] at hv
    have hleft : (t.brings cfg db e).flagLeft N db e p
      = (t.brings cfg db e₁).flagLeft N db e₁ p := by
      rw [Brings.flagLeft, Brings.flagLeft, hkey, hi, hh, hs]
    rw [hleft]
    by_cases hbrings : t.brings cfg db e₁ = {}
    · rw [hbrings, List.append_nil] at hpos₁
      have hcap₁ : e₁.captured := by
        rw [hbrings] at hcap
        exact hcap.resolve_right Bool.false_ne_true
      have hnothing : (t.brings cfg db e₁).flagLeft N db e₁ p = db.flagOn e₁.id p := by
        rw [hbrings, Brings.flagLeft, scanned, Option.bind_none, ite_self]
        rfl
      rw [hnothing]
      exact Db.callsRight_iff.mp hright e₁ he₁ hv hcap₁ out hkept₁ flags hflags p hpos₁
    · refine hkeeps e₁ he₁ hbrings hv hcap out ?_ flags hflags p hpos₁
      rw [Brings.unscanned, if_pos hhas]
      exact hkept₁
  · -- bytes that are kept now
    obtain rfl := hholds.decompress_eq hN hout
    obtain rfl := Ledger.eq_of_id he' he (hid'.trans hid)
    rcases hfrom with hscan | ⟨hkeep, hmem⟩
    · rw [Brings.flagLeft, hscan, scanned, if_pos hv, Option.bind_some, mem_toOption.mp hflags]
      rfl
    · have hbrings : t.brings cfg db e' ≠ {} := fun h =>
        Option.some_ne_none _ (hkeep.symm.trans (congrArg Brings.keeps h))
      have hpos' : p ∈ db.positionsOf e'.id ++ (t.brings cfg db e').positions := by
        rcases hpos with hp | hp | hnew
        · exact List.mem_append_left _ hp
        · exact List.mem_append_right _ hp
        · exact absurd rfl (hnew e' hmem)
      have hfree : ¬ db.hasRawBlock e'.id := hid'.symm ▸ hnone
      refine hkeeps e' hmem hbrings hv (Or.inl hc) out ?_ flags hflags p hpos'
      rw [Brings.unscanned, if_neg hfree, hkeep]
      simp [hverify]

/-! ## A call that is never seen -/

/-- The small crates with heights from the activation of v2 on; the second page of a block is a
contract call. -/
def Noid.calling : Noid :=
  { Noid.sample with
    height := fun h : UInt8 × List UInt8 => v2ActivationHeight + h.1.toNat
    contractBit := fun _ => true
    validateBlockPageStream := fun _ =>
      .ok ⟨[⟨0, 1, ⟨[], 0, 0, 0, [], (), 0, 0⟩⟩], false, 0, 0, 0, .b25⟩ }

theorem Noid.lossless_calling : Noid.calling.Lossless :=
  fun _ _ h => congrArg Except.ok (List.take_of_length_le h.le)

/-- A v2 block with its coinbase and one more transaction. -/
def callBlock : BlockDetailsInfo where
  header := plainHeader v2ActivationHeight "000809" ""
  retained := some { plainBody with
    transactions := plainBody.transactions ++ plainBody.transactions.map fun t =>
      { t with position := 1, coinbase := false } }

/-- A node whose tip is that block, its bytes served or not. -/
def callAnswers (served : Bool) : ∀ q : Query, q.Answer
  | .blockCount => .ok v2ActivationHeight
  | .blockDetails height => .ok (if height = v2ActivationHeight then some callBlock else none)
  | .block height =>
    .ok (if served ∧ height = v2ActivationHeight then some [0, 1, 8, 1, 9, 0, 8, 9] else none)
  | q => chainAnswers [] 1 q

/-- The bytes of a block are not served when it is recorded, and kept by the next poll. -/
def lateStints : List (Stint Query Query.Answer Db Txn String Thread) :=
  [⟨.indexer, pollOnce Noid.calling {}, fun _ => callAnswers false, 200⟩,
    ⟨.indexer, pollOnce Noid.calling {}, fun _ => callAnswers true, 200⟩]

theorem run_lateStints : Execution Noid.calling {} anyAnswer
    (traceAll (Txn.exec Noid.calling {}) lateStints Db.empty)
    (Config.idle (playAll (Txn.exec Noid.calling {}) lateStints Db.empty)) := by
  refine run_playAll Db.empty ?_
  simp only [lateStints, List.forall_mem_cons]
  exact ⟨⟨.poll, fun _ _ => trivial⟩, ⟨.poll, fun _ _ => trivial⟩, nofun⟩

/-- **Bytes that are kept by a later poll are not scanned**: a call they list has no flag. -/
theorem Execution.calls_missed :
    ∃ tr c, Execution Noid.calling {} anyAnswer tr c ∧ ¬ c.store.CallsRight Noid.calling :=
  ⟨_, _, run_lateStints, by decide +kernel⟩

/-! ## Along a run -/

/-- **While every transaction leaves the flags right where it brings something, they are right.** -/
theorem Execution.callsRight (hN : N.Lossless) {allow : ∀ q : Query, q.Answer → Prop}
    {tr : List (Db × Txn × Db)} {c : Prog.Config Query Query.Answer Db Txn String Thread}
    (h : Execution N cfg allow tr c) (hstep : ∀ x ∈ tr, x.2.1.KeepsCalls N cfg x.1) :
    c.store.CallsRight N := by
  have hexec : ∀ (db : Db) t db', Txn.Issued cfg (fun _ => True) t →
      db.CallsRight N ∧ db.RawRefers ∧ db.ledger.CapturesArchived → t.KeepsCalls N cfg db →
      t.exec N cfg db = .ok db' →
      db'.CallsRight N ∧ db'.RawRefers ∧ db'.ledger.CapturesArchived := by
    intro db t db' ht ⟨hright, hrefers, harchived⟩ hkeeps hexec
    have hbrought : Db.Brought N (t.brings cfg db) db db' :=
      Txn.brought ht.genuine harchived hexec
    have hledger := Txn.exec_ledger ht.genuine hexec
    have hgrows : db.ledger.Grows db'.ledger := hledger ▸ Op.grows_applyAll _ _
    have harchived' : db'.ledger.CapturesArchived := by
      rw [hledger]
      exact Op.applyAll_inv (fun op l hl => hl.apply op) _ harchived
    exact ⟨Txn.callsRight_of_brought hN hrefers hright hkeeps hbrought,
      hbrought.rawRefers hgrows hrefers, harchived'⟩
  have hempty : Db.empty.CallsRight N ∧ Db.empty.RawRefers ∧ Db.empty.ledger.CapturesArchived :=
    ⟨fun b hb => absurd hb List.not_mem_nil, fun r hr => absurd hr List.not_mem_nil,
      fun e he => absurd he List.not_mem_nil⟩
  exact (Run.invariant (fun _ _ hp => Job.commits (bodySource_any N allow) hp) hexec hempty h
    hstep).1.1

/-- The same block with its bytes served from the start. -/
def promptStints : List (Stint Query Query.Answer Db Txn String Thread) :=
  [⟨.indexer, startup, fun _ => callAnswers true, 2⟩,
    ⟨.indexer, pollOnce Noid.calling {}, fun _ => callAnswers true, 200⟩]

theorem run_promptStints : Execution Noid.calling {} anyAnswer
    (traceAll (Txn.exec Noid.calling {}) promptStints Db.empty)
    (Config.idle (playAll (Txn.exec Noid.calling {}) promptStints Db.empty)) := by
  refine run_playAll Db.empty ?_
  simp only [promptStints, List.forall_mem_cons]
  exact ⟨⟨.startup, fun _ _ => trivial⟩, ⟨.poll, fun _ _ => trivial⟩, nofun⟩

/-- Bytes that are served with the block are scanned with it. -/
theorem Execution.callsRight_prompt :
    (playAll (Txn.exec Noid.calling {}) promptStints Db.empty).CallsRight Noid.calling
      ∧ (playAll (Txn.exec Noid.calling {}) promptStints Db.empty).callsOf 1 = [(0, 0), (1, 1)] :=
  ⟨Execution.callsRight Noid.lossless_calling run_promptStints (by decide +kernel),
    by decide +kernel⟩

end Permanode
