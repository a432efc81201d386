import Permanode.System.Issued

/-!
# Ledger/Executions — invariants of the ledger along a run

The bridge from operations to runs: an invariant of the ledger that each operation keeps exactly
under a condition is kept by a run exactly while its transactions meet theirs (`Execution.judged`).
-/

namespace Permanode

open Prog

namespace Ledger

/-- Only blocks on record have transactions. -/
def Based (l : Ledger) : Prop := ∀ id, l.bodied id = true → ∃ e ∈ l.entries.rows, e.id = id

variable {l : Ledger} {height id : ℕ} {hash : String} {archived captured filled : Bool}

/-- A block that is entered has no transactions yet. -/
theorem Based.enter (h : l.Based) : (l.enter height hash archived captured).Based := fun id hid =>
  have ⟨e, he, hid⟩ := h id hid
  ⟨e, mem_enter he, hid⟩

/-- Transactions are added to blocks on record. -/
theorem Based.addBody (h : l.Based) : (l.addBody id filled).Based := by
  intro k hk
  by_cases hki : k = id
  · subst hki
    simp only [Ledger.addBody, Function.update_self, Bool.or_eq_true, Bool.and_eq_true] at hk
    rcases hk with hk | ⟨-, hk⟩
    · exact h k hk
    · obtain ⟨e, he, hid⟩ := List.any_eq_true.mp hk
      exact ⟨e, he, of_decide_eq_true hid⟩
  · simp only [Ledger.addBody, Function.update_of_ne hki] at hk
    exact h k hk

/-- Flags change no transactions. -/
theorem Based.setFlags {l' : Ledger} {f : Bool → Bool} {c : Bool} (h : l.Based)
    (hrows : l'.entries = l.setFlags id f c) (hbodied : ∀ k, l'.bodied k → l.bodied k) :
    l'.Based := by
  intro k hk
  obtain ⟨e, he, rfl⟩ := h k (hbodied k hk)
  rw [hrows]
  by_cases hid : e.id = id
  · exact ⟨_, mem_setFlags.mpr ⟨e, he, Or.inr ⟨hid, rfl⟩⟩, rfl⟩
  · exact ⟨e, mem_setFlags.mpr ⟨e, he, Or.inl ⟨hid, rfl⟩⟩, rfl⟩

/-- **Every operation keeps transactions with their blocks.** -/
theorem Based.apply (h : l.Based) (op : Op) : (op.apply l).Based := by
  match op with
  | .enterBody .. => exact h.enter.addBody
  | .enterGap .. => exact h.enter
  | .enterHeader .. =>
    rw [Op.apply]
    split_ifs
    · exact h
    · exact h.enter
  | .orphan _ | .openGap _ | .closeBodied => exact h
  | .fill id height filled =>
    rw [Op.apply]
    exact h.addBody.setFlags (f := fun _ => true) (c := true) rfl fun _ hk => hk
  | .prune id =>
    refine h.setFlags (f := fun a => a) (c := false) rfl fun k hk => ?_
    by_cases hki : k = id
    · subst hki
      simp [Op.apply] at hk
    · simpa only [Op.apply, Function.update_of_ne hki] using hk
  | .attach id =>
    rw [Op.apply]
    split_ifs with hany
    · intro k hk
      by_cases hki : k = id
      · subst hki
        obtain ⟨e, he, hid⟩ := List.any_eq_true.mp hany
        exact ⟨e, he, (of_decide_eq_true hid).1⟩
      · exact h k (by simpa only [Function.update_of_ne hki] using hk)
    · exact h

end Ledger

theorem Db.based_empty : Db.empty.ledger.Based := fun _ hid => absurd hid Bool.false_ne_true

/-! ## Along a run -/

/-- A block is recorded by one operation at most. -/
theorem Db.length_storeOps (db : Db) (details : BlockDetailsInfo) :
    (db.storeOps details).length ≤ 1 := by
  unfold storeOps
  dsimp only
  repeat' split
  all_goals simp

theorem Db.length_gapOps (db : Db) (details : BlockDetailsInfo) :
    (db.gapOps details).length ≤ 1 := by
  unfold gapOps
  dsimp only
  split_ifs <;> simp

/-- An orphaned block and headers come before whatever else a transaction does. -/
theorem Txn.ops_ordered (t : Txn) (db : Db) : Op.Ordered (t.ops db) := by
  match t with
  | .ingest .. => exact Op.ordered_of_length (Db.length_storeOps ..)
  | .gapBlock .. => exact Op.ordered_of_length (Db.length_gapOps ..)
  | .replace _ _ _ _ none _ => exact Op.ordered_cons trivial le_rfl
  | .replace _ _ _ _ (some (.store ..)) _ => exact Op.ordered_cons trivial (Db.length_storeOps ..)
  | .replace _ _ _ _ (some (.gap ..)) _ => exact Op.ordered_cons trivial (Db.length_gapOps ..)
  | .headerBatch batch _ _ =>
    intro op hop
    obtain ⟨h, -, rfl⟩ := List.mem_map.mp (List.dropLast_subset _ hop)
    exact trivial
  | .receipt blockId tx now =>
    rw [ops]
    split
    · exact Op.ordered_of_length le_rfl
    · exact Op.ordered_of_length (Nat.zero_le _)
  | .recover .. | .fillGap .. | .resolveGapsWithBodies _ | .pruneBlock _ =>
    exact Op.ordered_of_length le_rfl
  | .setState .. | .keepRaw .. | .fillRaw .. | .clearSpentInGap | .setTipSeen ..
  | .adoptTipSeen .. | .adoptProofClass .. | .sweepSegment .. | .sweepBalances _
  | .upsertBalances .. => exact Op.ordered_of_length (Nat.zero_le _)

/-- What a transaction has to show for an operation: the body that is stored, or that it is there to
prune. -/
def Op.Justified (t : Txn) : Op → Prop
  | .enterBody _ _ filled => ∃ b ∈ t.bodies, filled = decide (b.transactions ≠ [])
  | .fill _ _ filled => ∃ b ∈ t.bodies, filled = decide (b.transactions ≠ [])
  | .prune id => t = .pruneBlock id
  | _ => True

/-- **What a block with its body does is justified by the body.** -/
theorem Db.storeOps_justified {t : Txn} (db : Db) {details : BlockDetailsInfo}
    (hb : ∀ b ∈ details.retained, b ∈ t.bodies) : ∀ op ∈ db.storeOps details, op.Justified t := by
  unfold storeOps
  split
  · exact nofun
  · next retained hret =>
    have hmem := hb retained hret
    dsimp only
    split_ifs
    · split
      · exact nofun
      · rintro op hop
        rw [List.mem_singleton.mp hop]
        exact ⟨retained, hmem, by simp⟩
    · rintro op hop
      rw [List.mem_singleton.mp hop]
      exact ⟨retained, hmem, by simp⟩

/-- A block without one needs no body. -/
theorem Db.gapOps_justified {t : Txn} (db : Db) (details : BlockDetailsInfo) :
    ∀ op ∈ db.gapOps details, op.Justified t := by
  unfold gapOps
  dsimp only
  split_ifs <;>
  · rintro op hop
    rw [List.mem_singleton.mp hop]
    exact trivial

/-- **Every operation of a transaction is justified by it.** -/
theorem Txn.ops_justified (t : Txn) (db : Db) : ∀ op ∈ t.ops db, op.Justified t := by
  match t with
  | .ingest .. => exact db.storeOps_justified fun b hb => Option.mem_toList.mpr hb
  | .gapBlock details _ _ => exact db.gapOps_justified details
  | .replace _ id orphanedAt _ replacement _ =>
    intro op hop
    rcases List.mem_cons.mp hop with rfl | hop
    · exact trivial
    rcases replacement with _ | ⟨details, _, _⟩ | ⟨details, _⟩
    · rw [List.mem_singleton.mp hop]
      exact trivial
    · refine Db.storeOps_justified _ (fun b hb => ?_) op hop
      exact Option.mem_toList.mpr hb
    · exact Db.gapOps_justified _ details op hop
  | .recover .. | .fillGap .. =>
    intro op hop
    rw [List.mem_singleton.mp hop]
    exact ⟨_, List.mem_singleton_self _, by simp⟩
  | .headerBatch batch _ _ =>
    intro op hop
    obtain ⟨h, -, rfl⟩ := List.mem_map.mp hop
    exact trivial
  | .receipt blockId tx now =>
    rw [ops]
    split
    · intro op hop
      rw [List.mem_singleton.mp hop]
      exact trivial
    · exact fun _ h => absurd h List.not_mem_nil
  | .resolveGapsWithBodies _ =>
    intro op hop
    rw [List.mem_singleton.mp hop]
    exact trivial
  | .pruneBlock _ =>
    intro op hop
    rw [List.mem_singleton.mp hop]
    exact rfl
  | .setState .. | .keepRaw .. | .fillRaw .. | .clearSpentInGap | .setTipSeen ..
  | .adoptTipSeen .. | .adoptProofClass .. | .sweepSegment .. | .sweepBalances _
  | .upsertBalances .. => exact fun _ h => absurd h List.not_mem_nil

variable {N : Noid} {cfg : Config} {allow : ∀ q : Query, q.Answer → Prop}
  {B : RetainedBlockInfo → Prop}

/-- The operations of a transaction each meet a condition where they apply. -/
def Txn.Meets (cond : Ledger → Op → Prop) (t : Txn) (db : Db) : Prop :=
  Op.AllMeet cond (t.ops db) db.ledger

/-- **An invariant that each operation keeps exactly under a condition is kept by a run exactly
while its transactions meet theirs.** `Q` is what is known of the operations issued. -/
theorem Execution.judged {inv : Ledger → Prop} {cond : Ledger → Op → Prop} {Q : Op → Prop}
    (hB : BodySource N allow B) (hQ : ∀ t db, Txn.Issued cfg B t → ∀ op ∈ t.ops db, Q op)
    (hstep : ∀ op l, Q op → l.Based → inv l → (inv (op.apply l) ↔ cond l op))
    (hlead : ∀ op l, op.Leading → cond l op) (h₀ : inv Db.empty.ledger)
    {tr : List (Db × Txn × Db)} {c : Prog.Config Query Query.Answer Db Txn String Thread}
    (h : Execution N cfg allow tr c) :
    ((∀ x ∈ tr, x.2.1.Meets cond x.1) → inv c.store.ledger)
      ∧ ((∀ x ∈ tr, inv x.2.2.ledger) ↔ ∀ x ∈ tr, x.2.1.Meets cond x.1) := by
  refine Run.invariant_iff (I := fun db : Db => inv db.ledger)
    (B := fun db : Db => db.ledger.Based) (P := Txn.Issued cfg B)
    (C := fun db t => t.Meets cond db) (fun _ _ hp => Job.commits hB hp) ?_ ?_
    Db.based_empty h₀ h
  · intro db t db' ht hb hexec
    rw [Txn.exec_ledger ht.genuine hexec]
    exact Op.applyAll_inv (fun op l hl => hl.apply op) _ hb
  · intro db t db' ht hb hi hexec
    have hbi : db.ledger.Based ∧ inv db.ledger := ⟨hb, hi⟩
    have hall := Op.applyAll_iff (I := fun l => l.Based ∧ inv l) (Q := Q)
      (fun op l hq hl => (and_iff_right (hl.1.apply op)).trans (hstep op l hq hl.1 hl.2)) hlead
      (t.ops_ordered db) (hQ t db ht) hbi
    rw [Txn.exec_ledger ht.genuine hexec]
    exact (and_iff_right (Op.applyAll_inv (fun op l hl => hl.apply op) _ hb)).symm.trans hall

end Permanode
