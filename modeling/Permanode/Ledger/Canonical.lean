import Permanode.Ledger.Refinement

/-!
# Ledger/Canonical — one canonical block per height

The status log may call several blocks of a height canonical: nothing but the programs keeps it from
that.  An operation keeps the canonical block of a height alone iff the block it enters, if any,
meets no other one there (`Op.sole_apply`); `Ledger/CanonicalRun` shows of the programs when that is
so.
-/

namespace Permanode

namespace Ledger

/-- At most one block is canonical at a height. -/
def Sole (l : Ledger) : Prop := ∀ h i j, l.CanonicalAt h i → l.CanonicalAt h j → i = j

theorem entryId_eq_iff {l : Ledger} {e : Entry} (he : e ∈ l.entries.rows) {hash : String} :
    e.id = l.entryId e.height hash ↔ e.hash = hash := by
  rcases enter_cases l e.height hash true true with ⟨e', he', hh, hs, hid, -⟩ | ⟨hnone, hid, -⟩
  · rw [hid]
    constructor
    · intro h
      rw [eq_of_id he he' h, hs]
    · intro h
      rw [eq_of_key he he' hh.symm (h.trans hs.symm)]
  · rw [hid]
    exact iff_of_false (Table.lt_nextId he).ne (hnone e he rfl)

end Ledger

/-- The block that enters, if one does, meets no other canonical block at its height. -/
def Op.EntersAlone (l : Ledger) (op : Op) : Prop :=
  ∀ height hash, op.entering l = some (height, hash) →
    ∀ e ∈ l.entries.rows, e.height = height → l.canonical e.id → e.hash = hash

/-- **An operation keeps the canonical block of a height alone iff it enters alone.** -/
theorem Op.sole_apply {l : Ledger} (op : Op) (h : l.Sole) :
    (op.apply l).Sole ↔ op.EntersAlone l := by
  constructor
  · intro h' height hash henter e he hh hc
    subst hh
    refine (Ledger.entryId_eq_iff he).mp (h' e.height _ _ ?_ (op.canonicalAt_apply.mpr
      (Or.inr ⟨hash, henter, rfl⟩)))
    refine op.canonicalAt_apply.mpr (Or.inl ⟨⟨e, he, rfl, rfl, hc⟩, ?_⟩)
    rintro rfl
    exact nomatch henter
  · intro halone
    have hold : ∀ {k i hash}, l.CanonicalAt k i → op.entering l = some (k, hash) →
        i = l.entryId k hash := by
      rintro k i hash ⟨e, he, rfl, rfl, hc⟩ henter
      exact (Ledger.entryId_eq_iff he).mpr (halone _ _ henter e he rfl hc)
    intro k i j hi hj
    rcases op.canonicalAt_apply.mp hi with ⟨hi, -⟩ | ⟨hash, henter, rfl⟩ <;>
      rcases op.canonicalAt_apply.mp hj with ⟨hj, -⟩ | ⟨hash', henter', rfl⟩
    · exact h k i j hi hj
    · exact hold hi henter'
    · exact (hold hj henter).symm
    · rw [henter] at henter'
      obtain ⟨-, rfl⟩ := Prod.mk.inj (Option.some.inj henter')
      rfl

namespace Db

/-- At most one block row per height has `canonical` as its latest status. -/
def OneCanonical (db : Db) : Prop :=
  ∀ b ∈ db.blocks.rows, ∀ b' ∈ db.blocks.rows, b.height = b'.height → db.isCanonical b.id →
    db.isCanonical b'.id → b = b'

instance (db : Db) : Decidable db.OneCanonical := by unfold OneCanonical; infer_instance

theorem oneCanonical_iff (db : Db) : db.OneCanonical ↔ db.ledger.Sole := by
  constructor
  · rintro h k i j ⟨e, he, rfl, rfl, hc⟩ ⟨e', he', rfl, hh, hc'⟩
    obtain ⟨b, hb, rfl⟩ := List.mem_map.mp he
    obtain ⟨b', hb', rfl⟩ := List.mem_map.mp he'
    rw [h b hb b' hb' hh.symm hc hc']
  · intro h b hb b' hb' hh hc hc'
    have hid : b.id = b'.id := h b.height b.id b'.id
      ⟨b.entry, List.mem_map_of_mem hb, rfl, rfl, hc⟩
      ⟨b'.entry, List.mem_map_of_mem hb', rfl, hh.symm, hc'⟩
    exact db.blocks.eq_of_clash hb hb' (decide_eq_true (Or.inl hid))

end Db

end Permanode
