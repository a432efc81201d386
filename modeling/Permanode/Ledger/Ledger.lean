import Mathlib.Logic.Function.Basic
import Permanode.Foundations.Table

/-!
# Ledger/Ledger — what the record says of blocks

The part of the database the indexer's promises are about, in its own terms: which blocks are on
record, which of them are canonical, which have a body, and which heights have an open gap.  `Op` is
what a transaction can do to it; `Ledger/Refinement` shows that every transaction does just that.

Every block enters by `enter`, which meets the block on record or adds it (`enter_cases`); an
invariant of the ledger is judged operation by operation, and `Op.applyAll_iff` carries the
judgement to the operations of a transaction.
-/

namespace Permanode

/-- A block on record. -/
structure Entry where
  id : ℕ
  height : ℕ
  hash : String
  /-- not a header-only row -/
  archived : Bool
  /-- the flag that says its body is on record -/
  captured : Bool
  deriving DecidableEq, Repr

instance : Row Entry where
  clash r s := r.id = s.id ∨ (r.height, r.hash) = (s.height, s.hash)
  clash_symm _ _ := decide_eq_decide.mpr (or_congr eq_comm eq_comm)

/-- The record of blocks. -/
@[ext] structure Ledger where
  entries : Table Entry
  /-- the last status of a block is canonical -/
  canonical : ℕ → Bool
  /-- the block has transactions on record -/
  bodied : ℕ → Bool
  /-- the gap of a height: `some true` while it is open, `some false` once it is resolved -/
  gap : ℕ → Option Bool

/-- What can happen to the record. -/
inductive Op
  /-- a block enters (or returns) as canonical, with a body (`filled`: one that holds
  transactions) -/
  | enterBody (height : ℕ) (hash : String) (filled : Bool)
  /-- a block enters (or returns) as canonical without one -/
  | enterGap (height : ℕ) (hash : String)
  /-- a header enters below the archive, at a height where there is nothing -/
  | enterHeader (height : ℕ) (hash : String)
  | orphan (id : ℕ)
  /-- a block on record gets its body, and the gap of `height` is resolved -/
  | fill (id height : ℕ) (filled : Bool)
  | openGap (height : ℕ)
  /-- the gaps of canonical blocks that have their body are resolved -/
  | closeBodied
  | prune (id : ℕ)
  /-- a header-only block gets a transaction of a receipt -/
  | attach (id : ℕ)
  deriving DecidableEq, Repr

namespace Ledger

/-- The block of a height and hash. -/
def find (l : Ledger) (height : ℕ) (hash : String) : Option Entry :=
  l.entries.rows.find? fun e => e.height = height ∧ e.hash = hash

/-- The id of the next entry. -/
def nextId (l : Ledger) : ℕ := l.entries.nextId Entry.id

/-- The id a block has, or gets when it enters. -/
def entryId (l : Ledger) (height : ℕ) (hash : String) : ℕ :=
  ((l.find height hash).map Entry.id).getD l.nextId

/-- The row a block has, or gets when it enters, is one of the archive without a body; `new` says it
of a new row. -/
def lacks (l : Ledger) (height : ℕ) (hash : String) (new : Bool) : Bool :=
  ((l.find height hash).map fun e => e.archived && !e.captured).getD new

/-- A block enters as canonical; the row of one that is there stays as it is. -/
def enter (l : Ledger) (height : ℕ) (hash : String) (archived captured : Bool) : Ledger :=
  { l with
    entries := l.entries.insertOrIgnore ⟨l.nextId, height, hash, archived, captured⟩
    canonical := Function.update l.canonical (l.entryId height hash) true }

/-- The flags of the block `id` set. -/
def setFlags (l : Ledger) (id : ℕ) (archived : Bool → Bool) (captured : Bool) : Table Entry :=
  l.entries.modify (fun e => e.id = id)
    (fun e => { e with archived := archived e.archived, captured := captured }) fun _ _ => rfl

/-- Whether there is a block `id`. -/
def has (l : Ledger) (id : ℕ) : Bool := l.entries.rows.any fun e => e.id = id

/-- A block on record gets transactions, if the body holds any. -/
def addBody (l : Ledger) (id : ℕ) (filled : Bool) : Ledger :=
  { l with bodied := Function.update l.bodied id (l.bodied id || (filled && l.has id)) }

@[simp] theorem addBody_false (l : Ledger) (id : ℕ) : l.addBody id false = l := by
  rw [addBody, Bool.false_and, Bool.or_false, Function.update_eq_self]

@[simp] theorem addBody_addBody (l : Ledger) (id : ℕ) (a b : Bool) :
    (l.addBody id a).addBody id b = l.addBody id (a || b) := by
  simp [addBody, has, Bool.or_assoc, Bool.and_or_distrib_right]

/-- `record_gap`: a height that has a gap on record keeps it as it is. -/
def withGap (l : Ledger) (height : ℕ) : Ledger :=
  { l with gap := Function.update l.gap height (some ((l.gap height).getD true)) }

/-- Whether a canonical block of the archive at `height` has its body. -/
def bodyAt (l : Ledger) (height : ℕ) : Bool :=
  l.entries.rows.any fun e => e.height = height && e.captured && e.archived && l.canonical e.id

/-- The gaps with those resolved that satisfy `p`. -/
def resolve (l : Ledger) (p : ℕ → Bool) (height : ℕ) : Option Bool :=
  (l.gap height).map fun isOpen => isOpen && !p height

end Ledger

/-- The effect of an operation. -/
def Op.apply : Op → Ledger → Ledger
  | .enterBody height hash filled, l =>
    (l.enter height hash true true).addBody (l.entryId height hash) filled
  | .enterGap height hash, l => (l.enter height hash true false).withGap height
  | .enterHeader height hash, l =>
    if l.entries.rows.any fun e => e.height = height then l else l.enter height hash false false
  | .orphan id, l => { l with canonical := Function.update l.canonical id false }
  | .fill id height filled, l =>
    { l.addBody id filled with
      entries := l.setFlags id (fun _ => true) true
      gap := l.resolve fun h => h = height }
  | .openGap height, l => l.withGap height
  | .closeBodied, l => { l with gap := l.resolve l.bodyAt }
  | .prune id, l =>
    { l with
      entries := l.setFlags id (fun a => a) false
      bodied := Function.update l.bodied id false }
  | .attach id, l =>
    if l.entries.rows.any fun e => e.id = id ∧ e.archived = false then
      { l with bodied := Function.update l.bodied id true }
    else l

/-- The effect of operations in order. -/
def Op.applyAll (ops : List Op) (l : Ledger) : Ledger := ops.foldl (fun l op => op.apply l) l

/-! ## What an operation does to the entries -/

namespace Ledger

variable {l : Ledger} {height id : ℕ} {hash : String} {archived captured filled : Bool}

theorem eq_of_id {e e' : Entry} (he : e ∈ l.entries.rows) (he' : e' ∈ l.entries.rows)
    (h : e.id = e'.id) : e = e' := l.entries.eq_of_clash he he' (decide_eq_true (Or.inl h))

theorem eq_of_key {e e' : Entry} (he : e ∈ l.entries.rows) (he' : e' ∈ l.entries.rows)
    (hh : e.height = e'.height) (hs : e.hash = e'.hash) : e = e' :=
  l.entries.eq_of_clash he he' (decide_eq_true (Or.inr (by rw [hh, hs])))

theorem find_eq_some {e : Entry} (he : e ∈ l.entries.rows) (hh : e.height = height)
    (hs : e.hash = hash) : l.find height hash = some e :=
  l.entries.find?_eq_some he (decide_eq_true ⟨hh, hs⟩) fun s hs' hp => by
    obtain ⟨h₁, h₂⟩ := of_decide_eq_true hp
    exact decide_eq_true (Or.inr (by rw [h₁, h₂, hh, hs]))

/-- **A block that enters is the one on record, or a new one under a new id.** -/
theorem enter_cases (l : Ledger) (height : ℕ) (hash : String) (archived captured : Bool) :
    (∃ e ∈ l.entries.rows, e.height = height ∧ e.hash = hash ∧ l.entryId height hash = e.id
        ∧ (l.enter height hash archived captured).entries = l.entries)
      ∨ ((∀ e ∈ l.entries.rows, e.height = height → e.hash ≠ hash)
        ∧ l.entryId height hash = l.nextId
        ∧ (l.enter height hash archived captured).entries.rows
          = l.entries.rows ++ [⟨l.nextId, height, hash, archived, captured⟩]) := by
  have hfresh : ∀ e ∈ l.entries.rows, e.id ≠ l.nextId := fun e he => (Table.lt_nextId he).ne
  rcases Table.rows_insert_cases l.entries ⟨l.nextId, height, hash, archived, captured⟩ with
    ⟨hrows, hfree⟩ | ⟨hsame, e, he, hclash⟩
  · refine Or.inr ⟨fun e he hh hs => ?_, ?_, hrows⟩
    · exact absurd (hfree e he) (by simp [Row.clash, hh, hs])
    · rw [entryId, find, List.find?_eq_none.mpr]
      · rfl
      · exact fun e he hk => absurd (hfree e he)
          (by simp [Row.clash, (of_decide_eq_true hk).1, (of_decide_eq_true hk).2])
  · have hkey : e.height = height ∧ e.hash = hash := by
      simpa [Row.clash, hfresh e he] using hclash
    refine Or.inl ⟨e, he, hkey.1, hkey.2, ?_, hsame⟩
    rw [entryId, find_eq_some he hkey.1 hkey.2]
    rfl

theorem lacks_of_mem {e : Entry} {new : Bool} (he : e ∈ l.entries.rows) (hh : e.height = height)
    (hs : e.hash = hash) : l.lacks height hash new = (e.archived && !e.captured) := by
  rw [lacks, find_eq_some he hh hs]
  rfl

theorem lacks_of_new {new : Bool} (h : ∀ e ∈ l.entries.rows, e.height = height → e.hash ≠ hash) :
    l.lacks height hash new = new := by
  rw [lacks, find, List.find?_eq_none.mpr]
  · rfl
  · exact fun e he hk => h e he (of_decide_eq_true hk).1 (of_decide_eq_true hk).2

/-- A block that has entered is found. -/
theorem find_enter : ((l.enter height hash archived captured).find height hash).map Entry.id
    = some (l.entryId height hash) := by
  rcases enter_cases l height hash archived captured with
    ⟨e, he, hh, hs, hid, hrows⟩ | ⟨-, hid, hrows⟩
  · rw [find_eq_some (hrows ▸ he) hh hs, hid, Option.map_some]
  · have hmem : ⟨l.nextId, height, hash, archived, captured⟩
        ∈ (l.enter height hash archived captured).entries.rows := by
      rw [hrows]
      exact List.mem_append_right _ (List.mem_singleton_self _)
    rw [find_eq_some hmem rfl rfl, hid, Option.map_some]

@[simp] theorem rows_setFlags (l : Ledger) (id : ℕ) (f : Bool → Bool) (c : Bool) :
    (l.setFlags id f c).rows
      = l.entries.rows.map (Table.updated (fun e => e.id = id)
          fun e => { e with archived := f e.archived, captured := c }) := rfl

/-- A block after its flags were set: another one as it was, or the block itself. -/
theorem mem_setFlags {f : Bool → Bool} {c : Bool} {e : Entry} :
    e ∈ (l.setFlags id f c).rows ↔
      ∃ e₀ ∈ l.entries.rows, e₀.id ≠ id ∧ e = e₀
        ∨ e₀.id = id ∧ e = { e₀ with archived := f e₀.archived, captured := c } := by
  rw [rows_setFlags, List.mem_map]
  refine exists_congr fun e₀ => and_congr_right fun _ => ?_
  unfold Table.updated
  by_cases hid : e₀.id = id
  · simp [hid, eq_comm]
  · simp [hid, eq_comm]

theorem resolve_eq_open {p : ℕ → Bool} {h : ℕ} :
    l.resolve p h = some true ↔ l.gap h = some true ∧ p h = false := by
  rcases hg : l.gap h with _ | b <;> simp [resolve, hg]

/-! ## The canonical blocks of a height -/

/-- The block `id` is canonical at `height`. -/
def CanonicalAt (l : Ledger) (height id : ℕ) : Prop :=
  ∃ e ∈ l.entries.rows, e.id = id ∧ e.height = height ∧ l.canonical id

theorem canonicalAt_enter {h i : ℕ} :
    (l.enter height hash archived captured).CanonicalAt h i ↔
      l.CanonicalAt h i ∨ h = height ∧ i = l.entryId height hash := by
  have hcanon : (l.enter height hash archived captured).canonical
      = Function.update l.canonical (l.entryId height hash) true := rfl
  unfold CanonicalAt
  rw [hcanon]
  rcases enter_cases l height hash archived captured with
    ⟨e₀, he₀, hh, -, hid, hrows⟩ | ⟨-, hid, hrows⟩
  · rw [hrows, hid]
    constructor
    · rintro ⟨e, he, rfl, rfl, hc⟩
      by_cases hi : e.id = e₀.id
      · exact Or.inr ⟨by rw [eq_of_id he he₀ hi, hh], hi⟩
      · exact Or.inl ⟨e, he, rfl, rfl, by rwa [Function.update_of_ne hi] at hc⟩
    · rintro (⟨e, he, rfl, rfl, hc⟩ | ⟨rfl, rfl⟩)
      · refine ⟨e, he, rfl, rfl, ?_⟩
        by_cases hi : e.id = e₀.id
        · rw [hi, Function.update_self]
        · rwa [Function.update_of_ne hi]
      · exact ⟨e₀, he₀, rfl, hh, by rw [Function.update_self]⟩
  · rw [hrows, hid]
    have hne : ∀ e ∈ l.entries.rows, e.id ≠ l.nextId := fun e he => (Table.lt_nextId he).ne
    constructor
    · rintro ⟨e, he, rfl, rfl, hc⟩
      rcases List.mem_append.mp he with he | he
      · exact Or.inl ⟨e, he, rfl, rfl, by rwa [Function.update_of_ne (hne e he)] at hc⟩
      · rw [List.mem_singleton.mp he]
        exact Or.inr ⟨rfl, rfl⟩
    · rintro (⟨e, he, rfl, rfl, hc⟩ | ⟨rfl, rfl⟩)
      · exact ⟨e, List.mem_append_left _ he, rfl, rfl, by rwa [Function.update_of_ne (hne e he)]⟩
      · exact ⟨_, List.mem_append_right _ (List.mem_singleton_self _), rfl, rfl, by
          rw [Function.update_self]⟩

/-- Flags say nothing of what is canonical. -/
theorem canonicalAt_setFlags {f : Bool → Bool} {c : Bool} {l' : Ledger}
    (hrows : l'.entries = l.setFlags id f c) (hcanon : l'.canonical = l.canonical) {h i : ℕ} :
    l'.CanonicalAt h i ↔ l.CanonicalAt h i := by
  unfold CanonicalAt
  rw [hrows, hcanon]
  constructor
  · rintro ⟨e, he, hi, hh, hc⟩
    obtain ⟨e₀, he₀, ⟨-, rfl⟩ | ⟨-, rfl⟩⟩ := mem_setFlags.mp he
    · exact ⟨e, he₀, hi, hh, hc⟩
    · exact ⟨e₀, he₀, hi, hh, hc⟩
  · rintro ⟨e, he, hi, hh, hc⟩
    by_cases hid : e.id = id
    · exact ⟨_, mem_setFlags.mpr ⟨e, he, Or.inr ⟨hid, rfl⟩⟩, hi, hh, hc⟩
    · exact ⟨e, mem_setFlags.mpr ⟨e, he, Or.inl ⟨hid, rfl⟩⟩, hi, hh, hc⟩

end Ledger

/-- The block an operation makes canonical. -/
def Op.entering (l : Ledger) : Op → Option (ℕ × String)
  | .enterBody height hash _ => some (height, hash)
  | .enterGap height hash => some (height, hash)
  | .enterHeader height hash =>
    if l.entries.rows.any fun e => e.height = height then none else some (height, hash)
  | _ => none

/-- **What is canonical after an operation**: what was, less the block orphaned, and the block that
entered. -/
theorem Op.canonicalAt_apply {l : Ledger} {h i : ℕ} (op : Op) :
    (op.apply l).CanonicalAt h i ↔
      l.CanonicalAt h i ∧ op ≠ .orphan i
        ∨ ∃ hash, op.entering l = some (h, hash) ∧ i = l.entryId h hash := by
  have hkeep : ∀ {l' : Ledger}, (l'.CanonicalAt h i ↔ l.CanonicalAt h i) → op ≠ .orphan i →
      op.entering l = none → (l'.CanonicalAt h i ↔ l.CanonicalAt h i ∧ op ≠ .orphan i
        ∨ ∃ hash, op.entering l = some (h, hash) ∧ i = l.entryId h hash) := by
    intro l' hl hne hnone
    simp [hl, hne, hnone]
  have henter : ∀ {l' : Ledger} {height hash archived captured},
      (l'.CanonicalAt h i ↔ (l.enter height hash archived captured).CanonicalAt h i) →
      op ≠ .orphan i → op.entering l = some (height, hash) →
      (l'.CanonicalAt h i ↔ l.CanonicalAt h i ∧ op ≠ .orphan i
        ∨ ∃ hash, op.entering l = some (h, hash) ∧ i = l.entryId h hash) := by
    intro l' height hash archived captured hl hne hsome
    rw [hl, Ledger.canonicalAt_enter, hsome]
    simp only [hne, ne_eq, not_false_eq_true, and_true, Option.some.injEq, Prod.mk.injEq]
    refine or_congr_right ⟨?_, ?_⟩
    · rintro ⟨rfl, rfl⟩
      exact ⟨hash, ⟨rfl, rfl⟩, rfl⟩
    · rintro ⟨_, ⟨rfl, rfl⟩, rfl⟩
      exact ⟨rfl, rfl⟩
  match op with
  | .enterBody height hash filled => exact henter Iff.rfl nofun rfl
  | .enterGap height hash => exact henter Iff.rfl nofun rfl
  | .enterHeader height hash =>
    rcases hany : l.entries.rows.any fun e => e.height = height with _ | _
    · have hl : (Op.enterHeader height hash).apply l = l.enter height hash false false := by
        simp [Op.apply, hany]
      exact henter (by rw [hl]) nofun (by simp [Op.entering, hany])
    · refine hkeep ?_ nofun ?_ <;> simp [Op.apply, Op.entering, hany]
  | .orphan id =>
    unfold Ledger.CanonicalAt
    by_cases hi : i = id
    · simp [Op.apply, Op.entering, hi]
    · simp [Op.apply, Op.entering, hi, Ne.symm hi]
  | .fill id height filled =>
    have hl := @Ledger.canonicalAt_setFlags l id (fun _ => true) true
      ((Op.fill id height filled).apply l) rfl rfl h i
    exact hkeep hl nofun rfl
  | .openGap _ => exact hkeep Iff.rfl nofun rfl
  | .closeBodied => exact hkeep Iff.rfl nofun rfl
  | .prune id =>
    have hl := @Ledger.canonicalAt_setFlags l id (fun a => a) false
      ((Op.prune id).apply l) rfl rfl h i
    exact hkeep hl nofun rfl
  | .attach id =>
    refine hkeep ?_ nofun rfl
    rw [Op.apply]
    split_ifs
    · exact Iff.rfl
    · exact Iff.rfl

/-! ## What operations leave standing -/

namespace Ledger

/-- Every block is still on record, and still of the archive if it was. -/
def Grows (l l' : Ledger) : Prop :=
  ∀ e ∈ l.entries.rows, ∃ e' ∈ l'.entries.rows,
    e'.id = e.id ∧ e'.height = e.height ∧ e'.hash = e.hash ∧ (e.archived → e'.archived)

/-- The block `id` is of the archive and at `height`. -/
def ArchivedAt (l : Ledger) (id height : ℕ) : Prop :=
  ∃ e ∈ l.entries.rows, e.id = id ∧ e.height = height ∧ e.archived

variable {l l' l'' : Ledger}

theorem Grows.refl (l : Ledger) : l.Grows l := fun e he => ⟨e, he, rfl, rfl, rfl, fun h => h⟩

theorem Grows.trans (h : l.Grows l') (h' : l'.Grows l'') : l.Grows l'' := by
  intro e he
  obtain ⟨e', he', hi, hh, hs, ha⟩ := h e he
  obtain ⟨e'', he'', hi', hh', hs', ha'⟩ := h' e' he'
  exact ⟨e'', he'', hi'.trans hi, hh'.trans hh, hs'.trans hs, fun h => ha' (ha h)⟩

theorem Grows.of_entries (h : ∀ e ∈ l.entries.rows, e ∈ l'.entries.rows) : l.Grows l' :=
  fun e he => ⟨e, h e he, rfl, rfl, rfl, fun h => h⟩

theorem Grows.archivedAt (h : l.Grows l') {id height : ℕ} (ha : l.ArchivedAt id height) :
    l'.ArchivedAt id height := by
  obtain ⟨e, he, rfl, rfl, harch⟩ := ha
  obtain ⟨e', he', hi, hh, -, ha'⟩ := h e he
  exact ⟨e', he', hi, hh, ha' harch⟩

theorem grows_setFlags {id : ℕ} {f : Bool → Bool} {c : Bool} (hf : ∀ a, a = true → f a = true)
    (h : l'.entries = l.setFlags id f c) : l.Grows l' := by
  intro e he
  rw [h]
  by_cases hid : e.id = id
  · exact ⟨_, mem_setFlags.mpr ⟨e, he, Or.inr ⟨hid, rfl⟩⟩, rfl, rfl, rfl, hf _⟩
  · exact ⟨e, mem_setFlags.mpr ⟨e, he, Or.inl ⟨hid, rfl⟩⟩, rfl, rfl, rfl, fun h => h⟩

theorem mem_enter {height : ℕ} {hash : String} {archived captured : Bool} {e : Entry}
    (he : e ∈ l.entries.rows) : e ∈ (l.enter height hash archived captured).entries.rows :=
  Table.mem_insert_of_mem he

/-- A block of the archive after one has entered. -/
theorem archivedAt_enter {height : ℕ} {hash : String} {archived captured : Bool} {i a : ℕ}
    (h : (l.enter height hash archived captured).ArchivedAt i a) :
    l.ArchivedAt i a ∨ a = height ∧ archived := by
  obtain ⟨e, he, rfl, rfl, ha⟩ := h
  rcases Table.mem_insert he with he | rfl
  · exact Or.inl ⟨e, he, rfl, rfl, ha⟩
  · exact Or.inr ⟨rfl, ha⟩

/-- Flags that make no block one of the archive. -/
theorem archivedAt_setFlags {id : ℕ} {f : Bool → Bool} {c : Bool}
    (hf : ∀ e ∈ l.entries.rows, e.id = id → f e.archived = true → e.archived = true)
    (hrows : l'.entries = l.setFlags id f c) {i a : ℕ} (h : l'.ArchivedAt i a) :
    l.ArchivedAt i a := by
  obtain ⟨e, he, rfl, rfl, ha⟩ := h
  obtain ⟨e₀, he₀, ⟨-, rfl⟩ | ⟨hid, rfl⟩⟩ := mem_setFlags.mp (hrows ▸ he)
  · exact ⟨e, he₀, rfl, rfl, ha⟩
  · exact ⟨e₀, he₀, rfl, rfl, hf e₀ he₀ hid ha⟩

end Ledger

/-- **No operation takes a block off the record.** -/
theorem Op.grows_apply {l : Ledger} (op : Op) : l.Grows (op.apply l) := by
  match op with
  | .enterBody .. => exact .of_entries fun e he => Ledger.mem_enter he
  | .enterGap .. => exact .of_entries fun e he => Ledger.mem_enter he
  | .enterHeader height hash =>
    rw [Op.apply]
    split_ifs
    · exact .refl l
    · exact .of_entries fun e he => Ledger.mem_enter he
  | .orphan _ => exact .refl l
  | .fill id height filled =>
    exact Ledger.grows_setFlags (f := fun _ => true) (c := true) (fun _ _ => rfl) rfl
  | .openGap _ => exact .refl l
  | .closeBodied => exact .refl l
  | .prune id => exact Ledger.grows_setFlags (f := fun a => a) (c := false) (fun _ h => h) rfl
  | .attach id =>
    rw [Op.apply]
    split_ifs
    · exact .refl l
    · exact .refl l

/-- A height an operation may bring into the archive. -/
def Op.Archives (l : Ledger) (a : ℕ) : Op → Prop
  | .enterBody height _ _ => a = height
  | .enterGap height _ => a = height
  | .fill id _ _ => ¬ ∃ k, l.ArchivedAt id k
  | _ => False

/-- **What is of the archive after an operation.** -/
theorem Op.archivedAt_apply {l : Ledger} {i a : ℕ} (op : Op) (h : (op.apply l).ArchivedAt i a) :
    l.ArchivedAt i a ∨ op.Archives l a := by
  match op with
  | .enterBody .. => exact (Ledger.archivedAt_enter h).imp_right And.left
  | .enterGap .. => exact (Ledger.archivedAt_enter h).imp_right And.left
  | .enterHeader height hash =>
    rw [Op.apply] at h
    split_ifs at h
    · exact Or.inl h
    · exact (Ledger.archivedAt_enter h).imp_right fun hf => Bool.false_ne_true hf.2
  | .orphan _ => exact Or.inl h
  | .fill id height filled =>
    by_cases hk : ∃ k, l.ArchivedAt id k
    · obtain ⟨k, e₀, he₀, hid, -, ha₀⟩ := hk
      refine Or.inl (@Ledger.archivedAt_setFlags l _ id (fun _ => true) true ?_ rfl i a h)
      intro e he hid' _
      rwa [Ledger.eq_of_id he he₀ (hid'.trans hid.symm)]
    · exact Or.inr hk
  | .openGap _ => exact Or.inl h
  | .closeBodied => exact Or.inl h
  | .prune id =>
    exact Or.inl (@Ledger.archivedAt_setFlags l _ id (fun a => a) false
      (fun _ _ _ h => h) rfl i a h)
  | .attach id =>
    rw [Op.apply] at h
    split_ifs at h
    · exact Or.inl h
    · exact Or.inl h

theorem Op.canonicalAt_mono {l : Ledger} {h i : ℕ} (op : Op) (hop : op ≠ .orphan i)
    (hc : l.CanonicalAt h i) : (op.apply l).CanonicalAt h i :=
  op.canonicalAt_apply.mpr (Or.inl ⟨hc, hop⟩)

/-! ### Over a transaction -/

theorem Op.grows_applyAll : ∀ (ops : List Op) (l : Ledger), l.Grows (applyAll ops l)
  | [], l => .refl l
  | op :: ops, l => op.grows_apply.trans (grows_applyAll ops (op.apply l))

theorem Op.canonicalAt_applyAll {h i : ℕ} : ∀ (ops : List Op) {l : Ledger},
    (∀ op ∈ ops, op ≠ .orphan i) → l.CanonicalAt h i → (applyAll ops l).CanonicalAt h i
  | [], _, _, hc => hc
  | op :: ops, _, hop, hc =>
    canonicalAt_applyAll ops (fun o ho => hop o (List.mem_cons_of_mem _ ho))
      (op.canonicalAt_mono (hop op List.mem_cons_self) hc)

/-- A block of the archive after operations was one, or was brought in by one of them. -/
theorem Op.archivedAt_applyAll {i a : ℕ} : ∀ (ops : List Op) {l : Ledger},
    (applyAll ops l).ArchivedAt i a →
      l.ArchivedAt i a ∨ ∃ op ∈ ops, ∃ l', l.Grows l' ∧ op.Archives l' a
  | [], _, h => Or.inl h
  | op :: ops, l, h => by
      rcases archivedAt_applyAll ops h with h | ⟨o, ho, l', hl', ha⟩
      · rcases op.archivedAt_apply h with h | ha
        · exact Or.inl h
        · exact Or.inr ⟨op, List.mem_cons_self, l, .refl l, ha⟩
      · exact Or.inr ⟨o, List.mem_cons_of_mem _ ho, l', op.grows_apply.trans hl', ha⟩

/-! ## The operations of a transaction -/

/-- Operations each of which meets a condition where it is applied. -/
def Op.AllMeet (cond : Ledger → Op → Prop) : List Op → Ledger → Prop
  | [], _ => True
  | op :: ops, l => cond l op ∧ AllMeet cond ops (op.apply l)

/-- The operations that stand before others in a transaction. -/
def Op.Leading : Op → Prop
  | .orphan _ => True
  | .enterHeader _ _ => True
  | _ => False

/-- At most the last operation is none of those. -/
def Op.Ordered (ops : List Op) : Prop := ∀ op ∈ ops.dropLast, op.Leading

theorem Op.ordered_cons {op : Op} {ops : List Op} (h : op.Leading) (hl : ops.length ≤ 1) :
    Ordered (op :: ops) := by
  intro o ho
  match ops with
  | [] => exact absurd ho List.not_mem_nil
  | [_] => rwa [List.mem_singleton.mp ho]

theorem Op.ordered_of_length {ops : List Op} (hl : ops.length ≤ 1) : Ordered ops := by
  intro o ho
  match ops with
  | [] => exact absurd ho List.not_mem_nil
  | [_] => exact absurd ho List.not_mem_nil

/-- **An invariant judged operation by operation is judged over a transaction**, when leading
operations keep it anyway. -/
theorem Op.applyAll_iff {I : Ledger → Prop} {C : Ledger → Op → Prop} {Q : Op → Prop}
    (hstep : ∀ op l, Q op → I l → (I (op.apply l) ↔ C l op))
    (hlead : ∀ op l, op.Leading → C l op) :
    ∀ {ops : List Op} {l : Ledger}, Ordered ops → (∀ op ∈ ops, Q op) → I l →
      (I (applyAll ops l) ↔ AllMeet C ops l)
  | [], _, _, _, hl => iff_of_true hl trivial
  | [op], l, _, hq, hl => (hstep op l (hq op List.mem_cons_self) hl).trans
    (and_iff_left trivial).symm
  | op :: op' :: ops, l, ho, hq, hl => by
      have hc := hlead op l (ho op List.mem_cons_self)
      have hl' := (hstep op l (hq op List.mem_cons_self) hl).mpr hc
      have ho' : Ordered (op' :: ops) := fun o h => ho o (List.mem_cons_of_mem _ h)
      exact (applyAll_iff hstep hlead ho' (fun o h => hq o (List.mem_cons_of_mem _ h)) hl').trans
        (and_iff_right hc).symm

/-- An invariant every operation keeps. -/
theorem Op.applyAll_inv {inv : Ledger → Prop} (hstep : ∀ (op : Op) l, inv l → inv (op.apply l)) :
    ∀ (ops : List Op) {l : Ledger}, inv l → inv (applyAll ops l)
  | [], _, hl => hl
  | op :: ops, l, hl => applyAll_inv hstep ops (hstep op l hl)

end Permanode
