import Mathlib.Data.List.Forall2
import Mathlib.Data.List.MinMax
import Mathlib.Data.List.Pairwise
import Mathlib.Tactic.SplitIfs

/-!
# Foundations/Table — tables with uniqueness constraints

A relational table is the list of its rows in insertion order, together with the proof that no two
rows break a uniqueness constraint.  `Row.clash` is the constraint (primary key and `UNIQUE`
columns at once), and every operation hands the proof on, so a table with a duplicate key cannot be
built:

    insertOrIgnore · upsert · delete · modify

`ORDER BY key DESC LIMIT 1` is `List.argmax`; `argmax_append_of_lt` is what an append-only log needs
of it.
-/

/-- A row type with its uniqueness constraints: `clash r s` when `r` and `s` may not both stand in
one table. -/
class Row (ρ : Type) where
  clash : ρ → ρ → Bool
  clash_symm : ∀ r s, clash r s = clash s r

/-- The rows of a table, no two of which clash. -/
structure Table (ρ : Type) [Row ρ] where
  rows : List ρ
  unique : rows.Pairwise fun r s => Row.clash r s = false

namespace Table

variable {ρ : Type} [Row ρ]

instance : EmptyCollection (Table ρ) := ⟨⟨[], List.Pairwise.nil⟩⟩

@[simp] theorem rows_empty : (∅ : Table ρ).rows = [] := rfl

/-- A table is its rows. -/
theorem ext {t u : Table ρ} (h : t.rows = u.rows) : t = u := by
  obtain ⟨rs, _⟩ := t
  obtain ⟨ss, _⟩ := u
  cases h
  rfl

/-- **Two rows that clash are one row.** -/
theorem eq_of_clash (t : Table ρ) {r s : ρ} (hr : r ∈ t.rows) (hs : s ∈ t.rows)
    (h : Row.clash r s = true) : r = s := by
  have : Std.Symm fun r s : ρ => Row.clash r s = false :=
    ⟨fun a b hab => (Row.clash_symm b a).trans hab⟩
  by_contra hne
  exact absurd (h.symm.trans (t.unique.forall hr hs hne)) (by decide)

/-- The one row a condition singles out by a uniqueness constraint is the row found. -/
theorem find?_eq_some (t : Table ρ) {p : ρ → Bool} {r : ρ} (hr : r ∈ t.rows) (hp : p r = true)
    (h : ∀ s ∈ t.rows, p s = true → Row.clash s r = true) : t.rows.find? p = some r := by
  obtain ⟨s, hs⟩ := Option.isSome_iff_exists.mp (List.find?_isSome.mpr ⟨r, hr, hp⟩)
  have hmem := List.mem_of_find?_eq_some hs
  rw [hs, t.eq_of_clash hmem hr (h s hmem (List.find?_some hs))]

/-! ## Inserting -/

/-- `INSERT … ON CONFLICT DO NOTHING`, also `INSERT OR IGNORE`. -/
def insertOrIgnore (t : Table ρ) (r : ρ) : Table ρ :=
  if h : t.rows.any (Row.clash · r) then t
  else ⟨t.rows ++ [r], List.pairwise_append.mpr ⟨t.unique, List.pairwise_singleton _ _, by
    intro s hs x hx
    obtain rfl := List.mem_singleton.mp hx
    by_contra hc
    exact h (List.any_eq_true.mpr ⟨s, hs, by simpa using hc⟩)⟩⟩

/-- A row that clashes with nothing is appended. -/
theorem rows_insert_of_free {t : Table ρ} {r : ρ} (h : ∀ s ∈ t.rows, Row.clash s r = false) :
    (t.insertOrIgnore r).rows = t.rows ++ [r] := by
  have hany : t.rows.any (Row.clash · r) = false :=
    List.any_eq_false.mpr fun s hs => by rw [h s hs]; decide
  simp [insertOrIgnore, hany]

/-- A row that clashes is dropped, and the table stays as it was. -/
theorem insert_of_clash {t : Table ρ} {r s : ρ} (hs : s ∈ t.rows) (h : Row.clash s r = true) :
    t.insertOrIgnore r = t := by
  have hany : t.rows.any (Row.clash · r) = true := List.any_eq_true.mpr ⟨s, hs, h⟩
  simp [insertOrIgnore, hany]

/-- **An insert appends the row or changes nothing.** -/
theorem rows_insert_cases (t : Table ρ) (r : ρ) :
    (t.insertOrIgnore r).rows = t.rows ++ [r] ∧ (∀ s ∈ t.rows, Row.clash s r = false)
      ∨ t.insertOrIgnore r = t ∧ ∃ s ∈ t.rows, Row.clash s r = true := by
  by_cases h : ∃ s ∈ t.rows, Row.clash s r = true
  · obtain ⟨s, hs, hc⟩ := h
    exact Or.inr ⟨insert_of_clash hs hc, s, hs, hc⟩
  · have hfree : ∀ s ∈ t.rows, Row.clash s r = false := fun s hs => by
      simpa using fun hc => h ⟨s, hs, hc⟩
    exact Or.inl ⟨rows_insert_of_free hfree, hfree⟩

/-- No row is lost to an insert. -/
theorem mem_insert_of_mem {t : Table ρ} {r s : ρ} (hs : s ∈ t.rows) :
    s ∈ (t.insertOrIgnore r).rows := by
  rcases rows_insert_cases t r with ⟨h, -⟩ | ⟨h, -⟩
  · rw [h]; exact List.mem_append_left _ hs
  · rw [h]; exact hs

/-- A row afterwards was there before, or is the one inserted. -/
theorem mem_insert {t : Table ρ} {r s : ρ} (hs : s ∈ (t.insertOrIgnore r).rows) :
    s ∈ t.rows ∨ s = r := by
  rcases rows_insert_cases t r with ⟨h, -⟩ | ⟨h, -⟩
  · rw [h, List.mem_append, List.mem_singleton] at hs
    exact hs
  · rw [h] at hs
    exact Or.inl hs

/-- **An insert seen through a map of the rows** that keeps the constraints is an insert. -/
theorem rows_insert_map {σ : Type} [Row σ] {f : ρ → σ}
    (hf : ∀ r s, Row.clash (f r) (f s) = Row.clash r s) {t : Table ρ} {u : Table σ}
    (h : u.rows = t.rows.map f) (r : ρ) :
    (u.insertOrIgnore (f r)).rows = (t.insertOrIgnore r).rows.map f := by
  rcases rows_insert_cases t r with ⟨hrows, hfree⟩ | ⟨hsame, s, hs, hclash⟩
  · rw [hrows, rows_insert_of_free, h, List.map_append, List.map_singleton]
    rw [h, List.forall_mem_map]
    exact fun s hs => (hf s r).trans (hfree s hs)
  · rw [hsame, insert_of_clash (h ▸ List.mem_map_of_mem hs) ((hf s r).trans hclash), h]

/-- Insert a row for every element of a list, made from the table so far, the element's index
(counted from `i`) and the element. -/
def insertEach {α : Type} (row : Table ρ → ℕ → α → ρ) : ℕ → List α → Table ρ → Table ρ
  | _, [], t => t
  | i, a :: l, t => insertEach row (i + 1) l (t.insertOrIgnore (row t i a))

/-- **A list inserted under a key whose indices are free stands at the end of the table, in order.**
`idx` is the index of a row under that key, `none` for the rows of other keys. -/
theorem rows_insertEach {α : Type} {row : Table ρ → ℕ → α → ρ} {idx : ρ → Option ℕ}
    (hidx : ∀ t i a, idx (row t i a) = some i)
    (hclash : ∀ t i a, ∀ s ∈ t.rows, Row.clash s (row t i a) = true → idx s = some i) :
    ∀ (l : List α) (i : ℕ) (t : Table ρ), (∀ s ∈ t.rows, ∀ j, idx s = some j → j < i) →
      ∃ new, (insertEach row i l t).rows = t.rows ++ new
        ∧ List.Forall₂ (fun r x => ∃ u, r = row u x.2 x.1) new (l.zipIdx i)
  | [], _, t, _ => ⟨[], (List.append_nil _).symm, .nil⟩
  | a :: l, i, t, hlt => by
      have hfree : ∀ s ∈ t.rows, Row.clash s (row t i a) = false := fun s hs => by
        by_contra hc
        exact absurd (hlt s hs i (hclash t i a s hs (by simpa using hc))) (lt_irrefl i)
      have hrows := rows_insert_of_free hfree
      obtain ⟨new, hnew, hall⟩ := rows_insertEach hidx hclash l (i + 1)
        (t.insertOrIgnore (row t i a)) fun s hs j hj => by
          rcases List.mem_append.mp (hrows ▸ hs) with hs | hs
          · exact Nat.lt_succ_of_lt (hlt s hs j hj)
          · rw [List.mem_singleton.mp hs, hidx] at hj
            exact Nat.lt_succ_of_le (Option.some.inj hj).ge
      refine ⟨row t i a :: new, ?_, .cons ⟨t, rfl⟩ hall⟩
      rw [insertEach, hnew, hrows, List.append_assoc, List.singleton_append]

theorem mem_insertEach {α : Type} {row : Table ρ → ℕ → α → ρ} {s : ρ} :
    ∀ {l : List α} {i : ℕ} {t : Table ρ}, s ∈ (insertEach row i l t).rows →
      s ∈ t.rows ∨ ∃ u j, ∃ a ∈ l, s = row u j a
  | [], _, _, hs => Or.inl hs
  | a :: l, i, t, hs => by
      rcases @mem_insertEach _ _ _ l (i + 1) (t.insertOrIgnore (row t i a)) hs with hs | hs
      · exact (mem_insert hs).imp_right fun h => ⟨_, _, a, List.mem_cons_self, h⟩
      · obtain ⟨u, j, b, hb, rfl⟩ := hs
        exact Or.inr ⟨u, j, b, List.mem_cons_of_mem _ hb, rfl⟩

/-- An insert of a list appends rows of its own. -/
theorem exists_append_insertEach {α : Type} (row : Table ρ → ℕ → α → ρ) :
    ∀ (l : List α) (i : ℕ) (t : Table ρ), ∃ new, (insertEach row i l t).rows = t.rows ++ new
      ∧ ∀ r ∈ new, ∃ u j a, r = row u j a
  | [], _, t => ⟨[], (List.append_nil _).symm, nofun⟩
  | a :: l, i, t => by
      obtain ⟨new, hnew, hall⟩ :=
        exists_append_insertEach row l (i + 1) (t.insertOrIgnore (row t i a))
      rcases rows_insert_cases t (row t i a) with ⟨hrows, -⟩ | ⟨hsame, -⟩
      · refine ⟨row t i a :: new, ?_, List.forall_mem_cons.mpr ⟨⟨_, _, _, rfl⟩, hall⟩⟩
        rw [insertEach, hnew, hrows, List.append_assoc, List.singleton_append]
      · exact ⟨new, by rw [insertEach, hnew, hsame], hall⟩

/-- A plain `INSERT`: it fails, with `e`, if the row clashes. -/
def insert {ε : Type} (e : ε) (t : Table ρ) (r : ρ) : Except ε (Table ρ) :=
  if t.rows.any (Row.clash · r) then .error e else .ok (t.insertOrIgnore r)

/-- A plain `INSERT` for every element of a list: the first that fails ends it. -/
def insertAll {ε α : Type} (e : ε) (row : Table ρ → ℕ → α → ρ) :
    ℕ → List α → Table ρ → Except ε (Table ρ)
  | _, [], t => .ok t
  | i, a :: l, t => (t.insert e (row t i a)).bind (insertAll e row (i + 1) l)

section PlainInserts

variable {ε α : Type} {e : ε} {t u : Table ρ} {r : ρ} {i : ℕ} {l : List α}

/-- **A plain `INSERT` that succeeds has appended its row.** -/
theorem insert_ok : t.insert e r = .ok u
    ↔ (∀ s ∈ t.rows, Row.clash s r = false) ∧ u = t.insertOrIgnore r := by
  have hany : t.rows.any (Row.clash · r) = false ↔ ∀ s ∈ t.rows, Row.clash s r = false := by
    simp [List.any_eq_false]
  rw [insert, ← hany]
  rcases t.rows.any (Row.clash · r) with _ | _
  · exact ⟨fun h => ⟨rfl, (Except.ok.inj h).symm⟩, fun h => congrArg Except.ok h.2.symm⟩
  · exact iff_of_false nofun fun h => nomatch h.1

/-- A row that is inserted is the last. -/
theorem rows_of_insert (h : t.insert e r = .ok u) : u.rows = t.rows ++ [r] := by
  obtain ⟨hfree, rfl⟩ := insert_ok.mp h
  exact rows_insert_of_free hfree

theorem insertAll_cons {row : Table ρ → ℕ → α → ρ} {a : α} :
    insertAll e row i (a :: l) t = .ok u
      ↔ ∃ t', t.insert e (row t i a) = .ok t' ∧ insertAll e row (i + 1) l t' = .ok u := by
  rw [insertAll]
  rcases t.insert e (row t i a) with e' | t'
  · exact iff_of_false nofun fun ⟨_, h, _⟩ => nomatch h
  · exact ⟨fun h => ⟨t', rfl, h⟩, fun ⟨_, ht, h⟩ => Except.ok.inj ht ▸ h⟩

/-- **The rows of a list that is inserted** stand at the end of the table, in order. -/
theorem rows_of_insertAll {row : ℕ → α → ρ} : ∀ {l : List α} {i : ℕ} {t : Table ρ},
    insertAll e (fun _ => row) i l t = .ok u →
      u.rows = t.rows ++ (l.zipIdx i).map fun x => row x.2 x.1
  | [], _, t, h => by
      rw [← Except.ok.inj h]
      exact (List.append_nil _).symm
  | a :: l, i, t, h => by
      obtain ⟨t', ht, h⟩ := insertAll_cons.mp h
      rw [rows_of_insertAll h, rows_of_insert ht, List.append_assoc]
      rfl

/-- **A list whose key is free is inserted.**  The rows of `own` `k` clash by their index alone. -/
theorem insertAll_of_free (own idx : ρ → ℕ) {k : ℕ} {row : Table ρ → ℕ → α → ρ}
    (hrow : ∀ t i a, own (row t i a) = k ∧ idx (row t i a) = i)
    (hclash : ∀ t i a, ∀ s ∈ t.rows, Row.clash s (row t i a) = true → own s = k ∧ idx s = i) :
    ∀ {l : List α} {i : ℕ} {t : Table ρ}, (∀ s ∈ t.rows, own s = k → idx s < i) →
      ∃ u, insertAll e row i l t = .ok u
  | [], _, t, _ => ⟨t, rfl⟩
  | a :: l, i, t, hlt => by
      have hfree : ∀ s ∈ t.rows, Row.clash s (row t i a) = false := fun s hs => by
        by_contra hc
        obtain ⟨hk, hi⟩ := hclash t i a s hs (by simpa using hc)
        exact absurd (hlt s hs hk) (hi ▸ lt_irrefl _)
      obtain ⟨u, hu⟩ := @insertAll_of_free own idx k row hrow hclash l (i + 1)
        (t.insertOrIgnore (row t i a)) fun s hs hk => by
          rcases List.mem_append.mp (rows_insert_of_free hfree ▸ hs) with hs | hs
          · exact Nat.lt_succ_of_lt (hlt s hs hk)
          · rw [List.mem_singleton.mp hs, (hrow t i a).2]
            exact Nat.lt_succ_self i
      exact ⟨u, insertAll_cons.mpr ⟨_, insert_ok.mpr ⟨hfree, rfl⟩, hu⟩⟩

end PlainInserts

/-! ## Deleting and updating -/

/-- `DELETE … WHERE p`. -/
def delete (t : Table ρ) (p : ρ → Bool) : Table ρ :=
  ⟨t.rows.filter fun r => !p r, t.unique.filter _⟩

@[simp] theorem rows_delete (t : Table ρ) (p : ρ → Bool) :
    (t.delete p).rows = t.rows.filter fun r => !p r := rfl

/-- The row an `UPDATE` leaves for `r`. -/
def updated (p : ρ → Bool) (f : ρ → ρ) (r : ρ) : ρ := if p r then f r else r

/-- `UPDATE … SET f WHERE p`, for an `f` that touches no constrained column. -/
def modify (t : Table ρ) (p : ρ → Bool) (f : ρ → ρ)
    (hf : ∀ r s, Row.clash (f r) s = Row.clash r s) : Table ρ :=
  ⟨t.rows.map (updated p f), by
    have hg : ∀ r s, Row.clash (updated p f r) s = Row.clash r s := fun r s => by
      unfold updated
      split_ifs
      · exact hf r s
      · rfl
    refine List.pairwise_map.mpr (t.unique.imp fun {r s} h => ?_)
    rw [hg, Row.clash_symm, hg, Row.clash_symm, h]⟩

@[simp] theorem rows_modify (t : Table ρ) (p : ρ → Bool) (f : ρ → ρ)
    (hf : ∀ r s, Row.clash (f r) s = Row.clash r s) :
    (t.modify p f hf).rows = t.rows.map (updated p f) := rfl

/-- **What an update does row by row.** -/
theorem forall₂_modify (t : Table ρ) (p : ρ → Bool) (f : ρ → ρ)
    (hf : ∀ r s, Row.clash (f r) s = Row.clash r s) :
    List.Forall₂ (fun r s => s = r ∨ p r ∧ s = f r) t.rows (t.modify p f hf).rows := by
  rw [rows_modify, List.forall₂_map_right_iff]
  refine List.forall₂_same.mpr fun r _ => ?_
  rw [updated]
  split_ifs with hp
  · exact Or.inr ⟨hp, rfl⟩
  · exact Or.inl rfl

/-- An update that finds no row changes nothing. -/
theorem modify_eq_self {t : Table ρ} {p : ρ → Bool} {f : ρ → ρ}
    {hf : ∀ r s, Row.clash (f r) s = Row.clash r s} (h : ∀ r ∈ t.rows, ¬ p r) :
    t.modify p f hf = t := by
  refine Table.ext ?_
  rw [rows_modify]
  exact (List.map_congr_left fun r hr => if_neg (h r hr)).trans (List.map_id _)

omit [Row ρ] in
/-- An update that leaves the rows as they were has found nothing it changes. -/
theorem forall_not_of_updated_eq {l : List ρ} {p : ρ → Bool} {f : ρ → ρ}
    (h : l.map (updated p f) = l) (hchanges : ∀ r, p r → f r ≠ r) : ∀ r ∈ l, ¬ p r := by
  intro r hr hp
  have hself : updated p f r = r := List.map_inj_left.mp (h.trans (List.map_id _).symm) r hr
  rw [updated, if_pos hp] at hself
  exact hchanges r hp hself

omit [Row ρ] in
/-- A change of rows is not seen where the rows it changes are not, before or after. -/
theorem filter_map_of_unseen {l : List ρ} {q : ρ → Bool} {g : ρ → ρ}
    (h : ∀ r ∈ l, g r = r ∨ (q r = false ∧ q (g r) = false)) : (l.map g).filter q = l.filter q := by
  induction l with
  | nil => rfl
  | cons r l ih =>
    obtain ⟨hr, hl⟩ := List.forall_mem_cons.mp h
    rw [List.map_cons, List.filter_cons, List.filter_cons, ih hl]
    rcases hr with hself | ⟨hq, hq'⟩
    · rw [hself]
    · rw [hq, hq']
      rfl

omit [Row ρ] in
/-- An update is not seen where its rows are not, before or after. -/
theorem filter_map_updated {l : List ρ} {p q : ρ → Bool} {f : ρ → ρ}
    (h : ∀ r ∈ l, p r = true → q r = false ∧ q (f r) = false) :
    (l.map (updated p f)).filter q = l.filter q := by
  refine filter_map_of_unseen fun r hr => ?_
  rw [updated]
  by_cases hp : p r = true
  · rw [if_pos hp]
    exact Or.inr (h r hr hp)
  · exact Or.inl (if_neg hp)

/-- `INSERT … ON CONFLICT DO UPDATE` and `INSERT OR REPLACE`: the row takes the place of those it
clashes with. -/
def upsert (t : Table ρ) (r : ρ) : Table ρ := (t.delete (Row.clash · r)).insertOrIgnore r

theorem rows_upsert (t : Table ρ) (r : ρ) :
    (t.upsert r).rows = t.rows.filter (fun s => !Row.clash s r) ++ [r] :=
  rows_insert_of_free fun s hs => by simpa using (List.mem_filter.mp hs).2

/-- Rows that clash with nothing are appended. -/
theorem rows_upsertAll_of_free : ∀ {l : List ρ} {t : Table ρ},
    (∀ r ∈ l, ∀ s ∈ t.rows, Row.clash s r = false) →
      (l.Pairwise fun r s => Row.clash r s = false) → (l.foldl upsert t).rows = t.rows ++ l
  | [], _, _, _ => (List.append_nil _).symm
  | r :: l, t, hfree, hl => by
      obtain ⟨hr, hl⟩ := List.pairwise_cons.mp hl
      obtain ⟨hfirst, hrest⟩ := List.forall_mem_cons.mp hfree
      have hrows : (t.upsert r).rows = t.rows ++ [r] := by
        rw [rows_upsert, List.filter_eq_self.mpr fun s hs => by rw [hfirst s hs]; rfl]
      rw [List.foldl_cons, rows_upsertAll_of_free ?_ hl, hrows, List.append_assoc,
        List.singleton_append]
      intro r' hr' s hs
      rcases List.mem_append.mp (hrows ▸ hs) with hs | hs
      · exact hrest r' hr' s hs
      · exact List.mem_singleton.mp hs ▸ hr r' hr'

/-! ## Fresh keys -/

/-- The key an `INTEGER PRIMARY KEY` gets: one above the largest in use. -/
def nextId (t : Table ρ) (key : ρ → ℕ) : ℕ := (t.rows.map key).foldr max 0 + 1

theorem le_foldr_max {l : List ℕ} {n : ℕ} (hn : n ∈ l) : n ≤ l.foldr max 0 := by
  induction l with
  | nil => exact absurd hn List.not_mem_nil
  | cons m l ih =>
    rw [List.foldr_cons]
    rcases List.mem_cons.mp hn with rfl | hn
    · exact le_max_left _ _
    · exact le_max_of_le_right (ih hn)

/-- **A new id is above all that are there.** -/
theorem lt_nextId {t : Table ρ} {key : ρ → ℕ} {r : ρ} (hr : r ∈ t.rows) :
    key r < t.nextId key :=
  Nat.lt_succ_of_le (le_foldr_max (List.mem_map_of_mem hr))

/-- **Rows appended under the keys in turn** move the next key on by their number. -/
theorem nextId_append {t u : Table ρ} {key : ρ → ℕ} {new : List ρ} (h : u.rows = t.rows ++ new)
    (hkeys : new.map key = List.range' (t.nextId key) new.length) :
    u.nextId key = t.nextId key + new.length := by
  have hmax : ∀ n k m : ℕ, max m ((List.range' (k + 1) n).foldr max 0)
      = if n = 0 then m else max m (k + n) := by
    intro n
    induction n with
    | zero => exact fun k m => Nat.max_zero m
    | succ n ih =>
      intro k m
      rw [List.range'_succ, List.foldr_cons, ih, if_neg n.succ_ne_zero]
      split_ifs <;> omega
  have happend : ∀ l : List ℕ, (l ++ new.map key).foldr max 0
      = max (l.foldr max 0) ((new.map key).foldr max 0) := by
    intro l
    induction l with
    | nil => exact (Nat.zero_max _).symm
    | cons m l ih => rw [List.cons_append, List.foldr_cons, ih, List.foldr_cons, max_assoc]
  rw [nextId, h, List.map_append, happend, hkeys, nextId, hmax]
  split_ifs <;> omega

/-- The rows of a list that is inserted under keys of their own. -/
theorem rows_of_insertAll_numbered {ε α : Type} {e : ε} {key : ρ → ℕ} {row : ℕ → ℕ → α → ρ}
    (hkey : ∀ n i a, key (row n i a) = n) {u : Table ρ} : ∀ {l : List α} {i : ℕ} {t : Table ρ},
    insertAll e (fun t => row (t.nextId key)) i l t = .ok u →
      u.rows = t.rows ++ ((l.zipIdx i).zipIdx (t.nextId key)).map fun x => row x.2 x.1.2 x.1.1
  | [], _, t, h => by
      rw [← Except.ok.inj h]
      exact (List.append_nil _).symm
  | a :: l, i, t, h => by
      obtain ⟨t', ht, h⟩ := insertAll_cons.mp h
      have hnext : t'.nextId key = t.nextId key + 1 :=
        nextId_append (rows_of_insert ht) (by simp [hkey])
      rw [rows_of_insertAll_numbered hkey h, rows_of_insert ht, hnext, List.append_assoc]
      rfl

end Table

/-! ## The last entry of a log -/

/-- **The entry appended under a larger key is the last one.** -/
theorem argmax_append_of_lt {α : Type} {f : α → ℕ} {l : List α} {a : α}
    (h : ∀ b ∈ l, f b < f a) : List.argmax f (l ++ [a]) = some a := by
  rw [List.argmax_concat]
  cases hl : List.argmax f l with
  | none => rfl
  | some m => exact if_pos (h m (List.argmax_mem hl))

/-- The last entry seen through a map. -/
theorem argmax_map {α β : Type} (f : β → ℕ) (g : α → β) (l : List α) :
    List.argmax f (l.map g) = (List.argmax (f ∘ g) l).map g := by
  induction l using List.reverseRecOn with
  | nil => rfl
  | append_singleton l a ih =>
    rw [List.map_append, List.map_singleton, List.argmax_concat, List.argmax_concat, ih]
    rcases List.argmax (f ∘ g) l with _ | m
    · rfl
    · simp only [Option.map_some, Function.comp]
      split_ifs <;> rfl

/-- The one entry under the largest key is the last one. -/
theorem argmax_eq_of_forall {α : Type} [DecidableEq α] {f : α → ℕ} {l : List α} {a : α}
    (ha : a ∈ l) (h : ∀ b ∈ l, f b < f a ∨ b = a) : List.argmax f l = some a := by
  refine List.argmax_eq_some_iff.mpr ⟨ha, fun b hb => ?_, fun b hb hle => ?_⟩
  · rcases h b hb with hlt | rfl
    · exact hlt.le
    · exact le_rfl
  · rcases h b hb with hlt | rfl
    · omega
    · exact le_rfl
