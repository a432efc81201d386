import Mathlib.Algebra.BigOperators.Group.List.Basic
import Mathlib.Data.Int.ModEq
import Mathlib.Data.List.Dedup
import Mathlib.Data.List.Perm.Basic
import Mathlib.Data.List.Perm.Lattice
import Mathlib.Tactic.Ring
import Permanode.Foundations.Outcome

/-!
# Foundations/Aggregates — sums as SQLite takes them

`SUM` over a 64-bit column fails when it leaves the 64 bits (`Sql.sum`), by group as well
(`Sql.sumBy`); a text column is read as numbers by `CAST` (`Sql.castInteger`) or, in a sum, whole
(`Sql.integer?`).

Two rules for comparing such sums: a list splits by a condition (`sum_filter_add`), and two lists of
different things whose keys pair them off have one sum (`sum_eq_of_paired`).
-/

namespace Sql

open Outcome

/-! ## Sums -/

/-- Whether a number fits a 64-bit column. -/
def Fits (n : ℤ) : Prop := -2 ^ 63 ≤ n ∧ n < 2 ^ 63

instance (n : ℤ) : Decidable (Fits n) := inferInstanceAs (Decidable (_ ∧ _))

/-- One step of `SUM`. -/
def addTo (s n : ℤ) : Except String ℤ :=
  if Fits (s + n) then .ok (s + n) else .error "integer overflow"

/-- `COALESCE(SUM(…), 0)` over the rows, in their order. -/
def sum (l : List ℤ) : Except String ℤ := l.foldlM addTo 0

theorem foldlM_addTo : ∀ {l : List ℤ} {s n : ℤ}, l.foldlM addTo s = .ok n → n = s + l.sum
  | [], s, n, h => by
      rw [List.sum_nil, add_zero, Except.ok.inj h]
  | a :: l, s, n, h => by
      rw [List.foldlM_cons, bind_ok] at h
      obtain ⟨s', hs, h⟩ := h
      unfold addTo at hs
      split_ifs at hs
      obtain rfl := Except.ok.inj hs
      rw [foldlM_addTo h, List.sum_cons, add_assoc]

/-- **A sum that does not fail is the sum.** -/
theorem eq_of_sum {l : List ℤ} {n : ℤ} (h : sum l = .ok n) : n = l.sum := by
  rw [foldlM_addTo h, zero_add]

/-- `SELECT key, SUM(value) … GROUP BY key`. -/
def sumBy {κ : Type} [DecidableEq κ] (rows : List (κ × ℤ)) : Except String (List (κ × ℤ)) :=
  (rows.map Prod.fst).dedup.mapM fun k =>
    (k, ·) <$> sum ((rows.filter fun r => r.1 = k).map Prod.snd)

/-! ## Two rules -/

section Lists

variable {α β κ : Type}

theorem sum_filter_add (p : α → Bool) (f : α → ℤ) (l : List α) :
    ((l.filter p).map f).sum + ((l.filter fun a => !p a).map f).sum = (l.map f).sum := by
  induction l with
  | nil => rfl
  | cons a l ih =>
    by_cases hp : p a = true
    · simp only [List.filter_cons, hp, Bool.not_true, Bool.false_eq_true, if_true, if_false,
        List.map_cons, List.sum_cons, ← ih]
      ring
    · rw [Bool.not_eq_true] at hp
      simp only [List.filter_cons, hp, Bool.not_false, Bool.false_eq_true, if_true, if_false,
        List.map_cons, List.sum_cons, ← ih]
      ring

theorem nodup_of_map_fst {γ : Type} {l : List (κ × γ)} (h : (l.map Prod.fst).Nodup) : l.Nodup :=
  .of_map _ h

/-- **Things paired off by a key have one sum**: each key occurs at most once on either side, and
what has a key on one side has it, with the same amount, on the other. -/
theorem sum_eq_of_paired {k : α → κ} {l : β → κ} {f : α → ℤ} {g : β → ℤ} {xs : List α}
    {ys : List β} (hx : (xs.map k).Nodup) (hy : (ys.map l).Nodup)
    (hxy : ∀ a ∈ xs, ∃ b ∈ ys, l b = k a ∧ g b = f a)
    (hyx : ∀ b ∈ ys, ∃ a ∈ xs, k a = l b ∧ f a = g b) : (xs.map f).sum = (ys.map g).sum := by
  let tag : List (κ × ℤ) := xs.map fun a => (k a, f a)
  let tag' : List (κ × ℤ) := ys.map fun b => (l b, g b)
  have htag : tag.Nodup := nodup_of_map_fst (by rw [List.map_map]; exact hx)
  have htag' : tag'.Nodup := nodup_of_map_fst (by rw [List.map_map]; exact hy)
  have hmem : ∀ x, x ∈ tag ↔ x ∈ tag' := by
    intro x
    constructor
    · intro h
      obtain ⟨a, ha, rfl⟩ := List.mem_map.mp h
      obtain ⟨b, hb, hk, hg⟩ := hxy a ha
      exact List.mem_map.mpr ⟨b, hb, Prod.ext hk hg⟩
    · intro h
      obtain ⟨b, hb, rfl⟩ := List.mem_map.mp h
      obtain ⟨a, ha, hk, hf⟩ := hyx b hb
      exact List.mem_map.mpr ⟨a, ha, Prod.ext hk hf⟩
  have hperm : tag.Perm tag' := (List.perm_ext_iff_of_nodup htag htag').mpr hmem
  calc (xs.map f).sum = (tag.map Prod.snd).sum := by simp only [tag, List.map_map]; rfl
    _ = (tag'.map Prod.snd).sum := (hperm.map Prod.snd).sum_eq
    _ = (ys.map g).sum := by simp only [tag', List.map_map]; rfl

/-- A sum taken group by group, over any keys that cover the rows once each. -/
theorem sum_groups [DecidableEq κ] : ∀ {ks : List κ} {rows : List (κ × ℤ)}, ks.Nodup →
    (∀ r ∈ rows, r.1 ∈ ks) →
      (ks.map fun k => ((rows.filter fun r => r.1 = k).map Prod.snd).sum).sum
        = (rows.map Prod.snd).sum
  | [], rows, _, hcover => by
      obtain rfl : rows = [] := List.eq_nil_iff_forall_not_mem.mpr fun r hr =>
        absurd (hcover r hr) List.not_mem_nil
      rfl
  | k :: ks, rows, hnd, hcover => by
      obtain ⟨hk, hnd⟩ := List.nodup_cons.mp hnd
      let rest := rows.filter fun r => !decide (r.1 = k)
      have hrest : ∀ r ∈ rest, r.1 ∈ ks := by
        intro r hr
        obtain ⟨hmem, hne⟩ := List.mem_filter.mp hr
        exact (List.mem_cons.mp (hcover r hmem)).resolve_left (by simpa using hne)
      have hgroups : ∀ k' ∈ ks,
          rest.filter (fun r => r.1 = k') = rows.filter fun r => r.1 = k' := by
        intro k' hk'
        have hne : k' ≠ k := fun h => hk (h ▸ hk')
        refine (List.filter_filter ..).trans (List.filter_congr fun r _ => ?_)
        by_cases hr : r.1 = k'
        · simp [hr, hne]
        · simp [hr]
      rw [List.map_cons, List.sum_cons, ← sum_filter_add (fun r => r.1 = k) Prod.snd rows,
        ← sum_groups hnd hrest]
      congr 2
      exact List.map_congr_left fun k' hk' => by rw [hgroups k' hk']

end Lists

/-- **The groups' sums add up to the sum of the rows.** -/
theorem sum_of_sumBy {κ : Type} [DecidableEq κ] {rows groups : List (κ × ℤ)}
    (h : sumBy rows = .ok groups) : (groups.map Prod.snd).sum = (rows.map Prod.snd).sum := by
  have hgroups : groups.map Prod.snd = (rows.map Prod.fst).dedup.map fun k =>
      ((rows.filter fun r => r.1 = k).map Prod.snd).sum :=
    map_of_mapM_ok (fun k g hg => by
      obtain ⟨n, hn, rfl⟩ := map_ok.mp hg
      exact eq_of_sum hn) h
  rw [hgroups]
  exact sum_groups (List.nodup_dedup _) fun r hr => List.mem_dedup.mpr (List.mem_map_of_mem hr)

/-- A group's key is the key of a row. -/
theorem key_of_sumBy {κ : Type} [DecidableEq κ] {rows groups : List (κ × ℤ)}
    (h : sumBy rows = .ok groups) : ∀ g ∈ groups, ∃ r ∈ rows, r.1 = g.1 := by
  have hkeys : groups.map Prod.fst = (rows.map Prod.fst).dedup := by
    refine (map_of_mapM_ok (fun k g hg => ?_) h).trans (List.map_id _)
    obtain ⟨n, -, rfl⟩ := map_ok.mp hg
    rfl
  intro g hg
  have hmem : g.1 ∈ (rows.map Prod.fst).dedup := hkeys ▸ List.mem_map_of_mem hg
  exact List.mem_map.mp (List.mem_dedup.mp hmem)

/-! ## Numbers in text columns -/

/-- White space, to SQLite. -/
def isBlank (c : Char) : Bool := c.toNat ∈ [9, 10, 11, 12, 13, 32]

/-- An optional sign, and what follows it. -/
def signed : List Char → ℤ × List Char
  | '-' :: cs => (-1, cs)
  | '+' :: cs => (1, cs)
  | cs => (1, cs)

/-- The integer at the front of a text, with what follows it. -/
def leading (s : String) : ℤ × List Char :=
  let (sign, cs) := signed (s.toList.dropWhile isBlank)
  (sign * Nat.ofDigitChars 10 (cs.takeWhile Char.isDigit) 0, cs.dropWhile Char.isDigit)

/-- `CAST(… AS INTEGER)` of a text: the integer at its front, or the closest one that fits. -/
def castInteger (s : String) : ℤ := max (-2 ^ 63) (min (2 ^ 63 - 1) (leading s).1)

/-- The integer a text is, as arithmetic on a text column takes it; any other text makes the result
a floating-point number. -/
def integer? (s : String) : Option ℤ :=
  let (n, rest) := leading s
  if (signed (s.toList.dropWhile isBlank)).2.head?.any Char.isDigit ∧ rest.all isBlank ∧ Fits n
  then some n
  else none

/-- **A text that is an integer is cast to it.** -/
theorem castInteger_of_integer? {s : String} {n : ℤ} (h : integer? s = some n) :
    castInteger s = n := by
  unfold integer? at h
  dsimp only at h
  split_ifs at h with hc
  obtain rfl := Option.some.inj h
  obtain ⟨-, -, hlow, hhigh⟩ := hc
  rw [castInteger, min_eq_right (by omega), max_eq_right hlow]

/-- What reading a floating-point number as an integer says. -/
def realError : String := "Invalid column type Real"

/-- `SELECT key, SUM(value) … GROUP BY key` on a text column. -/
def sumTextBy {κ : Type} [DecidableEq κ] (rows : List (κ × String)) :
    Except String (List (κ × ℤ)) := do
  let rows ← rows.mapM fun r => (r.1, ·) <$> orError realError (integer? r.2)
  sumBy rows

theorem sumTextBy_ok {κ : Type} [DecidableEq κ] {rows : List (κ × String)} {groups : List (κ × ℤ)}
    (h : sumTextBy rows = .ok groups) :
    sumBy (rows.map fun r => (r.1, castInteger r.2)) = .ok groups := by
  obtain ⟨read, hrows, hgroups⟩ := bind_ok.mp h
  have hread : read.map id = rows.map fun r => (r.1, castInteger r.2) :=
    map_of_mapM_ok (fun r x hx => by
      obtain ⟨n, hn, rfl⟩ := map_ok.mp hx
      rw [castInteger_of_integer? (orError_ok.mp hn), id]) hrows
  rw [← hread, List.map_id]
  exact hgroups

end Sql
