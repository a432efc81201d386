import Mathlib.Algebra.BigOperators.Group.List.Basic
import Mathlib.Data.Int.ModEq
import Mathlib.Order.Defs.LinearOrder

/-!
# Foundations/Tally — amounts kept by key

An ordered map from keys to 64-bit amounts that amounts are added to: its entries in key order, with
the proof that they are.  Additions wrap, so what a tally adds up to (`Tally.total`) is known modulo
`2 ^ 64` (`Tally.total_addAll`).
-/

/-- The amounts by key, in the order of the keys. -/
structure Tally (κ : Type) [LinearOrder κ] where
  entries : List (κ × ℤ)
  sorted : entries.Pairwise fun x y => x.1 < y.1

namespace Tally

variable {κ : Type} [LinearOrder κ]

/-- A number as 64 bits hold it. -/
def wrap (n : ℤ) : ℤ := n.bmod (2 ^ 64)

/-- Wrapping changes a sum by multiples of `2 ^ 64`. -/
theorem wrap_modEq (n : ℤ) : wrap n ≡ n [ZMOD 2 ^ 64] := Int.bmod_emod

/-- Nothing counted. -/
def empty : Tally κ := ⟨[], List.Pairwise.nil⟩

/-- `*entry(k).or_default() += n`, on the entries. -/
def addEntry (k : κ) (n : ℤ) : List (κ × ℤ) → List (κ × ℤ)
  | [] => [(k, wrap n)]
  | x :: l =>
    if k < x.1 then (k, wrap n) :: x :: l
    else if k = x.1 then (k, wrap (x.2 + n)) :: l
    else x :: addEntry k n l

/-- No other keys come in. -/
theorem key_of_addEntry {k : κ} {n : ℤ} : ∀ {l : List (κ × ℤ)}, ∀ y ∈ addEntry k n l,
    y.1 = k ∨ ∃ x ∈ l, x.1 = y.1
  | [], y, hy => by
      rw [List.mem_singleton.mp hy]
      exact Or.inl rfl
  | x :: l, y, hy => by
      rw [addEntry] at hy
      split_ifs at hy with hlt heq
      · rcases List.mem_cons.mp hy with rfl | hy
        · exact Or.inl rfl
        · exact Or.inr ⟨y, hy, rfl⟩
      · rcases List.mem_cons.mp hy with rfl | hy
        · exact Or.inl rfl
        · exact Or.inr ⟨y, List.mem_cons_of_mem _ hy, rfl⟩
      · rcases List.mem_cons.mp hy with rfl | hy
        · exact Or.inr ⟨y, List.mem_cons_self, rfl⟩
        · exact (key_of_addEntry y hy).imp_right fun ⟨z, hz, hk⟩ =>
            ⟨z, List.mem_cons_of_mem _ hz, hk⟩

/-- The keys stay in order. -/
theorem sorted_addEntry {k : κ} {n : ℤ} : ∀ {l : List (κ × ℤ)},
    l.Pairwise (fun x y => x.1 < y.1) → (addEntry k n l).Pairwise fun x y => x.1 < y.1
  | [], _ => List.pairwise_singleton _ _
  | x :: l, h => by
      obtain ⟨hx, hl⟩ := List.pairwise_cons.mp h
      rw [addEntry]
      split_ifs with hlt heq
      · refine List.pairwise_cons.mpr ⟨fun y hy => ?_, h⟩
        rcases List.mem_cons.mp hy with rfl | hy
        · exact hlt
        · exact hlt.trans (hx y hy)
      · exact List.pairwise_cons.mpr ⟨fun y hy => heq ▸ hx y hy, hl⟩
      · refine List.pairwise_cons.mpr ⟨fun y hy => ?_, sorted_addEntry hl⟩
        rcases key_of_addEntry y hy with hk | ⟨z, hz, hk⟩
        · exact hk ▸ lt_of_le_of_ne (not_lt.mp hlt) (Ne.symm heq)
        · exact hk ▸ hx z hz

/-- `*entry(k).or_default() += n`. -/
def add (t : Tally κ) (k : κ) (n : ℤ) : Tally κ :=
  ⟨addEntry k n t.entries, sorted_addEntry t.sorted⟩

/-- What the entries add up to. -/
def total (t : Tally κ) : ℤ := (t.entries.map Prod.snd).sum

/-- **The total grows by what is added**, modulo `2 ^ 64`. -/
theorem total_addEntry (k : κ) (n : ℤ) : ∀ l : List (κ × ℤ),
    ((addEntry k n l).map Prod.snd).sum ≡ (l.map Prod.snd).sum + n [ZMOD 2 ^ 64]
  | [] => by
      rw [addEntry, List.map_singleton, List.sum_singleton, List.map_nil, List.sum_nil, zero_add]
      exact wrap_modEq n
  | x :: l => by
      rw [addEntry]
      split_ifs
      · rw [List.map_cons, List.sum_cons, add_comm _ n]
        exact (wrap_modEq n).add_right _
      · rw [List.map_cons, List.map_cons, List.sum_cons, List.sum_cons, add_right_comm]
        exact (wrap_modEq _).add_right _
      · rw [List.map_cons, List.map_cons, List.sum_cons, List.sum_cons, add_assoc]
        exact (total_addEntry k n l).add_left _

/-- The entries of a list, added one by one with a sign. -/
def addAll (sign : ℤ) (t : Tally κ) (l : List (κ × ℤ)) : Tally κ :=
  l.foldl (fun t x => t.add x.1 (sign * x.2)) t

/-- **What is added to a tally is added to its total.** -/
theorem total_addAll (sign : ℤ) : ∀ (l : List (κ × ℤ)) (t : Tally κ),
    (t.addAll sign l).total ≡ t.total + sign * (l.map Prod.snd).sum [ZMOD 2 ^ 64]
  | [], t => by
      rw [List.map_nil, List.sum_nil, mul_zero, add_zero]
      rfl
  | x :: l, t => by
      rw [List.map_cons, List.sum_cons, mul_add, ← add_assoc]
      have hstep : (t.add x.1 (sign * x.2)).total ≡ t.total + sign * x.2 [ZMOD 2 ^ 64] :=
        total_addEntry x.1 (sign * x.2) t.entries
      exact (total_addAll sign l (t.add x.1 (sign * x.2))).trans (hstep.add_right _)

theorem key_of_addAll {sign : ℤ} : ∀ {l : List (κ × ℤ)} {t : Tally κ},
    ∀ y ∈ (t.addAll sign l).entries, (∃ x ∈ t.entries, x.1 = y.1) ∨ ∃ x ∈ l, x.1 = y.1
  | [], _, y, hy => Or.inl ⟨y, hy, rfl⟩
  | x :: l, t, y, hy => by
      rcases @key_of_addAll sign l (t.add x.1 (sign * x.2)) y hy with ⟨z, hz, hk⟩ | ⟨z, hz, hk⟩
      · rcases key_of_addEntry z hz with hx | ⟨w, hw, hkw⟩
        · exact Or.inr ⟨x, List.mem_cons_self, hx.symm.trans hk⟩
        · exact Or.inl ⟨w, hw, hkw.trans hk⟩
      · exact Or.inr ⟨z, List.mem_cons_of_mem _ hz, hk⟩

/-- The entries other than zero, in key order. -/
def nonzero (t : Tally κ) : List (κ × ℤ) := t.entries.filter fun x => x.2 ≠ 0

/-- Without the zeros the keys are in order still. -/
theorem nonzero_sorted (t : Tally κ) : (t.nonzero.map Prod.fst).Pairwise (· < ·) :=
  List.pairwise_map.mpr (t.sorted.filter _)

/-- Nothing is lost with the zeros. -/
theorem sum_nonzero (t : Tally κ) : (t.nonzero.map Prod.snd).sum = t.total := by
  obtain ⟨l, hl⟩ := t
  dsimp only [nonzero, total]
  clear hl
  induction l with
  | nil => rfl
  | cons x l ih =>
    rw [List.filter_cons]
    split_ifs with hx
    · rw [List.map_cons, List.sum_cons, ih, List.map_cons, List.sum_cons]
    · rw [ih, List.map_cons, List.sum_cons, show x.2 = 0 by simpa using hx, zero_add]

end Tally
