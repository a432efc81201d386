import Mathlib.Algebra.BigOperators.Intervals
import Mathlib.Order.Interval.Finset.Nat

/-!
# Foundations/Counting — multiples in an interval

How many numbers of an interval are a whole number of steps away from a base: the difference of two
quotients; and how many entries of a list pass a test that its first entries pass.
-/

open Finset

/-- **The multiples of `d`, counted from `c`, in an interval above `c`.** -/
theorem card_filter_dvd_sub {d c a : ℕ} (hc : c ≤ a) {b : ℕ} (h : a ≤ b) :
    #{k ∈ Ioc a b | d ∣ k - c} = (b - c) / d - (a - c) / d := by
  induction b, h using Nat.le_induction with
  | base => rw [Ioc_self, filter_empty, card_empty, Nat.sub_self]
  | succ b hab ih =>
    have hmono : (a - c) / d ≤ (b - c) / d := Nat.div_le_div_right (by omega)
    rw [← insert_Ioc_right_eq_Ioc_add_one (by omega), filter_insert,
      Nat.sub_add_comm (hc.trans hab), Nat.succ_div]
    split_ifs with hd
    · rw [card_insert_of_notMem (by simp), ih]
      omega
    · rw [ih, Nat.add_zero]

/-- A sum over an interval of a value taken at some of its members only. -/
theorem sum_ite_const {s : Finset ℕ} {p : ℕ → Prop} [DecidablePred p] (c : ℕ) :
    (∑ k ∈ s, if p k then c else 0) = #{k ∈ s | p k} * c := by
  rw [← sum_filter, sum_const, Nat.nsmul_eq_mul]

/-- A test that the first `m` entries of a list pass, and no others. -/
theorem countP_eq_of_first {α : Type} {p : α → Bool} {l : List α} {m : ℕ} (hm : m ≤ l.length)
    (h : ∀ (i : ℕ) (hi : i < l.length), p l[i] = true ↔ i < m) : l.countP p = m := by
  have hfirst : (l.take m).countP p = (l.take m).length := by
    refine List.countP_eq_length.mpr fun a ha => ?_
    obtain ⟨i, hi, rfl⟩ := List.mem_iff_getElem.mp ha
    rw [List.length_take] at hi
    rw [List.getElem_take]
    exact (h i (by omega)).mpr (by omega)
  have hrest : (l.drop m).countP p = 0 := by
    refine List.countP_eq_zero.mpr fun a ha => ?_
    obtain ⟨i, hi, rfl⟩ := List.mem_iff_getElem.mp ha
    rw [List.length_drop] at hi
    rw [List.getElem_drop]
    exact (h (m + i) (by omega)).not.mpr (by omega)
  rw [← List.take_append_drop m l, List.countP_append, hfirst, hrest, List.length_take]
  omega
