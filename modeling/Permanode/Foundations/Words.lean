import Mathlib.Algebra.BigOperators.Group.List.Basic
import Mathlib.Data.Nat.Digits.Defs
import Mathlib.Data.UInt
import Mathlib.Tactic.Positivity
import Mathlib.Tactic.Zify

/-!
# Foundations/Words — machine words

A sum of 64-bit (32-bit) words wraps, so it is the exact sum modulo `2⁶⁴` (`2³²`), and equals it iff
that fits.

A word kept by its bits in a signed column is the number itself, and is divided as the number, as
long as it is below `2⁶³`.  A word written as bytes, the lowest first, is read back.
-/

/-- A wrapped number is the number itself iff it fits. -/
theorem mod_eq_iff_lt {n m : ℕ} (hm : 0 < m) : n % m = n ↔ n < m :=
  ⟨fun h => h ▸ Nat.mod_lt n hm, Nat.mod_eq_of_lt⟩

namespace UInt64

theorem toNat_sum (l : List UInt64) : l.sum.toNat = (l.map UInt64.toNat).sum % 2 ^ 64 := by
  induction l with
  | nil => rfl
  | cons a l ih => rw [List.sum_cons, List.map_cons, List.sum_cons, UInt64.toNat_add, ih,
      Nat.add_mod_mod]

/-- **A sum is exact iff it fits.** -/
theorem toNat_sum_eq_iff {l : List UInt64} :
    l.sum.toNat = (l.map UInt64.toNat).sum ↔ (l.map UInt64.toNat).sum < 2 ^ 64 := by
  rw [toNat_sum, mod_eq_iff_lt (by decide)]

end UInt64

namespace UInt32

theorem toNat_sum (l : List UInt32) : l.sum.toNat = (l.map UInt32.toNat).sum % 2 ^ 32 := by
  induction l with
  | nil => rfl
  | cons a l ih => rw [List.sum_cons, List.map_cons, List.sum_cons, UInt32.toNat_add, ih,
      Nat.add_mod_mod]

/-- **A sum is exact iff it fits.** -/
theorem toNat_sum_eq_iff {l : List UInt32} :
    l.sum.toNat = (l.map UInt32.toNat).sum ↔ (l.map UInt32.toNat).sum < 2 ^ 32 := by
  rw [toNat_sum, mod_eq_iff_lt (by decide)]

end UInt32

/-! ## Words in signed columns -/

theorem UInt64.toInt_toInt64_of_lt {x : UInt64} (h : x.toNat < 2 ^ 63) :
    x.toInt64.toInt = x.toNat := by
  have hbits : x.toInt64.toInt = x.toBitVec.toInt := rfl
  rw [hbits, BitVec.toInt_eq_toNat_of_lt]
  · rfl
  · have hnat : x.toBitVec.toNat = x.toNat := rfl
    omega

theorem Int64.toNat_toUInt64_of_nonneg {y : Int64} (h : 0 ≤ y.toInt) :
    (y.toUInt64.toNat : ℤ) = y.toInt := by
  have hle : (0 : Int64) ≤ y := Int64.le_iff_toInt_le.mpr h
  rw [Int64.toNat_toUInt64_of_le hle]
  exact Int.toNat_of_nonneg h

/-- **A signed division of unsigned numbers.** -/
theorem Int64.toUInt64_div {y : Int64} (hy : 0 ≤ y.toInt) {size : UInt64}
    (h : size.toNat < 2 ^ 63) : (y / size.toInt64).toUInt64 = y.toUInt64 / size := by
  have hs := UInt64.toInt_toInt64_of_lt h
  have hdiv : (y / size.toInt64).toInt = y.toInt.tdiv size.toNat := by
    rw [← hs]
    refine Int64.toInt_div_of_ne_right _ _ fun hneg => ?_
    have hminus : (-1 : Int64).toInt = -1 := by decide
    rw [hneg] at hs
    omega
  rw [Int.tdiv_eq_ediv_of_nonneg hy] at hdiv
  have hquot : 0 ≤ (y / size.toInt64).toInt := by
    rw [hdiv]
    positivity
  refine UInt64.toNat_inj.mp ?_
  rw [UInt64.toNat_div]
  zify
  rw [Int64.toNat_toUInt64_of_nonneg hquot, hdiv, Int64.toNat_toUInt64_of_nonneg hy]

/-! ## Words as bytes -/

namespace UInt64

/-- `u64::to_le_bytes`. -/
def toLeBytes (x : UInt64) : List UInt8 :=
  (List.range 8).map fun i => UInt8.ofNat (x.toNat / 256 ^ i)

/-- `u64::from_le_bytes`. -/
def ofLeBytes (bytes : List UInt8) : UInt64 :=
  UInt64.ofNat (Nat.ofDigits 256 (bytes.map UInt8.toNat))

@[simp] theorem length_toLeBytes (x : UInt64) : x.toLeBytes.length = 8 := rfl

@[simp] theorem ofLeBytes_toLeBytes (x : UInt64) : ofLeBytes x.toLeBytes = x := by
  have hlt := x.toNat_lt
  have hrange : List.range 8 = [0, 1, 2, 3, 4, 5, 6, 7] := rfl
  have hsum : Nat.ofDigits 256 (x.toLeBytes.map UInt8.toNat) = x.toNat := by
    simp only [toLeBytes, hrange, List.map_cons, List.map_nil, Nat.ofDigits_cons, Nat.ofDigits_nil,
      UInt8.toNat_ofNat']
    norm_num
    omega
  rw [ofLeBytes, hsum, UInt64.ofNat_toNat]

end UInt64
