import Mathlib.Data.List.Range
import Mathlib.Data.Nat.Find
import Mathlib.Order.Lattice.Nat
import Mathlib.Tactic.SplitIfs

/-!
# Foundations/Grid — the first multiples of a step

    grid step n  =  0 · step, 1 · step, …, (n − 1) · step

A grid is extended by one more multiple, and thinned to twice the step by dropping every other one.
A step is doubled until a reach takes at most so many of it (`spacing`).
-/

/-! ## Grids -/

/-- The first `n` multiples of `step`, from zero on. -/
def grid (step n : ℕ) : List ℕ := (List.range n).map (· * step)

@[simp] theorem grid_zero (step : ℕ) : grid step 0 = [] := rfl

/-- One point more. -/
theorem grid_succ (step n : ℕ) : grid step (n + 1) = grid step n ++ [n * step] := by
  rw [grid, List.range_succ, List.map_append]
  rfl

@[simp] theorem length_grid (step n : ℕ) : (grid step n).length = n := by
  rw [grid, List.length_map, List.length_range]

theorem grid_injective {step n m : ℕ} (h : grid step n = grid step m) : n = m := by
  rw [← length_grid step n, h, length_grid]

/-- The last multiple. -/
theorem getLast?_grid (step n : ℕ) : (grid step n).getLast? = if n = 0 then none
    else some ((n - 1) * step) := by
  rcases n with _ | n
  · rfl
  · rw [grid_succ, List.getLast?_append, if_neg (Nat.succ_ne_zero n)]
    rfl

/-- **Every other multiple.** -/
theorem filter_grid {step : ℕ} (hstep : 0 < step) (n : ℕ) :
    (grid step n).filter (fun h => h % (step * 2) = 0) = grid (step * 2) ((n + 1) / 2) := by
  induction n with
  | zero => rfl
  | succ n ih =>
    have hmod : n * step % (step * 2) = n % 2 * step := by
      rw [Nat.mul_comm step 2, Nat.mul_mod_mul_right]
    rw [grid_succ, List.filter_append, ih, List.filter_singleton, hmod]
    rcases Nat.mod_two_eq_zero_or_one n with heven | hodd
    · have hnext : (n + 1 + 1) / 2 = (n + 1) / 2 + 1 := by omega
      have hhalf : (n + 1) / 2 * (step * 2) = n * step := by
        rw [Nat.mul_comm step 2, ← Nat.mul_assoc]
        exact congrArg (· * step) (by omega)
      rw [heven, Nat.zero_mul, hnext, grid_succ, hhalf]
      rfl
    · have hnext : (n + 1 + 1) / 2 = (n + 1) / 2 := by omega
      have hpos : ¬ step = 0 := hstep.ne'
      rw [hodd, Nat.one_mul, hnext]
      simp [hpos]

/-! ## Steps -/

section Spacing

variable {base limit : ℕ}

/-- Doubled often enough, the spacing leaves at most `limit` points. -/
theorem exists_doublings (base limit reach : ℕ) : ∃ k, reach / (base * 2 ^ k) ≤ limit := by
  refine ⟨reach, ?_⟩
  rcases Nat.eq_zero_or_pos base with rfl | hbase
  · rw [Nat.zero_mul, Nat.div_zero]
    exact Nat.zero_le limit
  · have hlt : reach < base * 2 ^ reach :=
      Nat.lt_of_lt_of_le Nat.lt_two_pow_self (Nat.le_mul_of_pos_left _ hbase)
    rw [Nat.div_eq_of_lt hlt]
    exact Nat.zero_le limit

/-- How often the base step is doubled until a reach takes at most `limit` of it. -/
def doublings (base limit reach : ℕ) : ℕ := Nat.find (exists_doublings base limit reach)

/-- **The step for a reach**: the least doubled base step it takes at most `limit` of. -/
def spacing (base limit reach : ℕ) : ℕ := base * 2 ^ doublings base limit reach

theorem div_spacing_le (base limit reach : ℕ) : reach / spacing base limit reach ≤ limit :=
  Nat.find_spec (exists_doublings base limit reach)

theorem pow_le_pow_doubled {i j : ℕ} (h : i ≤ j) : base * 2 ^ i ≤ base * 2 ^ j :=
  Nat.mul_le_mul_left _ (Nat.pow_le_pow_right (by decide) h)

/-- A step is doubled enough from the first time on that it is. -/
theorem doublings_le_iff (hbase : 0 < base) {reach k : ℕ} :
    doublings base limit reach ≤ k ↔ reach / (base * 2 ^ k) ≤ limit := by
  constructor
  · intro h
    have hpos : 0 < base * 2 ^ doublings base limit reach := Nat.mul_pos hbase (Nat.two_pow_pos _)
    exact (Nat.div_le_div_left (pow_le_pow_doubled h) hpos).trans (div_spacing_le base limit reach)
  · exact fun h => Nat.find_min' _ h

/-- A longer reach takes no fewer doublings. -/
theorem doublings_mono (hbase : 0 < base) {reach reach' : ℕ} (h : reach ≤ reach') :
    doublings base limit reach ≤ doublings base limit reach' :=
  (doublings_le_iff hbase).mpr
    ((Nat.div_le_div_right h).trans ((doublings_le_iff hbase).mp le_rfl))

/-- Of two reaches, the longer one decides. -/
theorem doublings_max (hbase : 0 < base) (reach reach' : ℕ) :
    doublings base limit (max reach reach')
      = max (doublings base limit reach) (doublings base limit reach') := by
  rcases le_total reach reach' with h | h
  · rw [max_eq_right h, max_eq_right (doublings_mono hbase h)]
  · rw [max_eq_left h, max_eq_left (doublings_mono hbase h)]

end Spacing
