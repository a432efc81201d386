import Mathlib.Data.List.Dedup
import Mathlib.Data.List.Sort
import Permanode.Foundations.Aggregates

/-!
# Foundations/Ranking — groups of rows, and the first of an order

`GROUP BY` splits the rows by a key (`Sql.groups`): each row is in one group, and no group is empty.
What is sorted and cut off (`ranked`) keeps those that come first (`ranked_before`).
-/

namespace Sql

variable {α κ : Type} [LinearOrder κ]

/-- `GROUP BY` a key: the keys in order, each with its rows. -/
def groups (key : α → κ) (rows : List α) : List (κ × List α) :=
  ((rows.map key).dedup.insertionSort (· ≤ ·)).map fun k => (k, rows.filter fun a => key a = k)

variable {key : α → κ} {rows : List α}

theorem map_fst_groups : (groups key rows).map Prod.fst
    = (rows.map key).dedup.insertionSort (· ≤ ·) := by
  rw [groups, List.map_map]
  exact List.map_id _

theorem nodup_groups : ((groups key rows).map Prod.fst).Nodup := by
  rw [map_fst_groups]
  exact (List.perm_insertionSort _ _).nodup_iff.mpr (List.nodup_dedup _)

/-- There is a group for the key of each row, and no other. -/
theorem mem_map_fst_groups {k : κ} :
    k ∈ (groups key rows).map Prod.fst ↔ ∃ a ∈ rows, key a = k := by
  rw [map_fst_groups, List.mem_insertionSort, List.mem_dedup, List.mem_map]

theorem length_groups : (groups key rows).length = (rows.map key).dedup.length := by
  rw [groups, List.length_map, List.length_insertionSort]

/-- A group holds the rows of its key. -/
theorem rows_of_group {g : κ × List α} (hg : g ∈ groups key rows) :
    g.2 = rows.filter fun a => key a = g.1 := by
  obtain ⟨k, -, rfl⟩ := List.mem_map.mp hg
  rfl

theorem group_ne_nil {g : κ × List α} (hg : g ∈ groups key rows) : g.2 ≠ [] := by
  obtain ⟨a, ha, hk⟩ := mem_map_fst_groups.mp (List.mem_map_of_mem hg)
  rw [rows_of_group hg]
  exact List.ne_nil_of_mem (List.mem_filter.mpr ⟨ha, decide_eq_true hk⟩)

/-- **The groups hold the rows, each once.** -/
theorem perm_groups : ((groups key rows).flatMap Prod.snd).Perm rows := by
  have hsplit : ∀ {ks : List κ} {rows : List α}, ks.Nodup → (∀ a ∈ rows, key a ∈ ks) →
      (ks.flatMap fun k => rows.filter fun a => key a = k).Perm rows := by
    intro ks
    induction ks with
    | nil =>
      intro rows _ hcover
      obtain rfl : rows = [] := List.eq_nil_iff_forall_not_mem.mpr fun a ha =>
        absurd (hcover a ha) List.not_mem_nil
      rfl
    | cons k ks ih =>
      intro rows hnd hcover
      obtain ⟨hk, hnd⟩ := List.nodup_cons.mp hnd
      let rest := rows.filter fun a => !decide (key a = k)
      have hrest : ∀ a ∈ rest, key a ∈ ks := by
        intro a ha
        obtain ⟨hmem, hne⟩ := List.mem_filter.mp ha
        exact (List.mem_cons.mp (hcover a hmem)).resolve_left (by simpa using hne)
      have hgroups : ks.flatMap (fun k' => rows.filter fun a => key a = k')
          = ks.flatMap fun k' => rest.filter fun a => key a = k' := by
        refine List.flatMap_congr fun k' hk' => ?_
        have hne : k' ≠ k := fun h => hk (h ▸ hk')
        refine Eq.symm ((List.filter_filter ..).trans (List.filter_congr fun a _ => ?_))
        by_cases ha : key a = k'
        · simp [ha, hne]
        · simp [ha]
      rw [List.flatMap_cons, hgroups]
      exact ((ih hnd hrest).append_left _).trans (List.filter_append_perm _ rows)
  rw [groups, List.flatMap_map]
  refine hsplit ((List.perm_insertionSort _ _).nodup_iff.mpr (List.nodup_dedup _)) fun a ha => ?_
  exact (List.mem_insertionSort _).mpr (List.mem_dedup.mpr (List.mem_map_of_mem ha))

/-- The groups' sizes add up to the number of rows. -/
theorem sum_length_of_groups : ((groups key rows).map fun g => g.2.length).sum = rows.length := by
  rw [← List.length_flatMap, perm_groups.length_eq]

/-- A row is in the group of its key. -/
theorem exists_group (key : α → κ) {a : α} (ha : a ∈ rows) : ∃ g ∈ groups key rows, a ∈ g.2 := by
  have hkey : key a ∈ (groups key rows).map Prod.fst := mem_map_fst_groups.mpr ⟨a, ha, rfl⟩
  obtain ⟨g, hg, hk⟩ := List.mem_map.mp hkey
  refine ⟨g, hg, ?_⟩
  rw [rows_of_group hg]
  exact List.mem_filter.mpr ⟨ha, decide_eq_true hk.symm⟩

theorem mem_of_group {g : κ × List α} (hg : g ∈ groups key rows) {a : α} (ha : a ∈ g.2) :
    a ∈ rows := by
  rw [rows_of_group hg] at ha
  exact List.mem_of_mem_filter ha

/-! ### The extremes of a group -/

/-- `MIN` of a column over rows there are. -/
def minOf (f : α → ℕ) (l : List α) : ℕ := ((l.map f).min?).getD 0

/-- `MAX` of a column over rows there are. -/
def maxOf (f : α → ℕ) (l : List α) : ℕ := ((l.map f).max?).getD 0

variable {f : α → ℕ} {l : List α}

omit [LinearOrder κ] in
theorem minOf_spec (hne : l ≠ []) : (l.map f).min? = some (minOf f l) := by
  rcases hmin : (l.map f).min? with _ | m
  · exact absurd (List.map_eq_nil_iff.mp (List.min?_eq_none_iff.mp hmin)) hne
  · rw [minOf, hmin, Option.getD_some]

omit [LinearOrder κ] in
theorem maxOf_spec (hne : l ≠ []) : (l.map f).max? = some (maxOf f l) := by
  rcases hmax : (l.map f).max? with _ | m
  · exact absurd (List.map_eq_nil_iff.mp (List.max?_eq_none_iff.mp hmax)) hne
  · rw [maxOf, hmax, Option.getD_some]

/-- **The least of the groups' least is the least of the rows.** -/
theorem min?_groups : ((groups key rows).map fun g => minOf f g.2).min? = (rows.map f).min? := by
  rcases hmin : (rows.map f).min? with _ | m
  · obtain rfl := List.map_eq_nil_iff.mp (List.min?_eq_none_iff.mp hmin)
    rfl
  obtain ⟨hmem, hle⟩ := List.min?_eq_some_iff.mp hmin
  refine List.min?_eq_some_iff.mpr ⟨?_, fun n hn => ?_⟩
  · obtain ⟨a, ha, rfl⟩ := List.mem_map.mp hmem
    obtain ⟨g, hg, hag⟩ := exists_group key ha
    obtain ⟨hg', hle'⟩ := List.min?_eq_some_iff.mp (minOf_spec (group_ne_nil hg))
    obtain ⟨b, hb, hbg⟩ := List.mem_map.mp hg'
    refine List.mem_map.mpr ⟨g, hg, le_antisymm (hle' _ (List.mem_map_of_mem hag)) ?_⟩
    exact hbg ▸ hle _ (List.mem_map_of_mem (mem_of_group hg hb))
  · obtain ⟨g, hg, rfl⟩ := List.mem_map.mp hn
    obtain ⟨b, hb, hbg⟩ := List.mem_map.mp
      (List.min?_eq_some_iff.mp (minOf_spec (group_ne_nil hg))).1
    exact hbg ▸ hle _ (List.mem_map_of_mem (mem_of_group hg hb))

/-- **The greatest of the groups' greatest is the greatest of the rows.** -/
theorem max?_groups : ((groups key rows).map fun g => maxOf f g.2).max? = (rows.map f).max? := by
  rcases hmax : (rows.map f).max? with _ | m
  · obtain rfl := List.map_eq_nil_iff.mp (List.max?_eq_none_iff.mp hmax)
    rfl
  obtain ⟨hmem, hle⟩ := List.max?_eq_some_iff.mp hmax
  refine List.max?_eq_some_iff.mpr ⟨?_, fun n hn => ?_⟩
  · obtain ⟨a, ha, rfl⟩ := List.mem_map.mp hmem
    obtain ⟨g, hg, hag⟩ := exists_group key ha
    obtain ⟨hg', hle'⟩ := List.max?_eq_some_iff.mp (maxOf_spec (group_ne_nil hg))
    obtain ⟨b, hb, hbg⟩ := List.mem_map.mp hg'
    refine List.mem_map.mpr ⟨g, hg, le_antisymm ?_ (hle' _ (List.mem_map_of_mem hag))⟩
    exact hbg ▸ hle _ (List.mem_map_of_mem (mem_of_group hg hb))
  · obtain ⟨g, hg, rfl⟩ := List.mem_map.mp hn
    obtain ⟨b, hb, hbg⟩ := List.mem_map.mp
      (List.max?_eq_some_iff.mp (maxOf_spec (group_ne_nil hg))).1
    exact hbg ▸ hle _ (List.mem_map_of_mem (mem_of_group hg hb))

end Sql

/-! ## The first of an order -/

section Ranked

variable {α : Type} (r : α → α → Prop) [DecidableRel r]

/-- Sorted and cut off. -/
def ranked (limit : ℕ) (l : List α) : List α := (l.insertionSort r).take limit

variable {r} {limit : ℕ} {l : List α} {a b : α}

theorem mem_of_ranked (ha : a ∈ ranked r limit l) : a ∈ l :=
  (List.mem_insertionSort r).mp (List.mem_of_mem_take ha)

theorem length_ranked : (ranked r limit l).length = min limit l.length := by
  rw [ranked, List.length_take, List.length_insertionSort]

theorem ranked_sublist : (ranked r limit l).Sublist (l.insertionSort r) := List.take_sublist _ _

variable [Std.Total r] [IsTrans α r]

theorem pairwise_ranked : (ranked r limit l).Pairwise r :=
  (List.pairwise_insertionSort r l).sublist ranked_sublist

/-- **What is cut off comes after what is kept.** -/
theorem ranked_before (ha : a ∈ ranked r limit l) (hb : b ∈ l) (hcut : b ∉ ranked r limit l) :
    r a b := by
  have hsorted := List.pairwise_insertionSort r l
  rw [← List.take_append_drop limit (l.insertionSort r), List.pairwise_append] at hsorted
  have hb : b ∈ (l.insertionSort r).take limit ++ (l.insertionSort r).drop limit := by
    rw [List.take_append_drop]
    exact (List.mem_insertionSort r).mpr hb
  exact hsorted.2.2 a ha b ((List.mem_append.mp hb).resolve_left hcut)

end Ranked
