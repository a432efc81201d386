import Mathlib.Algebra.BigOperators.Group.List.Lemmas
import Mathlib.Algebra.Ring.Nat
import Mathlib.Data.List.Nodup

/-!
# Foundations/Joins — joins on a unique key, and groups

`l JOIN r ON key = …` pairs each row of `l` with the rows of `r` that have its key.  Where no two
rows of `r` share a key this is at most one row, so the join is a `filterMap` of `l`, and filtering
it by a condition on the pair is filtering `l` by a condition on its rows.  Groups by a key, counted
over any keys that cover the rows once each, add up to all rows (`sum_length_groups`).
-/

section Joins

variable {α β κ : Type} [DecidableEq κ]

/-- `l JOIN r ON key r = on l`. -/
def joinOn (l : List α) (r : List β) (on : α → κ) (key : β → κ) : List (α × β) :=
  l.flatMap fun a => (r.filter fun b => key b = on a).map (a, ·)

/-- **A unique key names the row found by it.** -/
theorem filter_key_eq_find? {key : β → κ} (k : κ) {r : List β} (h : (r.map key).Nodup) :
    r.filter (fun b => key b = k) = (r.find? fun b => key b = k).toList := by
  induction r with
  | nil => rfl
  | cons b r ih =>
    obtain ⟨hb, hr⟩ := List.nodup_cons.mp h
    by_cases hk : key b = k
    · have hrest : r.filter (fun b => key b = k) = [] := List.filter_eq_nil_iff.mpr fun c hc hck =>
        hb (hk.trans (of_decide_eq_true hck).symm ▸ List.mem_map_of_mem hc)
      rw [List.filter_cons_of_pos (by simpa using hk), hrest,
        List.find?_cons_of_pos (by simpa using hk), Option.toList_some]
    · rw [List.filter_cons_of_neg (by simpa using hk), ih hr,
        List.find?_cons_of_neg (by simpa using hk)]

/-- **A join on a unique key gives each row at most one partner.** -/
theorem joinOn_eq_filterMap {key : β → κ} {r : List β} (h : (r.map key).Nodup) (l : List α)
    (on : α → κ) :
    joinOn l r on key = l.filterMap fun a => (r.find? fun b => key b = on a).map (a, ·) := by
  induction l with
  | nil => rfl
  | cons a l ih =>
    rw [joinOn, List.flatMap_cons, filter_key_eq_find? _ h, List.filterMap_cons]
    rw [joinOn] at ih
    rcases r.find? fun b => key b = on a with _ | b
    · exact ih
    · exact congrArg (List.cons (a, b)) ih

/-- **A condition on a row and its partner** is a condition on the row. -/
theorem map_fst_filter_partner (f : α → Option β) (q : α × β → Bool) (l : List α) :
    ((l.filterMap fun a => (f a).map (a, ·)).filter q).map Prod.fst
      = l.filter fun a => (f a).any fun b => q (a, b) := by
  induction l with
  | nil => rfl
  | cons a l ih =>
    rw [List.filterMap_cons, List.filter_cons, ← ih]
    rcases f a with _ | b
    · rfl
    · by_cases hq : q (a, b) = true
      · simp [hq]
      · simp [hq]

/-- **The groups' sizes add up**, over any keys that cover the rows once each. -/
theorem sum_length_groups {ks : List κ} (hks : ks.Nodup) (key : α → κ) {l : List α}
    (hcover : ∀ a ∈ l, key a ∈ ks) :
    (ks.map fun k => (l.filter fun a => key a = k).length).sum = l.length := by
  induction l with
  | nil => simp
  | cons a l ih =>
    have hcount : ∀ ks : List κ, (ks.map fun k => if key a = k then 1 else 0).sum
        = ks.count (key a) := by
      intro ks
      induction ks with
      | nil => rfl
      | cons k ks ih =>
        rw [List.map_cons, List.sum_cons, ih, List.count_cons, add_comm]
        simp only [beq_iff_eq, eq_comm (a := k)]
    have hone := List.count_eq_one_of_mem hks (hcover a List.mem_cons_self)
    have hsplit : ∀ k, ((a :: l).filter fun a => key a = k).length
        = (if key a = k then 1 else 0) + (l.filter fun a => key a = k).length := by
      intro k
      by_cases hk : key a = k
      · rw [List.filter_cons_of_pos (by simpa using hk), if_pos hk, List.length_cons, add_comm]
      · rw [List.filter_cons_of_neg (by simpa using hk), if_neg hk, zero_add]
    simp only [hsplit, List.sum_map_add, hcount, hone, List.length_cons,
      ih fun a ha => hcover a (List.mem_cons_of_mem _ ha), add_comm]

end Joins
