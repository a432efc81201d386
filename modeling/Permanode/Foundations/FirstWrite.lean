import Mathlib.Data.List.Basic

/-!
# Foundations/FirstWrite — a register that keeps its first write

Two parties write one register, each only where it is empty.  Whoever writes first is kept, so the
party that is meant to win does exactly if the other's value is not there before it, or is the same
(`head_eq_preferred_iff`).  The writes of the one are `inl`, those of the other `inr`.
-/

namespace FirstWrite

variable {α : Type}

/-- What a write leaves in the register. -/
def write (r : Option α) (a : α) : Option α := some (r.getD a)

/-- **The register keeps the first write.** -/
theorem foldl_write : ∀ (l : List α) (r : Option α), l.foldl write r = r.or l.head?
  | [], r => r.or_none.symm
  | a :: l, r => by
      rw [List.foldl_cons, foldl_write l]
      rcases r with _ | b
      · rfl
      · rfl

/-- What is written, by either party. -/
def value : α ⊕ α → α := Sum.elim id id

/-- The first value of the party that is meant to win, and of the other. -/
def firstOwn (l : List (α ⊕ α)) : Option α := l.findSome? Sum.getLeft?

/-- The first write of the other side, if there is one. -/
def firstOther (l : List (α ⊕ α)) : Option α := l.findSome? Sum.getRight?

/-- What is meant to be kept: the one party's first value, if it writes at all. -/
def preferred (l : List (α ⊕ α)) : Option α := (firstOwn l).or (firstOther l)

/-- No value of the other party stands before a first value of the one that differs from it. -/
def Undisputed (l : List (α ⊕ α)) : Prop :=
  ∀ b, l.head? = some (.inr b) → ∀ a, firstOwn l = some a → a = b

/-- **The right value is kept exactly if the two parties do not get in each other's way.** -/
theorem head_eq_preferred_iff (l : List (α ⊕ α)) :
    (l.map value).head? = preferred l ↔ Undisputed l := by
  rcases l with _ | ⟨a | b, l⟩
  · exact iff_of_true rfl fun _ h => absurd h.symm (Option.some_ne_none _)
  · refine iff_of_true rfl fun b h => ?_
    exact absurd (Option.some.inj h) Sum.inl_ne_inr
  · have hother : firstOther (.inr b :: l) = some b := rfl
    have hvalue : ((Sum.inr b :: l).map value).head? = some b := rfl
    rw [hvalue, preferred, hother]
    constructor
    · intro h b' hb a ha
      obtain rfl := Sum.inr.inj (Option.some.inj hb)
      rw [ha] at h
      exact (Option.some.inj h).symm
    · intro h
      rcases hown : firstOwn (.inr b :: l) with _ | a
      · rfl
      · rw [h b rfl a hown]
        rfl

end FirstWrite
