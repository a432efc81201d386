import Mathlib.Data.List.Forall2
import Mathlib.Tactic.SplitIfs

/-!
# Foundations/Outcome — steps that may fail

The small change of fallible code: `bailIf` (a check), `orError` (a value that must be there) and
`mapError` (an error put in context), with the inversion lemmas that take a successful `do` block
apart: `simp only [bind_ok, bailIf_ok, orError_ok, mapError_ok]` turns "the block returned `a`" into
what each of its lines said.  A list that such a block computes stands for the one it went through,
element by element (`List.Forall₂`); the last section reads one off the other.
-/

namespace Outcome

variable {ε α β : Type}

/-- `if p { bail!(e) }`. -/
def bailIf (p : Prop) [Decidable p] (e : ε) : Except ε Unit := if p then .error e else .ok ()

/-- `.context(e)` on an option. -/
def orError (e : ε) : Option α → Except ε α
  | some a => .ok a
  | none => .error e

/-- `.map_err(|e| anyhow!("what: {e}"))`. -/
def mapError (what : String) : Except String α → Except String α
  | .ok a => .ok a
  | .error e => .error s!"{what}: {e}"

theorem bind_ok {x : Except ε α} {f : α → Except ε β} {b : β} :
    (x >>= f) = .ok b ↔ ∃ a, x = .ok a ∧ f a = .ok b := by
  rcases x with e | a
  · exact ⟨nofun, fun ⟨_, h, _⟩ => nomatch h⟩
  · exact ⟨fun h => ⟨a, rfl, h⟩, fun ⟨_, h, hf⟩ => Except.ok.inj h ▸ hf⟩

/-- A value one branch of an `if` computes and the other has at hand, and the steps after it. -/
theorem join_ok {γ : Type} {c : Prop} [Decidable c] {x : Except ε γ} {g : γ → Except ε α} {a₀ : α}
    {f : α → Except ε β} {b : β} :
    (if c then x >>= fun y => g y >>= f else pure a₀ >>= f) = .ok b
      ↔ ∃ a, (if c then x >>= g else pure a₀) = .ok a ∧ f a = .ok b := by
  split_ifs
  · rcases x with e | y
    · exact ⟨nofun, fun ⟨_, h, _⟩ => nomatch h⟩
    · exact bind_ok (x := g y)
  · exact bind_ok

theorem pure_ok {a b : α} : (pure a : Except ε α) = .ok b ↔ a = b :=
  ⟨Except.ok.inj, congrArg _⟩

theorem map_ok {x : Except ε α} {f : α → β} {b : β} :
    f <$> x = .ok b ↔ ∃ a, x = .ok a ∧ f a = b := by
  rcases x with e | a
  · exact ⟨nofun, fun ⟨_, h, _⟩ => nomatch h⟩
  · exact ⟨fun h => ⟨a, rfl, Except.ok.inj h⟩, fun ⟨_, h, hf⟩ => Except.ok.inj h ▸ congrArg _ hf⟩

theorem bailIf_ok {p : Prop} [Decidable p] {e : ε} {u : Unit} : bailIf p e = .ok u ↔ ¬ p := by
  unfold bailIf
  split_ifs with h
  · exact ⟨nofun, fun hp => absurd h hp⟩
  · exact ⟨fun _ => h, fun _ => rfl⟩

theorem orError_ok {e : ε} {x : Option α} {a : α} : orError e x = .ok a ↔ x = some a := by
  rcases x with _ | b
  · exact ⟨nofun, nofun⟩
  · exact ⟨fun h => congrArg _ (Except.ok.inj h), fun h => congrArg _ (Option.some.inj h)⟩

theorem mapError_ok {what : String} {x : Except String α} {a : α} :
    mapError what x = .ok a ↔ x = .ok a := by
  rcases x with e | b
  · exact ⟨nofun, nofun⟩
  · exact Iff.rfl

theorem mem_toOption {x : Except ε α} {a : α} : a ∈ x.toOption ↔ x = .ok a := by
  rcases x with e | b
  · exact ⟨nofun, nofun⟩
  · exact ⟨fun h => congrArg _ (Option.some.inj h), fun h => congrArg _ (Except.ok.inj h)⟩

/-- A loop that may fail, element by element. -/
theorem mapM_cons_ok {f : α → Except ε β} {a : α} {l : List α} {bs : List β} :
    (a :: l).mapM f = .ok bs ↔ ∃ b bs', f a = .ok b ∧ l.mapM f = .ok bs' ∧ b :: bs' = bs := by
  simp only [List.mapM_cons, bind_ok, pure_ok, exists_and_left]

/-- **What a loop computes, element by element**, if it does not fail. -/
theorem map_of_mapM_ok {γ : Type} {f : α → Except ε β} {g : β → γ} {h : α → γ}
    (hf : ∀ a b, f a = .ok b → g b = h a) :
    ∀ {l : List α} {bs : List β}, l.mapM f = .ok bs → bs.map g = l.map h
  | [], bs, hl => by
      rw [← Except.ok.inj hl]
      rfl
  | a :: l, bs, hl => by
      obtain ⟨b, bs, hb, hbs, rfl⟩ := mapM_cons_ok.mp hl
      rw [List.map_cons, List.map_cons, hf a b hb, map_of_mapM_ok hf hbs]

/-- A loop over a list that stands for another, element by element. -/
theorem mapM_ok_of_forall₂ {γ : Type} {R : α → γ → Prop} {f : α → Except ε β} {g : γ → β}
    (hf : ∀ a c, R a c → f a = .ok (g c)) {l : List α} {m : List γ} (h : List.Forall₂ R l m) :
    l.mapM f = .ok (m.map g) := by
  induction h with
  | nil => rfl
  | cons hr _ ih => exact mapM_cons_ok.mpr ⟨_, _, hf _ _ hr, ih, rfl⟩

/-! ## Lists that stand for each other -/

/-- A list that stands for another, seen at an index. -/
theorem forall₂_getElem? {P : α → β → Prop} {l : List α} {m : List β} (h : List.Forall₂ P l m) :
    ∀ {k : ℕ} {b : β}, m[k]? = some b → ∃ a, l[k]? = some a ∧ P a b := by
  induction h with
  | nil => exact nofun
  | cons hab _ ih =>
    rintro (_ | k) b hb
    · obtain rfl := Option.some.inj hb
      exact ⟨_, rfl, hab⟩
    · exact ih hb

theorem exists_of_forall₂ {P : α → β → Prop} {l : List α} {m : List β} (h : List.Forall₂ P l m)
    {b : β} (hb : b ∈ m) : ∃ a ∈ l, P a b := by
  obtain ⟨k, hk⟩ := List.mem_iff_getElem?.mp hb
  obtain ⟨a, ha, hab⟩ := forall₂_getElem? h hk
  exact ⟨a, List.mem_of_getElem? ha, hab⟩

/-- Lists that stand for each other have the same values of what agrees. -/
theorem map_eq_of_forall₂ {γ : Type} {P : α → β → Prop} {f : α → γ} {g : β → γ}
    (hfg : ∀ a b, P a b → g b = f a) {l : List α} {m : List β} (h : List.Forall₂ P l m) :
    m.map g = l.map f := by
  induction h with
  | nil => rfl
  | cons hab _ ih => rw [List.map_cons, List.map_cons, ih, hfg _ _ hab]

theorem map_zipIdx_fst (f : α → β) (l : List α) : l.zipIdx.map (fun p => f p.1) = l.map f :=
  (List.map_map ..).symm.trans (congrArg (List.map f) (List.zipIdx_map_fst 0 l))

end Outcome
