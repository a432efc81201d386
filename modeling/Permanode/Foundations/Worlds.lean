import Permanode.Foundations.Program

/-!
# Foundations/Worlds — a program against a world with a state

`Prog.drive` runs a program alone and to its end against a world that answers from a state of its
own: a peer that stays marked once it has failed, a clock that counts its readings.  A program is a
finite tree, so the run always ends.  It is one of the runs `Path` allows (`runs_drive`).

    drive (p >>= f) = drive p, then drive f        (`drive_bind`)
-/

namespace Prog

variable {Q : Type} {A : Q → Type} {S T E W α β γ : Type}

section Drive

variable (exec : T → S → Except E S) (world : ∀ q, W → A q × W)

/-- **A program run to its end** against a world in state `w`. -/
def drive : Prog Q A S T E α → S → W → Except E α × S × W
  | ret a, s, w => (.ok a, s, w)
  | fail e, s, w => (.error e, s, w)
  | ask q k, s, w => drive (k (world q w).1) s (world q w).2
  | read k, s, w => drive (k s) s w
  | commit t k, s, w =>
    match exec t s with
    | .ok s' => drive (k s s') s' w
    | .error e => (.error e, s, w)

/-- How a run goes on after its first half. -/
def driveThen (f : α → Prog Q A S T E β) : Except E α × S × W → Except E β × S × W
  | (.ok a, s, w) => drive exec world (f a) s w
  | (.error e, s, w) => (.error e, s, w)

variable {exec world}

@[simp] theorem drive_pure (a : α) (s : S) (w : W) :
    drive exec world (pure a : Prog Q A S T E α) s w = (.ok a, s, w) := rfl

@[simp] theorem drive_fail (e : E) (s : S) (w : W) :
    drive exec world (fail e : Prog Q A S T E α) s w = (.error e, s, w) := rfl

/-- **The rule of sequence.** -/
theorem drive_bind (f : α → Prog Q A S T E β) : ∀ (p : Prog Q A S T E α) (s : S) (w : W),
    drive exec world (p >>= f) s w = driveThen exec world f (drive exec world p s w)
  | ret _, _, _ => rfl
  | fail _, _, _ => rfl
  | ask q k, s, w => drive_bind f (k (world q w).1) s (world q w).2
  | read k, s, w => drive_bind f (k s) s w
  | commit t k, s, w => by
      rw [commit_bind, drive, drive]
      rcases exec t s with e | s'
      · rfl
      · exact drive_bind f (k s s') s' w

/-- A question is answered by the world, which moves on. -/
theorem drive_send (q : Q) (f : A q → Prog Q A S T E β) (s : S) (w : W) :
    drive exec world (send q >>= f) s w = drive exec world (f (world q w).1) s (world q w).2 := rfl

/-- A read is of the state as it is. -/
theorem drive_query (g : S → α) (f : α → Prog Q A S T E β) (s : S) (w : W) :
    drive exec world (query g >>= f) s w = drive exec world (f (g s)) s w := rfl

/-- A transaction changes the state, or fails and ends the run. -/
theorem drive_transact (t : T) (f : Unit → Prog Q A S T E β) (s : S) (w : W) :
    drive exec world (transact t >>= f) s w = match exec t s with
      | .ok s' => drive exec world (f ()) s' w
      | .error e => (.error e, s, w) := by
  change drive exec world (commit t fun _ _ => f ()) s w = _
  rw [drive]

/-- A loop with an accumulator runs its first round, then the others. -/
theorem drive_foldEach_cons (f : γ → β → Prog Q A S T E γ) (c : γ) (b : β) (l : List β) (s : S)
    (w : W) : drive exec world (foldEach f c (b :: l)) s w
      = driveThen exec world (fun c' => foldEach f c' l) (drive exec world (f c b) s w) :=
  drive_bind _ _ s w

/-- So does one without. -/
theorem drive_each_cons (f : β → Prog Q A S T E Unit) (b : β) (l : List β) (s : S) (w : W) :
    drive exec world (each f (b :: l)) s w
      = driveThen exec world (fun _ => each f l) (drive exec world (f b) s w) :=
  drive_bind _ _ s w

/-- **A driven program has run**, as `Path` sees it. -/
theorem runs_drive {allow : ∀ q, A q → Prop} (hworld : ∀ q w, allow q (world q w).1) :
    ∀ (p : Prog Q A S T E α) (s : S) (w : W), ∃ tr, Runs allow exec p s tr
      (drive exec world p s w).1 (drive exec world p s w).2.1
  | ret _, s, _ => ⟨[], .stop _ s⟩
  | fail _, s, _ => ⟨[], .stop _ s⟩
  | ask q k, s, w =>
    have ⟨tr, h⟩ := runs_drive hworld (k (world q w).1) s (world q w).2
    ⟨tr, .ask _ (hworld q w) h⟩
  | read k, s, w => have ⟨tr, h⟩ := runs_drive hworld (k s) s w; ⟨tr, .read h⟩
  | commit t k, s, w => by
      rw [drive]
      rcases ht : exec t s with e | s'
      · exact ⟨[], .refuse ht⟩
      · obtain ⟨tr, h⟩ := runs_drive hworld (k s s') s' w
        exact ⟨(s, t, s') :: tr, .commit ht h⟩

/-! ### What the world said -/

/-- The world, with a record of its answers beside its state. -/
def recording (world : ∀ q, W → A q × W) (q : Q) (w : W × List (Σ q, A q)) :
    A q × W × List (Σ q, A q) :=
  ((world q w.1).1, (world q w.1).2, w.2 ++ [⟨q, (world q w.1).1⟩])

/-- The answers a program gets on its run. -/
def answers (exec : T → S → Except E S) (world : ∀ q, W → A q × W) (p : Prog Q A S T E α) (s : S)
    (w : W) : List (Σ q, A q) :=
  (drive exec (recording world) p s (w, [])).2.2.2

/-- **The record does not show**: a run against the recording world is the run against the world. -/
theorem drive_recording : ∀ (p : Prog Q A S T E α) (s : S) (w : W) (l : List (Σ q, A q)),
    ∃ l', drive exec (recording world) p s (w, l)
      = ((drive exec world p s w).1, (drive exec world p s w).2.1, (drive exec world p s w).2.2, l')
  | ret _, _, _, l => ⟨l, rfl⟩
  | fail _, _, _, l => ⟨l, rfl⟩
  | ask q k, s, w, l => by
      obtain ⟨l', h⟩ := drive_recording (k (world q w).1) s (world q w).2
        (l ++ [(⟨q, (world q w).1⟩ : Σ q, A q)])
      exact ⟨l', h⟩
  | read k, s, w, l => by
      obtain ⟨l', h⟩ := drive_recording (k s) s w l
      exact ⟨l', h⟩
  | commit t k, s, w, l => by
      rw [drive, drive]
      rcases exec t s with e | s'
      · exact ⟨l, rfl⟩
      · exact drive_recording (k s s') s' w l

end Drive

end Prog
