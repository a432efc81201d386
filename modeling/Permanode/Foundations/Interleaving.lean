import Mathlib.Logic.Function.Basic
import Permanode.Foundations.Program

/-!
# Foundations/Interleaving — threads over one store

Threads `ι` run programs over one store, one action at a time in any order; a thread may start any
of its jobs when it is idle, and may be cut off at any action (a failure outside the program's own
logic, or a crash of the process, which cuts off every thread).  Only committed transactions change
the store, so what a crash leaves is the store.

`Run.rely_guarantee` is the rule for invariants of the store: each thread keeps the invariant as
long as the others keep to its `rely`, and each thread's `guar` is within the others' `rely`.
`Run.invariant_iff` sharpens the case where transactions are judged one by one: along a run the
invariant holds throughout **iff** every transaction met its condition.
-/

namespace Prog

variable {Q : Type} {A : Q → Type} {S T E ι : Type} [DecidableEq ι]

/-- The store and what each thread is in the middle of. -/
structure Config (Q : Type) (A : Q → Type) (S T E ι : Type) where
  store : S
  thread : ι → Option (Prog Q A S T E Unit)

/-- Every thread idle. -/
def Config.idle (s : S) : Config Q A S T E ι := ⟨s, fun _ => none⟩

/-- What holds of every thread after one of them has moved. -/
theorem forall_thread_update {th : ι → Option (Prog Q A S T E Unit)} {i : ι}
    {p' : Option (Prog Q A S T E Unit)} {P : ι → Prog Q A S T E Unit → Prop}
    (hne : ∀ j p, j ≠ i → th j = some p → P j p) (hself : ∀ p, p' = some p → P i p) :
    ∀ j p, Function.update th i p' j = some p → P j p := by
  intro j p hj
  by_cases hji : j = i
  · subst hji
    rw [Function.update_self] at hj
    exact hself p hj
  · rw [Function.update_of_ne hji] at hj
    exact hne j p hji hj

section Run

variable (jobs : ι → Prog Q A S T E Unit → Prop) (allow : ∀ q, A q → Prop)
  (exec : T → S → Except E S)

/-- One action of one thread, with the transaction it commits, if it commits one. -/
inductive Step : Config Q A S T E ι → Option (S × T × S) → Config Q A S T E ι → Prop
  | start {c : Config Q A S T E ι} (i : ι) (p : Prog Q A S T E Unit) (hi : c.thread i = none)
      (hp : jobs i p) : Step c none ⟨c.store, Function.update c.thread i (some p)⟩
  | ask {c : Config Q A S T E ι} (i : ι) {q : Q} {k : A q → Prog Q A S T E Unit}
      (hi : c.thread i = some (.ask q k)) (a : A q) (ha : allow q a) :
      Step c none ⟨c.store, Function.update c.thread i (some (k a))⟩
  | read {c : Config Q A S T E ι} (i : ι) {k : S → Prog Q A S T E Unit}
      (hi : c.thread i = some (.read k)) :
      Step c none ⟨c.store, Function.update c.thread i (some (k c.store))⟩
  | commit {c : Config Q A S T E ι} (i : ι) {t : T} {k : S → S → Prog Q A S T E Unit} {s' : S}
      (hi : c.thread i = some (.commit t k)) (hs : exec t c.store = .ok s') :
      Step c (some (c.store, t, s')) ⟨s', Function.update c.thread i (some (k c.store s'))⟩
  | halt {c : Config Q A S T E ι} (i : ι) :
      Step c none ⟨c.store, Function.update c.thread i none⟩

/-- A run: any sequence of actions, with the transactions committed on the way, in order. -/
inductive Run (c₀ : Config Q A S T E ι) : List (S × T × S) → Config Q A S T E ι → Prop
  | init : Run c₀ [] c₀
  | silent {tr : List (S × T × S)} {c c' : Config Q A S T E ι} (h : Run c₀ tr c)
      (hs : Step jobs allow exec c none c') : Run c₀ tr c'
  | commit {tr : List (S × T × S)} {c c' : Config Q A S T E ι} {x : S × T × S} (h : Run c₀ tr c)
      (hs : Step jobs allow exec c (some x) c') : Run c₀ (tr ++ [x]) c'

variable {jobs allow exec}

theorem Run.trans {c₀ c₁ c₂ : Config Q A S T E ι} {tr tr' : List (S × T × S)}
    (h : Run jobs allow exec c₀ tr c₁) (h' : Run jobs allow exec c₁ tr' c₂) :
    Run jobs allow exec c₀ (tr ++ tr') c₂ := by
  induction h' with
  | init => rw [List.append_nil]; exact h
  | silent _ hs ih => exact .silent ih hs
  | commit _ hs ih => rw [← List.append_assoc]; exact .commit ih hs

/-- A thread that follows a path, the others standing still; it is where the path ends, unless a
transaction was refused. -/
theorem run_of_path (i : ι) {p p' : Prog Q A S T E Unit} {s s' : S} {tr : List (S × T × S)}
    (h : Path allow exec p s tr p' s') :
    ∀ {c : Config Q A S T E ι}, c.store = s → c.thread i = some p →
      ∃ c', Run jobs allow exec c tr c' ∧ c'.store = s' ∧
        (∀ j, j ≠ i → c'.thread j = c.thread j)
        ∧ ((∀ e, p' ≠ .fail e) → c'.thread i = some p') := by
  induction h with
  | stop p s => exact fun hs hi => ⟨_, .init, hs, fun _ _ => rfl, fun _ => hi⟩
  | ask a ha _ ih =>
    intro c hs hi
    obtain ⟨c', hr, hs', hj, hend⟩ := ih (c := ⟨c.store, Function.update c.thread i _⟩) hs
      (Function.update_self ..)
    exact ⟨c', (Run.silent .init (.ask i hi a ha)).trans hr, hs', fun j hne =>
      (hj j hne).trans (Function.update_of_ne hne ..), hend⟩
  | read _ ih =>
    intro c hs hi
    subst hs
    obtain ⟨c', hr, hs', hj, hend⟩ := ih (c := ⟨c.store, Function.update c.thread i _⟩) rfl
      (Function.update_self ..)
    exact ⟨c', (Run.silent .init (.read i hi)).trans hr, hs', fun j hne =>
      (hj j hne).trans (Function.update_of_ne hne ..), hend⟩
  | commit ht _ ih =>
    intro c hs hi
    subst hs
    obtain ⟨c', hr, hs', hj, hend⟩ := ih (c := ⟨_, Function.update c.thread i _⟩) rfl
      (Function.update_self ..)
    exact ⟨c', (Run.commit .init (.commit i hi ht)).trans hr, hs', fun j hne =>
      (hj j hne).trans (Function.update_of_ne hne ..), hend⟩
  | refuse _ =>
    exact fun hs _ => ⟨_, .init, hs, fun _ _ => rfl, fun hend => absurd rfl (hend _)⟩

/-- **A job run from an idle thread, then ended or cut off, is a run of the whole.** -/
theorem run_job (i : ι) {p p' : Prog Q A S T E Unit} {c : Config Q A S T E ι} {s' : S}
    {tr : List (S × T × S)} (hi : c.thread i = none) (hp : jobs i p)
    (h : Path allow exec p c.store tr p' s') :
    Run jobs allow exec c tr ⟨s', c.thread⟩ := by
  let c₁ : Config Q A S T E ι := ⟨c.store, Function.update c.thread i (some p)⟩
  obtain ⟨c', hr, hs', hj, -⟩ : ∃ c', Run jobs allow exec c₁ tr c' ∧ c'.store = s' ∧
      (∀ j, j ≠ i → c'.thread j = c₁.thread j) ∧ ((∀ e, p' ≠ .fail e) → c'.thread i = some p') :=
    run_of_path i h rfl (Function.update_self ..)
  have hend := Run.silent ((Run.silent .init (.start i p hi hp)).trans hr) (.halt i)
  have hthr : Function.update c'.thread i none = c.thread := by
    funext j
    by_cases hne : j = i
    · subst hne; rw [Function.update_self, hi]
    · rw [Function.update_of_ne hne, hj j hne]
      exact Function.update_of_ne hne ..
  rw [hs', hthr] at hend
  exact hend

end Run

/-! ## Played runs -/

/-- A job played for some steps and then cut off. -/
structure Stint (Q : Type) (A : Q → Type) (S T E ι : Type) where
  thread : ι
  job : Prog Q A S T E Unit
  answers : ℕ → ∀ q, A q
  steps : ℕ

/-- The store after stints, one after the other. -/
def playAll (exec : T → S → Except E S) (stints : List (Stint Q A S T E ι)) (s : S) : S :=
  stints.foldl (fun s p => (play exec p.answers p.steps p.job s).2) s

/-- The transactions committed in stints, one after the other. -/
def traceAll (exec : T → S → Except E S) : List (Stint Q A S T E ι) → S → List (S × T × S)
  | [], _ => []
  | p :: stints, s => playTrace exec p.answers p.steps p.job s
    ++ traceAll exec stints (play exec p.answers p.steps p.job s).2

/-- **Stints in a row are a run.** -/
theorem run_playAll {jobs : ι → Prog Q A S T E Unit → Prop} {allow : ∀ q, A q → Prop}
    {exec : T → S → Except E S} :
    ∀ {stints : List (Stint Q A S T E ι)} (s : S),
      (∀ p ∈ stints, jobs p.thread p.job ∧ ∀ n q, allow q (p.answers n q)) →
        Run jobs allow exec (Config.idle s) (traceAll exec stints s)
          (Config.idle (playAll exec stints s))
  | [], _, _ => .init
  | p :: stints, s, h => by
      obtain ⟨hjob, hans⟩ := h p List.mem_cons_self
      let s₁ : S := (play exec p.answers p.steps p.job s).2
      have hrest : Run jobs allow exec (Config.idle s₁) (traceAll exec stints s₁)
          (Config.idle (playAll exec stints s₁)) :=
        run_playAll s₁ fun q hq => h q (List.mem_cons_of_mem _ hq)
      exact (run_job p.thread rfl hjob (path_play hans p.steps p.job s)).trans hrest

/-! ## Turns -/

/-- A thread's turn: some steps of what it is in the middle of, or of a job it starts. -/
structure Turn (Q : Type) (A : Q → Type) (S T E ι : Type) where
  thread : ι
  job : Option (Prog Q A S T E Unit)
  answers : ℕ → ∀ q, A q
  steps : ℕ

/-- What a thread is left in the middle of. -/
def unlessEnded : Prog Q A S T E Unit → Option (Prog Q A S T E Unit)
  | ret _ | fail _ => none
  | p => some p

/-- The configuration after a turn. -/
def Config.turn (exec : T → S → Except E S) (c : Config Q A S T E ι) (t : Turn Q A S T E ι) :
    Config Q A S T E ι :=
  match (c.thread t.thread).or t.job with
  | none => c
  | some p =>
    let r := play exec t.answers t.steps p c.store
    ⟨r.2, Function.update c.thread t.thread (unlessEnded r.1)⟩

/-- The transactions committed in a turn. -/
def Config.turnTrace (exec : T → S → Except E S) (c : Config Q A S T E ι) (t : Turn Q A S T E ι) :
    List (S × T × S) :=
  match (c.thread t.thread).or t.job with
  | none => []
  | some p => playTrace exec t.answers t.steps p c.store

/-- The configuration after turns, one after the other. -/
def Config.turns (exec : T → S → Except E S) (c : Config Q A S T E ι)
    (l : List (Turn Q A S T E ι)) : Config Q A S T E ι :=
  l.foldl (Config.turn exec) c

/-- The transactions committed in turns, one after the other. -/
def Config.turnsTrace (exec : T → S → Except E S) :
    Config Q A S T E ι → List (Turn Q A S T E ι) → List (S × T × S)
  | _, [] => []
  | c, t :: l => c.turnTrace exec t ++ (c.turn exec t).turnsTrace exec l

/-- The transaction a program is about to commit. -/
def next? : Prog Q A S T E α → Option T
  | commit t _ => some t
  | _ => none

theorem eq_commit_of_next? {p : Prog Q A S T E α} {t : T} (h : p.next? = some t) :
    ∃ k, p = .commit t k := by
  cases p with
  | commit t' k => exact ⟨k, congrArg (commit · k) (Option.some.inj h)⟩
  | ret _ | fail _ | ask _ _ | read _ => exact nomatch h

theorem eq_of_unlessEnded {p p' : Prog Q A S T E Unit} (h : p.unlessEnded = some p') :
    p' = p ∧ ∀ e, p ≠ .fail e := by
  cases p with
  | ret _ | fail _ => exact nomatch h
  | commit _ _ | ask _ _ | read _ => exact ⟨(Option.some.inj h).symm, nofun⟩

section Turns

variable {jobs : ι → Prog Q A S T E Unit → Prop} {allow : ∀ q, A q → Prop}
  {exec : T → S → Except E S}

/-- **A turn is a run.** -/
theorem run_turn {t : Turn Q A S T E ι} (c : Config Q A S T E ι)
    (hjob : ∀ p, t.job = some p → jobs t.thread p) (hans : ∀ n q, allow q (t.answers n q)) :
    Run jobs allow exec c (c.turnTrace exec t) (c.turn exec t) := by
  rw [Config.turn, Config.turnTrace]
  rcases hp : (c.thread t.thread).or t.job with _ | p
  · exact .init
  -- the thread is in the middle of `p`, or starts it
  obtain ⟨c₁, hstart, hstore, hother, hthread⟩ : ∃ c₁, Run jobs allow exec c [] c₁
      ∧ c₁.store = c.store ∧ (∀ j, j ≠ t.thread → c₁.thread j = c.thread j)
      ∧ c₁.thread t.thread = some p := by
    rcases hbusy : c.thread t.thread with _ | p₀
    · rw [hbusy, Option.none_or] at hp
      exact ⟨_, .silent .init (.start t.thread p hbusy (hjob p hp)), rfl,
        fun j hj => Function.update_of_ne hj .., Function.update_self ..⟩
    · rw [hbusy, Option.some_or] at hp
      exact ⟨c, .init, rfl, fun _ _ => rfl, hbusy.trans hp⟩
  have hpath : Path allow exec p c.store (playTrace exec t.answers t.steps p c.store)
    (play exec t.answers t.steps p c.store).1 (play exec t.answers t.steps p c.store).2 :=
    path_play hans t.steps p c.store
  obtain ⟨c₂, hrun, hstore₂, hother₂, hend⟩ := run_of_path t.thread hpath hstore hthread
  have hrun₂ := hstart.trans hrun
  have hthreads : ∀ (th : ι → Option (Prog Q A S T E Unit)) p',
      th t.thread = p' → (∀ j, j ≠ t.thread → th j = c₂.thread j) →
        th = Function.update c.thread t.thread p' := by
    intro th p' hself hj
    funext j
    by_cases hne : j = t.thread
    · rw [hne, hself, Function.update_self]
    · rw [hj j hne, hother₂ j hne, hother j hne, Function.update_of_ne hne]
  dsimp only
  rcases hu : unlessEnded (play exec t.answers t.steps p c.store).1 with _ | p'
  · rw [← hstore₂, ← hthreads (Function.update c₂.thread t.thread none) none
      (Function.update_self ..) fun j hj => Function.update_of_ne hj ..]
    exact .silent hrun₂ (.halt t.thread)
  · obtain ⟨rfl, hok⟩ := eq_of_unlessEnded hu
    rw [← hstore₂, ← hthreads c₂.thread _ (hend hok) fun _ _ => rfl]
    exact hrun₂

/-- **Turns are a run.** -/
theorem run_turns : ∀ {l : List (Turn Q A S T E ι)} (c : Config Q A S T E ι),
    (∀ t ∈ l, (∀ p, t.job = some p → jobs t.thread p) ∧ ∀ n q, allow q (t.answers n q)) →
      Run jobs allow exec c (c.turnsTrace exec l) (c.turns exec l)
  | [], _, _ => .init
  | t :: l, c, h => by
      obtain ⟨hjob, hans⟩ := h t List.mem_cons_self
      exact (run_turn c hjob hans).trans
        (run_turns (c.turn exec t) fun t' ht' => h t' (List.mem_cons_of_mem _ ht'))

end Turns

/-! ## Invariants -/

variable {jobs : ι → Prog Q A S T E Unit → Prop} {allow : ∀ q, A q → Prop}
  {exec : T → S → Except E S} {inv : S → Prop} {cond : S → T → Prop}

/-- **The rely-guarantee rule.**  The invariant holds in every store reached, was kept by every
transaction on the way, and each of these is within the guarantee of the thread that made it. -/
theorem Run.rely_guarantee (rely : ι → S → S → Prop) (guar : ι → S → T → S → Prop)
    (hrefl : ∀ i s, rely i s s)
    (htrans : ∀ i s₁ s₂ s₃, rely i s₁ s₂ → rely i s₂ s₃ → rely i s₁ s₃)
    (hguar : ∀ i j s t s', i ≠ j → guar i s t s' → rely j s s')
    (hjobs : ∀ i p s, jobs i p → inv s →
      wp ⟨allow, exec, inv, rely i, guar i, cond⟩ p (fun _ _ => True) s)
    {s₀ : S} (h₀ : inv s₀) {tr : List (S × T × S)} {c : Config Q A S T E ι}
    (h : Run jobs allow exec (Config.idle s₀) tr c) (hc : ∀ x ∈ tr, cond x.1 x.2.1) :
    inv c.store
      ∧ (∀ i p, c.thread i = some p →
          wp ⟨allow, exec, inv, rely i, guar i, cond⟩ p (fun _ _ => True) c.store)
      ∧ ∀ x ∈ tr, inv x.1 ∧ exec x.2.1 x.1 = .ok x.2.2 ∧ ∃ i, guar i x.1 x.2.1 x.2.2 := by
  induction h with
  | init => exact ⟨h₀, fun i p hp => absurd hp (by simp [Config.idle]), by simp⟩
  | silent _ hs ih =>
    obtain ⟨hi, hw, htr⟩ := ih hc
    cases hs with
    | start i p hidle hp =>
      refine ⟨hi, forall_thread_update (fun j q _ hj => hw j q hj) fun q hq => ?_, htr⟩
      obtain rfl := Option.some.inj hq
      exact hjobs i _ _ hp hi
    | ask i hth a ha =>
      refine ⟨hi, forall_thread_update (fun j q _ hj => hw j q hj) fun q hq => ?_, htr⟩
      obtain rfl := Option.some.inj hq
      exact hw i _ hth a ha
    | read i hth =>
      refine ⟨hi, forall_thread_update (fun j q _ hj => hw j q hj) fun q hq => ?_, htr⟩
      obtain rfl := Option.some.inj hq
      exact hw i _ hth _ hi (hrefl i _)
    | halt i =>
      exact ⟨hi, forall_thread_update (fun j q _ hj => hw j q hj) fun q hq => absurd hq (by simp),
        htr⟩
  | commit _ hs ih =>
    obtain ⟨hi, hw, htr⟩ := ih fun x hx => hc x (List.mem_append_left _ hx)
    have hx := hc _ (List.mem_append_right _ (List.mem_singleton_self _))
    cases hs with
    | commit i hth hexec =>
      obtain ⟨hi', hg, hk⟩ := (hw i _ hth _ hi (hrefl i _)).1 _ hx hexec
      refine ⟨hi', forall_thread_update (fun j q hne hj => ?_) fun q hq => ?_, fun y hy => ?_⟩
      · exact wp_stable (htrans j) (hguar i j _ _ _ (Ne.symm hne) hg) (hw j q hj)
      · obtain rfl := Option.some.inj hq
        exact hk
      · rcases List.mem_append.mp hy with hy | hy
        · exact htr y hy
        · obtain rfl := List.mem_singleton.mp hy
          exact ⟨hi, hexec, i, hg⟩

/-- An invariant that transactions keep one by one; and what is then known of each transaction. -/
theorem Run.invariant {P : T → Prop}
    (hjobs : ∀ i p, jobs i p → p.Commits allow P fun _ => True)
    (hstep : ∀ s t s', P t → inv s → cond s t → exec t s = .ok s' → inv s')
    {s₀ : S} (h₀ : inv s₀) {tr : List (S × T × S)} {c : Config Q A S T E ι}
    (h : Run jobs allow exec (Config.idle s₀) tr c) (hc : ∀ x ∈ tr, cond x.1 x.2.1) :
    inv c.store ∧ ∀ x ∈ tr, inv x.1 ∧ P x.2.1 ∧ exec x.2.1 x.1 = .ok x.2.2 := by
  obtain ⟨hi, -, htr⟩ := Run.rely_guarantee (fun _ _ _ => True) (fun _ _ t _ => P t)
    (fun _ _ => trivial) (fun _ _ _ _ _ _ => trivial)
    (fun _ _ _ _ _ _ _ => trivial)
    (fun _ _ _ hp _ => wp_of_commits
      (fun s t s' ht hi hc he => ⟨hstep s t s' ht hi hc he, ht⟩) (hjobs _ _ hp)) h₀ h hc
  exact ⟨hi, fun x hx => have ⟨h1, h2, _, h3⟩ := htr x hx; ⟨h1, h3, h2⟩⟩

/-- **The rule of what each thread knows.** What a thread knows of the store (`own`) it keeps as it
goes on, and the transactions of the others (`did`) leave it. -/
theorem Run.owned {own : Prog Q A S T E Unit → S → Prop} {did : S → T → S → Prop}
    (hstart : ∀ i p s, jobs i p → inv s → own p s)
    (hask : ∀ q k a s, own (.ask q k) s → allow q a → own (k a) s)
    (hread : ∀ k s, inv s → own (.read k) s → own (k s) s)
    (hcommit : ∀ t k s s', inv s → own (.commit t k) s → exec t s = .ok s' →
      inv s' ∧ did s t s' ∧ own (k s s') s')
    (hother : ∀ p s t s', inv s → did s t s' → own p s → own p s')
    {s₀ : S} (h₀ : inv s₀) {tr : List (S × T × S)} {c : Config Q A S T E ι}
    (h : Run jobs allow exec (Config.idle s₀) tr c) :
    inv c.store ∧ (∀ i p, c.thread i = some p → own p c.store)
      ∧ ∀ x ∈ tr, inv x.1 ∧ did x.1 x.2.1 x.2.2 := by
  induction h with
  | init => exact ⟨h₀, fun i p hp => absurd hp (by simp [Config.idle]), by simp⟩
  | silent _ hs ih =>
    obtain ⟨hi, ho, htr⟩ := ih
    cases hs with
    | start i p hidle hp =>
      refine ⟨hi, forall_thread_update (fun j q _ hj => ho j q hj) fun q hq => ?_, htr⟩
      exact Option.some.inj hq ▸ hstart i p _ hp hi
    | ask i hth a ha =>
      refine ⟨hi, forall_thread_update (fun j q _ hj => ho j q hj) fun q hq => ?_, htr⟩
      exact Option.some.inj hq ▸ hask _ _ a _ (ho i _ hth) ha
    | read i hth =>
      refine ⟨hi, forall_thread_update (fun j q _ hj => ho j q hj) fun q hq => ?_, htr⟩
      exact Option.some.inj hq ▸ hread _ _ hi (ho i _ hth)
    | halt i =>
      exact ⟨hi, forall_thread_update (fun j q _ hj => ho j q hj) fun q hq => absurd hq (by simp),
        htr⟩
  | commit _ hs ih =>
    obtain ⟨hi, ho, htr⟩ := ih
    cases hs with
    | commit i hth hexec =>
      obtain ⟨hi', hd, hown⟩ := hcommit _ _ _ _ hi (ho i _ hth) hexec
      refine ⟨hi', forall_thread_update (fun j q _ hj => hother q _ _ _ hi hd (ho j q hj))
        fun q hq => Option.some.inj hq ▸ hown, ?_⟩
      exact List.forall_mem_append.mpr ⟨htr, List.forall_mem_singleton.mpr ⟨hi, hd⟩⟩

/-- What a run has committed was committed where the trace says, with the outcome it says. -/
theorem Run.committed {c₀ : Config Q A S T E ι} {tr : List (S × T × S)} {c : Config Q A S T E ι}
    (h : Run jobs allow exec c₀ tr c) : ∀ x ∈ tr, exec x.2.1 x.1 = .ok x.2.2 := by
  induction h with
  | init => exact List.forall_mem_nil _
  | silent _ _ ih => exact ih
  | commit _ hs ih =>
    cases hs with
    | commit i hth hexec =>
      exact List.forall_mem_append.mpr ⟨ih, List.forall_mem_singleton.mpr hexec⟩

/-- **What each transaction relates, a run relates**: from where it began to each store on the way,
and from there to where it ends. -/
theorem Run.related {R : S → S → Prop} (hrefl : ∀ s, R s s)
    (htrans : ∀ s₁ s₂ s₃, R s₁ s₂ → R s₂ s₃ → R s₁ s₃) {c₀ : Config Q A S T E ι}
    {tr : List (S × T × S)} {c : Config Q A S T E ι} (h : Run jobs allow exec c₀ tr c)
    (hstep : ∀ x ∈ tr, R x.1 x.2.2) :
    R c₀.store c.store ∧ ∀ x ∈ tr, R c₀.store x.1 ∧ R x.1 c.store := by
  induction h with
  | init => exact ⟨hrefl _, by simp⟩
  | silent _ hs ih =>
    cases hs <;> exact ih hstep
  | commit _ hs ih =>
    obtain ⟨hc, htr⟩ := ih fun x hx => hstep x (List.mem_append_left _ hx)
    have hx := hstep _ (List.mem_append_right _ (List.mem_singleton_self _))
    cases hs with
    | commit i hth hexec =>
      refine ⟨htrans _ _ _ hc hx, fun y hy => ?_⟩
      rcases List.mem_append.mp hy with hy | hy
      · exact ⟨(htr y hy).1, htrans _ _ _ (htr y hy).2 hx⟩
      · obtain rfl := List.mem_singleton.mp hy
        exact ⟨hc, hx⟩

/-- What a transaction leaves is related to what the run ends with. -/
theorem Run.related_after {R : S → S → Prop} (hrefl : ∀ s, R s s)
    (htrans : ∀ s₁ s₂ s₃, R s₁ s₂ → R s₂ s₃ → R s₁ s₃) {c₀ : Config Q A S T E ι}
    {tr : List (S × T × S)} {c : Config Q A S T E ι} (h : Run jobs allow exec c₀ tr c)
    (hstep : ∀ x ∈ tr, R x.1 x.2.2) : ∀ x ∈ tr, R x.2.2 c.store := by
  induction h with
  | init => exact List.forall_mem_nil _
  | silent _ hs ih =>
    cases hs <;> exact ih hstep
  | commit _ hs ih =>
    obtain ⟨hold, hnew⟩ := List.forall_mem_append.mp hstep
    cases hs with
    | commit i hth hexec =>
      refine List.forall_mem_append.mpr ⟨fun y hy => htrans _ _ _ (ih hold y hy) ?_, ?_⟩
      · exact hnew _ (List.mem_singleton_self _)
      · exact List.forall_mem_singleton.mpr (hrefl _)

/-- **Exactness.**  Where one transaction breaks the invariant exactly if it misses its condition, a
run keeps the invariant throughout exactly if all its transactions meet theirs. -/
theorem Run.invariant_iff {I B : S → Prop} {C : S → T → Prop} {P : T → Prop}
    (hjobs : ∀ i p, jobs i p → p.Commits allow P fun _ => True)
    (hbase : ∀ s t s', P t → B s → exec t s = .ok s' → B s')
    (hstep : ∀ s t s', P t → B s → I s → exec t s = .ok s' → (I s' ↔ C s t))
    {s₀ : S} (hb₀ : B s₀) (h₀ : I s₀) {tr : List (S × T × S)} {c : Config Q A S T E ι}
    (h : Run jobs allow exec (Config.idle s₀) tr c) :
    ((∀ x ∈ tr, C x.1 x.2.1) → I c.store)
      ∧ ((∀ x ∈ tr, I x.2.2) ↔ ∀ x ∈ tr, C x.1 x.2.1) := by
  suffices hs : ((∀ x ∈ tr, I x.2.2) → I c.store)
      ∧ ((∀ x ∈ tr, I x.2.2) ↔ ∀ x ∈ tr, C x.1 x.2.1) from
    ⟨fun hc => hs.1 (hs.2.mpr hc), hs.2⟩
  have htr := (Run.invariant hjobs (fun s t s' ht hb (_ : True) he => hbase s t s' ht hb he) hb₀ h
    fun _ _ => trivial).2
  clear hb₀
  induction h with
  | init => exact ⟨fun _ => h₀, by simp⟩
  | silent _ hs ih =>
    obtain ⟨h1, h2⟩ := ih htr
    refine ⟨fun hx => ?_, h2⟩
    cases hs <;> exact h1 hx
  | commit _ hs ih =>
    obtain ⟨h1, h2⟩ := ih fun x hx => htr x (List.mem_append_left _ hx)
    obtain ⟨hb, hP, hexec⟩ := htr _ (List.mem_append_right _ (List.mem_singleton_self _))
    cases hs with
    | commit i hth he =>
      simp only [List.forall_mem_append, List.forall_mem_singleton]
      refine ⟨fun hx => hx.2, fun hx => ⟨h2.mp hx.1, ?_⟩, fun hx => ⟨h2.mpr hx.1, ?_⟩⟩
      · exact (hstep _ _ _ hP hb (h1 hx.1) hexec).mp hx.2
      · exact (hstep _ _ _ hP hb (h1 (h2.mpr hx.1)) hexec).mpr hx.2

end Prog
