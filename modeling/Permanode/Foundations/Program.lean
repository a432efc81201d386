import Mathlib.Data.List.Basic

/-!
# Foundations/Program — programs over a shared transactional store

A program asks the world questions, reads a store it shares with others, and changes it in
transactions, one at a time.  `Prog` is the tree of those actions, so one text of a program carries
both readings needed of it: alone, start to end (`Path`), and cut up among other programs
(`Foundations/Interleaving`).

`wp` is the rule of reasoning for both: what must hold now for every run to end in `Q`, when the
world answers within `allow`, others change the store within `rely` between two actions, and every
transaction met satisfies `cond`.  A loop is reasoned about by its invariant (`wp_each`).
-/

/-- A program over a store `S`: it may ask `q : Q` and receive any `A q`, read the store, commit a
transaction `t : T` (and see the store before and after it), fail with `e : E` or return. -/
inductive Prog (Q : Type) (A : Q → Type) (S T E α : Type) : Type
  | ret (a : α)
  | fail (e : E)
  | ask (q : Q) (k : A q → Prog Q A S T E α)
  | read (k : S → Prog Q A S T E α)
  | commit (t : T) (k : S → S → Prog Q A S T E α)

namespace Prog

variable {Q : Type} {A : Q → Type} {S T E α β γ : Type}

/-! ## The monad of programs -/

/-- Run `p`, then `f` on what it returns; a failure ends both. -/
def bind : Prog Q A S T E α → (α → Prog Q A S T E β) → Prog Q A S T E β
  | ret a, f => f a
  | fail e, _ => fail e
  | ask q k, f => ask q fun a => (k a).bind f
  | read k, f => read fun s => (k s).bind f
  | commit t k, f => commit t fun s s' => (k s s').bind f

instance : Monad (Prog Q A S T E) where
  pure := ret
  bind := bind

@[simp] theorem pure_eq (a : α) : (pure a : Prog Q A S T E α) = ret a := rfl

@[simp] theorem ret_bind (a : α) (f : α → Prog Q A S T E β) : (ret a >>= f) = f a := rfl

@[simp] theorem fail_bind (e : E) (f : α → Prog Q A S T E β) : (fail e >>= f) = fail e := rfl

@[simp] theorem ask_bind (q : Q) (k : A q → Prog Q A S T E α) (f : α → Prog Q A S T E β) :
    (ask q k >>= f) = ask q fun a => k a >>= f := rfl

@[simp] theorem read_bind (k : S → Prog Q A S T E α) (f : α → Prog Q A S T E β) :
    (read k >>= f) = read fun s => k s >>= f := rfl

@[simp] theorem commit_bind (t : T) (k : S → S → Prog Q A S T E α)
    (f : α → Prog Q A S T E β) : (commit t k >>= f) = commit t fun s s' => k s s' >>= f := rfl

/-- Sequencing associates. -/
theorem bind_bind (f : α → Prog Q A S T E β) (g : β → Prog Q A S T E γ) :
    ∀ p : Prog Q A S T E α, (p >>= f) >>= g = p >>= fun a => f a >>= g
  | ret _ => rfl
  | fail _ => rfl
  | ask q k => congrArg (ask q) (funext fun a => bind_bind f g (k a))
  | read k => congrArg read (funext fun s => bind_bind f g (k s))
  | commit t k => congrArg (commit t) (funext fun s => funext fun s' => bind_bind f g (k s s'))

/-- Ask `q` and return the answer. -/
def send (q : Q) : Prog Q A S T E (A q) := ask q ret

/-- Read `f` off the store. -/
def query (f : S → α) : Prog Q A S T E α := read fun s => ret (f s)

/-- Commit `t`. -/
def transact (t : T) : Prog Q A S T E Unit := commit t fun _ _ => ret ()

/-- The program that ends with the outcome `r`. -/
def ofExcept : Except E α → Prog Q A S T E α
  | .ok a => ret a
  | .error e => fail e

/-- Run `f` on every element of a list, in order. -/
def each (f : β → Prog Q A S T E Unit) : List β → Prog Q A S T E Unit
  | [] => ret ()
  | b :: l => f b >>= fun _ => each f l

/-- Thread a value through `f` over a list, in order. -/
def foldEach (f : γ → β → Prog Q A S T E γ) : γ → List β → Prog Q A S T E γ
  | c, [] => ret c
  | c, b :: l => f c b >>= fun c' => foldEach f c' l

/-! ## Running alone -/

section Path

variable (allow : ∀ q, A q → Prop) (exec : T → S → Except E S)

/-- `Path p s tr p' s'`: started on `s` and left alone, `p` can come to be `p'` on `s'`, having
committed the transactions `tr` (each with the store before and after it). -/
inductive Path : Prog Q A S T E α → S → List (S × T × S) → Prog Q A S T E α → S → Prop
  | stop (p : Prog Q A S T E α) (s : S) : Path p s [] p s
  | ask {q : Q} {k : A q → Prog Q A S T E α} {s s' : S} {tr : List (S × T × S)}
      {p' : Prog Q A S T E α} (a : A q) (ha : allow q a) (h : Path (k a) s tr p' s') :
      Path (.ask q k) s tr p' s'
  | read {k : S → Prog Q A S T E α} {s s' : S} {tr : List (S × T × S)} {p' : Prog Q A S T E α}
      (h : Path (k s) s tr p' s') : Path (.read k) s tr p' s'
  | commit {t : T} {k : S → S → Prog Q A S T E α} {s s₁ s' : S} {tr : List (S × T × S)}
      {p' : Prog Q A S T E α} (ht : exec t s = .ok s₁) (h : Path (k s s₁) s₁ tr p' s') :
      Path (.commit t k) s ((s, t, s₁) :: tr) p' s'
  | refuse {t : T} {k : S → S → Prog Q A S T E α} {s : S} {e : E} (ht : exec t s = .error e) :
      Path (.commit t k) s [] (.fail e) s

/-- A run of `p` left alone, from `s` to its outcome `r` on `s'`. -/
def Runs (p : Prog Q A S T E α) (s : S) (tr : List (S × T × S)) (r : Except E α) (s' : S) : Prop :=
  Path allow exec p s tr (ofExcept r) s'

/-- Play `n` steps with the answers `ans` (indexed by the steps left). -/
def play (ans : ℕ → ∀ q, A q) : ℕ → Prog Q A S T E α → S → Prog Q A S T E α × S
  | 0, p, s => (p, s)
  | _ + 1, .ret a, s => (.ret a, s)
  | _ + 1, .fail e, s => (.fail e, s)
  | n + 1, .ask q k, s => play ans n (k (ans n q)) s
  | n + 1, .read k, s => play ans n (k s) s
  | n + 1, .commit t k, s =>
    match exec t s with
    | .ok s₁ => play ans n (k s s₁) s₁
    | .error e => (.fail e, s)

/-- The transactions that are committed on the way. -/
def playTrace (ans : ℕ → ∀ q, A q) : ℕ → Prog Q A S T E α → S → List (S × T × S)
  | 0, _, _ | _ + 1, .ret _, _ | _ + 1, .fail _, _ => []
  | n + 1, .ask q k, s => playTrace ans n (k (ans n q)) s
  | n + 1, .read k, s => playTrace ans n (k s) s
  | n + 1, .commit t k, s =>
    match exec t s with
    | .ok s₁ => (s, t, s₁) :: playTrace ans n (k s s₁) s₁
    | .error _ => []

/-- The outcome of a program that has ended. -/
def outcome? : Prog Q A S T E α → Option (Except E α)
  | .ret a => some (.ok a)
  | .fail e => some (.error e)
  | _ => none

theorem eq_ofExcept_of_outcome? {p : Prog Q A S T E α} {r : Except E α}
    (h : p.outcome? = some r) : p = ofExcept r := by
  cases p <;> simp only [outcome?, Option.some.injEq, reduceCtorEq] at h <;> subst h <;> rfl

variable {allow exec}

/-- **Played steps are a path.** -/
theorem path_play {ans : ℕ → ∀ q, A q} (hans : ∀ n q, allow q (ans n q)) :
    ∀ (n : ℕ) (p : Prog Q A S T E α) (s : S), Path allow exec p s (playTrace exec ans n p s)
      (play exec ans n p s).1 (play exec ans n p s).2
  | 0, p, s => .stop p s
  | _ + 1, .ret a, s => .stop _ s
  | _ + 1, .fail e, s => .stop _ s
  | n + 1, .ask q k, s => .ask _ (hans n q) (path_play hans n (k (ans n q)) s)
  | n + 1, .read k, s => .read (path_play hans n (k s) s)
  | n + 1, .commit t k, s => by
      rcases ht : exec t s with e | s₁
      · simp only [play, playTrace, ht]
        exact .refuse ht
      · simp only [play, playTrace, ht]
        exact .commit ht (path_play hans n (k s s₁) s₁)

/-- A program played to its end has run. -/
theorem runs_play {ans : ℕ → ∀ q, A q} (hans : ∀ n q, allow q (ans n q)) {n : ℕ}
    {p : Prog Q A S T E α} {s : S} {r : Except E α}
    (hr : (play exec ans n p s).1.outcome? = some r) :
    Runs allow exec p s (playTrace exec ans n p s) r (play exec ans n p s).2 := by
  have h : Path allow exec p s (playTrace exec ans n p s) (play exec ans n p s).1
    (play exec ans n p s).2 := path_play hans n p s
  rwa [eq_ofExcept_of_outcome? hr] at h

end Path

/-! ## Reasoning -/

/-- What a program is reasoned about under: the answers the world may give, the transactions'
effect, the invariant of the store, what others may do between two actions of the program (`rely`),
what each of its transactions must do in return (`guar`), and the condition its transactions are
assumed to meet. -/
structure Setting (Q : Type) (A : Q → Type) (S T E : Type) where
  allow : ∀ q, A q → Prop
  exec : T → S → Except E S
  inv : S → Prop
  rely : S → S → Prop
  guar : S → T → S → Prop
  cond : S → T → Prop

variable (V : Setting Q A S T E)

/-- The weakest precondition of `p` for the postcondition `R`, keeping the setting's invariant and
guarantee on the way. -/
def wp : Prog Q A S T E α → (Except E α → S → Prop) → S → Prop
  | ret a, R, s => R (.ok a) s
  | fail e, R, s => R (.error e) s
  | ask q k, R, s => ∀ a, V.allow q a → wp (k a) R s
  | read k, R, s => ∀ s', V.inv s' → V.rely s s' → wp (k s') R s'
  | commit t k, R, s => ∀ s', V.inv s' → V.rely s s' →
      (∀ s'', V.cond s' t → V.exec t s' = .ok s'' →
          V.inv s'' ∧ V.guar s' t s'' ∧ wp (k s' s'') R s'')
        ∧ ∀ e, V.exec t s' = .error e → R (.error e) s'

/-- The postcondition of the first half of `p >>= f`. -/
def thenPost (f : α → Prog Q A S T E β) (R : Except E β → S → Prop) : Except E α → S → Prop
  | .ok a, s => wp V (f a) R s
  | .error e, s => R (.error e) s

/-- The postcondition of a loop body: a value that satisfies `I`, or a failure that satisfies
`R`. -/
def orFail (I : α → S → Prop) (R : Except E β → S → Prop) : Except E α → S → Prop
  | .ok a, s => I a s
  | .error e, s => R (.error e) s

variable {V}

/-- **The rule of consequence.** -/
theorem wp_mono {R R' : Except E α → S → Prop} (h : ∀ r s, R r s → R' r s) :
    ∀ {p : Prog Q A S T E α} {s : S}, wp V p R s → wp V p R' s
  | ret _, _, hp => h _ _ hp
  | fail _, _, hp => h _ _ hp
  | ask _ _, _, hp => fun a ha => wp_mono h (hp a ha)
  | read _, _, hp => fun s' hi hr => wp_mono h (hp s' hi hr)
  | commit _ _, _, hp => fun s' hi hr =>
      ⟨fun s'' hc hs =>
          have ⟨hi', hg, hk⟩ := (hp s' hi hr).1 s'' hc hs
          ⟨hi', hg, wp_mono h hk⟩,
        fun e he => h _ _ ((hp s' hi hr).2 e he)⟩

/-- **The rule of sequence.** -/
theorem wp_bind {R : Except E β → S → Prop} {f : α → Prog Q A S T E β} :
    ∀ {p : Prog Q A S T E α} {s : S}, wp V p (thenPost V f R) s → wp V (p >>= f) R s
  | ret _, _, hp => hp
  | fail _, _, hp => hp
  | ask _ _, _, hp => fun a ha => wp_bind (hp a ha)
  | read _, _, hp => fun s' hi hr => wp_bind (hp s' hi hr)
  | commit _ _, _, hp => fun s' hi hr =>
      ⟨fun s'' hc hs =>
          have ⟨hi', hg, hk⟩ := (hp s' hi hr).1 s'' hc hs
          ⟨hi', hg, wp_bind hk⟩,
        fun e he => (hp s' hi hr).2 e he⟩

/-- **The rule of loops.** -/
theorem wp_each {f : β → Prog Q A S T E Unit} {I : S → Prop} {R : Except E Unit → S → Prop}
    (hdone : ∀ s, I s → R (.ok ()) s) :
    ∀ {l : List β} {s : S},
      (∀ b ∈ l, ∀ s, I s → wp V (f b) (orFail (fun _ => I) R) s) → I s → wp V (each f l) R s
  | [], s, _, hi => hdone s hi
  | b :: l, s, hf, hi => by
      refine wp_bind (wp_mono (fun r s' h => ?_) (hf b List.mem_cons_self s hi))
      cases r with
      | ok _ => exact wp_each hdone (fun b' hb' => hf b' (List.mem_cons_of_mem _ hb')) h
      | error e => exact h

/-- The rule of loops that thread a value. -/
theorem wp_foldEach {f : γ → β → Prog Q A S T E γ} {I : γ → S → Prop}
    {R : Except E γ → S → Prop} (hdone : ∀ c s, I c s → R (.ok c) s) :
    ∀ {l : List β} {c : γ} {s : S},
      (∀ c, ∀ b ∈ l, ∀ s, I c s → wp V (f c b) (orFail I R) s) → I c s →
        wp V (foldEach f c l) R s
  | [], c, s, _, hi => hdone c s hi
  | b :: l, c, s, hf, hi => by
      refine wp_bind (wp_mono (fun r s' h => ?_) (hf c b List.mem_cons_self s hi))
      cases r with
      | ok c' => exact wp_foldEach hdone (fun c b' hb' => hf c b' (List.mem_cons_of_mem _ hb')) h
      | error e => exact h

/-- **What `wp` promises, a path keeps.** -/
theorem wp_of_path (hrefl : ∀ s, V.rely s s) {R : Except E α → S → Prop}
    {p p' : Prog Q A S T E α} {s s' : S} {tr : List (S × T × S)}
    (h : Path V.allow V.exec p s tr p' s') (hc : ∀ x ∈ tr, V.cond x.1 x.2.1) (hi : V.inv s)
    (hp : wp V p R s) : V.inv s' ∧ wp V p' R s' := by
  induction h with
  | stop p s => exact ⟨hi, hp⟩
  | ask a ha _ ih => exact ih hc hi (hp a ha)
  | read _ ih => exact ih hc hi (hp _ hi (hrefl _))
  | commit ht _ ih =>
    obtain ⟨hi', -, hp'⟩ := (hp _ hi (hrefl _)).1 _ (hc _ List.mem_cons_self) ht
    exact ih (fun x hx => hc x (List.mem_cons_of_mem _ hx)) hi' hp'
  | refuse ht => exact ⟨hi, (hp _ hi (hrefl _)).2 _ ht⟩

/-- A run ends in the postcondition. -/
theorem post_of_runs (hrefl : ∀ s, V.rely s s) {R : Except E α → S → Prop}
    {p : Prog Q A S T E α} {s s' : S} {tr : List (S × T × S)} {r : Except E α}
    (h : Runs V.allow V.exec p s tr r s') (hc : ∀ x ∈ tr, V.cond x.1 x.2.1) (hi : V.inv s)
    (hp : wp V p R s) : V.inv s' ∧ R r s' := by
  obtain ⟨hi', hp'⟩ := wp_of_path hrefl h hc hi hp
  cases r with
  | ok a => exact ⟨hi', hp'⟩
  | error e => exact ⟨hi', hp'⟩

/-! ### Programs judged by their transactions alone -/

/-- Every transaction `p` can come to commit satisfies `P`, and every value it can return `R`,
whatever the store holds. -/
def Commits (allow : ∀ q, A q → Prop) (P : T → Prop) (R : α → Prop) :
    Prog Q A S T E α → Prop
  | ret a => R a
  | fail _ => True
  | ask q k => ∀ a, allow q a → (k a).Commits allow P R
  | read k => ∀ s, (k s).Commits allow P R
  | commit t k => P t ∧ ∀ s s', (k s s').Commits allow P R

/-- **Sequencing.** -/
theorem commits_bind {allow : ∀ q, A q → Prop} {P : T → Prop} {R : α → Prop} {R' : β → Prop}
    {f : α → Prog Q A S T E β} (hf : ∀ a, R a → (f a).Commits allow P R') :
    ∀ {p : Prog Q A S T E α}, p.Commits allow P R → (p >>= f).Commits allow P R'
  | ret _, h => hf _ h
  | fail _, _ => trivial
  | ask _ _, h => fun a ha => commits_bind hf (h a ha)
  | read _, h => fun s => commits_bind hf (h s)
  | commit _ _, h => ⟨h.1, fun s s' => commits_bind hf (h.2 s s')⟩

/-- Weaker judgements follow. -/
theorem commits_mono {allow : ∀ q, A q → Prop} {P P' : T → Prop} {R R' : α → Prop}
    (hP : ∀ t, P t → P' t) (hR : ∀ a, R a → R' a) :
    ∀ {p : Prog Q A S T E α}, p.Commits allow P R → p.Commits allow P' R'
  | ret _, h => hR _ h
  | fail _, _ => trivial
  | ask _ _, h => fun a ha => commits_mono hP hR (h a ha)
  | read _, h => fun s => commits_mono hP hR (h s)
  | commit _ _, h => ⟨hP _ h.1, fun s s' => commits_mono hP hR (h.2 s s')⟩

/-- Two judgements are one. -/
theorem commits_and {allow : ∀ q, A q → Prop} {P P' : T → Prop} {R R' : α → Prop} :
    ∀ {p : Prog Q A S T E α}, p.Commits allow P R → p.Commits allow P' R' →
      p.Commits allow (fun t => P t ∧ P' t) fun a => R a ∧ R' a
  | ret _, h, h' => ⟨h, h'⟩
  | fail _, _, _ => trivial
  | ask _ _, h, h' => fun a ha => commits_and (h a ha) (h' a ha)
  | read _, h, h' => fun s => commits_and (h s) (h' s)
  | commit _ _, h, h' => ⟨⟨h.1, h'.1⟩, fun s s' => commits_and (h.2 s s') (h'.2 s s')⟩

/-- A loop commits what each round does. -/
theorem commits_each {allow : ∀ q, A q → Prop} {P : T → Prop} {f : β → Prog Q A S T E Unit} :
    ∀ {l : List β}, (∀ b ∈ l, (f b).Commits allow P fun _ => True) →
      (each f l).Commits allow P fun _ => True
  | [], _ => trivial
  | b :: _, h =>
    commits_bind (fun _ _ => commits_each fun b' hb' => h b' (List.mem_cons_of_mem _ hb'))
      (h b List.mem_cons_self)

/-- So does a loop with an accumulator. -/
theorem commits_foldEach {allow : ∀ q, A q → Prop} {P : T → Prop} {I : γ → Prop}
    {f : γ → β → Prog Q A S T E γ} :
    ∀ {l : List β} {c : γ}, (∀ c, I c → ∀ b ∈ l, (f c b).Commits allow P I) → I c →
      (foldEach f c l).Commits allow P I
  | [], _, _, hc => hc
  | b :: _, c, h, hc =>
    commits_bind
      (fun _ hc' =>
        commits_foldEach (fun c hc b' hb' => h c hc b' (List.mem_cons_of_mem _ hb')) hc')
      (h c hc b List.mem_cons_self)

/-- **A program is safe when its transactions are**: each keeps the invariant and the guarantee on
its own, and what is known of the store besides (`I`). -/
theorem wp_of_commits_keeping {I : S → Prop} {P : T → Prop} {R : α → Prop}
    (hstep : ∀ s t s', P t → V.inv s → I s → V.cond s t → V.exec t s = .ok s' →
      V.inv s' ∧ V.guar s t s' ∧ I s')
    (hstable : ∀ s s', V.inv s' → V.rely s s' → I s → I s') :
    ∀ {p : Prog Q A S T E α} {s : S}, p.Commits V.allow P R → I s →
      wp V p (fun r s => I s ∧ ∀ a, r = .ok a → R a) s
  | ret _, _, h, hI => ⟨hI, fun _ ha => Except.ok.inj ha ▸ h⟩
  | fail _, _, _, hI => ⟨hI, nofun⟩
  | ask _ _, _, h, hI => fun a ha => wp_of_commits_keeping hstep hstable (h a ha) hI
  | read _, _, h, hI => fun s' hi hr =>
      wp_of_commits_keeping hstep hstable (h s') (hstable _ s' hi hr hI)
  | commit _ _, _, h, hI => fun s' hi hr =>
      ⟨fun s'' hc hs =>
          have ⟨hi', hg, hI'⟩ := hstep s' _ s'' h.1 hi (hstable _ s' hi hr hI) hc hs
          ⟨hi', hg, wp_of_commits_keeping hstep hstable (h.2 s' s'') hI'⟩,
        fun _ _ => ⟨hstable _ s' hi hr hI, nofun⟩⟩

theorem wp_of_commits {P : T → Prop} {R : α → Prop}
    (hstep : ∀ s t s', P t → V.inv s → V.cond s t → V.exec t s = .ok s' →
      V.inv s' ∧ V.guar s t s')
    {p : Prog Q A S T E α} {s : S} (h : p.Commits V.allow P R) : wp V p (fun _ _ => True) s :=
  wp_mono (fun _ _ _ => trivial) (wp_of_commits_keeping (I := fun _ => True)
    (fun s t s' ht hi _ hc hs => have ⟨h₁, h₂⟩ := hstep s t s' ht hi hc hs; ⟨h₁, h₂, trivial⟩)
    (fun _ _ _ _ _ => trivial) h trivial)

/-- A program that only asks and reads keeps what others keep. -/
theorem wp_of_silent {I : S → Prop} {R : α → Prop}
    (hstable : ∀ s s', V.inv s' → V.rely s s' → I s → I s') {p : Prog Q A S T E α} {s : S}
    (h : p.Commits V.allow (fun _ => False) R) (hI : I s) :
    wp V p (fun r s => I s ∧ ∀ a, r = .ok a → R a) s :=
  wp_of_commits_keeping (fun _ _ _ ht => ht.elim) hstable h hI

/-- Others may move the store before a program that is judged by its transactions alone. -/
theorem wp_stable (htrans : ∀ s₁ s₂ s₃, V.rely s₁ s₂ → V.rely s₂ s₃ → V.rely s₁ s₃) :
    ∀ {p : Prog Q A S T E α} {s s' : S}, V.rely s s' → wp V p (fun _ _ => True) s →
      wp V p (fun _ _ => True) s'
  | ret _, _, _, _, _ => trivial
  | fail _, _, _, _, _ => trivial
  | ask _ _, _, _, hr, hp => fun a ha => wp_stable htrans hr (hp a ha)
  | read _, _, _, hr, hp => fun s₂ hi hr' => hp s₂ hi (htrans _ _ _ hr hr')
  | commit _ _, _, _, hr, hp => fun s₂ hi hr' => hp s₂ hi (htrans _ _ _ hr hr')

/-! ### Programs that are safe wherever they start -/

/-- The program is safe from every store. -/
def Anywhere (V : Setting Q A S T E) (p : Prog Q A S T E α) : Prop :=
  ∀ s, wp V p (fun _ _ => True) s

theorem anywhere_of_commits {P : T → Prop} {R : α → Prop}
    (hstep : ∀ s t s', P t → V.inv s → V.cond s t → V.exec t s = .ok s' →
      V.inv s' ∧ V.guar s t s')
    {p : Prog Q A S T E α} (h : p.Commits V.allow P R) : Anywhere V p :=
  fun _ => wp_of_commits hstep h

/-- Safe programs, one after the other. -/
theorem anywhere_bind {p : Prog Q A S T E α} {f : α → Prog Q A S T E β} (hp : Anywhere V p)
    (hf : ∀ a, Anywhere V (f a)) : Anywhere V (p >>= f) := by
  refine fun s => wp_bind (wp_mono (fun r s' _ => ?_) (hp s))
  cases r with
  | ok a => exact hf a s'
  | error e => exact trivial

/-- A loop of safe rounds. -/
theorem anywhere_each {f : β → Prog Q A S T E Unit} (hf : ∀ b, Anywhere V (f b)) :
    ∀ l : List β, Anywhere V (each f l)
  | [], _ => trivial
  | b :: l, s => anywhere_bind (hf b) (fun _ => anywhere_each hf l) s

/-- A loop with an accumulator, too. -/
theorem anywhere_foldEach {f : γ → β → Prog Q A S T E γ} (hf : ∀ c b, Anywhere V (f c b)) :
    ∀ (l : List β) (c : γ), Anywhere V (foldEach f c l)
  | [], _, _ => trivial
  | b :: l, c, s => anywhere_bind (hf c b) (fun c' => anywhere_foldEach hf l c') s

end Prog
