import Mathlib.Data.List.DropRight
import Permanode.Foundations.Interleaving

/-!
# Foundations/History — a thread and what was committed so far

What a thread read some actions ago is past; what it knows of the present it knows through the
transactions committed since.  `watch` is `wp` with the history in place of the store: between two
actions of the program others may add their transactions to it, and at each commit of its own the
program owes a fact about it (`Run.watched`).

`Chained` ties the history of a run to its stores.
-/

namespace Prog

variable {Q : Type} {A : Q → Type} {S T E ι α β γ : Type} [DecidableEq ι]

/-! ## Histories -/

/-- Transactions one after the other, from one store to another. -/
def Chained (s : S) : List (S × T × S) → S → Prop
  | [], s' => s = s'
  | x :: tr, s' => x.1 = s ∧ Chained x.2.2 tr s'

theorem chained_append {s s' : S} {tr tr' : List (S × T × S)} :
    Chained s (tr ++ tr') s' ↔ ∃ s₁, Chained s tr s₁ ∧ Chained s₁ tr' s' := by
  induction tr generalizing s with
  | nil => exact ⟨fun h => ⟨s, rfl, h⟩, fun ⟨_, rfl, h⟩ => h⟩
  | cons x tr ih =>
    rw [List.cons_append, Chained, ih]
    constructor
    · rintro ⟨hx, s₁, h, h'⟩
      exact ⟨s₁, ⟨hx, h⟩, h'⟩
    · rintro ⟨s₁, ⟨hx, h⟩, h'⟩
      exact ⟨hx, s₁, h, h'⟩

/-- What every transaction hands on holds at the end. -/
theorem Chained.carries {P : S → Prop} : ∀ {tr : List (S × T × S)} {s s' : S},
    Chained s tr s' → (∀ x ∈ tr, P x.1 → P x.2.2) → P s → P s'
  | [], _, _, h, _, hs => h ▸ hs
  | x :: _, _, _, h, hstep, hs =>
    h.2.carries (fun y hy => hstep y (List.mem_cons_of_mem _ hy))
      (hstep x List.mem_cons_self (h.1 ▸ hs))

/-- **The transactions of a run lead from its first store to its last.** -/
theorem Run.chained {jobs : ι → Prog Q A S T E Unit → Prop} {allow : ∀ q, A q → Prop}
    {exec : T → S → Except E S} {c₀ c : Config Q A S T E ι} {tr : List (S × T × S)}
    (h : Run jobs allow exec c₀ tr c) : Chained c₀.store tr c.store := by
  induction h with
  | init => exact rfl
  | silent _ hs ih =>
    cases hs with
    | start | ask | read | halt => exact ih
  | commit _ hs ih =>
    cases hs with
    | commit => exact chained_append.mpr ⟨_, ih, rfl, rfl⟩

/-! ## The judgement -/

/-- What a thread is watched under: the answers it may get, the transactions' effect, what others
may commit, and what must hold of the history at each of its own commits. -/
structure Watch (Q : Type) (A : Q → Type) (S T E : Type) where
  allow : ∀ q, A q → Prop
  exec : T → S → Except E S
  others : T → Prop
  guar : List (S × T × S) → T → Prop

/-- Transactions that others may commit. -/
def Watch.Foreign (W : Watch Q A S T E) (more : List (S × T × S)) : Prop :=
  ∀ x ∈ more, W.others x.2.1

variable (W : Watch Q A S T E)

/-- The program `p`, on the history `h`, keeps the guarantee and ends with `R`. -/
def watch : Prog Q A S T E α → (α → List (S × T × S) → Prop) → List (S × T × S) → Prop
  | ret a, R, h => R a h
  | fail _, _, _ => True
  | ask q k, R, h => ∀ a, W.allow q a → watch (k a) R h
  | read k, R, h => ∀ more, W.Foreign more → ∀ s, watch (k s) R (h ++ more)
  | commit t k, R, h => ∀ more, W.Foreign more → W.guar (h ++ more) t
      ∧ ∀ s s', W.exec t s = .ok s' → watch (k s s') R (h ++ more ++ [(s, t, s')])

variable {W}

theorem watch_mono {R R' : α → List (S × T × S) → Prop} (hR : ∀ a h, R a h → R' a h) :
    ∀ {p : Prog Q A S T E α} {h : List (S × T × S)}, watch W p R h → watch W p R' h
  | ret _, _, hp => hR _ _ hp
  | fail _, _, _ => trivial
  | ask _ _, _, hp => fun a ha => watch_mono hR (hp a ha)
  | read _, _, hp => fun more hm s => watch_mono hR (hp more hm s)
  | commit _ _, _, hp => fun more hm =>
      ⟨(hp more hm).1, fun s s' he => watch_mono hR ((hp more hm).2 s s' he)⟩

/-- **The rule of sequence.** -/
theorem watch_bind {R : β → List (S × T × S) → Prop} {f : α → Prog Q A S T E β} :
    ∀ {p : Prog Q A S T E α} {h : List (S × T × S)},
      watch W p (fun a h => watch W (f a) R h) h → watch W (p >>= f) R h
  | ret _, _, hp => hp
  | fail _, _, _ => trivial
  | ask _ _, _, hp => fun a ha => watch_bind (hp a ha)
  | read _, _, hp => fun more hm s => watch_bind (hp more hm s)
  | commit _ _, _, hp => fun more hm =>
      ⟨(hp more hm).1, fun s s' he => watch_bind ((hp more hm).2 s s' he)⟩

/-- **A program judged by its transactions alone** keeps what each of them and the others keep. -/
theorem watch_of_commits {I : List (S × T × S) → Prop} {P : T → Prop} {R : α → Prop}
    (hstep : ∀ h t s s', P t → I h → W.exec t s = .ok s' → I (h ++ [(s, t, s')]))
    (hguar : ∀ h t, P t → I h → W.guar h t)
    (hstable : ∀ h more, W.Foreign more → I h → I (h ++ more)) :
    ∀ {p : Prog Q A S T E α} {h : List (S × T × S)}, p.Commits W.allow P R → I h →
      watch W p (fun a h => I h ∧ R a) h
  | ret _, _, hp, hI => ⟨hI, hp⟩
  | fail _, _, _, _ => trivial
  | ask _ _, _, hp, hI => fun a ha => watch_of_commits hstep hguar hstable (hp a ha) hI
  | read _, _, hp, hI => fun more hm s =>
      watch_of_commits hstep hguar hstable (hp s) (hstable _ more hm hI)
  | commit _ _, _, hp, hI => fun more hm =>
      have hI' := hstable _ more hm hI
      ⟨hguar _ _ hp.1 hI', fun s s' he =>
        watch_of_commits hstep hguar hstable (hp.2 s s') (hstep _ _ s s' hp.1 hI' he)⟩

/-- A program that only asks and reads keeps what others keep. -/
theorem watch_of_silent {I : List (S × T × S) → Prop} {R : α → Prop}
    (hstable : ∀ h more, W.Foreign more → I h → I (h ++ more)) {p : Prog Q A S T E α}
    {h : List (S × T × S)} (hp : p.Commits W.allow (fun _ => False) R) (hI : I h) :
    watch W p (fun a h => I h ∧ R a) h :=
  watch_of_commits (fun _ _ _ _ ht => ht.elim) (fun _ _ ht => ht.elim) hstable hp hI

/-- Others may add to the history first. -/
theorem watch_stable : ∀ {p : Prog Q A S T E α} {h more : List (S × T × S)}, W.Foreign more →
    watch W p (fun _ _ => True) h → watch W p (fun _ _ => True) (h ++ more)
  | ret _, _, _, _, _ => trivial
  | fail _, _, _, _, _ => trivial
  | ask _ _, _, _, hm, hp => fun a ha => watch_stable hm (hp a ha)
  | read _, _, _, hm, hp => fun more' hm' s => by
      rw [List.append_assoc]
      exact hp _ (List.forall_mem_append.mpr ⟨hm, hm'⟩) s
  | commit _ _, _, _, hm, hp => fun more' hm' => by
      rw [List.append_assoc]
      exact hp _ (List.forall_mem_append.mpr ⟨hm, hm'⟩)

/-- **The rule of histories.**  Where a thread starts, the history of the run watches it from then
on. -/
theorem Run.watched {jobs : ι → Prog Q A S T E Unit → Prop} {allow : ∀ q, A q → Prop}
    {exec : T → S → Except E S} {others : T → Prop} {guar : List (S × T × S) → T → Prop} (i : ι)
    (hjobs : ∀ p h, jobs i p → watch ⟨allow, exec, others, guar⟩ p (fun _ _ => True) h)
    (hothers : ∀ j p, j ≠ i → jobs j p → p.Commits allow others fun _ => True)
    {s₀ : S} {tr : List (S × T × S)} {c : Config Q A S T E ι}
    (h : Run jobs allow exec (Config.idle s₀) tr c) :
    (∀ p, c.thread i = some p → watch ⟨allow, exec, others, guar⟩ p (fun _ _ => True) tr)
      ∧ ∀ j p, j ≠ i → c.thread j = some p → p.Commits allow others fun _ => True := by
  -- both halves at once, as one property of each thread
  let P : List (S × T × S) → ι → Prog Q A S T E Unit → Prop := fun tr j p =>
    (j = i → watch ⟨allow, exec, others, guar⟩ p (fun _ _ => True) tr)
      ∧ (j ≠ i → p.Commits allow others fun _ => True)
  suffices hall : ∀ j p, c.thread j = some p → P tr j p from
    ⟨fun p hp => (hall i p hp).1 rfl, fun j p hj hp => (hall j p hp).2 hj⟩
  induction h with
  | init => exact fun j p hp => absurd hp (by simp [Config.idle])
  | silent _ hs ih =>
    cases hs with
    | start k p hidle hp =>
      refine forall_thread_update (fun j q _ hj => ih j q hj) fun q hq => ?_
      obtain rfl := Option.some.inj hq
      exact ⟨fun hk => hjobs _ _ (hk ▸ hp), fun hk => hothers k _ hk hp⟩
    | ask k hth a ha =>
      refine forall_thread_update (fun j q _ hj => ih j q hj) fun q hq => ?_
      obtain rfl := Option.some.inj hq
      exact ⟨fun hk => (ih k _ hth).1 hk a ha, fun hk => (ih k _ hth).2 hk a ha⟩
    | read k hth =>
      refine forall_thread_update (fun j q _ hj => ih j q hj) fun q hq => ?_
      obtain rfl := Option.some.inj hq
      refine ⟨fun hk => ?_, fun hk => (ih k _ hth).2 hk _⟩
      have hread := (ih k _ hth).1 hk [] (List.forall_mem_nil _)
      rw [List.append_nil] at hread
      exact hread _
    | halt k =>
      refine forall_thread_update (fun j q _ hj => ih j q hj) fun q hq => ?_
      exact absurd hq.symm (Option.some_ne_none q)
  | commit _ hs ih =>
    cases hs with
    | commit k hth hexec =>
      refine forall_thread_update (fun j q hne hj => ⟨fun hji => ?_, (ih j q hj).2⟩) fun q hq => ?_
      · -- another thread's transaction is added to the watched thread's history
        have hk : k ≠ i := fun hki => hne (hji.trans hki.symm)
        exact watch_stable (List.forall_mem_singleton.mpr ((ih k _ hth).2 hk).1) ((ih j q hj).1 hji)
      · obtain rfl := Option.some.inj hq
        refine ⟨fun hk => ?_, fun hk => ((ih k _ hth).2 hk).2 _ _⟩
        have hown := ((ih k _ hth).1 hk [] (List.forall_mem_nil _)).2 _ _ hexec
        rwa [List.append_nil] at hown

end Prog
