import Permanode.Foundations.Interleaving

/-!
# Foundations/Script — a script that every opener of a store runs through

Each statement `T` of a script gives the store `S` some facts `F` and needs others.  It is `Lasting`
where it does nothing once its facts stand, and no statement takes back a fact once given.  Two
results:

* `exists_runAll` — a script that is not `missing` anything runs through, and its facts stand;
* `run_openers` — many run it at once, each cut off anywhere and starting over, among transactions
  that do not touch the facts: none is ever refused (`Underway.next`), and once one is through
  (`holds_of_through`), no other changes anything (`Underway.idle`).
-/

namespace Script

open Prog

variable {S T E F : Type}

/-- A statement that gives its facts, needs `needs`, and is idle where the facts stand already. -/
structure Lasting (exec : T → S → Except E S) (holds : F → S → Prop) (good : S → Prop)
    (kept : F → Prop) (needs gives : T → List F) (t : T) : Prop where
  sound : ∀ {s s'}, good s → exec t s = .ok s' → good s'
  brings : ∀ {s s'}, good s → exec t s = .ok s' → ∀ f ∈ gives t, holds f s'
  idle : ∀ {s}, good s → (∀ f ∈ gives t, holds f s) → exec t s = .ok s
  keeps : ∀ {s s'}, good s → exec t s = .ok s' → ∀ f, kept f → holds f s → holds f s'
  runs : ∀ {s}, good s → (∀ f ∈ needs t, holds f s) → ∃ s', exec t s = .ok s'
  kept_needs : ∀ f ∈ needs t, kept f
  kept_gives : ∀ f ∈ gives t, kept f

/-- Statement after statement, up to the first that fails. -/
def runAll (exec : T → S → Except E S) (l : List T) (s : S) : Except E S :=
  l.foldlM (fun s t => exec t s) s

/-- What a script needs and does not give itself before. -/
def missing [DecidableEq F] (needs gives : T → List F) : List T → List F
  | [] => []
  | t :: l => needs t ++ (missing needs gives l).filter fun f => !decide (f ∈ gives t)

variable {exec : T → S → Except E S} {holds : F → S → Prop} {good : S → Prop} {kept : F → Prop}
  {needs gives : T → List F} {t : T} {l : List T} {s s' : S}

theorem runAll_cons : runAll exec (t :: l) s = exec t s >>= runAll exec l := rfl

theorem runAll_cons_ok : runAll exec (t :: l) s = .ok s'
    ↔ ∃ s₁, exec t s = .ok s₁ ∧ runAll exec l s₁ = .ok s' := by
  rw [runAll_cons]
  rcases exec t s with e | s₁
  · constructor
    · intro h
      cases h
    · rintro ⟨_, h, -⟩
      cases h
  · constructor
    · exact fun h => ⟨s₁, rfl, h⟩
    · rintro ⟨_, h, h'⟩
      exact Except.ok.inj h ▸ h'

/-! ## A script as one statement -/

theorem good_runAll (hl : ∀ t ∈ l, Lasting exec holds good kept needs gives t) (hs : good s)
    (h : runAll exec l s = .ok s') : good s' := by
  induction l generalizing s with
  | nil => exact Except.ok.inj h ▸ hs
  | cons t l ih =>
    obtain ⟨s₁, h₁, h₂⟩ := runAll_cons_ok.mp h
    obtain ⟨ht, hl⟩ := List.forall_mem_cons.mp hl
    exact ih hl (ht.sound hs h₁) h₂

theorem keeps_runAll (hl : ∀ t ∈ l, Lasting exec holds good kept needs gives t) (hs : good s)
    (h : runAll exec l s = .ok s') {f : F} (hf : kept f) (hold : holds f s) : holds f s' := by
  induction l generalizing s with
  | nil => exact Except.ok.inj h ▸ hold
  | cons t l ih =>
    obtain ⟨s₁, h₁, h₂⟩ := runAll_cons_ok.mp h
    obtain ⟨ht, hl⟩ := List.forall_mem_cons.mp hl
    exact ih hl (ht.sound hs h₁) h₂ (ht.keeps hs h₁ f hf hold)

theorem gives_runAll (hl : ∀ t ∈ l, Lasting exec holds good kept needs gives t) (hs : good s)
    (h : runAll exec l s = .ok s') : ∀ f ∈ l.flatMap gives, holds f s' := by
  induction l generalizing s with
  | nil => exact List.forall_mem_nil _
  | cons t l ih =>
    obtain ⟨s₁, h₁, h₂⟩ := runAll_cons_ok.mp h
    obtain ⟨ht, hl⟩ := List.forall_mem_cons.mp hl
    intro f hf
    rcases List.mem_append.mp (List.flatMap_cons ▸ hf) with hf | hf
    · exact keeps_runAll hl (ht.sound hs h₁) h₂ (ht.kept_gives f hf) (ht.brings hs h₁ f hf)
    · exact ih hl (ht.sound hs h₁) h₂ f hf

theorem idle_runAll (hl : ∀ t ∈ l, Lasting exec holds good kept needs gives t) (hs : good s)
    (hf : ∀ f ∈ l.flatMap gives, holds f s) : runAll exec l s = .ok s := by
  induction l with
  | nil => rfl
  | cons t l ih =>
    obtain ⟨ht, hl⟩ := List.forall_mem_cons.mp hl
    rw [List.flatMap_cons, List.forall_mem_append] at hf
    exact runAll_cons_ok.mpr ⟨s, ht.idle hs hf.1, ih hl hf.2⟩

theorem kept_given (hl : ∀ t ∈ l, Lasting exec holds good kept needs gives t) :
    ∀ f ∈ l.flatMap gives, kept f := by
  intro f hf
  obtain ⟨t, ht, hf⟩ := List.mem_flatMap.mp hf
  exact (hl t ht).kept_gives f hf

variable [DecidableEq F]

theorem mem_missing_cons {f : F} : f ∈ missing needs gives (t :: l)
    ↔ f ∈ needs t ∨ f ∈ missing needs gives l ∧ f ∉ gives t := by
  rw [missing, List.mem_append, List.mem_filter, Bool.not_eq_true', decide_eq_false_iff_not]

theorem kept_missing (hl : ∀ t ∈ l, Lasting exec holds good kept needs gives t) :
    ∀ f ∈ missing needs gives l, kept f := by
  induction l with
  | nil => exact List.forall_mem_nil _
  | cons t l ih =>
    obtain ⟨ht, hl⟩ := List.forall_mem_cons.mp hl
    intro f hf
    rcases mem_missing_cons.mp hf with hf | ⟨hf, -⟩
    · exact ht.kept_needs f hf
    · exact ih hl f hf

/-- **A script runs through** where what it is missing stands. -/
theorem exists_runAll (hl : ∀ t ∈ l, Lasting exec holds good kept needs gives t) (hs : good s)
    (hf : ∀ f ∈ missing needs gives l, holds f s) : ∃ s', runAll exec l s = .ok s' := by
  induction l generalizing s with
  | nil => exact ⟨s, rfl⟩
  | cons t l ih =>
    obtain ⟨ht, hl⟩ := List.forall_mem_cons.mp hl
    obtain ⟨s₁, h₁⟩ := ht.runs hs fun f h => hf f (mem_missing_cons.mpr (Or.inl h))
    have hrest : ∀ f ∈ missing needs gives l, holds f s₁ := by
      intro f h
      by_cases hgiven : f ∈ gives t
      · exact ht.brings hs h₁ f hgiven
      · exact ht.keeps hs h₁ f (kept_missing hl f h)
          (hf f (mem_missing_cons.mpr (Or.inr ⟨h, hgiven⟩)))
    obtain ⟨s₂, h₂⟩ := ih hl (ht.sound hs h₁) hrest
    exact ⟨s₂, runAll_cons_ok.mpr ⟨s₁, h₁, h₂⟩⟩

/-- **Statements run as one transaction are one statement.** -/
theorem Lasting.batch (hl : ∀ t ∈ l, Lasting exec holds good kept needs gives t) :
    Lasting (runAll exec) holds good kept (missing needs gives) (List.flatMap gives) l where
  sound := good_runAll hl
  brings := gives_runAll hl
  idle := idle_runAll hl
  keeps hs h _ hf hold := keeps_runAll hl hs h hf hold
  runs := exists_runAll hl
  kept_needs := kept_missing hl
  kept_gives := kept_given hl

/-! ## Many openers -/

section Openers

variable {Q ι : Type} {A : Q → Type} [DecidableEq ι]

/-- An opener commits one statement after the other. -/
def opener (l : List T) : Prog Q A S T E Unit := Prog.each Prog.transact l

/-- What is left of an opener that has run through `done`. -/
def Underway (holds : F → S → Prop) (gives : T → List F) (l : List T) (p : Prog Q A S T E Unit)
    (s : S) : Prop :=
  ∃ done rest, l = done ++ rest ∧ p = opener rest ∧ ∀ f ∈ done.flatMap gives, holds f s

variable {jobs : ι → Prog Q A S T E Unit → Prop} {allow : ∀ q, A q → Prop} {others : T → Prop}
  {s₀ : S} {tr : List (S × T × S)} {c : Config Q A S T E ι}

/-- What an opener needs next stands. -/
theorem holds_needs {done rest : List T} (hnone : missing needs gives (done ++ t :: rest) = [])
    (hf : ∀ f ∈ done.flatMap gives, holds f s) : ∀ f ∈ needs t, holds f s := by
  intro f hneeds
  by_contra hnot
  have hmissing : ∀ l : List T, (∀ f ∈ l.flatMap gives, holds f s) →
      f ∈ missing needs gives (l ++ t :: rest) := by
    intro l hl
    induction l with
    | nil => exact mem_missing_cons.mpr (Or.inl hneeds)
    | cons u l ih =>
      rw [List.flatMap_cons, List.forall_mem_append] at hl
      exact mem_missing_cons.mpr (Or.inr ⟨ih hl.2, fun hgiven => hnot (hl.1 f hgiven)⟩)
  exact absurd (hnone ▸ hmissing done hf) List.not_mem_nil

omit [DecidableEq F] [DecidableEq ι] in
theorem underway_commit {k : S → S → Prog Q A S T E Unit}
    (h : Underway holds gives l (.commit t k) s) : ∃ done rest, l = done ++ t :: rest
      ∧ (k = fun _ _ => opener rest) ∧ ∀ f ∈ done.flatMap gives, holds f s := by
  obtain ⟨done, rest, rfl, hp, hf⟩ := h
  match rest, hp with
  | u :: rest, hp =>
    obtain ⟨rfl, rfl⟩ := Prog.commit.inj hp
    exact ⟨done, rest, rfl, rfl, hf⟩

omit [DecidableEq F] [DecidableEq ι] in
theorem not_underway_ask {q : Q} {k : A q → Prog Q A S T E Unit} :
    ¬ Underway holds gives l (.ask q k) s := by
  rintro ⟨_, rest, -, hp, -⟩
  match rest, hp with
  | [], hp => cases hp
  | _ :: _, hp => cases hp

omit [DecidableEq F] [DecidableEq ι] in
theorem not_underway_read {k : S → Prog Q A S T E Unit} :
    ¬ Underway holds gives l (.read k) s := by
  rintro ⟨_, rest, -, hp, -⟩
  match rest, hp with
  | [], hp => cases hp
  | _ :: _, hp => cases hp

/-- A thread is an opener, or one of the others. -/
def Opening (holds : F → S → Prop) (gives : T → List F) (l : List T) (allow : ∀ q, A q → Prop)
    (others : T → Prop) (p : Prog Q A S T E Unit) (s : S) : Prop :=
  Underway holds gives l p s ∨ p.Commits allow others fun _ => True

/-- What a transaction did: it was one of the others, or an opener's after those before it. -/
structure Did (exec : T → S → Except E S) (holds : F → S → Prop) (kept : F → Prop)
    (gives : T → List F) (l : List T) (others : T → Prop) (s : S) (t : T) (s' : S) : Prop where
  exec : exec t s = .ok s'
  keeps : ∀ f, kept f → holds f s → holds f s'
  turn : others t ∨ ∃ done rest, l = done ++ t :: rest
    ∧ ∀ f ∈ (done ++ [t]).flatMap gives, holds f s'

omit [DecidableEq F] in
/-- What an opener has given is among the facts that are kept. -/
theorem stays_given (hl : ∀ t ∈ l, Lasting exec holds good kept needs gives t) {done rest : List T}
    (hsplit : l = done ++ rest) (hkeeps : ∀ f, kept f → holds f s → holds f s')
    (hold : ∀ f ∈ done.flatMap gives, holds f s) : ∀ f ∈ done.flatMap gives, holds f s' := by
  intro f hf
  refine hkeeps f (kept_given hl f ?_) (hold f hf)
  rw [hsplit, List.flatMap_append]
  exact List.mem_append_left _ hf

omit [DecidableEq F] in
/-- **Many openers at once**, among transactions that leave the facts.  At every moment each has
given the facts of what it has run through; what one has given stays. -/
theorem run_openers (hl : ∀ t ∈ l, Lasting exec holds good kept needs gives t)
    (hothers : ∀ t s s', others t → good s → exec t s = .ok s' →
      good s' ∧ ∀ f, kept f → holds f s → holds f s')
    (hjobs : ∀ i p, jobs i p → p = opener l ∨ p.Commits allow others fun _ => True)
    (h₀ : good s₀) (h : Run jobs allow exec (Config.idle s₀) tr c) :
    good c.store
      ∧ (∀ i p, c.thread i = some p → Opening holds gives l allow others p c.store)
      ∧ ∀ x ∈ tr, good x.1 ∧ Did exec holds kept gives l others x.1 x.2.1 x.2.2 := by
  refine @Run.owned Q A S T E ι _ jobs allow exec good (Opening holds gives l allow others)
    (Did exec holds kept gives l others) ?_ ?_ ?_ ?_ ?_ s₀ h₀ tr c h
  · exact fun i p s hp _ => (hjobs i p hp).imp
      (fun h => ⟨[], l, rfl, h, List.forall_mem_nil _⟩) id
  · exact fun q k a s h ha => h.elim (fun h => absurd h not_underway_ask) fun h => Or.inr (h a ha)
  · exact fun k s _ h => h.elim (fun h => absurd h not_underway_read) fun h => Or.inr (h s)
  · rintro t k s s' hs (h | h) hexec
    · obtain ⟨done, rest, hsplit, rfl, hf⟩ := underway_commit h
      have ht : Lasting exec holds good kept needs gives t :=
        hl t (hsplit ▸ List.mem_append_right _ List.mem_cons_self)
      have hnow : ∀ f ∈ (done ++ [t]).flatMap gives, holds f s' := by
        rw [List.flatMap_append, List.forall_mem_append, List.flatMap_singleton]
        exact ⟨stays_given hl hsplit (ht.keeps hs hexec) hf, ht.brings hs hexec⟩
      refine ⟨ht.sound hs hexec, ⟨hexec, ht.keeps hs hexec, Or.inr ⟨done, rest, hsplit, hnow⟩⟩,
        Or.inl ⟨done ++ [t], rest, ?_, rfl, hnow⟩⟩
      rw [hsplit, List.append_assoc, List.singleton_append]
    · obtain ⟨hgood, hkeeps⟩ := hothers t s s' h.1 hs hexec
      exact ⟨hgood, ⟨hexec, hkeeps, Or.inl h.1⟩, Or.inr (h.2 s s')⟩
  · rintro p s t s' - hdid (⟨done, rest, hsplit, rfl, hf⟩ | h)
    · exact Or.inl ⟨done, rest, hsplit, rfl, stays_given hl hsplit hdid.keeps hf⟩
    · exact Or.inr h

omit [DecidableEq F] in
/-- **Once one opener is through, every fact stands** for the rest of the run. -/
theorem holds_of_through (hl : ∀ t ∈ l, Lasting exec holds good kept needs gives t)
    (hothers : ∀ t s s', others t → good s → exec t s = .ok s' →
      good s' ∧ ∀ f, kept f → holds f s → holds f s')
    (hjobs : ∀ i p, jobs i p → p = opener l ∨ p.Commits allow others fun _ => True)
    (h₀ : good s₀) (h : Run jobs allow exec (Config.idle s₀) tr c) (hdup : l.Nodup)
    {before : List T} (hlast : l = before ++ [t]) (hnot : ¬ others t)
    (hthrough : ∃ x ∈ tr, x.2.1 = t) : ∀ f ∈ l.flatMap gives, holds f c.store := by
  obtain ⟨-, -, htr⟩ := run_openers hl hothers hjobs h₀ h
  obtain ⟨x, hx, rfl⟩ := hthrough
  obtain ⟨done, rest, hsplit, hf⟩ := (htr x hx).2.turn.resolve_left hnot
  have hrest : rest = [] := by
    rw [hlast, List.nodup_append] at hdup
    rcases List.eq_nil_or_concat rest with hnil | ⟨rest', u, rfl⟩
    · exact hnil
    · have heq : before ++ [x.2.1] = (done ++ x.2.1 :: rest') ++ [u] := by
        rw [← hlast, hsplit, List.append_assoc, List.cons_append, List.concat_eq_append]
      have hmem : x.2.1 ∈ before :=
        (List.append_inj_left' heq rfl) ▸ List.mem_append_right _ List.mem_cons_self
      exact absurd rfl (hdup.2.2 _ hmem _ (List.mem_singleton_self _))
  subst hrest
  intro f hfl
  have hkept : kept f := kept_given hl f hfl
  refine @Run.related_after Q A S T E ι _ jobs allow exec (fun s s' => holds f s → holds f s')
    (fun _ h => h) (fun _ _ _ h₁ h₂ h => h₂ (h₁ h)) _ tr c h
    (fun y hy => (htr y hy).2.keeps f hkept) x hx (hf f ?_)
  rwa [hsplit] at hfl

/-- An opener is never refused. -/
theorem Underway.next {k : S → S → Prog Q A S T E Unit} (hnone : missing needs gives l = [])
    (hl : ∀ t ∈ l, Lasting exec holds good kept needs gives t) (hs : good s)
    (h : Underway holds gives l (.commit t k) s) : ∃ s', exec t s = .ok s' := by
  obtain ⟨done, rest, rfl, -, hf⟩ := underway_commit h
  exact (hl t (List.mem_append_right _ List.mem_cons_self)).runs hs (holds_needs hnone hf)

omit [DecidableEq F] [DecidableEq ι] in
/-- Where all facts stand, an opener changes nothing. -/
theorem Underway.idle {k : S → S → Prog Q A S T E Unit}
    (hl : ∀ t ∈ l, Lasting exec holds good kept needs gives t) (hs : good s)
    (hall : ∀ f ∈ l.flatMap gives, holds f s) (h : Underway holds gives l (.commit t k) s) :
    exec t s = .ok s := by
  obtain ⟨done, rest, rfl, -, -⟩ := underway_commit h
  have ht : t ∈ done ++ t :: rest := List.mem_append_right _ List.mem_cons_self
  exact (hl t ht).idle hs fun f hf => hall f (List.mem_flatMap.mpr ⟨t, ht, hf⟩)

end Openers

end Script
