import Permanode.System

/-!
# System/Rules — reasoning about the programs, action by action

The two judgements of `Foundations/Program` on the actions the programs are written in: `Commits`
(what a program can come to commit, whatever the store holds) and `wp` (what must hold of the store
for it to end well).
-/

namespace Permanode

open Prog

variable {α β : Type} {allow : ∀ q : Query, q.Answer → Prop} {P : Txn → Prop} {R : β → Prop}

/-! ## The rules of `Commits` -/

/-- A question: whatever is answered. -/
theorem commits_ask {q : Query} {f : q.Answer → Program β} :
    (Program.ask q >>= f).Commits allow P R ↔ ∀ a, allow q a → (f a).Commits allow P R := Iff.rfl

/-- A read: whatever is read. -/
theorem commits_get {g : Db → α} {f : α → Program β} :
    (Program.get g >>= f).Commits allow P R ↔ ∀ db, (f (g db)).Commits allow P R := Iff.rfl

/-- A transaction, and what follows it. -/
theorem commits_commit {t : Txn} {f : Unit → Program β} :
    (Program.commit t >>= f).Commits allow P R ↔ P t ∧ (f ()).Commits allow P R :=
  and_congr_right fun _ => ⟨fun h => h Db.empty Db.empty, fun h _ _ => h⟩

/-- A transaction at the end. -/
theorem commits_last {t : Txn} {R : Unit → Prop} :
    (Program.commit t).Commits allow P R ↔ P t ∧ R () :=
  and_congr_right fun _ => ⟨fun h => h Db.empty Db.empty, fun h _ _ => h⟩

/-- An answer that failed ends the program. -/
theorem commits_ofAnswer {r : Except String α} {f : α → Program β} :
    (Program.ofAnswer r >>= f).Commits allow P R ↔ ∀ a, r = .ok a → (f a).Commits allow P R := by
  rcases r with e | a
  · exact iff_of_true trivial nofun
  · exact ⟨fun h _ ha => Except.ok.inj ha ▸ h, fun h => h a rfl⟩

/-- A result. -/
theorem commits_pure {b : β} : (pure b : Program β).Commits allow P R ↔ R b := Iff.rfl

/-! ## The rules of `wp` -/

variable {V : Setting Query Query.Answer Db Txn String} {Q : Except String β → Db → Prop} {db : Db}

/-- A question: whatever is answered. -/
theorem wp_ask {q : Query} {f : q.Answer → Program β} :
    wp V (Program.ask q >>= f) Q db ↔ ∀ a, V.allow q a → wp V (f a) Q db := Iff.rfl

/-- A read is of a state that the other threads may have left. -/
theorem wp_get {g : Db → α} {f : α → Program β} :
    wp V (Program.get g >>= f) Q db ↔
      ∀ db', V.inv db' → V.rely db db' → wp V (f (g db')) Q db' := Iff.rfl

/-- A transaction meets a state the other threads may have left; it keeps the invariant and the
guarantee, or fails and ends the program. -/
theorem wp_commit {t : Txn} {f : Unit → Program β} :
    wp V (Program.commit t >>= f) Q db ↔ ∀ db', V.inv db' → V.rely db db' →
      (∀ db'', V.cond db' t → V.exec t db' = .ok db'' →
          V.inv db'' ∧ V.guar db' t db'' ∧ wp V (f ()) Q db'')
        ∧ ∀ e, V.exec t db' = .error e → Q (.error e) db' := Iff.rfl

/-- A transaction at the end. -/
theorem wp_last {t : Txn} {Q : Except String Unit → Db → Prop} :
    wp V (Program.commit t) Q db ↔ ∀ db', V.inv db' → V.rely db db' →
      (∀ db'', V.cond db' t → V.exec t db' = .ok db'' →
          V.inv db'' ∧ V.guar db' t db'' ∧ Q (.ok ()) db'')
        ∧ ∀ e, V.exec t db' = .error e → Q (.error e) db' := Iff.rfl

/-- What a failure leaves open: nothing is asked of a program that ends in one. -/
def onOk (I : α → Db → Prop) : Except String α → Db → Prop
  | .ok a, db => I a db
  | .error _, _ => True

/-- The rule of sequence where a failure leaves nothing to show. -/
theorem wp_then {p : Program α} {f : α → Program β} {I : α → Db → Prop}
    (hp : wp V p (onOk I) db) (hQ : ∀ e db, Q (.error e) db)
    (hf : ∀ a db, I a db → wp V (f a) Q db) : wp V (p >>= f) Q db := by
  refine wp_bind (wp_mono (fun r db' h => ?_) hp)
  rcases r with e | a
  · exact hQ e db'
  · exact hf a db' h

/-- A part of a program that only asks and reads keeps what the other threads leave. -/
theorem wp_silently {p : Program α} {R : α → Prop} {I : Db → Prop}
    (hstable : ∀ db db', V.inv db' → V.rely db db' → I db → I db')
    (h : p.Commits V.allow (fun _ => False) R) (hI : I db) :
    wp V p (onOk fun a db => I db ∧ R a) db := by
  refine wp_mono (fun r db' hr => ?_) (wp_of_silent hstable h hI)
  rcases r with e | a
  · exact trivial
  · exact ⟨hr.1, hr.2 a rfl⟩

end Permanode
