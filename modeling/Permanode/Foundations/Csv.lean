import Mathlib.Data.List.Basic
import Permanode.Foundations.Outcome

/-!
# Foundations/Csv — comma-separated texts, written and read back

A field is quoted where it holds a comma, a quote or a line feed, its quotes doubled; a record is a
line of fields (`Csv.write`).  The reader (`Csv.read`) goes character by character, and gives back
the records that were written (`Csv.read_write`).  A reader that takes a line for a record would
not.
-/

namespace Csv

open Outcome

/-! ## Writing -/

/-- A field that holds one of these is quoted. -/
def isSpecial (c : Char) : Bool := c = ',' ∨ c = '"' ∨ c = '\n'

/-- A quoted field's text: its quotes doubled. -/
def escape (cs : List Char) : List Char := cs.flatMap fun c => if c = '"' then ['"', '"'] else [c]

/-- A field, quoted if it has to be. -/
def field (cs : List Char) : List Char :=
  if cs.any isSpecial then '"' :: (escape cs ++ ['"']) else cs

/-- A line of fields. -/
def line : List (List Char) → List Char
  | [] => ['\n']
  | [f] => field f ++ ['\n']
  | f :: fs => field f ++ ',' :: line fs

/-- A file of records. -/
def write (records : List (List (List Char))) : List Char := records.flatMap line

/-! ## Reading -/

/-- Where in a field the reader is: before it, in a bare one, inside the quotes, or after a quote
that closes them, or is the first of two. -/
inductive Mode
  | start
  | bare
  | quoted
  | closing
  deriving DecidableEq

/-- The state of a reader: what it has read, and of what it is in the middle. -/
structure Reader where
  mode : Mode
  field : List Char
  record : List (List Char)
  records : List (List (List Char))

/-- Before the first field. -/
def Reader.init : Reader := ⟨.start, [], [], []⟩

/-- A field is complete. -/
def Reader.endField (r : Reader) : Reader := ⟨.start, [], r.record ++ [r.field], r.records⟩

/-- So is a record, with its last field. -/
def Reader.endRecord (r : Reader) : Reader :=
  ⟨.start, [], [], r.records ++ [r.record ++ [r.field]]⟩

/-- One more character of a field. -/
def Reader.take (r : Reader) (mode : Mode) (c : Char) : Reader :=
  { r with mode := mode, field := r.field ++ [c] }

/-- One character; a quote where none may be ends the reading. -/
def Reader.step (r : Reader) (c : Char) : Option Reader :=
  match r.mode with
  | .quoted => if c = '"' then some { r with mode := .closing } else some (r.take .quoted c)
  | .start | .bare | .closing =>
    if c = ',' then some r.endField
    else if c = '\n' then some r.endRecord
    else if c = '"' then
      match r.mode with
      | .start => some { r with mode := .quoted }
      | .closing => some (r.take .quoted c)
      | .bare | .quoted => none
    else if r.mode = .closing then none
    else some (r.take .bare c)

/-- The records of a text whose last line is ended. -/
def read (cs : List Char) : Option (List (List (List Char))) :=
  (cs.foldlM Reader.step Reader.init).bind fun r =>
    if r.mode = .start ∧ r.record = [] then some r.records else none

/-! ## The round trip -/

variable {r : Reader} {cs : List Char} {c : Char}

/-- A reader that has read a whole field. -/
def Reader.At (r : Reader) (cs : List Char) (r' : Reader) : Prop :=
  r'.mode ≠ .quoted ∧ r'.field = r.field ++ cs ∧ r'.record = r.record ∧ r'.records = r.records

theorem step_comma (h : r.mode ≠ .quoted) : r.step ',' = some r.endField := by
  rcases r with ⟨_ | _ | _ | _, _, _, _⟩
  · rfl
  · rfl
  · exact absurd rfl h
  · rfl

theorem step_newline (h : r.mode ≠ .quoted) : r.step '\n' = some r.endRecord := by
  rcases r with ⟨_ | _ | _ | _, _, _, _⟩
  · rfl
  · rfl
  · exact absurd rfl h
  · rfl

theorem step_plain (h : r.mode = .start ∨ r.mode = .bare) (hc : isSpecial c = false) :
    r.step c = some (r.take .bare c) := by
  have hc : c ≠ ',' ∧ c ≠ '"' ∧ c ≠ '\n' := by simpa [isSpecial] using hc
  rcases h with h | h <;> simp [Reader.step, h, hc]

/-- A bare field is read as it is. -/
theorem foldlM_plain : ∀ {cs : List Char} {r : Reader}, (r.mode = .start ∨ r.mode = .bare) →
    cs.any isSpecial = false → ∃ r', cs.foldlM Reader.step r = some r' ∧ r.At cs r'
  | [], r, hm, _ => ⟨r, rfl, by rcases hm with hm | hm <;> simp [hm], (List.append_nil _).symm,
      rfl, rfl⟩
  | c :: cs, r, hm, hcs => by
      rw [List.any_cons, Bool.or_eq_false_iff] at hcs
      obtain ⟨r', hr', hmode, hfield, hrecord, hrecords⟩ :=
        foldlM_plain (r := r.take .bare c) (Or.inr rfl) hcs.2
      refine ⟨r', ?_, hmode, ?_, hrecord, hrecords⟩
      · rw [List.foldlM_cons, step_plain hm hcs.1]
        exact hr'
      · rw [hfield]
        exact List.append_assoc ..

/-- What is between quotes is read with its doubled quotes single again. -/
theorem foldlM_escape : ∀ {cs : List Char} {r : Reader}, r.mode = .quoted →
    (escape cs).foldlM Reader.step r = some { r with field := r.field ++ cs }
  | [], r, _ => by
      rw [List.append_nil]
      rfl
  | c :: cs, r, hm => by
      have hread : (if c = '"' then ['"', '"'] else [c]).foldlM Reader.step r
          = some (r.take .quoted c) := by
        by_cases hc : c = '"'
        · subst hc
          rcases r with ⟨mode, field, record, records⟩
          obtain rfl : mode = .quoted := hm
          rfl
        · rw [if_neg hc, List.foldlM_cons, Reader.step, hm]
          simp [hc]
      rw [escape, List.flatMap_cons, List.foldlM_append, hread]
      refine (foldlM_escape (r := r.take .quoted c) rfl).trans (congrArg some ?_)
      rcases r with ⟨mode, field, record, records⟩
      obtain rfl : mode = .quoted := hm
      simp [Reader.take]

/-- **A field is read back.** -/
theorem foldlM_field (hm : r.mode = .start) (hf : r.field = []) (cs : List Char) :
    ∃ r', (field cs).foldlM Reader.step r = some r' ∧ r.At cs r' := by
  unfold field
  split_ifs with hs
  · let inside : Reader := { r with mode := .quoted }
    refine ⟨⟨.closing, cs, r.record, r.records⟩, ?_, nofun, by rw [hf]; rfl, rfl, rfl⟩
    have hopen : r.step '"' = some inside := by simp [Reader.step, hm, inside]
    have hinside : (escape cs).foldlM Reader.step inside = some { inside with field := cs } := by
      refine (foldlM_escape rfl).trans ?_
      simp [inside, hf]
    rw [List.foldlM_cons, hopen]
    change (escape cs ++ ['"']).foldlM Reader.step inside = _
    rw [List.foldlM_append, hinside]
    rfl
  · exact foldlM_plain (Or.inl hm) (by simpa using hs)

/-- **A line is read back**, after the fields that are there. -/
theorem foldlM_line : ∀ {fs : List (List Char)} {r : Reader}, fs ≠ [] → r.mode = .start →
    r.field = [] → (line fs).foldlM Reader.step r
      = some ⟨.start, [], [], r.records ++ [r.record ++ fs]⟩
  | [], _, hne, _, _ => absurd rfl hne
  | [f], r, _, hm, hf => by
      obtain ⟨r', hr', hmode, hfield, hrecord, hrecords⟩ := foldlM_field hm hf f
      rw [line, List.foldlM_append, hr']
      change (r'.step '\n').bind pure = _
      rw [step_newline hmode, Reader.endRecord, hfield, hrecord, hrecords, hf]
      rfl
  | f :: g :: fs, r, _, hm, hf => by
      obtain ⟨r', hr', hmode, hfield, hrecord, hrecords⟩ := foldlM_field hm hf f
      have hline : line (f :: g :: fs) = field f ++ ',' :: line (g :: fs) := rfl
      rw [hline, List.foldlM_append, hr']
      change (List.foldlM Reader.step r' (',' :: line (g :: fs))) = _
      rw [List.foldlM_cons, step_comma hmode]
      refine (foldlM_line (List.cons_ne_nil g fs) rfl rfl).trans ?_
      rw [Reader.endField, hfield, hrecord, hrecords, hf, List.append_assoc]
      rfl

theorem foldlM_write : ∀ {records : List (List (List Char))} {r : Reader},
    (∀ fs ∈ records, fs ≠ []) → r.mode = .start → r.field = [] → r.record = [] →
      (write records).foldlM Reader.step r = some ⟨.start, [], [], r.records ++ records⟩
  | [], ⟨_, _, _, _⟩, _, hm, hf, hr => by
      obtain rfl := hm
      obtain rfl := hf
      obtain rfl := hr
      rw [List.append_nil]
      rfl
  | fs :: records, r, hne, hm, hf, hr => by
      rw [write, List.flatMap_cons, List.foldlM_append,
        foldlM_line (hne fs List.mem_cons_self) hm hf, hr]
      refine (foldlM_write (fun f h => hne f (List.mem_cons_of_mem _ h)) rfl rfl rfl).trans ?_
      rw [List.append_assoc]
      rfl

/-- **What is written is read back**, whatever the fields hold. -/
theorem read_write {records : List (List (List Char))} (hne : ∀ fs ∈ records, fs ≠ []) :
    read (write records) = some records := by
  rw [read, foldlM_write hne rfl rfl rfl]
  rfl

end Csv
