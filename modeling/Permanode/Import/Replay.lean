import Permanode.Import.Journal

/-!
# Import/Replay — a journal is worth its deltas, replayed in order

What the frames of a journal leave behind, apart from how they are read: `replay` makes the changes
of one delta after the other, and `latest` says of one txid what the last delta says that mentions
it, unless a later snapshot forgot it.

**`parseJournal_replays`**: the reader returns the replay of the complete frames wherever the
journal was cut, or an error.
-/

namespace Permanode

open Outcome

/-! ## Replaying deltas -/

/-- One change made to the receipts. -/
def change (receipts : Receipts) (c : String × Option String) : Receipts :=
  match c.2 with
  | some hex => receipts.insert (Text.toAsciiLowercase c.1) hex
  | none => receipts.erase (Text.toAsciiLowercase c.1)

namespace JournalDelta

/-- The keys of a delta, in lower case. -/
def keys (d : JournalDelta) : List String :=
  d.changes.toList.map fun c => Text.toAsciiLowercase c.1

/-- A delta as the wallet writes it: keys of 64 hexadecimal digits, no two alike up to case, and no
deletion in a snapshot. -/
structure Keyed (d : JournalDelta) : Prop where
  txid : ∀ c ∈ d.changes.toList, isTxid c.1
  once : d.keys.Nodup
  kept : d.reset = true → ∀ c ∈ d.changes.toList, c.2 ≠ none

/-- The receipts after a delta. -/
def replay (receipts : Receipts) (d : JournalDelta) : Receipts :=
  d.changes.toList.foldl change (if d.reset then ∅ else receipts)

/-- What a delta says of a txid, if anything: its receipt, or that it has none. -/
def mention (d : JournalDelta) (key : String) : Option (Option String) :=
  (d.changes.toList.find? fun c => Text.toAsciiLowercase c.1 = key).map Prod.snd

end JournalDelta

/-- The receipts after deltas, replayed in order. -/
def replay (deltas : List JournalDelta) : Receipts := deltas.foldl JournalDelta.replay ∅

/-- What the latest delta that knows of a txid says of it; a snapshot knows of all. -/
def latest (key : String) : List JournalDelta → Option String
  | [] => none
  | d :: earlier =>
    match d.mention key with
    | some value => value
    | none => if d.reset then none else latest key earlier

theorem getElem?_change (receipts : Receipts) (c : String × Option String) (key : String) :
    (change receipts c)[key]?
      = if Text.toAsciiLowercase c.1 = key then c.2 else receipts[key]? := by
  obtain ⟨name, _ | hex⟩ := c
  · simp only [change, Std.ExtTreeMap.getElem?_erase, Std.compare_eq_iff_eq]
  · simp only [change, Std.ExtTreeMap.getElem?_insert, Std.compare_eq_iff_eq]

theorem getElem?_changes (key : String) : ∀ (changes : List (String × Option String))
    (receipts : Receipts), (changes.map fun c => Text.toAsciiLowercase c.1).Nodup →
      (changes.foldl change receipts)[key]?
        = ((changes.find? fun c => Text.toAsciiLowercase c.1 = key).map Prod.snd).getD
            receipts[key]?
  | [], _, _ => rfl
  | c :: changes, receipts, hnodup => by
      obtain ⟨hfresh, hnodup⟩ := List.nodup_cons.mp hnodup
      rw [List.foldl_cons, getElem?_changes key changes _ hnodup, getElem?_change, List.find?_cons]
      by_cases hc : Text.toAsciiLowercase c.1 = key
      · have hnone : (changes.find? fun c => Text.toAsciiLowercase c.1 = key) = none := by
          rw [List.find?_eq_none]
          intro c' hc' hkey
          exact hfresh (List.mem_map.mpr ⟨c', hc', (of_decide_eq_true hkey).trans hc.symm⟩)
        rw [hnone, if_pos hc, decide_eq_true hc]
        rfl
      · rw [if_neg hc, decide_eq_false hc]

theorem JournalDelta.getElem?_replay {d : JournalDelta} (h : d.keys.Nodup) (receipts : Receipts)
    (key : String) : (d.replay receipts)[key]?
      = (d.mention key).getD (if d.reset then none else receipts[key]?) := by
  have hstart : (if d.reset then ∅ else receipts : Receipts)[key]?
      = if d.reset then none else receipts[key]? := by
    split_ifs
    · rfl
    · rfl
  rw [JournalDelta.replay, getElem?_changes key _ _ h, hstart, JournalDelta.mention]

/-- **A replay holds what is latest.** -/
theorem getElem?_replay {deltas : List JournalDelta} (h : ∀ d ∈ deltas, d.keys.Nodup)
    (key : String) : (replay deltas)[key]? = latest key deltas.reverse := by
  induction deltas using List.reverseRecOn with
  | nil => rfl
  | append_singleton deltas d ih =>
    have hd := h d (List.mem_append_right _ (List.mem_singleton_self d))
    have hrest := ih fun d' hd' => h d' (List.mem_append_left _ hd')
    rw [replay] at hrest ⊢
    rw [List.foldl_append, List.foldl_cons, List.foldl_nil, JournalDelta.getElem?_replay hd, hrest,
      List.reverse_append, List.reverse_singleton, List.singleton_append, latest]
    rcases d.mention key with _ | value
    · rfl
    · rfl

/-! ## The changes of a frame -/

theorem isTxid_toAsciiLowercase (key : String) :
    isTxid (Text.toAsciiLowercase key) = isTxid key := by
  rw [isTxid, Text.byteLength_toAsciiLowercase, Text.isHex_toAsciiLowercase, isTxid]

theorem applyChanges_ok {pos : ℕ} {reset : Bool} : ∀ {changes : List (String × Option String)}
    {seen : List String} {receipts receipts' : Receipts},
    applyChanges pos reset seen receipts changes = .ok receipts' ↔
      (∀ c ∈ changes, isTxid c.1 ∧ Text.toAsciiLowercase c.1 ∉ seen ∧ (reset = true → c.2 ≠ none))
        ∧ (changes.map fun c => Text.toAsciiLowercase c.1).Nodup
        ∧ receipts' = changes.foldl change receipts
  | [], seen, receipts, receipts' => by
      rw [applyChanges]
      exact ⟨fun h => ⟨nofun, List.nodup_nil, (Except.ok.inj h).symm⟩,
        fun h => congrArg _ h.2.2.symm⟩
  | (name, value) :: rest, seen, receipts, receipts' => by
      let key := Text.toAsciiLowercase name
      have hstep : applyChanges pos reset seen receipts ((name, value) :: rest) = .ok receipts'
          ↔ isTxid name ∧ key ∉ seen ∧ (reset = true → value ≠ none)
            ∧ applyChanges pos reset (key :: seen) (change receipts (name, value)) rest
              = .ok receipts' := by
        simp only [applyChanges, bind_ok, bailIf_ok, isTxid_toAsciiLowercase, not_not]
        rcases value with _ | hex
        · rcases reset with _ | _
          · simp [change, key]
          · simp [key]
        · simp [change, key]
      rw [hstep, applyChanges_ok, List.forall_mem_cons, List.map_cons, List.nodup_cons]
      constructor
      · rintro ⟨hid, hseen, hkept, hall, hnodup, rfl⟩
        refine ⟨⟨⟨hid, hseen, hkept⟩, fun c hc => ?_⟩, ⟨fun hmem => ?_, hnodup⟩, rfl⟩
        · obtain ⟨hid', hseen', hkept'⟩ := hall c hc
          exact ⟨hid', fun h => hseen' (List.mem_cons_of_mem _ h), hkept'⟩
        · obtain ⟨c, hc, hkey⟩ := List.mem_map.mp hmem
          exact (hall c hc).2.1 (hkey ▸ List.mem_cons_self)
      · rintro ⟨⟨⟨hid, hseen, hkept⟩, hall⟩, ⟨hfresh, hnodup⟩, rfl⟩
        refine ⟨hid, hseen, hkept, fun c hc => ?_, hnodup, rfl⟩
        obtain ⟨hid', hseen', hkept'⟩ := hall c hc
        refine ⟨hid', fun h => ?_, hkept'⟩
        rcases List.mem_cons.mp h with hkey | h
        · exact hfresh (List.mem_map.mpr ⟨c, hc, hkey⟩)
        · exact hseen' h

/-- **The changes of a delta are made iff it is as the wallet writes it.** -/
theorem applyChanges_iff {pos : ℕ} {d : JournalDelta} {receipts receipts' : Receipts} :
    applyChanges pos d.reset [] (if d.reset then ∅ else receipts) d.changes.toList = .ok receipts'
      ↔ d.Keyed ∧ receipts' = d.replay receipts := by
  rw [applyChanges_ok, ← and_assoc]
  refine and_congr_left fun _ => ⟨fun ⟨hall, hnodup⟩ => ?_, fun h => ?_⟩
  · exact ⟨fun c hc => (hall c hc).1, hnodup, fun hreset c hc => (hall c hc).2.2 hreset⟩
  · exact ⟨fun c hc => ⟨h.txid c hc, List.not_mem_nil, fun hreset => h.kept hreset c hc⟩, h.once⟩

/-! ## The frames of a journal -/

namespace RawFrame

variable (C : JournalCrates)

/-- The frame is in order and holds the delta. -/
structure Holds (f : RawFrame) (d : JournalDelta) : Prop where
  sized : f.Sized
  digest : frameDigest C f.header f.payload = f.digest
  parsed : C.deltaFromSlice f.payload = .ok d
  keyed : d.Keyed

/-- Frames one after the other. -/
def flatten (fs : List RawFrame) : List UInt8 := fs.flatMap RawFrame.bytes

end RawFrame

variable {C : JournalCrates}

/-- **A turn of the loop at a complete frame.** -/
theorem journalStep_frame (f : RawFrame) (pre rest : List UInt8) (receipts : Receipts) (n : ℕ)
    {r : Option JournalState} :
    journalStep C (pre ++ (f.bytes ++ rest)) ⟨receipts, pre.length, n⟩ = .ok r
      ↔ ∃ d, f.Holds C d ∧ (n = 0 → d.reset = true)
        ∧ r = some ⟨d.replay receipts, pre.length + f.bytes.length, n + 1⟩ := by
  simp only [journalStep, bind_ok]
  constructor
  · rintro ⟨len, hlen, h⟩
    obtain ⟨hsized, rfl⟩ := (f.frameLen_eq pre rest).mp hlen
    simp only [bind_ok, bailIf_ok, pure_ok, applyChanges_iff] at h
    obtain ⟨d, hd, _, hfirst, _, ⟨hkeyed, rfl⟩, rfl⟩ := h
    obtain ⟨hdigest, hparsed⟩ := (f.frameDelta_eq pre rest).mp hd
    refine ⟨d, ⟨hsized, hdigest, hparsed, hkeyed⟩, fun hn => ?_, rfl⟩
    by_contra hreset
    exact hfirst ⟨hn, hreset⟩
  · rintro ⟨d, hholds, hfirst, rfl⟩
    refine ⟨some f.bytes.length, (f.frameLen_eq pre rest).mpr ⟨hholds.sized, rfl⟩, ?_⟩
    simp only [bind_ok, bailIf_ok, pure_ok, applyChanges_iff]
    exact ⟨d, (f.frameDelta_eq pre rest).mpr ⟨hholds.digest, hholds.parsed⟩, (),
      fun h => h.2 (hfirst h.1), _, ⟨hholds.keyed, rfl⟩, rfl⟩

theorem journalLoop_error {bytes : List UInt8} {s : JournalState} {e : String}
    (h : journalStep C bytes s = .error e) : journalLoop C bytes s = .error e := by
  rw [journalLoop]
  split
  · next h' => exact congrArg _ (Except.error.inj (h'.symm.trans h))
  · next h' => cases h'.symm.trans h
  · next h' => cases h'.symm.trans h

theorem journalLoop_none {bytes : List UInt8} {s : JournalState}
    (h : journalStep C bytes s = .ok none) : journalLoop C bytes s = .ok s := by
  rw [journalLoop]
  split
  · next h' => cases h'.symm.trans h
  · rfl
  · next h' => cases h'.symm.trans h

theorem journalLoop_some {bytes : List UInt8} {s s' : JournalState}
    (h : journalStep C bytes s = .ok (some s')) :
    journalLoop C bytes s = journalLoop C bytes s' := by
  rw [journalLoop]
  split
  · next h' => cases h'.symm.trans h
  · next h' => cases h'.symm.trans h
  · next h' => rw [Option.some.inj (Except.ok.inj (h'.symm.trans h))]

/-! ## Where a journal ends -/

/-- Bytes that hold no complete frame, wherever they stand. -/
def Torn (tail : List UInt8) : Prop :=
  ∀ pre : List UInt8, frameLen (pre ++ tail) pre.length = .ok none

theorem journalStep_torn {tail : List UInt8} (h : Torn tail) (pre : List UInt8)
    (receipts : Receipts) (n : ℕ) :
    journalStep C (pre ++ tail) ⟨receipts, pre.length, n⟩ = .ok none :=
  bind_ok.mpr ⟨none, h pre, rfl⟩

/-- **A write cut short**: what is there of a frame in order is no complete frame. -/
theorem torn_of_cut {f : RawFrame} (hsized : f.Sized) {tail : List UInt8}
    (hpre : tail <+: f.bytes) (hne : tail ≠ f.bytes) : Torn tail := by
  intro pre
  have hlt : tail.length < f.payload.length + 48 := by
    rw [← f.length_bytes]
    exact lt_of_le_of_ne hpre.length_le fun h => hne (hpre.eq_of_length h)
  rw [frameLen, List.length_append, Nat.add_sub_cancel_left]
  split_ifs with hshort
  · rfl
  · obtain ⟨cut, hcut⟩ := hpre
    have htake : (tail ++ cut).take frameHeaderBytes = tail.take frameHeaderBytes :=
      List.take_append_of_le_length (not_lt.mp hshort)
    have hheader : (pre ++ tail).extract pre.length (pre.length + frameHeaderBytes) = f.header := by
      rw [List.extract_eq_take_drop, List.drop_left, Nat.add_sub_cancel_left, ← htake, hcut,
        RawFrame.bytes, List.append_assoc, ← f.length_header, List.take_left]
    have hlen : tail.length < f.payload.length + (frameHeaderBytes + frameDigestBytes) := hlt
    rw [hheader]
    simp only [bind_ok, bailIf_ok, pure_ok, f.declared, if_pos hlen, not_not, not_le]
    exact ⟨(), hsized.1, (), hsized.2, trivial⟩

theorem flatten_cons (f : RawFrame) (fs : List RawFrame) (pre rest : List UInt8) :
    pre ++ (RawFrame.flatten (f :: fs) ++ rest)
      = pre ++ (f.bytes ++ (RawFrame.flatten fs ++ rest)) := by
  rw [RawFrame.flatten, List.flatMap_cons, List.append_assoc, RawFrame.flatten]

/-- **The loop over frames in order**, up to where the journal was cut. -/
theorem journalLoop_frames {tail : List UInt8} (htail : Torn tail) {fs : List RawFrame}
    {deltas : List JournalDelta} (h : List.Forall₂ (RawFrame.Holds C) fs deltas) :
    ∀ (pre : List UInt8) (receipts : Receipts) (n : ℕ),
      (n = 0 → ∀ d ∈ deltas.head?, d.reset = true) →
      ∃ pos, journalLoop C (pre ++ (RawFrame.flatten fs ++ tail)) ⟨receipts, pre.length, n⟩
        = .ok ⟨deltas.foldl JournalDelta.replay receipts, pos, n + fs.length⟩ := by
  induction h with
  | nil =>
    intro pre receipts n _
    exact ⟨pre.length, journalLoop_none (journalStep_torn htail pre receipts n)⟩
  | @cons f d fs deltas hholds _ ih =>
    intro pre receipts n hfirst
    have hstep := (journalStep_frame f pre (RawFrame.flatten fs ++ tail) receipts n).mpr
      ⟨d, hholds, fun hn => hfirst hn d rfl, rfl⟩
    obtain ⟨pos, hloop⟩ := ih (pre ++ f.bytes) (d.replay receipts) (n + 1) nofun
    refine ⟨pos, ?_⟩
    rw [flatten_cons, journalLoop_some hstep, ← List.append_assoc, ← List.length_append, hloop,
      List.foldl_cons, List.length_cons, Nat.add_right_comm, Nat.add_assoc]

/-- **The loop does not get past a frame that is out of order.** -/
theorem journalLoop_bad (rest : List UInt8) : ∀ (fs : List RawFrame) (pre : List UInt8)
    (receipts : Receipts) (n k : ℕ) (f : RawFrame), fs[k]? = some f →
      (∀ d, f.Holds C d → ¬ (n + k = 0 → d.reset = true)) →
      ∃ e, journalLoop C (pre ++ (RawFrame.flatten fs ++ rest)) ⟨receipts, pre.length, n⟩ = .error e
  | [], _, _, _, _, _, hk, _ => nomatch hk
  | g :: fs, pre, receipts, n, k, f, hk, hbad => by
      rw [flatten_cons]
      rcases hstep : journalStep C (pre ++ (g.bytes ++ (RawFrame.flatten fs ++ rest)))
        ⟨receipts, pre.length, n⟩ with e | r
      · exact ⟨e, journalLoop_error hstep⟩
      · obtain ⟨d, hholds, hfirst, rfl⟩ := (journalStep_frame g pre _ receipts n).mp hstep
        rw [journalLoop_some hstep]
        rcases k with _ | k
        · obtain rfl := Option.some.inj hk
          exact absurd hfirst (hbad d hholds)
        · have hnext := journalLoop_bad rest fs (pre ++ g.bytes) (d.replay receipts) (n + 1) k f hk
            fun d' hd' h => hbad d' hd' fun hzero => h (by omega)
          rwa [List.append_assoc, List.length_append] at hnext

/-- What is read as a frame is one that is there in full. -/
theorem exists_rawFrame {pre rest : List UInt8} {len : ℕ}
    (h : frameLen (pre ++ rest) pre.length = .ok (some len)) :
    ∃ f : RawFrame, f.bytes <+: rest := by
  have hbounds := frameLen_some h
  rw [List.length_append] at hbounds
  rw [frameLen, List.length_append, Nat.add_sub_cancel_left] at h
  split_ifs at h
  · cases h
  · simp only [bind_ok, bailIf_ok, pure_ok] at h
    obtain ⟨_, -, _, -, h⟩ := h
    rw [List.extract_eq_take_drop, List.drop_left, Nat.add_sub_cancel_left] at h
    split_ifs at h
    obtain rfl := Option.some.inj h
    simp only [frameHeaderBytes, frameDigestBytes] at hbounds
    let size := (UInt64.ofLeBytes ((rest.take frameHeaderBytes).take 8)).toNat
    have hsize : size + 48 ≤ rest.length := by
      simp only [size, frameHeaderBytes]
      omega
    refine ⟨⟨rest.take frameHeaderBytes, (rest.drop frameHeaderBytes).take size,
      ((rest.drop frameHeaderBytes).drop size).take frameDigestBytes, ?_, ?_, ?_⟩, ?_⟩
    · rw [List.length_take, frameHeaderBytes]
      omega
    · rw [List.length_take, List.length_drop, List.length_drop, frameHeaderBytes, frameDigestBytes]
      omega
    · rw [List.length_take, List.length_drop]
      refine (Nat.min_eq_left ?_).symm
      rw [frameHeaderBytes]
      omega
    · refine ⟨((rest.drop frameHeaderBytes).drop size).drop frameDigestBytes, ?_⟩
      rw [RawFrame.bytes, List.append_assoc, List.append_assoc, List.take_append_drop,
        List.take_append_drop, List.take_append_drop]

/-! ## Turns of the loop -/

/-- The loop has taken `n` turns and is at `s`. -/
inductive JournalRun (C : JournalCrates) (bytes : List UInt8) : ℕ → JournalState → Prop
  | start : JournalRun C bytes 0 ⟨∅, journalMagic.length, 0⟩
  | turn {n s s'} (run : JournalRun C bytes n s) (step : journalStep C bytes s = .ok (some s')) :
      JournalRun C bytes (n + 1) s'

/-- The loop ends at the state: it breaks off, or fails. -/
def LoopEnds (C : JournalCrates) (bytes : List UInt8) (s : JournalState) : Prop :=
  ∀ s', journalStep C bytes s ≠ .ok (some s')

namespace JournalRun

variable {bytes : List UInt8}

/-- Every turn takes a frame, and counts it. -/
theorem bounds {n : ℕ} {s : JournalState} (h : JournalRun C bytes n s) :
    s.frames = n ∧ 48 * n ≤ s.pos ∧ (0 < n → s.pos ≤ bytes.length) := by
  induction h with
  | start => exact ⟨rfl, Nat.zero_le _, fun h => absurd h (Nat.lt_irrefl 0)⟩
  | @turn n s s' _ step ih =>
    obtain ⟨hlow, hhigh⟩ := journalStep_some C step
    have hframes : s'.frames = s.frames + 1 := by
      simp only [journalStep, bind_ok] at step
      obtain ⟨len, -, step⟩ := step
      rcases len with _ | len
      · cases step
      · simp only [bind_ok, pure_ok, Option.some.injEq] at step
        obtain ⟨_, -, _, -, _, -, rfl⟩ := step
        rfl
    refine ⟨by rw [hframes, ih.1], ?_, fun _ => hhigh⟩
    have hpos := ih.2.1
    omega

/-- The turns taken do not change where the loop comes to. -/
theorem loop_eq {n : ℕ} {s : JournalState} (h : JournalRun C bytes n s) :
    journalLoop C bytes ⟨∅, journalMagic.length, 0⟩ = journalLoop C bytes s := by
  induction h with
  | start => rfl
  | turn _ step ih => rw [ih, journalLoop_some step]

/-- From every turn on the loop comes to an end. -/
theorem exists_end {n : ℕ} {s : JournalState} (h : JournalRun C bytes n s) :
    ∃ m s', JournalRun C bytes m s' ∧ LoopEnds C bytes s' := by
  by_cases hend : LoopEnds C bytes s
  · exact ⟨n, s, h, hend⟩
  · obtain ⟨s', hstep⟩ : ∃ s', journalStep C bytes s = .ok (some s') := by
      simpa [LoopEnds] using hend
    have hbounds := journalStep_some C hstep
    exact exists_end (h.turn hstep)
termination_by bytes.length - s.pos

end JournalRun

/-- **The loop terminates**, after at most a turn for every 48 bytes. -/
theorem journalLoop_terminates (C : JournalCrates) (bytes : List UInt8) :
    ∃ n s, JournalRun C bytes n s ∧ LoopEnds C bytes s ∧ s.frames = n ∧ 48 * n ≤ bytes.length
      ∧ journalLoop C bytes ⟨∅, journalMagic.length, 0⟩ = journalLoop C bytes s := by
  have hstart : JournalRun C bytes 0 ⟨∅, journalMagic.length, 0⟩ := .start
  obtain ⟨n, s, hrun, hend⟩ := hstart.exists_end
  obtain ⟨hframes, hlow, hhigh⟩ := hrun.bounds
  refine ⟨n, s, hrun, hend, hframes, ?_, hrun.loop_eq⟩
  rcases Nat.eq_zero_or_pos n with rfl | hn
  · exact Nat.zero_le _
  · exact hlow.trans (hhigh hn)

/-! ## The journal as a whole -/

/-- A payload of a frame: no longer than an address can say of the frame. -/
def Payload : Type := { payload : List UInt8 // payload.length + 48 < 2 ^ 64 }

/-- The frame of a payload. -/
def JournalCrates.frame (C : JournalCrates) (payload : Payload) : RawFrame :=
  let length := UInt64.ofNat payload.1.length
  let header := length.toLeBytes ++ (~~~length).toLeBytes
  { header := header
    payload := payload.1
    digest := frameDigest C header payload.1
    length_header := rfl
    length_digest := C.length_blake3 _
    declared := by
      have hlt := payload.2
      have hlow : header.take 8 = length.toLeBytes := rfl
      rw [hlow, UInt64.ofLeBytes_toLeBytes]
      exact UInt64.toNat_ofNat_of_lt' (show payload.1.length < 2 ^ 64 by omega) }

theorem sized_frame (payload : Payload) : (C.frame payload).Sized := by
  let length := UInt64.ofNat payload.1.length
  have hlow : (C.frame payload).header.take 8 = length.toLeBytes := rfl
  have hhigh : (C.frame payload).header.drop 8 = (~~~length).toLeBytes := rfl
  refine ⟨?_, payload.2⟩
  rw [hlow, hhigh, UInt64.ofLeBytes_toLeBytes, UInt64.ofLeBytes_toLeBytes, UInt64.not_not]

/-- The journal of payloads, one frame each, and what follows. -/
def journal (C : JournalCrates) (payloads : List Payload) (tail : List UInt8) : List UInt8 :=
  journalMagic ++ (RawFrame.flatten (payloads.map C.frame) ++ tail)

/-- What can be wrong with a complete frame, the `k`th of its journal. -/
inductive RawFrame.Defect (C : JournalCrates) (k : ℕ) (f : RawFrame) : Prop
  | length (h : UInt64.ofLeBytes (f.header.take 8) ≠ ~~~UInt64.ofLeBytes (f.header.drop 8))
  | checksum (h : frameDigest C f.header f.payload ≠ f.digest)
  | noDelta (h : ∀ d, C.deltaFromSlice f.payload ≠ .ok d)
  | key {d c} (hd : C.deltaFromSlice f.payload = .ok d) (hc : c ∈ d.changes.toList)
      (h : isTxid c.1 = false)
  | twice {d} (hd : C.deltaFromSlice f.payload = .ok d) (h : ¬ d.keys.Nodup)
  | deletion {d c} (hd : C.deltaFromSlice f.payload = .ok d) (hreset : d.reset = true)
      (hc : c ∈ d.changes.toList) (h : c.2 = none)
  | noSnapshot {d} (hd : C.deltaFromSlice f.payload = .ok d) (hk : k = 0) (h : d.reset = false)

theorem RawFrame.Defect.not_holds {k : ℕ} {f : RawFrame} (h : f.Defect C k) (d : JournalDelta)
    (hholds : f.Holds C d) : ¬ (k = 0 → d.reset = true) := by
  intro hfirst
  have hsame : ∀ {d'}, C.deltaFromSlice f.payload = .ok d' → d' = d := fun hd =>
    Except.ok.inj (hd.symm.trans hholds.parsed)
  cases h with
  | length h => exact h hholds.sized.1
  | checksum h => exact h hholds.digest
  | noDelta h => exact h d hholds.parsed
  | key hd hc h =>
    obtain rfl := hsame hd
    exact Bool.false_ne_true (h.symm.trans (hholds.keyed.txid _ hc))
  | twice hd h =>
    obtain rfl := hsame hd
    exact h hholds.keyed.once
  | deletion hd hreset hc h =>
    obtain rfl := hsame hd
    exact hholds.keyed.kept hreset _ hc h
  | noSnapshot hd hk h =>
    obtain rfl := hsame hd
    exact Bool.false_ne_true (h.symm.trans (hfirst hk))

theorem parseJournal_ok {rest : List UInt8} {receipts : Receipts} :
    parseJournal C (journalMagic ++ rest) = .ok receipts ↔ ∃ s,
      journalLoop C (journalMagic ++ rest) ⟨∅, journalMagic.length, 0⟩ = .ok s ∧ s.frames ≠ 0
        ∧ s.receipts = receipts := by
  have hmagic : journalMagic <+: journalMagic ++ rest := List.prefix_append _ _
  simp only [parseJournal, bind_ok, bailIf_ok, pure_ok, not_not]
  constructor
  · rintro ⟨_, _, s, hs, _, hframes, h⟩
    exact ⟨s, hs, hframes, h⟩
  · rintro ⟨s, hs, hframes, h⟩
    exact ⟨(), hmagic, s, hs, (), hframes, h⟩

theorem exists_error_of_not_ok {α : Type} {x : Except String α} (h : ∀ a, x ≠ .ok a) :
    ∃ e, x = .error e := by
  rcases x with e | a
  · exact ⟨e, rfl⟩
  · exact absurd rfl (h a)

/-- **A journal is worth its deltas, replayed in order**, wherever its last frame was cut; a
complete frame with a defect, or none at all, is an error; and the loop terminates. -/
theorem parseJournal_replays (C : JournalCrates) :
    (∀ (payloads : List Payload) (deltas : List JournalDelta) (next : Payload) (tail : List UInt8),
        payloads ≠ [] →
        List.Forall₂ (fun p d => C.deltaFromSlice p.1 = .ok d ∧ d.Keyed) payloads deltas →
        (∀ d ∈ deltas.head?, d.reset = true) → tail <+: (C.frame next).bytes →
        tail ≠ (C.frame next).bytes →
        parseJournal C (journal C payloads tail) = .ok (replay deltas)
          ∧ ∀ key, (replay deltas)[key]? = latest key deltas.reverse)
      ∧ (∀ (fs : List RawFrame) (rest : List UInt8),
        (∃ (k : ℕ) (f : RawFrame), fs[k]? = some f ∧ f.Defect C k) →
        ∃ e, parseJournal C (journalMagic ++ (RawFrame.flatten fs ++ rest)) = .error e)
      ∧ (∀ rest : List UInt8, (∀ f : RawFrame, ¬ f.bytes <+: rest) →
        ∃ e, parseJournal C (journalMagic ++ rest) = .error e)
      ∧ ∀ bytes, ∃ n s, JournalRun C bytes n s ∧ LoopEnds C bytes s ∧ s.frames = n
        ∧ 48 * n ≤ bytes.length
        ∧ journalLoop C bytes ⟨∅, journalMagic.length, 0⟩ = journalLoop C bytes s := by
  refine ⟨?_, ?_, ?_, journalLoop_terminates C⟩
  · intro payloads deltas next tail hne hall hreset hpre hcut
    have hframes : List.Forall₂ (RawFrame.Holds C) (payloads.map C.frame) deltas :=
      List.forall₂_map_left_iff.mpr (hall.imp fun p d ⟨hparsed, hkeyed⟩ =>
        ⟨sized_frame p, rfl, hparsed, hkeyed⟩)
    obtain ⟨pos, hloop⟩ := journalLoop_frames (torn_of_cut (sized_frame next) hpre hcut) hframes
      journalMagic ∅ 0 fun _ => hreset
    refine ⟨parseJournal_ok.mpr ⟨_, hloop, ?_, rfl⟩, getElem?_replay fun d hd => ?_⟩
    · rw [List.length_map, Nat.zero_add]
      exact fun h => hne (List.length_eq_zero_iff.mp h)
    · obtain ⟨k, hk⟩ := List.mem_iff_getElem?.mp hd
      obtain ⟨hlt, rfl⟩ := List.getElem?_eq_some_iff.mp hk
      exact (List.forall₂_iff_get.mp hall).2 k (hall.length_eq ▸ hlt) hlt |>.2.once
  · rintro fs rest ⟨k, f, hk, hdefect⟩
    obtain ⟨e, hloop⟩ := journalLoop_bad (C := C) rest fs journalMagic ∅ 0 k f hk
      fun d hd h => hdefect.not_holds d hd fun hzero => h (by omega)
    refine exists_error_of_not_ok fun receipts h => ?_
    obtain ⟨s, hs, -⟩ := parseJournal_ok.mp h
    exact nomatch hloop.symm.trans hs
  · intro rest hnone
    refine exists_error_of_not_ok fun receipts h => ?_
    obtain ⟨s, hs, hframes, -⟩ := parseJournal_ok.mp h
    rcases hstep : journalStep C (journalMagic ++ rest) ⟨∅, journalMagic.length, 0⟩ with e | _ | s'
    · exact nomatch (journalLoop_error hstep).symm.trans hs
    · obtain rfl := Except.ok.inj ((journalLoop_none hstep).symm.trans hs)
      exact hframes rfl
    · obtain ⟨len, hlen, hrest⟩ := bind_ok.mp hstep
      rcases len with _ | len
      · exact nomatch hrest
      · obtain ⟨f, hf⟩ := exists_rawFrame hlen
        exact hnone f hf

/-! ### A journal of two frames -/

/-- A txid of one digit. -/
def txidOf (digit : Char) : String := String.ofList (List.replicate 64 digit)

/-- A snapshot of a receipt, and a delta that deletes it and adds another. -/
def sampleSnapshot : JournalDelta := ⟨true, .ofList [(txidOf 'a', some "bb")]⟩

/-- A delta that removes an entry and sets another. -/
def sampleDelta : JournalDelta :=
  ⟨false, .ofList [(txidOf 'A', none), (txidOf '3', some "CC")]⟩

/-- A parser that knows the two deltas, and a checksum of 32 bytes. -/
def JournalCrates.sample : JournalCrates where
  blake3 bytes := List.replicate 32 (UInt8.ofNat bytes.length)
  length_blake3 _ := List.length_replicate
  deltaFromSlice
    | [1] => .ok sampleSnapshot
    | [2] => .ok sampleDelta
    | _ => .error "expected value at line 1 column 1"

theorem keyed_sampleSnapshot : sampleSnapshot.Keyed := by
  constructor <;> decide +kernel

theorem keyed_sampleDelta : sampleDelta.Keyed := by
  constructor <;> decide +kernel

/-- A payload of one byte. -/
def samplePayload (byte : UInt8) : Payload :=
  ⟨[byte], by rw [List.length_singleton]; decide⟩

/-- A third frame, cut short, is ignored. -/
theorem parseJournal_replays_sample :
    parseJournal JournalCrates.sample (journal JournalCrates.sample
        [samplePayload 1, samplePayload 2]
        ((JournalCrates.sample.frame (samplePayload 2)).bytes.take 30))
      = .ok (replay [sampleSnapshot, sampleDelta])
      ∧ (replay [sampleSnapshot, sampleDelta]).toList = [(txidOf '3', "CC")] := by
  refine ⟨?_, by decide +kernel⟩
  refine ((parseJournal_replays JournalCrates.sample).1 [samplePayload 1, samplePayload 2]
    [sampleSnapshot, sampleDelta] (samplePayload 2) _ (List.cons_ne_nil _ _) ?_ ?_
    (List.take_prefix 30 _) ?_).1
  · exact .cons ⟨rfl, keyed_sampleSnapshot⟩ (.cons ⟨rfl, keyed_sampleDelta⟩ .nil)
  · intro d hd
    obtain rfl := Option.some.inj hd
    rfl
  · intro h
    exact absurd (congrArg List.length h) (by decide +kernel)

end Permanode
