import Permanode.Foundations.Outcome
import Permanode.Foundations.Text
import Permanode.Foundations.Words

/-!
# Import/Journal — the receipts a wallet journal holds

`parse_journal` of `permanode/src/receipts.rs`.  A journal is a magic and then frames,

    u64 length  ·  u64 !length  ·  JSON delta  ·  BLAKE3 checksum

of which the first is a snapshot; a last frame that was cut short is ignored.  `journalStep` is the
body of the loop over the frames, and `RawFrame` any complete frame, whatever it holds.
-/

namespace Permanode

open Outcome

/-- `JournalDelta`. -/
structure JournalDelta where
  reset : Bool
  changes : Std.ExtTreeMap String (Option String)

/-- The receipts of a journal: a hexadecimal text for each txid. -/
abbrev Receipts : Type := Std.ExtTreeMap String String

/-- What the reader of a journal calls of other crates: BLAKE3 and the JSON parser. -/
structure JournalCrates where
  blake3 : List UInt8 → List UInt8
  length_blake3 : ∀ bytes, (blake3 bytes).length = 32
  deltaFromSlice : List UInt8 → Except String JournalDelta

variable (C : JournalCrates)

/-! ## The reader -/

/-- A text of ASCII characters, as bytes. -/
def asciiBytes (s : String) : List UInt8 := s.toList.map fun c => UInt8.ofNat c.toNat

/-- `JOURNAL_MAGIC`. -/
def journalMagic : List UInt8 := asciiBytes "NOIDRCJ1"

/-- `JOURNAL_FRAME_DOMAIN`. -/
def journalFrameDomain : List UInt8 := asciiBytes "NOID/local-wallet-journal/frame/v1"

/-- `FRAME_HEADER_BYTES`. -/
def frameHeaderBytes : ℕ := 16

/-- `FRAME_DIGEST_BYTES`. -/
def frameDigestBytes : ℕ := 32

/-- The length of the frame at `pos`, or `none` if there is no complete one. -/
def frameLen (bytes : List UInt8) (pos : ℕ) : Except String (Option ℕ) :=
  if bytes.length - pos < frameHeaderBytes then return none
  else do
    let header := bytes.extract pos (pos + frameHeaderBytes)
    let length := UInt64.ofLeBytes (header.take 8)
    let inverted := UInt64.ofLeBytes (header.drop 8)
    bailIf (length ≠ ~~~inverted) s!"corrupt frame length at byte {pos}"
    bailIf (2 ^ 64 ≤ length.toNat + (frameHeaderBytes + frameDigestBytes))
      s!"frame length overflow at byte {pos}"
    let frameLen := length.toNat + (frameHeaderBytes + frameDigestBytes)
    return if bytes.length - pos < frameLen then none else some frameLen

/-- The checksum of a frame. -/
def frameDigest (header payload : List UInt8) : List UInt8 :=
  C.blake3 (journalFrameDomain ++ journalMagic ++ header ++ payload)

/-- The delta of the complete frame at `pos`. -/
def frameDelta (bytes : List UInt8) (pos frameLen : ℕ) : Except String JournalDelta := do
  let header := bytes.extract pos (pos + frameHeaderBytes)
  let payload := bytes.extract (pos + frameHeaderBytes) (pos + frameLen - frameDigestBytes)
  let digest := bytes.extract (pos + frameLen - frameDigestBytes) (pos + frameLen)
  bailIf (frameDigest C header payload ≠ digest) s!"corrupt frame checksum at byte {pos}"
  mapError s!"frame at byte {pos}" (C.deltaFromSlice payload)

/-- What the reader asks of a key, in lower case. -/
def isTxid (key : String) : Bool := Text.byteLength key = 64 ∧ Text.isHex key

/-- The changes of a delta, made to the receipts one after the other. -/
def applyChanges (pos : ℕ) (reset : Bool) :
    List String → Receipts → List (String × Option String) → Except String Receipts
  | _, receipts, [] => .ok receipts
  | seen, receipts, (name, value) :: rest => do
    let key := Text.toAsciiLowercase name
    bailIf (¬ isTxid key) s!"frame at byte {pos}: key {key} is not a txid"
    bailIf (key ∈ seen) s!"frame at byte {pos}: txid {key} twice"
    match value with
    | some hex => applyChanges pos reset (key :: seen) (receipts.insert key hex) rest
    | none =>
      if reset then .error s!"frame at byte {pos}: a snapshot with a deletion"
      else applyChanges pos reset (key :: seen) (receipts.erase key) rest

/-- What the loop carries. -/
structure JournalState where
  receipts : Receipts
  pos : ℕ
  -- an `i32` of the source; a frame takes 48 bytes, and a file that is read has at most 2 ^ 28
  frames : ℕ

/-- The body of the loop: the state after the frame at `pos`, or `none` if the loop ends there. -/
def journalStep (bytes : List UInt8) (s : JournalState) : Except String (Option JournalState) := do
  match ← frameLen bytes s.pos with
  | none => return none
  | some len => do
    let delta ← frameDelta C bytes s.pos len
    bailIf (s.frames = 0 ∧ ¬ delta.reset) "the journal lacks its initial snapshot"
    let receipts ← applyChanges s.pos delta.reset [] (if delta.reset then ∅ else s.receipts)
      delta.changes.toList
    return some ⟨receipts, s.pos + len, s.frames + 1⟩

theorem frameLen_some {bytes : List UInt8} {pos len : ℕ} (h : frameLen bytes pos = .ok (some len)) :
    48 ≤ len ∧ pos + len ≤ bytes.length := by
  rw [frameLen] at h
  split_ifs at h with hshort
  · exact nomatch h
  · simp only [bind_ok, bailIf_ok, pure_ok] at h
    obtain ⟨_, -, _, -, h⟩ := h
    split_ifs at h with hlen
    obtain rfl := Option.some.inj h
    simp only [frameHeaderBytes, frameDigestBytes] at hshort hlen ⊢
    omega

/-- **A turn of the loop takes a frame of the bytes.** -/
theorem journalStep_some {bytes : List UInt8} {s s' : JournalState}
    (h : journalStep C bytes s = .ok (some s')) : s.pos + 48 ≤ s'.pos ∧ s'.pos ≤ bytes.length := by
  simp only [journalStep, bind_ok] at h
  obtain ⟨len, hlen, h⟩ := h
  rcases len with _ | len
  · exact nomatch h
  · simp only [bind_ok, pure_ok, Option.some.injEq] at h
    obtain ⟨_, -, _, -, _, -, rfl⟩ := h
    have hbounds := frameLen_some hlen
    dsimp only
    omega

/-- The loop over the frames. -/
def journalLoop (bytes : List UInt8) (s : JournalState) : Except String JournalState :=
  match _hstep : journalStep C bytes s with
  | .error e => .error e
  | .ok none => .ok s
  | .ok (some s') => journalLoop bytes s'
termination_by bytes.length - s.pos
decreasing_by
  have hbounds := journalStep_some C _hstep
  omega

/-- `parse_journal`. -/
def parseJournal (bytes : List UInt8) : Except String Receipts := do
  bailIf (¬ journalMagic <+: bytes) "not a wallet receipt journal"
  let s ← journalLoop C bytes ⟨∅, journalMagic.length, 0⟩
  bailIf (s.frames = 0) "the journal holds no complete frame"
  return s.receipts

/-! ## A complete frame -/

theorem extract_of_append {α : Type} {l own : List α} {i j : ℕ} (pre post : List α)
    (hl : l = pre ++ (own ++ post)) (hi : i = pre.length) (hj : j = i + own.length) :
    l.extract i j = own := by
  subst hl hi hj
  rw [List.extract_eq_take_drop, List.drop_left, Nat.add_sub_cancel_left, List.take_left]

/-- A frame that is there in full, as its first length says. -/
structure RawFrame where
  header : List UInt8
  payload : List UInt8
  digest : List UInt8
  length_header : header.length = frameHeaderBytes
  length_digest : digest.length = frameDigestBytes
  declared : (UInt64.ofLeBytes (header.take 8)).toNat = payload.length

namespace RawFrame

variable {C} (f : RawFrame)

/-- A frame as it stands in the file. -/
def bytes : List UInt8 := f.header ++ f.payload ++ f.digest

theorem length_bytes : f.bytes.length = f.payload.length + 48 := by
  rw [bytes, List.length_append, List.length_append, f.length_header, f.length_digest,
    frameHeaderBytes, frameDigestBytes]
  omega

/-- The two lengths agree, and the frame is no longer than an address. -/
def Sized : Prop :=
  UInt64.ofLeBytes (f.header.take 8) = ~~~UInt64.ofLeBytes (f.header.drop 8)
    ∧ f.payload.length + 48 < 2 ^ 64

theorem bytes_eq (pre rest : List UInt8) : pre ++ (f.bytes ++ rest)
    = pre ++ (f.header ++ (f.payload ++ (f.digest ++ rest))) := by
  simp only [bytes, List.append_assoc]

theorem header_eq (pre rest : List UInt8) :
    (pre ++ (f.bytes ++ rest)).extract pre.length (pre.length + frameHeaderBytes) = f.header :=
  extract_of_append pre _ (f.bytes_eq pre rest) rfl (by rw [f.length_header])

/-- **The length of a complete frame.** -/
theorem frameLen_eq (pre rest : List UInt8) {len : Option ℕ} :
    frameLen (pre ++ (f.bytes ++ rest)) pre.length = .ok len
      ↔ f.Sized ∧ len = some f.bytes.length := by
  have hlength : (pre ++ (f.bytes ++ rest)).length - pre.length
      = f.payload.length + 48 + rest.length := by
    rw [List.length_append, Nat.add_sub_cancel_left, List.length_append, f.length_bytes]
  have hlong : ¬ f.payload.length + 48 + rest.length < frameHeaderBytes := by
    rw [frameHeaderBytes]
    omega
  have hcomplete : ¬ f.payload.length + 48 + rest.length
      < f.payload.length + (frameHeaderBytes + frameDigestBytes) := by
    rw [frameHeaderBytes, frameDigestBytes]
    omega
  rw [frameLen, hlength, if_neg hlong, header_eq]
  simp only [bind_ok, bailIf_ok, pure_ok, f.declared, if_neg hcomplete, not_not, not_le]
  rw [Sized, f.length_bytes, and_assoc]
  exact ⟨fun ⟨_, hinv, _, hfits, h⟩ => ⟨hinv, hfits, h.symm⟩,
    fun ⟨hinv, hfits, h⟩ => ⟨(), hinv, (), hfits, h.symm⟩⟩

/-- **The delta of a complete frame.** -/
theorem frameDelta_eq (pre rest : List UInt8) {delta : JournalDelta} :
    frameDelta C (pre ++ (f.bytes ++ rest)) pre.length f.bytes.length = .ok delta
      ↔ frameDigest C f.header f.payload = f.digest ∧ C.deltaFromSlice f.payload = .ok delta := by
  have hend : pre.length + f.bytes.length - frameDigestBytes
      = pre.length + frameHeaderBytes + f.payload.length := by
    rw [f.length_bytes, frameHeaderBytes, frameDigestBytes]
    omega
  have hpayload : (pre ++ (f.bytes ++ rest)).extract (pre.length + frameHeaderBytes)
      (pre.length + f.bytes.length - frameDigestBytes) = f.payload := by
    refine extract_of_append (pre ++ f.header) (f.digest ++ rest) ?_ ?_ hend
    · rw [f.bytes_eq, List.append_assoc]
    · rw [List.length_append, f.length_header]
  have hdigest : (pre ++ (f.bytes ++ rest)).extract
      (pre.length + f.bytes.length - frameDigestBytes) (pre.length + f.bytes.length)
      = f.digest := by
    refine extract_of_append (pre ++ f.header ++ f.payload) rest ?_ ?_ ?_
    · rw [f.bytes_eq]
      simp only [List.append_assoc]
    · rw [hend, List.length_append, List.length_append, f.length_header]
    · rw [f.length_digest, hend, f.length_bytes, frameHeaderBytes, frameDigestBytes]
      omega
  simp only [frameDelta, header_eq, hpayload, hdigest, bind_ok, bailIf_ok, mapError_ok, not_not]
  exact ⟨fun ⟨_, hd, h⟩ => ⟨hd, h⟩, fun ⟨hd, h⟩ => ⟨(), hd, h⟩⟩

end RawFrame

end Permanode
