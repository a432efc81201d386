import Permanode.Core.Db
import Permanode.Node.Decode

/-!
# Archive/Raw — the raw block archive

`permanode/src/raw.rs`: bytes are kept next to the decoded tables once they prove to be the block on
record (`verify`), compressed, and are checked again on the way out (`loadRaw`).
-/

namespace Permanode

open Outcome

/-- `CODEC`. -/
def codec : String := "zlib"

variable (N : Noid)

/-- Checks that `bytes` are block `(height, hash)`. -/
def verify (bytes : List UInt8) (height : ℕ) (hash : String) : Except String Unit := do
  bailIf (N.maxBlockBytes < bytes.length) s!"{bytes.length} bytes, more than a block can have"
  let _ ← decodeBoundBlock N bytes height hash
  return ()

/-- The bytes that were compressed, checked against the length on record. -/
def decompress (codecName : String) (data : List UInt8) (rawLen : ℕ) :
    Except String (List UInt8) := do
  bailIf (codecName ≠ codec) s!"unknown codec {codecName}"
  bailIf (N.maxBlockBytes < rawLen) s!"recorded length {rawLen} is more than a block can have"
  let out ← mapError "decompress" (N.inflate data (rawLen + 1))
  bailIf (out.length ≠ rawLen) s!"decompressed to {out.length} bytes, recorded {rawLen}"
  return out

namespace Db

/-- Verifies `bytes` against block `(height, hash)` on record and keeps them; `false` if the block
is not on record or its bytes already are. -/
def storeRaw (db : Db) (height : ℕ) (hash : String) (bytes : List UInt8) (source : String)
    (now : Instant) : Except String (Db × Bool) :=
  match db.blockId height hash with
  | none => return (db, false)
  | some id =>
    if db.hasRawBlock id then return (db, false)
    else do
      verify N bytes height hash
      return (db.insertRawBlock id codec bytes.length (N.deflate bytes) source now, true)

/-- The kept bytes of block `(height, hash)`, checked again on the way out. -/
def loadRaw (db : Db) (height : ℕ) (hash : String) : Except String (Option (List UInt8)) :=
  match db.rawBlock height hash with
  | none => return none
  | some r => do
    let bytes ← decompress N r.codec r.data r.rawLen
    mapError "kept bytes no longer match the block on record" (verify N bytes height hash)
    return some bytes

end Db

end Permanode
