import Permanode.Archive.Raw

/-!
# Archive/Unique — which bytes pass for a block

The hash of a block covers its header only, so bytes are bound to it in two steps: the pages to the
header through its `tx_root`, and the encoding to the block by being its canonical one.

* `decodeBoundBlock_ok` — what accepted bytes are.
* `verify_unique_iff` — two strings accepted for one height and hash are equal exactly if both carry
  pages or neither does: the `tx_root` of a block that carries none is not looked at.
-/

namespace Permanode

open Outcome

variable (N : Noid)

/-- What is assumed of the node's crates: the wire format reads back what it writes, and block id
and transaction root stand for what they are computed from. -/
structure Noid.Sound : Prop where
  fromBytes_toBytes : ∀ block, N.fromBytes (N.toBytes block) = .ok block
  blockId_injective : Function.Injective N.blockId
  txRoot_injective : ∀ p q root, p ≠ [] → q ≠ [] → N.tryComputeTxRoot p = .ok root →
    N.tryComputeTxRoot q = .ok root → p = q

/-- The bytes are those of a block that has transactions. -/
def carriesPages (bytes : List UInt8) : Prop :=
  ∃ block, N.fromBytes bytes = .ok block ∧ block.2 ≠ []

variable {N}

/-- **What accepted bytes are**: the canonical encoding of a block of that height and hash, whose
pages rebuild its `tx_root` if it has any. -/
theorem decodeBoundBlock_ok {bytes : List UInt8} {height : ℕ} {hash : String} {block : N.Block} :
    decodeBoundBlock N bytes height hash = .ok block ↔
      N.fromBytes bytes = .ok block ∧ N.height block.1 = height
        ∧ Text.hexEncode (N.blockId block.1) = hash
        ∧ (block.2 ≠ [] → N.tryComputeTxRoot block.2 = .ok (N.txRoot block.1))
        ∧ N.toBytes block = bytes := by
  have hroot : ∀ b : N.Block, checkTxRoot N b = .ok () ↔
      (b.2 ≠ [] → N.tryComputeTxRoot b.2 = .ok (N.txRoot b.1)) := fun b => by
    unfold checkTxRoot
    split_ifs with h
    · exact ⟨fun _ hne => absurd h hne, fun _ => rfl⟩
    · simp only [bind_ok, bailIf_ok, mapError_ok, not_not]
      exact ⟨fun ⟨_, hr, he⟩ _ => he ▸ hr, fun hr => ⟨_, hr h, rfl⟩⟩
  simp only [decodeBoundBlock, bind_ok, bailIf_ok, mapError_ok, pure_ok, not_not, hroot]
  constructor
  · rintro ⟨b, hb, _, hh, _, hid, _, ht, _, he, rfl⟩
    exact ⟨hb, hh, hid, ht, he⟩
  · rintro ⟨hb, hh, hid, ht, he⟩
    exact ⟨block, hb, (), hh, (), hid, (), ht, (), he, rfl⟩

theorem verify_ok {bytes : List UInt8} {height : ℕ} {hash : String} :
    verify N bytes height hash = .ok () ↔
      bytes.length ≤ N.maxBlockBytes
        ∧ ∃ block, decodeBoundBlock N bytes height hash = .ok block := by
  simp only [verify, bind_ok, bailIf_ok, pure_ok, not_lt]
  exact ⟨fun ⟨_, hl, b, hb, _⟩ => ⟨hl, b, hb⟩, fun ⟨hl, b, hb⟩ => ⟨(), hl, b, hb, trivial⟩⟩

/-- Two blocks of one hash that both have pages are one block. -/
theorem block_unique (hN : N.Sound) {a b : List UInt8} {height : ℕ} {hash : String}
    {x y : N.Block} (hx : decodeBoundBlock N a height hash = .ok x)
    (hy : decodeBoundBlock N b height hash = .ok y) (hpages : x.2 = [] ↔ y.2 = []) : x = y := by
  obtain ⟨-, -, hxid, hxroot, -⟩ := decodeBoundBlock_ok.mp hx
  obtain ⟨-, -, hyid, hyroot, -⟩ := decodeBoundBlock_ok.mp hy
  have hheader : x.1 = y.1 :=
    hN.blockId_injective (Text.hexEncode_injective (hxid.trans hyid.symm))
  refine Prod.ext hheader ?_
  by_cases hne : x.2 = []
  · rw [hne, hpages.mp hne]
  · have hny : y.2 ≠ [] := fun h => hne (hpages.mpr h)
    exact hN.txRoot_injective _ _ _ hne hny (hxroot hne) (hheader ▸ hyroot hny)

theorem carriesPages_iff {bytes : List UInt8} {height : ℕ} {hash : String} {block : N.Block}
    (h : decodeBoundBlock N bytes height hash = .ok block) :
    carriesPages N bytes ↔ block.2 ≠ [] := by
  obtain ⟨hb, -⟩ := decodeBoundBlock_ok.mp h
  refine ⟨fun ⟨b, hb', hne⟩ => ?_, fun hne => ⟨block, hb, hne⟩⟩
  rwa [← Except.ok.inj (hb.symm.trans hb')] at hne

/-- **Accepted bytes are unique up to the missing check**: two strings that pass for one height and
hash are equal exactly if both carry transactions or neither does. -/
theorem verify_unique_iff (hN : N.Sound) (height : ℕ) (hash : String) {a b : List UInt8}
    (ha : verify N a height hash = .ok ()) (hb : verify N b height hash = .ok ()) :
    a = b ↔ (carriesPages N a ↔ carriesPages N b) := by
  obtain ⟨-, x, hx⟩ := verify_ok.mp ha
  obtain ⟨-, y, hy⟩ := verify_ok.mp hb
  refine ⟨fun h => h ▸ Iff.rfl, fun h => ?_⟩
  rw [carriesPages_iff hx, carriesPages_iff hy, not_iff_not] at h
  obtain ⟨-, -, -, -, hax⟩ := decodeBoundBlock_ok.mp hx
  obtain ⟨-, -, -, -, hby⟩ := decodeBoundBlock_ok.mp hy
  rw [← hax, ← hby, block_unique hN hx hy h]

theorem Noid.sample_sound : Noid.sample.Sound where
  fromBytes_toBytes := decodeSample_encodeSample
  blockId_injective := by
    rintro ⟨h, root⟩ ⟨h', root'⟩ heq
    obtain ⟨rfl, rfl⟩ := List.cons.inj heq
    rfl
  txRoot_injective p q root _ _ hp hq := (Except.ok.inj hp).trans (Except.ok.inj hq).symm

/-- A block with one page, and its header alone. -/
theorem verify_unique_iff_sample :
    ([1, 1, 7, 0, 7] : List UInt8) = [1, 1, 7, 0] ↔
      (carriesPages Noid.sample [1, 1, 7, 0, 7] ↔ carriesPages Noid.sample [1, 1, 7, 0]) :=
  verify_unique_iff Noid.sample_sound 1 "0107" (by decide) (by decide)

/-- **The header alone passes for its block.** -/
theorem verify_not_unique :
    ¬ ∀ N : Noid, N.Sound → ∀ (height : ℕ) (hash : String) (a b : List UInt8),
      verify N a height hash = .ok () → verify N b height hash = .ok () → a = b := fun h =>
  absurd (h Noid.sample Noid.sample_sound 1 "0107" [1, 1, 7, 0, 7] [1, 1, 7, 0] (by decide)
    (by decide)) (by decide)

end Permanode
