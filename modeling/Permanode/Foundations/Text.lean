import Mathlib.Data.List.Basic
import Mathlib.Tactic.IntervalCases

/-!
# Foundations/Text — bytes and numbers written as text

Hexadecimal for byte strings (`hexEncode` writes lower case, `hexDecode` reads either case) and
decimal for unsigned 64-bit numbers, with the round trips: what was written is read back
(`hexDecode_hexEncode`, `parseU64_repr`), so two values written alike are one value.
-/

namespace Text

/-! ## Hexadecimal -/

/-- The two digits of a byte. -/
def hexByte (b : UInt8) : List Char := [Nat.digitChar (b.toNat / 16), Nat.digitChar (b.toNat % 16)]

/-- Bytes as lower-case hexadecimal. -/
def hexEncode (bs : List UInt8) : String := String.ofList (bs.flatMap hexByte)

/-- The value of a hexadecimal digit of either case. -/
def hexValue? (c : Char) : Option ℕ :=
  if '0' ≤ c ∧ c ≤ '9' then some (c.toNat - '0'.toNat)
  else if 'a' ≤ c ∧ c ≤ 'f' then some (c.toNat - 'a'.toNat + 10)
  else if 'A' ≤ c ∧ c ≤ 'F' then some (c.toNat - 'A'.toNat + 10)
  else none

/-- Two digits a byte; an odd one out is an error. -/
def hexDecodeChars : List Char → Option (List UInt8)
  | [] => some []
  | [_] => none
  | c :: d :: cs => do
    let hi ← hexValue? c
    let lo ← hexValue? d
    let rest ← hexDecodeChars cs
    return UInt8.ofNat (hi * 16 + lo) :: rest

/-- The bytes a hexadecimal text stands for, if it is one. -/
def hexDecode (s : String) : Option (List UInt8) := hexDecodeChars s.toList

/-- A digit has its value. -/
theorem hexValue?_digitChar {n : ℕ} (h : n < 16) : hexValue? (Nat.digitChar n) = some n := by
  interval_cases n <;> decide

/-- The two digits of a byte are read back as the byte. -/
theorem hexDecodeChars_hexByte (b : UInt8) (cs : List Char) :
    hexDecodeChars (hexByte b ++ cs) = (hexDecodeChars cs).map (b :: ·) := by
  have hb : b.toNat < 256 := b.toNat_lt
  have hval : UInt8.ofNat (b.toNat / 16 * 16 + b.toNat % 16) = b := by
    rw [Nat.div_add_mod', UInt8.ofNat_toNat]
  simp only [hexByte, List.cons_append, List.nil_append, hexDecodeChars,
    hexValue?_digitChar (n := b.toNat / 16) (by omega),
    hexValue?_digitChar (n := b.toNat % 16) (by omega), Option.bind_eq_bind, Option.bind_some, hval]
  cases hexDecodeChars cs <;> rfl

/-- **Hexadecimal reads back what it wrote.** -/
@[simp] theorem hexDecode_hexEncode (bs : List UInt8) : hexDecode (hexEncode bs) = some bs := by
  rw [hexDecode, hexEncode, String.toList_ofList]
  induction bs with
  | nil => rfl
  | cons b bs ih => rw [List.flatMap_cons, hexDecodeChars_hexByte, ih]; rfl

/-- **Bytes are told apart by their hex digits.** -/
theorem hexEncode_injective : Function.Injective hexEncode := fun a b h =>
  Option.some.inj (by rw [← hexDecode_hexEncode a, h, hexDecode_hexEncode])

/-! ## Decimal -/

/-- The number a non-empty run of decimal digits stands for, if it fits 64 bits. -/
def parseDigits (cs : List Char) : Option UInt64 :=
  if cs ≠ [] ∧ cs.all Char.isDigit then
    if Nat.ofDigitChars 10 cs 0 < 2 ^ 64 then some (UInt64.ofNat (Nat.ofDigitChars 10 cs 0))
    else none
  else none

/-- `str::parse::<u64>`: decimal digits, with an optional leading plus. -/
def parseU64 (s : String) : Option UInt64 :=
  match s.toList with
  | '+' :: cs => parseDigits cs
  | cs => parseDigits cs

/-- `str::parse::<i64>`. -/
def parseI64 (s : String) : Option ℤ :=
  match s.toList with
  | '-' :: cs => ((parseDigits cs).filter (·.toNat ≤ 2 ^ 63)).map fun n => -n.toNat
  | _ => ((parseU64 s).filter (·.toNat < 2 ^ 63)).map fun n => n.toNat

/-- **A number written in digits is read back.** -/
theorem parseDigits_toDigits {n : ℕ} (h : n < 2 ^ 64) :
    parseDigits (Nat.toDigits 10 n) = some (UInt64.ofNat n) := by
  have hdig : (Nat.toDigits 10 n).all Char.isDigit = true := by
    rw [List.all_eq_true]
    exact fun c hc => Nat.isDigit_of_mem_toDigits (by decide) (by decide) hc
  have hne : Nat.toDigits 10 n ≠ [] := Nat.toDigits_ne_nil
  rw [parseDigits, if_pos ⟨hne, hdig⟩, Nat.ofDigitChars_ten_toDigits, if_pos h]

theorem parseU64_repr_eq (n : ℕ) : parseU64 (Nat.repr n) = parseDigits (Nat.toDigits 10 n) := by
  unfold parseU64
  rw [Nat.toList_repr]
  split
  · next cs heq =>
    have : ('+' : Char).isDigit = true :=
      Nat.isDigit_of_mem_toDigits (b := 10) (n := n) (by decide) (by decide)
        (by rw [heq]; exact List.mem_cons_self)
    exact absurd this (by decide)
  · rfl

/-- **Decimal reads back what it wrote.** -/
theorem parseU64_repr {n : ℕ} (h : n < 2 ^ 64) : parseU64 (Nat.repr n) = some (UInt64.ofNat n) := by
  rw [parseU64_repr_eq, parseDigits_toDigits h]

/-- Numbers written alike are one number. -/
theorem repr_injective : Function.Injective Nat.repr := fun m n h => by
  have hdigits : Nat.toDigits 10 m = Nat.toDigits 10 n := by
    rw [← Nat.toList_repr, ← Nat.toList_repr, h]
  rw [← Nat.ofDigitChars_ten_toDigits (n := m), hdigits, Nat.ofDigitChars_ten_toDigits]

/-- A number is written in digits. -/
theorem repr_ne_of_not_digit {n : ℕ} {s : String} (hs : s.toList.all Char.isDigit = false) :
    Nat.repr n ≠ s := by
  rintro rfl
  refine absurd hs ?_
  rw [Nat.toList_repr, Bool.not_eq_false, List.all_eq_true]
  exact fun c hc => Nat.isDigit_of_mem_toDigits (by decide) (by decide) hc

/-- What is read of a number written in decimal is that number, if anything is. -/
theorem toNat_of_parseU64_repr {n : ℕ} {m : UInt64} (h : parseU64 (Nat.repr n) = some m) :
    m.toNat = n := by
  rw [parseU64_repr_eq, parseDigits, Nat.ofDigitChars_ten_toDigits] at h
  split_ifs at h with _ hn
  obtain rfl := Option.some.inj h
  exact UInt64.toNat_ofNat_of_lt' hn

/-! ## ASCII letters -/

/-- `str::to_ascii_lowercase`. -/
def toAsciiLowercase (s : String) : String := String.ofList (s.toList.map Char.toLower)

/-- The length of a text in bytes. -/
def byteLength (s : String) : ℕ := (s.toList.map Char.utf8Size).sum

/-- `is_ascii_hexdigit`, of every byte. -/
def isHex (s : String) : Bool := s.toList.all fun c => (hexValue? c).isSome

/-- A letter is put in lower case, and no other character changes. -/
theorem toLower_cases (c : Char) : c.toLower = c
    ∨ ∃ n < 26, c = Char.ofNat (65 + n) ∧ c.toLower = Char.ofNat (97 + n) := by
  by_cases h : c.val ≥ 'A'.val ∧ c.val ≤ 'Z'.val
  · right
    have hlow : 65 ≤ c.toNat := h.1
    have hhigh : c.toNat ≤ 90 := h.2
    obtain ⟨n, hn⟩ := Nat.exists_eq_add_of_le hlow
    have hc : c = Char.ofNat (65 + n) := by rw [← hn, Char.ofNat_toNat]
    refine ⟨n, by omega, hc, ?_⟩
    rw [hc]
    have hlt : n < 26 := by omega
    interval_cases n <;> rfl
  · exact Or.inl (dif_neg h)

/-- A digit in lower case has the same value. -/
theorem hexValue?_toLower (c : Char) : hexValue? c.toLower = hexValue? c := by
  obtain h | ⟨n, hn, hc, h⟩ := toLower_cases c
  · rw [h]
  · rw [h, hc]
    interval_cases n <;> rfl

theorem utf8Size_toLower (c : Char) : c.toLower.utf8Size = c.utf8Size := by
  obtain h | ⟨n, hn, hc, h⟩ := toLower_cases c
  · rw [h]
  · rw [h, hc]
    interval_cases n <;> rfl

@[simp] theorem byteLength_toAsciiLowercase (s : String) :
    byteLength (toAsciiLowercase s) = byteLength s := by
  rw [byteLength, toAsciiLowercase, String.toList_ofList, List.map_map]
  exact congrArg List.sum (List.map_congr_left fun c _ => utf8Size_toLower c)

@[simp] theorem isHex_toAsciiLowercase (s : String) : isHex (toAsciiLowercase s) = isHex s := by
  rw [isHex, toAsciiLowercase, String.toList_ofList, List.all_map, isHex]
  exact congrArg (List.all s.toList) (funext fun c => congrArg Option.isSome (hexValue?_toLower c))

end Text
