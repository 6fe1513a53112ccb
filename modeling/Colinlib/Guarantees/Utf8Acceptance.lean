import Colinlib.Source.Utf8

/-!
# Which strings `coutf8_decode` accepts

The reference is the encoding of the scalar values, the `Char`s. The function keeps to
it except for surrogates: their three-byte forms are decoded like any other, though the
header file promises `NULL` for malformed input.
-/
namespace Colinlib.Guarantees.Utf8Acceptance
open Colinlib.Theory.CMemory Colinlib.Theory.Utf8 Colinlib.Source.Utf8

/-- The string starts with the form of the scalar value. -/
def StartsWith (s : List UInt8) (c : Char) : Prop := String.utf8EncodeChar c <+: s

/-- The function succeeds exactly where a well-formed sequence starts the string, with
its code point and its length. -/
def AcceptsWellFormed (s : List UInt8) : Prop :=
  (∃ r, coutf8Decode s = .ok r) ∧
    ∀ code n, coutf8Decode s = .ok (some (code, n)) ↔
      ∃ c : Char, StartsWith s c ∧ code = c.val.toNat ∧ n = (String.utf8EncodeChar c).length

/-- The string starts with the bytes a surrogate would have. -/
def SurrogateFirst (s : List UInt8) : Prop :=
  ∃ b d rest, s = 0xed :: b :: d :: rest ∧ 0xa0 ≤ b.toNat ∧ b.toNat < 0xc0 ∧ IsTail d

theorem not_surrogate (c : Char) : ¬ (0xd800 ≤ c.val.toNat ∧ c.val.toNat ≤ 0xdfff) := by
  have valid := c.valid
  simp only [UInt32.isValidChar, Nat.isValidChar] at valid
  omega

theorem char_le (c : Char) : c.val.toNat ≤ maxValue := by
  have valid := c.valid
  simp only [UInt32.isValidChar, Nat.isValidChar] at valid
  unfold maxValue
  omega

theorem scalar {v : Nat} (bound : v ≤ maxValue) (h : ¬ (0xd800 ≤ v ∧ v ≤ 0xdfff)) :
    ∃ c : Char, c.val.toNat = v := by
  unfold maxValue at bound
  have valid : v.isValidChar := by
    simp only [Nat.isValidChar]
    omega
  exact ⟨Char.ofNatAux v valid, rfl⟩

theorem surrogateFirst_iff {s : List UInt8} : SurrogateFirst s ↔
    ∃ v, 0xd800 ≤ v ∧ v ≤ 0xdfff ∧ encode v <+: s ++ [0] := by
  have first : (0xed : UInt8).toNat = 0xed := rfl
  constructor
  · rintro ⟨b, d, rest, rfl, low, high, least, most⟩
    refine ⟨0xd000 + (b.toNat - 0x80) * 64 + (d.toNat - 0x80), by omega, by omega, ?_⟩
    have form : encode (0xd000 + (b.toNat - 0x80) * 64 + (d.toNat - 0x80)) = [0xed, b, d] := by
      rw [encode_eq_three, first]
      omega
    rw [form]
    exact List.prefix_append [0xed, b, d] (rest ++ [0])
  · rintro ⟨v, low, high, start⟩
    have form : encode v = [0xed, .ofNat (v / 64 % 64 + 0x80), .ofNat (v % 64 + 0x80)] := by
      rw [encode_eq_three, UInt8.toNat_ofNat', UInt8.toNat_ofNat', first]
      omega
    have tail : IsTail (.ofNat (v % 64 + 0x80)) := by
      unfold IsTail
      rw [UInt8.toNat_ofNat']
      omega
    rw [form] at start
    rcases List.prefix_concat_iff.mp start with all | ⟨rest, inside⟩
    · have last := congrArg List.getLast? all
      rw [List.getLast?_append, List.getLast?_singleton] at last
      have zero : UInt8.ofNat (v % 64 + 0x80) = 0 := Option.some.inj last
      rw [zero] at tail
      exact absurd tail (by decide)
    · refine ⟨_, _, rest, inside.symm, ?_, ?_, tail⟩ <;> rw [UInt8.toNat_ofNat'] <;> omega

/-- For every string: the function accepts exactly the well-formed sequences if and only
if the string does not start with the bytes of a surrogate. -/
theorem decode_accepts_wellFormed (s : List UInt8) :
    AcceptsWellFormed (s ++ [0]) ↔ ¬ SurrogateFirst s := by
  rw [surrogateFirst_iff]
  constructor
  · rintro ⟨-, accepted⟩ ⟨v, low, high, start⟩
    have bound : v ≤ maxValue := Nat.le_trans high (by decide)
    obtain ⟨c, -, value, -⟩ := (accepted v _).mp (decode_iff.mpr ⟨bound, start, rfl⟩)
    exact not_surrogate c ⟨value ▸ low, value ▸ high⟩
  · intro clean
    have ends : (0 : UInt8) ∈ s ++ [0] := List.mem_append_right s List.mem_cons_self
    refine ⟨decode_total ends, fun code n => ?_⟩
    rw [decode_iff]
    constructor
    · rintro ⟨bound, start, moved⟩
      obtain ⟨c, rfl⟩ := scalar bound fun surrogate => clean ⟨code, surrogate.1, surrogate.2, start⟩
      exact ⟨c, start, rfl, moved⟩
    · rintro ⟨c, start, rfl, moved⟩
      exact ⟨char_le c, start, moved⟩

/-- `U+D800`, which is no scalar value, is returned as a code point. -/
theorem surrogate_is_accepted : ¬ AcceptsWellFormed ([0xed, 0xa0, 0x80] ++ [0]) := by
  rintro ⟨-, accepted⟩
  have decoded : coutf8Decode ([0xed, 0xa0, 0x80] ++ [0]) = .ok (some (0xd800, 3)) := by
    decide +kernel
  obtain ⟨c, -, value, -⟩ := (accepted 0xd800 3).mp decoded
  exact not_surrogate c ⟨by omega, by omega⟩

end Colinlib.Guarantees.Utf8Acceptance
