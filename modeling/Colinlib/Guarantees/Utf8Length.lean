import Colinlib.Source.Utf8

/-!
# Walking over a string

The decoder looks as far ahead as the first byte demands and does not know where the
string ends. It stays inside because the zero byte is no tail byte: the walk from the
start of a string goes from one form to the next and stops at the zero byte or at bytes
that do not decode. `coutf8_len` counts the steps of this walk, in an `int`.
-/
namespace Colinlib.Guarantees.Utf8Length
open Colinlib.Theory.CMemory Colinlib.Theory.Utf8 Colinlib.Source.Utf8

/-- Decoding step by step over codes that are not zero: the codes and where it stands then. -/
inductive Walk : List UInt8 → List Nat → List UInt8 → Prop where
  | here (s : List UInt8) : Walk s [] s
  | step {s rest : List UInt8} {b : UInt8} {code n : Nat} {codes : List Nat}
      (first : charAt s = .ok b) (nonzero : b ≠ 0) (decoded : coutf8Decode s = .ok (some (code, n)))
      (onward : Walk (s.drop n) codes rest) : Walk s (code :: codes) rest

/-- A walk is one over the forms of its codes. -/
theorem Walk.forms {s rest : List UInt8} {codes : List Nat} (walk : Walk s codes rest) :
    s = encodeAll codes ++ rest ∧ Codes codes := by
  induction walk with
  | here s => exact ⟨rfl, codes_nil⟩
  | @step s rest b code n codes first nonzero decoded onward ih =>
      obtain ⟨split, valid⟩ := ih
      obtain ⟨bound, ⟨later, start⟩, moved⟩ := decode_iff.mp decoded
      rw [moved, ← start, List.drop_left] at split
      refine ⟨by rw [encodeAll_cons, List.append_assoc, ← split, start],
        List.forall_mem_cons.mpr ⟨⟨?_, bound⟩, valid⟩⟩
      rintro rfl
      rw [← start] at first
      exact nonzero (Except.ok.inj first).symm

theorem walk_encodeAll {codes : List Nat} (valid : Codes codes) (rest : List UInt8) :
    Walk (encodeAll codes ++ rest) codes rest := by
  induction codes with
  | nil => exact .here rest
  | cons code codes ih =>
      obtain ⟨b, first, nonzero⟩ := charAt_encode (s := encodeAll codes ++ rest)
        (valid code List.mem_cons_self)
      have decoded := decode_encode (s := encodeAll codes ++ rest) (valid code List.mem_cons_self)
      rw [encodeAll_cons, List.append_assoc]
      refine .step first nonzero decoded ?_
      rw [List.drop_left]
      exact ih valid.tail

/-- Past `INT_MAX` codes the counter overflows. -/
theorem lenLoop_overflow {codes : List Nat} (valid : Codes codes) (rest : List UInt8)
    (fuel count : Nat) (enough : codes.length < fuel) (low : count ≤ intMax)
    (many : intMax < count + codes.length) :
    lenLoop fuel (encodeAll codes ++ rest) count = .error .intOverflow := by
  induction codes generalizing fuel count with
  | nil => exact absurd many (Nat.not_lt.mpr low)
  | cons code codes ih =>
      obtain ⟨fuel, rfl⟩ := Nat.exists_eq_succ_of_ne_zero (Nat.ne_of_gt (Nat.zero_lt_of_lt enough))
      obtain ⟨b, first, nonzero⟩ := charAt_encode (s := encodeAll codes ++ rest)
        (valid code List.mem_cons_self)
      have decoded := decode_encode (s := encodeAll codes ++ rest) (valid code List.mem_cons_self)
      rw [List.length_cons] at enough many
      rw [encodeAll_cons, List.append_assoc, lenLoop, first, ok_bind, if_neg nonzero, decoded, ok_bind]
      by_cases next : count + 1 ≤ intMax
      · simp only [int32, if_pos next, ok_bind, List.drop_left]
        exact ih valid.tail fuel (count + 1) (by omega) next (by omega)
      · simp only [int32, if_neg next]
        rfl

/-- The zero byte at the end stops every loop over the string. -/
theorem terminated_ends (s : List UInt8) : (0 : UInt8) ∈ s ++ [0] :=
  List.mem_append_right s List.mem_cons_self

/-! ## The guarantee -/

/-- From every byte of the string the decoder returns, and a pointer it returns is at
most at the zero byte. -/
def StaysInside (s : List UInt8) : Prop :=
  ∀ i < s.length, ∃ r, coutf8Decode ((s ++ [0]).drop i) = .ok r ∧
    ∀ code n, r = some (code, n) → i + n ≤ s.length

/-- There is a walk to the place where decoding stops, and the length of each is its
number of steps. -/
structure Counted (s : List UInt8) : Prop where
  walks : ∃ codes rest, Walk (s ++ [0]) codes rest ∧ Stuck rest
  length : ∀ codes rest, Walk (s ++ [0]) codes rest → Stuck rest → codes.length ≤ intMax →
    coutf8Len (s ++ [0]) = .ok codes.length

def nul : Char := Char.ofNat 0

/-- The bytes of a string of scalar values, of which the zero byte is at the end. -/
def utf8 (cs : List Char) : List UInt8 := cs.flatMap String.utf8EncodeChar

/-- A list of scalar values is read back from its encoding, step by step, and counted. -/
def ReadsBack (cs : List Char) : Prop :=
  Walk (utf8 cs ++ [0]) (cs.map fun c => c.val.toNat) [0] ∧
    (cs.length ≤ intMax → coutf8Len (utf8 cs ++ [0]) = .ok cs.length)

theorem staysInside (s : List UInt8) : StaysInside s := by
  intro i inside
  have cut : (s ++ [0]).drop i = s.drop i ++ [0] :=
    List.drop_append_of_le_length (Nat.le_of_lt inside)
  rw [cut]
  obtain ⟨r, decoded⟩ := decode_total (terminated_ends (s.drop i))
  refine ⟨r, decoded, ?_⟩
  rintro code n rfl
  obtain ⟨bound, start, moved⟩ := decode_iff.mp decoded
  have left : (s.drop i).length = s.length - i := List.length_drop
  rcases List.prefix_concat_iff.mp start with all | within
  · -- the form would be that of zero, and end the string before its end
    have zero : code = 0 := zero_mem_encode bound (by rw [all]; exact terminated_ends _)
    rw [zero] at all
    have none : s.drop i = [] := by
      have length := congrArg List.length all
      rw [List.length_append, List.length_singleton] at length
      exact List.length_eq_zero_iff.mp (Nat.succ.inj length).symm
    have size := congrArg List.length none
    rw [left, List.length_nil] at size
    omega
  · have short := within.length_le
    omega

theorem counted (s : List UInt8) : Counted s where
  walks := by
    obtain ⟨codes, rest, split, valid, stop, -⟩ := string_codes (terminated_ends s)
    refine ⟨codes, rest, ?_, stop⟩
    rw [split]
    exact walk_encodeAll valid rest
  length codes rest walk stop small := by
    obtain ⟨split, valid⟩ := walk.forms
    rw [split]
    exact coutf8Len_codes valid stop small

theorem charCodes {cs : List Char} (clean : nul ∉ cs) :
    Codes (cs.map fun c => c.val.toNat) := by
  intro code mem
  obtain ⟨c, inside, rfl⟩ := List.mem_map.mp mem
  refine ⟨fun zero => ?_, ?_⟩
  · have same : c = nul := Char.ext (UInt32.toNat_inj.mp zero)
    exact clean (same ▸ inside)
  · have valid := c.valid
    simp only [UInt32.isValidChar, Nat.isValidChar] at valid
    unfold maxValue
    omega

theorem utf8_eq (cs : List Char) : utf8 cs = encodeAll (cs.map fun c => c.val.toNat) := by
  rw [utf8, encodeAll, List.flatMap_map]
  rfl

theorem readsBack {cs : List Char} (clean : nul ∉ cs) : ReadsBack cs := by
  have valid := charCodes clean
  rw [ReadsBack, utf8_eq]
  refine ⟨walk_encodeAll valid [0], fun small => ?_⟩
  have count := coutf8Len_codes valid stuck_end (by rwa [List.length_map])
  rwa [List.length_map] at count

/-- For every string the decoder stays inside; the length is the number of steps to the
first place where decoding stops, where an `int` holds this number, and lists of
scalar values other than zero are read back. -/
theorem utf8_walks_and_counts (s : List UInt8) :
    StaysInside s ∧ Counted s ∧ ∀ cs : List Char, nul ∉ cs → ReadsBack cs :=
  ⟨staysInside s, counted s, fun _ clean => readsBack clean⟩

/-- Bytes of `é` and the first of two bytes of another character. -/
theorem utf8_walks_and_counts_cutOff :
    StaysInside [0xc3, 0xa9, 0xc3] ∧ ReadsBack ['h', 'é'] := by
  obtain ⟨inside, -, back⟩ := utf8_walks_and_counts [0xc3, 0xa9, 0xc3]
  exact ⟨inside, back ['h', 'é'] (by decide)⟩

/-- `2^31` letters: the walk goes to their end, and the count does not fit in an `int`. -/
theorem count_overflows :
    Walk (List.replicate (2 ^ 31) 97 ++ [0]) (List.replicate (2 ^ 31) 97) [0] ∧ Stuck [0] ∧
      coutf8Len (List.replicate (2 ^ 31) 97 ++ [0]) = .error .intOverflow := by
  have valid : Codes (List.replicate (2 ^ 31) 97) := fun c mem => by
    rw [List.eq_of_mem_replicate mem]
    decide
  have length : (List.replicate (2 ^ 31) 97).length = 2 ^ 31 := List.length_replicate
  have bytes : encodeAll (List.replicate (2 ^ 31) 97) = List.replicate (2 ^ 31) 97 :=
    encodeAll_ascii (by decide) (2 ^ 31)
  have walk := walk_encodeAll valid [0]
  have enough := codes_lt_length (List.replicate (2 ^ 31) 97) stuck_end
  have overflow := lenLoop_overflow valid [0] _ 0 enough (Nat.zero_le intMax)
    (by rw [length, Nat.zero_add]; decide)
  rw [bytes] at walk overflow
  exact ⟨walk, stuck_end, overflow⟩

end Colinlib.Guarantees.Utf8Length
