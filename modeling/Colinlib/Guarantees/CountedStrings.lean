import Colinlib.Source.Str

/-!
# The length of a counted string

The header says that `len` does not count the zero byte, and `costr_len` returns it. Every
constructor stores the size of its copy there: one more than the length, or for a formatted
text one more than the size that was tried.
-/
namespace Colinlib.Guarantees.CountedStrings
open Colinlib.Theory.CMemory Colinlib.Theory.CStreams Colinlib.Source.Str

variable {memory told content text rest : List UInt8} {len : Int} {c : Costr}

/-- The content stands behind the header with a zero byte, and `costr_len` is its length. -/
def Counted (c : Costr) (content : List UInt8) : Prop :=
  HoldsString c.str content ∧ costrLen c = .ok (content.length : Int)

/-- A call of `costr_new`: the memory at `s`, the bytes of it that may be read, and those that
the string is to have. -/
inductive Call : List UInt8 → Int → List UInt8 → List UInt8 → Prop
  | counted {content : List UInt8} (clean : 0 ∉ content) (fits : content.length ≤ intMax)
      (rest : List UInt8) : Call (content ++ rest) content.length content content
  | terminated {content : List UInt8} (clean : 0 ∉ content) (rest : List UInt8) :
      Call (content ++ 0 :: rest) (-1) (content ++ [0]) content

/-- The string has the content, and the call goes the same way where no other bytes can be read. -/
def Copies (memory : List UInt8) (len : Int) (told content : List UInt8) : Prop :=
  ∃ c, costrNew (some memory) len = .ok c ∧ costrNew (some told) len = .ok c ∧ Counted c content

/-! ## What is stored -/

theorem costrLen_eq (c : Costr) : costrLen c = .ok c.header.len := rfl

/-- The size of the copy is not the length, not even where it is narrowed. -/
theorem newSize_more (call : Call memory len told content) {sz : Int}
    (size : newSize (some memory) len = .ok sz) : sz ≠ content.length := by
  cases call with
  | counted clean fits rest =>
      rw [newSize_counted, addInt32] at size
      split at size
      · have same := Except.ok.inj size
        omega
      · cases size
  | terminated clean rest =>
      rw [newSize_terminated clean] at size
      rw [← Except.ok.inj size]
      exact toInt32_succ_ne content.length

/-- A formatted text stands in an allocation for the size that was tried last. -/
def Formatted (c : Costr) (text : List UInt8) : Prop :=
  ∃ maxsz : Nat, text.length < maxsz ∧ c.header.len = maxsz + 1 ∧
    c.str = (text ++ [0]).map some ++ List.replicate (maxsz - text.length) (some 0)

/-- A new string without a source is the size that was asked for, and one byte more. -/
theorem blank_spec {n : Nat} (small : n + 1 + sizeofCostrheader ≤ intMax) :
    costrNew none n = .ok ⟨⟨(n + 1 : Nat), (n + 1 + sizeofCostrheader : Nat)⟩,
      List.replicate (n + 1) (some 0)⟩ := by
  have size : newSize none n = .ok (n + 1 : Nat) := by
    rw [newSize_counted, addInt32, if_pos (by omega)]
    rfl
  rw [costrNew_spec size small]
  rfl

/-- The loop ends with the text, or where the size cannot be doubled. -/
theorem formatLoop_spec (counted : text.length ≤ intMax) (fuel k : Nat) (upto : k ≤ 30)
    (enough : 31 ≤ k + fuel) :
    (text.length < 2 ^ 30 → ∃ c, formatLoop (some text) fuel (2 ^ k) = .ok (some c) ∧
      Formatted c text) ∧
    (2 ^ 30 ≤ text.length → formatLoop (some text) fuel (2 ^ k) = .error .intOverflow) := by
  induction fuel generalizing k with
  | zero => omega
  | succ fuel ih =>
      have size : 2 ^ k ≤ 2 ^ 30 := Nat.pow_le_pow_right Nat.two_pos upto
      have pos : 0 < 2 ^ k := Nat.two_pow_pos k
      have new := blank_spec (n := 2 ^ k) (by unfold sizeofCostrheader intMax; omega)
      unfold formatLoop
      rw [new, ok_bind]
      simp only
      by_cases fits : text.length < 2 ^ k
      · rw [vsnprintf_fits counted fits (by simp), ok_bind]
        simp only
        rw [if_neg (by omega), if_neg (by omega)]
        have left : 2 ^ k + 1 - (text.length + 1) = 2 ^ k - text.length := by omega
        refine ⟨fun _ => ⟨_, rfl, 2 ^ k, fits, by simp, ?_⟩, fun long => by omega⟩
        rw [List.drop_replicate, left]
      · obtain ⟨str, long⟩ := @vsnprintf_long (List.replicate (2 ^ k + 1) (some 0)) text (2 ^ k)
          counted pos (Nat.le_of_not_lt fits) (by simp)
        rw [long, ok_bind]
        simp only
        rw [if_neg (by omega), if_pos (by omega)]
        rcases Nat.lt_or_ge k 30 with below | top
        · have double : int32 (2 ^ k * 2) = .ok (2 ^ (k + 1)) := by
            have limit : 2 ^ (k + 1) ≤ 2 ^ 30 := Nat.pow_le_pow_right Nat.two_pos below
            rw [← Nat.pow_succ, int32, if_pos (by unfold intMax; omega)]
          rw [double, ok_bind]
          exact ih (k + 1) below (by omega)
        · obtain rfl : k = 30 := Nat.le_antisymm upto top
          refine ⟨fun short => by omega, fun _ => ?_⟩
          rw [int32, if_neg (by decide)]
          rfl

/-- A text shorter than `2^30` bytes is formatted. -/
theorem formatted_spec (short : text.length < 2 ^ 30) :
    ∃ c, costrFormatv (some text) = .ok (some c) ∧ Formatted c text :=
  (formatLoop_spec (by unfold intMax; omega) 24 8 (by decide) (by decide)).1 short

/-- An error of the format is returned as `NULL`. -/
theorem format_fails {format : Option (List UInt8)}
    (fails : ∀ dest n, vsnprintf dest n format = .ok (-1, dest)) :
    costrFormatv format = .ok none := by
  have new := blank_spec (n := 256) (by decide)
  unfold costrFormatv formatLoop
  rw [new, ok_bind]
  simp only
  rw [fails, ok_bind]
  rfl

/-- What is returned for a text has the text in it. -/
theorem costrFormatv_formatted (ran : costrFormatv (some text) = .ok (some c)) :
    Formatted c text := by
  rcases Nat.lt_or_ge text.length (2 ^ 30) with short | long
  · obtain ⟨c', ran', formatted⟩ := formatted_spec short
    rw [ran] at ran'
    cases ran'
    exact formatted
  · by_cases counted : text.length ≤ intMax
    · have stops : costrFormatv (some text) = .error .intOverflow :=
        (formatLoop_spec counted 24 8 (by decide) (by decide)).2 long
      rw [stops] at ran
      cases ran
    · have fails : costrFormatv (some text) = .ok none := by
        refine format_fails fun dest n => ?_
        unfold vsnprintf
        exact if_pos (Nat.lt_of_not_le counted)
      rw [fails] at ran
      cases ran

/-! ## What is right, and what is not -/

/-- **Counted strings.** `costr_len` is the length of the content for no new string and for no
formatted one. -/
theorem costr_miscounts (memory told content text : List UInt8) (len : Int) (c : Costr) :
    (Call memory len told content → ¬ Copies memory len told content) ∧
    (costrFormat (some text) = .ok (some c) ∨ costrFormatv (some text) = .ok (some c) →
      ¬ Counted c text) := by
  constructor
  · rintro call ⟨c, ran, -, -, length⟩
    rw [costrLen_eq] at length
    exact newSize_more call (costrNew_len ran) (Except.ok.inj length)
  · rintro ran ⟨-, length⟩
    obtain ⟨maxsz, fits, size, -⟩ := costrFormatv_formatted (ran.elim id id)
    rw [costrLen_eq, size] at length
    have same := Except.ok.inj length
    omega

/-- `ab` -/
def ab : List UInt8 := [97, 98]

theorem costr_miscounts_ab : ¬ Copies [97, 98, 0] 2 ab ab ∧
    ∃ c, costrFormat (some ab) = .ok (some c) ∧ ¬ Counted c ab := by
  obtain ⟨c, ran, -⟩ := @formatted_spec ab (by decide)
  obtain ⟨new, formatted⟩ := costr_miscounts [97, 98, 0] ab ab ab 2 c
  exact ⟨new (@Call.counted ab (by decide) (by decide) [0]), c, ran, formatted (.inl ran)⟩

/-- The string is copied with its zero byte, which is counted. -/
theorem copies_terminated : ¬ Copies [97, 98, 0] (-1) [97, 98, 0] ab := by
  rintro ⟨c, ran, -, -, length⟩
  have new : costrNew (some [97, 98, 0]) (-1) = .ok ⟨⟨3, 11⟩, [some 97, some 98, some 0]⟩ := rfl
  rw [new] at ran
  cases ran
  exact absurd length (by decide)

end Colinlib.Guarantees.CountedStrings
