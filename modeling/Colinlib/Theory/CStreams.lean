import Colinlib.Theory.CMemory

/-!
# Strings and lines of the C library

A string is its bytes up to the first zero byte. A stream that is open for reading is
the list of the bytes that are left of it, and reading does not fail.
-/
namespace Colinlib.Theory.CStreams
open Colinlib.Theory.CMemory

def newline : UInt8 := 10

/-- The string that a buffer begins with. -/
def cstring (buf : List UInt8) : List UInt8 := buf.takeWhile (· ≠ 0)

/-- `strlen` -/
def strlen : List UInt8 → Except Fault Nat
  | [] => .error .outOfBounds
  | b :: s => if b = 0 then .ok 0 else return (← strlen s) + 1

/-- `strchr` in a string, for a byte other than zero: the string from the first such byte
on. -/
def strchr : List UInt8 → UInt8 → Option (List UInt8)
  | [], _ => none
  | b :: s, c => if b = c then some (b :: s) else strchr s c

/-- `strrchr` likewise, from the last such byte on. -/
def strrchr : List UInt8 → UInt8 → Option (List UInt8)
  | [], _ => none
  | b :: s, c =>
    match strrchr s c with
    | some found => some found
    | none => if b = c then some (b :: s) else none

/-- `strstr`: the string from the first place on where the other one stands. -/
def strstr : List UInt8 → List UInt8 → Option (List UInt8)
  | [], needle => if needle = [] then some [] else none
  | b :: s, needle => if needle <+: b :: s then some (b :: s) else strstr s needle

/-- The block begins with the string and its zero byte. -/
def HoldsString (b : Block UInt8) (s : List UInt8) : Prop := 0 ∉ s ∧ (s ++ [0]).map some <+: b

/-- `memcpy` to the beginning of an allocation, from memory of which `src` may be read. -/
def memcpy (dest : Block UInt8) (src : List UInt8) (n : Nat) : Except Fault (Block UInt8) :=
  if n ≤ src.length then store dest 0 ((src.take n).map some) else .error .outOfBounds

/-- `vsnprintf`, given what the format produces, or `none` for an encoding error. A text that
`int` cannot count is an error as well. -/
def vsnprintf (dest : Block UInt8) (n : Nat) (format : Option (List UInt8)) :
    Except Fault (Int × Block UInt8) :=
  match format with
  | none => .ok (-1, dest)
  | some text =>
    if text.length > intMax then .ok (-1, dest)
    else if n = 0 then .ok (text.length, dest)
    else do return (text.length, ← store dest 0 ((text.take (n - 1) ++ [0]).map some))

/-- `strncpy` of a string: `n` bytes are written, with zero bytes behind a shorter string and
no zero byte behind a longer one. -/
def strncpy (dest : Block UInt8) (src : List UInt8) (n : Nat) : Except Fault (Block UInt8) :=
  store dest 0 ((src.take n ++ List.replicate (n - src.length) 0).map some)

/-- At most `n` bytes, none of them behind a newline, and what is left. -/
def takeLine : Nat → List UInt8 → List UInt8 × List UInt8
  | 0, s => ([], s)
  | _ + 1, [] => ([], [])
  | n + 1, b :: s =>
    if b = newline then ([b], s)
    else
      let (line, rest) := takeLine n s
      (b :: line, rest)

/-- `fgets` into a buffer of `size` bytes: what it stores, and what is left of the stream;
`NULL` where there is nothing to read. -/
def fgets (size : Nat) (stream : List UInt8) : Option (List UInt8 × List UInt8) :=
  if stream = [] then none
  else
    let (line, rest) := takeLine (size - 1) stream
    some (line ++ [0], rest)

theorem strlen_string {s : List UInt8} (clean : 0 ∉ s) (rest : List UInt8) :
    strlen (s ++ 0 :: rest) = .ok s.length := by
  induction s with
  | nil => rfl
  | cons b s ih =>
      have nonzero : b ≠ 0 := fun zero => clean (zero ▸ List.mem_cons_self)
      rw [List.cons_append, strlen, if_neg nonzero,
        ih fun mem => clean (List.mem_cons_of_mem b mem)]
      rfl

theorem cstring_string {s : List UInt8} (clean : 0 ∉ s) (rest : List UInt8) :
    cstring (s ++ 0 :: rest) = s := by
  unfold cstring
  rw [List.takeWhile_append_of_pos fun b mem => by simpa using ne_of_mem_of_not_mem mem clean]
  simp

/-- A text that fits is stored with its zero byte. -/
theorem vsnprintf_fits {dest : Block UInt8} {text : List UInt8} {n : Nat}
    (counted : text.length ≤ intMax) (fits : text.length < n) (room : n ≤ dest.length) :
    vsnprintf dest n (some text) =
      .ok (text.length, (text ++ [0]).map some ++ dest.drop (text.length + 1)) := by
  unfold vsnprintf store
  have whole : text.take (n - 1) = text := List.take_of_length_le (by omega)
  simp only [whole]
  rw [if_neg (by omega), if_neg (by omega), if_pos (by simp; omega)]
  simp [splice]

theorem vsnprintf_long {dest : Block UInt8} {text : List UInt8} {n : Nat}
    (counted : text.length ≤ intMax) (pos : 0 < n) (long : n ≤ text.length) (room : n ≤ dest.length) :
    ∃ str, vsnprintf dest n (some text) = .ok (text.length, str) := by
  have stored : ((text.take (n - 1) ++ [0]).map some).length = n := by
    simp
    omega
  unfold vsnprintf store
  simp only [stored]
  rw [if_neg (by omega), if_neg (by omega), if_pos (by omega)]
  exact ⟨_, rfl⟩

/-- A copy of as many bytes as the string has at least leaves what is behind them. -/
theorem strncpy_start (dest : Block UInt8) (s rest : List UInt8) (room : s.length ≤ dest.length) :
    strncpy dest (s ++ rest) s.length = .ok (s.map some ++ dest.drop s.length) := by
  unfold strncpy store
  rw [List.take_left, List.length_append, Nat.sub_eq_zero_of_le (Nat.le_add_right _ _),
    List.replicate_zero, List.append_nil, List.length_map, Nat.zero_add, if_pos room]
  simp [splice]

/-! ## Searches -/

section Searches
variable {c : UInt8} {s t l r needle : List UInt8}

theorem strchr_eq_none : strchr s c = none ↔ c ∉ s := by
  induction s with
  | nil => simp [strchr]
  | cons b s ih =>
      unfold strchr
      split
      · next same => simp [same]
      · next other => simp [ih, Ne.symm other]

theorem strchr_append (first : c ∉ l) : strchr (l ++ c :: r) c = some (c :: r) := by
  induction l with
  | nil => rw [List.nil_append, strchr, if_pos rfl]
  | cons b l ih =>
      have other : b ≠ c := fun same => first (same ▸ List.mem_cons_self)
      rw [List.cons_append, strchr, if_neg other, ih fun mem => first (List.mem_cons_of_mem b mem)]

theorem strrchr_eq_none : strrchr s c = none ↔ c ∉ s := by
  induction s with
  | nil => simp [strrchr]
  | cons b s ih =>
      unfold strrchr
      split
      · next t found =>
          have there : c ∈ s := by
            by_contra absent
            rw [ih.mpr absent] at found
            cases found
          simp [there]
      · next absent =>
          have absent := ih.mp absent
          split
          · next same => simp [same]
          · next other => simp [absent, Ne.symm other]

theorem strrchr_eq_some (found : strrchr s c = some t) :
    ∃ l r, s = l ++ c :: r ∧ c ∉ r ∧ t = c :: r := by
  induction s with
  | nil => cases found
  | cons b s ih =>
      unfold strrchr at found
      split at found
      · next there =>
          cases found
          obtain ⟨l, r, rfl, last, rfl⟩ := ih there
          exact ⟨b :: l, r, rfl, last, rfl⟩
      · next absent =>
          split at found
          · next same =>
              cases found
              exact ⟨[], s, by rw [same, List.nil_append], strrchr_eq_none.mp absent, by rw [same]⟩
          · cases found

/-- What is found is the longest of the suffixes that begin so. -/
theorem strstr_eq_some (found : strstr s needle = some t) :
    t <:+ s ∧ needle <+: t ∧ ∀ u, u <:+ s → needle <+: u → u <:+ t := by
  induction s with
  | nil =>
      unfold strstr at found
      split at found
      · next empty =>
          cases found
          exact ⟨List.suffix_rfl, empty ▸ List.nil_prefix, fun u suffix _ => suffix⟩
      · cases found
  | cons b s ih =>
      unfold strstr at found
      split at found
      · next here =>
          cases found
          exact ⟨List.suffix_rfl, here, fun u suffix _ => suffix⟩
      · next other =>
          obtain ⟨suffix, begins, longest⟩ := ih found
          refine ⟨suffix.trans (List.suffix_cons b s), begins, fun u inside begins => ?_⟩
          rcases List.suffix_cons_iff.mp inside with rfl | inside
          · exact absurd begins other
          · exact longest u inside begins

theorem strstr_eq_none (absent : strstr s needle = none) (inside : t <:+ s) : ¬ needle <+: t := by
  induction s with
  | nil =>
      unfold strstr at absent
      split at absent
      · cases absent
      · next nonempty =>
          rw [List.suffix_nil.mp inside, List.prefix_nil]
          exact nonempty
  | cons b s ih =>
      unfold strstr at absent
      split at absent
      · cases absent
      · next other =>
          rcases List.suffix_cons_iff.mp inside with rfl | inside
          · exact other
          · exact ih absent inside

end Searches

section Lines
variable {line : List UInt8}

theorem takeLine_line (whole : newline ∉ line) (rest : List UInt8) {n : Nat}
    (fits : line.length < n) :
    takeLine n (line ++ newline :: rest) = (line ++ [newline], rest) := by
  induction line generalizing n with
  | nil =>
      obtain ⟨n, rfl⟩ := Nat.exists_eq_succ_of_ne_zero (Nat.ne_of_gt fits)
      rfl
  | cons b line ih =>
      obtain ⟨n, rfl⟩ := Nat.exists_eq_succ_of_ne_zero (Nat.ne_of_gt (Nat.zero_lt_of_lt fits))
      have other : b ≠ newline := fun same => whole (same ▸ List.mem_cons_self)
      rw [List.cons_append, takeLine, if_neg other,
        ih (fun mem => whole (List.mem_cons_of_mem b mem)) (Nat.lt_of_succ_lt_succ fits)]
      rfl

theorem takeLine_last (whole : newline ∉ line) {n : Nat} (fits : line.length ≤ n) :
    takeLine n line = (line, []) := by
  induction line generalizing n with
  | nil => cases n <;> rfl
  | cons b line ih =>
      obtain ⟨n, rfl⟩ := Nat.exists_eq_succ_of_ne_zero (Nat.ne_of_gt (Nat.zero_lt_of_lt fits))
      have other : b ≠ newline := fun same => whole (same ▸ List.mem_cons_self)
      rw [takeLine, if_neg other,
        ih (fun mem => whole (List.mem_cons_of_mem b mem)) (Nat.le_of_succ_le_succ fits)]

/-- A line that fits is read with its newline. -/
theorem fgets_line (whole : newline ∉ line) (rest : List UInt8) {size : Nat}
    (fits : line.length + 2 ≤ size) :
    fgets size (line ++ newline :: rest) = some (line ++ [newline] ++ [0], rest) := by
  rw [fgets, if_neg (by simp), takeLine_line whole rest (by omega)]

/-- So is what stands behind the last newline, if there is anything. -/
theorem fgets_last (whole : newline ∉ line) (some : line ≠ []) {size : Nat}
    (fits : line.length + 1 ≤ size) : fgets size line = .some (line ++ [0], []) := by
  rw [fgets, if_neg some, takeLine_last whole (by omega)]

end Lines

end Colinlib.Theory.CStreams
