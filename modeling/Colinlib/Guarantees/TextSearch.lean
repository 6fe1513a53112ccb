import Colinlib.Guarantees.KeywordSet

/-!
# Checking and filtering texts

`cowf_check` on a well-formed text is substring search over bytes. `cowf_fitler`
covers words of the filter where it reads them and leaves no word in the text, whether
or not the text is well-formed.
-/
namespace Colinlib.Guarantees.TextSearch
open Colinlib.Theory.CMemory Colinlib.Theory.Utf8 Colinlib.Theory.Keywords
open Colinlib.Source.Utf8 Colinlib.Source.WordFilter Colinlib.Source.WordTrie
open Colinlib.Source.WordScan Colinlib.Guarantees.KeywordSet

/-- A word occurs in the codes of a text if and only if its bytes occur in the bytes. -/
theorem occurs_bytes {ops : List Op} {wf : Cowf} (h : Holds ops wf) (text : Word) :
    Occurs (Contains wf) text.codes ↔
      ∃ w : Word, w.val ≠ [] ∧ Live w ops ∧ w.bytes <:+: text.bytes := by
  constructor
  · rintro ⟨codes, -, word, inside⟩
    obtain ⟨w, nonempty, rfl, live⟩ := (h.words codes).mp word
    refine ⟨w, nonempty, live, ?_⟩
    rw [w.bytes_eq, text.bytes_eq]
    exact (encodeAll_infix_iff w.codes_ok.within text.codes_ok.within).mpr inside
  · rintro ⟨w, nonempty, live, inside⟩
    rw [w.bytes_eq, text.bytes_eq] at inside
    refine ⟨w.codes, mt Word.codes_nil.mp nonempty, (h.live w nonempty).mpr live, ?_⟩
    exact (encodeAll_infix_iff w.codes_ok.within text.codes_ok.within).mp inside

/-- For every set of words and every well-formed text: `cowf_check` is true if and only if
the bytes of some word of the set occur in the text. -/
theorem check_is_substring_search (ops : List Op) (text : Word) :
    ∃ wf found wf', run cowfNew ops = .ok wf ∧
      cowfCheck wf (terminated text.bytes) = .ok (found, wf') ∧
      (found = true ↔ ∃ w : Word, w.val ≠ [] ∧ Live w ops ∧ w.bytes <:+: text.bytes) := by
  obtain ⟨wf, ran, holds⟩ := reached ops
  obtain ⟨found, wf', checked, -, -, answer⟩ :=
    check_spec holds.ordered text.terminated_eq text.codes_ok stuck_end
  exact ⟨wf, found, wf', ran, checked, answer.trans (occurs_bytes holds text)⟩

/-! ## The filter -/

/-- An ASCII character to cover words with. -/
abbrev Mark := { c : Char // c.val ≠ 0 ∧ c.val.toNat < 0x80 }

def Mark.byte (ch : Mark) : UInt8 := .ofNat ch.val.val.toNat

theorem Mark.byte_toNat (ch : Mark) : ch.byte.toNat = ch.val.val.toNat := by
  have ascii := ch.property.2
  rw [Mark.byte, UInt8.toNat_ofNat']
  omega

/-- The mark is in no word of the filter. -/
theorem unmarked {ops : List Op} {wf : Cowf} (h : Holds ops wf) (ch : Mark)
    (absent : ∀ w : Word, Live w ops → ch.val ∉ w.val) (w : List Nat) (word : Contains wf w) :
    ch.byte.toNat ∉ w := by
  obtain ⟨u, -, rfl, live⟩ := (h.words w).mp word
  rw [ch.byte_toNat]
  intro mem
  obtain ⟨c, inside, same⟩ := List.mem_map.mp mem
  refine absent u live ?_
  rwa [← Char.ext (UInt32.toNat_inj.mp same)]

theorem masked_codes {K : List Nat → Prop} {ch : Mark} {cs ys : List Nat}
    (masked : Masked K (maskOf ch.byte) cs ys) (codes : Codes cs) :
    Codes ys ∧ (encodeAll ys).length = (encodeAll cs).length := by
  have ascii : ch.byte.toNat < 0x80 := by
    rw [ch.byte_toNat]
    exact ch.property.2
  have mark : ch.byte.toNat ≠ 0 ∧ ch.byte.toNat ≤ maxValue := by
    refine ⟨fun zero => ?_, Nat.le_trans (Nat.le_of_lt ascii) (by decide)⟩
    rw [ch.byte_toNat] at zero
    exact ch.property.1 (UInt32.toNat_inj.mp zero)
  induction masked with
  | done => exact ⟨codes_nil, rfl⟩
  | @keep x xs ys _ _ ih =>
      obtain ⟨later, length⟩ := ih codes.tail
      refine ⟨List.forall_mem_cons.mpr ⟨codes x List.mem_cons_self, later⟩, ?_⟩
      rw [encodeAll_cons, encodeAll_cons, List.length_append, List.length_append, length]
  | @mask w xs ys _ _ _ ih =>
      obtain ⟨later, length⟩ := ih fun c mem => codes c (List.mem_append_right w mem)
      refine ⟨fun c mem => ?_, ?_⟩
      · rcases List.mem_append.mp mem with marks | rest
        · rw [List.eq_of_mem_replicate marks]
          exact mark
        · exact later c rest
      · rw [encodeAll_append, encodeAll_append, List.length_append, List.length_append, length,
          encodeAll_maskOf ascii, List.length_replicate]

/-- What the scan leaves is a string of the same length. -/
theorem masked_string {text : CString} {cs ys : List Nat} {rest : List UInt8}
    (split : terminated text.val = encodeAll cs ++ rest) (stop : Stuck rest) (codes : Codes ys)
    (length : (encodeAll ys).length = (encodeAll cs).length) :
    ∃ after : CString, terminated after.val = encodeAll ys ++ rest ∧
      after.val.length = text.val.length := by
  obtain ⟨last, end', rfl⟩ : ∃ last end', rest = last ++ [end'] := by
    refine ⟨rest.dropLast, rest.getLast (List.length_pos_iff.mp (stuck_length stop)), ?_⟩
    exact (List.dropLast_append_getLast _).symm
  rw [terminated, ← List.append_assoc] at split
  obtain ⟨same, zero⟩ := List.append_inj' split rfl
  have inside : 0 ∉ last := fun mem => text.property (by rw [same]; exact List.mem_append_right _ mem)
  refine ⟨⟨encodeAll ys ++ last, ?_⟩, ?_, ?_⟩
  · rw [List.mem_append]
    exact not_or.mpr ⟨codes.zero_not_mem, inside⟩
  · rw [terminated, zero, List.append_assoc]
  · rw [same, List.length_append, List.length_append, length]

def Checks (wf : Cowf) (text : CString) (found : Bool) : Prop :=
  ∃ wf', cowfCheck wf (terminated text.val) = .ok (found, wf')

/-- The position lies in a word of the set that stood in the text where the scan read, and
the bytes of that word are marks now. -/
def InCoveredWord (ops : List Op) (wf : Cowf) (text after : CString) (ch : Mark) (i : Nat) : Prop :=
  ∃ p, ∃ w : Word, ScansText wf (terminated text.val) ch.byte p ∧ Live w ops ∧
    w.bytes <+: text.val.drop p ∧ p ≤ i ∧ i < p + w.bytes.length ∧
    ∀ j, p ≤ j → j < p + w.bytes.length → after.val[j]? = some ch.byte

theorem unterminated_prefix {u t : List UInt8} {q : Nat} (clean : 0 ∉ u)
    (h : u <+: (terminated t).drop q) : u <+: t.drop q := by
  rw [terminated, List.drop_append] at h
  by_cases inside : q ≤ t.length
  · rw [Nat.sub_eq_zero_of_le inside, List.drop_zero] at h
    rcases List.prefix_concat_iff.mp h with whole | front
    · rw [whole] at clean
      exact absurd (List.mem_append_right _ List.mem_cons_self) clean
    · exact front
  · rwa [List.drop_eq_nil_of_le (show [(0 : UInt8)].length ≤ q - t.length by simp; omega),
      List.append_nil] at h

theorem unterminated_getElem {t : List UInt8} {j : Nat} {b : UInt8} (nonzero : b ≠ 0)
    (h : (terminated t)[j]? = some b) : t[j]? = some b := by
  rw [terminated, List.getElem?_append] at h
  split at h
  · exact h
  · have last := List.mem_of_getElem? h
    rw [List.mem_singleton] at last
    exact absurd last nonzero

/-- For every set of words, every string and every ASCII mark that is in no word of the
set: `cowf_fitler` returns what `cowf_check` returns for the text, and leaves a string of
the same length in which `cowf_check` finds nothing and every changed byte lies in a
covered word. -/
theorem fitler_covers_words (ops : List Op) (text : CString) (ch : Mark)
    (absent : ∀ w : Word, Live w ops → ch.val ∉ w.val) :
    ∃ wf result after wf', run cowfNew ops = .ok wf ∧
      cowfFitler wf (terminated text.val) ch.byte = .ok (result, terminated after.val, wf') ∧
      Checks wf text result ∧ after.val.length = text.val.length ∧ Checks wf' after false ∧
      ∀ i < text.val.length, after.val[i]? ≠ text.val[i]? → InCoveredWord ops wf text after ch i := by
  have ascii : ch.byte.toNat < 0x80 := by
    rw [ch.byte_toNat]
    exact ch.property.2
  obtain ⟨wf, ran, holds⟩ := reached ops
  obtain ⟨cs, rest, split, codes, stop, -⟩ := string_codes text.ends
  obtain ⟨result, bytes, wf', filtered, ordered, same, found, masking⟩ :=
    fitler_spec holds.ordered split codes stop ch.byte
  obtain ⟨ys, masked, rfl, changes⟩ := masking ascii
  obtain ⟨marked, length⟩ := masked_codes masked codes
  obtain ⟨after, shown, size⟩ := masked_string split stop marked length
  rw [← shown] at filtered changes
  refine ⟨wf, result, after, wf', ran, filtered, ?_, size, ?_, fun i inside changed => ?_⟩
  · obtain ⟨answer, wf₁, checked, -, -, occurs⟩ := check_spec holds.ordered split codes stop
    have agree : answer = result := Bool.eq_iff_iff.mpr (occurs.trans found.symm)
    exact ⟨wf₁, agree ▸ checked⟩
  · obtain ⟨answer, wf₂, checked, -, -, occurs⟩ := check_spec ordered shown marked stop
    have words : Contains wf' = Contains wf := funext fun w => propext (same w)
    have clean : ¬ Occurs (Contains wf) ys := by
      refine masked.clean (fun w nonempty => ⟨?_, fun a mem => List.eq_of_mem_replicate mem⟩)
        (unmarked holds ch absent)
      have some : (encodeAll w).length ≠ 0 := mt List.length_eq_zero_iff.mp (encodeAll_ne_nil nonempty)
      obtain ⟨n, size⟩ := Nat.exists_eq_succ_of_ne_zero some
      exact ⟨List.replicate n ch.byte.toNat, by rw [maskOf, size]; rfl⟩
    rw [words] at occurs
    have nothing : answer = false := Bool.eq_false_iff.mpr (mt occurs.mp clean)
    exact ⟨wf₂, nothing ▸ checked⟩
  · have size' : i < after.val.length := by rw [size]; exact inside
    have different : (terminated after.val)[i]? ≠ (terminated text.val)[i]? := by
      rwa [terminated, terminated, List.getElem?_append_left size', List.getElem?_append_left inside]
    obtain ⟨p, codes', scans, word, start, low, high, marks⟩ := changes i different
    obtain ⟨w, -, rfl, live⟩ := (holds.words codes').mp word
    have nonzero : ch.byte ≠ 0 := by
      intro zero
      have value := ch.byte_toNat
      rw [zero] at value
      exact ch.property.1 (UInt32.toNat_inj.mp value.symm)
    rw [← w.bytes_eq] at start high marks
    have clean : 0 ∉ w.bytes := by
      rw [w.bytes_eq]
      exact w.codes_ok.zero_not_mem
    exact ⟨p, w, scans, live, unterminated_prefix clean start, low, high,
      fun j hj hj' => unterminated_getElem nonzero (marks j hj hj')⟩

/-- The word `ab` and the text `xabab`, covered with stars. -/
def ab : Word := ⟨['a', 'b'], by simp⟩

def xabab : CString := ⟨[0x78, 0x61, 0x62, 0x61, 0x62], by decide⟩

def star : Mark := ⟨'*', by decide⟩

theorem fitler_covers_words_ab : (∀ w : Word, Live w [.add ab] → star.val ∉ w.val) ∧
    ∃ wf result after wf', run cowfNew [.add ab] = .ok wf ∧
      cowfFitler wf (terminated xabab.val) star.byte = .ok (result, terminated after.val, wf') ∧
      Checks wf' after false := by
  have absent : ∀ w : Word, Live w [.add ab] → star.val ∉ w.val := by
    intro w live
    rcases live_snoc.mp (show Live w ([] ++ [.add ab]) from live) with added | ⟨⟨before, _, none, _⟩, -⟩
    · cases added
      decide
    · cases before <;> cases none
  obtain ⟨wf, result, after, wf', ran, filtered, -, -, clean, -⟩ :=
    fitler_covers_words [.add ab] xabab star absent
  exact ⟨absent, wf, result, after, wf', ran, filtered, clean⟩

example : (run cowfNew [.add ab] >>= fun wf =>
    (·.2.1) <$> cowfFitler wf (terminated xabab.val) star.byte).toOption =
      some [0x78, 0x2a, 0x2a, 0x2a, 0x2a, 0] := by
  decide +kernel

end Colinlib.Guarantees.TextSearch
