import Colinlib.Source.WordFile
import Colinlib.Guarantees.KeywordRejection

/-!
# Loading keywords from a file

`cowf_loadwords` tests the length of a line less one, the index of its last byte, and not
the length: with its newline a line passes unless it is empty, but the last line of a file
that does not end in a newline passes only from two bytes on. The words of a file are its
lines unless it ends in such a single byte that is no keyword otherwise.
-/
namespace Colinlib.Guarantees.KeywordFile
open Colinlib.Theory Colinlib.Theory.CMemory Colinlib.Theory.CStreams Colinlib.Theory.Utf8
open Colinlib.Source.Utf8 Colinlib.Source.WordFilter Colinlib.Source.WordFile
open Colinlib.Guarantees.KeywordSet Colinlib.Guarantees.KeywordRejection

/-! ## The lines of a file -/

/-- A line without its newline. -/
abbrev Line := { w : Word // newline ∉ w.bytes ∧ w.bytes.length ≤ 254 }

/-- Each of the lines with a newline, and what stands behind the last newline: nothing, or
a last line without one. -/
def content (lines : List Line) (last : Line) : List UInt8 :=
  lines.flatMap (fun line => line.val.bytes ++ [newline]) ++ last.val.bytes

theorem content_cons (line : Line) (lines : List Line) (last : Line) :
    content (line :: lines) last = line.val.bytes ++ newline :: content lines last := by
  simp [content]

theorem Word.clean (w : Word) : (0 : UInt8) ∉ w.bytes := by
  rw [w.bytes_eq]
  exact w.codes_ok.zero_not_mem

theorem Word.bytes_nil {w : Word} : w.bytes = [] ↔ w.codes = [] := by
  rw [w.bytes_eq]
  constructor
  · intro empty
    by_contra some
    exact encodeAll_ne_nil some empty
  · intro empty
    rw [empty]
    rfl

/-- How the words change while a file is read. -/
def Adds (wf wf' : Cowf) (words : List Nat → Prop) : Prop :=
  OrderedTrie wf' ∧ ∀ w, Contains wf' w ↔ Contains wf w ∨ w ≠ [] ∧ words w

theorem adds_nothing {wf : Cowf} (h : OrderedTrie wf) {words : List Nat → Prop}
    (none : ∀ w, w ≠ [] → ¬ words w) : Adds wf wf words :=
  ⟨h, fun w => (or_iff_left fun added => none w added.1 added.2).symm⟩

theorem adds_word {wf : Cowf} (h : OrderedTrie wf) (w : Word) {rest : List UInt8}
    (stop : Stuck rest) :
    ∃ wf', (cowfAddword wf (w.bytes ++ rest)).map Prod.snd = .ok wf' ∧ Adds wf wf' (· = w.codes) := by
  obtain ⟨printed, wf', ran, -, ordered, words⟩ := addword_spec h w.codes_ok stop
  refine ⟨wf', by rw [w.bytes_eq, ran]; rfl, ordered, fun u => ?_⟩
  rw [words]
  refine or_congr_right ?_
  constructor
  · rintro ⟨rfl, some⟩
    exact ⟨some, rfl⟩
  · rintro ⟨some, rfl⟩
    exact ⟨rfl, some⟩

theorem line_adds {wf : Cowf} (h : OrderedTrie wf) (line : Line) :
    ∃ wf', loadLine wf (line.val.bytes ++ [newline] ++ [0]) = .ok wf' ∧
      Adds wf wf' (· = line.val.codes) := by
  rw [loadLine_line (Word.clean line.val)]
  by_cases empty : line.val.bytes = []
  · rw [if_pos empty]
    refine ⟨wf, rfl, adds_nothing h fun w some same => some ?_⟩
    rw [same, Word.bytes_nil.mp empty]
  · rw [if_neg empty]
    exact adds_word h line.val (.inl rfl)

theorem last_adds {wf : Cowf} (h : OrderedTrie wf) (last : Line) (some : last.val.bytes ≠ []) :
    ∃ wf', loadLine wf (last.val.bytes ++ [0]) = .ok wf' ∧
      Adds wf wf' (fun w => w = last.val.codes ∧ last.val.bytes.length ≠ 1) := by
  rw [loadLine_last (Word.clean last.val) last.property.1 some]
  by_cases single : last.val.bytes.length = 1
  · rw [if_pos single]
    exact ⟨wf, rfl, adds_nothing h fun w _ added => added.2 single⟩
  · rw [if_neg single]
    obtain ⟨wf', ran, ordered, words⟩ := adds_word h last.val stuck_end
    refine ⟨wf', ran, ordered, fun w => ?_⟩
    rw [words]
    exact or_congr_right (and_congr_right fun _ => (and_iff_left single).symm)

/-- The lines are added, but not a single byte behind the last newline. -/
theorem loadLoop_adds (lines : List Line) (last : Line) (fuel : Nat)
    (enough : (content lines last).length < fuel) {wf : Cowf} (h : OrderedTrie wf) :
    ∃ wf', loadLoop fuel wf (content lines last) = .ok wf' ∧
      Adds wf wf' (fun w => (∃ line ∈ lines, w = line.val.codes) ∨
        w = last.val.codes ∧ last.val.bytes.length ≠ 1) := by
  induction lines generalizing fuel wf with
  | nil =>
      obtain ⟨fuel, rfl⟩ := Nat.exists_eq_succ_of_ne_zero (Nat.ne_of_gt (Nat.zero_lt_of_lt enough))
      rw [show content [] last = last.val.bytes from List.nil_append _] at enough ⊢
      unfold loadLoop
      by_cases empty : last.val.bytes = []
      · rw [empty]
        refine ⟨wf, rfl, adds_nothing h ?_⟩
        rintro w some (⟨line, mem, -⟩ | ⟨same, -⟩)
        · cases mem
        · exact some (by rw [same, Word.bytes_nil.mp empty])
      · obtain ⟨wf', ran, ordered, words⟩ := last_adds h last empty
        have bound := last.property.2
        have long := List.length_pos_iff.mpr empty
        obtain ⟨fuel, rfl⟩ := Nat.exists_eq_succ_of_ne_zero (n := fuel) (by omega)
        rw [fgets_last last.property.1 empty (by unfold wordSize; omega)]
        refine ⟨wf', ?_, ordered, fun w => ?_⟩
        · simp only [ran, ok_bind]
          rfl
        · rw [words]
          simp
  | cons line lines ih =>
      obtain ⟨fuel, rfl⟩ := Nat.exists_eq_succ_of_ne_zero (Nat.ne_of_gt (Nat.zero_lt_of_lt enough))
      have bound := line.property.2
      rw [content_cons] at enough ⊢
      rw [List.length_append, List.length_cons] at enough
      obtain ⟨wf₁, ran₁, ordered₁, words₁⟩ := line_adds h line
      obtain ⟨wf', ran, ordered, words⟩ := ih fuel (by omega) ordered₁
      refine ⟨wf', ?_, ordered, fun w => ?_⟩
      · unfold loadLoop
        rw [fgets_line line.property.1 _ (by unfold wordSize; omega)]
        simp only [ran₁, ok_bind, ran]
      · rw [words, words₁]
        simp only [List.exists_mem_cons_iff]
        rw [or_assoc, or_assoc, ← and_or_left]

/-! ## The keywords afterwards -/

/-- A keyword decodes to its end. -/
theorem keyword_codes {wf : Cowf} (h : OrderedTrie wf) {word : CString}
    (known : existAnswer wf word.val = .ok true) :
    ∃ cs, word.val = encodeAll cs ∧ Codes cs ∧ cs ≠ [] ∧ Contains wf cs := by
  obtain ⟨cs, rest, split, codes, stop⟩ := word.forms
  obtain ⟨ends, stops⟩ := stop.stops
  obtain ⟨found, wf', asked, -, -, is⟩ := existword_spec h codes stops
  rw [existAnswer, split, asked] at known
  obtain ⟨rfl, some, held⟩ := is.mp (Except.ok.inj known)
  refine ⟨cs, ?_, codes, some, held⟩
  cases rest with
  | nil => cases stops
  | cons b rest =>
      have zero : b = 0 := Except.ok.inj stops
      rw [zero] at split
      exact ((List.append_cons_inj_of_notMem word.property List.not_mem_nil).mp split).1

/-- The keywords after a call that adds words. -/
theorem Adds.known {wf wf' : Cowf} {words : List Nat → Prop} (h : OrderedTrie wf)
    (adds : Adds wf wf' words) (word : CString) : existAnswer wf' word.val = .ok true ↔
      existAnswer wf word.val = .ok true ∨
        ∃ cs, Codes cs ∧ word.val = encodeAll cs ∧ cs ≠ [] ∧ words cs := by
  obtain ⟨ordered, contains⟩ := adds
  constructor
  · intro known
    obtain ⟨cs, read, codes, some, held⟩ := keyword_codes ordered known
    rw [read, exists_iff h codes]
    rcases (contains cs).mp held with before | ⟨-, added⟩
    · exact .inl ⟨some, before⟩
    · exact .inr ⟨cs, codes, rfl, some, added⟩
  · rintro (known | ⟨cs, codes, read, some, added⟩)
    · obtain ⟨cs, read, codes, some, held⟩ := keyword_codes h known
      rw [read, exists_iff ordered codes]
      exact ⟨some, (contains cs).mpr (.inl held)⟩
    · rw [read, exists_iff ordered codes]
      exact ⟨some, (contains cs).mpr (.inr ⟨some, added⟩)⟩

theorem Line.ext_bytes {u v : Line} (same : u.val.bytes = v.val.bytes) : u = v := by
  rw [u.val.bytes_eq, v.val.bytes_eq] at same
  exact Subtype.ext (Word.codes_inj
    (encodeAll_inj u.val.codes_ok.within v.val.codes_ok.within same))

/-- The lines that become keywords. -/
def Loaded (lines : List Line) (last : Line) (line : Line) : Prop :=
  line.val.bytes ≠ [] ∧ (line ∈ lines ∨ line = last ∧ last.val.bytes.length ≠ 1)

theorem known_after {wf wf' : Cowf} {lines : List Line} {last : Line} (h : OrderedTrie wf)
    (adds : Adds wf wf' (fun w => (∃ line ∈ lines, w = line.val.codes) ∨
      w = last.val.codes ∧ last.val.bytes.length ≠ 1)) (word : CString) :
    existAnswer wf' word.val = .ok true ↔ existAnswer wf word.val = .ok true ∨
      ∃ line, Loaded lines last line ∧ word.val = line.val.bytes := by
  rw [adds.known h]
  refine or_congr_right ?_
  constructor
  · rintro ⟨cs, -, read, some, ⟨line, mem, rfl⟩ | ⟨rfl, long⟩⟩
    · exact ⟨line, ⟨mt Word.bytes_nil.mp some, .inl mem⟩, by rw [read, Word.bytes_eq]⟩
    · exact ⟨last, ⟨mt Word.bytes_nil.mp some, .inr ⟨rfl, long⟩⟩, by rw [read, Word.bytes_eq]⟩
  · rintro ⟨line, ⟨some, from_file⟩, read⟩
    refine ⟨line.val.codes, line.val.codes_ok, by rw [read, Word.bytes_eq],
      mt Word.bytes_nil.mpr some, ?_⟩
    rcases from_file with mem | ⟨rfl, long⟩
    · exact .inl ⟨line, mem, rfl⟩
    · exact .inr ⟨rfl, long⟩

/-- The keywords afterwards are those before and the lines that are not empty. -/
def LoadsLines (wf : Cowf) (lines : List Line) (last : Line) : Prop :=
  ∃ wf', cowfLoadwords wf (some (content lines last)) = .ok (true, wf') ∧
    ∀ word : CString, existAnswer wf' word.val = .ok true ↔
      existAnswer wf word.val = .ok true ∨
        ∃ line ∈ lines ++ [last], line.val.bytes ≠ [] ∧ word.val = line.val.bytes

/-- In every state and for every file of such lines, all lines are loaded if and only if the
file does not end in a line of one byte without a newline, or this byte is a keyword already,
or it is one of the other lines too. -/
theorem loadwords_adds_lines (calls : List Call) (lines : List Line) (last : Line) :
    ∃ wf, Runs.run call cowfNew calls = .ok wf ∧
      (LoadsLines wf lines last ↔ last.val.bytes.length ≠ 1 ∨
        existAnswer wf last.val.bytes = .ok true ∨ last ∈ lines) := by
  obtain ⟨wf, ran, h⟩ := calls_ordered calls
  refine ⟨wf, ran, ?_⟩
  obtain ⟨wf', loaded, adds⟩ := loadLoop_adds lines last _ (Nat.lt_succ_self _) h
  have after := known_after h adds
  have returned : cowfLoadwords wf (some (content lines last)) = .ok (true, wf') := by
    rw [cowfLoadwords, loaded]
    rfl
  constructor
  · rintro ⟨wf'', returned', known⟩
    rw [returned] at returned'
    cases returned'
    by_cases single : last.val.bytes.length = 1
    · have some : last.val.bytes ≠ [] := by
        rintro empty
        rw [empty] at single
        cases single
      -- the single byte is a line of the file, so it is known afterwards
      have there := (known ⟨last.val.bytes, Word.clean last.val⟩).mpr
        (.inr ⟨last, by simp, some, rfl⟩)
      rcases (after _).mp there with before | ⟨line, ⟨-, mem | ⟨-, long⟩⟩, same⟩
      · exact .inr (.inl before)
      · exact .inr (.inr (Line.ext_bytes same ▸ mem))
      · exact absurd single long
    · exact .inl single
  · intro loads
    refine ⟨wf', returned, fun word => ?_⟩
    rw [after]
    constructor
    · rintro (before | ⟨line, ⟨some, mem | ⟨rfl, -⟩⟩, read⟩)
      · exact .inl before
      · exact .inr ⟨line, List.mem_append_left _ mem, some, read⟩
      · exact .inr ⟨line, by simp, some, read⟩
    · rintro (before | ⟨line, mem, some, read⟩)
      · exact .inl before
      · rcases List.mem_append.mp mem with mem | is_last
        · exact .inr ⟨line, ⟨some, .inl mem⟩, read⟩
        · rw [List.mem_singleton.mp is_last] at some read
          rcases loads with long | before | mem
          · exact .inr ⟨last, ⟨some, .inr ⟨rfl, long⟩⟩, read⟩
          · exact .inl (read ▸ before)
          · exact .inr ⟨last, ⟨some, .inl mem⟩, read⟩

def lineA : Line :=
  ⟨⟨['a'], List.forall_mem_singleton.mpr (by decide)⟩, by decide, by decide⟩

/-- The file that holds `a` and no newline adds nothing to a new filter. -/
theorem single_byte_is_skipped : content [] lineA = [0x61] ∧ ¬ LoadsLines cowfNew [] lineA := by
  refine ⟨rfl, ?_⟩
  rintro ⟨wf', loaded, known⟩
  have after : wf' = cowfNew := (congrArg Prod.snd (Except.ok.inj loaded)).symm
  have missing : existAnswer cowfNew a.val = .ok false := rfl
  have there := (known a).mpr (.inr ⟨lineA, by simp, by decide, rfl⟩)
  rw [after, missing] at there
  cases there

end Colinlib.Guarantees.KeywordFile
