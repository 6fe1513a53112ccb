import Colinlib.Theory.Runs
import Colinlib.Guarantees.KeywordSet
import Colinlib.Guarantees.Utf8Length

/-!
# A keyword that does not decode

`cowf_addword` inserts the codes of a word one by one while it decodes them. Where the
decoder returns `NULL` it prints the error and leaves the loop, and behind the loop the
last node is marked as it is for a word that was read to its end: what was decoded so far
has become a keyword. The set stays as it was only if nothing was decoded, or if that part
was a keyword already.
-/
namespace Colinlib.Guarantees.KeywordRejection
open Colinlib.Theory Colinlib.Theory.CMemory Colinlib.Theory.Utf8 Colinlib.Theory.Keywords
open Colinlib.Source.Utf8 Colinlib.Source.WordFilter Colinlib.Source.WordTrie
open Colinlib.Guarantees.KeywordSet Colinlib.Guarantees.Utf8Length

/-! ## The states of a filter -/

/-- The calls, each on any string. -/
inductive Call where
  | add (word : CString) | delete (word : CString) | clear
  | exist (word : CString) | check (text : CString) | fitler (text : CString) (ch : UInt8)
  deriving DecidableEq

def call (wf : Cowf) : Call → Except Fault Cowf
  | .add word => return (← cowfAddword wf (terminated word.val)).2
  | .delete word => cowfDelword wf (terminated word.val)
  | .clear => return cowfClear wf
  | .exist word => return (← cowfExist wf (terminated word.val)).2
  | .check text => return (← cowfCheck wf (terminated text.val)).2
  | .fitler text ch => return (← cowfFitler wf (terminated text.val) ch).2.2

theorem call_ordered {wf : Cowf} (h : OrderedTrie wf) (c : Call) :
    ∃ wf', call wf c = .ok wf' ∧ OrderedTrie wf' := by
  cases c with
  | add word =>
      obtain ⟨cs, rest, split, codes, stop⟩ := word.forms
      obtain ⟨printed, wf', ran, -, ordered, -⟩ := addword_spec h codes stop
      exact ⟨wf', by rw [call, split, ran, ok_bind]; rfl, ordered⟩
  | delete word =>
      obtain ⟨cs, rest, split, codes, stop⟩ := word.forms
      obtain ⟨ends, stops⟩ := stop.stops
      obtain ⟨wf', ran, ordered, -⟩ := delword_spec h codes stops
      exact ⟨wf', by rw [call, split, ran], ordered⟩
  | clear => exact ⟨cowfClear wf, rfl, fun root same => (nomatch same)⟩
  | exist word =>
      obtain ⟨cs, rest, split, codes, stop⟩ := word.forms
      obtain ⟨ends, stops⟩ := stop.stops
      obtain ⟨found, wf', ran, ordered, -⟩ := existword_spec h codes stops
      exact ⟨wf', by rw [call, split, ran, ok_bind]; rfl, ordered⟩
  | check text =>
      obtain ⟨cs, rest, split, codes, stop⟩ := text.forms
      obtain ⟨found, wf', ran, ordered, -⟩ := check_spec h split codes stop
      exact ⟨wf', by rw [call, ran, ok_bind]; rfl, ordered⟩
  | fitler text ch =>
      obtain ⟨cs, rest, split, codes, stop⟩ := text.forms
      obtain ⟨result, after, wf', ran, ordered, -⟩ := fitler_spec h split codes stop ch
      exact ⟨wf', by rw [call, ran, ok_bind]; rfl, ordered⟩

/-- Calls on a new filter return, and leave an ordered trie. -/
theorem calls_ordered (calls : List Call) :
    ∃ wf, Runs.run call cowfNew calls = .ok wf ∧ OrderedTrie wf := by
  have outcome := Runs.outcome_run call (fun _ => False) OrderedTrie (fun wf c h => by
    obtain ⟨wf', ran, ordered⟩ := call_ordered h c
    rw [ran]
    exact ordered) calls cowfNew (fun root same => (nomatch same))
  cases ran : Runs.run call cowfNew calls with
  | error e =>
      rw [ran] at outcome
      exact outcome.elim
  | ok wf =>
      rw [ran] at outcome
      exact ⟨wf, rfl, outcome⟩

/-! ## The answers of a filter -/

/-- What `cowf_exist` returns. -/
def existAnswer (wf : Cowf) (word : List UInt8) : Except Fault Bool :=
  (cowfExist wf (terminated word)).map Prod.fst

/-- What `cowf_check` returns. -/
def checkAnswer (wf : Cowf) (text : List UInt8) : Except Fault Bool :=
  (cowfCheck wf (terminated text)).map Prod.fst

/-- The answers depend on the set of words alone. -/
theorem same_answers {wf wf' : Cowf} (h : OrderedTrie wf) (h' : OrderedTrie wf')
    (same : ∀ w, Contains wf' w ↔ Contains wf w) (s : CString) :
    existAnswer wf' s.val = existAnswer wf s.val ∧ checkAnswer wf' s.val = checkAnswer wf s.val := by
  obtain ⟨cs, rest, split, codes, stop⟩ := s.forms
  obtain ⟨ends, stops⟩ := stop.stops
  obtain ⟨asked, _, ran, -, -, is⟩ := existword_spec h codes stops
  obtain ⟨asked', _, ran', -, -, is'⟩ := existword_spec h' codes stops
  obtain ⟨found, _, scanned, -, -, occurs⟩ := check_spec h split codes stop
  obtain ⟨found', _, scanned', -, -, occurs'⟩ := check_spec h' split codes stop
  have words : Contains wf' = Contains wf := funext fun w => propext (same w)
  rw [words] at is' occurs'
  have one : asked' = asked := Bool.eq_iff_iff.mpr (is'.trans is.symm)
  have other : found' = found := Bool.eq_iff_iff.mpr (occurs'.trans occurs.symm)
  constructor
  · rw [existAnswer, existAnswer, split, ran, ran', one]
    rfl
  · rw [checkAnswer, checkAnswer, scanned, scanned', other]
    rfl

theorem exists_iff {wf : Cowf} (h : OrderedTrie wf) {cs : List Nat} (codes : Codes cs) :
    existAnswer wf (encodeAll cs) = .ok true ↔ cs ≠ [] ∧ Contains wf cs := by
  obtain ⟨found, wf', asked, -, -, is⟩ := existword_spec h codes stops_end
  have answer : existAnswer wf (encodeAll cs) = .ok found := by
    rw [existAnswer, terminated, asked]
    rfl
  rw [answer, Except.ok.injEq, is]
  exact and_iff_right rfl

/-! ## Rejection -/

/-- Decoding goes on through `before` and returns `NULL` there, in front of the end. -/
def FailsBehind (s : CString) (before : List UInt8) : Prop :=
  ∃ codes rest, Walk (terminated s.val) codes rest ∧ terminated s.val = before ++ rest ∧
    Stops false rest

/-- The error is printed and every search answers as before. -/
def Rejected (wf : Cowf) (s : CString) : Prop :=
  ∃ wf', cowfAddword wf (terminated s.val) = .ok (true, wf') ∧
    (∀ word : CString, existAnswer wf' word.val = existAnswer wf word.val) ∧
    ∀ text : CString, checkAnswer wf' text.val = checkAnswer wf text.val

/-- In every state a word that does not decode is rejected if and only if what precedes the
first byte that does not decode is empty or is a keyword. -/
theorem undecodable_keyword (calls : List Call) (s : CString) (before : List UInt8)
    (fails : FailsBehind s before) : ∃ wf, Runs.run call cowfNew calls = .ok wf ∧
      (Rejected wf s ↔ before = [] ∨ existAnswer wf before = .ok true) := by
  obtain ⟨wf, ran, h⟩ := calls_ordered calls
  refine ⟨wf, ran, ?_⟩
  obtain ⟨cs, rest, walk, cut, stops⟩ := fails
  obtain ⟨split, codes⟩ := walk.forms
  have read : before = encodeAll cs := List.append_cancel_right (cut.symm.trans split)
  obtain ⟨printed, wf', added, message, h', words⟩ := addword_spec h codes stops.stuck
  obtain ⟨⟨b, byte, nonzero⟩, -⟩ := stops
  rw [← split] at added
  have printed : printed = true := message.mpr (by simp [byte, nonzero])
  subst printed
  rw [read, exists_iff h codes]
  constructor
  · rintro ⟨after, added', same, -⟩
    rw [added] at added'
    cases added'
    by_cases none : cs = []
    · exact .inl (by rw [none]; rfl)
    · have kept := same ⟨encodeAll cs, codes.zero_not_mem⟩
      rw [(exists_iff h' codes).mpr ⟨none, (words cs).mpr (.inr ⟨rfl, none⟩)⟩] at kept
      exact .inr ((exists_iff h codes).mp kept.symm)
  · intro nothing_new
    have same : ∀ w, Contains wf' w ↔ Contains wf w := by
      intro w
      rw [words]
      refine or_iff_left_of_imp ?_
      rintro ⟨rfl, some⟩
      exact nothing_new.elim (fun empty => absurd empty (encodeAll_ne_nil some)) And.right
    exact ⟨wf', added, fun word => (same_answers h h' same word).1,
      fun text => (same_answers h h' same text).2⟩

/-- `a`, and `a` with a byte behind it that starts no form. -/
def a : CString := ⟨[0x61], by decide⟩
def aff : CString := ⟨[0x61, 0xff], by decide⟩

theorem aff_fails : FailsBehind aff [0x61] :=
  ⟨[0x61], [0xff, 0], .step rfl (by decide) rfl (.here _), rfl, ⟨0xff, rfl, by decide⟩, rfl⟩

theorem undecodable_keyword_known : FailsBehind aff [0x61] ∧
    ∃ wf, Runs.run call cowfNew [.add a] = .ok wf ∧
      (Rejected wf aff ↔ ([0x61] : List UInt8) = [] ∨ existAnswer wf [0x61] = .ok true) :=
  ⟨aff_fails, undecodable_keyword [.add a] aff [0x61] aff_fails⟩

/-- On a new filter the word is reported as malformed, and `a` is a keyword afterwards. -/
theorem malformed_word_leaves_prefix : FailsBehind aff [0x61] ∧ ¬ Rejected cowfNew aff := by
  refine ⟨aff_fails, ?_⟩
  rintro ⟨wf', added, same, -⟩
  have after : wf' = ⟨some ⟨some [⟨none, 0x61, true⟩], 0, false⟩⟩ :=
    (congrArg Prod.snd (Except.ok.inj added)).symm
  have now : existAnswer wf' a.val = .ok true := by
    rw [after]
    rfl
  have before : existAnswer cowfNew a.val = .ok false := rfl
  have kept := same a
  rw [now, before] at kept
  cases kept

end Colinlib.Guarantees.KeywordRejection
