import Colinlib.Guarantees.Utf8Acceptance
import Colinlib.Source.WordScan

/-!
# The word filter is a set of words

Words are sequences of scalar values other than zero, handed over in UTF-8. After any
calls a word is in the filter if and only if it was added and neither deleted nor
cleared away since; deleting a word touches no other one, and no search changes the
set. At every node the children stand in strictly increasing order of their codes.
-/
namespace Colinlib.Guarantees.KeywordSet
open Colinlib.Theory.CMemory Colinlib.Theory.Utf8 Colinlib.Theory.Keywords
open Colinlib.Source.Utf8 Colinlib.Source.WordFilter Colinlib.Source.WordTrie
open Colinlib.Source.WordScan

/-- Well-formed text without a zero byte. -/
abbrev Word := { chars : List Char // ∀ c ∈ chars, c.val ≠ 0 }

/-- The bytes of any string in C. -/
abbrev CString := { s : List UInt8 // 0 ∉ s }

def Word.bytes (w : Word) : List UInt8 := w.val.flatMap String.utf8EncodeChar

def Word.codes (w : Word) : List Nat := w.val.map (·.val.toNat)

/-- As it lies in memory. -/
def terminated (s : List UInt8) : List UInt8 := s ++ [0]

/-- The calls: the first three are those that change the set. -/
inductive Op where
  | add (w : Word) | delete (w : Word) | clear
  | exist (w : Word) | check (text : CString) | fitler (text : CString) (ch : UInt8)
  deriving DecidableEq

def apply (wf : Cowf) : Op → Except Fault Cowf
  | .add w => return (← cowfAddword wf (terminated w.bytes)).2
  | .delete w => cowfDelword wf (terminated w.bytes)
  | .clear => return cowfClear wf
  | .exist w => return (← cowfExist wf (terminated w.bytes)).2
  | .check text => return (← cowfCheck wf (terminated text.val)).2
  | .fitler text ch => return (← cowfFitler wf (terminated text.val) ch).2.2

def run (wf : Cowf) : List Op → Except Fault Cowf
  | [] => .ok wf
  | op :: ops => do run (← apply wf op) ops

/-- The word was added, and not deleted or cleared away since. -/
def Live (w : Word) (ops : List Op) : Prop :=
  ∃ before after, ops = before ++ .add w :: after ∧ .delete w ∉ after ∧ .clear ∉ after

theorem live_snoc {w : Word} {ops : List Op} {op : Op} :
    Live w (ops ++ [op]) ↔ op = .add w ∨ Live w ops ∧ op ≠ .delete w ∧ op ≠ .clear := by
  constructor
  · rintro ⟨before, after, split, kept, uncleared⟩
    rcases List.eq_nil_or_concat after with rfl | ⟨later, last, rfl⟩
    · exact .inl (List.cons.inj (List.append_inj' split rfl).2).1
    · rw [List.concat_eq_append] at split kept uncleared
      rw [← List.cons_append, ← List.append_assoc] at split
      obtain ⟨earlier, same⟩ := List.append_inj' split rfl
      cases same
      refine .inr ⟨⟨before, later, earlier, fun mem => kept (List.mem_append_left _ mem),
        fun mem => uncleared (List.mem_append_left _ mem)⟩, ?_, ?_⟩
      · rintro rfl
        exact kept (List.mem_append_right _ List.mem_cons_self)
      · rintro rfl
        exact uncleared (List.mem_append_right _ List.mem_cons_self)
  · rintro (rfl | ⟨⟨before, after, rfl, kept, uncleared⟩, other, stays⟩)
    · exact ⟨ops, [], rfl, List.not_mem_nil, List.not_mem_nil⟩
    · refine ⟨before, after ++ [op], by simp, ?_, ?_⟩ <;> rw [List.mem_append, List.mem_singleton]
      · exact not_or.mpr ⟨kept, Ne.symm other⟩
      · exact not_or.mpr ⟨uncleared, Ne.symm stays⟩

/-! ## Words and codes -/

theorem Word.bytes_eq (w : Word) : w.bytes = encodeAll w.codes := by
  unfold Word.bytes Word.codes encodeAll
  rw [List.flatMap_map]
  rfl

theorem Word.codes_ok (w : Word) : Codes w.codes := by
  intro c mem
  obtain ⟨char, inside, rfl⟩ := List.mem_map.mp mem
  refine ⟨fun zero => w.property char inside ?_, Utf8Acceptance.char_le char⟩
  exact UInt32.toNat_inj.mp zero

theorem Word.codes_inj {u w : Word} (h : u.codes = w.codes) : u = w := by
  refine Subtype.ext (List.map_injective_iff.mpr (fun a b same => ?_) h)
  exact Char.ext (UInt32.toNat_inj.mp same)

theorem Word.codes_nil {w : Word} : w.codes = [] ↔ w.val = [] := List.map_eq_nil_iff

theorem Word.terminated_eq (w : Word) : terminated w.bytes = encodeAll w.codes ++ [0] := by
  rw [terminated, w.bytes_eq]

/-- The set of words in the filter. -/
def Contains (wf : Cowf) (w : List Nat) : Prop := ∃ root, wf.root = some root ∧ Words root w

def OrderedTrie (wf : Cowf) : Prop := ∀ root, wf.root = some root → Ordered root

/-- The filter holds the words that are live. -/
structure Holds (ops : List Op) (wf : Cowf) : Prop where
  ordered : OrderedTrie wf
  words : ∀ w, Contains wf w ↔ ∃ u : Word, u.val ≠ [] ∧ w = u.codes ∧ Live u ops

section Step
variable {ops : List Op} {wf wf' : Cowf}

theorem Holds.live (h : Holds ops wf) (w : Word) (nonempty : w.val ≠ []) :
    Contains wf w.codes ↔ Live w ops := by
  rw [h.words]
  constructor
  · rintro ⟨u, -, same, live⟩
    rwa [Word.codes_inj same]
  · exact fun live => ⟨w, nonempty, rfl, live⟩

theorem holds_new : Holds [] cowfNew := by
  refine ⟨fun root h => (nomatch h), fun w => ⟨fun ⟨root, h, _⟩ => (nomatch h), ?_⟩⟩
  rintro ⟨u, -, -, before, after, split, -⟩
  cases before <;> cases split

/-- What a call does to the words. -/
def Changes (op : Op) (before after : List Nat → Prop) : Prop :=
  ∀ w, after w ↔
    (∃ u : Word, u.val ≠ [] ∧ w = u.codes ∧ op = .add u) ∨
      before w ∧ (∀ u : Word, w = u.codes → op ≠ .delete u) ∧ op ≠ .clear

theorem Holds.step (h : Holds ops wf) {op : Op} (ordered : OrderedTrie wf')
    (changes : Changes op (Contains wf) (Contains wf')) : Holds (ops ++ [op]) wf' := by
  refine ⟨ordered, fun w => ?_⟩
  rw [changes w, h.words w]
  constructor
  · rintro (⟨u, nonempty, rfl, rfl⟩ | ⟨⟨u, nonempty, rfl, live⟩, kept, stays⟩)
    · exact ⟨u, nonempty, rfl, live_snoc.mpr (.inl rfl)⟩
    · exact ⟨u, nonempty, rfl, live_snoc.mpr (.inr ⟨live, kept u rfl, stays⟩)⟩
  · rintro ⟨u, nonempty, rfl, live⟩
    rcases live_snoc.mp live with added | ⟨live, kept, stays⟩
    · exact .inl ⟨u, nonempty, rfl, added⟩
    · refine .inr ⟨⟨u, nonempty, rfl, live⟩, fun v same => ?_, stays⟩
      rwa [← Word.codes_inj same]

/-- A call that changes no word and is none of those that could. -/
theorem Changes.same {op : Op} {before after : List Nat → Prop} (same : ∀ w, after w ↔ before w)
    (search : (∀ u, op ≠ .add u) ∧ (∀ u, op ≠ .delete u) ∧ op ≠ .clear) : Changes op before after := by
  intro w
  rw [same]
  constructor
  · exact fun h => .inr ⟨h, fun u _ => search.2.1 u, search.2.2⟩
  · rintro (⟨u, -, -, added⟩ | ⟨h, -⟩)
    · exact absurd added (search.1 u)
    · exact h

/-- A trie that the searches cannot tell from the one before. -/
theorem contains_kept {root root' : Node} (here : wf.root = some root) (kept : Kept root root')
    (w : List Nat) : Contains { wf with root := some root' } w ↔ Contains wf w := by
  constructor
  · rintro ⟨node, same, word⟩
    cases same
    refine ⟨root, here, ?_⟩
    rwa [kept.set] at word
  · rintro ⟨node, same, word⟩
    rw [here] at same
    cases same
    refine ⟨root', rfl, ?_⟩
    rwa [kept.set]

theorem ordered_some {root : Node} (h : Ordered root) : OrderedTrie ⟨some root⟩ := by
  rintro node same
  cases same
  exact h

theorem contains_none (here : wf.root = none) (w : List Nat) : ¬ Contains wf w := by
  rintro ⟨root, same, -⟩
  rw [here] at same
  cases same

theorem contains_some {root : Node} (here : wf.root = some root) (w : List Nat) :
    Contains wf w ↔ has root w = true := by
  constructor
  · rintro ⟨node, same, word⟩
    rw [here] at same
    cases same
    exact word
  · exact fun word => ⟨root, here, word⟩

section Strings
variable {cs : List Nat} {rest : List UInt8}

/-- The codes of a string up to where it stops become a word, if there are any. -/
theorem addword_spec (h : OrderedTrie wf) (codes : Codes cs) (stop : Stuck rest) :
    ∃ printed wf', cowfAddword wf (encodeAll cs ++ rest) = .ok (printed, wf') ∧
      (printed = true ↔ charAt rest ≠ .ok 0) ∧ OrderedTrie wf' ∧
      ∀ w, Contains wf' w ↔ Contains wf w ∨ w = cs ∧ cs ≠ [] := by
  have start : Ordered (wf.root.getD newNode) ∧
      ∀ w, has (wf.root.getD newNode) w = true ↔ Contains wf w := by
    cases here : wf.root with
    | none =>
        refine ⟨newNode_ordered 0, fun w => ?_⟩
        simp only [Option.getD_none, contains_none here, iff_false]
        exact Bool.eq_false_iff.mp (has_newNode 0 w)
    | some root => exact ⟨h root here, fun w => (contains_some here w).symm⟩
  obtain ⟨printed, root', ran, message, ordered, -, words⟩ :=
    addLoop_spec codes stop _ (codes_lt_length cs stop) start.1 false
  refine ⟨printed, ⟨some root'⟩, ?_, message, ordered_some ordered, fun w => ?_⟩
  · unfold cowfAddword
    simp only [ran, ok_bind]
    rfl
  · rw [contains_some rfl, words, start.2]
    simp

/-- A word is deleted only by a string that decodes to its end. -/
theorem delword_spec (h : OrderedTrie wf) (codes : Codes cs) {ends : Bool}
    (stop : Stops ends rest) :
    ∃ wf', cowfDelword wf (encodeAll cs ++ rest) = .ok wf' ∧ OrderedTrie wf' ∧
      ∀ w, Contains wf' w ↔ Contains wf w ∧ ¬ (ends = true ∧ w = cs ∧ cs ≠ []) := by
  unfold cowfDelword
  cases here : wf.root with
  | none =>
      refine ⟨wf, rfl, h, fun w => ?_⟩
      simp [contains_none here w]
  | some root =>
      obtain ⟨found, root', ran, -, ordered, -, words⟩ :=
        getLastchild_spec (fun _ => false) rfl codes stop _ (codes_lt_length cs stop.stuck)
          (h root here) false
      refine ⟨⟨some root'⟩, ?_, ordered_some ordered, fun w => ?_⟩
      · simp only [ran, ok_bind]
        rfl
      · rw [contains_some rfl, words, contains_some here]
        split
        · next named => simp_all
        · next other => simp_all

/-- What `cowf_exist` returns for a string. -/
theorem existword_spec (h : OrderedTrie wf) (codes : Codes cs) {ends : Bool}
    (stop : Stops ends rest) :
    ∃ found wf', cowfExist wf (encodeAll cs ++ rest) = .ok (found, wf') ∧ OrderedTrie wf' ∧
      (∀ w, Contains wf' w ↔ Contains wf w) ∧
      (found = true ↔ ends = true ∧ cs ≠ [] ∧ Contains wf cs) := by
  unfold cowfExist
  cases here : wf.root with
  | none =>
      refine ⟨false, wf, rfl, h, fun _ => Iff.rfl, ?_⟩
      simp [contains_none here]
  | some root =>
      obtain ⟨found, root', ran, answer, ordered, code, words⟩ :=
        getLastchild_spec id rfl codes stop _ (codes_lt_length cs stop.stuck) (h root here) false
      have kept : Kept root root' := by
        refine ⟨ordered, code, fun w => ?_⟩
        rw [words]
        split
        · next same => rw [same.2.1]; rfl
        · rfl
      refine ⟨found.getD false, _, ?_, ordered_some ordered, contains_kept here kept, ?_⟩
      · simp only [ran, ok_bind]
        rfl
      · rw [answer, contains_some here]
        simp only [Bool.and_eq_true, Bool.false_or, decide_eq_true_eq, and_assoc]
        exact and_congr_right fun _ => and_comm

end Strings

theorem add_step (h : Holds ops wf) (u : Word) :
    ∃ wf', apply wf (.add u) = .ok wf' ∧ Holds (ops ++ [.add u]) wf' := by
  obtain ⟨printed, wf', ran, -, ordered, words⟩ := addword_spec h.ordered u.codes_ok stuck_end
  refine ⟨wf', ?_, h.step ordered fun w => ?_⟩
  · unfold apply
    simp only [u.terminated_eq, ran, ok_bind]
    rfl
  · rw [words, or_comm]
    refine or_congr ?_ (by simp)
    constructor
    · rintro ⟨rfl, added⟩
      exact ⟨u, mt Word.codes_nil.mpr added, rfl, rfl⟩
    · rintro ⟨v, nonempty, rfl, same⟩
      cases same
      exact ⟨rfl, mt Word.codes_nil.mp nonempty⟩

theorem delete_step (h : Holds ops wf) (u : Word) :
    ∃ wf', apply wf (.delete u) = .ok wf' ∧ Holds (ops ++ [.delete u]) wf' := by
  obtain ⟨wf', ran, ordered, words⟩ := delword_spec h.ordered u.codes_ok stops_end
  refine ⟨wf', ?_, h.step ordered fun w => ?_⟩
  · show cowfDelword wf (terminated u.bytes) = _
    rw [u.terminated_eq, ran]
  · rw [words]
    constructor
    · rintro ⟨word, kept⟩
      refine .inr ⟨word, fun v same => ?_, nofun⟩
      rintro ⟨⟩
      refine kept ⟨rfl, same, fun none => ?_⟩
      obtain ⟨v, nonempty, codes, -⟩ := (h.words w).mp word
      rw [same, none] at codes
      exact nonempty (Word.codes_nil.mp codes.symm)
    · rintro (⟨v, -, -, added⟩ | ⟨word, kept, -⟩)
      · cases added
      · exact ⟨word, fun same => kept u same.2.1 rfl⟩

theorem clear_step (h : Holds ops wf) :
    ∃ wf', apply wf .clear = .ok wf' ∧ Holds (ops ++ [.clear]) wf' := by
  refine ⟨cowfClear wf, rfl, h.step (fun root same => (nomatch same)) fun w => ?_⟩
  have absent : ¬ Contains (cowfClear wf) w := contains_none rfl w
  simp [absent]

/-- What `cowf_exist` returns for a word. -/
theorem exist_spec (h : OrderedTrie wf) (u : Word) :
    ∃ found wf', cowfExist wf (terminated u.bytes) = .ok (found, wf') ∧ OrderedTrie wf' ∧
      (∀ w, Contains wf' w ↔ Contains wf w) ∧
      (found = true ↔ u.val ≠ [] ∧ Contains wf u.codes) := by
  obtain ⟨found, wf', ran, ordered, same, answer⟩ := existword_spec h u.codes_ok stops_end
  refine ⟨found, wf', u.terminated_eq ▸ ran, ordered, same, ?_⟩
  rw [answer]
  simp [Word.codes_nil]

theorem CString.ends (text : CString) : (0 : UInt8) ∈ terminated text.val :=
  List.mem_append_right _ List.mem_cons_self

theorem CString.forms (text : CString) : ∃ cs rest, terminated text.val = encodeAll cs ++ rest ∧
    Codes cs ∧ Stuck rest := by
  obtain ⟨cs, rest, split, codes, stop, -⟩ := string_codes text.ends
  exact ⟨cs, rest, split, codes, stop⟩

theorem check_spec (h : OrderedTrie wf) {text rest : List UInt8} {cs : List Nat}
    (split : text = encodeAll cs ++ rest) (codes : Codes cs) (stop : Stuck rest) :
    ∃ found wf', cowfCheck wf text = .ok (found, wf') ∧ OrderedTrie wf' ∧
      (∀ w, Contains wf' w ↔ Contains wf w) ∧ (found = true ↔ Occurs (Contains wf) cs) := by
  unfold cowfCheck
  cases here : wf.root with
  | none =>
      refine ⟨false, wf, rfl, h, fun _ => Iff.rfl, ?_⟩
      exact ⟨fun h => (nomatch h), fun ⟨w, _, word, _⟩ => absurd word (contains_none here w)⟩
  | some root =>
      obtain ⟨found, root', ran, kept, answer⟩ :=
        scanLoop_spec codes stop _ (codes_lt_length cs stop) (h root here)
      have same : Contains wf = Words root := funext fun w => propext (contains_some here w)
      refine ⟨found, _, ?_, ordered_some kept.ordered, contains_kept here kept, ?_⟩
      · simp only [split, ran, ok_bind]
        rfl
      · rw [answer, same]

/-- The places from which `cowf_fitler` reads. -/
def ScansText (wf : Cowf) (text : List UInt8) (ch : UInt8) (p : Nat) : Prop :=
  ∃ root, wf.root = some root ∧ Scans ch ⟨root, text, 0, false⟩ p

/-- The places of a text that are covered, each by a word of the filter that stands in the
text where the scan read. -/
def CoveredText (wf : Cowf) (text after : List UInt8) (ch : UInt8) (i : Nat) : Prop :=
  ∃ q w, ScansText wf text ch q ∧ Contains wf w ∧ encodeAll w <+: text.drop q ∧ q ≤ i ∧
    i < q + (encodeAll w).length ∧
    ∀ j, q ≤ j → j < q + (encodeAll w).length → after[j]? = some ch

theorem fitler_spec (h : OrderedTrie wf) {text rest : List UInt8} {cs : List Nat}
    (split : text = encodeAll cs ++ rest) (codes : Codes cs) (stop : Stuck rest) (ch : UInt8) :
    ∃ result after wf', cowfFitler wf text ch = .ok (result, after, wf') ∧ OrderedTrie wf' ∧
      (∀ w, Contains wf' w ↔ Contains wf w) ∧ (result = true ↔ Occurs (Contains wf) cs) ∧
      (ch.toNat < 0x80 → ∃ ys, Masked (Contains wf) (maskOf ch) cs ys ∧
        after = encodeAll ys ++ rest ∧
        ∀ i, after[i]? ≠ text[i]? → CoveredText wf text after ch i) := by
  unfold cowfFitler
  cases here : wf.root with
  | none =>
      have absent (xs : List Nat) : ¬ Starts (Contains wf) xs :=
        fun ⟨w, _, word, _⟩ => contains_none here w word
      have kept : Masked (Contains wf) (maskOf ch) cs cs := by
        clear split codes
        induction cs with
        | nil => exact .done
        | cons c cs ih => exact .keep (absent _) ih
      refine ⟨false, text, wf, rfl, h, fun _ => Iff.rfl, ?_, fun _ => ?_⟩
      · exact ⟨fun h => (nomatch h), fun ⟨w, _, word, _⟩ => absurd word (contains_none here w)⟩
      · exact ⟨cs, kept, split, fun i changed => absurd rfl changed⟩
  | some root =>
      have same : Contains wf = Words root := funext fun w => propext (contains_some here w)
      have start : At ⟨root, text, 0, false⟩ [] cs rest := ⟨split, rfl⟩
      obtain ⟨st, ran, kept, found, masking⟩ := fitlerLoop_spec ch text.length start codes
        stop (h root here) (by rw [split]; exact codes_lt_length cs stop)
      refine ⟨st.result, st.text, { wf with root := some st.root }, ?_, ordered_some kept.ordered,
        contains_kept here kept, ?_, fun ascii => ?_⟩
      · simp only [ran, ok_bind]
        rfl
      · rw [found, same]
        simp
      · obtain ⟨ys, masked, after, changes⟩ := masking ascii
        rw [same]
        refine ⟨ys, masked, after, fun i changed => ?_⟩
        obtain ⟨q, w, scans, word, shown⟩ := changes i changed
        exact ⟨q, w, ⟨root, here, scans⟩, (contains_some here w).mpr word, shown⟩

theorem apply_step (h : Holds ops wf) (op : Op) :
    ∃ wf', apply wf op = .ok wf' ∧ Holds (ops ++ [op]) wf' := by
  cases op with
  | add u => exact add_step h u
  | delete u => exact delete_step h u
  | clear => exact clear_step h
  | exist u =>
      obtain ⟨found, wf', ran, ordered, same, -⟩ := exist_spec h.ordered u
      refine ⟨wf', ?_, h.step ordered (.same same ⟨nofun, nofun, nofun⟩)⟩
      rw [apply, ran, ok_bind]
      rfl
  | check text =>
      obtain ⟨cs, rest, split, codes, stop⟩ := text.forms
      obtain ⟨found, wf', ran, ordered, same, -⟩ := check_spec h.ordered split codes stop
      refine ⟨wf', ?_, h.step ordered (.same same ⟨nofun, nofun, nofun⟩)⟩
      rw [apply, ran, ok_bind]
      rfl
  | fitler text ch =>
      obtain ⟨cs, rest, split, codes, stop⟩ := text.forms
      obtain ⟨result, after, wf', ran, ordered, same, -⟩ :=
        fitler_spec h.ordered split codes stop ch
      refine ⟨wf', ?_, h.step ordered (.same same ⟨nofun, nofun, nofun⟩)⟩
      rw [apply, ran, ok_bind]
      rfl

theorem run_holds {before : List Op} (h : Holds before wf) (ops : List Op) :
    ∃ wf', run wf ops = .ok wf' ∧ Holds (before ++ ops) wf' := by
  induction ops generalizing before wf with
  | nil => exact ⟨wf, rfl, by rwa [List.append_nil]⟩
  | cons op ops ih =>
      obtain ⟨wf₁, applied, h₁⟩ := apply_step h op
      obtain ⟨wf', ran, h'⟩ := ih h₁
      refine ⟨wf', by rw [run, applied, ok_bind, ran], ?_⟩
      rwa [List.append_assoc] at h'

end Step

theorem reached (ops : List Op) : ∃ wf, run cowfNew ops = .ok wf ∧ Holds ops wf :=
  run_holds holds_new ops

/-- After any calls on a new filter, `cowf_exist` is true for a word that is not empty if
and only if the word was added and not deleted or cleared away since; asking changes no
answer; and the children of every node are in strictly increasing order. -/
theorem keyword_set (ops : List Op) : ∃ wf, run cowfNew ops = .ok wf ∧ OrderedTrie wf ∧
    ∀ w : Word, w.val ≠ [] → ∃ found wf', cowfExist wf (terminated w.bytes) = .ok (found, wf') ∧
      (found = true ↔ Live w ops) := by
  obtain ⟨wf, ran, holds⟩ := reached ops
  refine ⟨wf, ran, holds.ordered, fun w nonempty => ?_⟩
  obtain ⟨found, wf', asked, -, -, answer⟩ := exist_spec holds.ordered w
  refine ⟨found, wf', asked, ?_⟩
  rw [answer, and_iff_right nonempty, holds.live w nonempty]

end Colinlib.Guarantees.KeywordSet
