import Colinlib.Theory.Keywords
import Colinlib.Source.WordTrie

/-!
# Checking and filtering a text

Both scans go over the codes of the text up to its end or to the first byte that does
not decode. `cowf_fitler` rewrites the text behind the place it reads from, so what it
reads is still the text it was given.
-/
namespace Colinlib.Source.WordScan
open Colinlib.Theory.CMemory Colinlib.Theory.Utf8 Colinlib.Theory.Keywords
open Colinlib.Source.Utf8 Colinlib.Source.WordFilter Colinlib.Source.WordTrie

section Scan
variable {rest : List UInt8} {cs : List Nat} {root : Node}

/-- The pointer returned is behind a word, or no word starts at the text. -/
theorem checkWord_spec (codes : Codes cs) (stop : Stuck rest) (h : Ordered root) :
    ∃ out root', checkWord root (encodeAll cs ++ rest) = .ok (out, root') ∧ Kept root root' ∧
      match out with
      | some n => ∃ w, w ≠ [] ∧ w <+: cs ∧ Words root w ∧ n = (encodeAll w).length
      | none => ¬ Starts (Words root) cs := by
  obtain ⟨out, root', ran, kept, answer⟩ :=
    checkLoop_spec codes stop _ (codes_lt_length cs stop) h 0
  refine ⟨out, root', ran, kept, ?_⟩
  cases out with
  | some n =>
      obtain ⟨w, nonempty, start, word, length⟩ := answer
      exact ⟨w, nonempty, start, word, by rw [length, Nat.zero_add]⟩
  | none =>
      rintro ⟨w, nonempty, word, start⟩
      exact absurd word (Bool.eq_false_iff.mp (answer w nonempty start))

theorem checkWord_stuck (stop : Stuck rest) (h : Ordered root) :
    ∃ root', checkWord root rest = .ok (none, root') ∧ Kept root root' := by
  obtain ⟨out, root', ran, kept, answer⟩ :=
    checkWord_spec codes_nil stop h
  cases out with
  | some n =>
      obtain ⟨w, nonempty, start, -⟩ := answer
      exact absurd (List.prefix_nil.mp start) nonempty
  | none => exact ⟨root', ran, kept⟩

theorem scanLoop_spec (codes : Codes cs) (stop : Stuck rest) (fuel : Nat)
    (enough : cs.length < fuel) (h : Ordered root) :
    ∃ found root', scanLoop fuel root (encodeAll cs ++ rest) = .ok (found, root') ∧
      Kept root root' ∧ (found = true ↔ Occurs (Words root) cs) := by
  induction cs generalizing fuel root with
  | nil =>
      obtain ⟨fuel, rfl⟩ := Nat.exists_eq_succ_of_ne_zero (Nat.ne_of_gt enough)
      rw [encodeAll_nil, List.nil_append, scanLoop]
      have nothing : false = true ↔ Occurs (Words root) [] :=
        ⟨fun h => (nomatch h), fun occurs => absurd occurs not_occurs_nil⟩
      by_cases zero : charAt rest = .ok 0
      · rw [zero, ok_bind]
        exact ⟨false, root, rfl, ⟨h, rfl, fun _ => rfl⟩, nothing⟩
      · obtain ⟨⟨b, byte⟩, malformed⟩ := stop.resolve_left zero
        obtain ⟨root', ran, kept⟩ := checkWord_stuck stop h
        rw [byte] at zero
        rw [byte, ok_bind, if_neg (fun h => zero (by rw [h])), ran, ok_bind]
        simp only [Option.isSome_none, Bool.false_eq_true, if_false, malformed, ok_bind]
        exact ⟨false, root', rfl, kept, nothing⟩
  | cons c cs ih =>
      obtain ⟨fuel, rfl⟩ := Nat.exists_eq_succ_of_ne_zero (Nat.ne_of_gt (Nat.zero_lt_of_lt enough))
      have code := codes c List.mem_cons_self
      obtain ⟨b, byte, nonzero⟩ := charAt_encode (s := encodeAll cs ++ rest) code
      have decoded := decode_encode (s := encodeAll cs ++ rest) code
      obtain ⟨out, root₁, ran, kept, answer⟩ := checkWord_spec codes stop h
      rw [encodeAll_cons, List.append_assoc] at ran
      rw [encodeAll_cons, List.append_assoc, scanLoop, byte, ok_bind, if_neg nonzero, ran, ok_bind]
      cases out with
      | some n =>
          obtain ⟨w, nonempty, start, word, -⟩ := answer
          exact ⟨true, root₁, rfl, kept, fun _ => ⟨w, nonempty, word, start.isInfix⟩, fun _ => rfl⟩
      | none =>
          obtain ⟨found, root₂, scanned, kept₂, occurs⟩ :=
            ih codes.tail fuel (Nat.lt_of_succ_lt_succ enough) kept.ordered
          refine ⟨found, root₂, ?_, kept.trans kept₂, ?_⟩
          · simp only [Option.isSome_none, Bool.false_eq_true, if_false, decoded, ok_bind,
              List.drop_left, scanned]
          · rw [occurs, kept.set, occurs_cons, or_iff_right answer]

end Scan

/-! ## Rewriting -/

/-- The places from which the loop of `cowf_fitler` reads, from a state on. -/
inductive Scans (ch : UInt8) : Filtering → Nat → Prop
  | here (st) : Scans ch st st.p
  | next {st st' p} (round : fitlerRound ch st = .ok (true, st')) (later : Scans ch st' p) :
      Scans ch st p

theorem fill_spec (ch : UInt8) (before mid after : List UInt8) :
    fill (before ++ mid ++ after) before.length ch mid.length =
      .ok (before ++ List.replicate mid.length ch ++ after) := by
  induction mid generalizing before with
  | nil => rfl
  | cons b mid ih =>
      have inside : before.length < (before ++ b :: mid ++ after).length := by simp
      have stored : (before ++ b :: mid ++ after).set before.length ch =
          (before ++ [ch]) ++ mid ++ after := by
        simp
      have moved : before.length + 1 = (before ++ [ch]).length := by simp
      rw [List.length_cons, fill, if_pos inside, stored, moved, ih, List.replicate_succ]
      simp

/-- The text in front of the pointer, and the codes and the stop behind it. -/
structure At (st : Filtering) (before : List UInt8) (cs : List Nat) (rest : List UInt8) : Prop where
  text : st.text = before ++ (encodeAll cs ++ rest)
  p : st.p = before.length

theorem At.drop {st : Filtering} {before rest : List UInt8} {cs : List Nat} (h : At st before cs rest) :
    st.text.drop st.p = encodeAll cs ++ rest := by
  rw [h.text, h.p, List.drop_left]

section Round
variable {ch : UInt8} {st : Filtering} {before rest : List UInt8} {cs : List Nat} {c : Nat}

theorem fitlerRound_stop (ch : UInt8) (at' : At st before [] rest) (stop : Stuck rest)
    (h : Ordered st.root) :
    ∃ root', fitlerRound ch st = .ok (false, { st with root := root' }) ∧ Kept st.root root' := by
  have here := at'.drop
  rw [encodeAll_nil, List.nil_append] at here
  unfold fitlerRound
  rw [here]
  by_cases zero : charAt rest = .ok 0
  · rw [zero, ok_bind]
    exact ⟨st.root, rfl, h, rfl, fun _ => rfl⟩
  · obtain ⟨⟨b, byte⟩, malformed⟩ := stop.resolve_left zero
    obtain ⟨root', ran, kept⟩ := checkWord_stuck stop h
    rw [byte] at zero
    rw [byte, ok_bind, if_neg (fun h => zero (by rw [h])), ran, ok_bind]
    simp only [malformed, ok_bind]
    exact ⟨root', rfl, kept⟩

/-- One code further, or behind a word that is covered now. -/
theorem fitlerRound_spec (ch : UInt8) (at' : At st before (c :: cs) rest) (codes : Codes (c :: cs))
    (stop : Stuck rest) (h : Ordered st.root) :
    ∃ st', fitlerRound ch st = .ok (true, st') ∧ Kept st.root st'.root ∧
      ((¬ Starts (Words st.root) (c :: cs) ∧ st'.text = st.text ∧ st'.result = st.result ∧
          At st' (before ++ encode c) cs rest) ∨
        ∃ w vs, w ≠ [] ∧ Words st.root w ∧ c :: cs = w ++ vs ∧ st'.result = true ∧
          At st' (before ++ List.replicate (encodeAll w).length ch) vs rest) := by
  have here := at'.drop
  have code := codes c List.mem_cons_self
  obtain ⟨b, byte, nonzero⟩ := charAt_encode (s := encodeAll cs ++ rest) code
  have decoded := decode_encode (s := encodeAll cs ++ rest) code
  obtain ⟨out, root', ran, kept, answer⟩ := checkWord_spec codes stop h
  unfold fitlerRound
  rw [here, encodeAll_cons, List.append_assoc, byte, ok_bind, if_neg nonzero,
    ← List.append_assoc, ← encodeAll_cons, ran, ok_bind]
  cases out with
  | some n =>
      obtain ⟨w, nonempty, ⟨vs, split⟩, word, length⟩ := answer
      have cut : st.text = before ++ encodeAll w ++ (encodeAll vs ++ rest) := by
        rw [at'.text, ← split, encodeAll_append]
        simp
      have filled : fill st.text st.p ch n =
          .ok (before ++ List.replicate (encodeAll w).length ch ++ (encodeAll vs ++ rest)) := by
        rw [cut, at'.p, length, fill_spec]
      refine ⟨⟨root', before ++ List.replicate (encodeAll w).length ch ++ (encodeAll vs ++ rest),
        st.p + n, true⟩, ?_, kept, .inr ⟨w, vs, nonempty, word, split.symm, rfl, rfl, ?_⟩⟩
      · simp only [filled, ok_bind]
        rfl
      · simp [at'.p, length]
  | none =>
      rw [encodeAll_cons, List.append_assoc, decoded]
      refine ⟨_, rfl, kept, .inl ⟨answer, rfl, rfl, ?_, ?_⟩⟩
      · show st.text = _
        rw [at'.text, encodeAll_cons]
        simp
      · show st.p + _ = _
        rw [at'.p, List.length_append]

theorem fitlerRound_forward {st' : Filtering} (round : fitlerRound ch st = .ok (true, st')) :
    st.p ≤ st'.p := by
  unfold fitlerRound at round
  obtain ⟨b, -, round⟩ := bind_ok round
  split at round
  · cases round
  obtain ⟨⟨e, root⟩, -, round⟩ := bind_ok round
  cases e with
  | some n =>
      obtain ⟨text, -, round⟩ := bind_ok round
      cases round
      exact Nat.le_add_right _ _
  | none =>
      obtain ⟨r, -, round⟩ := bind_ok round
      cases r with
      | none => cases round
      | some moved =>
          cases round
          exact Nat.le_add_right _ _

theorem Scans.forward {q : Nat} (h : Scans ch st q) : st.p ≤ q := by
  induction h with
  | here => exact Nat.le_refl _
  | next round _ ih => exact Nat.le_trans (fitlerRound_forward round) ih

end Round

/-- The position is in the place of a word that starts where the scan read, and that place
holds the mark now. -/
def Covered (ch : UInt8) (K : List Nat → Prop) (st : Filtering) (text : List UInt8) (i : Nat) : Prop :=
  ∃ q w, Scans ch st q ∧ K w ∧ encodeAll w <+: st.text.drop q ∧ q ≤ i ∧
    i < q + (encodeAll w).length ∧
    ∀ j, q ≤ j → j < q + (encodeAll w).length → text[j]? = some ch

/-- As many marks as the word has bytes. -/
def maskOf (ch : UInt8) (w : List Nat) : List Nat := List.replicate (encodeAll w).length ch.toNat

theorem encodeAll_maskOf {ch : UInt8} (ascii : ch.toNat < 0x80) (w : List Nat) :
    encodeAll (maskOf ch w) = List.replicate (encodeAll w).length ch := by
  rw [maskOf, encodeAll_ascii ascii, UInt8.ofNat_toNat]

section Loop
variable {ch : UInt8}

/-- What a covered place is before the round is what it is after the round. -/
theorem Covered.earlier {K : List Nat → Prop} {st st' : Filtering} {text : List UInt8} {i : Nat}
    (round : fitlerRound ch st = .ok (true, st'))
    (same : ∀ q, st'.p ≤ q → st'.text.drop q = st.text.drop q) (h : Covered ch K st' text i) :
    Covered ch K st text i := by
  obtain ⟨q, w, scans, word, start, low, high, marks⟩ := h
  rw [same q scans.forward] at start
  exact ⟨q, w, .next round scans, word, start, low, high, marks⟩

/-- Behind a place that is covered nothing changes. -/
theorem same_tail (before mid after : List UInt8) (ch : UInt8) (q : Nat)
    (behind : before.length + mid.length ≤ q) :
    (before ++ List.replicate mid.length ch ++ after).drop q = (before ++ mid ++ after).drop q := by
  have length : (before ++ List.replicate mid.length ch).length = (before ++ mid).length := by simp
  have far : (before ++ mid).length ≤ q := by rwa [List.length_append]
  rw [@List.drop_append _ (before ++ mid), List.drop_append, length,
    List.drop_eq_nil_of_le (length ▸ far), List.drop_eq_nil_of_le far]

theorem same_getElem {s t : List UInt8} {q i : Nat} (same : s.drop q = t.drop q) (behind : q ≤ i) :
    s[i]? = t[i]? := by
  have at' := congrArg (·[i - q]?) same
  simp only [List.getElem?_drop] at at'
  rwa [show q + (i - q) = i by omega] at at'

/-- A round that covers a word: what changes is in its place, or changes later on. -/
theorem covered_step {st st₁ : Filtering} {K : List Nat → Prop} {before rest out text : List UInt8}
    {w vs : List Nat} (at' : At st before (w ++ vs) rest) (round : fitlerRound ch st = .ok (true, st₁))
    (next : At st₁ (before ++ List.replicate (encodeAll w).length ch) vs rest) (word : K w)
    (final : text = before ++ List.replicate (encodeAll w).length ch ++ out)
    (changes : ∀ i, text[i]? ≠ st₁.text[i]? → Covered ch K st₁ text i) {i : Nat}
    (changed : text[i]? ≠ st.text[i]?) : Covered ch K st text i := by
  have old : st.text = before ++ encodeAll w ++ (encodeAll vs ++ rest) := by
    rw [at'.text, encodeAll_append]
    simp
  have tail := same_tail before (encodeAll w) (encodeAll vs ++ rest) ch
  rw [← old, ← next.text] at tail
  have reached : st₁.p = before.length + (encodeAll w).length := by
    rw [next.p, List.length_append, List.length_replicate]
  by_cases behind : st₁.p ≤ i
  · have same : st₁.text[i]? = st.text[i]? := same_getElem (tail _ (Nat.le_of_eq reached.symm)) behind
    exact (changes i (same ▸ changed)).earlier round fun q far => tail q (by omega)
  · have front : before.length ≤ i := by
      by_contra inFront
      refine changed ?_
      rw [final, at'.text, List.getElem?_append_left (by simp; omega),
        List.getElem?_append_left (by omega), List.getElem?_append_left (by omega)]
    refine ⟨st.p, w, .here st, word, ?_, by rw [at'.p]; exact front, by rw [at'.p]; omega, ?_⟩
    · rw [at'.drop, encodeAll_append, List.append_assoc]
      exact List.prefix_append _ _
    · intro j low high
      rw [at'.p] at low high
      rw [final, List.getElem?_append_left (by simp; omega), List.getElem?_append_right low,
        List.getElem?_replicate, if_pos (by omega)]

/-- The loop keeps the trie and tells whether a word occurs. With an ASCII mark, what it
leaves of the text are codes again. -/
theorem fitlerLoop_spec (ch : UInt8) (fuel : Nat) {st : Filtering} {before rest : List UInt8}
    {cs : List Nat}
    (at' : At st before cs rest) (codes : Codes cs) (stop : Stuck rest) (h : Ordered st.root)
    (enough : cs.length < fuel) :
    ∃ st', fitlerLoop ch fuel st = .ok st' ∧ Kept st.root st'.root ∧
      (st'.result = true ↔ st.result = true ∨ Occurs (Words st.root) cs) ∧
      (ch.toNat < 0x80 → ∃ ys, Masked (Words st.root) (maskOf ch) cs ys ∧
        st'.text = before ++ (encodeAll ys ++ rest) ∧
        ∀ i, st'.text[i]? ≠ st.text[i]? → Covered ch (Words st.root) st st'.text i) := by
  induction fuel generalizing st before cs with
  | zero => omega
  | succ fuel ih =>
      unfold fitlerLoop
      cases cs with
      | nil =>
          obtain ⟨root', ran, kept⟩ := fitlerRound_stop ch at' stop h
          rw [ran, ok_bind]
          refine ⟨{ st with root := root' }, rfl, kept, (or_iff_left not_occurs_nil).symm, fun _ => ?_⟩
          exact ⟨[], .done, at'.text, fun i changed => absurd rfl changed⟩
      | cons c cs =>
          obtain ⟨st₁, ran, kept, outcome⟩ := fitlerRound_spec ch at' codes stop h
          rw [ran, ok_bind]
          rcases outcome with ⟨clear, text, result, next⟩ | ⟨w, vs, nonempty, word, split, result, next⟩
          · obtain ⟨st', loop, kept', found, masking⟩ :=
              ih next codes.tail kept.ordered (Nat.lt_of_succ_lt_succ enough)
            rw [kept.set] at found masking
            refine ⟨st', loop, kept.trans kept', ?_, fun ascii => ?_⟩
            · rw [found, result, occurs_cons, or_iff_right clear]
            · obtain ⟨ys, masked, text', changes⟩ := masking ascii
              refine ⟨c :: ys, .keep clear masked, ?_, fun i changed => ?_⟩
              · rw [text', encodeAll_cons]
                simp
              · rw [← text] at changed
                exact (changes i changed).earlier ran fun q _ => by rw [text]
          · have shorter : vs.length < fuel := by
              have length := congrArg List.length split
              have some := List.length_pos_iff.mpr nonempty
              rw [List.length_append] at length
              omega
            have later : Codes vs := fun d mem => codes d (by rw [split]; exact List.mem_append_right w mem)
            obtain ⟨st', loop, kept', found, masking⟩ := ih next later kept.ordered shorter
            rw [kept.set] at found masking
            rw [split]
            refine ⟨st', loop, kept.trans kept', ?_, fun ascii => ?_⟩
            · rw [found, result]
              have occurs : Occurs (Words st.root) (w ++ vs) :=
                ⟨w, nonempty, word, (List.prefix_append w vs).isInfix⟩
              exact ⟨fun _ => .inr occurs, fun _ => .inl rfl⟩
            · obtain ⟨ys, masked, text', changes⟩ := masking ascii
              refine ⟨maskOf ch w ++ ys, .mask nonempty word masked, ?_, fun i changed => ?_⟩
              · rw [text', encodeAll_append, encodeAll_maskOf ascii]
                simp
              rw [split] at at'
              exact covered_step at' ran next word text' changes changed

end Loop

end Colinlib.Source.WordScan
