import Colinlib.Source.DnsUtils

/-!
# Names and records in a packet

A name is a walk from label to label; the loop looks at a byte before it looks at the
size, and the copies of an address do not look at `rdlen`. The reading of a name or a
record returns exactly where it stays inside the packet and no sum overflows.
-/
namespace Colinlib.Source.DnsRecords
open Colinlib.Theory.CMemory Colinlib.Source.DnsUtils

/-- The computation returns. -/
def Returns {β : Type} (x : Except Fault β) : Prop := ∃ r, x = .ok r

theorem returns_ok {β : Type} (b : β) : Returns (.ok b) := ⟨b, rfl⟩

theorem returns_bind {β γ : Type} {x : Except Fault β} {next : β → Except Fault γ} :
    Returns (x >>= next) ↔ ∃ b, x = .ok b ∧ Returns (next b) := by
  constructor
  · rintro ⟨c, h⟩
    obtain ⟨b, hx, hb⟩ := bind_ok h
    exact ⟨b, hx, c, hb⟩
  · rintro ⟨b, rfl, h⟩
    exact h

section Names
variable (buf : List UInt8)

/-- The byte at `p` is the length of a label. -/
def Label (p len : Nat) : Prop := byteAt buf p = .ok len ∧ len ≠ 0 ∧ len &&& 0xC0 ≠ 0xC0

/-- The loop over the name at the first position comes to look at the second. -/
inductive Looks : Nat → Nat → Prop
  | here (p) : Looks p p
  | label {p len q} (at' : Label buf p len) (fits : p + 1 + len ≤ buf.length)
      (rest : Looks (p + 1 + len) q) : Looks p q

/-- The byte the loop stops at: the end of the name, or the last byte of a pointer. -/
def Stops (p e : Nat) : Prop :=
  byteAt buf p = .ok 0 ∧ e = p ∨
    ∃ len, byteAt buf p = .ok len ∧ len ≠ 0 ∧ len &&& 0xC0 = 0xC0 ∧ e = p + 1

def NameEnd (start e : Nat) : Prop := ∃ p, Looks buf start p ∧ Stops buf p e

/-- The loop looks at no byte outside, and no sum overflows. -/
def NameInside (start : Nat) : Prop :=
  ∀ p, Looks buf start p → p < buf.length ∧ ∀ len, Label buf p len → p + 1 + len ≤ intMax

end Names

section NameLoop
variable {buf : List UInt8}

theorem byteAt_ok {p : Nat} : p < buf.length ↔ Returns (byteAt buf p) := by
  unfold byteAt
  cases at' : buf[p]? with
  | none =>
      rw [List.getElem?_eq_none_iff] at at'
      exact ⟨fun h => by omega, fun ⟨r, h⟩ => by cases h⟩
  | some b => exact ⟨fun _ => ⟨_, rfl⟩, fun _ => (List.getElem?_eq_some_iff.mp at').1⟩

theorem tooShort_ok {p n : Nat} {b : Bool} :
    tooShort buf p n = .ok b ↔ p + n ≤ intMax ∧ b = decide (buf.length < p + n) := by
  unfold tooShort int32
  split
  · next fits =>
      rw [ok_bind]
      exact ⟨fun h => ⟨fits, (Except.ok.inj h).symm⟩, fun h => by rw [h.2]; rfl⟩
  · next large => exact ⟨fun h => (nomatch h), fun h => absurd h.1 large⟩

/-- After a label the name goes on behind it. -/
theorem looks_label {p len q : Nat} (at' : Label buf p len) :
    Looks buf p q ↔ q = p ∨ p + 1 + len ≤ buf.length ∧ Looks buf (p + 1 + len) q := by
  constructor
  · rintro (_ | @⟨_, len', _, found, fits, rest⟩)
    · exact .inl rfl
    · have same : len = len' := Except.ok.inj (at'.1.symm.trans found.1)
      subst same
      exact .inr ⟨fits, rest⟩
  · rintro (rfl | ⟨fits, rest⟩)
    · exact .here _
    · exact .label at' fits rest

theorem looks_other {p q : Nat} (none : ∀ len, ¬ Label buf p len) : Looks buf p q ↔ q = p := by
  constructor
  · rintro (_ | ⟨found, -, -⟩)
    · rfl
    · exact absurd found (none _)
  · rintro rfl
    exact .here _

theorem nameInside_stop {p : Nat} (inside : p < buf.length) (none : ∀ len, ¬ Label buf p len) :
    NameInside buf p := by
  intro q looks
  rw [(looks_other none).mp looks]
  exact ⟨inside, fun len found => absurd found (none len)⟩

theorem nameEnd_stop {p e : Nat} (none : ∀ len, ¬ Label buf p len) :
    NameEnd buf p e ↔ Stops buf p e := by
  unfold NameEnd
  simp only [looks_other none, exists_eq_left]

theorem Stops.not_label {p e : Nat} (h : Stops buf p e) (len : Nat) : ¬ Label buf p len := by
  rintro ⟨found, nonzero, other⟩
  rcases h with ⟨zero, -⟩ | ⟨len', here, -, pointer, -⟩
  · exact nonzero (Except.ok.inj (found.symm.trans zero))
  · rw [← Except.ok.inj (found.symm.trans here)] at pointer
    exact other pointer

theorem Stops.unique {p e e' : Nat} (h : Stops buf p e) (h' : Stops buf p e') : e = e' := by
  rcases h with ⟨zero, rfl⟩ | ⟨len, here, nonzero, -, rfl⟩ <;>
    rcases h' with ⟨zero', rfl⟩ | ⟨len', here', nonzero', -, rfl⟩
  · rfl
  · exact absurd (Except.ok.inj (here'.symm.trans zero)) nonzero'
  · exact absurd (Except.ok.inj (here.symm.trans zero')) nonzero
  · rfl

theorem nameInside_label {p len : Nat} (at' : Label buf p len) : NameInside buf p ↔
    p + 1 + len ≤ intMax ∧ (p + 1 + len ≤ buf.length → NameInside buf (p + 1 + len)) := by
  have inside : p < buf.length := byteAt_ok.mpr ⟨len, at'.1⟩
  constructor
  · intro h
    refine ⟨(h p (.here p)).2 len at', fun fits q looks => ?_⟩
    exact h q (.label at' fits looks)
  · rintro ⟨small, rest⟩ q looks
    rcases (looks_label at').mp looks with rfl | ⟨fits, later⟩
    · refine ⟨inside, fun len' found => ?_⟩
      rwa [← Except.ok.inj (at'.1.symm.trans found.1)]
    · exact rest fits q later

theorem nameEnd_label {p len e : Nat} (at' : Label buf p len) : NameEnd buf p e ↔
    p + 1 + len ≤ buf.length ∧ NameEnd buf (p + 1 + len) e := by
  constructor
  · rintro ⟨q, looks, stops⟩
    rcases (looks_label at').mp looks with rfl | ⟨fits, later⟩
    · exact absurd at' (stops.not_label len)
    · exact ⟨fits, q, later, stops⟩
  · rintro ⟨fits, q, looks, stops⟩
    exact ⟨q, .label at' fits looks, stops⟩

/-- A name has one end. -/
theorem NameEnd.unique {p e e' : Nat} (h : NameEnd buf p e) (h' : NameEnd buf p e') : e = e' := by
  obtain ⟨q, looks, stops⟩ := h
  induction looks with
  | here p => exact stops.unique ((nameEnd_stop stops.not_label).mp h')
  | label at' _ _ ih => exact ih ((nameEnd_label at').mp h').2 stops

theorem stopped {p : Nat} (e₀ : Nat) (inside : p < buf.length) (none : ∀ len, ¬ Label buf p len)
    (only : ∀ e, Stops buf p e ↔ e = e₀) (r : Option Nat) :
    some e₀ = r ↔ NameInside buf p ∧ ∀ e, r = some e ↔ NameEnd buf p e := by
  simp only [nameEnd_stop none, only, and_iff_right (nameInside_stop inside none)]
  constructor
  · rintro rfl e
    rw [Option.some.injEq, eq_comm]
  · exact fun h => ((h e₀).mpr rfl).symm

/-- The loop returns exactly for a name that stays inside, and with the end of the name if
it has one. -/
theorem nameLoop_iff (small : buf.length ≤ intMax) (fuel : Nat) {p : Nat}
    (enough : buf.length < fuel + p) (r : Option Nat) : nameLoop buf fuel p = .ok r ↔
      NameInside buf p ∧ ∀ e, r = some e ↔ NameEnd buf p e := by
  induction fuel generalizing p with
  | zero =>
      refine ⟨fun h => (by cases h), fun named => ?_⟩
      have := (named.1 p (.here p)).1
      omega
  | succ fuel ih =>
      unfold nameLoop
      cases byte : byteAt buf p with
      | error f =>
          refine ⟨fun h => (by cases h), fun named => ?_⟩
          obtain ⟨b, at'⟩ := byteAt_ok.mp (named.1 p (.here p)).1
          rw [byte] at at'
          cases at'
      | ok len =>
          have inside : p < buf.length := byteAt_ok.mpr ⟨len, byte⟩
          have room : tooShort buf p 1 = .ok false :=
            tooShort_ok.mpr ⟨by omega, by simp; omega⟩
          simp only [ok_bind]
          by_cases zero : len = 0
          · rw [if_pos zero, ← stopped p inside]
            · exact ⟨Except.ok.inj, congrArg _⟩
            · rintro len' ⟨found, nonzero, -⟩
              exact nonzero ((Except.ok.inj (byte.symm.trans found)).symm.trans zero)
            · intro e
              unfold Stops
              rw [byte]
              simp [zero]
          · simp only [if_neg zero, room, ok_bind, Bool.false_eq_true, if_false]
            by_cases pointer : len &&& 0xC0 = 0xC0
            · rw [if_pos pointer, ← stopped (p + 1) inside]
              · exact ⟨Except.ok.inj, congrArg _⟩
              · rintro len' ⟨found, -, other⟩
                rw [← Except.ok.inj (byte.symm.trans found)] at other
                exact other pointer
              · intro e
                unfold Stops
                rw [byte]
                simp [zero, pointer]
            · rw [if_neg pointer]
              have at' : Label buf p len := ⟨byte, zero, pointer⟩
              have positive : 0 < len := Nat.pos_of_ne_zero zero
              simp only [nameInside_label at', nameEnd_label at']
              cases short : tooShort buf (p + 1) len with
              | error f =>
                  refine ⟨fun h => (by cases h), fun named => ?_⟩
                  rw [tooShort_ok.mpr ⟨named.1.1, rfl⟩] at short
                  cases short
              | ok b =>
                  obtain ⟨fits, rfl⟩ := tooShort_ok.mp short
                  rw [ok_bind, and_iff_right fits]
                  by_cases cut : buf.length < p + 1 + len
                  · simp only [cut, decide_true, if_true, Nat.not_le.mpr cut, false_implies,
                      true_and, false_and, iff_false]
                    cases r <;> simp
                    · rfl
                    · intro returned
                      cases returned
                  · have whole : p + 1 + len ≤ buf.length := Nat.not_lt.mp cut
                    simp only [cut, decide_false, Bool.false_eq_true, if_false, whole, true_implies,
                      true_and]
                    exact ih (by omega)

end NameLoop

section Records
variable (buf : List UInt8)

/-- The number in the two bytes at a position. -/
def field16 (p : Nat) : Nat := (buf.getD p 0).toNat * 256 + (buf.getD (p + 1) 0).toNat

/-- Sums with a position are compared with the size, each if the ones before it fit: none
of them overflows, and if all of them fit the rest holds. -/
def Sums (e : Nat) (rest : Prop) : List Nat → Prop
  | [] => rest
  | n :: ns => e + n ≤ intMax ∧ (e + n ≤ buf.length → Sums e rest ns)

/-- Where the fields of a record start: the name has ended at `e`. -/
def atype (e : Nat) : Nat := field16 buf (e + 1)
def rdlen (e : Nat) : Nat := field16 buf (e + 9)

/-- Reading the record stays inside the packet: its name does, no sum overflows, and an
address that is copied has its bytes in the packet. -/
def RecordInside (p : Nat) : Prop :=
  NameInside buf p ∧ ∀ e, NameEnd buf p e →
    Sums buf e ((atype buf e = dnsTypeA → e + 11 + 4 ≤ buf.length) ∧
      (atype buf e = dnsTypeAAAA → e + 11 + 16 ≤ buf.length)) [1, 3, 9, 11, 11 + rdlen buf e]

/-- The record at `p` is complete, and the next one is at `q`. -/
def Next (p q : Nat) : Prop :=
  ∃ e, NameEnd buf p e ∧ e + 11 + rdlen buf e ≤ buf.length ∧ q = e + 11 + rdlen buf e

/-- So many complete records lead from one position to another. -/
inductive After : Nat → Nat → Nat → Prop
  | zero (p) : After 0 p p
  | succ {k p q r} (next : Next buf p q) (rest : After k q r) : After (k + 1) p r

end Records

section Answers
variable {buf : List UInt8}

theorem byteAt_eq {p : Nat} (inside : p < buf.length) :
    byteAt buf p = .ok (buf.getD p 0).toNat := by
  unfold byteAt
  rw [List.getD_eq_getElem?_getD, List.getElem?_eq_getElem inside]
  rfl

theorem uint16At_eq {p : Nat} (inside : p + 2 ≤ buf.length) :
    uint16At buf p = .ok (field16 buf p) := by
  unfold uint16At
  rw [byteAt_eq (by omega), ok_bind, byteAt_eq (by omega)]
  rfl

theorem returns_short {β : Type} {p n : Nat} {x : β} {f : Except Fault β} :
    Returns (do if ← tooShort buf p n then return x
                f) ↔
      p + n ≤ intMax ∧ (p + n ≤ buf.length → Returns f) := by
  rw [returns_bind]
  constructor
  · rintro ⟨b, short, h⟩
    obtain ⟨fits, rfl⟩ := tooShort_ok.mp short
    refine ⟨fits, fun inside => ?_⟩
    rwa [decide_eq_false (Nat.not_lt.mpr inside), if_neg Bool.false_ne_true] at h
  · rintro ⟨fits, h⟩
    refine ⟨_, tooShort_ok.mpr ⟨fits, rfl⟩, ?_⟩
    split
    · exact returns_ok x
    · next inside => exact h (by simpa using inside)

/-- The next sum of a row of checks. -/
theorem returns_sums {β : Type} {e p n n' : Nat} {ns : List Nat} {x : β} {f : Except Fault β}
    {rest : Prop} (here : p + n = e + n')
    (later : e + n' ≤ buf.length → (Returns f ↔ Sums buf e rest ns)) :
    Returns (do if ← tooShort buf p n then return x
                f) ↔ Sums buf e rest (n' :: ns) := by
  rw [returns_short, here]
  exact and_congr_right fun _ => imp_congr_right later

theorem returns_copy {β : Type} {p n : Nat} {g : List UInt8 → β} :
    Returns (do return g (← bytesAt buf p n)) ↔ p + n ≤ buf.length := by
  rw [returns_bind]
  unfold bytesAt
  split
  · next inside => exact ⟨fun _ => inside, fun _ => ⟨_, rfl, returns_ok _⟩⟩
  · next outside => exact ⟨fun ⟨_, h, _⟩ => (nomatch h), fun inside => absurd inside outside⟩

theorem readName_iff (small : buf.length ≤ intMax) {p : Nat} (r : Option Nat) :
    readName buf p = .ok r ↔ NameInside buf p ∧ ∀ e, r = some e ↔ NameEnd buf p e :=
  nameLoop_iff small _ (by omega) r

theorem readName_end (small : buf.length ≤ intMax) {p e : Nat} (inside : NameInside buf p)
    (ends : NameEnd buf p e) : readName buf p = .ok (some e) := by
  refine (readName_iff small (some e)).mpr ⟨inside, fun e' => ?_⟩
  exact ⟨fun same => Option.some.inj same ▸ ends, fun h => congrArg some (ends.unique h)⟩

/-- A name inside has an end, or is cut off by the size. -/
theorem readName_returns (small : buf.length ≤ intMax) {p : Nat} (inside : NameInside buf p) :
    ∃ r, readName buf p = .ok r := by
  by_cases ends : ∃ e, NameEnd buf p e
  · obtain ⟨e, h⟩ := ends
    exact ⟨some e, readName_end small inside h⟩
  · refine ⟨none, (readName_iff small none).mpr ⟨inside, fun e => ?_⟩⟩
    exact ⟨fun h => (nomatch h), fun h => absurd ⟨e, h⟩ ends⟩

theorem readAnswer_returns (small : buf.length ≤ intMax) (p : Nat) :
    Returns (readAnswer buf p) ↔ RecordInside buf p := by
  unfold readAnswer RecordInside
  by_cases inside : NameInside buf p
  · obtain ⟨r, found⟩ := readName_returns small inside
    have ends := ((readName_iff small r).mp found).2
    rw [found, ok_bind, and_iff_right inside]
    cases r with
    | none => exact ⟨fun _ e h => (nomatch (ends e).mpr h), fun _ => returns_ok none⟩
    | some e =>
        simp only [← ends, Option.some.injEq, forall_eq']
        refine returns_sums rfl fun _ => returns_sums rfl fun fits => ?_
        rw [uint16At_eq (by omega), ok_bind]
        refine returns_sums rfl fun _ => returns_sums rfl fun fits => ?_
        rw [uint16At_eq (by omega), ok_bind]
        refine returns_sums (Nat.add_assoc e 11 _) fun _ => ?_
        show _ ↔ (atype buf e = dnsTypeA → _) ∧ (atype buf e = dnsTypeAAAA → _)
        by_cases four : atype buf e = dnsTypeA
        · have other : atype buf e ≠ dnsTypeAAAA := by
            rw [four]
            decide
          rw [if_pos (show field16 buf (e + 1) = dnsTypeA from four), returns_copy]
          exact ⟨fun h => ⟨fun _ => h, fun six => absurd six other⟩, fun h => h.1 four⟩
        · rw [if_neg (show ¬ field16 buf (e + 1) = dnsTypeA from four)]
          by_cases six : atype buf e = dnsTypeAAAA
          · rw [if_pos (show field16 buf (e + 1) = dnsTypeAAAA from six), returns_copy]
            exact ⟨fun h => ⟨fun h' => absurd h' four, fun _ => h⟩, fun h => h.2 six⟩
          · rw [if_neg (show ¬ field16 buf (e + 1) = dnsTypeAAAA from six)]
            exact ⟨fun _ => ⟨fun h => absurd h four, fun h => absurd h six⟩, fun _ => returns_ok _⟩
  · constructor
    · rintro ⟨_, h⟩
      obtain ⟨r, found, -⟩ := bind_ok h
      exact absurd ((readName_iff small r).mp found).1 inside
    · exact fun h => absurd h.1 inside

theorem tooShort_false {p n : Nat} (h : tooShort buf p n = .ok false) : p + n ≤ buf.length := by
  have decided := (tooShort_ok.mp h).2
  exact Nat.not_lt.mp (of_decide_eq_false decided.symm)

/-- A round that goes on has read a complete record. -/
theorem fits_go {β : Type} {p n : Nat} {x : β} {f : Except Fault β} (small : buf.length ≤ intMax)
    (fits : p + n ≤ buf.length) : (do if ← tooShort buf p n then return x
                                      f) = f := by
  have enough : tooShort buf p n = .ok false :=
    tooShort_ok.mpr ⟨Nat.le_trans fits small, (decide_eq_false (Nat.not_lt.mpr fits)).symm⟩
  rw [enough]
  rfl

/-- The rest of a round, for a record that is complete. -/
def copyAddress (buf : List UInt8) (e : Nat) : Except Fault (Option (Option Ipaddr × Nat)) := do
  if atype buf e = dnsTypeA then
    return some (some ⟨.inet, ← bytesAt buf (e + 11) 4⟩, e + 11 + rdlen buf e)
  else if atype buf e = dnsTypeAAAA then
    return some (some ⟨.inet6, ← bytesAt buf (e + 11) 16⟩, e + 11 + rdlen buf e)
  else return some (none, e + 11 + rdlen buf e)

theorem readAnswer_complete (small : buf.length ≤ intMax) {p e : Nat}
    (found : readName buf p = .ok (some e)) (fits : e + 11 + rdlen buf e ≤ buf.length) :
    readAnswer buf p = copyAddress buf e := by
  unfold readAnswer
  rw [found, ok_bind]
  simp only
  rw [fits_go small (by omega), fits_go small (by omega), uint16At_eq (by omega), ok_bind,
    fits_go small (by omega), fits_go small (by omega), uint16At_eq (by omega), ok_bind]
  exact fits_go small fits

theorem copyAddress_next {e : Nat} {out : Option (Option Ipaddr × Nat)}
    (h : copyAddress buf e = .ok out) : ∃ a, out = some (a, e + 11 + rdlen buf e) := by
  unfold copyAddress at h
  split at h
  · obtain ⟨bytes, -, h⟩ := bind_ok h
    exact ⟨_, (Except.ok.inj h).symm⟩
  · split at h
    · obtain ⟨bytes, -, h⟩ := bind_ok h
      exact ⟨_, (Except.ok.inj h).symm⟩
    · exact ⟨_, (Except.ok.inj h).symm⟩

theorem readAnswer_next (small : buf.length ≤ intMax) {p q : Nat} {a : Option Ipaddr}
    (ran : readAnswer buf p = .ok (some (a, q))) : Next buf p q := by
  have h := ran
  unfold readAnswer at h
  obtain ⟨r, found, h⟩ := bind_ok h
  have ends := ((readName_iff small r).mp found).2
  cases r with
  | none => cases h
  | some e =>
      have cont {n : Nat} {β : Type} {at' : Nat} {f : Except Fault (Option β)} {out : β}
          (h : (do if ← tooShort buf at' n then return none
                   f) = .ok (some out)) : at' + n ≤ buf.length ∧ f = .ok (some out) := by
        obtain ⟨short, fits, h⟩ := bind_ok h
        cases short with
        | true => cases h
        | false => exact ⟨tooShort_false fits, h⟩
      obtain ⟨-, h⟩ := cont h
      obtain ⟨-, h⟩ := cont h
      obtain ⟨type, -, h⟩ := bind_ok h
      obtain ⟨-, h⟩ := cont h
      obtain ⟨fits, h⟩ := cont h
      rw [uint16At_eq (by omega), ok_bind] at h
      obtain ⟨whole, -⟩ := cont h
      obtain ⟨a', same⟩ := copyAddress_next ((readAnswer_complete small found whole).symm.trans ran)
      cases same
      exact ⟨e, (ends e).mp rfl, whole, rfl⟩

/-- A round on a complete record that stays inside goes on behind it. -/
theorem readAnswer_some (small : buf.length ≤ intMax) {p q : Nat} (inside : RecordInside buf p)
    (next : Next buf p q) : ∃ a, readAnswer buf p = .ok (some (a, q)) := by
  obtain ⟨e, ends, fits, rfl⟩ := next
  obtain ⟨r, found⟩ := readName_returns small inside.1
  obtain rfl := (((readName_iff small r).mp found).2 e).mpr ends
  obtain ⟨out, ran⟩ := (readAnswer_returns small p).mpr inside
  have complete := readAnswer_complete small found fits
  obtain ⟨a, rfl⟩ := copyAddress_next (complete.symm.trans ran)
  exact ⟨a, ran⟩

/-- The loop over the answers stays inside if and only if each record that it comes to does. -/
theorem answerLoop_returns (small : buf.length ≤ intMax) (n p : Nat) (retads : List Ipaddr) :
    Returns (answerLoop buf n p retads) ↔ ∀ k < n, ∀ q, After buf k p q → RecordInside buf q := by
  induction n generalizing p retads with
  | zero => exact ⟨fun _ k h => absurd h (Nat.not_lt_zero k), fun _ => returns_ok _⟩
  | succ n ih =>
      have later : (∀ k < n + 1, ∀ q, After buf k p q → RecordInside buf q) ↔
          RecordInside buf p ∧
            ∀ q, Next buf p q → ∀ k < n, ∀ r, After buf k q r → RecordInside buf r := by
        constructor
        · intro h
          refine ⟨h 0 (Nat.succ_pos n) p (.zero p), fun q next k hk r rest => ?_⟩
          exact h (k + 1) (Nat.succ_lt_succ hk) r (.succ next rest)
        · rintro ⟨here, rest⟩ k hk q after
          cases after with
          | zero => exact here
          | succ next after => exact rest _ next _ (Nat.lt_of_succ_lt_succ hk) _ after
      rw [later, answerLoop, returns_bind]
      constructor
      · rintro ⟨out, ran, h⟩
        have inside := (readAnswer_returns small p).mp ⟨out, ran⟩
        refine ⟨inside, fun q next => ?_⟩
        obtain ⟨a, same⟩ := readAnswer_some small inside next
        rw [same] at ran
        cases ran
        exact (ih q _).mp h
      · rintro ⟨inside, rest⟩
        obtain ⟨out, ran⟩ := (readAnswer_returns small p).mpr inside
        refine ⟨out, ran, ?_⟩
        cases out with
        | none => exact returns_ok none
        | some out => exact (ih out.2 _).mpr (rest out.2 (readAnswer_next small ran))

end Answers

end Colinlib.Source.DnsRecords
