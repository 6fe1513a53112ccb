import Mathlib.Data.Nat.Bitwise
import Mathlib.Tactic.IntervalCases
import Colinlib.Theory.CMemory
import Colinlib.Theory.Utf8

/-!
# The UTF-8 functions: `co_utf8.c`

A string is the list of the bytes that may be read from its pointer on, the zero byte
at its end included. A pointer that has moved on is the rest of the list.
-/
namespace Colinlib.Source.Utf8
open Colinlib.Theory.CMemory Colinlib.Theory.Utf8

def maxUnicode : Nat := 0x10FFFF

def limits : List Nat := [0xFF, 0x7F, 0x7FF, 0xFFFF]

/-- The loop over the bytes after the first; nothing when the function returns `NULL`. -/
def decodeLoop (ch res count : Nat) (s : List UInt8) :
    Except Fault (Option (Nat × Nat × Nat)) :=
  if ch &&& 0x40 = 0 then .ok (some (ch, res, count))
  else
    match s with
    | [] => .error .outOfBounds
    | cc :: s =>
      if cc.toNat &&& 0xc0 ≠ 0x80 then .ok none
      else decodeLoop ((ch <<< 1) % 2 ^ 32) ((res <<< 6) % 2 ^ 32 ||| (cc.toNat &&& 0x3f)) (count + 1) s

/-- The code point and how far the pointer moves, or nothing for `NULL`. After seven
more bytes the shift is by 35, of a value that is zero by then. -/
def coutf8Decode : List UInt8 → Except Fault (Option (Nat × Nat))
  | [] => .error .outOfBounds
  | b :: s => do
    let ch := b.toNat
    if ch < 0x80 then return some (ch, 1)
    match ← decodeLoop ch 0 0 s with
    | none => return none
    | some (ch, res, count) =>
      let res := res ||| ((ch &&& 0x7f) <<< (count * 5)) % 2 ^ 32
      -- the table has an entry for every count the first test lets through
      if count > 3 ∨ res > maxUnicode ∨ res ≤ limits.getD count 0 then return none
      return some (res, count + 1)

/-- `*p` -/
def charAt : List UInt8 → Except Fault UInt8
  | [] => .error .outOfBounds
  | b :: _ => .ok b

/-- The loop; every round moves the pointer, so as many rounds as there are bytes do. -/
def lenLoop : Nat → List UInt8 → Nat → Except Fault Nat
  | 0, _, _ => .error .starved
  | fuel + 1, p, count => do
    if (← charAt p) = 0 then return count
    match ← coutf8Decode p with
    | none => return count
    | some (_, n) => lenLoop fuel (p.drop n) (← int32 (count + 1))

def coutf8Len (s : List UInt8) : Except Fault Nat := lenLoop s.length s 0

/-! ## The bits of a byte -/

theorem and_c0 (b : UInt8) : b.toNat &&& 0xc0 = 0x80 ↔ IsTail b := by
  have table : ∀ i : Fin 256, i.val &&& 0xc0 = 0x80 ↔ 0x80 ≤ i.val ∧ i.val < 0xc0 := by
    decide +kernel
  exact table ⟨b.toNat, b.toNat_lt⟩

theorem and_40 (ch : Nat) : ch &&& 0x40 = 0 ↔ ch / 64 % 2 = 0 := by
  rw [show 0x40 = 2 ^ 6 from rfl, Nat.and_two_pow, Nat.testBit_eq_decide_div_mod_eq]
  simp

section Loop
variable {ch res count : Nat} {s : List UInt8}

theorem decodeLoop_done (clear : ch / 64 % 2 = 0) :
    decodeLoop ch res count s = .ok (some (ch, res, count)) := by
  unfold decodeLoop
  rw [if_pos ((and_40 ch).mpr clear)]

theorem decodeLoop_nil (set : ch / 64 % 2 = 1) :
    decodeLoop ch res count [] = .error .outOfBounds := by
  unfold decodeLoop
  rw [if_neg (by rw [and_40]; omega)]

theorem decodeLoop_cons (set : ch / 64 % 2 = 1) (low : ch < 2 ^ 31) (fits : res < 2 ^ 26)
    (b : UInt8) : decodeLoop ch res count (b :: s) =
      if IsTail b then decodeLoop (2 * ch) (res * 64 + b.toNat % 64) (count + 1) s else .ok none := by
  rw [decodeLoop.eq_def, if_neg (by rw [and_40]; omega)]
  by_cases tail : IsTail b
  · have payload : b.toNat &&& 0x3f = b.toNat % 64 := Nat.and_two_pow_sub_one_eq_mod _ 6
    have merged : (res * 2 ^ 6) ||| b.toNat % 64 = res * 64 + b.toNat % 64 := by
      rw [← Nat.shiftLeft_eq, ← Nat.shiftLeft_add_eq_or_of_lt (by omega), Nat.shiftLeft_eq]
    simp only [(and_c0 b).mpr tail, ne_eq, not_true_eq_false, if_false, if_pos tail, payload,
      Nat.shiftLeft_eq]
    rw [Nat.mod_eq_of_lt (by omega), Nat.mod_eq_of_lt (by omega), merged, Nat.mul_comm ch]
  · simp only [ne_eq, and_c0, tail, not_false_eq_true, if_true, if_false]

/-- The six bits of each tail byte, after the bits at hand. -/
def joined (res : Nat) (tails : List UInt8) : Nat :=
  tails.foldl (fun v b => v * 64 + b.toNat % 64) res

theorem joined_lt {res k : Nat} (tails : List UInt8) (h : res < 2 ^ k) :
    joined res tails < 2 ^ (k + 6 * tails.length) := by
  induction tails generalizing res k with
  | nil => exact h
  | cons b tails ih =>
      have grown : res * 64 + b.toNat % 64 < 2 ^ (k + 6) := by
        rw [Nat.pow_add]
        omega
      refine Nat.lt_of_lt_of_eq (ih grown) ?_
      rw [List.length_cons]
      congr 1
      omega

theorem joined_zero_lt (tails : List UInt8) : joined 0 tails < 2 ^ (6 * tails.length) := by
  have bound := joined_lt tails (show 0 < 2 ^ 0 by decide)
  rwa [Nat.zero_add] at bound

/-- The first `k` bits below the top bit are set. -/
def SetBits (ch k : Nat) : Prop := ∀ i < k, ch * 2 ^ i / 64 % 2 = 1

theorem SetBits.next {ch k : Nat} (h : SetBits ch (k + 1)) :
    ch / 64 % 2 = 1 ∧ SetBits (2 * ch) k := by
  refine ⟨by simpa using h 0 (by omega), fun i hi => ?_⟩
  have later := h (i + 1) (by omega)
  rwa [Nat.pow_succ, Nat.mul_comm (2 ^ i), ← Nat.mul_assoc, Nat.mul_comm ch] at later

/-- Over that many bytes the loop comes to its end if and only if they are tail bytes. -/
theorem decodeLoop_tails {out : Nat × Nat × Nat} (k : Nat) (set : SetBits ch k)
    (low : 2 ^ k * ch < 2 ^ 31) (fits : (res + 1) * 2 ^ (6 * k) ≤ 2 ^ 26) :
    decodeLoop ch res count s = .ok (some out) ↔
      ∃ tails rest, s = tails ++ rest ∧ tails.length = k ∧ (∀ d ∈ tails, IsTail d) ∧
        decodeLoop (2 ^ k * ch) (joined res tails) (count + k) rest = .ok (some out) := by
  induction k generalizing ch res count s with
  | zero =>
      rw [Nat.pow_zero, Nat.one_mul]
      constructor
      · exact fun h => ⟨[], s, rfl, rfl, fun d hd => absurd hd List.not_mem_nil, h⟩
      · rintro ⟨tails, rest, rfl, none, -, h⟩
        cases List.length_eq_zero_iff.mp none
        exact h
  | succ k ih =>
      obtain ⟨bit, later⟩ := set.next
      have double : 2 ^ k * (2 * ch) = 2 ^ (k + 1) * ch := by rw [Nat.pow_succ, Nat.mul_assoc]
      have small : ch < 2 ^ 31 := Nat.lt_of_le_of_lt (Nat.le_mul_of_pos_left _ (by positivity)) low
      have room (d : Nat) (hd : d < 64) : (res * 64 + d + 1) * 2 ^ (6 * k) ≤ 2 ^ 26 := by
        refine Nat.le_trans (Nat.mul_le_mul_right _ (show res * 64 + d + 1 ≤ (res + 1) * 2 ^ 6 by omega)) ?_
        rwa [Nat.mul_assoc, ← Nat.pow_add, Nat.add_comm 6, ← Nat.mul_succ]
      have fits' : res < 2 ^ 26 :=
        Nat.lt_of_lt_of_le (Nat.lt_succ_self res)
          (Nat.le_trans (Nat.le_mul_of_pos_right _ (by positivity)) fits)
      cases s with
      | nil =>
          rw [decodeLoop_nil bit]
          refine ⟨fun h => (nomatch h), ?_⟩
          rintro ⟨tails, rest, split, length, -⟩
          rw [List.append_eq_nil_iff.mp split.symm |>.1] at length
          cases length
      | cons b s =>
          have step := @ih (2 * ch) (res * 64 + b.toNat % 64) (count + 1) s later (by rwa [double])
            (room _ (Nat.mod_lt b.toNat (by decide)))
          rw [double] at step
          rw [decodeLoop_cons bit small fits']
          by_cases tail : IsTail b
          · rw [if_pos tail, step]
            constructor
            · rintro ⟨tails, rest, split, length, all, h⟩
              refine ⟨b :: tails, rest, congrArg (b :: ·) split, congrArg Nat.succ length, ?_, ?_⟩
              · exact List.forall_mem_cons.mpr ⟨tail, all⟩
              · rwa [← Nat.add_assoc, Nat.add_right_comm]
            · rintro ⟨tails, rest, split, length, all, h⟩
              cases tails with
              | nil => cases length
              | cons d tails =>
                  rw [List.cons_append, List.cons.injEq] at split
                  obtain ⟨rfl, split⟩ := split
                  refine ⟨tails, rest, split, Nat.succ.inj length, ?_, ?_⟩
                  · exact (List.forall_mem_cons.mp all).2
                  · rwa [← Nat.add_assoc, Nat.add_right_comm] at h
          · rw [if_neg tail]
            refine ⟨fun h => (nomatch h), ?_⟩
            rintro ⟨tails, rest, split, length, all, -⟩
            cases tails with
            | nil => cases length
            | cons d tails =>
                rw [List.cons_append, List.cons.injEq] at split
                exact absurd (all d List.mem_cons_self) (split.1 ▸ tail)

theorem decodeLoop_count {out : Nat × Nat × Nat} (h : decodeLoop ch res count s = .ok (some out)) :
    count ≤ out.2.2 := by
  induction s generalizing ch res count with
  | nil =>
      unfold decodeLoop at h
      split at h
      · cases h
        exact Nat.le_refl _
      · cases h
  | cons b s ih =>
      rw [decodeLoop.eq_def] at h
      split at h
      · cases h
        exact Nat.le_refl _
      · simp only at h
        split at h
        · cases h
        · exact Nat.le_of_succ_le (ih h)

/-- A string with a zero byte ends the loop, which no zero byte continues. -/
theorem decodeLoop_total (ends : 0 ∈ s) : ∃ r, decodeLoop ch res count s = .ok r := by
  induction s generalizing ch res count with
  | nil => cases ends
  | cons b s ih =>
      rw [decodeLoop.eq_def]
      split
      · exact ⟨_, rfl⟩
      · simp only
        split
        · exact ⟨none, rfl⟩
        · next tail =>
            refine ih ((List.mem_cons.mp ends).resolve_left ?_)
            rintro rfl
            exact tail (by decide)

end Loop

/-- The bits of the first byte and those of the `count` bytes after it do not overlap. -/
theorem merge {count res : Nat} (b : Nat) (few : count ≤ 3) (fits : res < 2 ^ (6 * count)) :
    res ||| (((2 ^ count * b) &&& 0x7f) <<< (count * 5)) % 2 ^ 32 =
      2 ^ (6 * count) * (b % 2 ^ (7 - count)) + res := by
  have payload : (2 ^ count * b) &&& 0x7f = (2 ^ count * b) % 128 :=
    Nat.and_two_pow_sub_one_eq_mod _ 7
  rw [Nat.two_pow_add_eq_or_of_lt fits, payload, Nat.shiftLeft_eq, Nat.lor_comm]
  congr 1
  interval_cases count <;> omega

/-! ## One code point -/

/-- What the last test of the function keeps. -/
def accepted (count v : Nat) : Option (Nat × Nat) :=
  if v > maxUnicode ∨ v ≤ limits.getD count 0 then none else some (v, count + 1)

section Decode
variable {b b₁ b₂ b₃ : UInt8} {s : List UInt8}

theorem decode_of_loop {count res : Nat} (first : ¬ b.toNat < 0x80) (few : count ≤ 3)
    (fits : res < 2 ^ (6 * count))
    (loop : decodeLoop b.toNat 0 0 s = .ok (some (2 ^ count * b.toNat, res, count))) :
    coutf8Decode (b :: s) =
      .ok (accepted count (2 ^ (6 * count) * (b.toNat % 2 ^ (7 - count)) + res)) := by
  unfold coutf8Decode accepted
  simp only [if_neg first, loop, ok_bind, merge b.toNat few fits, Nat.not_lt.mpr few, gt_iff_lt,
    false_or]
  split_ifs <;> rfl

theorem decode_ascii (h : b.toNat < 0x80) : coutf8Decode (b :: s) = .ok (some (b.toNat, 1)) := by
  unfold coutf8Decode
  simp only [if_pos h]
  rfl

/-- A first byte with `k` bits set after its top bit and none below. -/
structure Leads (k : Nat) (b : UInt8) : Prop where
  high : 0x80 ≤ b.toNat
  set : SetBits b.toNat k
  clear : 2 ^ k * b.toNat / 64 % 2 = 0

/-- The function returns a code if and only if the bytes that the first one announces
are tail bytes and the last test accepts the value. -/
theorem decode_leads {k : Nat} (few : k ≤ 3) (lead : Leads k b) {out : Nat × Nat} :
    coutf8Decode (b :: s) = .ok (some out) ↔
      ∃ tails rest, s = tails ++ rest ∧ tails.length = k ∧ (∀ d ∈ tails, IsTail d) ∧
        accepted k (2 ^ (6 * k) * (b.toNat % 2 ^ (7 - k)) + joined 0 tails) = some out := by
  have first : ¬ b.toNat < 0x80 := Nat.not_lt.mpr lead.high
  have byte := b.toNat_lt
  have low : 2 ^ k * b.toNat < 2 ^ 31 := by interval_cases k <;> omega
  have fits : (0 + 1) * 2 ^ (6 * k) ≤ 2 ^ 26 := by interval_cases k <;> decide
  constructor
  · intro h
    cases loop : decodeLoop b.toNat 0 0 s with
    | error f =>
        unfold coutf8Decode at h
        simp only [if_neg first, loop] at h
        cases h
    | ok r =>
        cases r with
        | none =>
            unfold coutf8Decode at h
            simp only [if_neg first, loop] at h
            cases h
        | some state =>
            obtain ⟨tails, rest, split, length, all, done⟩ :=
              (decodeLoop_tails k lead.set low fits).mp loop
            rw [decodeLoop_done lead.clear, Nat.zero_add] at done
            rw [← Option.some.inj (Except.ok.inj done)] at loop
            rw [decode_of_loop first few (length ▸ joined_zero_lt tails) loop] at h
            exact ⟨tails, rest, split, length, all, Except.ok.inj h⟩
  · rintro ⟨tails, rest, split, length, all, h⟩
    have loop : decodeLoop b.toNat 0 0 s = .ok (some (2 ^ k * b.toNat, joined 0 tails, k)) := by
      refine (decodeLoop_tails k lead.set low fits).mpr ⟨tails, rest, split, length, all, ?_⟩
      rw [decodeLoop_done lead.clear, Nat.zero_add]
    rw [decode_of_loop first few (length ▸ joined_zero_lt tails) loop, h]

/-- A first byte that announces four bytes or more is never accepted. -/
theorem decode_long (high : 0x80 ≤ b.toNat) (set : SetBits b.toNat 4) {out : Nat × Nat} :
    coutf8Decode (b :: s) ≠ .ok (some out) := by
  intro h
  have byte := b.toNat_lt
  unfold coutf8Decode at h
  simp only [if_neg (Nat.not_lt.mpr high)] at h
  obtain ⟨r, loop, h⟩ := bind_ok h
  cases r with
  | none => cases h
  | some state =>
      obtain ⟨ch, res, count⟩ := state
      obtain ⟨tails, rest, -, -, -, after⟩ :=
        (decodeLoop_tails 4 set (by omega) (by decide)).mp loop
      have many : 0 + 4 ≤ count := decodeLoop_count after
      simp only [show count > 3 by omega, true_or, if_true] at h
      cases h

theorem accepted_eq_some {k v c n : Nat} : accepted k v = some (c, n) ↔
    v ≤ maxUnicode ∧ limits.getD k 0 < v ∧ c = v ∧ n = k + 1 := by
  unfold accepted
  split
  · next h =>
      refine ⟨fun h => (nomatch h), ?_⟩
      rintro ⟨below, above, -⟩
      omega
  · next h =>
      rw [Option.some.injEq, Prod.mk.injEq]
      omega

theorem setBits_of_le {k : Nat} (few : k ≤ 4) (least : 256 ≤ b.toNat + 2 ^ (7 - k)) :
    SetBits b.toNat k := by
  have byte := b.toNat_lt
  intro i hi
  interval_cases k <;> interval_cases i <;> omega

theorem Leads.of_range {k : Nat} (few : k ≤ 3) (least : 256 ≤ b.toNat + 2 ^ (7 - k))
    (most : b.toNat + 2 ^ (6 - k) < 256) : Leads k b := by
  refine ⟨?_, setBits_of_le (Nat.le_succ_of_le few) least, ?_⟩ <;> interval_cases k <;> omega

theorem leads_cases (high : 0x80 ≤ b.toNat) :
    (∃ k ≤ 3, Leads k b) ∨ SetBits b.toNat 4 := by
  have byte := b.toNat_lt
  by_cases four : 0xf8 ≤ b.toNat
  · exact .inr (setBits_of_le (by decide) (by omega))
  · refine .inl ?_
    by_cases three : 0xf0 ≤ b.toNat
    · exact ⟨3, by decide, .of_range (by decide) (by omega) (by omega)⟩
    by_cases two : 0xe0 ≤ b.toNat
    · exact ⟨2, by decide, .of_range (by decide) (by omega) (by omega)⟩
    by_cases one : 0xc0 ≤ b.toNat
    · exact ⟨1, by decide, .of_range (by decide) (by omega) (by omega)⟩
    · exact ⟨0, by decide, .of_range (by decide) (by omega) (by omega)⟩

/-- The values of a first byte that announces `k` more. -/
theorem Leads.range {k : Nat} (few : k ≤ 3) (lead : Leads k b) :
    256 ≤ b.toNat + 2 ^ (7 - k) ∧ b.toNat + 2 ^ (6 - k) < 256 := by
  obtain ⟨high, set, clear⟩ := lead
  have byte := b.toNat_lt
  have bit (i : Nat) (hi : i < k) := set i hi
  interval_cases k
  · omega
  · have b0 := bit 0 (by decide)
    omega
  · have b0 := bit 0 (by decide)
    have b1 := bit 1 (by decide)
    omega
  · have b0 := bit 0 (by decide)
    have b1 := bit 1 (by decide)
    have b2 := bit 2 (by decide)
    omega

/-- The last test accepts the forms of the encoding, each with its own value. -/
theorem accepted_iff {k : Nat} (few : k ≤ 3) (lead : Leads k b) {tails : List UInt8}
    (length : tails.length = k) (all : ∀ d ∈ tails, IsTail d) {c n : Nat} :
    accepted k (2 ^ (6 * k) * (b.toNat % 2 ^ (7 - k)) + joined 0 tails) = some (c, n) ↔
      c ≤ maxValue ∧ encode c = b :: tails ∧ n = k + 1 := by
  obtain ⟨least, most⟩ := lead.range few
  rw [accepted_eq_some]
  unfold maxUnicode
  have tail (d : UInt8) (mem : d ∈ tails) : d.toNat = d.toNat % 64 + 0x80 := by
    obtain ⟨low, high⟩ := all d mem
    omega
  have last (d : UInt8) : d.toNat % 64 < 64 := Nat.mod_lt _ (by decide)
  match k, tails, few, length with
  | 0, [], _, _ =>
      rw [show limits.getD 0 0 = 0xFF from rfl, encode_eq_one]
      simp only [joined, List.foldl_nil] at *
      omega
  | 1, [d], _, _ =>
      have hd := tail d (by simp)
      rw [show limits.getD 1 0 = 0x7F from rfl, encode_eq_two, maxValue]
      simp only [joined, List.foldl_cons, List.foldl_nil] at *
      omega
  | 2, [d, e], _, _ =>
      have hd := tail d (by simp)
      have he := tail e (by simp)
      rw [show limits.getD 2 0 = 0x7FF from rfl, encode_eq_three, maxValue]
      simp only [joined, List.foldl_cons, List.foldl_nil] at *
      omega
  | 3, [d, e, f], _, _ =>
      have hd := tail d (by simp)
      have he := tail e (by simp)
      have hf := tail f (by simp)
      have four (bound : c ≤ maxValue) := encode_eq_four (b := b) (d := d) (e := e) (f := f) bound
      rw [show limits.getD 3 0 = 0xFFFF from rfl,
        and_congr_right fun bound => and_congr_left' (four bound), maxValue]
      simp only [joined, List.foldl_cons, List.foldl_nil] at *
      omega

/-- The first byte of a form announces the bytes that follow it. -/
theorem encode_leads {c : Nat} {tails : List UInt8} (bound : c ≤ maxValue) (high : 0x80 ≤ b.toNat)
    (form : encode c = b :: tails) : tails.length ≤ 3 ∧ Leads tails.length b := by
  match tails with
  | [] =>
      rw [encode_eq_one] at form
      omega
  | [d] =>
      rw [encode_eq_two] at form
      exact ⟨by simp, .of_range (by simp) (by simp; omega) (by simp; omega)⟩
  | [d, e] =>
      rw [encode_eq_three] at form
      exact ⟨by simp, .of_range (by simp) (by simp; omega) (by simp; omega)⟩
  | [d, e, f] =>
      rw [encode_eq_four bound] at form
      unfold maxValue at bound
      exact ⟨by simp, .of_range (by simp) (by simp; omega) (by simp; omega)⟩
  | d :: e :: f :: g :: rest =>
      have length := congrArg List.length form
      unfold encode at length
      split_ifs at length <;> simp at length

end Decode

/-! ## The function and the encoding -/

theorem decode_total {s : List UInt8} (ends : 0 ∈ s) : ∃ r, coutf8Decode s = .ok r := by
  cases s with
  | nil => cases ends
  | cons b s =>
      unfold coutf8Decode
      simp only
      split
      · exact ⟨_, rfl⟩
      · next first =>
          have later : 0 ∈ s :=
            (List.mem_cons.mp ends).resolve_left (by rintro rfl; exact first (by decide))
          obtain ⟨r, loop⟩ : ∃ r, decodeLoop b.toNat 0 0 s = .ok r := decodeLoop_total later
          rw [loop, ok_bind]
          cases r with
          | none => exact ⟨none, rfl⟩
          | some state =>
              simp only
              split <;> exact ⟨_, rfl⟩

/-- The function returns a code point if and only if the string starts with its form,
and moves the pointer over that form. -/
theorem decode_iff {s : List UInt8} {c n : Nat} : coutf8Decode s = .ok (some (c, n)) ↔
    c ≤ maxValue ∧ encode c <+: s ∧ n = (encode c).length := by
  cases s with
  | nil =>
      refine ⟨fun h => (nomatch h), fun h => ?_⟩
      exact absurd (List.prefix_nil.mp h.2.1) (encode_ne_nil c)
  | cons b s =>
      by_cases ascii : b.toNat < 0x80
      · have form : encode b.toNat = [b] := encode_eq_one.mpr ⟨by omega, rfl⟩
        have shown : encode b.toNat <+: b :: s := by
          rw [form]
          exact List.prefix_append [b] s
        have low : b.toNat ≤ maxValue := Nat.le_trans (Nat.le_of_lt ascii) (by decide)
        rw [decode_ascii ascii, Except.ok.injEq, Option.some.injEq, Prod.mk.injEq]
        constructor
        · rintro ⟨rfl, rfl⟩
          exact ⟨low, shown, by rw [form]; rfl⟩
        · rintro ⟨bound, start, length⟩
          obtain rfl := encode_unique low bound shown start
          exact ⟨rfl, by rw [length, form]; rfl⟩
      · have high : 0x80 ≤ b.toNat := Nat.not_lt.mp ascii
        constructor
        · intro h
          rcases leads_cases high with ⟨k, few, lead⟩ | four
          · obtain ⟨tails, rest, split, length, all, value⟩ := (decode_leads few lead).mp h
            obtain ⟨bound, form, moved⟩ := (accepted_iff few lead length all).mp value
            refine ⟨bound, ?_, by rw [moved, form, List.length_cons, length]⟩
            rw [form, split]
            exact List.prefix_append (b :: tails) rest
          · exact absurd h (decode_long high four)
        · rintro ⟨bound, ⟨rest, start⟩, moved⟩
          obtain ⟨first, tails, form, -, all⟩ := encode_form c
          rw [form, List.cons_append, List.cons.injEq] at start
          obtain ⟨rfl, split⟩ := start
          obtain ⟨few, lead⟩ := encode_leads bound high form
          refine (decode_leads few lead).mpr ⟨tails, rest, split.symm, rfl, all, ?_⟩
          exact (accepted_iff few lead rfl all).mpr ⟨bound, form, by rw [moved, form]; rfl⟩

/-! ## Strings as sequences of codes -/

/-- Codes a loop over a string can meet: the zero byte ends the string. -/
def Codes (cs : List Nat) : Prop := ∀ c ∈ cs, c ≠ 0 ∧ c ≤ maxValue

theorem Codes.within {cs : List Nat} (h : Codes cs) : Within cs := fun c hc => (h c hc).2

theorem Codes.tail {c : Nat} {cs : List Nat} (h : Codes (c :: cs)) : Codes cs :=
  fun d hd => h d (List.mem_cons_of_mem c hd)

/-- A place where every loop stops: the end of the string or bytes that do not decode. -/
def Stuck (rest : List UInt8) : Prop :=
  charAt rest = .ok 0 ∨ (∃ b, charAt rest = .ok b) ∧ coutf8Decode rest = .ok none

/-- Which of the two it is: whether the string ends here. -/
def Stops : Bool → List UInt8 → Prop
  | true, rest => charAt rest = .ok 0
  | false, rest => (∃ b, charAt rest = .ok b ∧ b ≠ 0) ∧ coutf8Decode rest = .ok none

theorem Stuck.stops {rest : List UInt8} (stop : Stuck rest) : ∃ ends, Stops ends rest := by
  rcases stop with zero | ⟨⟨b, byte⟩, malformed⟩
  · exact ⟨true, zero⟩
  · by_cases zero : b = 0
    · exact ⟨true, by rw [Stops, byte, zero]⟩
    · exact ⟨false, ⟨b, byte, zero⟩, malformed⟩

theorem Stops.stuck {ends : Bool} {rest : List UInt8} (stop : Stops ends rest) : Stuck rest := by
  cases ends with
  | true => exact .inl stop
  | false =>
      obtain ⟨⟨b, byte, -⟩, malformed⟩ := stop
      exact .inr ⟨⟨b, byte⟩, malformed⟩

theorem codes_nil : Codes [] := fun _ mem => absurd mem List.not_mem_nil

theorem charAt_end : charAt [0] = .ok 0 := rfl

theorem stuck_end : Stuck [0] := .inl charAt_end

theorem stops_end : Stops true [0] := charAt_end

section Codes
variable {c : Nat} {s : List UInt8}

theorem charAt_encode (code : c ≠ 0 ∧ c ≤ maxValue) :
    ∃ b, charAt (encode c ++ s) = .ok b ∧ b ≠ 0 := by
  obtain ⟨b, tails, form, -⟩ := encode_form c
  rw [form]
  refine ⟨b, rfl, fun zero => code.1 (zero_mem_encode code.2 ?_)⟩
  rw [form, zero]
  exact List.mem_cons_self

theorem decode_encode (code : c ≠ 0 ∧ c ≤ maxValue) :
    coutf8Decode (encode c ++ s) = .ok (some (c, (encode c).length)) :=
  decode_iff.mpr ⟨code.2, List.prefix_append _ _, rfl⟩

/-- Every string is the forms of some codes and then a place where the loops stop. -/
theorem string_codes {s : List UInt8} (ends : 0 ∈ s) :
    ∃ cs rest, s = encodeAll cs ++ rest ∧ Codes cs ∧ Stuck rest ∧ 0 ∈ rest := by
  generalize size : s.length = n
  induction n using Nat.strongRecOn generalizing s with
  | ind n ih =>
      cases s with
      | nil => cases ends
      | cons b s =>
          have stuck (h : Stuck (b :: s)) :
              ∃ cs rest, b :: s = encodeAll cs ++ rest ∧ Codes cs ∧ Stuck rest ∧ 0 ∈ rest :=
            ⟨[], b :: s, rfl, codes_nil, h, ends⟩
          by_cases zero : b = 0
          · exact stuck (.inl (by rw [zero]; rfl))
          obtain ⟨r, decoded⟩ := decode_total ends
          match r with
          | none => exact stuck (.inr ⟨⟨b, rfl⟩, decoded⟩)
          | some (c, moved) =>
              obtain ⟨bound, ⟨later, start⟩, -⟩ := decode_iff.mp decoded
              have nonzero : c ≠ 0 := by
                rintro rfl
                have first : (0 : UInt8) :: later = b :: s := start
                exact zero (List.cons.inj first).1.symm
              have inside : 0 ∈ later := by
                rw [← start] at ends
                refine (List.mem_append.mp ends).resolve_left fun mem => ?_
                exact nonzero (zero_mem_encode bound mem)
              have smaller : later.length < n := by
                rw [← size, ← start, List.length_append]
                have := encode_length_pos c
                omega
              obtain ⟨cs, rest, split, codes, stop, last⟩ := ih later.length smaller inside rfl
              refine ⟨c :: cs, rest, ?_, List.forall_mem_cons.mpr ⟨⟨nonzero, bound⟩, codes⟩, stop, last⟩
              rw [encodeAll_cons, List.append_assoc, ← split, start]

/-- The length counts the codes up to the end or to the first malformed byte. -/
theorem lenLoop_codes {cs : List Nat} (codes : Codes cs) {rest : List UInt8} (stop : Stuck rest)
    (fuel count : Nat) (enough : cs.length < fuel) (small : count + cs.length ≤ intMax) :
    lenLoop fuel (encodeAll cs ++ rest) count = .ok (count + cs.length) := by
  induction cs generalizing fuel count with
  | nil =>
      obtain ⟨fuel, rfl⟩ := Nat.exists_eq_succ_of_ne_zero (Nat.ne_of_gt enough)
      rw [encodeAll_nil, List.nil_append, lenLoop]
      rcases stop with zero | ⟨⟨b, byte⟩, malformed⟩
      · rw [zero, ok_bind]
        rfl
      · rw [byte, ok_bind, malformed, ok_bind]
        split <;> rfl
  | cons c cs ih =>
      obtain ⟨fuel, rfl⟩ := Nat.exists_eq_succ_of_ne_zero (Nat.ne_of_gt (Nat.zero_lt_of_lt enough))
      obtain ⟨b, byte, nonzero⟩ := charAt_encode (s := encodeAll cs ++ rest) (codes c List.mem_cons_self)
      have decoded := decode_encode (s := encodeAll cs ++ rest) (codes c List.mem_cons_self)
      rw [List.length_cons] at enough small
      rw [encodeAll_cons, List.append_assoc, lenLoop, byte, ok_bind, if_neg nonzero, decoded, ok_bind]
      simp only [int32, if_pos (show count + 1 ≤ intMax by omega), ok_bind, List.drop_left]
      rw [ih codes.tail fuel (count + 1) (by omega) (by omega), List.length_cons]
      congr 1
      omega

theorem Codes.zero_not_mem {cs : List Nat} (codes : Codes cs) : 0 ∉ encodeAll cs := by
  intro mem
  obtain ⟨c, inside, zero⟩ := List.mem_flatMap.mp mem
  exact (codes c inside).1 (zero_mem_encode (codes c inside).2 zero)

theorem stuck_length {rest : List UInt8} (stop : Stuck rest) : 0 < rest.length := by
  cases rest with
  | nil => rcases stop with h | ⟨⟨b, h⟩, -⟩ <;> cases h
  | cons b rest => exact Nat.succ_pos _

/-- One round for each code is more than the string has bytes for. -/
theorem codes_lt_length (cs : List Nat) {rest : List UInt8} (stop : Stuck rest) :
    cs.length < (encodeAll cs ++ rest).length := by
  rw [List.length_append]
  have last := stuck_length stop
  have forms : cs.length ≤ (encodeAll cs).length := by
    induction cs with
    | nil => exact Nat.le_refl 0
    | cons c cs ih =>
        rw [encodeAll_cons, List.length_append, List.length_cons]
        have := encode_length_pos c
        omega
  omega

theorem coutf8Len_codes {cs : List Nat} (codes : Codes cs) {rest : List UInt8} (stop : Stuck rest)
    (small : cs.length ≤ intMax) : coutf8Len (encodeAll cs ++ rest) = .ok cs.length := by
  rw [coutf8Len, lenLoop_codes codes stop _ 0 (codes_lt_length cs stop) (by omega), Nat.zero_add]

end Codes

end Colinlib.Source.Utf8
