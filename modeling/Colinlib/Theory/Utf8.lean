import Mathlib.Data.List.Infix

/-!
# UTF-8

`encode` is the byte form of a value up to `0x10FFFF`; on the scalar values it is the
form of RFC 3629. The first byte of a form is not a tail byte and the others are, so no
form starts inside another one: the bytes of a sequence of values occur among those of
another sequence only where its values do.
-/
namespace Colinlib.Theory.Utf8

def maxValue : Nat := 0x10FFFF

def encode (v : Nat) : List UInt8 :=
  if v ≤ 0x7f then [.ofNat v]
  else if v ≤ 0x7ff then [.ofNat (v / 64 % 0x20 + 0xc0), .ofNat (v % 0x40 + 0x80)]
  else if v ≤ 0xffff then
    [.ofNat (v / 4096 % 0x10 + 0xe0), .ofNat (v / 64 % 0x40 + 0x80), .ofNat (v % 0x40 + 0x80)]
  else
    [.ofNat (v / 262144 % 0x08 + 0xf0), .ofNat (v / 4096 % 0x40 + 0x80),
      .ofNat (v / 64 % 0x40 + 0x80), .ofNat (v % 0x40 + 0x80)]

def IsTail (b : UInt8) : Prop := 0x80 ≤ b.toNat ∧ b.toNat < 0xc0

instance (b : UInt8) : Decidable (IsTail b) := inferInstanceAs (Decidable (_ ∧ _))

theorem encode_form (v : Nat) :
    ∃ b rest, encode v = b :: rest ∧ ¬ IsTail b ∧ ∀ d ∈ rest, IsTail d := by
  unfold encode IsTail
  split_ifs
  all_goals
    refine ⟨_, _, rfl, ?_, ?_⟩
    · rw [UInt8.toNat_ofNat']
      omega
    · simp only [List.forall_mem_cons, UInt8.toNat_ofNat', List.not_mem_nil, false_implies,
        implies_true, and_true]
      try omega

theorem encode_ne_nil (v : Nat) : encode v ≠ [] := by
  obtain ⟨b, rest, form, -⟩ := encode_form v
  rw [form]
  exact List.cons_ne_nil b rest

theorem encode_length_pos (v : Nat) : 0 < (encode v).length :=
  List.length_pos_iff.mpr (encode_ne_nil v)

theorem ofNat_eq_iff {m n : Nat} : UInt8.ofNat m = UInt8.ofNat n ↔ m % 256 = n % 256 := by
  rw [← UInt8.toNat_inj, UInt8.toNat_ofNat', UInt8.toNat_ofNat']

/-! ## The forms by length -/

theorem ofNat_eq_byte {m : Nat} {b : UInt8} (h : m < 256) : UInt8.ofNat m = b ↔ m = b.toNat := by
  rw [← UInt8.toNat_inj, UInt8.toNat_ofNat', Nat.mod_eq_of_lt h]

theorem encode_eq_one {v : Nat} {b : UInt8} : encode v = [b] ↔ v ≤ 0x7f ∧ v = b.toNat := by
  unfold encode
  split_ifs with one
  · rw [List.cons.injEq, ofNat_eq_byte (by omega)]
    simp [one]
  all_goals
    simp [one]

theorem encode_eq_two {v : Nat} {b d : UInt8} : encode v = [b, d] ↔
    0x7f < v ∧ v ≤ 0x7ff ∧ v / 64 + 0xc0 = b.toNat ∧ v % 64 + 0x80 = d.toNat := by
  unfold encode
  split_ifs
  · simp; omega
  · simp only [List.cons.injEq, and_true]
    rw [ofNat_eq_byte (by omega), ofNat_eq_byte (by omega)]
    omega
  · simp; omega
  · simp; omega

theorem encode_eq_three {v : Nat} {b d e : UInt8} : encode v = [b, d, e] ↔
    0x7ff < v ∧ v ≤ 0xffff ∧ v / 4096 + 0xe0 = b.toNat ∧ v / 64 % 64 + 0x80 = d.toNat ∧
      v % 64 + 0x80 = e.toNat := by
  unfold encode
  split_ifs
  · simp; omega
  · simp; omega
  · simp only [List.cons.injEq, and_true]
    rw [ofNat_eq_byte (by omega), ofNat_eq_byte (by omega), ofNat_eq_byte (by omega)]
    omega
  · simp; omega

theorem encode_eq_four {v : Nat} {b d e f : UInt8} (bound : v ≤ maxValue) :
    encode v = [b, d, e, f] ↔ 0xffff < v ∧ v / 262144 + 0xf0 = b.toNat ∧
      v / 4096 % 64 + 0x80 = d.toNat ∧ v / 64 % 64 + 0x80 = e.toNat ∧ v % 64 + 0x80 = f.toNat := by
  unfold maxValue at bound
  unfold encode
  split_ifs
  · simp; omega
  · simp; omega
  · simp; omega
  · simp only [List.cons.injEq, and_true]
    rw [ofNat_eq_byte (by omega), ofNat_eq_byte (by omega), ofNat_eq_byte (by omega),
      ofNat_eq_byte (by omega)]
    omega
/-- No form is a proper prefix of another one. -/
theorem encode_prefix_eq {a b : Nat} (ha : a ≤ maxValue) (hb : b ≤ maxValue)
    (h : encode a <+: encode b) : a = b := by
  unfold maxValue at ha hb
  unfold encode at h
  split_ifs at h <;>
    simp only [List.cons_prefix_cons, ofNat_eq_iff, List.nil_prefix, List.prefix_nil, reduceCtorEq,
      and_false, and_true] at h <;> omega

/-- The bytes at hand start with one form at most. -/
theorem encode_unique {a b : Nat} {s : List UInt8} (ha : a ≤ maxValue) (hb : b ≤ maxValue)
    (left : encode a <+: s) (right : encode b <+: s) : a = b :=
  (List.prefix_or_prefix_of_prefix left right).elim (encode_prefix_eq ha hb)
    fun h => (encode_prefix_eq hb ha h).symm

/-- The zero byte is the form of zero and of nothing else. -/
theorem zero_mem_encode {v : Nat} (bound : v ≤ maxValue) (h : 0 ∈ encode v) : v = 0 := by
  unfold maxValue at bound
  unfold encode at h
  have zero : (0 : UInt8) = UInt8.ofNat 0 := rfl
  rw [zero] at h
  split_ifs at h <;>
    simp only [List.mem_cons, ofNat_eq_iff, List.not_mem_nil, or_false] at h <;> omega

theorem encode_ascii {v : Nat} (h : v < 0x80) : encode v = [.ofNat v] := by
  unfold encode
  rw [if_pos (by omega)]

/-! ## Sequences -/

def encodeAll (vs : List Nat) : List UInt8 := vs.flatMap encode

@[simp] theorem encodeAll_nil : encodeAll [] = [] := rfl

@[simp] theorem encodeAll_cons (v : Nat) (vs : List Nat) :
    encodeAll (v :: vs) = encode v ++ encodeAll vs := rfl

@[simp] theorem encodeAll_append (us vs : List Nat) :
    encodeAll (us ++ vs) = encodeAll us ++ encodeAll vs := List.flatMap_append

theorem encodeAll_ne_nil {vs : List Nat} (h : vs ≠ []) : encodeAll vs ≠ [] := by
  cases vs with
  | nil => exact absurd rfl h
  | cons v vs => exact fun none => encode_ne_nil v (List.append_eq_nil_iff.mp none).1

theorem encodeAll_ascii {v : Nat} (h : v < 0x80) (n : Nat) :
    encodeAll (List.replicate n v) = List.replicate n (.ofNat v) := by
  induction n with
  | zero => rfl
  | succ n ih => rw [List.replicate_succ, encodeAll_cons, encode_ascii h, ih]; rfl

def Within (vs : List Nat) : Prop := ∀ v ∈ vs, v ≤ maxValue

theorem Within.tail {v : Nat} {vs : List Nat} (h : Within (v :: vs)) : Within vs :=
  fun u hu => h u (List.mem_cons_of_mem v hu)

theorem encodeAll_prefix_cut {us vs : List Nat} (hu : Within us) (hv : Within vs)
    (h : encodeAll us <+: encodeAll vs) : us <+: vs := by
  induction us generalizing vs with
  | nil => exact List.nil_prefix
  | cons u us ih =>
      cases vs with
      | nil =>
          exact absurd (List.prefix_nil.mp h) (encodeAll_ne_nil (List.cons_ne_nil u us))
      | cons v vs =>
          rw [encodeAll_cons, encodeAll_cons] at h
          have same : u = v := encode_unique (hu u List.mem_cons_self) (hv v List.mem_cons_self)
            ((List.prefix_append _ _).trans h) (List.prefix_append _ _)
          subst same
          rw [List.prefix_append_right_inj] at h
          exact List.cons_prefix_cons.mpr ⟨rfl, ih hu.tail hv.tail h⟩

theorem encodeAll_inj {us vs : List Nat} (hu : Within us) (hv : Within vs)
    (same : encodeAll us = encodeAll vs) : us = vs := by
  have left := encodeAll_prefix_cut hu hv (same ▸ List.prefix_rfl)
  have right := encodeAll_prefix_cut hv hu (same ▸ List.prefix_rfl)
  exact left.eq_of_length_le right.length_le

/-- A byte that is no tail byte begins the form of a value. -/
theorem encodeAll_split {vs : List Nat} {before after : List UInt8} {b : UInt8}
    (h : encodeAll vs = before ++ b :: after) (lead : ¬ IsTail b) :
    ∃ us ws, vs = us ++ ws ∧ encodeAll us = before ∧ encodeAll ws = b :: after := by
  induction vs generalizing before with
  | nil => simp at h
  | cons v vs ih =>
      obtain ⟨first, tails, form, -, inside⟩ := encode_form v
      rw [encodeAll_cons] at h
      rcases List.append_eq_append_iff.mp h with ⟨gap, grown, rest⟩ | ⟨gap, cut, rest⟩
      · obtain ⟨us, ws, split, left, right⟩ := ih rest
        exact ⟨v :: us, ws, by rw [split]; rfl, by rw [encodeAll_cons, left, grown], right⟩
      · cases gap with
        | nil =>
            rw [List.append_nil] at cut
            refine ⟨[v], vs, rfl, ?_, rest.symm⟩
            rw [encodeAll_cons, encodeAll_nil, List.append_nil, cut]
        | cons d gap =>
            rw [List.cons_append, List.cons.injEq] at rest
            obtain ⟨rfl, rest⟩ := rest
            cases before with
            | nil =>
                refine ⟨[], v :: vs, rfl, rfl, ?_⟩
                rw [encodeAll_cons, cut, rest]
                rfl
            | cons e before =>
                rw [form, List.cons_append, List.cons.injEq] at cut
                refine absurd (inside b ?_) lead
                rw [cut.2]
                exact List.mem_append_right before List.mem_cons_self

/-- Bytes of a sequence occur among those of another one only where the values do. -/
theorem encodeAll_infix_iff {us vs : List Nat} (hu : Within us) (hv : Within vs) :
    encodeAll us <:+: encodeAll vs ↔ us <:+: vs := by
  constructor
  · rintro ⟨before, after, h⟩
    cases us with
    | nil => exact List.nil_infix
    | cons u us =>
        obtain ⟨b, tails, form, lead, -⟩ := encode_form u
        have start : encodeAll vs = before ++ b :: (tails ++ encodeAll us ++ after) := by
          rw [← h, encodeAll_cons, form]
          simp
        obtain ⟨left, right, split, -, bytes⟩ := encodeAll_split start lead
        have shown : encodeAll (u :: us) <+: encodeAll right := by
          refine ⟨after, ?_⟩
          rw [bytes, encodeAll_cons, form]
          simp
        have within : Within right := fun v mem => hv v (split ▸ List.mem_append_right left mem)
        rw [split]
        exact (encodeAll_prefix_cut hu within shown).isInfix.trans (List.suffix_append _ _).isInfix
  · rintro ⟨before, after, h⟩
    refine ⟨encodeAll before, encodeAll after, ?_⟩
    rw [← encodeAll_append, ← encodeAll_append, h]

end Colinlib.Theory.Utf8
