import Mathlib.Algebra.Group.Nat.Defs
import Mathlib.Data.Nat.Log

/-!
# Conversions between double and single precision

On the bit patterns of the two formats. `Conversions` is what a program may rely on
whatever the hardware does with rounding and with the payload of a NaN; `ieee` rounds
to nearest, ties to even, keeps the leading part of a payload and makes a NaN quiet.
Nothing here names a particular program.
-/
namespace Colinlib.Theory.SinglePrecision

structure Conversions where
  narrow : UInt64 → UInt32
  widen : UInt32 → UInt64
  /-- What narrowing gives is in single precision, and stays as it is. -/
  kept : ∀ v, narrow (widen (narrow v)) = narrow v
  /-- A single has 24 significant bits: the double that equals it has no others. -/
  trailing : ∀ f, (widen f).toNat % 2 ^ 29 = 0
  /-- The positive doubles with the least exponent are nearest to zero. -/
  tiny : ∀ v, v.toNat < 2 ^ 52 → narrow v = 0
  zero : widen 0 = 0

/-! ## The patterns without their sign -/

/-- `n / 2 ^ k`, to the nearest and to the even of two. -/
def roundEven (n k : Nat) : Nat :=
  if 2 * (n % 2 ^ k) < 2 ^ k ∨ 2 * (n % 2 ^ k) = 2 ^ k ∧ n / 2 ^ k % 2 = 0 then n / 2 ^ k
  else n / 2 ^ k + 1

/-- The single nearest to the double with exponent field `e` and fraction `m`. A carry
out of the fraction moves the exponent; past the largest one there is infinity. -/
def narrowRest (e m : Nat) : Nat :=
  if e = 2047 then
    if m = 0 then 255 * 2 ^ 23 else 255 * 2 ^ 23 + 2 ^ 22 + m / 2 ^ 29 % 2 ^ 22
  else if 897 ≤ e then min (255 * 2 ^ 23) ((e - 897) * 2 ^ 23 + roundEven (2 ^ 52 + m) 29)
  else if e = 0 then 0
  else roundEven (2 ^ 52 + m) (926 - e)

/-- The double equal to the single with exponent field `e` and fraction `m`. -/
def widenRest (e m : Nat) : Nat :=
  if e = 255 then
    if m = 0 then 2047 * 2 ^ 52 else 2047 * 2 ^ 52 + 2 ^ 51 + m % 2 ^ 22 * 2 ^ 29
  else if e = 0 then
    if m = 0 then 0
    else (m.log2 + 874) * 2 ^ 52 + (m - 2 ^ m.log2) * 2 ^ (52 - m.log2)
  else (e + 896) * 2 ^ 52 + m * 2 ^ 29

theorem roundEven_mul (m k : Nat) : roundEven (m * 2 ^ k) k = m := by
  unfold roundEven
  rw [Nat.mul_mod_left, Nat.mul_div_cancel _ (Nat.two_pow_pos k),
    if_pos (.inl (Nat.two_pow_pos k))]

theorem roundEven_le (n k : Nat) : roundEven n k ≤ n / 2 ^ k + 1 := by
  unfold roundEven
  split <;> omega

/-- No signalling NaN: infinity is the last pattern before the quiet ones. -/
def Quiet (r : Nat) : Prop := r ≤ 255 * 2 ^ 23 ∨ 255 * 2 ^ 23 + 2 ^ 22 ≤ r

theorem narrowRest_quiet {e m : Nat} (fraction : m < 2 ^ 52) :
    Quiet (narrowRest e m) ∧ narrowRest e m < 2 ^ 31 := by
  unfold narrowRest Quiet
  split
  · split <;> omega
  · split
    · omega
    · split
      · omega
      · -- a double below the least normal single: 23 bits at most are left
        next special normal zero =>
          have shift : 2 ^ 30 ≤ 2 ^ (926 - e) := Nat.pow_le_pow_right (by decide) (by omega)
          have below := roundEven_le (2 ^ 52 + m) (926 - e)
          have small : (2 ^ 52 + m) / 2 ^ (926 - e) ≤ (2 ^ 52 + m) / 2 ^ 30 :=
            Nat.div_le_div_left shift (by decide)
          omega

theorem subnormal {m : Nat} (positive : m ≠ 0) (fraction : m < 2 ^ 23) :
    m.log2 ≤ 22 ∧ (m - 2 ^ m.log2) * 2 ^ (52 - m.log2) < 2 ^ 52 ∧
      2 ^ 52 + (m - 2 ^ m.log2) * 2 ^ (52 - m.log2) = m * 2 ^ (52 - m.log2) := by
  have low := Nat.log2_self_le positive
  have high := (Nat.log2_lt positive).mp (Nat.lt_succ_self m.log2)
  have few : m.log2 < 23 := (Nat.log2_lt positive).mpr fraction
  generalize m.log2 = k at low high few ⊢
  have whole : 2 ^ k * 2 ^ (52 - k) = 2 ^ 52 := by
    rw [← Nat.pow_add]
    congr 1
    omega
  have split : (m - 2 ^ k) * 2 ^ (52 - k) = m * 2 ^ (52 - k) - 2 ^ 52 := by
    rw [Nat.sub_mul, whole]
  have least : 2 ^ 52 ≤ m * 2 ^ (52 - k) := by
    rw [← whole]
    exact Nat.mul_le_mul_right _ low
  have most : m * 2 ^ (52 - k) < 2 * 2 ^ 52 := by
    rw [← whole, ← Nat.mul_assoc]
    refine Nat.mul_lt_mul_of_pos_right ?_ (Nat.two_pow_pos _)
    rwa [Nat.pow_succ, Nat.mul_comm] at high
  omega

theorem widenRest_lt {e m : Nat} (exponent : e < 2 ^ 8) (fraction : m < 2 ^ 23) :
    widenRest e m < 2 ^ 63 ∧ widenRest e m % 2 ^ 29 = 0 := by
  unfold widenRest
  split
  · split <;> omega
  · split
    · split
      · omega
      · next positive =>
          obtain ⟨few, below, -⟩ := subnormal positive fraction
          have round : (m - 2 ^ m.log2) * 2 ^ (52 - m.log2) % 2 ^ 29 = 0 :=
            Nat.mod_eq_zero_of_dvd
              (Nat.dvd_mul_left_of_dvd (Nat.pow_dvd_pow 2 (by omega)) (m - 2 ^ m.log2))
          omega
    · omega

/-- A single that is no signalling NaN comes back from its double. -/
theorem narrowRest_widenRest {e m : Nat} (exponent : e < 2 ^ 8) (fraction : m < 2 ^ 23)
    (quiet : Quiet (e * 2 ^ 23 + m)) :
    narrowRest (widenRest e m / 2 ^ 52) (widenRest e m % 2 ^ 52) = e * 2 ^ 23 + m := by
  unfold Quiet at quiet
  by_cases special : e = 255
  · by_cases infinite : m = 0
    · rw [special, infinite]
      rfl
    · have double : widenRest e m = 2047 * 2 ^ 52 + (2 ^ 51 + m % 2 ^ 22 * 2 ^ 29) := by
        rw [widenRest, if_pos special, if_neg infinite]
        omega
      have field : widenRest e m / 2 ^ 52 = 2047 := by omega
      have payload : widenRest e m % 2 ^ 52 = 2 ^ 51 + m % 2 ^ 22 * 2 ^ 29 := by omega
      rw [field, payload, narrowRest, if_pos rfl, if_neg (by omega)]
      omega
  · by_cases zero : e = 0
    · by_cases none : m = 0
      · rw [zero, none]
        rfl
      · obtain ⟨few, below, whole⟩ := subnormal none fraction
        have double : widenRest e m =
            (m.log2 + 874) * 2 ^ 52 + (m - 2 ^ m.log2) * 2 ^ (52 - m.log2) := by
          rw [widenRest, if_neg special, if_pos zero, if_neg none]
        have field : widenRest e m / 2 ^ 52 = m.log2 + 874 := by omega
        have rest : widenRest e m % 2 ^ 52 = (m - 2 ^ m.log2) * 2 ^ (52 - m.log2) := by omega
        have shift : 926 - (m.log2 + 874) = 52 - m.log2 := by omega
        rw [field, rest, narrowRest, if_neg (by omega), if_neg (by omega), if_neg (by omega),
          whole, shift, roundEven_mul]
        omega
    · have double : widenRest e m = (e + 896) * 2 ^ 52 + m * 2 ^ 29 := by
        rw [widenRest, if_neg special, if_neg zero]
      have field : widenRest e m / 2 ^ 52 = e + 896 := by omega
      have rest : widenRest e m % 2 ^ 52 = m * 2 ^ 29 := by omega
      have whole : 2 ^ 52 + m * 2 ^ 29 = (2 ^ 23 + m) * 2 ^ 29 := by omega
      rw [field, rest, narrowRest, if_neg (by omega), if_pos (by omega), whole, roundEven_mul]
      omega

/-! ## With the sign -/

def narrowBits (v : Nat) : Nat :=
  v / 2 ^ 63 * 2 ^ 31 + narrowRest (v / 2 ^ 52 % 2 ^ 11) (v % 2 ^ 52)

def widenBits (f : Nat) : Nat :=
  f / 2 ^ 31 * 2 ^ 63 + widenRest (f / 2 ^ 23 % 2 ^ 8) (f % 2 ^ 23)

theorem narrowBits_lt {v : Nat} (double : v < 2 ^ 64) : narrowBits v < 2 ^ 32 := by
  have rest := (narrowRest_quiet (e := v / 2 ^ 52 % 2 ^ 11) (m := v % 2 ^ 52) (by omega)).2
  unfold narrowBits
  omega

theorem widenBits_lt {f : Nat} (single : f < 2 ^ 32) :
    widenBits f < 2 ^ 64 ∧ widenBits f % 2 ^ 29 = 0 := by
  have rest := widenRest_lt (e := f / 2 ^ 23 % 2 ^ 8) (m := f % 2 ^ 23) (by omega) (by omega)
  unfold widenBits
  omega

theorem narrowBits_kept (v : Nat) :
    narrowBits (widenBits (narrowBits v)) = narrowBits v := by
  obtain ⟨quiet, small⟩ :=
    narrowRest_quiet (e := v / 2 ^ 52 % 2 ^ 11) (m := v % 2 ^ 52) (by omega)
  have single : narrowBits v =
      v / 2 ^ 63 * 2 ^ 31 + narrowRest (v / 2 ^ 52 % 2 ^ 11) (v % 2 ^ 52) := rfl
  generalize narrowRest (v / 2 ^ 52 % 2 ^ 11) (v % 2 ^ 52) = r at quiet small single
  have exponent : narrowBits v / 2 ^ 23 % 2 ^ 8 = r / 2 ^ 23 := by omega
  have fraction : narrowBits v % 2 ^ 23 = r % 2 ^ 23 := by omega
  have sign : narrowBits v / 2 ^ 31 = v / 2 ^ 63 := by omega
  have joined : r / 2 ^ 23 * 2 ^ 23 + r % 2 ^ 23 = r := by omega
  have below := (widenRest_lt (e := r / 2 ^ 23) (m := r % 2 ^ 23) (by omega) (by omega)).1
  have back := narrowRest_widenRest (e := r / 2 ^ 23) (m := r % 2 ^ 23) (by omega) (by omega)
    (by rwa [joined])
  have widened : widenBits (narrowBits v) =
      v / 2 ^ 63 * 2 ^ 63 + widenRest (r / 2 ^ 23) (r % 2 ^ 23) := by
    rw [widenBits, exponent, fraction, sign]
  generalize widenRest (r / 2 ^ 23) (r % 2 ^ 23) = w at below back widened
  have field : widenBits (narrowBits v) / 2 ^ 52 % 2 ^ 11 = w / 2 ^ 52 := by omega
  have rest : widenBits (narrowBits v) % 2 ^ 52 = w % 2 ^ 52 := by omega
  have top : widenBits (narrowBits v) / 2 ^ 63 = v / 2 ^ 63 := by omega
  calc narrowBits (widenBits (narrowBits v))
      = v / 2 ^ 63 * 2 ^ 31 + narrowRest (w / 2 ^ 52) (w % 2 ^ 52) := by
        rw [narrowBits, field, rest, top]
    _ = narrowBits v := by rw [back, joined, single]

/-- The conversions of IEEE 754 arithmetic in its default rounding mode. -/
def ieee : Conversions where
  narrow v := .ofNat (narrowBits v.toNat)
  widen f := .ofNat (widenBits f.toNat)
  kept v := by
    have single := narrowBits_lt v.toNat_lt
    have double := (widenBits_lt single).1
    rw [UInt32.toNat_ofNat', UInt64.toNat_ofNat', Nat.mod_eq_of_lt single, Nat.mod_eq_of_lt double,
      narrowBits_kept]
  trailing f := by
    obtain ⟨double, trailing⟩ := widenBits_lt f.toNat_lt
    rw [UInt64.toNat_ofNat', Nat.mod_eq_of_lt double, trailing]
  tiny v small := by
    have sign : v.toNat / 2 ^ 63 = 0 := by omega
    have exponent : v.toNat / 2 ^ 52 % 2 ^ 11 = 0 := by omega
    rw [narrowBits, sign, exponent]
    rfl
  zero := rfl

/-! ## Singles through double precision -/

/-- A NaN whose leading fraction bit is clear. -/
def Signalling (f : UInt32) : Prop :=
  255 * 2 ^ 23 < f.toNat % 2 ^ 31 ∧ f.toNat % 2 ^ 31 < 255 * 2 ^ 23 + 2 ^ 22

instance (f : UInt32) : Decidable (Signalling f) :=
  inferInstanceAs (Decidable (_ ∧ _))

/-- A signalling NaN comes back quiet. -/
theorem narrowRest_widenRest_signalling {m : Nat} (nan : 0 < m) (signalling : m < 2 ^ 22) :
    narrowRest (widenRest 255 m / 2 ^ 52) (widenRest 255 m % 2 ^ 52) =
      255 * 2 ^ 23 + m + 2 ^ 22 := by
  have double : widenRest 255 m = 2047 * 2 ^ 52 + (2 ^ 51 + m * 2 ^ 29) := by
    rw [widenRest, if_pos rfl, if_neg (by omega), Nat.mod_eq_of_lt signalling]
    omega
  have field : widenRest 255 m / 2 ^ 52 = 2047 := by omega
  have payload : widenRest 255 m % 2 ^ 52 = 2 ^ 51 + m * 2 ^ 29 := by omega
  rw [field, payload, narrowRest, if_pos rfl, if_neg (by omega)]
  omega

/-- The sign has no part in the conversions. -/
theorem narrowBits_widenBits (f : Nat) :
    narrowBits (widenBits f) = f / 2 ^ 31 * 2 ^ 31 +
      narrowRest (widenRest (f / 2 ^ 23 % 2 ^ 8) (f % 2 ^ 23) / 2 ^ 52)
        (widenRest (f / 2 ^ 23 % 2 ^ 8) (f % 2 ^ 23) % 2 ^ 52) := by
  have below := (widenRest_lt (e := f / 2 ^ 23 % 2 ^ 8) (m := f % 2 ^ 23) (by omega) (by omega)).1
  unfold narrowBits widenBits
  generalize widenRest (f / 2 ^ 23 % 2 ^ 8) (f % 2 ^ 23) = w at below ⊢
  have sign : (f / 2 ^ 31 * 2 ^ 63 + w) / 2 ^ 63 = f / 2 ^ 31 := by omega
  have field : (f / 2 ^ 31 * 2 ^ 63 + w) / 2 ^ 52 % 2 ^ 11 = w / 2 ^ 52 := by omega
  have rest : (f / 2 ^ 31 * 2 ^ 63 + w) % 2 ^ 52 = w % 2 ^ 52 := by omega
  rw [sign, field, rest]

/-- What double precision makes of a single: the same, or the quiet NaN of the payload. -/
theorem ieee_through (f : UInt32) : (ieee.narrow (ieee.widen f)).toNat =
    if Signalling f then f.toNat + 2 ^ 22 else f.toNat := by
  have single : f.toNat < 2 ^ 32 := f.toNat_lt
  have double := (widenBits_lt single).1
  have back : (ieee.narrow (ieee.widen f)).toNat = narrowBits (widenBits f.toNat) := by
    simp only [ieee]
    rw [UInt32.toNat_ofNat', UInt64.toNat_ofNat', Nat.mod_eq_of_lt double,
      Nat.mod_eq_of_lt (narrowBits_lt double)]
  rw [back, narrowBits_widenBits]
  by_cases signalling : Signalling f
  · rw [if_pos signalling]
    unfold Signalling at signalling
    have special : f.toNat / 2 ^ 23 % 2 ^ 8 = 255 := by omega
    rw [special, narrowRest_widenRest_signalling (by omega) (by omega)]
    omega
  · rw [if_neg signalling]
    unfold Signalling at signalling
    have quiet : Quiet (f.toNat / 2 ^ 23 % 2 ^ 8 * 2 ^ 23 + f.toNat % 2 ^ 23) := by
      unfold Quiet
      omega
    rw [narrowRest_widenRest (by omega) (by omega) quiet]
    omega

/-- 1.0, 0.1, the largest double, the least double, and the single next to one third. -/
example : [0x3FF0000000000000, 0x3FB999999999999A, 0x7FEFFFFFFFFFFFFF, 1, 0x3FD5555555555555].map
    ieee.narrow = [0x3F800000, 0x3DCCCCCD, 0x7F800000, 0, 0x3EAAAAAB] := by decide

end Colinlib.Theory.SinglePrecision
