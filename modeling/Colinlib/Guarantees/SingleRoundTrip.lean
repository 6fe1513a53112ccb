import Colinlib.Guarantees.FloatRoundTrip

/-!
# Singles through the buffer

In the big-endian mode the reading conversion takes and returns a `double`: the pattern that
was read goes through double precision before its bytes are put in order, and what they
become goes through it afterwards. Double precision holds every single, but makes a
signalling NaN quiet, and the bytes of a number in the wrong order may be one.
-/
namespace Colinlib.Guarantees.SingleRoundTrip
open Colinlib.Theory Colinlib.Theory.CMemory Colinlib.Theory.ByteMemory Colinlib.Theory.ByteOrder
open Colinlib.Theory.Runs Colinlib.Theory.SinglePrecision
open Colinlib.Source.Buffer Colinlib.Source.FloatBuffer
open Colinlib.Guarantees.FloatRoundTrip (pattern_trips)

/-- The single, written to any buffer of the mode at any position, is what is read after
seeking back. A write stops where the size of the buffer overflows an `int`. -/
def SingleTrips (c : Conversions) (host : Host) (endian : CbEndian) (v : UInt32) : Prop :=
  ∀ bf : Cobuffer, Sound bf → bf.endian = endian →
    Outcome (· = .intOverflow) (fun written => ∃ start last,
        cobufferSeek written true (.ofNat bf.pos) = .ok (bf.pos, start) ∧
        cobufferReadFloat32 c host start = .ok (true, some v, last))
      (cobufferWriteFloat32 host bf v)

/-- The pattern whose bytes are stored. -/
def stored (host : Host) (endian : CbEndian) (v : UInt32) : UInt32 :=
  match endian with
  | .little => htole32f host v
  | .big => htobe32f host v
  | .native => v

/-- What the reader makes of a pattern it has loaded. -/
def loaded (c : Conversions) (host : Host) (endian : CbEndian) (v : UInt32) : UInt32 :=
  match endian with
  | .little => le32tohf host v
  | .big => c.narrow (be32tohf c host (c.widen v))
  | .native => v

theorem readFloat32_spec {c : Conversions} {host : Host} {start last : Cobuffer} {v : UInt32}
    (read : cobufferRead start 4 = .ok (some ((host.bytes 4 v.toNat).map some), last)) :
    cobufferReadFloat32 c host start = .ok (true, some (loaded c host last.endian v), last) := by
  have back : UInt32.ofNat (host.value (host.bytes 4 v.toNat)) = v := by
    have fits : v.toNat < 256 ^ 4 := v.toNat_lt
    rw [value_bytes, Nat.mod_eq_of_lt fits, UInt32.ofNat_toNat]
  unfold cobufferReadFloat32
  rw [read, ok_bind]
  simp only [determinate_some, Option.map_some, back]
  cases last.endian <;> rfl

theorem writeFloat32_eq (host : Host) (v : UInt32) (bf : Cobuffer) :
    cobufferWriteFloat32 host bf v =
      cobufferWrite bf (some (host.bytes 4 (stored host bf.endian v).toNat)) 4 := by
  unfold cobufferWriteFloat32 stored
  cases bf with
  | mk buffer size pos endian => cases endian <;> rfl

/-- The round trip is a matter of the conversions alone. -/
theorem singleTrips_iff (c : Conversions) (host : Host) (endian : CbEndian) (v : UInt32) :
    SingleTrips c host endian v ↔ loaded c host endian (stored host endian v) = v := by
  have width := bytes_length host 4 (stored host endian v).toNat
  have some_bytes : 0 < (host.bytes 4 (stored host endian v).toNat).length := by omega
  refine pattern_trips some_bytes (by omega) ?_ ?_
  · rintro bf rfl
    rw [width, writeFloat32_eq]
  · rintro start last rfl read
    rw [width] at read
    exact readFloat32_spec read

/-! ## The conversions of each mode -/

/-- The four bytes in the other order. -/
theorem bswap_four (n : Nat) : bswap 4 n =
    n % 256 * 16777216 + n / 256 % 256 * 65536 + n / 65536 % 256 * 256 + n / 16777216 % 256 := by
  have second : n / 65536 = n / 256 / 256 := (Nat.div_div_eq_div_mul n 256 256).symm
  have third : n / 16777216 = n / 256 / 256 / 256 := by
    rw [Nat.div_div_eq_div_mul, Nat.div_div_eq_div_mul]
  rw [second, third]
  simp only [bswap, encode, List.reverse_cons, List.reverse_nil, List.nil_append, List.cons_append,
    decode, UInt8.toNat_ofNat', Nat.mod_mod, Nat.reducePow]
  omega

/-- The single with the bytes of `v` in the other order. -/
def swapped (v : UInt32) : UInt32 := .ofNat (bswap 4 v.toNat)

theorem swapped_toNat (v : UInt32) : (swapped v).toNat = bswap 4 v.toNat := by
  have small : bswap 4 v.toNat < 2 ^ 32 := bswap_lt 4 v.toNat
  rw [swapped, UInt32.toNat_ofNat', Nat.mod_eq_of_lt small]

theorem swapped_swapped (v : UInt32) : swapped (swapped v) = v := by
  apply UInt32.toNat_inj.mp
  rw [swapped_toNat, swapped_toNat, bswap_bswap v.toNat_lt]

theorem htole32f_twice (host : Host) (v : UInt32) : le32tohf host (htole32f host v) = v := by
  cases host with
  | little => rfl
  | big =>
      rw [le32tohf, htole32f, htole32f, swapFloat_eq, swapFloat_eq]
      exact swapped_swapped v

theorem htobe32f_little (v : UInt32) : htobe32f .little v = swapped v := by
  rw [htobe32f, swapFloat_eq, swapped]

/-- What double precision leaves as it is. -/
theorem through_iff (v : UInt32) : ieee.narrow (ieee.widen v) = v ↔ ¬ Signalling v := by
  have through := ieee_through v
  constructor
  · intro same signalling
    rw [same, if_pos signalling] at through
    omega
  · intro quiet
    rw [if_neg quiet] at through
    exact UInt32.toNat_inj.mp through

/-- Made quiet before its bytes are swapped, a number is another number. -/
theorem bswap_quiet {n : Nat} (nan : 255 * 2 ^ 23 < n % 2 ^ 31)
    (signalling : n % 2 ^ 31 < 255 * 2 ^ 23 + 2 ^ 22) :
    bswap 4 (n + 2 ^ 22) = bswap 4 n + 2 ^ 14 := by
  have first : (n + 2 ^ 22) % 256 = n % 256 := by omega
  have second : (n + 2 ^ 22) / 256 % 256 = n / 256 % 256 := by omega
  have third : (n + 2 ^ 22) / 65536 % 256 = n / 65536 % 256 + 64 := by omega
  have fourth : (n + 2 ^ 22) / 16777216 % 256 = n / 16777216 % 256 := by omega
  rw [bswap_four, bswap_four, first, second, third, fourth]
  omega

theorem loaded_little_iff (v : UInt32) :
    loaded ieee .little .big (stored .little .big v) = v ↔
      ¬ Signalling v ∧ ¬ Signalling (swapped v) := by
  have chain : loaded ieee .little .big (stored .little .big v) =
      ieee.narrow (ieee.widen (swapped (ieee.narrow (ieee.widen (swapped v))))) := by
    rw [loaded, stored, be32tohf, htobe32f_little, htobe32f_little]
  rw [chain]
  by_cases signalling : Signalling (swapped v)
  · refine iff_of_false (fun same => ?_) (fun quiet => quiet.2 signalling)
    have inner := ieee_through (swapped v)
    have outer := ieee_through (swapped (ieee.narrow (ieee.widen (swapped v))))
    rw [if_pos signalling, swapped_toNat] at inner
    obtain ⟨nan, below⟩ := signalling
    rw [swapped_toNat] at nan below
    have moved := bswap_quiet nan below
    rw [bswap_bswap v.toNat_lt] at moved
    rw [same, swapped_toNat, inner, moved] at outer
    split at outer <;> omega
  · rw [(through_iff _).mpr signalling, swapped_swapped, through_iff]
    exact ⟨fun quiet => ⟨quiet, signalling⟩, And.left⟩

/-- **Singles.** In every mode, on every host: a single comes back if and only if the mode is
not the big-endian one, or the single is no signalling NaN and, on a little-endian host, the
number with its bytes in the other order is none either. -/
theorem singles_round_trip (host : Host) (endian : CbEndian) (v : UInt32) :
    SingleTrips ieee host endian v ↔
      endian ≠ .big ∨ ¬ Signalling v ∧ (host = .little → ¬ Signalling (swapped v)) := by
  rw [singleTrips_iff]
  cases endian with
  | native => exact iff_of_true rfl (.inl nofun)
  | little => exact iff_of_true (htole32f_twice host v) (.inl nofun)
  | big =>
      cases host with
      | little =>
          rw [loaded_little_iff]
          simp
      | big =>
          have once : loaded ieee .big .big (stored .big .big v) =
              ieee.narrow (ieee.widen v) := ieee.kept (ieee.widen v)
          rw [once, through_iff]
          simp

/-- A normal number whose bytes a little-endian host stores as those of a signalling NaN. -/
example : ¬ SingleTrips ieee .little .big 0x0100807F := by
  rw [singleTrips_iff]
  decide +kernel

end Colinlib.Guarantees.SingleRoundTrip
