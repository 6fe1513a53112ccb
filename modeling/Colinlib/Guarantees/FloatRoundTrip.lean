import Colinlib.Source.FloatBuffer

/-!
# Doubles through the buffer

What is written in one order is read back in the same order, so the two conversions of a
mode must undo each other. In the little-endian mode the reading one takes and returns a
`float`: the pattern that was read goes through single precision, before the bytes are
put in order and after. On a big-endian host these are the bytes of the double in the
wrong order, of which single precision keeps nothing.
-/
namespace Colinlib.Guarantees.FloatRoundTrip
open Colinlib.Theory Colinlib.Theory.CMemory Colinlib.Theory.ByteMemory Colinlib.Theory.ByteOrder
open Colinlib.Theory.Runs Colinlib.Theory.SinglePrecision
open Colinlib.Source.Buffer Colinlib.Source.FloatBuffer

/-- The double, written to any buffer of the mode at any position, is what is read after
seeking back. A write stops where the size of the buffer overflows an `int`. -/
def RoundTrips (c : Conversions) (host : Host) (endian : CbEndian) (v : UInt64) : Prop :=
  ∀ bf : Cobuffer, Sound bf → bf.endian = endian →
    Outcome (· = .intOverflow) (fun written => ∃ start last,
        cobufferSeek written true (.ofNat bf.pos) = .ok (bf.pos, start) ∧
        cobufferReadFloat64 c host start = .ok (true, some v, last))
      (cobufferWriteFloat64 host bf v)

/-- After a write, a seek back to where it began and a read of as many bytes. -/
theorem seek_read {bf written : Cobuffer} {bytes : List UInt8} (h : Sound bf)
    (some_bytes : 0 < bytes.length)
    (wrote : cobufferWrite bf (some bytes) bytes.length = .ok written) :
    ∃ start last, cobufferSeek written true (.ofNat bf.pos) = .ok (bf.pos, start) ∧
      cobufferRead start bytes.length = .ok (some (bytes.map some), last) ∧
      last.endian = bf.endian := by
  obtain ⟨sound, -, pos, endian, here⟩ := cobufferWrite_sound h wrote
  have cells := here bytes rfl
  rw [List.take_length] at cells
  have inside := sound.inside
  have sought := cobufferSeek_before_end sound (by omega : bf.pos < written.size)
  have back := (cobufferSeek_sound sound sought).1
  have read := cobufferRead_inside back (n := bytes.length) (by simp only; omega)
  simp only [cells] at read
  exact ⟨_, _, sought, read, endian⟩

/-- A value that is written as some bytes, and a reader that makes `result` of these bytes:
the value that was meant is read back where it is the result. -/
theorem pattern_trips {α : Type} {endian : CbEndian} {bytes : List UInt8} {result v : α}
    {write : Cobuffer → Except Fault Cobuffer}
    {read : Cobuffer → Except Fault (Bool × Option α × Cobuffer)} (some_bytes : 0 < bytes.length)
    (small : bytes.length ≤ 32)
    (writes : ∀ bf : Cobuffer, bf.endian = endian →
      write bf = cobufferWrite bf (some bytes) bytes.length)
    (reads : ∀ start last : Cobuffer, last.endian = endian →
      cobufferRead start bytes.length = .ok (some (bytes.map some), last) →
      read start = .ok (true, some result, last)) :
    (∀ bf : Cobuffer, Sound bf → bf.endian = endian →
      Outcome (· = .intOverflow) (fun written => ∃ start last,
        cobufferSeek written true (.ofNat bf.pos) = .ok (bf.pos, start) ∧
        read start = .ok (true, some v, last)) (write bf)) ↔ result = v := by
  have back {bf written : Cobuffer} (sound : Sound bf) (mode : bf.endian = endian)
      (wrote : cobufferWrite bf (some bytes) bytes.length = .ok written) : ∃ start last,
        cobufferSeek written true (.ofNat bf.pos) = .ok (bf.pos, start) ∧
        read start = .ok (true, some result, last) := by
    obtain ⟨start, last, sought, loads, same⟩ := seek_read sound some_bytes wrote
    exact ⟨start, last, sought, reads start last (same.trans mode) loads⟩
  constructor
  · -- a new buffer has room, so there the write returns
    intro trips
    obtain ⟨bf, new⟩ : ∃ bf, cobufferNew none 0 endian = .ok bf := ⟨_, rfl⟩
    have sound := cobufferNew_sound new
    obtain ⟨mode, start, size⟩ : bf.endian = endian ∧ bf.pos = 0 ∧ bf.size = 32 := by
      cases new
      exact ⟨rfl, rfl, rfl⟩
    obtain ⟨written, wrote⟩ := cobufferWrite_room sound
      (by omega : bf.pos + bytes.length ≤ bf.size)
    have outcome := trips bf sound mode
    rw [writes bf mode, wrote] at outcome
    obtain ⟨at₁, last₁, sought₁, read₁⟩ := outcome
    obtain ⟨at₂, last₂, sought₂, read₂⟩ := back sound mode wrote
    rw [sought₁] at sought₂
    cases sought₂
    rw [read₁] at read₂
    have same := (Prod.mk.inj (Prod.mk.inj (Except.ok.inj read₂)).2).1
    exact (Option.some.inj same).symm
  · rintro rfl bf sound mode
    have returns := cobufferWrite_returns sound bytes
    rw [writes bf mode]
    generalize wrote : cobufferWrite bf (some bytes) bytes.length = x at returns
    cases x with
    | error f => exact returns
    | ok written => exact back sound mode wrote

/-- The pattern whose bytes are stored. -/
def stored (host : Host) (endian : CbEndian) (v : UInt64) : UInt64 :=
  match endian with
  | .little => htole64f host v
  | .big => htobe64f host v
  | .native => v

/-- What the reader makes of a pattern it has loaded. -/
def loaded (c : Conversions) (host : Host) (endian : CbEndian) (v : UInt64) : UInt64 :=
  match endian with
  | .little => c.widen (le64tohf c host (c.narrow v))
  | .big => be64tohf host v
  | .native => v

theorem readFloat64_spec {c : Conversions} {host : Host} {start last : Cobuffer} {v : UInt64}
    (read : cobufferRead start 8 = .ok (some ((host.bytes 8 v.toNat).map some), last)) :
    cobufferReadFloat64 c host start = .ok (true, some (loaded c host last.endian v), last) := by
  have back : UInt64.ofNat (host.value (host.bytes 8 v.toNat)) = v := by
    have fits : v.toNat < 256 ^ 8 := v.toNat_lt
    rw [value_bytes, Nat.mod_eq_of_lt fits, UInt64.ofNat_toNat]
  unfold cobufferReadFloat64
  rw [read, ok_bind]
  simp only [determinate_some, Option.map_some, back]
  cases last.endian <;> rfl

theorem writeFloat64_eq (host : Host) (v : UInt64) (bf : Cobuffer) :
    cobufferWriteFloat64 host bf v =
      cobufferWrite bf (some (host.bytes 8 (stored host bf.endian v).toNat)) 8 := by
  unfold cobufferWriteFloat64 stored
  cases bf with
  | mk buffer size pos endian => cases endian <;> rfl

/-- The round trip is a matter of the conversions alone. -/
theorem roundTrips_iff (c : Conversions) (host : Host) (endian : CbEndian) (v : UInt64) :
    RoundTrips c host endian v ↔ loaded c host endian (stored host endian v) = v := by
  have width := bytes_length host 8 (stored host endian v).toNat
  have some_bytes : 0 < (host.bytes 8 (stored host endian v).toNat).length := by omega
  refine pattern_trips some_bytes (by omega) ?_ ?_
  · rintro bf rfl
    rw [width, writeFloat64_eq]
  · rintro start last rfl read
    rw [width] at read
    exact readFloat64_spec read

/-! ## The conversions of each mode -/

theorem swapFloat_swapFloat (host : Host) (v : UInt64) :
    UInt64.ofNat (swapFloat host 8 (UInt64.ofNat (swapFloat host 8 v.toNat)).toNat) = v := by
  have small : bswap 8 v.toNat < 2 ^ 64 := bswap_lt 8 v.toNat
  rw [swapFloat_eq, swapFloat_eq, UInt64.toNat_ofNat', Nat.mod_eq_of_lt small,
    bswap_bswap v.toNat_lt, UInt64.ofNat_toNat]

theorem htobe64f_twice (host : Host) (v : UInt64) : htobe64f host (htobe64f host v) = v := by
  cases host with
  | little => exact swapFloat_swapFloat .little v
  | big => rfl

/-- A double whose low three bytes are zero is, with its bytes swapped, below the
least normal double. -/
theorem bswap_tiny {v : Nat} (trailing : v % 2 ^ 29 = 0) : bswap 8 v < 2 ^ 52 := by
  have low : v % 256 = 0 ∧ v / 256 % 256 = 0 ∧ v / 256 / 256 % 256 = 0 := by omega
  simp only [bswap, encode, List.reverse_cons, List.reverse_nil, List.nil_append, List.cons_append,
    decode, UInt8.toNat_ofNat', low]
  omega

/-- On a big-endian host nothing but zero comes back. -/
theorem loaded_big (c : Conversions) (v : UInt64) :
    loaded c .big .little v = 0 := by
  have small : bswap 8 (c.widen (c.narrow v)).toNat < 2 ^ 52 := bswap_tiny (c.trailing _)
  have swapped : (htole64f .big (c.widen (c.narrow v))).toNat < 2 ^ 52 := by
    rw [htole64f, swapFloat_eq, UInt64.toNat_ofNat', Nat.mod_eq_of_lt (by omega)]
    exact small
  rw [loaded, le64tohf, c.tiny _ swapped, c.zero]

/-- In every mode, on every host: a double comes back if and only if the mode is not the
little-endian one, or it is zero, or the host is little-endian and single precision
holds the double. -/
theorem doubles_round_trip (c : Conversions) (host : Host) (endian : CbEndian) (v : UInt64) :
    RoundTrips c host endian v ↔
      endian ≠ .little ∨ v = 0 ∨ host = .little ∧ c.widen (c.narrow v) = v := by
  rw [roundTrips_iff]
  cases endian with
  | native => exact iff_of_true rfl (.inl nofun)
  | big => exact iff_of_true (htobe64f_twice host v) (.inl nofun)
  | little =>
      cases host with
      | little =>
          have once : loaded c .little .little (stored .little .little v) = c.widen (c.narrow v) :=
            congrArg c.widen (c.kept v)
          have zero : c.widen (c.narrow 0) = 0 := by rw [c.tiny 0 (by decide), c.zero]
          rw [once]
          constructor
          · exact fun same => .inr (.inr ⟨rfl, same⟩)
          · rintro (other | rfl | ⟨-, same⟩)
            · exact absurd rfl other
            · exact zero
            · exact same
      | big =>
          rw [loaded_big]
          constructor
          · exact fun zero => .inr (.inl zero.symm)
          · rintro (other | zero | ⟨wrong, -⟩)
            · exact absurd rfl other
            · exact zero.symm
            · cases wrong

/-- 1.2345, which single precision does not hold. -/
def fraction : UInt64 := 0x3FF3C083126E978D

theorem fraction_is_narrowed : ¬ RoundTrips ieee .little .little fraction := by
  rw [roundTrips_iff]
  decide +kernel

end Colinlib.Guarantees.FloatRoundTrip
