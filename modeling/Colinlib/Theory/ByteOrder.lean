import Colinlib.Theory.ByteMemory

/-!
# Byte order

The bytes of an object on a host of either order, and the conversions of `endian.h`, on the
value bits of an object of `n` bytes. Nothing here names a particular program.
-/
namespace Colinlib.Theory.ByteOrder
open ByteMemory

inductive Host where
  | little | big
  deriving DecidableEq, Repr

/-- The bytes of an object in memory. -/
def Host.bytes (host : Host) (n v : Nat) : List UInt8 :=
  match host with
  | .little => encode n v
  | .big => (encode n v).reverse

/-- The value of an object with these bytes. -/
def Host.value (host : Host) (bytes : List UInt8) : Nat :=
  match host with
  | .little => decode bytes
  | .big => decode bytes.reverse

def bswap (n v : Nat) : Nat := decode (encode n v).reverse

def htole (host : Host) (n v : Nat) : Nat :=
  match host with
  | .little => v
  | .big => bswap n v

def htobe (host : Host) (n v : Nat) : Nat :=
  match host with
  | .little => bswap n v
  | .big => v

def letoh (host : Host) (n v : Nat) : Nat :=
  match host with
  | .little => v
  | .big => bswap n v

def betoh (host : Host) (n v : Nat) : Nat :=
  match host with
  | .little => bswap n v
  | .big => v

section
variable (host : Host) (n v : Nat)

@[simp] theorem bytes_length : (host.bytes n v).length = n := by
  cases host <;> simp [Host.bytes]

theorem encode_bswap : encode n (bswap n v) = (encode n v).reverse := by
  have back := encode_decode (encode n v).reverse
  rwa [List.length_reverse, encode_length] at back

/-- What is stored after the conversion does not depend on the host. -/
theorem bytes_htole : host.bytes n (htole host n v) = encode n v := by
  cases host with
  | little => rfl
  | big => rw [Host.bytes, htole, encode_bswap, List.reverse_reverse]

theorem bytes_htobe : host.bytes n (htobe host n v) = (encode n v).reverse := by
  cases host with
  | little => exact encode_bswap n v
  | big => rfl

theorem value_bytes : host.value (host.bytes n v) = v % 256 ^ n := by
  cases host with
  | little => exact decode_encode n v
  | big => rw [Host.value, Host.bytes, List.reverse_reverse, decode_encode]

end

/-- What is loaded means the same on every host after the conversion. -/
theorem letoh_value (host : Host) (bytes : List UInt8) :
    letoh host bytes.length (host.value bytes) = decode bytes := by
  cases host with
  | little => rfl
  | big =>
      have back := encode_decode bytes.reverse
      rw [List.length_reverse] at back
      rw [letoh, Host.value, bswap, back, List.reverse_reverse]

theorem betoh_value (host : Host) (bytes : List UInt8) :
    betoh host bytes.length (host.value bytes) = decode bytes.reverse := by
  cases host with
  | little => rw [betoh, Host.value, bswap, encode_decode]
  | big => rfl

end Colinlib.Theory.ByteOrder
