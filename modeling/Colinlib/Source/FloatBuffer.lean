import Colinlib.Theory.SinglePrecision
import Colinlib.Source.Buffer

/-!
# Floating point in the buffer: `co_endian.h` and `co_buffer.c`

A `float` and a `double` are their bit patterns. Where a value of one type meets a
parameter or a result of the other, C converts: the calls below spell out each of these
conversions, in the order of the calls.
-/
namespace Colinlib.Source.FloatBuffer
open Colinlib.Theory.CMemory Colinlib.Theory.ByteMemory Colinlib.Theory.ByteOrder
open Colinlib.Theory.SinglePrecision
open Colinlib.Source.Buffer

section
variable (c : Conversions) (host : Host)

/-- `_swap_float`: the bytes of an object of `size` bytes, in the other order. -/
def swapFloat (size v : Nat) : Nat := host.value (host.bytes size v).reverse

def htole64f (v : UInt64) : UInt64 :=
  match host with
  | .little => v
  | .big => .ofNat (swapFloat host 8 v.toNat)

def htobe64f (v : UInt64) : UInt64 :=
  match host with
  | .little => .ofNat (swapFloat host 8 v.toNat)
  | .big => v

/-- Takes and returns a `float`. -/
def le64tohf (v : UInt32) : UInt32 := c.narrow (htole64f host (c.widen v))

def be64tohf (v : UInt64) : UInt64 := htobe64f host v

def htole32f (v : UInt32) : UInt32 :=
  match host with
  | .little => v
  | .big => .ofNat (swapFloat host 4 v.toNat)

def htobe32f (v : UInt32) : UInt32 :=
  match host with
  | .little => .ofNat (swapFloat host 4 v.toNat)
  | .big => v

def le32tohf (v : UInt32) : UInt32 := htole32f host v

/-- Takes and returns a `double`. -/
def be32tohf (v : UInt64) : UInt64 := c.widen (htobe32f host (c.narrow v))

variable (bf : Cobuffer)

def cobufferWriteFloat64 (v : UInt64) : Except Fault Cobuffer :=
  let v := match bf.endian with
    | .little => htole64f host v
    | .big => htobe64f host v
    | .native => v
  cobufferWrite bf (some (host.bytes 8 v.toNat)) 8

def cobufferReadFloat64 : Except Fault (Bool × Option UInt64 × Cobuffer) := do
  match ← cobufferRead bf 8 with
  | (none, bf) => .ok (false, none, bf)
  | (some cells, bf) =>
    let v := (determinate cells).map fun bytes => UInt64.ofNat (host.value bytes)
    let v := match bf.endian with
      | .little => v.map fun v => c.widen (le64tohf c host (c.narrow v))
      | .big => v.map (be64tohf host)
      | .native => v
    .ok (true, v, bf)

def cobufferWriteFloat32 (v : UInt32) : Except Fault Cobuffer :=
  let v := match bf.endian with
    | .little => htole32f host v
    | .big => htobe32f host v
    | .native => v
  cobufferWrite bf (some (host.bytes 4 v.toNat)) 4

def cobufferReadFloat32 : Except Fault (Bool × Option UInt32 × Cobuffer) := do
  match ← cobufferRead bf 4 with
  | (none, bf) => .ok (false, none, bf)
  | (some cells, bf) =>
    let v := (determinate cells).map fun bytes => UInt32.ofNat (host.value bytes)
    let v := match bf.endian with
      | .little => v.map (le32tohf host)
      | .big => v.map fun v => c.narrow (be32tohf c host (c.widen v))
      | .native => v
    .ok (true, v, bf)

end

/-! ## Byte order -/

section
variable (host : Host)

theorem swapFloat_eq (size v : Nat) : swapFloat host size v = bswap size v := by
  cases host with
  | little => rfl
  | big => rw [swapFloat, Host.bytes, Host.value, List.reverse_reverse, bswap]

theorem bswap_lt (size v : Nat) : bswap size v < 256 ^ size := by
  have bound := decode_lt (encode size v).reverse
  rwa [List.length_reverse, encode_length] at bound

theorem bswap_bswap {size v : Nat} (small : v < 256 ^ size) : bswap size (bswap size v) = v := by
  rw [bswap, encode_bswap, List.reverse_reverse, decode_encode, Nat.mod_eq_of_lt small]

end

end Colinlib.Source.FloatBuffer
