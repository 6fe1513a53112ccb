import Colinlib.Theory.CMemory

/-!
# The DNS functions: `co_dnsutils.c`

A packet is the list of its bytes, and `size` their number; a read outside of it is
`Fault.outOfBounds`. Sums are `int`s. The memory that the parser allocates and frees
again before it fails is left out.
-/
namespace Colinlib.Source.DnsUtils
open Colinlib.Theory.CMemory

/-- `sizeof(dns_header_t)`: six `uint16_t`, packed. -/
def headerSize : Nat := 12

def dnsTypeA : Nat := 1
def dnsTypeAAAA : Nat := 28
def dnsClassIN : Nat := 1

inductive AddressFamily where
  | inet | inet6
  deriving DecidableEq, Repr

/-- `ipaddr_t` -/
structure Ipaddr where
  af : AddressFamily
  addr : List UInt8
  deriving DecidableEq, Repr

/-- The bytes that `htons` leaves in memory. -/
def htons (n : Nat) : List UInt8 := [.ofNat (n / 256), .ofNat n]

def byteAt (buf : List UInt8) (pos : Nat) : Except Fault Nat :=
  match buf[pos]? with
  | some b => .ok b.toNat
  | none => .error .outOfBounds

/-- `ntohs` of the two bytes at a position. -/
def uint16At (buf : List UInt8) (pos : Nat) : Except Fault Nat := do
  return (← byteAt buf pos) * 256 + (← byteAt buf (pos + 1))

/-- The bytes that `memcpy` reads. -/
def bytesAt (buf : List UInt8) (pos n : Nat) : Except Fault (List UInt8) :=
  if pos + n ≤ buf.length then .ok ((buf.drop pos).take n) else .error .outOfBounds

/-- `size < pos+(n)` -/
def tooShort (buf : List UInt8) (pos n : Nat) : Except Fault Bool := do
  return buf.length < (← int32 (pos + n))

/-! ## The response -/

/-- The loop over a name: the position it leaves, or nothing where the function fails. -/
def nameLoop (buf : List UInt8) : Nat → Nat → Except Fault (Option Nat)
  | 0, _ => .error .starved
  | fuel + 1, pos => do
    if (← byteAt buf pos) = 0 then return some pos
    if ← tooShort buf pos 1 then return none
    let len ← byteAt buf pos
    if len &&& 0xC0 = 0xC0 then return some (pos + 1)
    if ← tooShort buf (pos + 1) len then return none
    nameLoop buf fuel (pos + 1 + len)

def readName (buf : List UInt8) (pos : Nat) : Except Fault (Option Nat) :=
  nameLoop buf (buf.length + 1) pos

/-- One round of the loop over the answers: the address, if the record has one, and the
position of the next record. -/
def readAnswer (buf : List UInt8) (pos : Nat) : Except Fault (Option (Option Ipaddr × Nat)) := do
  match ← readName buf pos with
  | none => return none
  | some pos =>
    if ← tooShort buf pos 1 then return none
    if ← tooShort buf (pos + 1) 2 then return none
    let atype ← uint16At buf (pos + 1)
    if ← tooShort buf (pos + 3) 6 then return none
    if ← tooShort buf (pos + 9) 2 then return none
    let rdlen ← uint16At buf (pos + 9)
    if ← tooShort buf (pos + 11) rdlen then return none
    -- the copies do not look at `rdlen`
    if atype = dnsTypeA then
      return some (some ⟨.inet, ← bytesAt buf (pos + 11) 4⟩, pos + 11 + rdlen)
    else if atype = dnsTypeAAAA then
      return some (some ⟨.inet6, ← bytesAt buf (pos + 11) 16⟩, pos + 11 + rdlen)
    else return some (none, pos + 11 + rdlen)

def answerLoop (buf : List UInt8) : Nat → Nat → List Ipaddr → Except Fault (Option (List Ipaddr))
  | 0, _, retads => return some retads
  | n + 1, pos, retads => do
    match ← readAnswer buf pos with
    | none => return none
    | some (address, pos) => answerLoop buf n pos (retads ++ address.toList)

/-- What the function returns, and the addresses where it returns 0. -/
def codnsParseResponse (buf : List UInt8) : Except Fault (Nat × Option (List Ipaddr)) := do
  if buf.length < headerSize then return (1, none)
  let rcode := (← uint16At buf 2) &&& 0x000F
  if rcode ≠ 0 then return (rcode, none)
  if (← uint16At buf 4) ≠ 1 then return (1, none)
  match ← readName buf headerSize with
  | none => return (1, none)
  | some pos =>
    if ← tooShort buf pos 1 then return (1, none)
    if ← tooShort buf (pos + 1) 4 then return (1, none)
    let ancount ← uint16At buf 6
    if ancount < 1 then return (1, none)
    match ← answerLoop buf ancount (pos + 5) [] with
    | none => return (1, none)
    | some retads => return (0, some retads)

/-! ## The request -/

/-- `gen_tid`: the identifier and the counter afterwards. -/
def genTid (gtid : Nat) : Nat × Nat := (gtid, (gtid + 1) % 2 ^ 16)

/-- The loop over the labels of the name, which ends where its list does: whether there
was room, the buffer and the position. `len` is an `int`. -/
def packLoop (maxsize : Nat) :
    Nat → Block UInt8 → Nat → List UInt8 → Except Fault (Bool × Block UInt8 × Nat)
  | 0, _, _, _ => .error .starved
  | fuel + 1, buf, pos, pname => do
    let ppos := pname.findIdx? (· = 46)
    let len := toInt32 (ppos.getD pname.length)
    if maxsize < (← addInt32 (← int32 (pos + 1)) len) then return (false, buf, pos)
    let buf ← store buf pos [some (.ofInt len)]
    let len ← copySize len
    let buf ← store buf (pos + 1) ((pname.take len).map some)
    match ppos with
    | some i => packLoop maxsize fuel buf (pos + 1 + len) (pname.drop (i + 1))
    | none => return (true, buf, pos + 1 + len)

theorem ofInt_natCast (n : Nat) : UInt8.ofInt n = .ofNat n := by
  apply UInt8.toNat_inj.mp
  simp only [UInt8.ofInt, UInt8.toNat_ofNat']
  omega

structure Packed where
  ret : Nat
  size : Nat
  buf : Block UInt8
  gtid : Nat

def codnsPackRequest (gtid : Nat) (buf : Block UInt8) (size : Nat) (name : List UInt8) :
    Except Fault Packed := do
  let maxsize := size
  if maxsize < headerSize then return ⟨1, size, buf, gtid⟩
  let (tid, gtid) := genTid gtid
  let header := htons tid ++ htons 0x0100 ++ htons 1 ++ htons 0 ++ htons 0 ++ htons 0
  let buf ← store buf 0 (header.map some)
  let (room, buf, pos) ← packLoop maxsize (name.length + 1) buf headerSize name
  if ¬ room then return ⟨1, size, buf, gtid⟩
  if maxsize < (← int32 (pos + 1)) then return ⟨1, size, buf, gtid⟩
  let buf ← store buf pos [some 0]
  if maxsize < (← int32 (pos + 1 + 2)) then return ⟨1, size, buf, gtid⟩
  let buf ← store buf (pos + 1) ((htons dnsTypeA).map some)
  if maxsize < (← int32 (pos + 3 + 2)) then return ⟨1, size, buf, gtid⟩
  let buf ← store buf (pos + 3) ((htons dnsClassIN).map some)
  return ⟨0, pos + 5, buf, gtid⟩

end Colinlib.Source.DnsUtils
