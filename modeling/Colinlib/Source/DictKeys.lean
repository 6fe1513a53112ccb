import Colinlib.Source.DictContents
import Colinlib.Theory.CStreams

/-!
# The keys of the dictionary, and its release (`co_dict.c`)

A string key is a pointer: the dictionary stores the pointer, and the callbacks read the
string that is behind it when they are called. Memory is its bytes from address 0 on.
-/
namespace Colinlib.Source.Dict
open Colinlib.Theory Colinlib.Theory.CMemory Colinlib.Theory.CStreams

abbrev Memory := List UInt8

/-- The string behind a pointer. -/
def text (mem : Memory) (str : Nat) : List UInt8 := cstring (mem.drop str)

/-- There is a zero byte behind the pointer. -/
def Terminated (mem : Memory) (str : Nat) : Prop := 0 ∈ mem.drop str

instance (mem : Memory) (str : Nat) : Decidable (Terminated mem str) :=
  inferInstanceAs (Decidable (_ ∈ _))

def fnv64Prime : UInt64 := 1099511628211
def fnv64Offset : UInt64 := 14695981039346656037

/-- One turn of the loop of `codict_fnv1a64_hash`. -/
def fnvTurn (hash : UInt64) (byte : UInt8) : UInt64 := (hash ^^^ byte.toUInt64) * fnv64Prime

def codictFnv1a64Hash (bytes : List UInt8) : UInt64 := bytes.foldl fnvTurn fnv64Offset

/-- `int len = strlen(str)` as it becomes the `size_t len` of `codict_fnv1a64_hash`. Of a
negative `int` the loop sees an end before its beginning, and reads nothing. -/
def hashedSize (len : Nat) : Nat := if len % 2 ^ 32 < 2 ^ 31 then len % 2 ^ 32 else 0

def codictStrHash (mem : Memory) (key : Nat) : UInt64 :=
  let str := text mem key
  codictFnv1a64Hash (str.take (hashedSize str.length))

/-- `strcmp` is zero for the same strings. -/
def codictStrEqual (mem : Memory) (key1 key2 : Nat) : Bool := text mem key1 == text mem key2

def codictPtrHash (key : UInt64) : UInt64 := key

def codictPtrEqual (key1 key2 : UInt64) : Bool := key1 == key2

/-- `codict_free`: the nodes that are left when the buckets and the dictionary itself are
released too. -/
def codictFree {κ υ : Type} (dict : Codict κ υ) : Except Fault (Nat → Option (Node κ υ)) := do
  let dict ← codictClear dict
  .ok dict.nodes

section Callbacks

theorem codictPtr_lawful : Lawful codictPtrHash codictPtrEqual := lawful_of_beq codictPtrHash

/-- The two callbacks look at the strings, and at nothing else of the pointers. -/
theorem codictStr_lawful (mem : Memory) : Lawful (codictStrHash mem) (codictStrEqual mem) where
  equiv := ⟨fun _ => beq_self_eq_true _, fun h => beq_iff_eq.mpr (beq_iff_eq.mp h).symm,
    fun h h' => beq_iff_eq.mpr ((beq_iff_eq.mp h).trans (beq_iff_eq.mp h'))⟩
  hash x y h := by
    have same : text mem x = text mem y := beq_iff_eq.mp h
    rw [codictStrHash, codictStrHash, same]

end Callbacks

section Fnv

/-- The prime is odd, so a product with it can be undone. -/
theorem fnv64Prime_inverse : fnv64Prime * 0xce965057aff6957b = 1 := by decide

theorem mul_fnv64Prime_inj {x y : UInt64} (h : x * fnv64Prime = y * fnv64Prime) : x = y := by
  have undone := congrArg (· * 0xce965057aff6957b) h
  simpa only [UInt64.mul_assoc, fnv64Prime_inverse, UInt64.mul_one] using undone

theorem fnvTurn_inj {hash hash' : UInt64} {byte : UInt8}
    (h : fnvTurn hash byte = fnvTurn hash' byte) : hash = hash' := by
  have mixed := mul_fnv64Prime_inj h
  have undone := congrArg (· ^^^ byte.toUInt64) mixed
  simpa only [UInt64.xor_assoc, UInt64.xor_self, UInt64.xor_zero] using undone

theorem fnvTurn_byte_inj {hash : UInt64} {byte byte' : UInt8}
    (h : fnvTurn hash byte = fnvTurn hash byte') : byte = byte' := by
  have mixed := mul_fnv64Prime_inj h
  have undone := congrArg (hash ^^^ ·) mixed
  simp only [← UInt64.xor_assoc, UInt64.xor_self, UInt64.zero_xor] at undone
  exact UInt8.toUInt64_inj.mp undone

/-- What follows two prefixes alike neither joins nor separates their hashes. -/
theorem fnv_suffix (bytes : List UInt8) (hash hash' : UInt64) :
    bytes.foldl fnvTurn hash = bytes.foldl fnvTurn hash' ↔ hash = hash' := by
  induction bytes generalizing hash hash' with
  | nil => exact Iff.rfl
  | cons byte rest ih =>
      rw [List.foldl_cons, List.foldl_cons, ih]
      exact ⟨fnvTurn_inj, fun h => h ▸ rfl⟩

/-- One other byte gives another hash. -/
theorem codictFnv1a64Hash_one_byte (pre post : List UInt8) {byte byte' : UInt8}
    (other : byte ≠ byte') : codictFnv1a64Hash (pre ++ byte :: post) ≠
      codictFnv1a64Hash (pre ++ byte' :: post) := by
  unfold codictFnv1a64Hash
  rw [List.foldl_append, List.foldl_append, List.foldl_cons, List.foldl_cons, Ne, fnv_suffix]
  exact fun same => other (fnvTurn_byte_inj same)

end Fnv

end Colinlib.Source.Dict
