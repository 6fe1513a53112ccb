import Colinlib.Source.Buffer

/-!
# Integers read back as they were written

Any mix of the eight integer types is written to a fresh buffer and read back from position
zero. The bytes in between are those of the buffer's order on a host of either order. A run
is abandoned only where a signed intermediate value leaves the `int` range, which takes more
than 2^30 bytes.
-/
namespace Colinlib.Guarantees.IntegerRoundTrip
open Colinlib.Theory Colinlib.Theory.CMemory Colinlib.Theory.ByteMemory Colinlib.Theory.ByteOrder
open Colinlib.Theory.Runs (Outcome)
open Colinlib.Source.Buffer

inductive IntType where
  | int8 | uint8 | int16 | uint16 | int32 | uint32 | int64 | uint64
  deriving DecidableEq, Repr

inductive Value where
  | int8 (v : Int8) | uint8 (v : UInt8) | int16 (v : Int16) | uint16 (v : UInt16)
  | int32 (v : Int32) | uint32 (v : UInt32) | int64 (v : Int64) | uint64 (v : UInt64)
  deriving DecidableEq, Repr

def Value.type : Value → IntType
  | .int8 _ => .int8
  | .uint8 _ => .uint8
  | .int16 _ => .int16
  | .uint16 _ => .uint16
  | .int32 _ => .int32
  | .uint32 _ => .uint32
  | .int64 _ => .int64
  | .uint64 _ => .uint64

/-- The bytes of the type. -/
def IntType.width : IntType → Nat
  | .int8 | .uint8 => 1
  | .int16 | .uint16 => 2
  | .int32 | .uint32 => 4
  | .int64 | .uint64 => 8

def Value.bits : Value → Nat
  | .int8 v => v.toBitVec.toNat
  | .uint8 v => v.toBitVec.toNat
  | .int16 v => v.toBitVec.toNat
  | .uint16 v => v.toBitVec.toNat
  | .int32 v => v.toBitVec.toNat
  | .uint32 v => v.toBitVec.toNat
  | .int64 v => v.toBitVec.toNat
  | .uint64 v => v.toBitVec.toNat

def cobufferWriteValue (host : Host) (bf : Cobuffer) : Value → Except Fault Cobuffer
  | .int8 v => cobufferWriteInt8 host bf v
  | .uint8 v => cobufferWriteUint8 host bf v
  | .int16 v => cobufferWriteInt16 host bf v
  | .uint16 v => cobufferWriteUint16 host bf v
  | .int32 v => cobufferWriteInt32 host bf v
  | .uint32 v => cobufferWriteUint32 host bf v
  | .int64 v => cobufferWriteInt64 host bf v
  | .uint64 v => cobufferWriteUint64 host bf v

/-- The result of a read with its type. -/
def tagged {β : Type} (tag : β → Value) (read : Except Fault (Bool × Option β × Cobuffer)) :
    Except Fault ((Bool × Option Value) × Cobuffer) := do
  let (succ, v, bf) ← read
  .ok ((succ, v.map tag), bf)

def cobufferReadType (host : Host) (bf : Cobuffer) :
    IntType → Except Fault ((Bool × Option Value) × Cobuffer)
  | .int8 => tagged .int8 (cobufferReadInt8 host bf)
  | .uint8 => tagged .uint8 (cobufferReadUint8 host bf)
  | .int16 => tagged .int16 (cobufferReadInt16 host bf)
  | .uint16 => tagged .uint16 (cobufferReadUint16 host bf)
  | .int32 => tagged .int32 (cobufferReadInt32 host bf)
  | .uint32 => tagged .uint32 (cobufferReadUint32 host bf)
  | .int64 => tagged .int64 (cobufferReadInt64 host bf)
  | .uint64 => tagged .uint64 (cobufferReadUint64 host bf)

def writeAll (host : Host) : Cobuffer → List Value → Except Fault Cobuffer
  | bf, [] => .ok bf
  | bf, v :: rest => do
    let bf ← cobufferWriteValue host bf v
    writeAll host bf rest

def readAll (host : Host) : Cobuffer → List IntType →
    Except Fault (List (Bool × Option Value) × Cobuffer)
  | bf, [] => .ok ([], bf)
  | bf, t :: rest => do
    let (out, bf) ← cobufferReadType host bf t
    let (outs, bf) ← readAll host bf rest
    .ok (out :: outs, bf)

/-- An object of `n` bytes in the order of the buffer. -/
def represent (host : Host) (endian : CbEndian) (n v : Nat) : List UInt8 :=
  match endian with
  | .little => encode n v
  | .big => (encode n v).reverse
  | .native => host.bytes n v

def image (host : Host) (endian : CbEndian) (v : Value) : List UInt8 :=
  represent host endian v.type.width v.bits

def images (host : Host) (endian : CbEndian) (values : List Value) : List UInt8 :=
  values.flatMap (image host endian)

example : images .little .big [.int16 (-2), .uint8 7] = [0xff, 0xfe, 7] := by decide

section
variable {host : Host} {bf : Cobuffer}

@[simp] theorem image_length (endian : CbEndian) (v : Value) :
    (image host endian v).length = v.type.width := by
  cases endian <;> simp [image, represent]

theorem width_pos (t : IntType) : 0 < t.width := by cases t <;> decide

theorem bits_lt (v : Value) : v.bits < 256 ^ v.type.width := by
  cases v with
  | int8 v | uint8 v | int16 v | uint16 v | int32 v | uint32 v | int64 v | uint64 v =>
      exact v.toBitVec.isLt

/-- One byte is the same in every order. -/
theorem bytes_one (endian : CbEndian) (v : Nat) : host.bytes 1 v = represent host endian 1 v := by
  cases endian <;> cases host <;> rfl

theorem writeByte_eq (host : Host) (bf : Cobuffer) (v : Nat) :
    writeByte host bf v = cobufferWrite bf (some (represent host bf.endian 1 v)) 1 := by
  rw [writeByte, ← bytes_one]

theorem writeWord_eq (host : Host) (bf : Cobuffer) (n v : Nat) :
    writeWord host bf n v = cobufferWrite bf (some (represent host bf.endian n v)) n := by
  unfold writeWord represent
  cases bf.endian with
  | little => simp only [bytes_htole]
  | big => simp only [bytes_htobe]
  | native => rfl

theorem cobufferWriteValue_eq (host : Host) (bf : Cobuffer) (v : Value) :
    cobufferWriteValue host bf v =
      cobufferWrite bf (some (image host bf.endian v)) (image host bf.endian v).length := by
  rw [image_length]
  cases v with
  | int8 v | uint8 v => exact writeByte_eq host bf _
  | int16 v | uint16 v => exact writeWord_eq host bf 2 _
  | int32 v | uint32 v => exact writeWord_eq host bf 4 _
  | int64 v | uint64 v => exact writeWord_eq host bf 8 _

theorem writeAll_spec {data : List UInt8} (h : Written bf data) (values : List Value) :
    Outcome (Overflows (data ++ images host bf.endian values).length) (fun bf' =>
      Written bf' (data ++ images host bf.endian values) ∧ bf'.endian = bf.endian ∧
        bf.size ≤ bf'.size) (writeAll host bf values) := by
  induction values generalizing bf data with
  | nil =>
      rw [images, List.flatMap_nil, List.append_nil]
      exact ⟨h, rfl, Nat.le_refl _⟩
  | cons v rest ih =>
      have split : data ++ images host bf.endian (v :: rest) =
          (data ++ image host bf.endian v) ++ images host bf.endian rest := by
        rw [images, List.flatMap_cons, List.append_assoc]
        rfl
      have some' : 0 < (image host bf.endian v).length := by
        rw [image_length]
        exact width_pos _
      rw [split, writeAll, cobufferWriteValue_eq]
      have wrote := cobufferWrite_spec h some'
      have part : (data ++ image host bf.endian v).length ≤
          ((data ++ image host bf.endian v) ++ images host bf.endian rest).length := by
        rw [@List.length_append _ (data ++ _)]
        exact Nat.le_add_right _ _
      refine (wrote.weaken fun f stop => stop.mono part).bind ?_
      rintro bf₁ ⟨written, endian, larger⟩
      have later := ih written
      rw [endian] at later
      exact later.mono fun bf₂ done => ⟨done.1, done.2.1, Nat.le_trans larger done.2.2⟩

/-- The value bits that come out of what a value's bits were stored as. -/
theorem readWord_spec {n v : Nat} {bf' : Cobuffer} (small : v < 256 ^ n)
    (read : cobufferRead bf n = .ok (some ((represent host bf.endian n v).map some), bf'))
    (endian : bf'.endian = bf.endian) :
    readWord host bf n = .ok (true, some v, bf') := by
  have back : decode (encode n v) = v := by rw [decode_encode, Nat.mod_eq_of_lt small]
  unfold readWord
  rw [read, ok_bind]
  simp only [determinate_some, endian, represent]
  cases bf.endian with
  | little =>
      have loaded := letoh_value host (encode n v)
      rw [encode_length] at loaded
      simp only [Option.map_some, loaded, back]
  | big =>
      have loaded := betoh_value host (encode n v).reverse
      rw [List.length_reverse, encode_length, List.reverse_reverse] at loaded
      simp only [Option.map_some, loaded, back]
  | native => simp only [Option.map_some, value_bytes, Nat.mod_eq_of_lt small]

theorem readByte_spec {v : Nat} {bf' : Cobuffer} (small : v < 256 ^ 1)
    (read : cobufferRead bf 1 = .ok (some ((represent host bf.endian 1 v).map some), bf')) :
    readByte host bf = .ok (true, some v, bf') := by
  unfold readByte
  rw [read, ok_bind, ← bytes_one]
  simp only [determinate_some, Option.map_some, value_bytes, Nat.mod_eq_of_lt small]

/-- The bits of a value make the value. -/
theorem ofNat_toNat {n : Nat} (v : BitVec n) : BitVec.ofNat n v.toNat = v :=
  (BitVec.ofNat_toNat n v).trans (BitVec.setWidth_eq v)

theorem tagged_typed {β : Type} {tag : β → Value} {ofBits : Nat → β} {v : β} {bits : Nat}
    {read : Except Fault (Bool × Option Nat × Cobuffer)} {bf' : Cobuffer}
    (bytes : read = .ok (true, some bits, bf')) (back : ofBits bits = v) :
    tagged tag (typed ofBits read) = .ok ((true, some (tag v)), bf') := by
  subst bytes back
  rfl

theorem cobufferReadType_spec {v : Value} {bf' : Cobuffer}
    (read : cobufferRead bf v.type.width = .ok (some ((image host bf.endian v).map some), bf'))
    (endian : bf'.endian = bf.endian) :
    cobufferReadType host bf v.type = .ok ((true, some v), bf') := by
  have small := bits_lt v
  cases v with
  | int8 v =>
      exact tagged_typed (readByte_spec small read)
        (congrArg Int8.ofBitVec (ofNat_toNat v.toBitVec))
  | uint8 v =>
      exact tagged_typed (readByte_spec small read)
        (congrArg UInt8.ofBitVec (ofNat_toNat v.toBitVec))
  | int16 v =>
      exact tagged_typed (readWord_spec small read endian)
        (congrArg Int16.ofBitVec (ofNat_toNat v.toBitVec))
  | uint16 v =>
      exact tagged_typed (readWord_spec small read endian)
        (congrArg UInt16.ofBitVec (ofNat_toNat v.toBitVec))
  | int32 v =>
      exact tagged_typed (readWord_spec small read endian)
        (congrArg Int32.ofBitVec (ofNat_toNat v.toBitVec))
  | uint32 v =>
      exact tagged_typed (readWord_spec small read endian)
        (congrArg UInt32.ofBitVec (ofNat_toNat v.toBitVec))
  | int64 v =>
      exact tagged_typed (readWord_spec small read endian)
        (congrArg Int64.ofBitVec (ofNat_toNat v.toBitVec))
  | uint64 v =>
      exact tagged_typed (readWord_spec small read endian)
        (congrArg UInt64.ofBitVec (ofNat_toNat v.toBitVec))

theorem readAll_spec {pre : List UInt8} (values : List Value)
    (bytes : slice bf.buffer 0 (pre ++ images host bf.endian values).length =
      (pre ++ images host bf.endian values).map some)
    (allocated : bf.buffer.length = bf.size)
    (inside : (pre ++ images host bf.endian values).length ≤ bf.size)
    (small : bf.size ≤ intMax) (pos : bf.pos = pre.length) :
    readAll host bf (values.map Value.type) = .ok (values.map (fun v => (true, some v)),
      { bf with pos := (pre ++ images host bf.endian values).length }) := by
  induction values generalizing bf pre with
  | nil =>
      rw [images, List.flatMap_nil, List.append_nil, ← pos]
      rfl
  | cons v rest ih =>
      have split : pre ++ images host bf.endian (v :: rest) =
          (pre ++ image host bf.endian v) ++ images host bf.endian rest := by
        rw [images, List.flatMap_cons, List.append_assoc]
        rfl
      rw [split] at bytes inside ⊢
      have read := cobufferRead_spec bytes allocated inside small pos
      rw [image_length] at read
      have first := cobufferReadType_spec read rfl
      have later := @ih { bf with pos := (pre ++ image host bf.endian v).length }
        (pre ++ image host bf.endian v) bytes allocated inside small rfl
      rw [List.map_cons, readAll, first, ok_bind]
      simp only [later, ok_bind, List.map_cons]

end

theorem cobufferNew_written (bufsz : Int32) (endian : CbEndian) :
    ∃ bf, cobufferNew none bufsz endian = .ok bf ∧ Written bf [] ∧ bf.endian = endian ∧
      0 < bf.size := by
  have above := bufsz.toInt_lt
  have enough : 32 ≤ (max bufsz.toInt minBuffSize).toNat := by
    unfold minBuffSize
    omega
  refine ⟨_, rfl, ⟨malloc_length _, ?_, Nat.zero_le _, rfl, rfl⟩, rfl, ?_⟩
  · simp only [intMax, minBuffSize]
    omega
  · simp only
    omega

end Colinlib.Guarantees.IntegerRoundTrip
