import Colinlib.Theory.CMemory
import Colinlib.Theory.ByteOrder
import Colinlib.Theory.Runs

/-!
# The read and write buffer (`co_buffer.c`)

Sizes and positions are `int` in the source; the model keeps them as naturals and
range-checks each sum and product the source computes. An object that was not read is
indeterminate (`none`). The order of the host's bytes is a parameter.
-/
namespace Colinlib.Source.Buffer
open Colinlib.Theory Colinlib.Theory.CMemory Colinlib.Theory.ByteOrder Colinlib.Theory.Runs

inductive CbEndian where
  | native | little | big
  deriving DecidableEq, Repr

structure Cobuffer where
  buffer : Block UInt8
  size : Nat
  pos : Nat
  endian : CbEndian
  deriving DecidableEq, Repr

def minBuffSize : Nat := 32

def wbCheckAndGrow (bf : Cobuffer) (size : Nat) : Except Fault Cobuffer := do
  let sum ← int32 (bf.pos + size)
  if sum > bf.size then
    let doubled ← int32 (bf.size * 2)
    let newsize := max sum doubled
    .ok { bf with buffer := realloc bf.buffer newsize, size := newsize }
  else .ok bf

/-- A null `buffer` leaves the bytes as they are. -/
def cobufferWrite (bf : Cobuffer) (buffer : Option (List UInt8)) (size : Nat) :
    Except Fault Cobuffer := do
  let bf ← wbCheckAndGrow bf size
  let bytes ← match buffer with
    | some data => do
      let cells ← load (data.map some) 0 size
      store bf.buffer bf.pos cells
    | none => .ok bf.buffer
  let pos ← int32 (bf.pos + size)
  .ok { bf with buffer := bytes, pos := pos }

/-- A negative `bufsz` with a buffer makes `memcpy` leave it. -/
def cobufferNew (buffer : Option (List UInt8)) (bufsz : Int32) (endian : CbEndian) :
    Except Fault Cobuffer :=
  let size := (max bufsz.toInt minBuffSize).toNat
  let bf : Cobuffer := { buffer := malloc UInt8 size, size, pos := 0, endian }
  match buffer with
  | some data =>
    if bufsz.toInt = 0 then .ok bf
    else if bufsz.toInt < 0 then .error .outOfBounds
    else cobufferWrite bf (some data) bufsz.toInt.toNat
  | none => .ok bf

/-- `CO_CLAMP(pos, 0, bf->size-1)`. -/
def clamp (pos : Int) (size : Nat) : Nat := (max 0 (min pos (size - 1))).toNat

/-- A signed 32-bit intermediate value. -/
def signed32 (i : Int) : Except Fault Int :=
  if -2 ^ 31 ≤ i ∧ i < 2 ^ 31 then .ok i else .error .intOverflow

def cobufferSeek (bf : Cobuffer) (abs : Bool) (pos : Int32) : Except Fault (Nat × Cobuffer) := do
  let pos ← if !abs then signed32 (pos.toInt + bf.pos)
    else if pos.toInt < 0 then signed32 (bf.size - pos.toInt)
    else .ok pos.toInt
  .ok (clamp pos bf.size, { bf with pos := clamp pos bf.size })

/-- The bytes that are copied out, where enough are left. -/
def cobufferRead (bf : Cobuffer) (size : Nat) :
    Except Fault (Option (List (Option UInt8)) × Cobuffer) := do
  let sum ← int32 (bf.pos + size)
  if sum ≤ bf.size then
    let cells ← load bf.buffer bf.pos size
    .ok (some cells, { bf with pos := sum })
  else .ok (none, bf)

/-! ## Integers -/

/-- The bytes of an object, if all of them were stored. -/
def determinate : List (Option UInt8) → Option (List UInt8)
  | [] => some []
  | none :: _ => none
  | some b :: rest => (determinate rest).map (b :: ·)

@[simp] theorem determinate_some (bytes : List UInt8) : determinate (bytes.map some) = some bytes := by
  induction bytes with
  | nil => rfl
  | cons b rest ih =>
      rw [List.map_cons, determinate, ih]
      rfl

/-- `cobuffer_write_int8` and its unsigned partner convert nothing. -/
def writeByte (host : Host) (bf : Cobuffer) (v : Nat) : Except Fault Cobuffer :=
  cobufferWrite bf (some (host.bytes 1 v)) 1

/-- The wider ones convert in the order of the buffer; `v` are the value bits. -/
def writeWord (host : Host) (bf : Cobuffer) (n v : Nat) : Except Fault Cobuffer :=
  let v := match bf.endian with
    | .little => htole host n v
    | .big => htobe host n v
    | .native => v
  cobufferWrite bf (some (host.bytes n v)) n

/-- Whether the read succeeded, and the value bits. -/
def readByte (host : Host) (bf : Cobuffer) : Except Fault (Bool × Option Nat × Cobuffer) := do
  match ← cobufferRead bf 1 with
  | (none, bf) => .ok (false, none, bf)
  | (some cells, bf) => .ok (true, (determinate cells).map host.value, bf)

def readWord (host : Host) (bf : Cobuffer) (n : Nat) :
    Except Fault (Bool × Option Nat × Cobuffer) := do
  match ← cobufferRead bf n with
  | (none, bf) => .ok (false, none, bf)
  | (some cells, bf) =>
    let v := (determinate cells).map host.value
    let v := match bf.endian with
      | .little => v.map (letoh host n)
      | .big => v.map (betoh host n)
      | .native => v
    .ok (true, v, bf)

section
variable (host : Host) (bf : Cobuffer)

def cobufferWriteInt8 (v : Int8) : Except Fault Cobuffer := writeByte host bf v.toBitVec.toNat

def cobufferWriteUint8 (v : UInt8) : Except Fault Cobuffer := writeByte host bf v.toBitVec.toNat

def cobufferWriteInt16 (v : Int16) : Except Fault Cobuffer := writeWord host bf 2 v.toBitVec.toNat

def cobufferWriteUint16 (v : UInt16) : Except Fault Cobuffer := writeWord host bf 2 v.toBitVec.toNat

def cobufferWriteInt32 (v : Int32) : Except Fault Cobuffer := writeWord host bf 4 v.toBitVec.toNat

def cobufferWriteUint32 (v : UInt32) : Except Fault Cobuffer := writeWord host bf 4 v.toBitVec.toNat

def cobufferWriteInt64 (v : Int64) : Except Fault Cobuffer := writeWord host bf 8 v.toBitVec.toNat

def cobufferWriteUint64 (v : UInt64) : Except Fault Cobuffer := writeWord host bf 8 v.toBitVec.toNat

/-- The value read is the bits in the type that is read. -/
def typed {β : Type} (ofBits : Nat → β) (read : Except Fault (Bool × Option Nat × Cobuffer)) :
    Except Fault (Bool × Option β × Cobuffer) := do
  let (succ, v, bf) ← read
  .ok (succ, v.map ofBits, bf)

def cobufferReadInt8 : Except Fault (Bool × Option Int8 × Cobuffer) :=
  typed (fun v => .ofBitVec (.ofNat 8 v)) (readByte host bf)

def cobufferReadUint8 : Except Fault (Bool × Option UInt8 × Cobuffer) :=
  typed (fun v => .ofBitVec (.ofNat 8 v)) (readByte host bf)

def cobufferReadInt16 : Except Fault (Bool × Option Int16 × Cobuffer) :=
  typed (fun v => .ofBitVec (.ofNat 16 v)) (readWord host bf 2)

def cobufferReadUint16 : Except Fault (Bool × Option UInt16 × Cobuffer) :=
  typed (fun v => .ofBitVec (.ofNat 16 v)) (readWord host bf 2)

def cobufferReadInt32 : Except Fault (Bool × Option Int32 × Cobuffer) :=
  typed (fun v => .ofBitVec (.ofNat 32 v)) (readWord host bf 4)

def cobufferReadUint32 : Except Fault (Bool × Option UInt32 × Cobuffer) :=
  typed (fun v => .ofBitVec (.ofNat 32 v)) (readWord host bf 4)

def cobufferReadInt64 : Except Fault (Bool × Option Int64 × Cobuffer) :=
  typed (fun v => .ofBitVec (.ofNat 64 v)) (readWord host bf 8)

def cobufferReadUint64 : Except Fault (Bool × Option UInt64 × Cobuffer) :=
  typed (fun v => .ofBitVec (.ofNat 64 v)) (readWord host bf 8)

end

/-! ## What was written -/

/-- The bytes `data` lie before the position, and the position is inside. -/
structure Written (bf : Cobuffer) (data : List UInt8) : Prop where
  allocated : bf.buffer.length = bf.size
  small : bf.size ≤ intMax
  inside : bf.pos ≤ bf.size
  pos : bf.pos = data.length
  bytes : slice bf.buffer 0 bf.pos = data.map some

/-- No sum and no product of a write that ends at `n` overflows where `n` is 2^30 at most. -/
def Overflows (n : Nat) (f : Fault) : Prop := f = .intOverflow ∧ 2 ^ 30 < n

theorem Overflows.mono {n m : Nat} {f : Fault} (h : Overflows n f) (le : n ≤ m) : Overflows m f :=
  ⟨h.1, Nat.lt_of_lt_of_le h.2 le⟩

theorem int32_outcome {m n : Nat} (small : m ≤ 2 * n - 1) :
    Outcome (Overflows n) (fun r => r = m ∧ m ≤ intMax) (int32 m) := by
  unfold int32 intMax
  split
  · next fits => exact ⟨rfl, fits⟩
  · exact ⟨rfl, by omega⟩

theorem wbCheckAndGrow_spec {bf : Cobuffer} {data : List UInt8} (h : Written bf data) {n : Nat}
    (some' : 0 < n) : Outcome (Overflows (data.length + n)) (fun grown => Written grown data ∧
      grown.pos + n ≤ grown.size ∧ grown.endian = bf.endian ∧ bf.size ≤ grown.size)
      (wbCheckAndGrow bf n) := by
  have pos := h.pos
  have inside := h.inside
  unfold wbCheckAndGrow
  refine (int32_outcome (by omega)).bind ?_
  rintro sum ⟨rfl, fits⟩
  by_cases exceeds : bf.pos + n > bf.size
  · rw [if_pos exceeds]
    refine (int32_outcome (by omega)).bind ?_
    rintro doubled ⟨rfl, fits'⟩
    refine ⟨⟨realloc_length _ _, Nat.max_le.mpr ⟨fits, fits'⟩, ?_, h.pos, ?_⟩,
      Nat.le_max_left _ _, rfl, ?_⟩
    · simp only
      omega
    · simp only
      rw [slice_realloc _ _ _ _ (by rw [h.allocated]; omega) (by omega)]
      exact h.bytes
    · simp only
      omega
  · rw [if_neg exceeds]
    exact ⟨h, by omega, rfl, Nat.le_refl _⟩

theorem cobufferWrite_spec {bf : Cobuffer} {data : List UInt8} (h : Written bf data)
    {more : List UInt8} (some' : 0 < more.length) :
    Outcome (Overflows (data ++ more).length) (fun bf' => Written bf' (data ++ more) ∧
      bf'.endian = bf.endian ∧ bf.size ≤ bf'.size)
      (cobufferWrite bf (some more) more.length) := by
  rw [List.length_append]
  unfold cobufferWrite
  refine (wbCheckAndGrow_spec h some').bind ?_
  rintro grown ⟨written, room, endian, larger⟩
  have pos := written.pos
  have whole : load (more.map some) 0 more.length = .ok (more.map some) := by
    rw [load, if_pos (by simp), slice, List.drop_zero, List.take_of_length_le (by simp)]
  have bound : grown.pos + (more.map some).length ≤ grown.buffer.length := by
    rw [List.length_map, written.allocated]
    exact room
  simp only [whole, ok_bind]
  rw [store, if_pos bound, ok_bind]
  refine (int32_outcome (by omega)).bind ?_
  rintro sum ⟨rfl, -⟩
  refine ⟨⟨(splice_length _ _ _ bound).trans written.allocated, written.small, room, ?_, ?_⟩,
    endian, larger⟩
  · simp [pos]
  · have before := slice_splice_frame grown.buffer grown.pos 0 grown.pos (more.map some) bound
      (.inl (by omega))
    have here := slice_splice_same grown.buffer grown.pos (more.map some) bound
    rw [List.length_map] at here
    simp only
    rw [← slice_append, before, written.bytes, Nat.zero_add, here, List.map_append]

/-- A read inside what was written returns it, and moves behind it. -/
theorem cobufferRead_spec {bf : Cobuffer} {pre more post : List UInt8}
    (bytes : slice bf.buffer 0 (pre ++ more ++ post).length = (pre ++ more ++ post).map some)
    (allocated : bf.buffer.length = bf.size) (inside : (pre ++ more ++ post).length ≤ bf.size)
    (small : bf.size ≤ intMax) (pos : bf.pos = pre.length) :
    cobufferRead bf more.length =
      .ok (some (more.map some), { bf with pos := (pre ++ more).length }) := by
  have total : (pre ++ more ++ post).length = pre.length + more.length + post.length := by
    rw [List.length_append, List.length_append]
  have here : slice bf.buffer bf.pos more.length = more.map some := by
    have part := congrArg (fun cells => (cells.drop pre.length).take more.length) bytes
    beta_reduce at part
    rw [slice_drop, slice_take _ _ _ _ (by omega), Nat.zero_add, ← pos] at part
    rw [part, pos]
    simp [List.map_append]
  unfold cobufferRead
  rw [int32, if_pos (by omega), ok_bind, if_pos (by omega), load, if_pos (by omega), ok_bind, here,
    pos, List.length_append]

/-! ## The states of a buffer -/

/-- What every function keeps. -/
structure Sound (bf : Cobuffer) : Prop where
  allocated : bf.buffer.length = bf.size
  least : minBuffSize ≤ bf.size
  small : bf.size ≤ intMax
  inside : bf.pos ≤ bf.size

theorem int32_ok {n m : Nat} (h : int32 n = .ok m) : m = n ∧ n ≤ intMax := by
  unfold int32 at h
  split at h
  · next fits => exact ⟨(Except.ok.inj h).symm, fits⟩
  · cases h

theorem store_ok {b b' : Block UInt8} {off : Nat} {cells : List (Option UInt8)}
    (h : store b off cells = .ok b') :
    off + cells.length ≤ b.length ∧ b' = splice b off cells := by
  unfold store at h
  split at h
  · next bound => exact ⟨bound, (Except.ok.inj h).symm⟩
  · cases h

theorem wbCheckAndGrow_sound {bf grown : Cobuffer} {n : Nat} (h : Sound bf)
    (grew : wbCheckAndGrow bf n = .ok grown) : Sound grown ∧ bf.size ≤ grown.size ∧
      grown.pos = bf.pos ∧ grown.endian = bf.endian ∧ bf.pos + n ≤ grown.size := by
  have least := h.least
  have inside := h.inside
  unfold wbCheckAndGrow at grew
  obtain ⟨sum, added, grew⟩ := bind_ok grew
  obtain ⟨rfl, fits⟩ := int32_ok added
  split at grew
  · next exceeds =>
      obtain ⟨doubled, twice, grew⟩ := bind_ok grew
      obtain ⟨rfl, fits'⟩ := int32_ok twice
      cases grew
      refine ⟨⟨realloc_length _ _, ?_, Nat.max_le.mpr ⟨fits, fits'⟩, ?_⟩, ?_, rfl, rfl,
        Nat.le_max_left _ _⟩ <;>
        · simp only
          omega
  · next room =>
      cases grew
      exact ⟨h, Nat.le_refl _, rfl, rfl, Nat.not_lt.mp room⟩

/-- A write that returns has moved the position by its size, and what it was given lies
before the position. -/
theorem cobufferWrite_sound {bf bf' : Cobuffer} {buffer : Option (List UInt8)} {n : Nat}
    (h : Sound bf) (wrote : cobufferWrite bf buffer n = .ok bf') : Sound bf' ∧
      bf.size ≤ bf'.size ∧ bf'.pos = bf.pos + n ∧ bf'.endian = bf.endian ∧
      ∀ data ∈ buffer, slice bf'.buffer bf.pos n = (data.take n).map some := by
  unfold cobufferWrite at wrote
  obtain ⟨grown, grew, wrote⟩ := bind_ok wrote
  obtain ⟨sound, larger, same, endian, room⟩ := wbCheckAndGrow_sound h grew
  have moved : ∀ {bytes : Block UInt8}, bytes.length = grown.size →
      (do let pos ← int32 (grown.pos + n); .ok { grown with buffer := bytes, pos := pos }) =
        Except.ok bf' → Sound bf' ∧ bf.size ≤ bf'.size ∧ bf'.pos = bf.pos + n ∧
          bf'.endian = bf.endian ∧ bf'.buffer = bytes := by
    intro bytes size done
    obtain ⟨pos, added, done⟩ := bind_ok done
    obtain ⟨rfl, -⟩ := int32_ok added
    cases done
    exact ⟨⟨size, sound.least, sound.small, by simp only; omega⟩, larger, by rw [same], endian, rfl⟩
  cases buffer with
  | none =>
      obtain ⟨sound', larger', pos, endian', -⟩ := moved sound.allocated wrote
      exact ⟨sound', larger', pos, endian', nofun⟩
  | some data =>
      simp only at wrote
      obtain ⟨cells, loaded, wrote⟩ := bind_ok wrote
      obtain ⟨bytes, stored, wrote⟩ := bind_ok wrote
      obtain ⟨bound, rfl⟩ := store_ok stored
      unfold load at loaded
      split at loaded
      case isFalse => cases loaded
      case isTrue whole =>
        have given : cells = (data.take n).map some := by
          rw [← Except.ok.inj loaded, slice, List.drop_zero, List.map_take]
        have width : cells.length = n := by
          rw [List.length_map, Nat.zero_add] at whole
          rw [given, List.length_map, List.length_take, Nat.min_eq_left whole]
        obtain ⟨sound', larger', pos, endian', buffer⟩ :=
          moved ((splice_length _ _ _ bound).trans sound.allocated) wrote
        refine ⟨sound', larger', pos, endian', fun d mem => ?_⟩
        obtain rfl := Option.some.inj mem
        have here := slice_splice_same grown.buffer grown.pos cells bound
        rw [width] at here
        rw [buffer, ← same, here, given]

/-- Only an overflow keeps a write from returning. -/
theorem cobufferWrite_returns {bf : Cobuffer} (h : Sound bf) (data : List UInt8) :
    Outcome (· = .intOverflow) (fun _ => True) (cobufferWrite bf (some data) data.length) := by
  have sums : ∀ n, Outcome (· = .intOverflow) (fun r => r = n) (int32 n) := fun n => by
    unfold int32
    split <;> rfl
  have grows : Outcome (· = .intOverflow) (fun grown => wbCheckAndGrow bf data.length = .ok grown)
      (wbCheckAndGrow bf data.length) := by
    generalize grown : wbCheckAndGrow bf data.length = x
    cases x with
    | ok bf' => rfl
    | error f =>
        have stops : Outcome (· = .intOverflow) (fun _ => True) (wbCheckAndGrow bf data.length) := by
          unfold wbCheckAndGrow
          refine (sums _).bind fun sum _ => ?_
          split
          · exact (sums _).bind fun _ _ => trivial
          · trivial
        rwa [grown] at stops
  have whole : load (data.map some) 0 data.length = .ok (data.map some) := by
    rw [load, if_pos (by simp), slice, List.drop_zero, List.take_of_length_le (by simp)]
  unfold cobufferWrite
  refine grows.bind fun grown grew => ?_
  obtain ⟨sound, -, same, -, room⟩ := wbCheckAndGrow_sound h grew
  have bound : grown.pos + (data.map some).length ≤ grown.buffer.length := by
    rw [List.length_map, sound.allocated, same]
    exact room
  simp only [whole, ok_bind]
  rw [store, if_pos bound, ok_bind]
  exact (sums _).bind fun _ _ => trivial

/-- A write with room enough does not grow the buffer and returns. -/
theorem cobufferWrite_room {bf : Cobuffer} (h : Sound bf) {data : List UInt8}
    (room : bf.pos + data.length ≤ bf.size) :
    ∃ bf', cobufferWrite bf (some data) data.length = .ok bf' := by
  have small := h.small
  have sum : int32 (bf.pos + data.length) = .ok (bf.pos + data.length) := if_pos (by omega)
  have stays : wbCheckAndGrow bf data.length = .ok bf := by
    rw [wbCheckAndGrow, sum, ok_bind, if_neg (Nat.not_lt.mpr room)]
  have whole : load (data.map some) 0 data.length = .ok (data.map some) := by
    rw [load, if_pos (by simp), slice, List.drop_zero, List.take_of_length_le (by simp)]
  have bound : bf.pos + (data.map some).length ≤ bf.buffer.length := by
    rw [List.length_map, h.allocated]
    exact room
  unfold cobufferWrite
  rw [stays, ok_bind]
  simp only [whole, ok_bind]
  rw [store, if_pos bound, ok_bind, sum]
  exact ⟨_, rfl⟩

theorem cobufferRead_sound {bf bf' : Cobuffer} {cells : Option (List (Option UInt8))} {n : Nat}
    (h : Sound bf) (done : cobufferRead bf n = .ok (cells, bf')) :
    Sound bf' ∧ bf.size ≤ bf'.size := by
  unfold cobufferRead at done
  obtain ⟨sum, added, done⟩ := bind_ok done
  obtain ⟨rfl, -⟩ := int32_ok added
  split at done
  · next room =>
      obtain ⟨loaded, -, done⟩ := bind_ok done
      cases done
      exact ⟨⟨h.allocated, h.least, h.small, room⟩, Nat.le_refl _⟩
  · cases done
    exact ⟨h, Nat.le_refl _⟩

/-- A read with enough left of the buffer. -/
theorem cobufferRead_inside {bf : Cobuffer} {n : Nat} (h : Sound bf) (room : bf.pos + n ≤ bf.size) :
    cobufferRead bf n = .ok (some (slice bf.buffer bf.pos n), { bf with pos := bf.pos + n }) := by
  have small := h.small
  have allocated := h.allocated
  unfold cobufferRead
  rw [int32, if_pos (by omega), ok_bind, if_pos room, load, if_pos (by omega), ok_bind]

/-- What a seek clamps. -/
def seekSum (bf : Cobuffer) (abs : Bool) (pos : Int32) : Int :=
  if !abs then pos.toInt + bf.pos else if pos.toInt < 0 then bf.size - pos.toInt else pos.toInt

theorem cobufferSeek_fits {bf : Cobuffer} {abs : Bool} {pos : Int32}
    (h : seekSum bf abs pos < 2 ^ 31) : cobufferSeek bf abs pos =
      .ok (clamp (seekSum bf abs pos) bf.size,
        { bf with pos := clamp (seekSum bf abs pos) bf.size }) := by
  have low := pos.le_toInt
  unfold seekSum at h ⊢
  unfold cobufferSeek signed32
  cases abs with
  | false =>
      simp only [Bool.not_false, if_true] at h ⊢
      rw [if_pos ⟨by omega, h⟩, ok_bind]
  | true =>
      simp only [Bool.not_true, Bool.false_eq_true, if_false] at h ⊢
      by_cases negative : pos.toInt < 0
      · simp only [if_pos negative] at h ⊢
        rw [if_pos ⟨by omega, h⟩, ok_bind]
      · simp only [if_neg negative, ok_bind]

theorem cobufferSeek_overflow {bf : Cobuffer} {abs : Bool} {pos : Int32}
    (h : 2 ^ 31 ≤ seekSum bf abs pos) : cobufferSeek bf abs pos = .error .intOverflow := by
  have high := pos.toInt_lt
  unfold seekSum at h
  unfold cobufferSeek signed32
  cases abs with
  | false =>
      simp only [Bool.not_false, if_true] at h ⊢
      rw [if_neg (by omega)]
      rfl
  | true =>
      simp only [Bool.not_true, Bool.false_eq_true, if_false] at h ⊢
      by_cases negative : pos.toInt < 0
      · simp only [if_pos negative] at h ⊢
        rw [if_neg (by omega)]
        rfl
      · simp only [if_neg negative] at h
        omega

theorem clamp_lt (pos : Int) {size : Nat} (some_bytes : 0 < size) : clamp pos size < size := by
  unfold clamp
  omega

theorem cobufferSeek_sound {bf bf' : Cobuffer} {abs : Bool} {pos : Int32} {p : Nat}
    (h : Sound bf) (sought : cobufferSeek bf abs pos = .ok (p, bf')) :
    Sound bf' ∧ bf.size ≤ bf'.size := by
  have least := h.least
  unfold minBuffSize at least
  by_cases fits : seekSum bf abs pos < 2 ^ 31
  · rw [cobufferSeek_fits fits] at sought
    cases sought
    exact ⟨⟨h.allocated, h.least, h.small, Nat.le_of_lt (clamp_lt _ (by omega))⟩, Nat.le_refl _⟩
  · rw [cobufferSeek_overflow (Int.not_lt.mp fits)] at sought
    cases sought

/-- A position before the end is where an absolute seek goes. -/
theorem cobufferSeek_before_end {bf : Cobuffer} (h : Sound bf) {p : Nat} (before : p < bf.size) :
    cobufferSeek bf true (.ofNat p) = .ok (p, { bf with pos := p }) := by
  have small := h.small
  unfold intMax at small
  have asked : (Int32.ofNat p).toInt = p := Int32.toInt_ofNat_of_lt (by omega)
  have summed : seekSum bf true (.ofNat p) = p := by
    rw [seekSum, asked, if_neg (by decide), if_neg (by omega)]
  have there : clamp p bf.size = p := by
    unfold clamp
    omega
  rw [cobufferSeek_fits (by omega), summed, there]

theorem cobufferNew_sound {buffer : Option (List UInt8)} {bufsz : Int32} {endian : CbEndian}
    {bf : Cobuffer} (made : cobufferNew buffer bufsz endian = .ok bf) : Sound bf := by
  have above := bufsz.toInt_lt
  have fresh : Sound ⟨malloc UInt8 (max bufsz.toInt minBuffSize).toNat,
      (max bufsz.toInt minBuffSize).toNat, 0, endian⟩ := by
    refine ⟨malloc_length _, ?_, ?_, Nat.zero_le _⟩ <;>
      · simp only [intMax, minBuffSize]
        omega
  unfold cobufferNew at made
  cases buffer with
  | none =>
      cases made
      exact fresh
  | some data =>
      simp only at made
      split at made
      · cases made
        exact fresh
      · split at made
        · cases made
        · exact (cobufferWrite_sound fresh made).1

end Colinlib.Source.Buffer
