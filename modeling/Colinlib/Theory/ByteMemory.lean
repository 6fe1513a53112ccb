import Colinlib.Theory.CMemory

/-!
# Byte-addressed memory

Every address holds a byte, also before anything was stored there: what an
allocation contains at first is whatever was there. Loads and stores must stay
inside one allocation. Words are little-endian. Nothing here names a particular
program.
-/
namespace Colinlib.Theory.ByteMemory
open CMemory

/-- The bytes, and the address and size of every allocation not released. -/
structure Memory where
  byte : Nat → UInt8
  blocks : List (Nat × Nat)

/-- Two ranges of addresses do not meet. -/
def Apart (a n b m : Nat) : Prop := a + n ≤ b ∨ b + m ≤ a

instance (a n b m : Nat) : Decidable (Apart a n b m) :=
  inferInstanceAs (Decidable (_ ∨ _))

/-- The range lies in one allocation. -/
def Owned (m : Memory) (a n : Nat) : Prop := ∃ b ∈ m.blocks, b.1 ≤ a ∧ a + n ≤ b.1 + b.2

instance (m : Memory) (a n : Nat) : Decidable (Owned m a n) :=
  inferInstanceAs (Decidable (∃ b ∈ m.blocks, _))

def bytesAt (byte : Nat → UInt8) (a n : Nat) : List UInt8 :=
  (List.range n).map (fun i => byte (a + i))

def put (byte : Nat → UInt8) (a : Nat) (bytes : List UInt8) : Nat → UInt8 :=
  fun x => if a ≤ x then (bytes[x - a]?).getD (byte x) else byte x

def encode : Nat → Nat → List UInt8
  | 0, _ => []
  | n + 1, v => UInt8.ofNat (v % 256) :: encode n (v / 256)

def decode : List UInt8 → Nat
  | [] => 0
  | b :: rest => b.toNat + 256 * decode rest

def wordAt (byte : Nat → UInt8) (n a : Nat) : Nat := decode (bytesAt byte a n)

def access (m : Memory) (a n : Nat) : Except Fault Unit :=
  if a = 0 then .error .nullPointer
  else if Owned m a n then .ok () else .error .outOfBounds

def load (m : Memory) (n a : Nat) : Except Fault Nat := do
  access m a n
  .ok (wordAt m.byte n a)

def write (m : Memory) (a : Nat) (bytes : List UInt8) : Except Fault Memory := do
  access m a bytes.length
  .ok { m with byte := put m.byte a bytes }

def store (m : Memory) (n a v : Nat) : Except Fault Memory := write m a (encode n v)

/-- What an allocation may be given: addresses that are in no other, and not null. -/
def Fresh (m : Memory) (base size : Nat) : Prop :=
  0 < base ∧ base + size ≤ 2 ^ 64 ∧ ∀ b ∈ m.blocks, b.1 ≠ base ∧ Apart b.1 b.2 base size

instance (m : Memory) (base size : Nat) : Decidable (Fresh m base size) :=
  inferInstanceAs (Decidable (_ ∧ _ ∧ _))

def allocate (m : Memory) (base size : Nat) : Memory :=
  { m with blocks := (base, size) :: m.blocks }

def release (m : Memory) (base : Nat) : Except Fault Memory :=
  if ∃ b ∈ m.blocks, b.1 = base then
    .ok { m with blocks := m.blocks.filter (fun b => b.1 ≠ base) }
  else .error .badPointer

section Words

theorem Apart.symm {a n b m : Nat} (h : Apart a n b m) : Apart b m a n := Or.symm h

theorem Apart.inner {a n b m a' n' b' m' : Nat} (h : Apart a n b m) (ha : a ≤ a' ∧ a' + n' ≤ a + n)
    (hb : b ≤ b' ∧ b' + m' ≤ b + m) : Apart a' n' b' m' := by
  unfold Apart at *
  omega

@[simp] theorem encode_length (n v : Nat) : (encode n v).length = n := by
  induction n generalizing v with
  | zero => rfl
  | succ n ih => rw [encode, List.length_cons, ih]

@[simp] theorem bytesAt_length (byte : Nat → UInt8) (a n : Nat) :
    (bytesAt byte a n).length = n := by simp [bytesAt]

theorem decode_encode (n v : Nat) : decode (encode n v) = v % 256 ^ n := by
  induction n generalizing v with
  | zero => simp [encode, decode, Nat.mod_one]
  | succ n ih =>
      have low : (UInt8.ofNat (v % 256)).toNat = v % 256 := by
        simp
      rw [encode, decode, ih, low, Nat.pow_succ, Nat.mul_comm (256 ^ n), Nat.mod_mul]

theorem put_inside (byte : Nat → UInt8) (a i : Nat) (bytes : List UInt8)
    (h : i < bytes.length) : put byte a bytes (a + i) = bytes[i] := by
  unfold put
  rw [if_pos (Nat.le_add_right a i), Nat.add_sub_cancel_left, List.getElem?_eq_getElem h,
    Option.getD_some]

theorem put_outside (byte : Nat → UInt8) (a x : Nat) (bytes : List UInt8)
    (h : x < a ∨ a + bytes.length ≤ x) : put byte a bytes x = byte x := by
  unfold put
  split
  · rw [List.getElem?_eq_none (by omega), Option.getD_none]
  · rfl

/-- Stores that do not meet can be made in either order. -/
theorem put_comm (byte : Nat → UInt8) {a b : Nat} {xs ys : List UInt8}
    (h : Apart a xs.length b ys.length) :
    put (put byte a xs) b ys = put (put byte b ys) a xs := by
  funext x
  unfold Apart at h
  by_cases inA : a ≤ x ∧ x < a + xs.length
  · rw [put_outside _ b x ys (by omega)]
    obtain ⟨i, rfl⟩ := Nat.exists_eq_add_of_le inA.1
    rw [put_inside _ _ _ _ (by omega), put_inside _ _ _ _ (by omega)]
  · rw [put_outside _ a x xs (by omega)]
    by_cases inB : b ≤ x ∧ x < b + ys.length
    · obtain ⟨i, rfl⟩ := Nat.exists_eq_add_of_le inB.1
      rw [put_inside _ _ _ _ (by omega), put_inside _ _ _ _ (by omega)]
    · rw [put_outside _ b x ys (by omega), put_outside _ a x xs (by omega),
        put_outside _ b x ys (by omega)]

theorem bytesAt_congr {f g : Nat → UInt8} {a n : Nat} (h : ∀ x, a ≤ x → x < a + n → f x = g x) :
    bytesAt f a n = bytesAt g a n := by
  apply List.map_congr_left
  intro i hi
  have := List.mem_range.mp hi
  exact h _ (by omega) (by omega)

theorem wordAt_congr {f g : Nat → UInt8} {a n : Nat} (h : ∀ x, a ≤ x → x < a + n → f x = g x) :
    wordAt f n a = wordAt g n a := by
  rw [wordAt, wordAt, bytesAt_congr h]

theorem bytesAt_append (byte : Nat → UInt8) (a m n : Nat) :
    bytesAt byte a (m + n) = bytesAt byte a m ++ bytesAt byte (a + m) n := by
  simp only [bytesAt, List.range_add, List.map_append, List.map_map]
  congr 1
  apply List.map_congr_left
  intro i _
  simp only [Function.comp_apply, Nat.add_assoc]

theorem decode_append (xs ys : List UInt8) :
    decode (xs ++ ys) = decode xs + 256 ^ xs.length * decode ys := by
  induction xs with
  | nil => simp [decode]
  | cons b rest ih =>
      rw [List.cons_append, decode, decode, ih, List.length_cons, Nat.pow_succ, Nat.mul_add,
        Nat.mul_comm (256 ^ rest.length) 256, Nat.mul_assoc, Nat.add_assoc]

theorem decode_lt (bytes : List UInt8) : decode bytes < 256 ^ bytes.length := by
  induction bytes with
  | nil => simp [decode]
  | cons b rest ih =>
      have low := b.toNat_lt
      rw [decode, List.length_cons, Nat.pow_succ]
      omega

theorem encode_decode (bytes : List UInt8) : encode bytes.length (decode bytes) = bytes := by
  induction bytes with
  | nil => rfl
  | cons b rest ih =>
      have low : (b.toNat + 256 * decode rest) % 256 = b.toNat := by
        have := b.toNat_lt
        omega
      have high : (b.toNat + 256 * decode rest) / 256 = decode rest := by
        have := b.toNat_lt
        omega
      rw [List.length_cons, decode, encode, low, high, ih, UInt8.ofNat_toNat]

/-- The low bytes of a word are the word they begin. -/
theorem wordAt_low (byte : Nat → UInt8) (m n a : Nat) :
    wordAt byte m a = wordAt byte (m + n) a % 256 ^ m := by
  have bound := decode_lt (bytesAt byte a m)
  rw [bytesAt_length] at bound
  rw [wordAt, wordAt, bytesAt_append, decode_append, bytesAt_length, Nat.add_mul_mod_self_left,
    Nat.mod_eq_of_lt bound]

theorem bytesAt_put (byte : Nat → UInt8) (a : Nat) (bytes : List UInt8) :
    bytesAt (put byte a bytes) a bytes.length = bytes := by
  apply List.ext_getElem
  · simp
  · intro i hi hi'
    simp only [bytesAt, List.getElem_map, List.getElem_range]
    exact put_inside byte a i bytes hi'

/-- A word just stored reads back. -/
theorem wordAt_put (byte : Nat → UInt8) {n a v : Nat} (h : v < 256 ^ n) :
    wordAt (put byte a (encode n v)) n a = v := by
  have whole := bytesAt_put byte a (encode n v)
  rw [encode_length] at whole
  rw [wordAt, whole, decode_encode, Nat.mod_eq_of_lt h]

/-- A store leaves every word it does not meet as it was. -/
theorem wordAt_put_frame (byte : Nat → UInt8) {a b n : Nat} {bytes : List UInt8}
    (h : Apart a bytes.length b n) : wordAt (put byte a bytes) n b = wordAt byte n b := by
  apply wordAt_congr
  intro x lo hi
  apply put_outside
  unfold Apart at h
  omega

end Words

section Access

theorem access_ok {m : Memory} {a n : Nat} (h : a ≠ 0) (owned : Owned m a n) :
    access m a n = .ok () := by
  rw [access, if_neg h, if_pos owned]

theorem load_ok {m : Memory} {a n : Nat} (h : a ≠ 0) (owned : Owned m a n) :
    load m n a = .ok (wordAt m.byte n a) := by
  rw [load, access_ok h owned]
  rfl

theorem write_ok {m : Memory} {a : Nat} {bytes : List UInt8} (h : a ≠ 0)
    (owned : Owned m a bytes.length) :
    write m a bytes = .ok { m with byte := put m.byte a bytes } := by
  rw [write, access_ok h owned]
  rfl

theorem store_ok {m : Memory} {n a v : Nat} (h : a ≠ 0) (owned : Owned m a n) :
    store m n a v = .ok { m with byte := put m.byte a (encode n v) } :=
  write_ok h (by rwa [encode_length])

theorem Owned.inner {m : Memory} {a n b k : Nat} (h : Owned m a n) (lo : a ≤ b)
    (hi : b + k ≤ a + n) : Owned m b k := by
  obtain ⟨block, mem, h⟩ := h
  exact ⟨block, mem, by omega, by omega⟩

end Access

theorem decode_zeros (n : Nat) : decode (List.replicate n 0) = 0 := by
  induction n with
  | zero => rfl
  | succ n ih =>
      rw [List.replicate_succ, decode, ih]
      rfl

/-- Words of an area that was filled with zeros. -/
theorem wordAt_zeros (byte : Nat → UInt8) (a : Nat) {n off size : Nat} (inside : off + size ≤ n) :
    wordAt (put byte a (List.replicate n 0)) size (a + off) = 0 := by
  have zeros : bytesAt (put byte a (List.replicate n 0)) (a + off) size =
      List.replicate size 0 := by
    apply List.ext_getElem
    · simp
    · intro i low high
      rw [bytesAt_length] at low
      simp only [bytesAt, List.getElem_map, List.getElem_range, List.getElem_replicate]
      rw [Nat.add_assoc, put_inside _ _ _ _ (by rw [List.length_replicate]; omega),
        List.getElem_replicate]
  rw [wordAt, zeros, decode_zeros]

/-! ## Records -/

/-- A word of `size` bytes, `off` bytes into a record. -/
structure Field where
  off : Nat
  size : Nat
  value : Nat
  deriving DecidableEq, Repr

/-- The fields are stored one after another into the record at `a`. -/
def putFields (byte : Nat → UInt8) (a : Nat) : List Field → Nat → UInt8
  | [] => byte
  | f :: rest => putFields (put byte (a + f.off) (encode f.size f.value)) a rest

/-- The field lies in the first `n` bytes of its record. -/
def Field.Within (n : Nat) (f : Field) : Prop := f.off + f.size ≤ n

def Field.Fits (f : Field) : Prop := f.value < 256 ^ f.size

/-- The two fields do not share a byte. -/
def Field.Beside (f g : Field) : Prop := Apart f.off f.size g.off g.size

section Records
variable {byte : Nat → UInt8} {a b n k : Nat} {fields : List Field}

theorem putFields_outside (within : ∀ f ∈ fields, f.Within n) {x : Nat}
    (outside : x < a ∨ a + n ≤ x) : putFields byte a fields x = byte x := by
  induction fields generalizing byte with
  | nil => rfl
  | cons f rest ih =>
      have here := within f List.mem_cons_self
      unfold Field.Within at here
      rw [putFields, ih fun g mem => within g (List.mem_cons_of_mem _ mem)]
      exact put_outside _ _ _ _ (by rw [encode_length]; omega)

/-- Words outside the record stay. -/
theorem wordAt_putFields_frame (within : ∀ f ∈ fields, f.Within n) (apart : Apart a n b k) :
    wordAt (putFields byte a fields) k b = wordAt byte k b := by
  apply wordAt_congr
  intro x low high
  apply putFields_outside within
  unfold Apart at apart
  omega

theorem wordAt_putFields_other {off size : Nat}
    (other : ∀ g ∈ fields, Apart g.off g.size off size) :
    wordAt (putFields byte a fields) size (a + off) = wordAt byte size (a + off) := by
  induction fields generalizing byte with
  | nil => rfl
  | cons g rest ih =>
      have beside := other g List.mem_cons_self
      rw [putFields, ih fun g mem => other g (List.mem_cons_of_mem _ mem)]
      apply wordAt_put_frame
      rw [encode_length]
      unfold Apart at beside ⊢
      omega

/-- Every field of a record reads back. -/
theorem wordAt_putFields (beside : fields.Pairwise Field.Beside) {f : Field} (among : f ∈ fields)
    (fits : f.Fits) : wordAt (putFields byte a fields) f.size (a + f.off) = f.value := by
  induction fields generalizing byte with
  | nil => cases among
  | cons g rest ih =>
      obtain ⟨first, later⟩ := List.pairwise_cons.mp beside
      rw [putFields]
      rcases List.mem_cons.mp among with rfl | among
      · rw [wordAt_putFields_other fun h mem => (first h mem).symm]
        exact wordAt_put _ fits
      · exact ih later among

end Records

end Colinlib.Theory.ByteMemory
