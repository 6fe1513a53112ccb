import Colinlib.Source.Buffer

/-!
# Where `cobuffer_seek` goes

A position runs from 0 to the size of the buffer: after a write or a read of the last
byte it is the size. The header promises that a negative absolute target counts from
the end. The function clamps every target to the last byte, and takes a negative target
off the size instead of adding it.
-/
namespace Colinlib.Guarantees.BufferSeek
open Colinlib.Theory Colinlib.Theory.CMemory Colinlib.Theory.Runs Colinlib.Source.Buffer

/-- What a caller does with a buffer; the typed reads and writes are these at their widths. -/
inductive Access where
  | read (size : Nat)
  | write (buffer : Option (List UInt8)) (size : Nat)
  | seek (abs : Bool) (pos : Int32)
  deriving DecidableEq, Repr

def access (bf : Cobuffer) : Access → Except Fault Cobuffer
  | .read size => do
    let (_, bf) ← cobufferRead bf size
    .ok bf
  | .write buffer size => cobufferWrite bf buffer size
  | .seek abs pos => do
    let (_, bf) ← cobufferSeek bf abs pos
    .ok bf

/-- The position that is asked for. -/
def target (bf : Cobuffer) (abs : Bool) (pos : Int32) : Int :=
  if !abs then bf.pos + pos.toInt else if pos.toInt < 0 then bf.size + pos.toInt else pos.toInt

/-- A target in the buffer is the position afterwards; one before the buffer becomes its
start and one behind it its end. -/
def SeeksExactly (bf : Cobuffer) (abs : Bool) (pos : Int32) : Prop :=
  ∃ p, cobufferSeek bf abs pos = .ok (p, { bf with pos := p }) ∧
    (0 ≤ target bf abs pos → target bf abs pos ≤ bf.size → (p : Int) = target bf abs pos) ∧
    (target bf abs pos < 0 → p = 0) ∧
    (bf.size < target bf abs pos → bf.size - 1 ≤ p ∧ p ≤ bf.size)

/-- A saved position is restored. -/
def Restores (bf : Cobuffer) (p : Nat) : Prop :=
  cobufferSeek bf true (.ofNat p) = .ok (p, { bf with pos := p })

def Keeps (bf : Cobuffer) : Prop := cobufferSeek bf false 0 = .ok (bf.pos, bf)

/-- No sum leaves `int`, the target is not the end itself, and a negative absolute
target is -1. -/
def Hits (bf : Cobuffer) (abs : Bool) (pos : Int32) : Prop :=
  if abs = true ∧ pos.toInt < 0 then pos.toInt = -1 ∧ bf.size < intMax
  else target bf abs pos ≤ intMax ∧ target bf abs pos ≠ bf.size

instance (bf : Cobuffer) (abs : Bool) (pos : Int32) : Decidable (Hits bf abs pos) :=
  inferInstanceAs (Decidable (ite _ _ _))

/-! ## The states that are reached -/

theorem access_sound {bf bf' : Cobuffer} {call : Access} (h : Sound bf)
    (done : access bf call = .ok bf') : Sound bf' ∧ bf.size ≤ bf'.size := by
  cases call with
  | read n =>
      obtain ⟨⟨cells, after⟩, done, same⟩ := bind_ok done
      cases same
      exact cobufferRead_sound h done
  | write buffer n =>
      obtain ⟨sound, larger, -⟩ := cobufferWrite_sound h done
      exact ⟨sound, larger⟩
  | seek abs pos =>
      obtain ⟨⟨p, after⟩, done, same⟩ := bind_ok done
      cases same
      exact cobufferSeek_sound h done

/-- A run keeps a buffer sound and never makes it smaller. -/
theorem run_sound {bf bf' : Cobuffer} {calls : List Access} (h : Sound bf)
    (reached : run access bf calls = .ok bf') : Sound bf' ∧ bf.size ≤ bf'.size := by
  have step : ∀ s a s', Sound s ∧ bf.size ≤ s.size → access s a = .ok s' →
      Sound s' ∧ bf.size ≤ s'.size := by
    intro s a s' kept done
    obtain ⟨sound, larger⟩ := access_sound kept.1 done
    exact ⟨sound, Nat.le_trans kept.2 larger⟩
  exact invariant step calls bf bf' ⟨h, Nat.le_refl _⟩ reached

/-! ## One seek -/

/-- Where the target and what is clamped are the same, the end itself is the exception. -/
theorem clamp_iff {t : Int} {size : Nat} (some_bytes : 1 < size) :
    ((0 ≤ t → t ≤ size → (clamp t size : Int) = t) ∧ (t < 0 → clamp t size = 0) ∧
      (size < t → size - 1 ≤ clamp t size ∧ clamp t size ≤ size)) ↔ t ≠ size := by
  unfold clamp
  constructor
  · rintro ⟨exactly, -, -⟩ rfl
    have moved := exactly (by omega) (by omega)
    omega
  · intro ne
    refine ⟨fun _ _ => ?_, fun _ => ?_, fun _ => ?_⟩ <;> omega

theorem seeksExactly_of_fits {bf : Cobuffer} {abs : Bool} {pos : Int32}
    (fits : seekSum bf abs pos < 2 ^ 31) : SeeksExactly bf abs pos ↔
      (0 ≤ target bf abs pos → target bf abs pos ≤ bf.size →
          (clamp (seekSum bf abs pos) bf.size : Int) = target bf abs pos) ∧
        (target bf abs pos < 0 → clamp (seekSum bf abs pos) bf.size = 0) ∧
        (bf.size < target bf abs pos → bf.size - 1 ≤ clamp (seekSum bf abs pos) bf.size ∧
          clamp (seekSum bf abs pos) bf.size ≤ bf.size) := by
  rw [SeeksExactly, cobufferSeek_fits fits]
  constructor
  · rintro ⟨p, same, rest⟩
    obtain rfl : clamp (seekSum bf abs pos) bf.size = p := (Prod.mk.inj (Except.ok.inj same)).1
    exact rest
  · exact fun rest => ⟨_, rfl, rest⟩

theorem not_seeksExactly {bf : Cobuffer} {abs : Bool} {pos : Int32}
    (overflow : 2 ^ 31 ≤ seekSum bf abs pos) : ¬ SeeksExactly bf abs pos := by
  rintro ⟨p, returned, -⟩
  rw [cobufferSeek_overflow overflow] at returned
  cases returned

theorem seeksExactly_iff {bf : Cobuffer} (h : Sound bf) (abs : Bool) (pos : Int32) :
    SeeksExactly bf abs pos ↔ Hits bf abs pos := by
  have least := h.least
  have high := pos.toInt_lt
  unfold minBuffSize at least
  unfold Hits
  by_cases negative : abs = true ∧ pos.toInt < 0
  · obtain ⟨rfl, negative⟩ := negative
    have asked : target bf true pos = bf.size + pos.toInt := if_pos negative
    have summed : seekSum bf true pos = bf.size - pos.toInt := if_pos negative
    rw [if_pos ⟨rfl, negative⟩, intMax]
    by_cases fits : seekSum bf true pos < 2 ^ 31
    · -- whatever the target, the position is that of the last byte
      have last : clamp (seekSum bf true pos) bf.size = bf.size - 1 := by
        unfold clamp
        omega
      rw [seeksExactly_of_fits fits, last, asked]
      constructor
      · rintro ⟨exactly, before, -⟩
        by_cases reaches : 0 ≤ bf.size + pos.toInt
        · have moved := exactly reaches (by omega)
          omega
        · have start := before (by omega)
          omega
      · rintro ⟨one, -⟩
        refine ⟨fun _ _ => ?_, fun _ => ?_, fun _ => ?_⟩ <;> omega
    · refine iff_of_false (not_seeksExactly (Int.not_lt.mp fits)) ?_
      omega
  · have same : seekSum bf abs pos = target bf abs pos := by
      unfold seekSum target
      cases abs with
      | false => exact Int.add_comm _ _
      | true =>
          have forward : ¬ pos.toInt < 0 := fun h => negative ⟨rfl, h⟩
          simp only [Bool.not_true, Bool.false_eq_true, if_false, if_neg forward]
    rw [if_neg negative, intMax, ← same]
    by_cases fits : seekSum bf abs pos < 2 ^ 31
    · rw [seeksExactly_of_fits fits, ← same, clamp_iff (by omega)]
      omega
    · refine iff_of_false (not_seeksExactly (Int.not_lt.mp fits)) ?_
      omega

theorem restores_iff {bf : Cobuffer} (h : Sound bf) {p : Nat} (inside : p ≤ bf.size) :
    Restores bf p ↔ p ≠ bf.size := by
  constructor
  · rintro same rfl
    have least := h.least
    unfold minBuffSize at least
    by_cases fits : seekSum bf true (.ofNat bf.size) < 2 ^ 31
    · rw [Restores, cobufferSeek_fits fits] at same
      have below := clamp_lt (seekSum bf true (.ofNat bf.size)) (by omega : 0 < bf.size)
      have moved := (Prod.mk.inj (Except.ok.inj same)).1
      omega
    · rw [Restores, cobufferSeek_overflow (Int.not_lt.mp fits)] at same
      cases same
  · exact fun ne => cobufferSeek_before_end h (by omega)

theorem keeps_iff {bf : Cobuffer} (h : Sound bf) : Keeps bf ↔ bf.pos ≠ bf.size := by
  have small := h.small
  have inside := h.inside
  have least := h.least
  unfold intMax at small
  unfold minBuffSize at least
  have summed : seekSum bf false 0 = bf.pos := Int.zero_add _
  rw [Keeps, cobufferSeek_fits (by omega), summed]
  constructor
  · intro same
    have moved : clamp bf.pos bf.size = bf.pos := (Prod.mk.inj (Except.ok.inj same)).1
    have below := clamp_lt bf.pos (by omega : 0 < bf.size)
    omega
  · intro ne
    have moved : clamp bf.pos bf.size = bf.pos := by
      unfold clamp
      omega
    rw [moved]

/-- In every state that a run reaches: a target is met if and only if no sum overflows,
it is not the end itself and a negative absolute one is -1; a position saved earlier in
the run is restored, and the current one kept, if and only if it is not the end. -/
theorem seek_meets_targets (buffer : Option (List UInt8)) (bufsz : Int32) (endian : CbEndian)
    (before after : List Access) {made saved now : Cobuffer}
    (new : cobufferNew buffer bufsz endian = .ok made)
    (first : run access made before = .ok saved) (later : run access saved after = .ok now) :
    (∀ abs pos, SeeksExactly now abs pos ↔ Hits now abs pos) ∧
      (Restores now saved.pos ↔ saved.pos ≠ now.size) ∧ (Keeps now ↔ now.pos ≠ now.size) := by
  obtain ⟨sound, -⟩ := run_sound (cobufferNew_sound new) first
  obtain ⟨sound', larger⟩ := run_sound sound later
  exact ⟨seeksExactly_iff sound', restores_iff sound' (Nat.le_trans sound.inside larger),
    keeps_iff sound'⟩

/-- A write of 4 bytes, a saved position, a write of 40 more. -/
theorem seek_meets_targets_grown :
    ∃ made saved now : Cobuffer, cobufferNew none 0 .native = .ok made ∧
      run access made [.write none 4] = .ok saved ∧
      run access saved [.write none 40] = .ok now ∧ Restores now saved.pos ∧
      SeeksExactly now true (-1) := by
  refine ⟨_, _, _, rfl, rfl, rfl, ?_⟩
  obtain ⟨targets, restored, -⟩ :=
    seek_meets_targets none 0 .native [.write none 4] [.write none 40] rfl rfl rfl
  exact ⟨restored.mpr (by decide), (targets true (-1)).mpr (by decide)⟩

/-- A buffer of 32 bytes, filled by one write: the position is not kept, and the
second byte from the end is not found. -/
theorem seek_misses_end :
    ∃ made full : Cobuffer, cobufferNew none 0 .native = .ok made ∧
      run access made [.write none 32] = .ok full ∧ ¬ Keeps full ∧ ¬ Restores full full.pos ∧
      ¬ SeeksExactly full true (-2) := by
  refine ⟨_, _, rfl, rfl, by unfold Keeps; decide, by unfold Restores; decide, ?_⟩
  rintro ⟨p, same, exactly, -⟩
  have moved : 31 = p := (Prod.mk.inj (Except.ok.inj same)).1
  have asked := exactly (by decide) (by decide)
  rw [← moved] at asked
  exact absurd asked (by decide)

end Colinlib.Guarantees.BufferSeek
