import Colinlib.Theory.Probing
import Colinlib.Source.IoChanges

/-!
# The allocators of `co_ioservice.c`

`_cotcp_alloc`, `_coudp_alloc` and `_cofd_alloc` scan their table once, from a
shared `uint32_t` cursor that is advanced at every probe and reduced modulo the
size of the table. The sizes divide `2^32`, so the scan stays one round of the
table also where the cursor wraps in its middle.
-/
namespace Colinlib.Guarantees.SlotAllocation
open Colinlib.Theory.Callbacks Colinlib.Theory.Probing
open Colinlib.Source.IoWorld Colinlib.Source.IoService Colinlib.Source.IoChanges

/-- The slot is one of the table and holds no object. -/
def Vacant (w : World) (kind : Kind) (r : Ref) : Prop :=
  r.kind = kind ∧ r.idx < tableSize kind ∧ (w.objs r).state = Cotcp.invalid

/-- The slots after `r` has gone from `INVALID` to `NEW`. -/
def withNew (objs : Ref → Coio) (r : Ref) : Ref → Coio :=
  Function.update objs r { objs r with state := Cotcp.new }

theorem tableSize_dvd (kind : Kind) : tableSize kind ∣ 2 ^ 32 := by
  cases kind <;> decide

theorem tableSize_pos (kind : Kind) : 0 < tableSize kind := by
  cases kind <;> decide

@[simp] theorem bumpCursor_objs (w : World) (kind : Kind) : (bumpCursor w kind).objs = w.objs := rfl

@[simp] theorem bumpCursor_cursor (w : World) (kind : Kind) :
    (bumpCursor w kind).cursor kind = (w.cursor kind + 1) % 2 ^ 32 := by
  simp only [bumpCursor, Function.update_self]

theorem takeSlot_objs (w : World) (r : Ref) : (takeSlot w r).objs = withNew w.objs r := rfl

/-- What `n` probes come to: the first `INVALID` slot among them is taken, or
there is none and no slot has changed. -/
theorem allocScan_spec (kind : Kind) (n : Nat) (w : World) :
    (∃ k w', k < n ∧ allocScan kind (tableSize kind) n w =
        (some ⟨kind, probe (tableSize kind) (w.cursor kind) k⟩, w') ∧
      (w.objs ⟨kind, probe (tableSize kind) (w.cursor kind) k⟩).state = Cotcp.invalid ∧
      w'.objs = withNew w.objs ⟨kind, probe (tableSize kind) (w.cursor kind) k⟩) ∨
    (∃ w', allocScan kind (tableSize kind) n w = (none, w') ∧ w'.objs = w.objs ∧
      ∀ k < n, (w.objs ⟨kind, probe (tableSize kind) (w.cursor kind) k⟩).state ≠ Cotcp.invalid) := by
  induction n generalizing w with
  | zero => exact .inr ⟨w, rfl, rfl, fun k none => absurd none (Nat.not_lt_zero k)⟩
  | succ n ih =>
      by_cases here : (w.objs ⟨kind, w.cursor kind % tableSize kind⟩).state = Cotcp.invalid
      · refine .inl ⟨0, takeSlot (bumpCursor w kind) ⟨kind, w.cursor kind % tableSize kind⟩,
          Nat.succ_pos n, ?_, here, takeSlot_objs _ _⟩
        rw [allocScan, if_pos here, probe_zero]
      · have moved : ∀ k, probe (tableSize kind) ((bumpCursor w kind).cursor kind) k =
            probe (tableSize kind) (w.cursor kind) (k + 1) := fun k => by
          rw [bumpCursor_cursor, probe_wrapped (tableSize_dvd kind)]
        have later := ih (bumpCursor w kind)
        simp only [moved, bumpCursor_objs] at later
        rw [allocScan, if_neg here]
        obtain ⟨k, w', round, found, free, objs⟩ | ⟨w', found, objs, occupied⟩ := later
        · exact .inl ⟨k + 1, w', Nat.succ_lt_succ round, found, free, objs⟩
        · refine .inr ⟨w', found, objs, fun k round => ?_⟩
          cases k with
          | zero => exact here
          | succ k => exact occupied k (Nat.lt_of_succ_lt_succ round)

/-- The allocator takes a slot that is vacant, fails only where none is, and then changes no
object. -/
structure Allocates (kind : Kind) (alloc : Io (Option Ref)) : Prop where
  takes : ∀ w, (∃ r, Vacant w kind r) → ∃ r w', alloc w = .ret (some r) w' ∧
    Vacant w kind r ∧ w'.objs = withNew w.objs r
  null_iff : ∀ w, (∃ w', alloc w = .ret none w') ↔ ¬ ∃ r, Vacant w kind r
  unchanged : ∀ w w', alloc w = .ret none w' → w'.objs = w.objs

theorem allocSlot_apply (kind : Kind) (size : Nat) (w : World) :
    allocSlot kind size w = .ret (allocScan kind size size w).1 (allocScan kind size size w).2 := rfl

/-- One round of the table decides whether a slot is left. -/
theorem allocSlot_cases (kind : Kind) (w : World) :
    (∃ r w', allocSlot kind (tableSize kind) w = .ret (some r) w' ∧ Vacant w kind r ∧
      w'.objs = withNew w.objs r) ∨
    (∃ w', allocSlot kind (tableSize kind) w = .ret none w' ∧ w'.objs = w.objs ∧
      ¬ ∃ r, Vacant w kind r) := by
  have pos := tableSize_pos kind
  obtain ⟨k, w', -, found, free, objs⟩ | ⟨w', found, objs, occupied⟩ :=
    allocScan_spec kind (tableSize kind) w
  · refine .inl ⟨_, w', ?_, ⟨rfl, probe_lt pos _ _, free⟩, objs⟩
    rw [allocSlot_apply, found]
  · refine .inr ⟨w', ?_, objs, ?_⟩
    · rw [allocSlot_apply, found]
    · rintro ⟨⟨owner, idx⟩, same, inside, free⟩
      dsimp only at same inside
      subst owner
      obtain ⟨k, round, rfl⟩ := exists_probe (w.cursor kind) inside
      exact occupied k round free

theorem allocSlot_allocates (kind : Kind) : Allocates kind (allocSlot kind (tableSize kind)) where
  takes w vacant := by
    obtain taken | ⟨w', -, -, full⟩ := allocSlot_cases kind w
    · exact taken
    · exact absurd vacant full
  null_iff w := by
    obtain ⟨r, w', found, vacant, -⟩ | ⟨w', found, -, full⟩ := allocSlot_cases kind w
    · rw [found]
      constructor
      · rintro ⟨_, returned⟩
        cases returned
      · exact fun full => absurd ⟨r, vacant⟩ full
    · exact ⟨fun _ => full, fun _ => ⟨w', found⟩⟩
  unchanged w w' returned := by
    obtain ⟨r, w₁, found, -, -⟩ | ⟨w₁, found, objs, -⟩ := allocSlot_cases kind w
    · rw [found] at returned
      cases returned
    · rw [found] at returned
      cases returned
      exact objs

/-- From every table and every cursor, each allocator turns an `INVALID` slot into
a `NEW` one and touches no other, or returns null because there is none. -/
theorem slot_allocation :
    Allocates .tcp cotcpAlloc ∧ Allocates .udp coudpAlloc ∧ Allocates .fd cofdAlloc :=
  ⟨allocSlot_allocates .tcp, allocSlot_allocates .udp, allocSlot_allocates .fd⟩

end Colinlib.Guarantees.SlotAllocation
