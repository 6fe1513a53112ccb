import Mathlib.Data.List.Basic
import Mathlib.Data.Nat.ModEq

/-!
# Cyclic probing

A table of `n` slots is searched from a start that may lie anywhere, one slot
after the other, modulo `n`. One round of `n` probes meets every slot, also where
the cursor that counts the probes is itself a wrapping counter, as long as the
size of the table divides the counter's range.
-/
namespace Colinlib.Theory.Probing

/-- The slot of probe `k`. -/
def probe (n start k : Nat) : Nat := (start + k) % n

theorem probe_lt {n : Nat} (pos : 0 < n) (start k : Nat) : probe n start k < n :=
  Nat.mod_lt _ pos

theorem probe_zero (n start : Nat) : probe n start 0 = start % n := rfl

/-- A wrapping cursor that has moved on by one probes what follows. -/
theorem probe_wrapped {n range : Nat} (fits : n ∣ range) (start k : Nat) :
    probe n ((start + 1) % range) k = probe n start (k + 1) := by
  have shifted : start + 1 + k = start + (k + 1) := by omega
  unfold probe
  rw [Nat.add_mod, Nat.mod_mod_of_dvd _ fits, ← Nat.add_mod, shifted]

/-- Every slot is met within one round. -/
theorem exists_probe (start : Nat) {n i : Nat} (inside : i < n) :
    ∃ k, k < n ∧ probe n start k = i := by
  have below : start % n < n := Nat.mod_lt _ (by omega)
  have split : ∀ k, probe n start k = (start % n + k) % n := fun k => by
    unfold probe
    rw [Nat.mod_add_mod]
  by_cases ahead : start % n ≤ i
  · refine ⟨i - start % n, by omega, ?_⟩
    rw [split, Nat.add_sub_cancel' ahead, Nat.mod_eq_of_lt inside]
  · -- the slot lies before the start: it is met after the wrap
    refine ⟨i + n - start % n, by omega, ?_⟩
    have after : start % n + (i + n - start % n) = i + n := by omega
    rw [split, after, Nat.add_mod_right, Nat.mod_eq_of_lt inside]

end Colinlib.Theory.Probing
