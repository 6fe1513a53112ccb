import Mathlib.Data.List.Infix

/-!
# Words in a sequence

A set of words is given by its membership. A scan that goes over a sequence from the
left, replaces each word it finds at its place by marks and goes on behind it leaves
no word of the set, if the mark is in none of them: a word in the result would have
been found where it stands.
-/
namespace Colinlib.Theory.Keywords

variable {α : Type} {K : List α → Prop}

/-- A word stands at the head of the sequence. -/
def Starts (K : List α → Prop) (xs : List α) : Prop := ∃ w, w ≠ [] ∧ K w ∧ w <+: xs

/-- A word occurs in the sequence. -/
def Occurs (K : List α → Prop) (xs : List α) : Prop := ∃ w, w ≠ [] ∧ K w ∧ w <:+: xs

theorem not_occurs_nil : ¬ Occurs K [] :=
  fun ⟨_, nonempty, _, inside⟩ => nonempty (List.eq_nil_of_infix_nil inside)

theorem occurs_cons {x : α} {xs : List α} :
    Occurs K (x :: xs) ↔ Starts K (x :: xs) ∨ Occurs K xs := by
  constructor
  · rintro ⟨w, nonempty, word, inside⟩
    exact (List.infix_cons_iff.mp inside).imp (⟨w, nonempty, word, ·⟩) (⟨w, nonempty, word, ·⟩)
  · rintro (⟨w, nonempty, word, start⟩ | ⟨w, nonempty, word, inside⟩)
    · exact ⟨w, nonempty, word, start.isInfix⟩
    · exact ⟨w, nonempty, word, List.infix_cons_iff.mpr (.inr inside)⟩

/-- The scan: what it did to the sequence. -/
inductive Masked (K : List α → Prop) (mask : List α → List α) : List α → List α → Prop
  | done : Masked K mask [] []
  | keep {x xs ys} (clear : ¬ Starts K (x :: xs)) (rest : Masked K mask xs ys) :
      Masked K mask (x :: xs) (x :: ys)
  | mask {w xs ys} (nonempty : w ≠ []) (word : K w) (rest : Masked K mask xs ys) :
      Masked K mask (w ++ xs) (mask w ++ ys)

section Masked
variable {mask : List α → List α} {mark : α} {xs ys : List α}

/-- What stands in the result without a mark has been there before. -/
theorem Masked.start (h : Masked K mask xs ys) (filled : ∀ w, w ≠ [] → ∃ n, mask w = mark :: n)
    {u : List α} (unmarked : mark ∉ u) (start : u <+: ys) : u <+: xs := by
  induction h generalizing u with
  | done => exact start
  | @keep x xs ys _ _ ih =>
      cases u with
      | nil => exact List.nil_prefix
      | cons a u =>
          obtain ⟨rfl, later⟩ := List.cons_prefix_cons.mp start
          have shorter : mark ∉ u := fun mem => unmarked (List.mem_cons_of_mem a mem)
          exact List.cons_prefix_cons.mpr ⟨rfl, ih shorter later⟩
  | @mask w xs ys nonempty _ _ _ =>
      cases u with
      | nil => exact List.nil_prefix
      | cons a u =>
          obtain ⟨n, shown⟩ := filled w nonempty
          rw [shown, List.cons_append] at start
          obtain ⟨rfl, -⟩ := List.cons_prefix_cons.mp start
          exact absurd List.mem_cons_self unmarked

/-- Marks in front of a sequence bring no word into it. -/
theorem occurs_marks {marks : List α} (all : ∀ a ∈ marks, a = mark)
    (unmarked : ∀ w, K w → mark ∉ w) : Occurs K (marks ++ ys) → Occurs K ys := by
  induction marks with
  | nil => exact id
  | cons a marks ih =>
      intro occurs
      rcases occurs_cons.mp occurs with ⟨w, nonempty, word, start⟩ | later
      · cases w with
        | nil => exact absurd rfl nonempty
        | cons b w =>
            obtain ⟨rfl, -⟩ := List.cons_prefix_cons.mp start
            rw [all b List.mem_cons_self] at word
            exact absurd List.mem_cons_self (unmarked _ word)
      · exact ih (fun b mem => all b (List.mem_cons_of_mem a mem)) later

theorem Masked.clean (h : Masked K mask xs ys)
    (filled : ∀ w, w ≠ [] → (∃ n, mask w = mark :: n) ∧ ∀ a ∈ mask w, a = mark)
    (unmarked : ∀ w, K w → mark ∉ w) : ¬ Occurs K ys := by
  induction h with
  | done => exact not_occurs_nil
  | @keep x xs ys clear rest ih =>
      intro occurs
      rcases occurs_cons.mp occurs with ⟨w, nonempty, word, start⟩ | later
      · have kept : Masked K mask (x :: xs) (x :: ys) := .keep clear rest
        have begins := kept.start (fun w nonempty => (filled w nonempty).1) (unmarked w word) start
        exact clear ⟨w, nonempty, word, begins⟩
      · exact ih later
  | @mask w xs ys nonempty _ _ ih =>
      exact fun occurs => ih (occurs_marks (filled w nonempty).2 unmarked occurs)

end Masked

end Colinlib.Theory.Keywords
