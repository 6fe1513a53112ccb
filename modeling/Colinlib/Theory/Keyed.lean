import Mathlib.Data.List.Basic
import Mathlib.Data.List.Perm.Basic
import Mathlib.Data.List.Pairwise

/-!
# Collections without two equal keys

Elements have keys, and keys are compared by an equivalence. A collection is a
list of elements; it holds a key when it has an element with an equal key.
-/
namespace Colinlib.Theory.Keyed

variable {A K : Type} (key : A → K) (eq : K → K → Prop)

def Distinct (l : List A) : Prop := l.Pairwise fun x y => ¬ eq (key x) (key y)

def Has (k : K) (l : List A) : Prop := ∃ x ∈ l, eq k (key x)

instance [DecidableRel eq] (k : K) (l : List A) : Decidable (Has key eq k l) :=
  inferInstanceAs (Decidable (∃ x ∈ l, eq k (key x)))

def without [DecidableRel eq] (k : K) (l : List A) : List A := l.filter fun x => ¬ eq k (key x)

section
variable {key eq} {l l' r : List A} {k k' : K} {x : A}

theorem Has.of_perm (h : l.Perm l') : Has key eq k l ↔ Has key eq k l' := by
  unfold Has
  simp only [h.mem_iff]

theorem Has.congr (equiv : Equivalence eq) (same : eq k k') :
    Has key eq k l ↔ Has key eq k' l :=
  ⟨fun ⟨x, hx, h⟩ => ⟨x, hx, equiv.trans (equiv.symm same) h⟩,
    fun ⟨x, hx, h⟩ => ⟨x, hx, equiv.trans same h⟩⟩

theorem Distinct.of_perm (equiv : Equivalence eq) (h : l.Perm l') (d : Distinct key eq l) :
    Distinct key eq l' :=
  h.pairwise d fun apart same => apart (equiv.symm same)

theorem distinct_cons : Distinct key eq (x :: l) ↔ ¬ Has key eq (key x) l ∧ Distinct key eq l := by
  unfold Distinct Has
  rw [List.pairwise_cons]
  simp only [not_exists, not_and]

/-- Only the keys count. -/
theorem Distinct.of_keys {m : List A} (d : Distinct key eq l) (same : m.map key = l.map key) :
    Distinct key eq m := by
  have keys : (l.map key).Pairwise fun x y => ¬ eq x y := List.pairwise_map.mpr d
  rw [← same] at keys
  exact List.pairwise_map.mp keys

/-- An element of a new key can be added anywhere. -/
theorem Distinct.insert (equiv : Equivalence eq) (d : Distinct key eq (l ++ r))
    (new : ¬ Has key eq (key x) (l ++ r)) : Distinct key eq (l ++ x :: r) :=
  Distinct.of_perm equiv List.perm_middle.symm (distinct_cons.mpr ⟨new, d⟩)

/-- Two elements of equal keys are one. -/
theorem Distinct.unique (equiv : Equivalence eq) (d : Distinct key eq l) {y : A} (hx : x ∈ l)
    (hy : y ∈ l) (same : eq (key x) (key y)) : x = y := by
  induction l with
  | nil => cases hx
  | cons z rest ih =>
      obtain ⟨new, d'⟩ := distinct_cons.mp d
      rcases List.mem_cons.mp hx with hxz | hx <;> rcases List.mem_cons.mp hy with hyz | hy
      · rw [hxz, hyz]
      · rw [hxz] at same
        exact absurd ⟨y, hy, same⟩ new
      · rw [hyz] at same
        exact absurd ⟨x, hx, equiv.symm same⟩ new
      · exact ih d' hx hy

/-- Only one element has the key. -/
theorem Distinct.apart (equiv : Equivalence eq) (d : Distinct key eq (l ++ x :: r))
    (same : eq k (key x)) : ∀ y, y ∈ l ∨ y ∈ r → ¬ eq k (key y) := by
  have new := (distinct_cons.mp (d.of_perm equiv List.perm_middle)).1
  intro y hy equal
  exact new ⟨y, List.mem_append.mpr hy, equiv.trans (equiv.symm same) equal⟩

variable [DecidableRel eq]

/-- A change of the element of a key changes no other. -/
theorem map_split (equiv : Equivalence eq) (d : Distinct key eq (l ++ x :: r))
    (same : eq k (key x)) (f : A → A) :
    (l ++ x :: r).map (fun y => if eq k (key y) then f y else y) = l ++ f x :: r := by
  have apart := d.apart equiv same
  have kept : ∀ m : List A, (∀ y ∈ m, y ∈ l ∨ y ∈ r) →
      m.map (fun y => if eq k (key y) then f y else y) = m := by
    intro m inside
    calc m.map (fun y => if eq k (key y) then f y else y)
        = m.map id := List.map_congr_left fun y hy => if_neg (apart y (inside y hy))
      _ = m := List.map_id m
  rw [List.map_append, List.map_cons, if_pos same, kept l fun _ => .inl, kept r fun _ => .inr]

/-- The element of a key, if there is one. -/
def find (key : A → K) (eq : K → K → Prop) [DecidableRel eq] (k : K) (l : List A) : Option A :=
  l.find? fun y => decide (eq k (key y))

theorem find_split (equiv : Equivalence eq) (d : Distinct key eq (l ++ x :: r))
    (same : eq k (key x)) : find key eq k (l ++ x :: r) = some x := by
  have apart := d.apart equiv same
  rw [find, List.find?_append, List.find?_eq_none.mpr (fun y hy => by simpa using apart y (.inl hy)),
    Option.none_or, List.find?_cons_of_pos (by simpa using same)]

theorem find_absent (absent : ¬ Has key eq k l) : find key eq k l = none :=
  List.find?_eq_none.mpr fun y hy => by simpa using fun same => absent ⟨y, hy, same⟩

theorem find_skip (other : ¬ eq k (key x)) :
    find key eq k (l ++ x :: r) = find key eq k (l ++ r) := by
  unfold find
  rw [List.find?_append, List.find?_append, List.find?_cons_of_neg (by simpa using other)]

/-- A key is in the collection exactly once, or not at all. -/
theorem Distinct.cases (equiv : Equivalence eq) (d : Distinct key eq l) (k : K) :
    (∃ m x r, l = m ++ x :: r ∧ eq k (key x) ∧ find key eq k l = some x) ∨
      (¬ Has key eq k l ∧ find key eq k l = none) := by
  by_cases has : Has key eq k l
  · obtain ⟨x, hx, same⟩ := has
    obtain ⟨m, r, rfl⟩ := List.append_of_mem hx
    exact .inl ⟨m, x, r, rfl, same, find_split equiv d same⟩
  · exact .inr ⟨has, find_absent has⟩

theorem Distinct.find_perm (equiv : Equivalence eq) (d : Distinct key eq l) (h : l.Perm l')
    (k : K) : find key eq k l' = find key eq k l := by
  have d' := d.of_perm equiv h
  rcases d.cases equiv k with ⟨m, x, r, rfl, same, found⟩ | ⟨absent, found⟩
  · obtain ⟨m', r', rfl⟩ := List.append_of_mem (h.mem_iff.mp (by simp : x ∈ m ++ x :: r))
    rw [found, find_split equiv d' same]
  · rw [found, find_absent (mt (Has.of_perm h).mpr absent)]

theorem mem_without : x ∈ without key eq k l ↔ x ∈ l ∧ ¬ eq k (key x) := by
  simp [without]

theorem without_absent (absent : ¬ Has key eq k l) : without key eq k l = l := by
  apply List.filter_eq_self.mpr
  intro x hx
  simpa using fun same => absent ⟨x, hx, same⟩

theorem has_without (equiv : Equivalence eq) :
    Has key eq k (Keyed.without key eq k' l) ↔ Has key eq k l ∧ ¬ eq k' k := by
  constructor
  · rintro ⟨x, hx, same⟩
    obtain ⟨hx, other⟩ := mem_without.mp hx
    exact ⟨⟨x, hx, same⟩, fun equal => other (equiv.trans equal same)⟩
  · rintro ⟨⟨x, hx, same⟩, other⟩
    exact ⟨x, mem_without.mpr ⟨hx, fun equal => other (equiv.trans equal (equiv.symm same))⟩, same⟩

/-- Taking a key out takes out its element. -/
theorem without_split (equiv : Equivalence eq) (d : Distinct key eq (l ++ x :: r))
    (same : eq k (key x)) : Keyed.without key eq k (l ++ x :: r) = l ++ r := by
  have apart := d.apart equiv same
  have left : ¬ Has key eq k l := fun ⟨y, hy, h⟩ => apart y (.inl hy) h
  have right : ¬ Has key eq k r := fun ⟨y, hy, h⟩ => apart y (.inr hy) h
  have here : Keyed.without key eq k (x :: r) = Keyed.without key eq k r :=
    List.filter_cons_of_neg (by simpa using same)
  unfold Keyed.without at *
  rw [List.filter_append, here]
  exact congrArg₂ (· ++ ·) (without_absent left) (without_absent right)

end

end Colinlib.Theory.Keyed
