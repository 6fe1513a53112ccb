import Mathlib.Data.List.InsertIdx
import Mathlib.Order.Lattice

/-!
# Binary search with closed bounds

The keys are in increasing order; a search keeps two bounds, of which the upper one may fall
to `-1`, and the position and the key it looked at last. Each look narrows the bounds, and
where they have met the key belongs at the lower one.
-/
namespace Colinlib.Theory.Bisect

variable {κ : Type} [LinearOrder κ]

def Increasing (keys : List κ) : Prop := keys.Pairwise (· < ·)

/-- What a search for `key` knows of its bounds, and of the key it looked at last. -/
structure Bounds (keys : List κ) (key : κ) (mid low high : Int) (last : Option κ) : Prop where
  low_nonneg : 0 ≤ low
  high_lt : high < keys.length
  meet : low ≤ high + 1
  before : ∀ (i : Nat) (k : κ), keys[i]? = some k → (i : Int) < low → k < key
  after : ∀ (i : Nat) (k : κ), keys[i]? = some k → high < (i : Int) → key < k
  first : last = none → mid = low
  looked : ∀ k, last = some k → key < k ∧ mid = high + 1 ∨ k < key ∧ mid + 1 = low

variable {keys : List κ} {key : κ} {mid low high : Int} {last : Option κ}

theorem Increasing.lt (inc : Increasing keys) {i j : Nat} {a b : κ} (hij : i < j)
    (ha : keys[i]? = some a) (hb : keys[j]? = some b) : a < b := by
  obtain ⟨hi, rfl⟩ := List.getElem?_eq_some_iff.mp ha
  obtain ⟨hj, rfl⟩ := List.getElem?_eq_some_iff.mp hb
  exact List.pairwise_iff_getElem.mp inc i j hi hj hij

/-- A search begins with all positions. -/
theorem Bounds.start (keys : List κ) (key : κ) :
    Bounds keys key 0 0 (keys.length - 1 : Int) none where
  low_nonneg := Int.le_refl 0
  high_lt := by omega
  meet := by omega
  before i k _ lower := by omega
  after i k here higher := by
    have inside := (List.getElem?_eq_some_iff.mp here).1
    omega
  first _ := rfl
  looked k none := by cases none

theorem Bounds.right (inc : Increasing keys) (h : Bounds keys key mid low high last) {i : Nat}
    {k : κ} (here : keys[i]? = some k) (inside : low ≤ i ∧ (i : Int) ≤ high) (above : k < key) :
    Bounds keys key i (i + 1) high (some k) where
  low_nonneg := by omega
  high_lt := h.high_lt
  meet := by omega
  before j d at' lower := by
    rcases Nat.lt_or_ge j i with before | upto
    · exact lt_trans (inc.lt before at' here) above
    · have same : j = i := by omega
      rw [same, here, Option.some.injEq] at at'
      rwa [← at']
  after := h.after
  first none := by cases none
  looked d same := by
    cases same
    exact .inr ⟨above, rfl⟩

theorem Bounds.left (inc : Increasing keys) (h : Bounds keys key mid low high last) {i : Nat}
    {k : κ} (here : keys[i]? = some k) (inside : low ≤ i ∧ (i : Int) ≤ high) (below : key < k) :
    Bounds keys key i low (i - 1) (some k) where
  low_nonneg := h.low_nonneg
  high_lt := by
    have := h.high_lt
    omega
  meet := by omega
  before := h.before
  after j d at' higher := by
    rcases Nat.lt_or_ge i j with after | upto
    · exact lt_trans below (inc.lt after here at')
    · have same : j = i := by omega
      rw [same, here, Option.some.injEq] at at'
      rwa [← at']
  first none := by cases none
  looked d same := by
    cases same
    exact .inl ⟨below, by omega⟩

/-- Where the key belongs: all before it are less, and all from there on greater. -/
structure Gap (keys : List κ) (key : κ) (i : Nat) : Prop where
  inside : i ≤ keys.length
  before : ∀ k ∈ keys.take i, k < key
  after : ∀ k ∈ keys.drop i, key < k

/-- The bounds have met. What was looked at last is next to the gap. -/
theorem Bounds.met (h : Bounds keys key mid low high last) (closed : high < low) :
    Gap keys key low.toNat ∧ match last with
      | none => mid = low
      | some k => (key < k → mid = low) ∧ (¬ key < k → mid + 1 = low) := by
  have nonneg := h.low_nonneg
  have bounded := h.high_lt
  have meet := h.meet
  refine ⟨⟨by omega, fun k mem => ?_, fun k mem => ?_⟩, ?_⟩
  · obtain ⟨i, hi, rfl⟩ := List.getElem_of_mem mem
    rw [List.length_take] at hi
    rw [List.getElem_take]
    exact h.before i _ (List.getElem?_eq_getElem _) (by omega)
  · obtain ⟨i, hi, rfl⟩ := List.getElem_of_mem mem
    rw [List.length_drop] at hi
    rw [List.getElem_drop]
    exact h.after (low.toNat + i) _ (List.getElem?_eq_getElem _) (by omega)
  · cases last with
    | none => exact h.first rfl
    | some k =>
        rcases h.looked k rfl with ⟨below, place⟩ | ⟨above, place⟩
        · exact ⟨fun _ => by omega, fun no => absurd below no⟩
        · exact ⟨fun yes => absurd yes (lt_asymm above), fun _ => place⟩

/-- A key that has a gap is not among the keys. -/
theorem Gap.absent {i : Nat} (gap : Gap keys key i) : key ∉ keys := by
  intro mem
  rw [← List.take_append_drop i keys] at mem
  rcases List.mem_append.mp mem with left | right
  · exact lt_irrefl _ (gap.before key left)
  · exact lt_irrefl _ (gap.after key right)

theorem insertIdx_middle {α : Type} (l r : List α) (a : α) :
    (l ++ r).insertIdx l.length a = l ++ a :: r := by
  induction l with
  | nil => rfl
  | cons b l ih =>
      rw [List.cons_append, List.length_cons, List.insertIdx_succ_cons, ih]
      rfl

/-- Put there, it keeps the order. -/
theorem Gap.increasing {i : Nat} (inc : Increasing keys) (gap : Gap keys key i) :
    Increasing (keys.insertIdx i key) := by
  have length : (keys.take i).length = i := by
    rw [List.length_take, Nat.min_eq_left gap.inside]
  have middle : keys.insertIdx i key = keys.take i ++ key :: keys.drop i := by
    rw [← insertIdx_middle, length, List.take_append_drop]
  have split := inc
  unfold Increasing at split
  rw [← List.take_append_drop i keys] at split
  obtain ⟨left, right, across⟩ := List.pairwise_append.mp split
  rw [middle]
  refine List.pairwise_append.mpr ⟨left, List.pairwise_cons.mpr ⟨gap.after, right⟩, ?_⟩
  intro a ha b hb
  rcases List.mem_cons.mp hb with rfl | hb
  · exact gap.before a ha
  · exact across a ha b hb

/-- Where the key is, or where it belongs. -/
def Position (keys : List κ) (key : κ) (there : Bool) (i : Nat) : Prop :=
  if there then keys[i]? = some key else Gap keys key i

theorem Gap.le {i j : Nat} (one : Gap keys key i) (two : Gap keys key j) : i ≤ j := by
  by_contra beyond
  have inside : j < keys.length := Nat.lt_of_lt_of_le (Nat.lt_of_not_le beyond) one.inside
  have below := one.before keys[j] (List.mem_take_iff_getElem.mpr ⟨j, by omega, rfl⟩)
  have above := two.after keys[j] (List.mem_drop_iff_getElem.mpr ⟨0, by omega, rfl⟩)
  exact lt_asymm below above

/-- A search can end in one way only. -/
theorem Position.unique (inc : Increasing keys) {there there' : Bool} {i j : Nat}
    (one : Position keys key there i) (two : Position keys key there' j) :
    there = there' ∧ i = j := by
  have absent {i j : Nat} (at' : keys[i]? = some key) (gap : Gap keys key j) : False :=
    gap.absent (List.mem_of_getElem? at')
  cases there with
  | true =>
      cases there' with
      | true =>
          refine ⟨rfl, Nat.le_antisymm ?_ ?_⟩
          · exact Nat.le_of_not_lt fun lower => lt_irrefl _ (inc.lt lower two one)
          · exact Nat.le_of_not_lt fun lower => lt_irrefl _ (inc.lt lower one two)
      | false => exact (absent one two).elim
  | false =>
      cases there' with
      | true => exact (absent two one).elim
      | false => exact ⟨rfl, Nat.le_antisymm (one.le two) (two.le one)⟩

end Colinlib.Theory.Bisect
