import Colinlib.Guarantees.SetRedBlack
import Colinlib.Theory.Keyed

/-!
# The red-black set is a set

What the set holds is read from the history of its additions and deletions: an
element is present when one equal to it was added and not deleted since, and what
is stored for it are the bytes it was first added with.
-/
namespace Colinlib.Guarantees.SetSemantics
open Colinlib.Theory Colinlib.Theory.CMemory Colinlib.Theory.RedBlack Colinlib.Theory.Runs
open Colinlib.Source.Set
open Colinlib.Guarantees.SetRedBlack (RedBlackSet redBlackSet_of_valid)

variable {α : Type}

inductive Event (α : Type) where
  | added (x : α)
  | deleted (x : α)

/-- Some element with the property `P` was added and not deleted since, in a history
(newest event first). `P` also sees the history before the addition. -/
def Since (cmp : α → α → Int) (P : α → List (Event α) → Prop) (hist : List (Event α)) : Prop :=
  ∃ later y pre, hist = later ++ .added y :: pre ∧ P y pre ∧
    ∀ z, .deleted z ∈ later → cmp z y ≠ 0

def Present (cmp : α → α → Int) (hist : List (Event α)) (x : α) : Prop :=
  Since cmp (fun y _ => cmp x y = 0) hist

/-- `x` was added when nothing equal to it was present, and is not deleted since. -/
def FirstAdded (cmp : α → α → Int) (hist : List (Event α)) (x : α) : Prop :=
  Since cmp (fun y pre => y = x ∧ ¬ Present cmp pre x) hist

/-- The equality of the comparator. -/
def Same (cmp : α → α → Int) (x y : α) : Prop := cmp x y = 0

instance (cmp : α → α → Int) : DecidableRel (Same cmp) :=
  fun x y => inferInstanceAs (Decidable (cmp x y = 0))

abbrev Has (cmp : α → α → Int) (x : α) (l : List α) : Prop := Keyed.Has id (Same cmp) x l

abbrev without (cmp : α → α → Int) (x : α) (l : List α) : List α := Keyed.without id (Same cmp) x l

/-- The abstract set: the elements it stores, the newest first. -/
def elements (cmp : α → α → Int) : List (Event α) → List α
  | [] => []
  | .added x :: h => if Has cmp x (elements cmp h) then elements cmp h else x :: elements cmp h
  | .deleted x :: h => without cmp x (elements cmp h)

section Histories

variable {cmp : α → α → Int} {hist : List (Event α)} {P : α → List (Event α) → Prop} {x y : α}

theorem same_equivalence (hc : Consistent cmp) : Equivalence (Same cmp) where
  refl x := by
    have := hc.antisymm x x
    unfold Same
    omega
  symm := by
    intro x y h
    have h₁ := hc.antisymm x y
    have h₂ := hc.antisymm y x
    unfold Same at *
    omega
  trans := by
    intro x y z hxy hyz
    have hxz := hc.trans x y z (by unfold Same at hxy; omega) (by unfold Same at hyz; omega)
    have h₁ := hc.antisymm x y
    have h₂ := hc.antisymm y x
    have h₃ := hc.antisymm y z
    have h₄ := hc.antisymm z y
    have h₅ := hc.antisymm x z
    have h₆ := hc.antisymm z x
    unfold Same at *
    have hzx := hc.trans z y x (by omega) (by omega)
    omega

theorem since_nil : ¬ Since cmp P [] := by
  rintro ⟨later, y, pre, split, -⟩
  cases later <;> cases split

theorem since_added : Since cmp P (.added x :: hist) ↔ P x hist ∨ Since cmp P hist := by
  constructor
  · rintro ⟨later, y, pre, split, holds, kept⟩
    cases later with
    | nil =>
        cases split
        exact .inl holds
    | cons e later =>
        cases split
        exact .inr ⟨later, y, pre, rfl, holds, fun z hz => kept z (List.mem_cons_of_mem _ hz)⟩
  · rintro (now | ⟨later, y, pre, rfl, holds, kept⟩)
    · exact ⟨[], x, hist, rfl, now, by simp⟩
    · exact ⟨.added x :: later, y, pre, rfl, holds, fun z hz => kept z (by simpa using hz)⟩

theorem since_deleted :
    Since cmp P (.deleted x :: hist) ↔ Since cmp (fun y pre => P y pre ∧ cmp x y ≠ 0) hist := by
  constructor
  · rintro ⟨later, y, pre, split, holds, kept⟩
    cases later with
    | nil => cases split
    | cons e later =>
        cases split
        exact ⟨later, y, pre, rfl, ⟨holds, kept x (by simp)⟩,
          fun z hz => kept z (List.mem_cons_of_mem _ hz)⟩
  · rintro ⟨later, y, pre, rfl, ⟨holds, other⟩, kept⟩
    refine ⟨.deleted x :: later, y, pre, rfl, holds, fun z hz => ?_⟩
    rcases List.mem_cons.mp hz with same | hz
    · cases same
      exact other
    · exact kept z hz

theorem Since.congr {Q : α → List (Event α) → Prop} (equal : ∀ y pre, P y pre ↔ Q y pre) :
    Since cmp P hist ↔ Since cmp Q hist := by
  have : P = Q := funext fun y => funext fun pre => propext (equal y pre)
  rw [this]

/-- A condition on the newest events only. -/
theorem Since.and_const {c : Prop} : Since cmp (fun y pre => P y pre ∧ c) hist ↔
    Since cmp P hist ∧ c := by
  constructor
  · rintro ⟨later, y, pre, split, ⟨holds, hc⟩, kept⟩
    exact ⟨⟨later, y, pre, split, holds, kept⟩, hc⟩
  · rintro ⟨⟨later, y, pre, split, holds, kept⟩, hc⟩
    exact ⟨later, y, pre, split, ⟨holds, hc⟩, kept⟩

theorem present_iff (hc : Consistent cmp) (hist : List (Event α)) (x : α) :
    Present cmp hist x ↔ Has cmp x (elements cmp hist) := by
  have equiv := same_equivalence hc
  induction hist with
  | nil =>
      refine iff_of_false since_nil ?_
      rintro ⟨y, hy, -⟩
      cases hy
  | cons e h ih =>
      cases e with
      | added y =>
          rw [Present, since_added, elements]
          split
          · next present =>
            refine ⟨?_, fun has => .inr (ih.mpr has)⟩
            rintro (same | before)
            · exact (Keyed.Has.congr equiv same).mpr present
            · exact ih.mp before
          · constructor
            · rintro (same | before)
              · exact ⟨y, by simp, same⟩
              · obtain ⟨z, hz, same⟩ := ih.mp before
                exact ⟨z, List.mem_cons_of_mem _ hz, same⟩
            · rintro ⟨z, hz, same⟩
              rcases List.mem_cons.mp hz with rfl | hz
              · exact .inl same
              · exact .inr (ih.mpr ⟨z, hz, same⟩)
      | deleted y =>
          have apart : ∀ z : α, cmp x z = 0 ∧ cmp y z ≠ 0 ↔ cmp x z = 0 ∧ cmp y x ≠ 0 := by
            intro z
            refine and_congr_right fun same => not_congr ⟨fun h => ?_, fun h => ?_⟩
            · exact equiv.trans h (equiv.symm same)
            · exact equiv.trans h same
          rw [Present, since_deleted, Since.congr (fun z _ => apart z), Since.and_const]
          exact (and_congr_left' ih).trans (Keyed.has_without equiv).symm

theorem mem_elements (hc : Consistent cmp) (hist : List (Event α)) (x : α) :
    x ∈ elements cmp hist ↔ FirstAdded cmp hist x := by
  induction hist with
  | nil => exact iff_of_false (by simp [elements]) since_nil
  | cons e h ih =>
      cases e with
      | added y =>
          rw [FirstAdded, since_added, elements]
          split
          · next present =>
            refine ih.trans ⟨.inr, ?_⟩
            rintro (⟨rfl, new⟩ | before)
            · exact absurd ((present_iff hc h y).mpr present) new
            · exact before
          · next new =>
            rw [List.mem_cons, ih]
            refine or_congr_left ⟨?_, fun h => h.1.symm⟩
            rintro rfl
            exact ⟨rfl, fun present => new ((present_iff hc h x).mp present)⟩
      | deleted y =>
          have apart : ∀ (z : α) (pre : List (Event α)),
              (z = x ∧ ¬ Present cmp pre x) ∧ cmp y z ≠ 0 ↔
                (z = x ∧ ¬ Present cmp pre x) ∧ cmp y x ≠ 0 := by
            intro z pre
            refine and_congr_right fun same => ?_
            rw [same.1]
          rw [FirstAdded, since_deleted, Since.congr apart, Since.and_const]
          exact Keyed.mem_without.trans (and_congr_left' ih)

end Histories

section Machine

inductive Op (α : Type) where
  | add (data : Data α)
  | delete (data : Data α)

/-- The caller's doing, or `size++` leaving the `int` range. -/
def Admitted : Halt Fault → Prop
  | .contract => True
  | .fault f => f = .intOverflow

abbrev World (α : Type) := Coset α × List (Event α)

/-- The call of an operation whose argument points to `x`. -/
def call (w : World α) (x : α) : Op α → Except Fault (World α)
  | .add _ => do
    let set ← cosetAdd w.1 x
    .ok (set, .added x :: w.2)
  | .delete _ => do
    let set ← cosetDelete w.1 x
    .ok (set, .deleted x :: w.2)

def Op.data : Op α → Data α
  | .add data | .delete data => data

/-- An argument that points into a node points into one that is there. -/
def step (w : World α) (op : Op α) : Except (Halt Fault) (World α) :=
  match readData w.1 op.data with
  | .error _ => .error .contract
  | .ok x =>
    match call w x op with
    | .error f => .error (.fault f)
    | .ok w' => .ok w'

def contents (t : ATree α) : List α := t.entries.map Prod.snd

/-- The set is a valid tree that stores the elements of its history. -/
structure Tracks (cmp : α → α → Int) (w : World α) (t : ATree α) : Prop where
  comp : w.1.fnComp = cmp
  valid : Valid w.1 t
  stores : (contents t).Perm (elements cmp w.2)

variable {cmp : α → α → Int} {w : World α} {t : ATree α}

theorem distinct_of_sorted {l : List (Nat × α)} (sorted : Sorted cmp l) :
    Keyed.Distinct id (Same cmp) (l.map Prod.snd) :=
  (sorted_iff.mp sorted).imp fun lt same => by
    unfold Same id at same
    omega

theorem has_contents {x : α} :
    Has cmp x (contents t) ↔ ∃ y ∈ t.entries, cmp x y.2 = 0 := by
  constructor
  · rintro ⟨y, hy, same⟩
    obtain ⟨e, he, rfl⟩ := List.mem_map.mp hy
    exact ⟨e, he, same⟩
  · rintro ⟨e, he, same⟩
    exact ⟨e.2, List.mem_map_of_mem he, same⟩

/-- An addition of a new element, or of one that is there. -/
theorem add_tracks (hc : Consistent cmp) (x : α) (h : Tracks cmp w t) :
    UnlessOverflow (cosetAdd w.1 x) (fun set => ∃ t', Tracks cmp (set, .added x :: w.2) t') := by
  obtain ⟨rfl, v, stores⟩ := h
  refine (cosetAdd_spec hc v x).mono ?_
  rintro set ⟨comp, t', v', ⟨rfl, rfl, found⟩ | ⟨l, r, old, new, -⟩⟩
  · refine ⟨t', rfl, v', ?_⟩
    rw [elements, if_pos ((Keyed.Has.of_perm stores).mp (has_contents.mpr found))]
    exact stores
  · have distinct := distinct_of_sorted v'.sorted
    rw [new, List.map_append, List.map_cons, comp] at distinct
    have absent : ¬ Has w.1.fnComp x (contents t) := by
      rw [contents, old, List.map_append]
      exact (Keyed.distinct_cons.mp
        (distinct.of_perm (same_equivalence hc) List.perm_middle)).1
    refine ⟨t', comp, v', ?_⟩
    rw [elements, if_neg (mt (Keyed.Has.of_perm stores).mpr absent)]
    rw [contents, old] at stores
    rw [contents, new, List.map_append, List.map_cons]
    refine List.perm_middle.trans (List.Perm.cons x ?_)
    rw [← List.map_append]
    exact stores

theorem delete_tracks (hc : Consistent cmp) (x : α) (h : Tracks cmp w t) :
    ∃ set t', cosetDelete w.1 x = .ok set ∧ Tracks cmp (set, .deleted x :: w.2) t' ∧
      contents t' = without cmp x (contents t) := by
  obtain ⟨rfl, v, stores⟩ := h
  obtain ⟨set, t', run, comp, v', effect⟩ := cosetDelete_spec hc v x
  have removed : contents t' = without w.1.fnComp x (contents t) := by
    rcases effect with ⟨rfl, rfl, absent⟩ | ⟨l, y, r, old, equal, new⟩
    · refine (Keyed.without_absent fun found => ?_).symm
      obtain ⟨y, hy, equal⟩ := has_contents.mp found
      exact absent y hy equal
    · have distinct := distinct_of_sorted v.sorted
      rw [contents, contents, new, old]
      rw [old] at distinct
      exact (Keyed.without_split (same_equivalence hc) distinct equal).symm
  refine ⟨set, t', run, ⟨comp, v', ?_⟩, removed⟩
  rw [removed]
  exact stores.filter _

theorem step_tracks (hc : Consistent cmp) (w : World α) (op : Op α)
    (h : ∃ t, Tracks cmp w t) :
    Outcome Admitted (fun w' => ∃ t, Tracks cmp w' t) (step w op) := by
  obtain ⟨t, h⟩ := h
  unfold step
  cases readData w.1 op.data with
  | error f => trivial
  | ok x =>
      cases op with
      | add data =>
          have added := add_tracks hc x h
          simp only [call]
          cases run : cosetAdd w.1 x with
          | error f =>
              rw [run] at added
              exact added
          | ok set =>
              rw [run] at added
              exact added
      | delete data =>
          obtain ⟨set, t', run, h', -⟩ := delete_tracks hc x h
          simp only [call, run]
          exact ⟨t', h'⟩

end Machine

/-- `l` is one element for each that is present, in the bytes it was first added with. -/
structure Content (cmp : α → α → Int) (hist : List (Event α)) (l : List α) : Prop where
  distinct : l.Pairwise fun x y => cmp x y ≠ 0
  covers : ∀ x, Present cmp hist x ↔ ∃ y ∈ l, cmp x y = 0
  first : ∀ x, x ∈ l ↔ FirstAdded cmp hist x

/-- The set is what its history makes it: the content of its nodes, its size, the
answers of `coset_exist`, and the effect of the next call. -/
structure Semantics (cmp : α → α → Int) (set : Coset α) (hist : List (Event α))
    (t : ATree α) : Prop where
  tree : RedBlackSet set t
  content : Content cmp hist (contents t)
  size : set.size = (contents t).length
  exist : ∀ x, ∃ b, cosetExist set x = .ok b ∧ (b = true ↔ Present cmp hist x)
  add_present : ∀ x, Present cmp hist x → cosetAdd set x = .ok set
  delete : ∀ x, ∃ set' t', cosetDelete set x = .ok set' ∧ RedBlackSet set' t' ∧
    contents t' = (contents t).filter fun y => cmp x y ≠ 0

theorem Tracks.semantics {cmp : α → α → Int} (hc : Consistent cmp) {w : World α} {t : ATree α}
    (h : Tracks cmp w t) : Semantics cmp w.1 w.2 t := by
  have present : ∀ x, Present cmp w.2 x ↔ Has cmp x (contents t) := fun x =>
    (present_iff hc w.2 x).trans (Keyed.Has.of_perm h.stores).symm
  refine ⟨redBlackSet_of_valid h.valid, ⟨?_, present, ?_⟩, ?_, ?_, ?_, ?_⟩
  · have sorted := h.valid.sorted
    rw [h.comp] at sorted
    exact distinct_of_sorted sorted
  · intro x
    rw [h.stores.mem_iff, mem_elements hc]
  · rw [h.valid.size, contents, List.length_map]
  · intro x
    obtain ⟨b, run, answer⟩ := cosetExist_spec (by rw [h.comp]; exact hc) h.valid x
    refine ⟨b, run, ?_⟩
    rw [answer, h.comp, present, has_contents]
  · intro x hx
    have found := has_contents.mp ((present x).mp hx)
    rw [← h.comp] at hc found
    exact cosetAdd_present hc h.valid found
  · intro x
    obtain ⟨set', t', run, h', removed⟩ := delete_tracks hc x h
    exact ⟨set', t', run, redBlackSet_of_valid h'.valid, removed⟩

end Colinlib.Guarantees.SetSemantics
