import Mathlib.Data.List.Basic
import Mathlib.Data.List.Nodup
import Mathlib.Logic.Function.Basic

/-!
# Null-terminated linked lists

A memory of `next` pointers is a function; `none` is the null pointer. `Path`
says which nodes are passed on the way from one pointer to another, and a chain
is a path that ends in null. A doubly linked list is a chain in both directions;
its two ends are alike, so each operation on it is proved at one of them.
-/
namespace Colinlib.Theory.Chains

variable {A : Type}

/-- Following `next` from `start` passes the nodes `xs` and then stands at `stop`. -/
def Path (next : A → Option A) : Option A → List A → Option A → Prop
  | start, [], stop => start = stop
  | start, x :: rest, stop => start = some x ∧ Path next (next x) rest stop

def Chain (next : A → Option A) (start : Option A) (xs : List A) : Prop :=
  Path next start xs none

section
variable {next next' : A → Option A} {start stop mid : Option A} {xs ys : List A}

theorem Path.append (h : Path next start xs mid) (h' : Path next mid ys stop) :
    Path next start (xs ++ ys) stop := by
  induction xs generalizing start with
  | nil =>
      cases h
      exact h'
  | cons x rest ih => exact ⟨h.1, ih h.2⟩

theorem Path.split (h : Path next start (xs ++ ys) stop) :
    ∃ mid, Path next start xs mid ∧ Path next mid ys stop := by
  induction xs generalizing start with
  | nil => exact ⟨start, rfl, h⟩
  | cons x rest ih =>
      obtain ⟨mid, first, second⟩ := ih h.2
      exact ⟨mid, ⟨h.1, first⟩, second⟩

theorem Path.congr (h : Path next start xs stop) (agree : ∀ x ∈ xs, next' x = next x) :
    Path next' start xs stop := by
  induction xs generalizing start with
  | nil => exact h
  | cons x rest ih =>
      refine ⟨h.1, ?_⟩
      rw [agree x (by simp)]
      exact ih h.2 (fun y hy => agree y (by simp [hy]))

theorem Chain.congr (h : Chain next start xs) (agree : ∀ x ∈ xs, next' x = next x) :
    Chain next' start xs := Path.congr h agree

/-- A chain's nodes are determined by where it starts. -/
theorem Chain.unique (h : Chain next start xs) (h' : Chain next start ys) : xs = ys := by
  induction xs generalizing start ys with
  | nil =>
      cases ys with
      | nil => rfl
      | cons y rest => cases h.symm.trans h'.1
  | cons x rest ih =>
      cases ys with
      | nil => cases h.1.symm.trans h'
      | cons y rest' =>
          obtain rfl : x = y := Option.some.inj (h.1.symm.trans h'.1)
          rw [ih h.2 h'.2]

/-- A chain that ends passes no node twice. -/
theorem Chain.nodup (h : Chain next start xs) : xs.Nodup := by
  induction xs generalizing start with
  | nil => exact List.nodup_nil
  | cons x rest ih =>
      refine List.nodup_cons.mpr ⟨?_, ih h.2⟩
      intro again
      obtain ⟨before, after, split⟩ := List.append_of_mem again
      obtain ⟨mid, -, tail⟩ := Path.split (split ▸ h.2)
      have whole : Chain next (some x) (x :: rest) := ⟨rfl, h.2⟩
      have part : Chain next (some x) (x :: after) := ⟨rfl, tail.2⟩
      have equal := whole.unique part
      have lengths := congrArg List.length split
      rw [List.cons.inj equal |>.2, List.length_append, List.length_cons] at lengths
      omega

theorem Chain.tail {x : A} (h : Chain next start (x :: xs)) : Chain next (next x) xs := h.2

theorem Chain.start_eq (h : Chain next start xs) : start = xs.head? := by
  cases xs with
  | nil => exact h
  | cons x rest => exact h.1

theorem Chain.next_eq {x : A} (h : Chain next start (xs ++ x :: ys)) : next x = ys.head? := by
  obtain ⟨mid, -, tail⟩ := Path.split h
  exact Chain.start_eq tail.2

end

section Doubly

variable {next prev : A → Option A} {head tail : Option A} {xs l r : List A} {a : A}

/-- The nodes `xs` from `head` by `next`, and the same backwards from `tail` by `prev`. -/
structure Double (prev next : A → Option A) (head tail : Option A) (xs : List A) : Prop where
  forward : Chain next head xs
  backward : Chain prev tail xs.reverse

theorem Double.flip (h : Double prev next head tail xs) : Double next prev tail head xs.reverse where
  forward := h.backward
  backward := by
    rw [List.reverse_reverse]
    exact h.forward

theorem Double.next_eq (h : Double prev next head tail (l ++ a :: r)) : next a = r.head? :=
  h.forward.next_eq

theorem Double.prev_eq (h : Double prev next head tail (l ++ a :: r)) : prev a = l.getLast? := by
  have backward := h.backward
  rw [List.reverse_append, List.reverse_cons, List.append_assoc, List.singleton_append] at backward
  rw [backward.next_eq, List.head?_reverse]

theorem double_single {prev next : A → Option A} (hp : prev a = none) (hn : next a = none) :
    Double prev next (some a) (some a) [a] :=
  ⟨⟨rfl, hn⟩, ⟨rfl, hp⟩⟩

end Doubly

section Surgery

variable [DecidableEq A] {next prev : A → Option A} {head tail start : Option A}
  {xs l r : List A} {a : A}

theorem Chain.update (h : Chain next start xs) (ha : a ∉ xs) (v : Option A) :
    Chain (Function.update next a v) start xs := by
  apply h.congr
  intro x hx
  have ne : x ≠ a := fun same => ha (same ▸ hx)
  exact Function.update_of_ne ne _ _

theorem Chain.push (h : Chain next start xs) (ha : a ∉ xs) :
    Chain (Function.update next a start) (some a) (a :: xs) := by
  refine ⟨rfl, ?_⟩
  rw [Function.update_self]
  exact h.update ha start

/-- A pointer is written at a node, if there is one. -/
def bypass (next : A → Option A) (at' v : Option A) : A → Option A :=
  match at' with
  | none => next
  | some p => Function.update next p v

theorem bypass_bypass (next : A → Option A) (at' v w : Option A) :
    bypass (bypass next at' v) at' w = bypass next at' w := by
  cases at' with
  | none => rfl
  | some p => exact Function.update_idem _ _ _

theorem bypass_apply (next : A → Option A) (at' v : Option A) (a : A) :
    bypass next at' v a = if at' = some a then v else next a := by
  cases at' with
  | none => rfl
  | some p => simp [bypass, Function.update_apply, eq_comm]

/-- A node is taken out by its predecessor, or at the head. -/
theorem Chain.remove (h : Chain next start (l ++ a :: r)) :
    Chain (bypass next l.getLast? (next a)) (if start = some a then next a else start) (l ++ r) := by
  have once := h.nodup
  rcases List.eq_nil_or_concat l with rfl | ⟨l', p, rfl⟩
  · rw [if_pos h.1]
    exact h.tail
  · simp only [List.concat_eq_append, List.append_assoc, List.cons_append, List.nil_append] at *
    have apart : start ≠ some a := by
      intro same
      rw [h.start_eq] at same
      rcases l' with _ | ⟨x, l''⟩
      · obtain rfl : p = a := Option.some.inj same
        simp at once
      · obtain rfl : x = a := Option.some.inj same
        simp at once
    rw [if_neg apart, List.getLast?_append, List.getLast?_singleton, Option.some_or]
    obtain ⟨mid, before, after⟩ := Path.split h
    obtain ⟨before_nodup, after_nodup, disjoint⟩ := List.nodup_append.mp once
    refine Path.append (before.congr fun x hx => ?_) ⟨after.1, ?_⟩
    · exact Function.update_of_ne (fun same => disjoint x hx p (by simp) same) _ _
    · rw [bypass, Function.update_self]
      apply Chain.update after.2.2
      have := (List.nodup_cons.mp after_nodup).1
      exact fun hp => this (List.mem_cons_of_mem _ hp)

theorem Double.remove_forward (h : Double prev next head tail (l ++ a :: r)) :
    Chain (bypass next (prev a) (next a)) (if head = some a then next a else head) (l ++ r) := by
  rw [h.prev_eq]
  exact h.forward.remove

/-- A node is taken out. -/
theorem Double.remove (h : Double prev next head tail (l ++ a :: r)) :
    Double (bypass prev (next a) (prev a)) (bypass next (prev a) (next a))
      (if head = some a then next a else head) (if tail = some a then prev a else tail)
      (l ++ r) where
  forward := h.remove_forward
  backward := by
    have flipped := h.flip
    rw [List.reverse_append, List.reverse_cons, List.append_assoc,
      List.singleton_append] at flipped
    rw [List.reverse_append]
    exact flipped.remove_forward

/-- A node is put into a gap: its predecessor points to it, or the start does. -/
theorem Chain.insert (h : Chain next start (l ++ r)) (ha : a ∉ l ++ r) :
    Chain (bypass (Function.update next a r.head?) l.getLast? (some a))
      (if l = [] then some a else start) (l ++ a :: r) := by
  rcases List.eq_nil_or_concat l with rfl | ⟨l', p, rfl⟩
  · have first : Chain next start r := h
    rw [if_pos rfl, ← first.start_eq]
    exact first.push ha
  · simp only [List.concat_eq_append, List.append_assoc, List.cons_append, List.nil_append] at *
    have once := h.nodup
    obtain ⟨before_nodup, after_nodup, disjoint⟩ := List.nodup_append.mp once
    rw [if_neg (by simp), List.getLast?_append, List.getLast?_singleton, Option.some_or, bypass]
    obtain ⟨mid, before, here, after⟩ := Path.split h
    have apart : a ≠ p := fun same => ha (by simp [same])
    refine Path.append (before.congr fun x hx => ?_) ⟨here, ?_⟩
    · have ne : x ≠ p := fun same => disjoint x hx p (by simp) same
      have ne' : x ≠ a := fun same => ha (List.mem_append_left _ (same ▸ hx))
      rw [Function.update_of_ne ne, Function.update_of_ne ne']
    · rw [Function.update_self]
      refine ⟨rfl, ?_⟩
      rw [Function.update_of_ne apart, Function.update_self, ← Chain.start_eq after]
      have outside : a ∉ r := fun hr => ha (by simp [hr])
      exact (Chain.update after outside _).update (List.nodup_cons.mp after_nodup).1 _

/-- A node is put into a gap. -/
theorem Double.insert (h : Double prev next head tail (l ++ r)) (ha : a ∉ l ++ r) :
    Double (bypass (Function.update prev a l.getLast?) r.head? (some a))
      (bypass (Function.update next a r.head?) l.getLast? (some a))
      (if l = [] then some a else head) (if r = [] then some a else tail) (l ++ a :: r) where
  forward := h.forward.insert ha
  backward := by
    have backward := h.backward
    rw [List.reverse_append] at backward
    have inserted := backward.insert (a := a) (by simpa [or_comm] using ha)
    rw [List.head?_reverse, List.getLast?_reverse] at inserted
    simp only [List.reverse_eq_nil_iff] at inserted
    simpa using inserted

/-- A node is added before the head of a list that is not empty. -/
theorem Double.push {x : A} (h : Double prev next (some x) tail xs) (ha : a ∉ xs) :
    Double (Function.update (Function.update prev a none) x (some a))
      (Function.update next a (some x)) (some a) tail (a :: xs) := by
  have inserted := Double.insert (l := []) h ha
  have start : xs.head? = some x := (Chain.start_eq h.forward).symm
  have more : xs ≠ [] := fun empty => by simp [empty] at start
  rw [if_neg more, start] at inserted
  exact inserted

/-- A node is added after the tail of a list that is not empty. -/
theorem Double.append {x : A} (h : Double prev next head (some x) xs) (ha : a ∉ xs) :
    Double (Function.update prev a (some x))
      (Function.update (Function.update next a none) x (some a)) head (some a) (xs ++ [a]) := by
  have pushed := (h.flip.push (by simpa using ha)).flip
  rw [List.reverse_cons, List.reverse_reverse] at pushed
  exact pushed

end Surgery

/-! ## Lists with their ends -/

/-- The links of a doubly linked list and its ends. -/
structure Links where
  prev : Nat → Option Nat
  next : Nat → Option Nat
  head : Option Nat
  tail : Option Nat

def Links.setPrev (l : Links) (a : Nat) (v : Option Nat) : Links :=
  { l with prev := Function.update l.prev a v }

def Links.setNext (l : Links) (a : Nat) (v : Option Nat) : Links :=
  { l with next := Function.update l.next a v }

def Links.dropHead (l : Links) (a : Nat) : Links :=
  if l.head = some a then { l with head := l.next a } else l

def Links.dropTail (l : Links) (a : Nat) : Links :=
  if l.tail = some a then { l with tail := l.prev a } else l

/-- The head moves on, and nothing is before it. -/
def Links.cutHead (l : Links) (a : Nat) : Links :=
  if l.head = some a then { l with head := l.next a, prev := bypass l.prev (l.next a) none } else l

def Links.cutTail (l : Links) (a : Nat) : Links :=
  if l.tail = some a then { l with tail := l.prev a, next := bypass l.next (l.prev a) none } else l

def Links.skipForward (l : Links) (a : Nat) : Links :=
  { l with next := bypass l.next (l.prev a) (l.next a) }

def Links.skipBackward (l : Links) (a : Nat) : Links :=
  { l with prev := bypass l.prev (l.next a) (l.prev a) }

/-- The neighbours of a node skip it. -/
def Links.skip (l : Links) (a : Nat) : Links := (l.skipForward a).skipBackward a

/-- A node is put between two neighbours, at an end where one is missing. -/
def Links.insert (l : Links) (a : Nat) (p n : Option Nat) : Links where
  prev := bypass (Function.update l.prev a p) n (some a)
  next := bypass (Function.update l.next a n) p (some a)
  head := if p = none then some a else l.head
  tail := if n = none then some a else l.tail

theorem Links.setPrev_self {l : Links} {a : Nat} {v : Option Nat} (h : v = l.prev a) :
    l.setPrev a v = l := by
  rw [Links.setPrev, Function.update_eq_self_iff.mpr h]

theorem Links.setNext_self {l : Links} {a : Nat} {v : Option Nat} (h : v = l.next a) :
    l.setNext a v = l := by
  rw [Links.setNext, Function.update_eq_self_iff.mpr h]

section Ends

variable {l : Links} {a x : Nat} {xs ys : List Nat}

@[simp] theorem Links.dropHead_prev : (l.dropHead a).prev = l.prev := by
  unfold Links.dropHead
  split <;> rfl

@[simp] theorem Links.dropHead_next : (l.dropHead a).next = l.next := by
  unfold Links.dropHead
  split <;> rfl

@[simp] theorem Links.dropHead_tail : (l.dropHead a).tail = l.tail := by
  unfold Links.dropHead
  split <;> rfl

@[simp] theorem Links.dropTail_prev : (l.dropTail a).prev = l.prev := by
  unfold Links.dropTail
  split <;> rfl

@[simp] theorem Links.dropTail_next : (l.dropTail a).next = l.next := by
  unfold Links.dropTail
  split <;> rfl

@[simp] theorem Links.dropTail_head : (l.dropTail a).head = l.head := by
  unfold Links.dropTail
  split <;> rfl

theorem Links.dropHead_head : (l.dropHead a).head = if l.head = some a then l.next a else l.head := by
  unfold Links.dropHead
  split <;> rfl

theorem Links.dropTail_tail : (l.dropTail a).tail = if l.tail = some a then l.prev a else l.tail := by
  unfold Links.dropTail
  split <;> rfl

/-- A node's own link forward is kept by the write at its predecessor. -/
theorem Links.skipForward_next (l : Links) (a : Nat) : (l.skipForward a).next a = l.next a := by
  unfold Links.skipForward
  cases hp : l.prev a with
  | none => rfl
  | some p => simp [bypass, Function.update_apply]

/-- The links are a doubly linked list of the nodes `xs`. -/
def Links.Holds (l : Links) (xs : List Nat) : Prop := Double l.prev l.next l.head l.tail xs

/-- A node is taken out of the list: first at the ends, then between its neighbours. -/
theorem Links.Holds.unlink (h : l.Holds (xs ++ a :: ys)) :
    (((l.dropHead a).dropTail a).skip a).Holds (xs ++ ys) := by
  have removed := Double.remove h
  rw [← Links.dropHead_head, ← Links.dropTail_tail] at removed
  unfold Links.Holds Links.skip
  have next := Links.skipForward_next ((l.dropHead a).dropTail a) a
  simp only [Links.skipBackward, next]
  simp only [Links.skipForward, Links.dropTail_prev, Links.dropTail_next, Links.dropTail_head,
    Links.dropHead_prev, Links.dropHead_next]
  rw [Links.dropTail_tail, Links.dropHead_tail, Links.dropHead_prev, ← Links.dropTail_tail]
  exact removed

@[simp] theorem Links.cutHead_next : (l.cutHead a).next = l.next := by
  unfold cutHead
  split <;> rfl

@[simp] theorem Links.cutTail_prev : (l.cutTail a).prev = l.prev := by
  unfold cutTail
  split <;> rfl

/-- A node that is cut off still knows no more than it did. -/
theorem Links.cutHead_prev {p : Nat} (h : (l.cutHead a).prev a = some p) : l.prev a = some p := by
  unfold cutHead at h
  split at h
  · simp only [bypass_apply] at h
    split at h
    · cases h
    · exact h
  · exact h

theorem Links.cutTail_next {p : Nat} (h : (l.cutTail a).next a = some p) : l.next a = some p := by
  unfold cutTail at h
  split at h
  · simp only [bypass_apply] at h
    split at h
    · cases h
    · exact h
  · exact h

/-- What the ends write at their neighbours is written again between them. -/
theorem Links.cut_skip (first : l.head = some a → l.prev a = none)
    (last : l.tail = some a → l.next a = none) :
    ((l.cutHead a).cutTail a).skip a = ((l.dropHead a).dropTail a).skip a := by
  unfold cutHead cutTail dropHead dropTail skip skipForward skipBackward
  by_cases head : l.head = some a
  · by_cases tail : l.tail = some a
    · simp [head, tail, first head, last tail, bypass]
    · simp [head, tail, first head, bypass_apply, bypass_bypass]
  · by_cases tail : l.tail = some a
    · simp [head, tail, last tail, bypass_apply, bypass_bypass]
    · simp [head, tail]

def Links.first (l : Links) (a x : Nat) : Links :=
  { prev := Function.update (Function.update l.prev a none) x (some a)
    next := Function.update l.next a (some x), head := some a, tail := l.tail }

def Links.last (l : Links) (a x : Nat) : Links :=
  { prev := Function.update l.prev a (some x)
    next := Function.update (Function.update l.next a none) x (some a)
    head := l.head, tail := some a }

theorem Links.Holds.first (h : l.Holds xs) (head : l.head = some x) (ha : a ∉ xs) :
    (l.first a x).Holds (a :: xs) := by
  unfold Links.Holds at h
  rw [head] at h
  exact h.push ha

theorem Links.Holds.last (h : l.Holds xs) (tail : l.tail = some x) (ha : a ∉ xs) :
    (l.last a x).Holds (xs ++ [a]) := by
  unfold Links.Holds at h
  rw [tail] at h
  exact h.append ha

theorem Links.Holds.insert (h : l.Holds (xs ++ ys)) (ha : a ∉ xs ++ ys) :
    (l.insert a xs.getLast? ys.head?).Holds (xs ++ a :: ys) := by
  have inserted := Double.insert h ha
  unfold Links.Holds Links.insert
  simp only [List.getLast?_eq_none_iff, List.head?_eq_none_iff]
  exact inserted

/-- Links of nodes outside the list do not matter. -/
theorem Links.Holds.forget (h : l.Holds xs) (ha : a ∉ xs) :
    ((l.setPrev a none).setNext a none).Holds xs :=
  ⟨Chain.update h.forward ha none, Chain.update h.backward (by simpa using ha) none⟩

variable {zs : List Nat}

theorem Links.Holds.empty_iff {k : Links} (h : k.Holds xs) : k.head = none ↔ xs = [] := by
  rw [Chain.start_eq h.forward, List.head?_eq_none_iff]

theorem Links.Holds.head_mem {k : Links} {x : Nat} (h : k.Holds xs) (head : k.head = some x) :
    x ∈ xs :=
  List.mem_of_head? ((Chain.start_eq h.forward).symm.trans head)

theorem Links.Holds.tail_mem {k : Links} {x : Nat} (h : k.Holds xs) (tail : k.tail = some x) :
    x ∈ xs := by
  have last := (Chain.start_eq h.backward).symm.trans tail
  exact List.mem_reverse.mp (List.mem_of_head? last)

theorem Links.Holds.head_some {k : Links} (h : k.Holds xs) (more : xs ≠ []) :
    ∃ x, k.head = some x := by
  rw [Chain.start_eq h.forward]
  exact ⟨_, List.head?_eq_some_head more⟩

theorem Links.Holds.tail_some {k : Links} (h : k.Holds xs) (more : xs ≠ []) :
    ∃ x, k.tail = some x := by
  rw [Chain.start_eq h.backward, List.head?_reverse]
  exact ⟨_, List.getLast?_eq_some_getLast more⟩

theorem Links.Holds.head_iff {k : Links} (h : k.Holds (ys ++ a :: zs)) :
    k.head = some a ↔ ys = [] := by
  have once := (List.nodup_append.mp (Chain.nodup h.forward)).2.2
  rw [Chain.start_eq h.forward]
  cases ys with
  | nil => simp
  | cons y rest =>
      refine iff_of_false (fun same => ?_) (by simp)
      exact once y (by simp) a (by simp) (Option.some.inj same)

theorem Links.Holds.tail_iff {k : Links} (h : k.Holds (ys ++ a :: zs)) :
    k.tail = some a ↔ zs = [] := by
  have flipped : Links.Holds ⟨k.next, k.prev, k.tail, k.head⟩ (zs.reverse ++ a :: ys.reverse) := by
    have flipped := Double.flip h
    rw [List.reverse_append, List.reverse_cons, List.append_assoc,
      List.singleton_append] at flipped
    exact flipped
  exact flipped.head_iff.trans List.reverse_eq_nil_iff

/-- A node is taken out by code that also cuts the list at its ends. -/
theorem Links.Holds.cut (h : l.Holds (xs ++ a :: ys)) :
    (((l.cutHead a).cutTail a).skip a).Holds (xs ++ ys) := by
  rw [Links.cut_skip]
  · exact h.unlink
  · intro head
    rw [Double.prev_eq h, h.head_iff.mp head]
    rfl
  · intro tail
    rw [Double.next_eq h, h.tail_iff.mp tail]
    rfl

end Ends

end Colinlib.Theory.Chains
