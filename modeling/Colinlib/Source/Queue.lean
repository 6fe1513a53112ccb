import Colinlib.Source.Vec
import Colinlib.Theory.Fifo

/-!
# The queue: `co_queue.c`

A ring in a vector: the items lie from `head` to `tail`, past the end of the vector
to its beginning. One cell stays free, so that equal positions mean an empty queue.
-/
namespace Colinlib.Source.Queue
open Colinlib.Theory Colinlib.Theory.CMemory Colinlib.Source.Vec

variable {α : Type}

structure Coqueue (α : Type) where
  vec : Covec α
  head : Nat
  tail : Nat
  deriving DecidableEq, Repr

def initSize : Nat := 8

def coqueueNew (α : Type) (itemsize : Nat) : Except Fault (Coqueue α) := do
  return { vec := ← covecResize (covecNew α itemsize) initSize, head := 0, tail := 0 }

def coqueueSize (queue : Coqueue α) : Nat :=
  if queue.tail ≥ queue.head then queue.tail - queue.head
  else queue.vec.size - (queue.head - queue.tail)

/-- `_check_and_grow`: the items up to the old end move to the new end. -/
def checkAndGrow (queue : Coqueue α) : Except Fault (Coqueue α) := do
  let vecsize := queue.vec.size
  if (← int32 (coqueueSize queue + 1)) ≥ vecsize then
    let vec ← covecResize queue.vec (← int32 (vecsize * 2))
    if queue.tail < queue.head then
      let count := vecsize - queue.head
      let newhead := vec.size - count
      return { queue with vec := ← covecMove vec queue.head newhead count, head := newhead }
    return { queue with vec := vec }
  return queue

def coqueuePush (queue : Coqueue α) (data : α) : Except Fault (Coqueue α) := do
  let queue ← checkAndGrow queue
  let (_, vec) ← covecSet queue.vec queue.tail (some data)
  return { queue with vec := vec, tail := ← remainder (← int32 (queue.tail + 1)) vec.size }

/-- The item returned, or nothing where the function returns `false`. -/
def coqueuePop (queue : Coqueue α) : Except Fault (Option (Option α) × Coqueue α) := do
  if coqueueSize queue ≠ 0 then
    let data ← covecGet queue.vec queue.head
    return (data, { queue with head := ← remainder (← int32 (queue.head + 1)) queue.vec.size })
  return (none, queue)

def coqueuePeek (queue : Coqueue α) (index : Int) : Except Fault (Option (Option α)) := do
  let size := coqueueSize queue
  let index := fromEnd size index
  if index < 0 ∨ index ≥ size then return none
  let index ← remainder (← int32 (queue.head + index.toNat)) queue.vec.size
  covecGet queue.vec index

/-! ## The items of a queue -/

/-- The items from `head` on are `xs`, with room for one more. -/
structure Holds (queue : Coqueue α) (xs : List α) : Prop extends Shaped queue.vec where
  length : coqueueSize queue = xs.length
  room : xs.length < queue.vec.size
  head : queue.head < queue.vec.size
  tail : queue.tail < queue.vec.size
  cells : ∀ i a, xs[i]? = some a →
    queue.vec.data[(queue.head + i) % queue.vec.size]? = some (some a)

section Specs
variable {queue : Coqueue α} {xs : List α}

/-- A position that is at most once past the end. -/
theorem wrap_eq {n size : Nat} (bound : n < size + size) :
    n % size = if n < size then n else n - size := by
  split
  · next inside => exact Nat.mod_eq_of_lt inside
  · next outside =>
    rw [Nat.mod_eq_sub_mod (Nat.not_lt.mp outside)]
    exact Nat.mod_eq_of_lt (by omega)

/-- Where the item after the last one goes. -/
theorem Holds.end_eq (h : Holds queue xs) :
    (queue.head + xs.length) % queue.vec.size = queue.tail := by
  have length := h.length
  have head := h.head
  have tail := h.tail
  have room := h.room
  unfold coqueueSize at length
  rw [wrap_eq (by omega)]
  split <;> split at length <;> omega

theorem coqueueNew_spec (α : Type) (itemsize : Nat) :
    UnlessOverflow (coqueueNew α itemsize) (fun queue => Holds queue []) := by
  have new : Shaped (covecNew α itemsize) := ⟨rfl, Nat.le_refl 0⟩
  refine .bind (covecResize_spec new initSize) ?_
  rintro vec ⟨shaped, size, -⟩
  have positive : 0 < vec.size := by
    rw [size]
    exact Nat.succ_pos 7
  exact .pure ⟨shaped, rfl, positive, positive, positive, fun i a none => by cases none⟩

/-- Growing a queue keeps its items, also those that wrap around, and leaves room. -/
theorem checkAndGrow_spec (h : Holds queue xs) : UnlessOverflow (checkAndGrow queue)
    (fun queue' => Holds queue' xs ∧ xs.length + 1 < queue'.vec.size) := by
  have length := h.length
  have room := h.room
  have head := h.head
  have tail := h.tail
  have inside : ∀ {i a}, xs[i]? = some a → i < xs.length :=
    fun found => (List.getElem?_eq_some_iff.mp found).1
  unfold checkAndGrow
  refine .bind (.int32 _) fun n hn => ?_
  refine .ite (fun full => ?_) fun more => .pure ⟨h, by omega⟩
  refine .bind (.int32 _) fun size hsize => ?_
  refine .bind (covecResize_spec h.toShaped size) ?_
  rintro vec ⟨shaped, resized, same⟩
  have fits := shaped.fits
  have doubled : vec.size = queue.vec.size + queue.vec.size := by omega
  have old : ∀ k, k < queue.vec.size → vec.data[k]? = queue.vec.data[k]? :=
    fun k hk => same k hk (by omega)
  refine .ite (fun wrapped => ?_) fun straight => ?_
  · obtain ⟨vec', moved, shaped', size', cells⟩ := covecMove_spec shaped queue.head
      (vec.size - (queue.vec.size - queue.head)) (queue.vec.size - queue.head) (by omega) (by omega)
    simp only [moved, ok_bind]
    refine .pure ⟨⟨shaped', ?_, ?_, ?_, ?_, fun i a found => ?_⟩, ?_⟩
    · unfold coqueueSize at length ⊢
      simp only [size']
      rw [if_neg (by omega)] at length ⊢
      omega
    · simp only [size']
      omega
    · simp only [size']
      omega
    · simp only [size']
      omega
    · have bound := inside found
      have before := h.cells i a found
      simp only [size']
      generalize new : vec.size - (queue.vec.size - queue.head) = newhead at cells ⊢
      -- An item of the upper segment was moved, one of the lower segment was not.
      by_cases upper : i < queue.vec.size - queue.head
      · rw [Nat.mod_eq_of_lt (show queue.head + i < queue.vec.size by omega)] at before
        rw [Nat.mod_eq_of_lt (show newhead + i < vec.size by omega), cells, if_pos (by omega),
          old _ (by omega), ← before]
        congr 1
        omega
      · have from' : ¬ queue.head + i < queue.vec.size := by omega
        have to' : ¬ newhead + i < vec.size := by omega
        rw [wrap_eq (by omega), if_neg from'] at before
        rw [wrap_eq (by omega), if_neg to', cells, if_neg (by omega), old _ (by omega), ← before]
        congr 1
        omega
    · simp only [size']
      omega
  · refine .pure ⟨⟨shaped, ?_, ?_, ?_, ?_, fun i a found => ?_⟩, ?_⟩
    · unfold coqueueSize at length ⊢
      have order : queue.tail ≥ queue.head := by omega
      simp only [if_pos order] at length ⊢
      exact length
    · simp only
      omega
    · simp only
      omega
    · simp only
      omega
    · have bound := inside found
      have before := h.cells i a found
      have span : queue.tail - queue.head = xs.length := by
        unfold coqueueSize at length
        rwa [if_pos (by omega)] at length
      have low : queue.head + i < queue.vec.size := by omega
      rw [Nat.mod_eq_of_lt low] at before
      simp only
      rw [Nat.mod_eq_of_lt (show queue.head + i < vec.size by omega), old _ low, before]
    · simp only
      omega

theorem coqueuePush_spec (h : Holds queue xs) (x : α) :
    UnlessOverflow (coqueuePush queue x) (fun queue' => Holds queue' (xs ++ [x])) := by
  unfold coqueuePush
  refine .bind (checkAndGrow_spec h) fun grown hg => ?_
  obtain ⟨g, more⟩ := hg
  have room := g.room
  have head := g.head
  have tail := g.tail
  have length := g.length
  have last := g.end_eq
  obtain ⟨vec, ran, shaped, size, cells⟩ := covecSet_at g.toShaped grown.tail tail (some x)
  rw [ran, ok_bind]
  refine .bind (.int32 _) fun n hn => ?_
  obtain ⟨rfl, -⟩ := hn
  refine .bind (.remainder (by omega)) fun m hm => ?_
  rw [size, wrap_eq (by omega)] at hm
  refine .pure ⟨shaped, ?_, ?_, ?_, ?_, fun i a found => ?_⟩
  · unfold coqueueSize at length ⊢
    simp only [size, List.length_append, List.length_singleton]
    split at hm <;> split at length <;> split <;> omega
  · simp only [size, List.length_append, List.length_singleton]
    omega
  · simp only [size]
    exact head
  · simp only [size]
    split at hm <;> omega
  · simp only [size, cells]
    by_cases new : i = xs.length
    · rw [new, List.getElem?_concat_length] at found
      rw [new, last, if_pos rfl, found]
    · have bound := (List.getElem?_eq_some_iff.mp found).1
      simp only [List.length_append, List.length_singleton] at bound
      rw [List.getElem?_append_left (by omega)] at found
      have before := g.cells i a found
      have apart : (grown.head + i) % grown.vec.size ≠ grown.tail := by
        rw [← last, wrap_eq (by omega), wrap_eq (by omega)]
        split <;> split <;> omega
      rw [if_neg apart, before]

theorem coqueuePop_spec (h : Holds queue xs) : UnlessOverflow (coqueuePop queue)
    (fun out => out.1 = xs.head?.map some ∧ Holds out.2 xs.tail) := by
  have length := h.length
  have room := h.room
  have head := h.head
  have tail := h.tail
  unfold coqueuePop
  refine .ite (fun some' => ?_) fun none' => ?_
  · cases xs with
    | nil => exact absurd length some'
    | cons x xs =>
        have first := h.cells 0 x rfl
        rw [Nat.add_zero, Nat.mod_eq_of_lt head] at first
        rw [covecGet_at h.toShaped _ head, ok_bind]
        refine .bind (.int32 _) fun n hn => ?_
        obtain ⟨rfl, -⟩ := hn
        refine .bind (.remainder (by omega)) fun m hm => ?_
        rw [wrap_eq (by omega)] at hm
        rw [List.length_cons] at length room
        refine .pure ⟨first, h.toShaped, ?_, ?_, ?_, tail, fun i a found => ?_⟩
        · unfold coqueueSize at length ⊢
          simp only [List.tail_cons]
          split at hm <;> split at length <;> split <;> omega
        · simp only [List.tail_cons]
          omega
        · simp only
          split at hm <;> omega
        · have bound := (List.getElem?_eq_some_iff.mp found).1
          rw [List.tail_cons] at bound
          have before := h.cells (i + 1) a found
          rw [wrap_eq (by omega)] at before
          simp only
          rw [← before, wrap_eq (by split at hm <;> omega)]
          congr 1
          split at hm <;> split <;> split <;> omega
  · have empty : xs = [] := List.length_eq_zero_iff.mp (by omega)
    subst empty
    exact .pure ⟨rfl, h⟩

theorem coqueuePeek_spec (h : Holds queue xs) (index : Int) :
    UnlessOverflow (coqueuePeek queue index) (fun out => out = (Fifo.itemAt xs index).map some) := by
  have length := h.length
  have room := h.room
  have head := h.head
  have at' : fromEnd (coqueueSize queue) index = if index < 0 then xs.length + index else index := by
    rw [length]
    rfl
  unfold coqueuePeek Fifo.itemAt
  simp only [at']
  generalize (if index < 0 then (xs.length : Int) + index else index) = i
  refine .ite (fun outside => ?_) fun inside => ?_
  · refine .pure ?_
    split
    · rfl
    · rw [List.getElem?_eq_none (by omega)]
      rfl
  · have bound : i.toNat < xs.length := by omega
    refine .bind (.int32 _) fun n hn => ?_
    obtain ⟨rfl, -⟩ := hn
    refine .bind (.remainder (by omega)) fun m hm => ?_
    have below : m < queue.vec.size := by
      rw [hm]
      exact Nat.mod_lt _ (by omega)
    rw [covecGet_at h.toShaped m below, hm, h.cells _ _ (List.getElem?_eq_getElem bound),
      if_neg (by omega), List.getElem?_eq_getElem bound]
    exact .pure rfl

end Specs

end Colinlib.Source.Queue
