import Colinlib.Guarantees.RingBufferFifo
import Colinlib.Theory.Runs

/-!
# The sums of the ring buffer

The number of unread bytes bounds one of the four sums only: the size that a write needs.
The size is doubled from `2^30` on as well, and the head and the tail are added to before
the remainder is taken, so that a long queue can leave `int` before its length does.
-/
namespace Colinlib.Guarantees.RingBufferSums
open Colinlib.Theory.CMemory Colinlib.Theory Colinlib.Theory.Runs
open Colinlib.Source.RingBuffer Colinlib.Guarantees.RingBufferFifo

/-- The ring after a call. -/
def ringNext (rb : Coringbuf) (op : Fifo.Op UInt8) : Except Fault Coringbuf := do
  return (← ringStep rb op).2

/-- A size that can be doubled where the write needs it, and a tail or head that can be added
to. -/
def Fits (rb : Coringbuf) : Fifo.Op UInt8 → Prop
  | .write data => (rb.size - coringbufReadableSize rb ≤ data.length → rb.size < 2 ^ 30) ∧
      rb.tail + data.length ≤ intMax
  | .read n => rb.head + min n (coringbufReadableSize rb) ≤ intMax
  | .consume n => n ≤ coringbufReadableSize rb → rb.head + n ≤ intMax

/-- The queue stays shorter than the bound. -/
def Few (bound : Nat) (q : List UInt8) (ops : List (Fifo.Op UInt8)) : Prop :=
  ∀ before, before <+: ops → (Fifo.run q before).2.length < bound

/-- No call stops for a sum, and head and tail stay inside. -/
def Representable (rb : Coringbuf) (ops : List (Fifo.Op UInt8)) : Prop :=
  ∀ before, before <+: ops → ∃ rb', run ringNext rb before = .ok rb' ∧
    rb'.head < rb'.size ∧ rb'.tail < rb'.size

/-! ## One call -/

section
variable {rb rb' : Coringbuf} {q : List UInt8} {op : Fifo.Op UInt8}

theorem ringStep_checks (h : Holds rb q) (few : (Fifo.step q op).2.length < intMax) :
    Checks (ringStep rb op) (Fits rb op) := by
  have readable := h.readable
  cases op with
  | write data =>
      have enough : q.length + data.length < intMax := by
        rw [← List.length_append]
        exact few
      refine (Checks.bind (coringbufWrite_checks rb data) fun rb' _ => .pure _).congr ?_
      unfold Fits intMax at *
      rw [readable]
      constructor
      · rintro ⟨⟨grows, adds⟩, -⟩
        exact ⟨fun full => by have := (grows full).1; omega, adds⟩
      · rintro ⟨grows, adds⟩
        refine ⟨⟨fun full => ⟨?_, by omega⟩, adds⟩, trivial⟩
        have := grows full
        omega
  | read n =>
      exact (Checks.bind (coringbufRead_checks rb n) fun out _ => .pure _).congr (iff_of_eq (and_true _))
  | consume n =>
      exact (Checks.bind (coringbufConsumeSize_checks rb n) fun out _ => .pure _).congr
        (iff_of_eq (and_true _))

theorem ringNext_returns (h : Holds rb q) (few : (Fifo.step q op).2.length < intMax)
    (fits : Fits rb op) : ∃ rb', ringNext rb op = .ok rb' ∧ Holds rb' (Fifo.step q op).2 := by
  obtain ⟨out, ran, -, holds⟩ := (ringStep_checks h few).returns (ringStep_refines h op) fits
  refine ⟨out.2, ?_, holds⟩
  unfold ringNext
  rw [ran]
  rfl

theorem ringNext_fits (h : Holds rb q) (few : (Fifo.step q op).2.length < intMax)
    (ran : ringNext rb op = .ok rb') : Fits rb op ∧ Holds rb' (Fifo.step q op).2 := by
  obtain ⟨out, taken, same⟩ := bind_ok ran
  cases same
  exact ⟨(ringStep_checks h few).1 out taken, ((ringStep_refines h op).of_ok taken).2⟩

/-- The size a call leaves. -/
def sizeAfter (rb : Coringbuf) : Fifo.Op UInt8 → Nat
  | .write data => if rb.size - coringbufReadableSize rb ≤ data.length
      then max (rb.size * 2) (coringbufReadableSize rb + data.length + 1) else rb.size
  | _ => rb.size

theorem ringNext_size (ran : ringNext rb op = .ok rb') : rb'.size = sizeAfter rb op := by
  obtain ⟨out, taken, same⟩ := bind_ok ran
  cases same
  cases op with
  | write data =>
      obtain ⟨rb₂, written, same⟩ := bind_ok taken
      cases same
      obtain ⟨rb₁, grown, copied⟩ := bind_ok written
      exact (cbCopyIn_size copied).trans (cbCheckAndGrow_size grown).2
  | read n =>
      obtain ⟨read, inner, same⟩ := bind_ok taken
      cases same
      obtain ⟨first, -, inner⟩ := bind_ok inner
      obtain ⟨second, -, inner⟩ := bind_ok inner
      obtain ⟨sum, -, inner⟩ := bind_ok inner
      obtain ⟨head, -, inner⟩ := bind_ok inner
      cases inner
      rfl
  | consume n =>
      obtain ⟨consumed, inner, same⟩ := bind_ok taken
      cases same
      unfold coringbufConsumeSize at inner
      split at inner
      · obtain ⟨sum, -, inner⟩ := bind_ok inner
        obtain ⟨head, -, inner⟩ := bind_ok inner
        cases inner
        rfl
      · cases inner
        rfl

end

/-! ## Runs -/

section
variable {rb : Coringbuf} {q : List UInt8}

theorem Few.step {bound : Nat} {op : Fifo.Op UInt8} {ops : List (Fifo.Op UInt8)}
    (few : Few bound q (op :: ops)) :
    (Fifo.step q op).2.length < bound ∧ Few bound (Fifo.step q op).2 ops := by
  refine ⟨few [op] ((List.prefix_cons_inj op).mpr List.nil_prefix), fun before inside => ?_⟩
  exact few (op :: before) ((List.prefix_cons_inj op).mpr inside)

theorem representable_of_along (h : Holds rb q) (ops : List (Fifo.Op UInt8)) (few : Few intMax q ops)
    (fits : Along ringNext Fits rb ops) : Representable rb ops := by
  induction ops generalizing rb q with
  | nil =>
      intro before inside
      rw [List.prefix_nil.mp inside]
      exact ⟨rb, rfl, h.head_lt, h.tail_lt⟩
  | cons op ops ih =>
      obtain ⟨here, later⟩ := few.step
      obtain ⟨rb', ran, holds⟩ := ringNext_returns h here fits.1
      have rest := ih holds later (fits.2 rb' ran)
      intro before inside
      cases before with
      | nil => exact ⟨rb, rfl, h.head_lt, h.tail_lt⟩
      | cons op' before =>
          obtain ⟨rfl, within⟩ := List.cons_prefix_cons.mp inside
          obtain ⟨rb'', ran', bounds⟩ := rest before within
          refine ⟨rb'', ?_, bounds⟩
          unfold run
          rw [ran]
          exact ran'

theorem Representable.along (h : Holds rb q) (ops : List (Fifo.Op UInt8)) (few : Few intMax q ops)
    (good : Representable rb ops) : Along ringNext Fits rb ops := by
  induction ops generalizing rb q with
  | nil => trivial
  | cons op ops ih =>
      obtain ⟨here, later⟩ := few.step
      obtain ⟨t, taken, -⟩ := good [op] ((List.prefix_cons_inj op).mpr List.nil_prefix)
      obtain ⟨rb', ran, -⟩ := run_cons taken
      obtain ⟨fits, holds⟩ := ringNext_fits h here ran
      refine ⟨fits, fun s same => ?_⟩
      rw [ran] at same
      cases same
      refine ih holds later fun before inside => ?_
      obtain ⟨rb'', ran', bounds⟩ := good (op :: before) ((List.prefix_cons_inj op).mpr inside)
      obtain ⟨s, first, others⟩ := run_cons ran'
      rw [ran] at first
      cases first
      exact ⟨rb'', others, bounds⟩

end

/-- Under half a gigabyte unread, every call fits. -/
theorem along_of_half (h : Holds rb q) (size : rb.size ≤ 2 ^ 30) (ops : List (Fifo.Op UInt8))
    (few : Few (2 ^ 29) q ops) : Along ringNext Fits rb ops := by
  induction ops generalizing rb q with
  | nil => trivial
  | cons op ops ih =>
      obtain ⟨here, later⟩ := few.step
      have readable := h.readable
      have unread := few [] List.nil_prefix
      have head := h.head_lt
      have tail := h.tail_lt
      change q.length < 2 ^ 29 at unread
      have fits : Fits rb op := by
        cases op with
        | write data =>
            simp only [Fifo.step, List.length_append] at here
            unfold Fits intMax
            constructor <;> omega
        | read n =>
            unfold Fits intMax
            omega
        | consume n =>
            unfold Fits intMax
            omega
      refine ⟨fits, fun rb' ran => ?_⟩
      have holds := (ringNext_fits h (Nat.lt_trans here (by decide)) ran).2
      refine ih holds ?_ later
      rw [ringNext_size ran]
      unfold sizeAfter
      split
      · next data =>
          simp only [Fifo.step, List.length_append] at here
          split <;> omega
      · exact size

theorem half_representable {initsize : Nat} (positive : 0 < initsize) (size : initsize ≤ 2 ^ 30)
    {ops : List (Fifo.Op UInt8)} (few : Few (2 ^ 29) [] ops) :
    Representable (coringbufNew initsize) ops := by
  have start := coringbufNew_holds initsize positive
  exact representable_of_along start ops (fun before inside => Nat.lt_trans (few before inside) (by decide))
    (along_of_half start size ops few)

/-- **Ring sums.** In a run whose queue stays shorter than `int` counts, every sum is an `int`
exactly where each call fits. A ring of at most a gigabyte that keeps less than half of one
unread is such a run. -/
theorem sums_iff {initsize : Nat} (positive : 0 < initsize) {ops : List (Fifo.Op UInt8)}
    (few : Few intMax [] ops) :
    (Representable (coringbufNew initsize) ops ↔
      Along ringNext Fits (coringbufNew initsize) ops) ∧
    (initsize ≤ 2 ^ 30 → Few (2 ^ 29) [] ops → Representable (coringbufNew initsize) ops) :=
  ⟨⟨Representable.along (coringbufNew_holds initsize positive) ops few,
    representable_of_along (coringbufNew_holds initsize positive) ops few⟩,
    fun size half => half_representable positive size half⟩

instance (rb : Coringbuf) : (op : Fifo.Op UInt8) → Decidable (Fits rb op)
  | .write _ => inferInstanceAs (Decidable (_ ∧ _))
  | .read _ => inferInstanceAs (Decidable (_ ≤ _))
  | .consume _ => inferInstanceAs (Decidable (_ → _))

/-- What is written bounds what is unread. -/
theorem few_of_written {bound : Nat} {ops : List (Fifo.Op UInt8)}
    (small : Fifo.written ops < bound) : Few bound [] ops := by
  rintro before ⟨after, rfl⟩
  have length := Fifo.run_length_le [] before
  rw [Fifo.written_append] at small
  rw [List.length_nil] at length
  omega

theorem sums_iff_wrapThenGrow : Along ringNext Fits (coringbufNew 4) wrapThenGrow ∧
    Representable (coringbufNew 4) wrapThenGrow := by
  have few : Few intMax [] wrapThenGrow := few_of_written (by decide)
  obtain ⟨sums, half⟩ := sums_iff (show 0 < 4 by decide) few
  have good := half (by decide) (few_of_written (by decide))
  exact ⟨sums.mp good, good⟩

/-- A write of `m` bytes, and one of `n`. -/
def bursts (m n : Nat) : List (Fifo.Op UInt8) :=
  [.write (List.replicate m 0), .write (List.replicate n 0)]

theorem bursts_few {m n : Nat} (small : m + n < intMax) : Few intMax [] (bursts m n) :=
  few_of_written (by simpa [bursts, Fifo.written] using small)

/-- The second write finds the buffer full, at a size that cannot be doubled. -/
theorem bursts_overflow {initsize m n : Nat} (positive : 0 < initsize) (grows : initsize * 2 ≤ m)
    (long : 2 ^ 30 ≤ m) (more : 0 < n) (small : m + n < intMax) :
    ¬ Representable (coringbufNew initsize) (bursts m n) := by
  intro good
  have start := coringbufNew_holds initsize positive
  have few := bursts_few small
  have along := good.along start _ few
  obtain ⟨here, later⟩ := few.step
  obtain ⟨rb, ran, holds⟩ := ringNext_returns start here along.1
  have size := ringNext_size ran
  have again := (along.2 rb ran).1
  have readable := holds.readable
  simp only [Fifo.step, List.nil_append, List.length_replicate] at readable
  have empty : coringbufReadableSize (coringbufNew initsize) = 0 := rfl
  have first : (coringbufNew initsize).size = initsize := rfl
  unfold sizeAfter at size
  simp only [empty, first, List.length_replicate] at size
  unfold Fits at again
  simp only [readable, List.length_replicate] at again
  rw [if_pos (by omega)] at size
  have limit := again.1 (by omega)
  omega

/-- A gigabyte, and sixteen bytes more while nothing is read. -/
theorem sums_gigabyte : Few intMax [] (bursts (2 ^ 30) 16) ∧
    ¬ Representable (coringbufNew 16) (bursts (2 ^ 30) 16) :=
  ⟨bursts_few (by decide), bursts_overflow (by decide) (by decide) (by decide) (by decide) (by decide)⟩

end Colinlib.Guarantees.RingBufferSums
