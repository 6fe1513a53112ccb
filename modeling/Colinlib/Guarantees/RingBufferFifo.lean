import Colinlib.Source.RingBuffer
import Colinlib.Theory.Fifo

/-!
# The ring buffer refines an unbounded byte queue

Every call sequence from `coringbuf_new` is compared, call by call, with the
same sequence on an abstract queue. A run is abandoned only where a signed
intermediate value leaves the `int` range; every other fault, in particular an
access outside the allocation, is excluded.
-/
namespace Colinlib.Guarantees.RingBufferFifo
open Colinlib.Theory.CMemory Colinlib.Theory Colinlib.Source.RingBuffer

/-- One call of the ring's interface with its visible result. -/
def ringStep (rb : Coringbuf) : Fifo.Op UInt8 →
    Except Fault (Fifo.Out (Option UInt8) × Coringbuf)
  | .write data => do
      let rb ← coringbufWrite rb data
      .ok (.wrote, rb)
  | .read n => do
      let (count, bytes, rb) ← coringbufRead rb n
      .ok (.read count bytes, rb)
  | .consume n => do
      let (done, rb) ← coringbufConsumeSize rb n
      .ok (.consumed done, rb)

def ringRun : Coringbuf → List (Fifo.Op UInt8) →
    Except Fault (List (Fifo.Out (Option UInt8)) × Coringbuf)
  | rb, [] => .ok ([], rb)
  | rb, op :: rest => do
      let (out, rb) ← ringStep rb op
      let (outs, rb) ← ringRun rb rest
      .ok (out :: outs, rb)

/-- What the observers expose of a ring that holds `q`. -/
structure Exposes (rb : Coringbuf) (q : List UInt8) : Prop where
  readable : coringbufReadableSize rb = q.length
  below_size : coringbufReadableSize rb < rb.size
  window : coringbufHead rb (coringbufReadonceSize rb) =
    .ok ((q.take (coringbufReadonceSize rb)).map some)
  window_le : coringbufReadonceSize rb ≤ q.length
  window_pos : q ≠ [] → 0 < coringbufReadonceSize rb
  content : unread rb = q.map some
  growth : ∀ n, UnlessOverflow (cbCheckAndGrow rb n) (fun rb' => unread rb' = q.map some)

theorem Exposes.of_holds {rb : Coringbuf} {q : List UInt8} (h : Holds rb q) : Exposes rb q where
  readable := h.readable
  below_size := by rw [h.readable]; exact h.length_lt
  window := coringbufHead_window h (Nat.le_refl _)
  window_le := h.readonce_le
  window_pos := h.readonce_pos
  content := h.cells
  growth := fun n => (cbCheckAndGrow_spec h n).mono (fun _ hg => hg.1.cells)

/-- One call keeps the simulation and returns what the queue returns. -/
theorem ringStep_refines {rb : Coringbuf} {q : List UInt8} (h : Holds rb q)
    (op : Fifo.Op UInt8) :
    UnlessOverflow (ringStep rb op) (fun out =>
      out.1 = (Fifo.step q op).1.map some ∧ Holds out.2 (Fifo.step q op).2) := by
  cases op with
  | write data =>
      refine .bind (coringbufWrite_spec h data) ?_
      intro rb' h'
      exact .pure ⟨rfl, h'⟩
  | read n =>
      refine .bind (coringbufRead_spec h n) ?_
      rintro ⟨count, bytes, rb'⟩ ⟨hcount, hbytes, h'⟩
      refine .pure ⟨?_, h'⟩
      dsimp only at hcount hbytes
      rw [hcount, hbytes]
      rfl
  | consume n =>
      refine .bind (coringbufConsumeSize_spec h n) ?_
      rintro ⟨done, rb'⟩ ⟨hdone, h'⟩
      refine .pure ⟨?_, h'⟩
      dsimp only at hdone
      rw [hdone]
      rfl

theorem ringRun_refines {rb : Coringbuf} {q : List UInt8} (h : Holds rb q)
    (ops : List (Fifo.Op UInt8)) :
    UnlessOverflow (ringRun rb ops) (fun out =>
      out.1 = (Fifo.run q ops).1.map (Fifo.Out.map some) ∧ Holds out.2 (Fifo.run q ops).2) := by
  induction ops generalizing rb q with
  | nil => exact .pure ⟨rfl, h⟩
  | cons op rest ih =>
      refine .bind (ringStep_refines h op) ?_
      rintro ⟨out, rb'⟩ ⟨hout, h'⟩
      refine .bind (ih h') ?_
      rintro ⟨outs, rb''⟩ ⟨houts, h''⟩
      refine .pure ⟨?_, h''⟩
      dsimp only at hout houts
      rw [hout, houts]
      rfl

/-- From any initial size, every call sequence returns exactly what the byte
queue returns, and the state it leaves exposes exactly the queue's content. -/
theorem ring_refines_fifo (initsize : Nat) (positive : 0 < initsize)
    (ops : List (Fifo.Op UInt8)) :
    UnlessOverflow (ringRun (coringbufNew initsize) ops) (fun out =>
      out.1 = (Fifo.run [] ops).1.map (Fifo.Out.map some) ∧
      Exposes out.2 (Fifo.run [] ops).2) :=
  (ringRun_refines (coringbufNew_holds initsize positive) ops).mono
    (fun _ h => ⟨h.1, .of_holds h.2⟩)

/-- A four-byte ring that wraps, is drained to `tail = 0` and then grows. -/
def wrapThenGrow : List (Fifo.Op UInt8) :=
  [.write [1, 2, 3], .read 2, .write [4], .consume 9, .write [5, 6, 7, 8], .read 20]

theorem ring_refines_fifo_wrapThenGrow :
    (∃ rb, ringRun (coringbufNew 4) wrapThenGrow =
      .ok ((Fifo.run [] wrapThenGrow).1.map (Fifo.Out.map some), rb) ∧ Exposes rb []) := by
  have h := ring_refines_fifo 4 (by decide) wrapThenGrow
  obtain ⟨out, hout⟩ : ∃ out, ringRun (coringbufNew 4) wrapThenGrow = .ok out := ⟨_, rfl⟩
  obtain ⟨houts, hexp⟩ := h.of_ok hout
  exact ⟨out.2, by rw [hout, ← houts], hexp⟩

end Colinlib.Guarantees.RingBufferFifo
