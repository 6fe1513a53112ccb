import Colinlib.Theory.CMemory

/-!
# The growable ring buffer of `co_buffer.c`

`coringbuf_t` is the send queue of every TCP and file-descriptor object. Sizes
and positions are `int` in the source; the model keeps them as naturals and
range-checks each sum and product the source computes. `memcpy` and `memmove`
are a load followed by a store, so the overlapping move of the growth path reads
its source region before it writes.
-/
namespace Colinlib.Source.RingBuffer
open Colinlib.Theory.CMemory

structure Coringbuf where
  buffer : Block UInt8
  size : Nat
  head : Nat
  tail : Nat
  deriving DecidableEq, Repr

def coringbufNew (initsize : Nat) : Coringbuf :=
  ⟨malloc UInt8 initsize, initsize, 0, 0⟩

def coringbufReadableSize (rb : Coringbuf) : Nat :=
  if rb.tail ≥ rb.head then rb.tail - rb.head else rb.size - (rb.head - rb.tail)

def coringbufReadonceSize (rb : Coringbuf) : Nat :=
  if rb.tail ≥ rb.head then rb.tail - rb.head else rb.size - rb.head

/-- `coringbuf_head` is `buffer + head`; the callers read `len` bytes from it. -/
def coringbufHead (rb : Coringbuf) (len : Nat) : Except Fault (List (Option UInt8)) :=
  load rb.buffer rb.head len

/-- `coringbuf_read`: the returned count, the bytes copied out, the new state. -/
def coringbufRead (rb : Coringbuf) (size : Nat) :
    Except Fault (Nat × List (Option UInt8) × Coringbuf) := do
  let readable := coringbufReadableSize rb
  let size := if readable ≥ size then size else readable
  let readonce := coringbufReadonceSize rb
  let len := min size readonce
  let first ← load rb.buffer rb.head len
  let second ← (if size > len then load rb.buffer 0 (size - len) else .ok [])
  let sum ← int32 (rb.head + size)
  let head ← remainder sum rb.size
  .ok (size, first ++ second, { rb with head := head })

/-- Growth to `newsize`: only the wrapped upper segment is moved. -/
def cbRelocate (rb : Coringbuf) (newsize : Nat) : Except Fault Coringbuf :=
  let buffer := realloc rb.buffer newsize
  if rb.tail < rb.head then do
    let readonce := coringbufReadonceSize rb
    let upper ← load buffer rb.head readonce
    let moved ← store buffer (newsize - readonce) upper
    .ok { buffer := moved, size := newsize, head := newsize - readonce, tail := rb.tail }
  else
    .ok { buffer := buffer, size := newsize, head := rb.head, tail := rb.tail }

/-- `_cb_check_and_grow`. -/
def cbCheckAndGrow (rb : Coringbuf) (size : Nat) : Except Fault Coringbuf :=
  let readable := coringbufReadableSize rb
  let writable := rb.size - readable
  if writable ≤ size then do
    let doubled ← int32 (rb.size * 2)
    let needed ← int32 (readable + size + 1)
    cbRelocate rb (max doubled needed)
  else
    .ok rb

/-- `coringbuf_write` once there is room. -/
def cbCopyIn (rb : Coringbuf) (data : List UInt8) : Except Fault Coringbuf := do
  let len := min data.length (rb.size - rb.tail)
  let upper ← store rb.buffer rb.tail ((data.take len).map some)
  let buffer ← (if data.length > len then store upper 0 ((data.drop len).map some) else .ok upper)
  let sum ← int32 (rb.tail + data.length)
  let tail ← remainder sum rb.size
  .ok { buffer := buffer, size := rb.size, head := rb.head, tail := tail }

def coringbufWrite (rb : Coringbuf) (data : List UInt8) : Except Fault Coringbuf := do
  let rb ← cbCheckAndGrow rb data.length
  cbCopyIn rb data

def coringbufConsumeSize (rb : Coringbuf) (size : Nat) : Except Fault (Bool × Coringbuf) :=
  if coringbufReadableSize rb ≥ size then do
    let sum ← int32 (rb.head + size)
    let head ← remainder sum rb.size
    .ok (true, { rb with head := head })
  else
    .ok (false, rb)

/-! ## The queue a ring holds -/

/-- The unread cells, oldest first: the segment from `head`, then the wrapped one. -/
def unread (rb : Coringbuf) : List (Option UInt8) :=
  slice rb.buffer rb.head (coringbufReadonceSize rb) ++
    if rb.tail ≥ rb.head then [] else slice rb.buffer 0 rb.tail

/-- The ring is well formed and its unread cells are exactly the bytes `q`. -/
structure Holds (rb : Coringbuf) (q : List UInt8) : Prop where
  allocated : rb.buffer.length = rb.size
  head_lt : rb.head < rb.size
  tail_lt : rb.tail < rb.size
  cells : unread rb = q.map some

theorem coringbufNew_holds (initsize : Nat) (h : 0 < initsize) :
    Holds (coringbufNew initsize) [] := by
  refine ⟨by simp [coringbufNew], h, h, ?_⟩
  simp [unread, coringbufNew, coringbufReadonceSize]

theorem readonce_bound {rb : Coringbuf} {q : List UInt8} (h : Holds rb q) :
    rb.head + coringbufReadonceSize rb ≤ rb.buffer.length := by
  have := h.allocated; have := h.head_lt; have := h.tail_lt
  unfold coringbufReadonceSize
  split <;> omega

theorem Holds.readable {rb : Coringbuf} {q : List UInt8} (h : Holds rb q) :
    coringbufReadableSize rb = q.length := by
  have hb := readonce_bound h
  have := h.allocated; have := h.head_lt; have := h.tail_lt
  have hlen := congrArg List.length h.cells
  simp only [unread, List.length_append, List.length_map, slice_length _ _ _ hb] at hlen
  rw [← hlen]
  unfold coringbufReadonceSize coringbufReadableSize
  by_cases hw : rb.tail ≥ rb.head
  · simp [hw]
  · simp only [hw, ↓reduceIte, slice_length rb.buffer 0 rb.tail (by omega)]
    omega

/-- Head and tail meet only on the empty queue: one cell always stays free. -/
theorem Holds.length_lt {rb : Coringbuf} {q : List UInt8} (h : Holds rb q) :
    q.length < rb.size := by
  rw [← h.readable]
  have := h.head_lt; have := h.tail_lt
  unfold coringbufReadableSize
  split <;> omega

theorem Holds.readonce_le {rb : Coringbuf} {q : List UInt8} (h : Holds rb q) :
    coringbufReadonceSize rb ≤ q.length := by
  rw [← h.readable]
  have := h.head_lt; have := h.tail_lt
  unfold coringbufReadonceSize coringbufReadableSize
  split <;> omega

theorem Holds.readonce_pos {rb : Coringbuf} {q : List UInt8} (h : Holds rb q) (hq : q ≠ []) :
    0 < coringbufReadonceSize rb := by
  have hr := h.readable
  have := List.length_pos_iff.mpr hq
  have := h.head_lt; have := h.tail_lt
  unfold coringbufReadonceSize
  unfold coringbufReadableSize at hr
  split at hr <;> split <;> omega

/-- A window no longer than the contiguous segment is a prefix of the queue. -/
theorem Holds.window {rb : Coringbuf} {q : List UInt8} (h : Holds rb q) {len : Nat}
    (hl : len ≤ coringbufReadonceSize rb) :
    slice rb.buffer rb.head len = (q.take len).map some := by
  have hb := readonce_bound h
  rw [← slice_take _ _ _ _ hl, List.map_take, ← h.cells, unread, List.take_append_of_le_length]
  rw [slice_length _ _ _ hb]
  exact hl

theorem coringbufHead_window {rb : Coringbuf} {q : List UInt8} (h : Holds rb q) {len : Nat}
    (hl : len ≤ coringbufReadonceSize rb) :
    coringbufHead rb len = .ok ((q.take len).map some) := by
  have hb := readonce_bound h
  rw [coringbufHead, load, if_pos (by omega), h.window hl]

/-! ## Moving the head -/

/-- Advancing `head` by `n` modulo the size drops the first `n` bytes. -/
theorem Holds.advance {rb : Coringbuf} {q : List UInt8} (h : Holds rb q) {n : Nat}
    (hn : n ≤ q.length) : Holds { rb with head := (rb.head + n) % rb.size } (q.drop n) := by
  have ha := h.allocated; have hh := h.head_lt; have ht := h.tail_lt
  have hc := h.cells
  have hr := h.readable
  refine ⟨ha, Nat.mod_lt _ (by omega), ht, ?_⟩
  rw [List.map_drop, ← hc]
  unfold unread coringbufReadonceSize
  unfold coringbufReadableSize at hr
  dsimp only
  by_cases hw : rb.tail ≥ rb.head
  · -- not wrapped: the new head stays at or below the tail
    simp only [hw, ↓reduceIte] at hr ⊢
    have hm : (rb.head + n) % rb.size = rb.head + n := Nat.mod_eq_of_lt (by omega)
    rw [hm, if_pos (by omega), if_pos (by omega), List.append_nil, List.append_nil, slice_drop]
    congr 1
    omega
  · simp only [hw, ↓reduceIte] at hr ⊢
    have hup : (slice rb.buffer rb.head (rb.size - rb.head)).length = rb.size - rb.head :=
      slice_length _ _ _ (by omega)
    by_cases hin : rb.head + n < rb.size
    · have hm : (rb.head + n) % rb.size = rb.head + n := Nat.mod_eq_of_lt hin
      rw [hm, if_neg (by omega), if_neg (by omega), List.drop_append_of_le_length (by omega),
        slice_drop]
      congr 2
      omega
    · -- the head wraps: only the lower segment is left
      have hm : (rb.head + n) % rb.size = rb.head + n - rb.size := by
        rw [Nat.mod_eq_sub_mod (by omega), Nat.mod_eq_of_lt (by omega)]
      rw [hm, if_pos (by omega), if_pos (by omega), List.append_nil,
        List.drop_append, hup, List.drop_eq_nil_of_le (by omega), List.nil_append, slice_drop]
      congr 1 <;> omega

theorem coringbufConsumeSize_spec {rb : Coringbuf} {q : List UInt8} (h : Holds rb q) (n : Nat) :
    UnlessOverflow (coringbufConsumeSize rb n) (fun out =>
      out.1 = decide (n ≤ q.length) ∧ Holds out.2 (if n ≤ q.length then q.drop n else q)) := by
  unfold coringbufConsumeSize
  rw [h.readable]
  refine .ite (fun hn => ?_) (fun hn => ?_)
  · refine .bind (.int32 _) ?_
    rintro _ ⟨rfl, -⟩
    refine .bind (.remainder (by have := h.head_lt; omega)) ?_
    rintro _ rfl
    have hn' : n ≤ q.length := hn
    refine .pure ⟨by simp [hn'], ?_⟩
    rw [if_pos hn']
    exact h.advance hn'
  · have hn' : ¬ n ≤ q.length := hn
    exact .pure ⟨by simp [hn'], by rw [if_neg hn']; exact h⟩

theorem coringbufRead_spec {rb : Coringbuf} {q : List UInt8} (h : Holds rb q) (n : Nat) :
    UnlessOverflow (coringbufRead rb n) (fun out =>
      out.1 = min n q.length ∧ out.2.1 = (q.take n).map some ∧ Holds out.2.2 (q.drop n)) := by
  have ha := h.allocated; have hh := h.head_lt; have ht := h.tail_lt
  have hro := h.readonce_le
  have hb := readonce_bound h
  have hmin : (if coringbufReadableSize rb ≥ n then n else coringbufReadableSize rb)
      = min n q.length := by
    rw [h.readable]
    split <;> omega
  unfold coringbufRead
  dsimp only
  rw [hmin]
  obtain ⟨m, hm⟩ : ∃ m, m = min n q.length := ⟨_, rfl⟩
  rw [← hm]
  have hml : m ≤ q.length := by omega
  have htake : q.take n = q.take m := by rw [hm, ← List.take_take, List.take_length]
  have hdrop : q.drop n = q.drop m := by
    rcases Nat.le_total n q.length with hle | hle
    · rw [hm, Nat.min_eq_left hle]
    · rw [hm, Nat.min_eq_right hle, List.drop_length, List.drop_eq_nil_of_le hle]
  rw [htake, hdrop]
  refine .bind (.load (by omega)) ?_
  rintro _ rfl
  -- the two copies together are the first `m` unread cells
  refine UnlessOverflow.bind (Q := fun second =>
    slice rb.buffer rb.head (min m (coringbufReadonceSize rb)) ++ second = (q.take m).map some)
    ?_ ?_
  · refine .ite (fun hlt => ?_) (fun hge => ?_)
    · have hwrap : ¬ rb.tail ≥ rb.head := by
        intro hw
        have := h.readable
        unfold coringbufReadableSize at this
        unfold coringbufReadonceSize at hlt
        simp only [hw, ↓reduceIte] at this hlt
        omega
      have hsz : coringbufReadonceSize rb = rb.size - rb.head := by
        unfold coringbufReadonceSize
        rw [if_neg hwrap]
      have hq : q.length = rb.size - (rb.head - rb.tail) := by
        rw [← h.readable, coringbufReadableSize, if_neg hwrap]
      rw [Nat.min_eq_right (by omega)] at hlt ⊢
      refine .mono (.load (by omega)) ?_
      rintro _ rfl
      rw [List.map_take, ← h.cells, unread, if_neg hwrap, List.take_append,
        slice_length _ _ _ hb, List.take_of_length_le (by rw [slice_length _ _ _ hb]; omega),
        slice_take _ _ _ _ (by omega)]
    · rw [Nat.min_eq_left (by omega)]
      refine .pure ?_
      rw [List.append_nil, h.window (by omega)]
  · intro second hsecond
    refine .bind (.int32 _) ?_
    rintro _ ⟨rfl, -⟩
    refine .bind (.remainder (by omega)) ?_
    rintro _ rfl
    exact .pure ⟨rfl, hsecond, h.advance hml⟩

/-! ## Growth and writing -/

/-- Relocation to any larger size keeps the queue, wrapped or not. -/
theorem cbRelocate_spec {rb : Coringbuf} {q : List UInt8} (h : Holds rb q) {newsize : Nat}
    (hn : rb.size ≤ newsize) :
    UnlessOverflow (cbRelocate rb newsize)
      (fun rb' => Holds rb' q ∧ rb'.size = newsize ∧ rb'.tail = rb.tail) := by
  have ha := h.allocated; have hh := h.head_lt; have ht := h.tail_lt
  have hc := h.cells
  unfold cbRelocate
  dsimp only
  refine .ite (fun hw => ?_) (fun hw => ?_)
  · have hro : coringbufReadonceSize rb = rb.size - rb.head := by
      unfold coringbufReadonceSize
      rw [if_neg (by omega)]
    rw [hro]
    refine .bind (.load (by simp; omega)) ?_
    rintro _ rfl
    have hup : (slice (realloc rb.buffer newsize) rb.head (rb.size - rb.head)).length
        = rb.size - rb.head := slice_length _ _ _ (by simp; omega)
    have hfit : newsize - (rb.size - rb.head)
        + (slice (realloc rb.buffer newsize) rb.head (rb.size - rb.head)).length
        ≤ (realloc rb.buffer newsize).length := by
      rw [hup, realloc_length]; omega
    refine .bind (.store hfit) ?_
    rintro _ rfl
    refine .pure ⟨⟨?_, ?_, ?_, ?_⟩, rfl, rfl⟩
    · rw [splice_length _ _ _ hfit, realloc_length]
    · dsimp only; omega
    · dsimp only; omega
    · unfold unread coringbufReadonceSize at hc ⊢
      dsimp only
      rw [if_neg (by omega), if_neg (by omega)] at hc ⊢
      rw [← hc]
      have hlen : newsize - (newsize - (rb.size - rb.head))
          = (slice (realloc rb.buffer newsize) rb.head (rb.size - rb.head)).length := by
        rw [hup]; omega
      rw [hlen, slice_splice_same _ _ _ hfit, slice_splice_frame _ _ _ _ _ hfit (by omega),
        slice_realloc _ _ _ _ (by omega) (by omega), slice_realloc _ _ _ _ (by omega) (by omega)]
  · refine .pure ⟨⟨?_, ?_, ?_, ?_⟩, rfl, rfl⟩
    · simp
    · dsimp only; omega
    · dsimp only; omega
    · unfold unread coringbufReadonceSize at hc ⊢
      dsimp only
      rw [if_pos (by omega), if_pos (by omega)] at hc ⊢
      rw [slice_realloc _ _ _ _ (by omega) (by omega)]
      exact hc

theorem cbCheckAndGrow_spec {rb : Coringbuf} {q : List UInt8} (h : Holds rb q) (n : Nat) :
    UnlessOverflow (cbCheckAndGrow rb n) (fun rb' => Holds rb' q ∧ q.length + n < rb'.size) := by
  have hlt := h.length_lt
  unfold cbCheckAndGrow
  dsimp only
  rw [h.readable]
  refine .ite (fun _ => ?_) (fun hw => ?_)
  · refine .bind (.int32 _) ?_
    rintro _ ⟨rfl, -⟩
    refine .bind (.int32 _) ?_
    rintro _ ⟨rfl, -⟩
    refine .mono (cbRelocate_spec h (by omega)) ?_
    rintro rb' ⟨hh, hs, -⟩
    exact ⟨hh, by omega⟩
  · exact .pure ⟨h, by omega⟩

/-- With more free cells than bytes the copy appends, in one or two pieces. -/
theorem cbCopyIn_spec {rb : Coringbuf} {q : List UInt8} (h : Holds rb q) (data : List UInt8)
    (room : q.length + data.length < rb.size) :
    UnlessOverflow (cbCopyIn rb data) (fun rb' => Holds rb' (q ++ data)) := by
  have ha := h.allocated; have hh := h.head_lt; have ht := h.tail_lt
  have hc := h.cells
  have hr := h.readable
  unfold cbCopyIn
  dsimp only
  by_cases hsplit : data.length ≤ rb.size - rb.tail
  · -- one piece, up to the end of the block at most
    rw [Nat.min_eq_left hsplit, List.take_length]
    have hfit : rb.tail + (data.map some).length ≤ rb.buffer.length := by
      rw [List.length_map]; omega
    refine .bind (.store hfit) ?_
    rintro _ rfl
    refine UnlessOverflow.bind (Q := fun b => b = splice rb.buffer rb.tail (data.map some)) ?_ ?_
    · exact .ite (fun hlt => absurd hlt (by omega)) (fun _ => rfl)
    rintro _ rfl
    refine .bind (.int32 _) ?_
    rintro _ ⟨rfl, -⟩
    refine .bind (.remainder (by omega)) ?_
    rintro _ rfl
    refine .pure ⟨?_, hh, Nat.mod_lt _ (by omega), ?_⟩
    · rw [splice_length _ _ _ hfit, ha]
    · have hsame := slice_splice_same rb.buffer rb.tail (data.map some) hfit
      have hframe := fun at' len => slice_splice_frame rb.buffer rb.tail at' len
        (data.map some) hfit
      rw [List.length_map] at hsame hframe
      rw [List.map_append, ← hc]
      unfold unread coringbufReadonceSize
      unfold coringbufReadableSize at hr
      dsimp only
      by_cases hw : rb.tail ≥ rb.head
      · simp only [hw, ↓reduceIte, List.append_nil] at hr ⊢
        by_cases hend : rb.tail + data.length < rb.size
        · rw [Nat.mod_eq_of_lt hend, if_pos (by omega), if_pos (by omega), List.append_nil,
            show rb.tail + data.length - rb.head = (rb.tail - rb.head) + data.length by omega,
            ← slice_append, hframe _ _ (by omega),
            show rb.head + (rb.tail - rb.head) = rb.tail by omega, hsame]
        · -- the data ends exactly at the end of the block
          have hz : (rb.tail + data.length) % rb.size = 0 := by
            rw [show rb.tail + data.length = rb.size by omega, Nat.mod_self]
          rw [hz, if_neg (by omega), if_neg (by omega), slice_zero, List.append_nil,
            show rb.size - rb.head = (rb.tail - rb.head) + data.length by omega,
            ← slice_append, hframe _ _ (by omega),
            show rb.head + (rb.tail - rb.head) = rb.tail by omega, hsame]
      · simp only [hw, ↓reduceIte] at hr ⊢
        rw [Nat.mod_eq_of_lt (by omega), if_neg (by omega), if_neg (by omega),
          hframe _ _ (by omega), ← slice_append, hframe _ _ (by omega), Nat.zero_add, hsame,
          List.append_assoc]
  · -- two pieces: the queue is not wrapped yet and becomes wrapped
    have hw : rb.tail ≥ rb.head := by
      unfold coringbufReadableSize at hr
      by_contra hn
      rw [if_neg hn] at hr
      omega
    have hql : q.length = rb.tail - rb.head := by
      rw [← hr, coringbufReadableSize, if_pos hw]
    rw [Nat.min_eq_right (by omega)]
    have hfst : ((data.take (rb.size - rb.tail)).map some).length = rb.size - rb.tail := by
      rw [List.length_map, List.length_take]; omega
    have hfit : rb.tail + ((data.take (rb.size - rb.tail)).map some).length ≤ rb.buffer.length := by
      rw [hfst]; omega
    refine .bind (.store hfit) ?_
    rintro _ rfl
    have hsnd : ((data.drop (rb.size - rb.tail)).map some).length
        = data.length - (rb.size - rb.tail) := by
      rw [List.length_map, List.length_drop]
    have hfit2 : 0 + ((data.drop (rb.size - rb.tail)).map some).length
        ≤ (splice rb.buffer rb.tail ((data.take (rb.size - rb.tail)).map some)).length := by
      rw [splice_length _ _ _ hfit, hsnd]; omega
    refine UnlessOverflow.bind (Q := fun b => b = splice (splice rb.buffer rb.tail
      ((data.take (rb.size - rb.tail)).map some)) 0 ((data.drop (rb.size - rb.tail)).map some))
      ?_ ?_
    · exact .ite (fun _ => .store hfit2) (fun hge => absurd (by omega) hge)
    rintro _ rfl
    refine .bind (.int32 _) ?_
    rintro _ ⟨rfl, -⟩
    refine .bind (.remainder (by omega)) ?_
    rintro _ rfl
    have htail : (rb.tail + data.length) % rb.size = data.length - (rb.size - rb.tail) := by
      rw [Nat.mod_eq_sub_mod (by omega), Nat.mod_eq_of_lt (by omega)]
      omega
    refine .pure ⟨?_, hh, Nat.mod_lt _ (by omega), ?_⟩
    · rw [splice_length _ _ _ hfit2, splice_length _ _ _ hfit, ha]
    · have hsame := slice_splice_same rb.buffer rb.tail _ hfit
      have hframe := fun at' len => slice_splice_frame rb.buffer rb.tail at' len _ hfit
      have hsame2 := slice_splice_same _ 0 _ hfit2
      have hframe2 := fun at' len => slice_splice_frame _ 0 at' len _ hfit2
      rw [hfst] at hsame hframe
      rw [hsnd] at hsame2 hframe2
      rw [List.map_append, ← hc]
      unfold unread coringbufReadonceSize
      dsimp only
      simp only [hw, ↓reduceIte, List.append_nil]
      rw [htail, if_neg (by omega), if_neg (by omega), hsame2, hframe2 _ _ (by omega),
        show rb.size - rb.head = (rb.tail - rb.head) + (rb.size - rb.tail) by omega,
        ← slice_append, hframe _ _ (by omega),
        show rb.head + (rb.tail - rb.head) = rb.tail by omega, hsame, List.append_assoc,
        ← List.map_append, List.take_append_drop]

theorem coringbufWrite_spec {rb : Coringbuf} {q : List UInt8} (h : Holds rb q)
    (data : List UInt8) :
    UnlessOverflow (coringbufWrite rb data) (fun rb' => Holds rb' (q ++ data)) := by
  unfold coringbufWrite
  refine .bind (cbCheckAndGrow_spec h data.length) ?_
  rintro rb' ⟨hh, room⟩
  exact cbCopyIn_spec hh data room

/-! ## Sums -/

section Sums
variable (rb : Coringbuf)

theorem cbRelocate_checks (newsize : Nat) : Checks (cbRelocate rb newsize) True := by
  unfold cbRelocate
  refine (Checks.ite (fun _ => ?_) (fun _ => .pure _)).congr (by simp : (_ → True) ∧ (_ → True) ↔ True)
  exact (Checks.bind (.load _ _ _) fun _ _ =>
    .bind (.store _ _ _) fun _ _ => .pure _).congr (by simp)

/-- Growing doubles the size, and counts the cells needed. -/
theorem cbCheckAndGrow_checks (n : Nat) : Checks (cbCheckAndGrow rb n)
    (rb.size - coringbufReadableSize rb ≤ n →
      rb.size * 2 ≤ intMax ∧ coringbufReadableSize rb + n + 1 ≤ intMax) := by
  unfold cbCheckAndGrow
  refine (Checks.ite (fun _ => ?_) (fun _ => .pure _)).congr
    (c := (_ → rb.size * 2 ≤ intMax ∧ coringbufReadableSize rb + n + 1 ≤ intMax ∧ True) ∧ (_ → True))
    (by simp)
  refine .bind (.int32 _) fun doubled _ => .bind (.int32 _) fun needed _ => ?_
  exact cbRelocate_checks rb _

theorem cbCopyIn_checks (data : List UInt8) :
    Checks (cbCopyIn rb data) (rb.tail + data.length ≤ intMax) := by
  unfold cbCopyIn
  refine (Checks.bind (.store _ _ _) fun upper _ => .bind (c := True) ?_ fun buffer _ =>
    .bind (.int32 _) fun sum _ => .bind (.remainder _ _) fun tail _ => .pure _).congr (by simp)
  exact (Checks.ite (fun _ => .store _ _ _) fun _ => .pure _).congr (by simp)

/-- The size after growth, which leaves the tail. -/
theorem cbCheckAndGrow_size {rb rb' : Coringbuf} {n : Nat} (ran : cbCheckAndGrow rb n = .ok rb') :
    rb'.tail = rb.tail ∧ rb'.size = if rb.size - coringbufReadableSize rb ≤ n
      then max (rb.size * 2) (coringbufReadableSize rb + n + 1) else rb.size := by
  unfold cbCheckAndGrow at ran
  dsimp only at ran
  split at ran
  · next full =>
      obtain ⟨doubled, twice, ran⟩ := bind_ok ran
      obtain ⟨needed, counted, ran⟩ := bind_ok ran
      obtain ⟨rfl, -⟩ := (UnlessOverflow.int32 _).of_ok twice
      obtain ⟨rfl, -⟩ := (UnlessOverflow.int32 _).of_ok counted
      rw [if_pos full]
      unfold cbRelocate at ran
      dsimp only at ran
      split at ran
      · obtain ⟨upper, -, ran⟩ := bind_ok ran
        obtain ⟨moved, -, ran⟩ := bind_ok ran
        cases ran
        exact ⟨rfl, rfl⟩
      · cases ran
        exact ⟨rfl, rfl⟩
  · next room =>
      cases ran
      exact ⟨rfl, (if_neg room).symm⟩

theorem cbCopyIn_size {rb rb' : Coringbuf} {data : List UInt8} (ran : cbCopyIn rb data = .ok rb') :
    rb'.size = rb.size := by
  obtain ⟨upper, -, ran⟩ := bind_ok ran
  obtain ⟨buffer, -, ran⟩ := bind_ok ran
  obtain ⟨sum, -, ran⟩ := bind_ok ran
  obtain ⟨tail, -, ran⟩ := bind_ok ran
  cases ran
  rfl

theorem coringbufWrite_checks (data : List UInt8) : Checks (coringbufWrite rb data)
    ((rb.size - coringbufReadableSize rb ≤ data.length →
      rb.size * 2 ≤ intMax ∧ coringbufReadableSize rb + data.length + 1 ≤ intMax) ∧
    rb.tail + data.length ≤ intMax) := by
  unfold coringbufWrite
  refine .bind (cbCheckAndGrow_checks rb data.length) fun rb' grown => ?_
  rw [← (cbCheckAndGrow_size grown).1]
  exact cbCopyIn_checks rb' data

theorem coringbufRead_checks (n : Nat) :
    Checks (coringbufRead rb n) (rb.head + min n (coringbufReadableSize rb) ≤ intMax) := by
  have count : (if coringbufReadableSize rb ≥ n then n else coringbufReadableSize rb) =
      min n (coringbufReadableSize rb) := by
    split <;> omega
  unfold coringbufRead
  dsimp only
  rw [count]
  refine (Checks.bind (.load _ _ _) fun first _ => .bind (c := True) ?_ fun second _ =>
    .bind (.int32 _) fun sum _ => .bind (.remainder _ _) fun head _ => .pure _).congr (by simp)
  exact (Checks.ite (fun _ => .load _ _ _) fun _ => .pure _).congr (by simp)

theorem coringbufConsumeSize_checks (n : Nat) : Checks (coringbufConsumeSize rb n)
    (n ≤ coringbufReadableSize rb → rb.head + n ≤ intMax) := by
  unfold coringbufConsumeSize
  refine (Checks.ite (fun _ => ?_) (fun _ => .pure _)).congr
    (c := (_ → rb.head + n ≤ intMax ∧ True) ∧ (_ → True)) (by simp)
  exact .bind (.int32 _) fun sum _ => (Checks.bind (.remainder _ _) fun head _ => .pure _).congr (by simp)

end Sums

end Colinlib.Source.RingBuffer
