import Colinlib.Guarantees.AllocatorItems

/-!
# What the free flag says

The flag shares bytes 8..11 of an item with what its holder writes there. `mark`
reads from the history what those bytes hold: zero until the item is first handed
out, the flag from its last free, overwritten by its holders since. The flag tells
the truth about exactly the items that were handed out before and, while held, are
not marked as free.
-/
namespace Colinlib.Guarantees.FreeFlag
open Colinlib.Theory Colinlib.Theory.CMemory Colinlib.Theory.ByteMemory Colinlib.Theory.Chains
open Colinlib.Theory.Runs Colinlib.Source.Falloc Colinlib.Guarantees.AllocatorItems

/-- The bytes of an item, by offset, as its history leaves the ones of the flag. -/
def mark : List Event → Nat → Nat → UInt8
  | [], _ => fun _ => 0
  | .gave item :: h, i =>
    if item = i then put (mark h i) flagOffset (encode 4 freeFlag) else mark h i
  | .wrote item off bytes :: h, i => if item = i then put (mark h i) off bytes else mark h i
  | _ :: h, i => mark h i

def marked (hist : List Event) (i : Nat) : Nat := wordAt (mark hist i) 4 flagOffset

/-- Handed out at least once, and not marked as free in its holder's hands. -/
def Settled (hist : List Event) (i : Nat) : Prop :=
  .took i ∈ hist ∧ (i ∈ held hist → marked hist i ≠ freeFlag)

/-- What is reported about an item, and what a free of it does, is right. -/
structure Exact (w : World) (free : List Nat) (i : Nat) : Prop where
  isfree : cofallocIsfree w.1 i = .ok true ↔ i ∈ free
  accepted : (∃ s', cofallocFreeitem w.1 i = .ok (true, s')) ↔ i ∈ held w.2
  back : ∀ s', cofallocFreeitem w.1 i = .ok (true, s') → FreeList s' (i :: free)

/-- A fault is excused where no item fits a block. -/
def Excused (w : World) : Halt Fault → Prop
  | .contract => True
  | .fault _ => w.1.1.blocksize < w.1.1.itemsize + bufferOffset

section Marks

variable {B S : Nat} {others : List (Nat × Nat)}

/-- The flags agree with the history. -/
structure Marked (B S : Nat) (w : World) (free : List Nat) : Prop where
  bytes : ∀ i ∈ carved B S (grown w.2), ∀ k, flagOffset ≤ k → k < flagOffset + 4 →
    w.1.2.byte (i + k) = mark w.2 i k
  unused : ∀ i ∈ free, i ∉ freed w.2 → .took i ∉ w.2
  used : ∀ i, i ∈ freed w.2 ∨ i ∈ held w.2 → .took i ∈ w.2
  blank : ∀ i, .took i ∉ w.2 → mark w.2 i = fun _ => 0
  untaken : ∀ i, i ∉ carved B S (grown w.2) → .took i ∉ w.2

theorem decode_zero {bytes : List UInt8} (h : decode bytes = 0) : ∀ b ∈ bytes, b = 0 := by
  induction bytes with
  | nil => simp
  | cons b rest ih =>
      rw [decode] at h
      refine List.forall_mem_cons.mpr ⟨?_, ih (by omega)⟩
      exact UInt8.toNat_inj.mp (by rw [UInt8.toNat_zero]; omega)

theorem wordAt_zero {byte : Nat → UInt8} {n a : Nat} (h : wordAt byte n a = 0) {k : Nat}
    (hk : k < n) : byte (a + k) = 0 :=
  decode_zero h _ (List.mem_map.mpr ⟨k, List.mem_range.mpr hk, rfl⟩)

/-- A store shifts with the range it is made in. -/
theorem put_shift (byte : Nat → UInt8) (i off k : Nat) (bytes : List UInt8) :
    put byte (i + off) bytes (i + k) = put (fun x => byte (i + x)) off bytes k := by
  unfold put
  by_cases h : off ≤ k
  · rw [if_pos (by omega), if_pos h, Nat.add_sub_add_left]
  · rw [if_neg (by omega), if_neg h]

theorem put_congr {f g : Nat → UInt8} {a k : Nat} {bytes : List UInt8} (h : f k = g k) :
    put f a bytes k = put g a bytes k := by
  unfold put
  rw [h]

/-- The items of a block just allocated are none of the old ones. -/
theorem new_items {w : World} {free : List Nat} (h : Tracks B S others w free) {base : Nat}
    (fresh : Fresh w.1.2 base B) {i : Nat} (hi : i ∈ carved B S (grown w.2)) :
    i + S ≤ base ∨ base + B ≤ i := by
  obtain ⟨b, hb, lo, hi'⟩ := carved_inside h.pool.header hi
  have mine : (b, B) ∈ w.1.2.blocks := by
    rw [h.pool.blocks]
    exact List.mem_append_left _ (List.mem_map_of_mem hb)
  have apart := (fresh.2.2 _ mine).2
  unfold Apart at apart
  simp only at apart
  omega

theorem mem_itemsOf {base i : Nat} (hi : i ∈ itemsOf S (capacity B S) base) :
    i ∈ carved B S [base] := by simpa [carved] using hi

theorem carve_marked {s s' : State} {hist : List Event} {base item : Nat} {free : List Nat}
    (items : (itemsOf S (capacity B S) base).reverse = item :: free)
    (fresh : Fresh s.2 base B) (grew : Grown B S base s.2 s'.2)
    (h : Tracks B S others (s, hist) []) (m : Marked B S (s, hist) []) :
    Marked B S (s', .took item :: .grew base :: hist) free := by
  have hS := h.pool.item
  have split : ∀ i, i ∈ carved B S (grown (.took item :: .grew base :: hist)) ↔
      i ∈ itemsOf S (capacity B S) base ∨ i ∈ carved B S (grown hist) := by
    intro i
    simp only [grown, carved, List.flatMap_cons, List.mem_append]
  have fromNew : ∀ i ∈ item :: free, i ∈ itemsOf S (capacity B S) base := by
    intro i hi
    rw [← items] at hi
    exact List.mem_reverse.mp hi
  have notOld : ∀ i ∈ itemsOf S (capacity B S) base, i ∉ carved B S (grown hist) := by
    intro i hnew hold
    obtain ⟨b, hb, lo, hi⟩ := carved_inside h.pool.header (mem_itemsOf hnew)
    obtain rfl := List.mem_singleton.mp hb
    have := new_items h fresh hold
    unfold sizeofBlockitem bufferOffset at *
    omega
  have once : (item :: free).Nodup := by
    rw [← items, List.nodup_reverse]
    exact itemsOf_nodup (Nat.lt_of_lt_of_le (by decide) hS) _ base
  refine ⟨?_, ?_, ?_, ?_, ?_⟩
  · intro i hi k lo hk
    change s'.2.byte (i + k) = mark hist i k
    rcases (split i).mp hi with hnew | hold
    · have blank := m.blank i (m.untaken i (notOld i hnew))
      simp only at blank
      rw [blank]
      have zero := wordAt_zero (grew.2 i hnew) (k := k - flagOffset) (by omega)
      rwa [Nat.add_assoc, Nat.add_sub_of_le lo] at zero
    · rw [← m.bytes i hold k lo hk]
      have apart := new_items h fresh hold
      unfold sizeofBlockitem flagOffset at *
      exact grew.1.same _ (by omega)
  · intro i hi _
    have hnew := fromNew i (List.mem_cons_of_mem _ hi)
    have ne : i ≠ item := fun equal => (List.nodup_cons.mp once).1 (equal ▸ hi)
    simpa [ne] using m.untaken i (notOld i hnew)
  · intro i hi
    rcases hi with hfreed | hheld
    · have old : i ∈ freed hist := List.mem_of_mem_erase hfreed
      cases h.freed_free i old
    · rcases List.mem_cons.mp hheld with rfl | hheld
      · simp
      · simpa using .inr (m.used i (.inr hheld))
  · intro i hi
    exact m.blank i (fun taken => hi (by simpa using .inr taken))
  · intro i hi
    have apart := fun side => hi ((split i).mpr side)
    have ne : i ≠ item := fun equal => apart (.inl (fromNew i (by simp [equal])))
    simpa [ne] using m.untaken i (fun old => apart (.inr old))

theorem give_marked {s s' : State} {hist : List Event} {item : Nat} {free : List Nat}
    (holder : item ∈ held hist)
    (stamped : s'.2.byte = stamp s.2.byte item s.1.freeitem freeFlag)
    (h : Tracks B S others (s, hist) free) (m : Marked B S (s, hist) free) :
    Marked B S (s', .gave item :: hist) (item :: free) := by
  have hS := h.pool.item
  refine ⟨?_, ?_, ?_, ?_, ?_⟩
  · intro i hi k lo hk
    rw [stamped]
    by_cases same : item = i
    · subst same
      obtain ⟨j, rfl⟩ := Nat.exists_eq_add_of_le lo
      rw [stamp, ← Nat.add_assoc, put_inside _ _ _ _ (by simp; omega)]
      simp only [mark, if_true]
      rw [put_inside _ _ _ _ (by simp; omega)]
    · have frame := h.item_frame (h.pool.held_carved holder) hi same
        (stamp s.2.byte item s.1.freeitem freeFlag) (fun x hx => stamp_same (by omega))
        (k := k) (by unfold sizeofBlockitem flagOffset at *; omega)
      simp only [mark, if_neg same]
      exact frame.trans (m.bytes i hi k lo hk)
  · intro i hi notfreed
    rcases List.mem_cons.mp hi with rfl | hi
    · exact absurd (by simp [freed]) notfreed
    · simpa using m.unused i hi (fun hf => notfreed (List.mem_cons_of_mem _ hf))
  · intro i hi
    rcases hi with hfreed | hheld
    · rcases List.mem_cons.mp hfreed with rfl | hfreed
      · simpa using m.used i (.inr holder)
      · simpa using m.used i (.inl hfreed)
    · simpa using m.used i (.inr (List.mem_of_mem_erase hheld))
  · intro i untaken
    have other : item ≠ i := by
      intro equal
      subst equal
      exact untaken (by simpa using m.used item (.inr holder))
    simp only [mark, if_neg other]
    exact m.blank i (fun taken => untaken (by simpa using taken))
  · intro i hi
    simpa using m.untaken i hi

theorem write_marked {s s' : State} {hist : List Event} {item off : Nat} {bytes : List UInt8}
    {free : List Nat} (holder : item ∈ held hist) (inside : off + bytes.length ≤ S)
    (written : s'.2.byte = put s.2.byte (item + off) bytes)
    (h : Tracks B S others (s, hist) free) (m : Marked B S (s, hist) free) :
    Marked B S (s', .wrote item off bytes :: hist) free := by
  have hS := h.pool.item
  refine ⟨?_, fun i hi notfreed => by simpa using m.unused i hi notfreed,
    fun i hi => by simpa using m.used i hi, ?_, fun i hi => by simpa using m.untaken i hi⟩
  · intro i hi k lo hk
    rw [written]
    by_cases same : item = i
    · subst same
      rw [put_shift]
      simp only [mark, if_true]
      exact put_congr (m.bytes item hi k lo hk)
    · have frame := h.item_frame (h.pool.held_carved holder) hi same
        (put s.2.byte (item + off) bytes) (fun x hx => put_outside _ _ _ _ (by omega))
        (k := k) (by unfold sizeofBlockitem flagOffset at *; omega)
      simp only [mark, if_neg same]
      exact frame.trans (m.bytes i hi k lo hk)
  · intro i untaken
    have other : item ≠ i := by
      intro equal
      subst equal
      exact untaken (by simpa using m.used item (.inr holder))
    simp only [mark, if_neg other]
    exact m.blank i (fun taken => untaken (by simpa using taken))

/-- The marks stay in step with memory. -/
theorem move_marked {w w' : World} {free free' : List Nat} (move : Move B S w free w' free')
    (h : Tracks B S others w free) (m : Marked B S w free) : Marked B S w' free' := by
  cases move with
  | @reuse s s' hist item _ same =>
      have once := (List.nodup_cons.mp h.disjoint.1).1
      have hitem := h.pool.free_carved (i := item) (by simp)
      refine ⟨?_, ?_, ?_, fun i hi => m.blank i (fun t => hi (by simpa using .inr t)), ?_⟩
      · intro i hi k lo hk
        rw [same]
        exact m.bytes i hi k lo hk
      · intro i hi notfreed
        have ne : i ≠ item := fun equal => once (equal ▸ hi)
        have before := m.unused i (List.mem_cons_of_mem _ hi)
          (fun hf => notfreed ((List.mem_erase_of_ne ne).mpr hf))
        simpa [ne] using before
      · intro i hi
        rcases hi with hfreed | hheld
        · simpa using .inr (m.used i (.inl (List.mem_of_mem_erase hfreed)))
        · rcases List.mem_cons.mp hheld with rfl | hheld
          · simp
          · simpa using .inr (m.used i (.inr hheld))
      · intro i hi
        have ne : i ≠ item := fun equal => hi (equal ▸ hitem)
        simpa [ne] using m.untaken i hi
  | carve items fresh grew => exact carve_marked items fresh grew h m
  | give holder flag stamped => exact give_marked holder stamped h m
  | @keep s hist item _ flag =>
      exact ⟨m.bytes, fun i hi notfreed => by simpa using m.unused i hi notfreed,
        fun i hi => by simpa using m.used i hi,
        fun i hi => m.blank i (fun t => hi (by simpa using t)),
        fun i hi => by simpa using m.untaken i hi⟩
  | write holder inside written => exact write_marked holder inside written h m

end Marks

section Reports

variable {B S : Nat} {others : List (Nat × Nat)} {w : World} {free : List Nat}

theorem flag_eq_marked (m : Marked B S w free) {i : Nat} (hi : i ∈ carved B S (grown w.2)) :
    wordAt w.1.2.byte 4 (i + flagOffset) = marked w.2 i := by
  rw [marked, wordAt, wordAt]
  congr 1
  apply List.map_congr_left
  intro k hk
  rw [Nat.add_assoc]
  exact m.bytes i hi _ (by omega) (Nat.add_lt_add_left (List.mem_range.mp hk) _)

theorem exact_held (h : Tracks B S others w free) (m : Marked B S w free) {i : Nat}
    (hi : i ∈ held w.2) : Exact w free i ↔ marked w.2 i ≠ freeFlag := by
  have inside := h.pool.held_carved hi
  have notfree : i ∉ free := fun hf => h.disjoint.2.2 i hf hi
  rw [← flag_eq_marked m inside]
  constructor
  · intro exactly flag
    have reported : cofallocIsfree w.1 i = .ok true := by
      rw [h.pool.isfree inside, flag, beq_self_eq_true]
    exact notfree (exactly.isfree.mp reported)
  · intro flag
    obtain ⟨s', run, pool, -⟩ := h.pool.freeitem hi flag
    refine ⟨?_, ⟨fun _ => hi, fun _ => ⟨s', run⟩⟩, ?_⟩
    · rw [h.pool.isfree inside]
      simp [flag, notfree]
    · intro s'' run'
      rw [run] at run'
      cases run'
      exact pool.freeitems

theorem exact_freed (h : Tracks B S others w free) {i : Nat} (hi : i ∈ freed w.2) :
    Exact w free i := by
  have hfree := h.freed_free i hi
  have inside := h.pool.free_carved hfree
  have flag := h.freed_flag i hi
  have notheld := h.disjoint.2.2 i hfree
  have refused := h.pool.refuse inside flag
  refine ⟨?_, ⟨?_, fun hh => absurd hh notheld⟩, ?_⟩
  · rw [h.pool.isfree inside, flag]
    simpa using hfree
  · intro accepted
    obtain ⟨s', run⟩ := accepted
    rw [refused] at run
    cases run
  · intro s' run
    rw [refused] at run
    cases run

/-- An item that was never handed out is not reported as free. -/
theorem not_exact_unused (h : Tracks B S others w free) (m : Marked B S w free) {i : Nat}
    (hi : i ∈ free) (untaken : .took i ∉ w.2) : ¬ Exact w free i := by
  intro exactly
  have inside := h.pool.free_carved hi
  have reported := exactly.isfree.mpr hi
  rw [h.pool.isfree inside, flag_eq_marked m inside, marked, m.blank i untaken] at reported
  exact absurd reported (by decide)

theorem exact_iff_settled (h : Tracks B S others w free) (m : Marked B S w free) {i : Nat}
    (hi : i ∈ carved B S (grown w.2)) : Exact w free i ↔ Settled w.2 i := by
  rcases List.mem_append.mp (h.pool.division.mem_iff.mpr hi) with hfree | hheld
  · have notheld := h.disjoint.2.2 i hfree
    by_cases hfreed : i ∈ freed w.2
    · exact ⟨fun _ => ⟨m.used i (.inl hfreed), fun hh => absurd hh notheld⟩,
        fun _ => exact_freed h hfreed⟩
    · have untaken := m.unused i hfree hfreed
      exact ⟨fun exactly => absurd exactly (not_exact_unused h m hfree untaken),
        fun settled => absurd settled.1 untaken⟩
  · rw [exact_held h m hheld]
    exact ⟨fun flag => ⟨m.used i (.inr hheld), fun _ => flag⟩, fun settled => settled.2 hheld⟩

/-- The allocator agrees with the history, and the flags with the marks. -/
def Known (B S : Nat) (others : List (Nat × Nat)) (w : World) : Prop :=
  ∃ free, Tracks B S others w free ∧ Marked B S w free

theorem step_known (h : Known B S others w) (request : Request) :
    Outcome (· = Halt.contract) (Known B S others) (step w request) := by
  obtain ⟨free, h, m⟩ := h
  apply (step_tracks h request).mono
  intro w' moved
  obtain ⟨free', move, h'⟩ := moved
  exact ⟨free', h', move_marked move h m⟩

theorem start_known {blocksize itemsize : UInt32} (mem : Memory)
    (fits : max sizeofBlockitem itemsize.toNat + bufferOffset ≤
      clamp blocksize.toNat minBlockSize maxBlockSize) :
    Known (clamp blocksize.toNat minBlockSize maxBlockSize) (max sizeofBlockitem itemsize.toNat)
      mem.blocks (start blocksize itemsize mem) := by
  refine ⟨[], ⟨Pool.init _ _ fits mem, ?_, ?_, List.nodup_nil⟩, ?_, ?_, ?_, ?_, ?_⟩ <;>
    simp [start, grown, carved, freed, held, mark]

theorem Known.settled (h : Known B S others w) :
    ∃ free, FreeList w.1 free ∧ ∀ i ∈ carved w.1.1.blocksize w.1.1.itemsize (grown w.2),
      (Exact w free i ↔ Settled w.2 i) := by
  obtain ⟨free, h, m⟩ := h
  refine ⟨free, h.pool.freeitems, ?_⟩
  rw [h.pool.blocksize, h.pool.itemsize]
  exact fun i hi => exact_iff_settled h m hi

/-- Where no item fits a block, no request is ever served. -/
theorem step_unfit (blocksize itemsize : UInt32) (mem : Memory)
    (unfit : clamp blocksize.toNat minBlockSize maxBlockSize <
      max sizeofBlockitem itemsize.toNat + bufferOffset) (request : Request) :
    Outcome (Excused (start blocksize itemsize mem))
      (· = start blocksize itemsize mem) (step (start blocksize itemsize mem) request) := by
  cases request with
  | newitem base =>
      rw [step]
      split
      · cases run : cofallocNewitem base (start blocksize itemsize mem).1 with
        | error f => exact unfit
        | ok r => exact absurd run (cofallocNewitem_unfit rfl rfl rfl unfit base r)
      · trivial
  | freeitem item =>
      rw [step, if_neg (by simp [start, held, freed])]
      trivial
  | write item off bytes =>
      rw [step, if_neg (by simp [start, held])]
      trivial

end Reports

/-- An item that was freed is handed out again: it is held, and reported as free,
and its holder cannot free it. -/
theorem recycled_item_reported_free :
    (run step (start 4096 2000 ⟨fun _ => 0, []⟩)
        [.newitem 4096, .freeitem 6104, .newitem 0]).map
      (fun w => (held w.2, cofallocIsfree w.1 6104, (cofallocFreeitem w.1 6104).map Prod.fst)) =
    .ok ([6104], .ok true, .ok false) := by
  decide +kernel

/-- In every state that calls and writes lead to, what is reported about an item of
the allocator is right if and only if the item was handed out at least once and,
while it is held, its bytes 8..11 are not as a free leaves them. -/
theorem reports_exact_iff_settled (blocksize itemsize : UInt32) (mem : Memory)
    (requests : List Request) :
    Outcome (Excused (start blocksize itemsize mem))
      (fun w => ∃ free, FreeList w.1 free ∧
        ∀ i ∈ carved w.1.1.blocksize w.1.1.itemsize (grown w.2),
          (Exact w free i ↔ Settled w.2 i))
      (run step (start blocksize itemsize mem) requests) := by
  by_cases fits : max sizeofBlockitem itemsize.toNat + bufferOffset ≤
      clamp blocksize.toNat minBlockSize maxBlockSize
  · have reached := outcome_run step (· = Halt.contract) _ (fun w request h => step_known h request)
      requests _ (start_known mem fits)
    cases hrun : run step (start blocksize itemsize mem) requests with
    | error stop =>
        rw [hrun] at reached
        obtain rfl : stop = .contract := reached
        trivial
    | ok w =>
        rw [hrun] at reached
        exact reached.settled
  · have stuck := outcome_run step (Excused (start blocksize itemsize mem))
      (· = start blocksize itemsize mem) (fun w request same => by
        subst same
        exact step_unfit blocksize itemsize mem (Nat.lt_of_not_le fits) request) requests _ rfl
    apply stuck.mono
    intro w same
    subst same
    exact ⟨[], rfl, by simp [start, grown, carved]⟩

end Colinlib.Guarantees.FreeFlag
