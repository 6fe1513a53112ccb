import Colinlib.Guarantees.IntegerRoundTrip

/-!
# A buffer is a file with a cursor

What a caller sees of a buffer is which byte was stored last at each position, and where the
cursor is. Growing moves the bytes and loses none, and a field that no later write meets is
read back from wherever the cursor has been.
-/
namespace Colinlib.Guarantees.BufferFile
open Colinlib.Theory Colinlib.Theory.CMemory Colinlib.Theory.ByteOrder
open Colinlib.Theory.Runs (Outcome)
open Colinlib.Source.Buffer Colinlib.Guarantees.IntegerRoundTrip

/-- `byte` is what was stored last, if anything was. -/
structure File where
  byte : Nat → Option UInt8
  size : Nat
  pos : Nat

/-- The typed functions are reads and writes of their widths. To skip is to write from a null
pointer. -/
inductive Op where
  | write (data : List UInt8)
  | skip (size : Nat)
  | read (size : Nat)
  | seek (abs : Bool) (pos : Int32)
  deriving DecidableEq, Repr

inductive Reply where
  | nothing
  | cells (read : Option (List (Option UInt8)))
  | position (pos : Nat)
  deriving DecidableEq, Repr

/-! ## The file -/

def put (byte : Nat → Option UInt8) (at' : Nat) (data : List UInt8) : Nat → Option UInt8 :=
  fun p => if at' ≤ p ∧ p < at' + data.length then data[p - at']? else byte p

def range (byte : Nat → Option UInt8) (at' n : Nat) : List (Option UInt8) :=
  (List.range n).map fun i => byte (at' + i)

/-- Room for `n` more bytes at the cursor: at least twice as much, where there was none. -/
def File.grown (f : File) (n : Nat) : Nat :=
  if f.pos + n > f.size then max (f.pos + n) (f.size * 2) else f.size

/-- Where a seek goes. -/
def File.target (f : File) (abs : Bool) (pos : Int32) : Nat :=
  clamp (if !abs then pos.toInt + f.pos else if pos.toInt < 0 then f.size - pos.toInt
    else pos.toInt) f.size

def serve (f : File) : Op → Reply × File
  | .write data =>
    (.nothing, ⟨put f.byte f.pos data, f.grown data.length, f.pos + data.length⟩)
  | .skip n => (.nothing, { f with size := f.grown n, pos := f.pos + n })
  | .read n =>
    if f.pos + n ≤ f.size then (.cells (some (range f.byte f.pos n)), { f with pos := f.pos + n })
    else (.cells none, f)
  | .seek abs pos => (.position (f.target abs pos), { f with pos := f.target abs pos })

def serveAll : File → List Op → List Reply × File
  | f, [] => ([], f)
  | f, op :: rest =>
    let (reply, f) := serve f op
    let (replies, f) := serveAll f rest
    (reply :: replies, f)

/-- The operations write no byte between `at'` and `at' + n`. -/
def SparesAll (at' n : Nat) : File → List Op → Prop
  | _, [] => True
  | f, op :: rest =>
    (match op with
      | .write data => data = [] ∨ f.pos + data.length ≤ at' ∨ at' + n ≤ f.pos
      | _ => True) ∧ SparesAll at' n (serve f op).2 rest

instance decidableSparesAll (at' n : Nat) : (f : File) → (ops : List Op) →
    Decidable (SparesAll at' n f ops)
  | _, [] => .isTrue trivial
  | f, op :: rest =>
    have := decidableSparesAll at' n (serve f op).2 rest
    match op with
    | .write data =>
      inferInstanceAs (Decidable ((data = [] ∨ f.pos + data.length ≤ at' ∨ at' + n ≤ f.pos) ∧ _))
    | .skip _ | .read _ | .seek _ _ => inferInstanceAs (Decidable (True ∧ _))

theorem serve_read (f : File) (n : Nat) : serve f (.read n) =
    if f.pos + n ≤ f.size then (.cells (some (range f.byte f.pos n)), { f with pos := f.pos + n })
    else (.cells none, f) := rfl

section Files

variable {byte : Nat → Option UInt8} {at' b n : Nat} {data : List UInt8}

theorem range_put_apart (apart : data = [] ∨ at' + data.length ≤ b ∨ b + n ≤ at') :
    range (put byte at' data) b n = range byte b n := by
  refine List.map_congr_left fun i inside => ?_
  have low := List.mem_range.mp inside
  refine if_neg ?_
  rintro ⟨from', upto⟩
  rcases apart with rfl | apart
  · rw [List.length_nil] at upto
    omega
  · omega

/-- What no operation writes to stays. -/
theorem serveAll_spares (ops : List Op) (f : File) (spares : SparesAll at' n f ops) :
    range (serveAll f ops).2.byte at' n = range f.byte at' n := by
  induction ops generalizing f with
  | nil => rfl
  | cons op rest ih =>
      obtain ⟨first, later⟩ := spares
      rw [serveAll, ih _ later]
      cases op with
      | write data => exact range_put_apart first
      | skip n => rfl
      | read n =>
          rw [serve_read]
          split <;> rfl
      | seek abs pos => rfl

/-- A file never shrinks. -/
theorem serveAll_size (ops : List Op) (f : File) : f.size ≤ (serveAll f ops).2.size := by
  induction ops generalizing f with
  | nil => exact Nat.le_refl _
  | cons op rest ih =>
      have grown : ∀ n, f.size ≤ f.grown n := by
        intro n
        unfold File.grown
        split <;> omega
      have here : f.size ≤ (serve f op).2.size := by
        cases op with
        | write data => exact grown _
        | skip n => exact grown n
        | read n =>
            rw [serve_read]
            split <;> exact Nat.le_refl _
        | seek abs pos => exact Nat.le_refl _
      exact Nat.le_trans here (ih _)

end Files

/-! ## The buffer -/

def view (bf : Cobuffer) : File := ⟨fun p => (bf.buffer[p]?).join, bf.size, bf.pos⟩

def call (bf : Cobuffer) : Op → Except Fault (Reply × Cobuffer)
  | .write data => do
    .ok (.nothing, ← cobufferWrite bf (some data) data.length)
  | .skip size => do
    .ok (.nothing, ← cobufferWrite bf none size)
  | .read size => do
    let (cells, bf) ← cobufferRead bf size
    .ok (.cells cells, bf)
  | .seek abs pos => do
    let (pos, bf) ← cobufferSeek bf abs pos
    .ok (.position pos, bf)

def callAll : Cobuffer → List Op → Except Fault (List Reply × Cobuffer)
  | bf, [] => .ok ([], bf)
  | bf, op :: rest => do
    let (reply, bf) ← call bf op
    let (replies, bf) ← callAll bf rest
    .ok (reply :: replies, bf)

section Views

variable {bf bf' : Cobuffer}

/-- New cells hold nothing. -/
theorem realloc_join (b : Block UInt8) {n : Nat} (larger : b.length ≤ n) (p : Nat) :
    ((realloc b n)[p]?).join = (b[p]?).join := by
  rw [realloc, List.take_of_length_le larger]
  by_cases old : p < b.length
  · rw [List.getElem?_append_left old]
  · rw [List.getElem?_append_right (Nat.not_lt.mp old), List.getElem?_eq_none (Nat.not_lt.mp old),
      List.getElem?_replicate]
    split <;> rfl

theorem splice_join (b : Block UInt8) (at' : Nat) (data : List UInt8)
    (bound : at' + data.length ≤ b.length) :
    (fun p => ((splice b at' (data.map some))[p]?).join) =
      put (fun p => (b[p]?).join) at' data := by
  funext p
  rw [splice_getElem? b at' p _ (by rwa [List.length_map]), List.length_map, put]
  split
  · rw [List.getElem?_map]
    cases data[p - at']? <;> rfl
  · rfl

theorem slice_view (h : Sound bf) {at' n : Nat} (room : at' + n ≤ bf.size) :
    slice bf.buffer at' n = range (view bf).byte at' n := by
  have allocated := h.allocated
  apply List.ext_getElem?
  intro i
  rw [slice_getElem?, range, List.getElem?_map]
  by_cases low : i < n
  · have inside : at' + i < bf.buffer.length := by omega
    have cell : (view bf).byte (at' + i) = bf.buffer[at' + i] := by
      simp only [view, List.getElem?_eq_getElem inside, Option.join_some]
    rw [if_pos low, List.getElem?_range low, Option.map_some, cell, List.getElem?_eq_getElem inside]
  · rw [if_neg low, List.getElem?_eq_none (by simpa using low)]
    rfl

theorem view_grown (bf : Cobuffer) (n : Nat) : (view bf).grown n =
    if bf.pos + n > bf.size then max (bf.pos + n) (bf.size * 2) else bf.size := rfl

theorem wbCheckAndGrow_view (h : Sound bf) {n : Nat} (grew : wbCheckAndGrow bf n = .ok bf') :
    view bf' = ⟨(view bf).byte, (view bf).grown n, bf.pos⟩ := by
  have allocated := h.allocated
  unfold wbCheckAndGrow at grew
  obtain ⟨sum, added, grew⟩ := bind_ok grew
  obtain ⟨rfl, -⟩ := int32_ok added
  split at grew
  · next exceeds =>
      obtain ⟨doubled, twice, grew⟩ := bind_ok grew
      obtain ⟨rfl, -⟩ := int32_ok twice
      cases grew
      have larger : bf.buffer.length ≤ max (bf.pos + n) (bf.size * 2) := by omega
      rw [view_grown, if_pos exceeds]
      simp only [view, realloc_join bf.buffer larger]
  · next room =>
      cases grew
      rw [view_grown, if_neg room]
      rfl

theorem write_view (h : Sound bf) (data : List UInt8)
    (wrote : cobufferWrite bf (some data) data.length = .ok bf') :
    view bf' = (serve (view bf) (.write data)).2 := by
  unfold cobufferWrite at wrote
  obtain ⟨grown, grew, wrote⟩ := bind_ok wrote
  obtain ⟨sound, -, same, -, room⟩ := wbCheckAndGrow_sound h grew
  have seen := wbCheckAndGrow_view h grew
  have whole : load (data.map some) 0 data.length = .ok (data.map some) := by
    rw [load, if_pos (by simp), slice, List.drop_zero, List.take_of_length_le (by simp)]
  simp only [whole, ok_bind] at wrote
  obtain ⟨bytes, stored, wrote⟩ := bind_ok wrote
  obtain ⟨bound, rfl⟩ := store_ok stored
  obtain ⟨pos, added, wrote⟩ := bind_ok wrote
  obtain ⟨rfl, -⟩ := int32_ok added
  cases wrote
  rw [List.length_map] at bound
  have byte : (view grown).byte = (view bf).byte := by rw [seen]
  have size : grown.size = (view bf).grown data.length := congrArg File.size seen
  have stored := splice_join grown.buffer grown.pos data bound
  simp only [view] at byte
  rw [byte, same] at stored
  simp only [view, serve, File.mk.injEq]
  exact ⟨by rw [same]; exact stored, size, by rw [same]⟩

theorem skip_view (h : Sound bf) (n : Nat) (wrote : cobufferWrite bf none n = .ok bf') :
    view bf' = (serve (view bf) (.skip n)).2 := by
  unfold cobufferWrite at wrote
  obtain ⟨grown, grew, wrote⟩ := bind_ok wrote
  obtain ⟨-, -, same, -, -⟩ := wbCheckAndGrow_sound h grew
  have seen := wbCheckAndGrow_view h grew
  simp only [ok_bind] at wrote
  obtain ⟨pos, added, wrote⟩ := bind_ok wrote
  obtain ⟨rfl, -⟩ := int32_ok added
  cases wrote
  simp only [view, serve, File.mk.injEq]
  exact ⟨congrArg File.byte seen, congrArg File.size seen, by rw [same]⟩

/-- Only an overflow keeps a skip from returning. -/
theorem cobufferWrite_none_returns (bf : Cobuffer) (n : Nat) :
    Outcome (· = .intOverflow) (fun _ => True) (cobufferWrite bf none n) := by
  have sums : ∀ n, Outcome (· = .intOverflow) (fun _ => True) (int32 n) := fun n => by
    unfold int32
    split <;> trivial
  unfold cobufferWrite wbCheckAndGrow
  refine Outcome.bind (Q := fun _ => True) ((sums _).bind fun sum _ => ?_) fun grown _ => ?_
  · split
    · exact (sums _).bind fun _ _ => trivial
    · trivial
  · exact (sums _).bind fun _ _ => trivial

/-- An operation does to the buffer what it does to the file. -/
structure Refines (bf : Cobuffer) (op : Op) (out : Reply × Cobuffer) : Prop where
  sound : Sound out.2
  endian : out.2.endian = bf.endian
  reply : out.1 = (serve (view bf) op).1
  view : view out.2 = (serve (view bf) op).2

theorem write_refines (h : Sound bf) (data : List UInt8) :
    Outcome (· = .intOverflow) (Refines bf (.write data)) (call bf (.write data)) := by
  have returns := cobufferWrite_returns h data
  rw [call]
  cases wrote : cobufferWrite bf (some data) data.length with
  | error f =>
      rw [wrote] at returns
      exact returns
  | ok bf' =>
      obtain ⟨sound, -, -, endian, -⟩ := cobufferWrite_sound h wrote
      exact ⟨sound, endian, rfl, write_view h data wrote⟩

theorem skip_refines (h : Sound bf) (n : Nat) :
    Outcome (· = .intOverflow) (Refines bf (.skip n)) (call bf (.skip n)) := by
  have returns := cobufferWrite_none_returns bf n
  rw [call]
  cases wrote : cobufferWrite bf none n with
  | error f =>
      rw [wrote] at returns
      exact returns
  | ok bf' =>
      obtain ⟨sound, -, -, endian, -⟩ := cobufferWrite_sound h wrote
      exact ⟨sound, endian, rfl, skip_view h n wrote⟩

theorem read_refines (h : Sound bf) (n : Nat) :
    Outcome (· = .intOverflow) (Refines bf (.read n)) (call bf (.read n)) := by
  rw [call]
  by_cases room : bf.pos + n ≤ bf.size
  · have served : serve (view bf) (.read n) =
        (.cells (some (slice bf.buffer bf.pos n)), view { bf with pos := bf.pos + n }) := by
      rw [slice_view h room]
      exact if_pos room
    have read := cobufferRead_inside h room
    have sound := (cobufferRead_sound h read).1
    rw [read]
    exact ⟨sound, rfl, by rw [served], by rw [served]⟩
  · have served : serve (view bf) (.read n) = (.cells none, view bf) := if_neg room
    unfold cobufferRead int32
    split
    · rw [ok_bind, if_neg room]
      exact ⟨h, rfl, by rw [served], by rw [served]⟩
    · rfl

theorem seek_refines (h : Sound bf) (abs : Bool) (pos : Int32) :
    Outcome (· = .intOverflow) (Refines bf (.seek abs pos)) (call bf (.seek abs pos)) := by
  rw [call]
  by_cases fits : seekSum bf abs pos < 2 ^ 31
  · have sought := cobufferSeek_fits fits
    have sound := (cobufferSeek_sound h sought).1
    rw [sought]
    exact ⟨sound, rfl, rfl, rfl⟩
  · rw [cobufferSeek_overflow (Int.not_lt.mp fits)]
    rfl

theorem call_refines (h : Sound bf) (op : Op) :
    Outcome (· = .intOverflow) (Refines bf op) (call bf op) := by
  cases op with
  | write data => exact write_refines h data
  | skip n => exact skip_refines h n
  | read n => exact read_refines h n
  | seek abs pos => exact seek_refines h abs pos

theorem callAll_refines (h : Sound bf) (ops : List Op) :
    Outcome (· = .intOverflow) (fun out => Sound out.2 ∧ out.2.endian = bf.endian ∧
      out.1 = (serveAll (view bf) ops).1 ∧ view out.2 = (serveAll (view bf) ops).2)
      (callAll bf ops) := by
  induction ops generalizing bf with
  | nil => exact ⟨h, rfl, rfl, rfl⟩
  | cons op rest ih =>
      rw [callAll]
      refine (call_refines h op).bind ?_
      rintro ⟨reply, bf₁⟩ first
      refine (ih first.sound).bind ?_
      rintro ⟨replies, bf₂⟩ ⟨sound, endian, outs, seen⟩
      rw [first.view] at outs seen
      exact ⟨sound, endian.trans first.endian, congrArg₂ List.cons first.reply outs, seen⟩

end Views

/-- The file that a new buffer is. -/
def blank (bufsz : Int32) : File := ⟨fun _ => none, (max bufsz.toInt minBuffSize).toNat, 0⟩

theorem cobufferNew_view (bufsz : Int32) (endian : CbEndian) :
    ∃ bf, cobufferNew none bufsz endian = .ok bf ∧ Sound bf ∧ bf.endian = endian ∧
      view bf = blank bufsz := by
  have made : cobufferNew none bufsz endian = .ok ⟨malloc UInt8 (max bufsz.toInt minBuffSize).toNat,
      (max bufsz.toInt minBuffSize).toNat, 0, endian⟩ := rfl
  refine ⟨_, made, cobufferNew_sound made, rfl, ?_⟩
  simp only [view, blank, File.mk.injEq, and_self, and_true]
  funext p
  rw [malloc, List.getElem?_replicate]
  split <;> rfl

/-- **The buffer is a file.** Whatever is written, skipped, read and sought, as long as no
position leaves `int` every call does and returns what it does on a file that keeps at each
position the byte stored there last. -/
theorem buffer_refines_file (bufsz : Int32) (endian : CbEndian) (ops : List Op) :
    ∃ bf, cobufferNew none bufsz endian = .ok bf ∧
      Outcome (· = .intOverflow) (fun out => out.1 = (serveAll (blank bufsz) ops).1 ∧
        view out.2 = (serveAll (blank bufsz) ops).2) (callAll bf ops) := by
  obtain ⟨bf, made, sound, -, seen⟩ := cobufferNew_view bufsz endian
  refine ⟨bf, made, ?_⟩
  rw [← seen]
  exact (callAll_refines sound ops).mono fun out served => served.2.2

/-- **Fields can be patched and reread.** An integer that was written anywhere is read back
when its position is sought, after any operations that write nothing over it. -/
theorem field_reread {host : Host} {endian : CbEndian} {bufsz : Int32} {new bf bf₁ bf₂ : Cobuffer}
    {before later : List Op} {replies replies' : List Reply} {v : Value}
    (made : cobufferNew none bufsz endian = .ok new)
    (reached : callAll new before = .ok (replies, bf))
    (wrote : cobufferWriteValue host bf v = .ok bf₁)
    (spares : SparesAll bf.pos v.type.width (view bf₁) later)
    (ran : callAll bf₁ later = .ok (replies', bf₂)) :
    ∃ start last, cobufferSeek bf₂ true (.ofNat bf.pos) = .ok (bf.pos, start) ∧
      cobufferReadType host start v.type = .ok ((true, some v), last) := by
  have sound : Sound bf := by
    have refined := callAll_refines (cobufferNew_sound made) before
    rw [reached] at refined
    exact refined.1
  rw [cobufferWriteValue_eq] at wrote
  obtain ⟨sound₁, -, pos₁, endian₁, here⟩ := cobufferWrite_sound sound wrote
  have stored := here _ rfl
  rw [List.take_length] at stored
  rw [image_length] at pos₁ stored
  have room : bf.pos + v.type.width ≤ bf₁.size := pos₁ ▸ sound₁.inside
  have later' := callAll_refines sound₁ later
  rw [ran] at later'
  obtain ⟨sound₂, endian₂, -, seen⟩ := later'
  simp only at sound₂ endian₂ seen
  have size : bf₁.size ≤ bf₂.size := by
    have larger := serveAll_size later (view bf₁)
    rwa [← seen] at larger
  have kept : slice bf₂.buffer bf.pos v.type.width = (image host bf.endian v).map some := by
    rw [slice_view sound₂ (by omega), seen, serveAll_spares later _ spares,
      ← slice_view sound₁ room, stored]
  have wide := width_pos v.type
  have sought := cobufferSeek_before_end sound₂ (by omega : bf.pos < bf₂.size)
  have start := (cobufferSeek_sound sound₂ sought).1
  have read := cobufferRead_inside start (n := v.type.width) (by simp only; omega)
  have same : bf.endian = bf₂.endian := (endian₂.trans endian₁).symm
  simp only [kept, same] at read
  exact ⟨_, _, sought, cobufferReadType_spec read rfl⟩

/-- Cells of which the first are stored. -/
def sample (bytes : List UInt8) : Block UInt8 := bytes.map some ++ malloc UInt8 (32 - bytes.length)

/-- A length behind four bytes; then a body behind it, nothing in the middle of the length, and
another first byte. -/
theorem field_reread_header :
    ∃ start last,
      cobufferSeek ⟨sample [42, 2, 3, 4, 0, 0, 0, 9, 5, 6], 32, 1, .big⟩ true (.ofNat 4) =
        .ok (4, start) ∧
      cobufferReadType .little start .int32 = .ok ((true, some (.int32 9)), last) := by
  have made : cobufferNew none 0 .big = .ok ⟨sample [], 32, 0, .big⟩ := by rfl
  have reached : callAll ⟨sample [], 32, 0, .big⟩ [.write [1, 2, 3, 4]] =
      .ok ([.nothing], ⟨sample [1, 2, 3, 4], 32, 4, .big⟩) := by rfl
  have wrote : cobufferWriteValue .little ⟨sample [1, 2, 3, 4], 32, 4, .big⟩ (.int32 9) =
      .ok ⟨sample [1, 2, 3, 4, 0, 0, 0, 9], 32, 8, .big⟩ := by rfl
  have spares : SparesAll 4 4 (view ⟨sample [1, 2, 3, 4, 0, 0, 0, 9], 32, 8, .big⟩)
      [.write [5, 6], .seek true 6, .write [], .seek true 0, .write [42]] := by decide
  have ran : callAll ⟨sample [1, 2, 3, 4, 0, 0, 0, 9], 32, 8, .big⟩
      [.write [5, 6], .seek true 6, .write [], .seek true 0, .write [42]] =
        .ok ([.nothing, .position 6, .nothing, .position 0, .nothing],
        ⟨sample [42, 2, 3, 4, 0, 0, 0, 9, 5, 6], 32, 1, .big⟩) := by rfl
  have back := field_reread made reached wrote spares ran
  exact back

end Colinlib.Guarantees.BufferFile
