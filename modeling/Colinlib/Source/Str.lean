import Colinlib.Theory.CStreams

/-!
# Counted strings: `co_str.c`

An allocation is a header and the bytes behind it; the pointer that the functions return
is to these bytes. `va_list` and `fmt` are given by what they produce.
-/
namespace Colinlib.Source.Str
open Colinlib.Theory.CMemory Colinlib.Theory.CStreams

/-- `costrheader_t` -/
structure Costrheader where
  len : Int
  cap : Int
  deriving DecidableEq, Repr

/-- Two `int`s. -/
def sizeofCostrheader : Nat := 8

def sizeofPointer : Nat := 8

structure Costr where
  header : Costrheader
  str : Block UInt8
  deriving DecidableEq, Repr

/-- `costr_getheader` goes back by the size of a pointer, not of the header. -/
def costrGetheader (s : Costr) : Except Fault Costrheader :=
  if sizeofPointer = sizeofCostrheader then .ok s.header else .error .badPointer

def costrLen (s : Costr) : Except Fault Int := do return (← costrGetheader s).len

/-- `sz`; the sum with the `size_t` is narrowed to `int`. -/
def newSize (s : Option (List UInt8)) (len : Int) : Except Fault Int :=
  if len ≥ 0 then addInt32 len.toNat 1
  else
    match s with
    | none => .error .nullPointer
    | some s => do return toInt32 ((← strlen s) + 1)

/-- `costr_new`; `s` is what may be read from the pointer on, or `none` for `NULL`. -/
def costrNew (s : Option (List UInt8)) (len : Int) : Except Fault Costr := do
  let sz ← newSize s len
  let cap := Int.bmod (sz + sizeofCostrheader) (2 ^ 32)
  let bytes ← copySize cap
  if bytes < sizeofCostrheader then .error .outOfBounds
  else
    let str := List.replicate (bytes - sizeofCostrheader) (some 0)
    match s with
    | none => return ⟨⟨sz, cap⟩, str⟩
    | some s => return ⟨⟨sz, cap⟩, ← memcpy str s (← copySize sz)⟩

/-- The loop of `costr_formatv`, which doubles the size until the text fits. -/
def formatLoop (format : Option (List UInt8)) : Nat → Nat → Except Fault (Option Costr)
  | 0, _ => .error .starved
  | fuel + 1, maxsz => do
    let costr ← costrNew none maxsz
    let (len, str) ← vsnprintf costr.str maxsz format
    if len < 0 then return none
    else if len ≥ maxsz then formatLoop format fuel (← int32 (maxsz * 2))
    else return some { costr with str := str }

/-- `costr_formatv`, `NULL` where the format fails; the size is doubled from `2^8` to `2^30`
at most. -/
def costrFormatv (format : Option (List UInt8)) : Except Fault (Option Costr) :=
  formatLoop format 24 256

/-- `costr_format` -/
def costrFormat (format : Option (List UInt8)) : Except Fault (Option Costr) := costrFormatv format

/-! ## New strings -/

section
variable {s : Option (List UInt8)} {len : Int} {c : Costr}

theorem newSize_counted (s : Option (List UInt8)) (n : Nat) : newSize s n = addInt32 n 1 := by
  unfold newSize
  rw [if_pos (Int.natCast_nonneg n), Int.toNat_natCast]

theorem newSize_terminated {content : List UInt8} (clean : 0 ∉ content) (rest : List UInt8) :
    newSize (some (content ++ 0 :: rest)) (-1) = .ok (toInt32 (content.length + 1)) := by
  unfold newSize
  rw [if_neg (by decide)]
  simp only
  rw [strlen_string clean]
  rfl

/-- The header has the size of the copy for the length. -/
theorem costrNew_len (ran : costrNew s len = .ok c) : newSize s len = .ok c.header.len := by
  obtain ⟨sz, size, ran⟩ := bind_ok ran
  obtain ⟨bytes, -, ran⟩ := bind_ok ran
  split at ran
  · cases ran
  · cases s with
    | none =>
        cases ran
        exact size
    | some s =>
        obtain ⟨n, -, ran⟩ := bind_ok ran
        obtain ⟨str, -, ran⟩ := bind_ok ran
        cases ran
        exact size

/-- The new bytes, which are zero without a source. -/
def copied (s : Option (List UInt8)) (sz : Nat) : Except Fault (Block UInt8) :=
  match s with
  | none => .ok (List.replicate sz (some 0))
  | some s => memcpy (List.replicate sz (some 0)) s sz

theorem costrNew_spec {sz : Nat} (size : newSize s len = .ok sz)
    (small : sz + sizeofCostrheader ≤ intMax) : costrNew s len =
      (copied s sz).map fun str => ⟨⟨sz, (sz + sizeofCostrheader : Nat)⟩, str⟩ := by
  have cap : Int.bmod ((sz : Int) + sizeofCostrheader) (2 ^ 32) = (sz + sizeofCostrheader : Nat) :=
    toInt32_of_le small
  have behind : ¬ sz + sizeofCostrheader < sizeofCostrheader := by omega
  unfold costrNew
  rw [size, ok_bind]
  simp only
  rw [cap, copySize_natCast, ok_bind, if_neg behind, Nat.add_sub_cancel]
  cases s with
  | none => rfl
  | some s =>
      unfold copied
      simp only [copySize_natCast, ok_bind]
      cases memcpy (List.replicate sz (some 0)) s sz <;> rfl

end

end Colinlib.Source.Str
