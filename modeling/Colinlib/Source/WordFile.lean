import Colinlib.Theory.CStreams
import Colinlib.Source.WordFilter

/-!
# Loading words from a file: `cowf_loadwords`

The file is given by its bytes, or `none` where it cannot be opened. What the buffer holds
behind the terminator is read nowhere and left out.
-/
namespace Colinlib.Source.WordFile
open Colinlib.Theory.CMemory Colinlib.Theory.CStreams Colinlib.Source.WordFilter

/-- The size of `word`. -/
def wordSize : Nat := 256

/-- The body of the loop. The length of an empty string less one is `-1`, and `word[-1]`
is outside the buffer. -/
def loadLine (wf : Cowf) (word : List UInt8) : Except Fault Cowf := do
  let len : Int := (← strlen word : Nat) - 1
  if len < 0 then .error .outOfBounds
  else
    let word := if word[len.toNat]? = some newline then word.set len.toNat 0 else word
    if len > 0 then return (← cowfAddword wf word).2 else return wf

def loadLoop : Nat → Cowf → List UInt8 → Except Fault Cowf
  | 0, _, _ => .error .starved
  | fuel + 1, wf, f =>
    match fgets wordSize f with
    | none => .ok wf
    | some (word, f) => do loadLoop fuel (← loadLine wf word) f

/-- `cowf_loadwords`; each round reads a byte at least. -/
def cowfLoadwords (wf : Cowf) (file : Option (List UInt8)) : Except Fault (Bool × Cowf) :=
  match file with
  | none => .ok (false, wf)
  | some f => return (true, ← loadLoop (f.length + 1) wf f)

/-! ## One line -/

section Line
variable {line : List UInt8} {wf : Cowf}

/-- With its newline, a line is added unless it is empty. -/
theorem loadLine_line (clean : 0 ∉ line) : loadLine wf (line ++ [newline] ++ [0]) =
    if line = [] then .ok wf else (cowfAddword wf (line ++ [0, 0])).map Prod.snd := by
  have length : strlen (line ++ [newline] ++ [0]) = .ok (line.length + 1) := by
    rw [strlen_string (by simp [clean, newline]), List.length_append]
    rfl
  have stripped : (line ++ [newline] ++ [0]).set line.length 0 = line ++ [0, 0] := by simp
  have last : (line ++ [newline] ++ [0])[line.length]? = some newline := by simp
  unfold loadLine
  rw [length, ok_bind]
  have len : ((line.length + 1 : Nat) : Int) - 1 = line.length := by omega
  simp only [len, Int.toNat_natCast, last, if_true, stripped]
  rw [if_neg (by omega)]
  by_cases empty : line = []
  · rw [if_pos empty, if_neg (by simp [empty])]
    rfl
  · have long := List.length_pos_iff.mpr empty
    rw [if_neg empty, if_pos (by omega)]
    cases cowfAddword wf (line ++ [0, 0]) <;> rfl

/-- Without one, it is added unless it is a single byte. -/
theorem loadLine_last (clean : 0 ∉ line) (whole : newline ∉ line) (some : line ≠ []) :
    loadLine wf (line ++ [0]) =
      if line.length = 1 then .ok wf else (cowfAddword wf (line ++ [0])).map Prod.snd := by
  have long := List.length_pos_iff.mpr some
  obtain ⟨n, size⟩ : ∃ n, line.length = n + 1 := ⟨line.length - 1, by omega⟩
  have last : ¬ (line ++ [0])[n]? = .some newline := by
    rw [List.getElem?_append_left (by omega)]
    exact fun here => whole (List.mem_of_getElem? here)
  unfold loadLine
  rw [strlen_string clean, ok_bind, size]
  have len : ((n + 1 : Nat) : Int) - 1 = n := by omega
  simp only [len, Int.toNat_natCast, if_neg last]
  rw [if_neg (by omega)]
  by_cases single : n = 0
  · rw [if_neg (by omega), if_pos (by omega)]
    rfl
  · rw [if_pos (by omega), if_neg (by omega)]
    cases cowfAddword wf (line ++ [0]) <;> rfl

end Line

end Colinlib.Source.WordFile
