import Mathlib.Data.List.DropRight
import Mathlib.Data.List.Infix
import Colinlib.Theory.CStreams

/-!
# The resolver configuration: `codns_get_server`

`/etc/resolv.conf` is given by its bytes, or `none` where it cannot be opened. A pointer
into the line is the rest of the line from there on.
-/
namespace Colinlib.Source.ResolvConf
open Colinlib.Theory.CMemory Colinlib.Theory.CStreams

/-- The size of `line`. -/
def lineSize : Nat := 512

/-- `sch`: `"nameserver"` -/
def sch : List UInt8 := [110, 97, 109, 101, 115, 101, 114, 118, 101, 114]

def space : UInt8 := 0x20

/-- The body of the loop: what it copies, and how many bytes of it; nothing where it
continues. -/
def lineServer (n : Int) (line : List UInt8) : Option (List UInt8 × Nat) := do
  let ss ← strstr (cstring line) sch
  let ss ← strrchr ss space
  let ss := ss.tail
  let es ← strchr ss newline
  let len : Nat := ss.length - es.length
  if len ≥ n then none else some (ss, len)

def serverLoop (n : Int) : Nat → List UInt8 → Block UInt8 → Except Fault (Nat × Block UInt8)
  | 0, _, _ => .error .starved
  | fuel + 1, f, dnssvr =>
    match fgets lineSize f with
    | none => .ok (1, dnssvr)
    | some (line, f) =>
      match lineServer n line with
      | none => serverLoop n fuel f dnssvr
      | some (ss, len) => do return (0, ← strncpy dnssvr ss len)

/-- `codns_get_server`; each round reads a byte at least. -/
def codnsGetServer (file : Option (List UInt8)) (dnssvr : Block UInt8) (n : Int) :
    Except Fault (Nat × Block UInt8) :=
  match file with
  | none => .ok (1, dnssvr)
  | some f => serverLoop n (f.length + 1) f dnssvr

/-! ## One line -/

/-- What stands behind the last space. -/
def lastField (line : List UInt8) : List UInt8 := line.rtakeWhile (· ≠ space)

/-- The lines whose last field is copied: they name the keyword anywhere before a space. -/
def Takes (n : Int) (line : List UInt8) : Prop :=
  0 ∉ line ∧ (∃ rest ∈ line.tails, sch <+: rest ∧ space ∈ rest) ∧ (lastField line).length < n

instance (n : Int) (line : List UInt8) : Decidable (Takes n line) :=
  inferInstanceAs (Decidable (_ ∧ _ ∧ _))

section Line
variable {n : Int} {line : List UInt8}

theorem lastField_append (l : List UInt8) {field : List UInt8} (last : space ∉ field) :
    lastField (l ++ space :: field) = field := by
  have fields : ∀ b ∈ field.reverse, decide (b ≠ space) = true := fun b mem =>
    decide_eq_true (ne_of_mem_of_not_mem (List.mem_reverse.mp mem) last)
  unfold lastField List.rtakeWhile
  rw [List.reverse_append, List.reverse_cons, List.append_assoc,
    List.takeWhile_append_of_pos fields]
  simp

theorem lastField_clean (takes : Takes n line) : 0 ∉ lastField line := fun mem =>
  takes.1 (List.rtakeWhile_suffix _ _ |>.subset mem)

/-- A string without a newline is passed. -/
theorem lineServer_unended (whole : newline ∉ cstring line) : lineServer n line = none := by
  unfold lineServer
  cases named : strstr (cstring line) sch with
  | none => rfl
  | some ss =>
      cases spaced : strrchr ss space with
      | none => simp [spaced]
      | some field =>
          obtain ⟨suffix, -⟩ := strstr_eq_some named
          obtain ⟨l, r, rfl, -, rfl⟩ := strrchr_eq_some spaced
          have unended : strchr r newline = none := strchr_eq_none.mpr fun mem =>
            whole (suffix.subset (List.mem_append_right l (List.mem_cons_of_mem _ mem)))
          simp [spaced, unended]

/-- A line with a zero byte is a string without a newline. -/
theorem lineServer_zero (zero : 0 ∈ line) (whole : newline ∉ line) :
    lineServer n (line ++ [newline] ++ [0]) = none := by
  obtain ⟨l, r, rfl, clean⟩ := List.eq_append_cons_of_mem zero
  refine lineServer_unended ?_
  rw [List.append_assoc, List.append_assoc, List.cons_append, cstring_string clean]
  exact fun mem => whole (List.mem_append_left _ mem)

/-- What stands behind a space ends with the newline of the line. -/
theorem ended_field {before l r : List UInt8}
    (split : before ++ (l ++ space :: r) = line ++ [newline]) :
    ∃ field, r = field ++ [newline] ∧ line = before ++ l ++ space :: field := by
  rcases List.eq_nil_or_concat' r with rfl | ⟨field, b, rfl⟩
  · rw [← List.append_assoc] at split
    have ends := (List.append_inj' split rfl).2
    exact absurd ends (by decide)
  · have regrouped : (before ++ l ++ space :: field) ++ [b] = line ++ [newline] := by
      rw [← split]
      simp
    obtain ⟨same, ends⟩ := List.append_inj' regrouped rfl
    exact ⟨field, by rw [ends], same.symm⟩

/-- The body of the loop takes the last field of a line, or passes the line. -/
theorem lineServer_line (whole : newline ∉ line) :
    lineServer n (line ++ [newline] ++ [0]) =
      if Takes n line then some (lastField line ++ [newline], (lastField line).length) else none := by
  by_cases zero : 0 ∈ line
  · rw [if_neg fun taken => taken.1 zero, lineServer_zero zero whole]
  have string : cstring (line ++ [newline] ++ [0]) = line ++ [newline] :=
    cstring_string (by simp [zero, newline]) []
  have ended {rest : List UInt8} (mem : rest ∈ line.tails) : rest ++ [newline] <:+ line ++ [newline] := by
    obtain ⟨before, rfl⟩ := (List.mem_tails rest line).mp mem
    exact ⟨before, (List.append_assoc before rest [newline]).symm⟩
  unfold lineServer
  rw [string]
  cases named : strstr (line ++ [newline]) sch with
  | none =>
      refine (if_neg ?_).symm
      rintro ⟨-, ⟨rest, mem, begins, -⟩, -⟩
      exact strstr_eq_none named (ended mem) (begins.trans (List.prefix_append rest _))
  | some ss =>
      obtain ⟨⟨before, split⟩, begins, longest⟩ := strstr_eq_some named
      cases spaced : strrchr ss space with
      | none =>
          rw [if_neg]
          · simp [spaced]
          · rintro ⟨-, ⟨rest, mem, begins, has⟩, -⟩
            have inside := longest _ (ended mem) (begins.trans (List.prefix_append rest _))
            exact strrchr_eq_none.mp spaced (inside.subset (List.mem_append_left _ has))
      | some found =>
          obtain ⟨l, r, rfl, last, rfl⟩ := strrchr_eq_some spaced
          obtain ⟨field, rfl, rfl⟩ := ended_field split
          have last : space ∉ field := fun mem => last (List.mem_append_left _ mem)
          have whole : newline ∉ field := fun mem => whole (List.mem_append_right _ (List.mem_cons_of_mem _ mem))
          have kept : sch <+: l ++ space :: field := by
            rw [← List.cons_append, ← List.append_assoc, List.prefix_concat_iff] at begins
            rcases begins with same | kept
            · have inside : newline ∈ sch := by
                rw [same]
                simp
              exact absurd inside (by decide)
            · exact kept
          have taken : Takes n (before ++ l ++ space :: field) ↔ (field.length : Int) < n := by
            unfold Takes
            rw [lastField_append _ last, and_iff_right zero, and_iff_right]
            refine ⟨l ++ space :: field, ?_, kept, by simp⟩
            rw [List.append_assoc, List.mem_tails]
            exact List.suffix_append before _
          have len : (field ++ [newline]).length - [newline].length = field.length := by simp
          simp only [taken, lastField_append _ last, Option.bind_eq_bind, Option.bind_some, spaced,
            List.tail_cons, strchr_append whole, len]
          split
          · next long => rw [if_neg (by omega)]
          · next short => rw [if_pos (by omega)]

end Line

/-! ## The file -/

/-- A line without its newline, which fits the buffer with it. -/
abbrev Line := { line : List UInt8 // newline ∉ line ∧ line.length < 511 }

def content (lines : List Line) : List UInt8 := lines.flatMap fun line => line.val ++ [newline]

/-- The first line whose last field is copied. -/
def taken (n : Int) (lines : List Line) : Option Line := lines.find? fun line => Takes n line.val

theorem taken_takes {n : Int} {lines : List Line} {line : Line}
    (here : taken n lines = some line) : Takes n line.val := by
  unfold taken at here
  simpa using List.find?_some here

theorem taken_cons (n : Int) (line : Line) (lines : List Line) :
    taken n (line :: lines) = if Takes n line.val then some line else taken n lines := by
  unfold taken
  rw [List.find?_cons]
  split
  · next yes => rw [if_pos (of_decide_eq_true yes)]
  · next no => rw [if_neg (of_decide_eq_false no)]

theorem serverLoop_spec {n : Int} {dnssvr : Block UInt8} (room : n ≤ dnssvr.length)
    (lines : List Line) (fuel : Nat) (enough : (content lines).length < fuel) :
    serverLoop n fuel (content lines) dnssvr = .ok (match taken n lines with
      | none => (1, dnssvr)
      | some line =>
        (0, (lastField line.val).map some ++ dnssvr.drop (lastField line.val).length)) := by
  induction lines generalizing fuel with
  | nil =>
      obtain ⟨fuel, rfl⟩ := Nat.exists_eq_succ_of_ne_zero (Nat.ne_of_gt (Nat.zero_lt_of_lt enough))
      rfl
  | cons line lines ih =>
      obtain ⟨fuel, rfl⟩ := Nat.exists_eq_succ_of_ne_zero (Nat.ne_of_gt (Nat.zero_lt_of_lt enough))
      have split : content (line :: lines) = line.val ++ newline :: content lines := by simp [content]
      have bound := line.property.2
      rw [split, List.length_append, List.length_cons] at enough
      unfold serverLoop
      rw [split, fgets_line line.property.1 _ (by unfold lineSize; omega)]
      simp only [lineServer_line line.property.1, taken_cons]
      by_cases takes : Takes n line.val
      · have short := takes.2.2
        rw [if_pos takes, if_pos takes]
        simp only [strncpy_start dnssvr (lastField line.val) [newline] (by omega), ok_bind]
        rfl
      · rw [if_neg takes, if_neg takes]
        exact ih fuel (by omega)

/-- The address is the last field of a line, and what stood in the buffer is left behind it. -/
theorem codnsGetServer_spec {n : Int} {dnssvr : Block UInt8} (room : n ≤ dnssvr.length)
    (lines : List Line) : codnsGetServer (some (content lines)) dnssvr n =
      .ok (match taken n lines with
        | none => (1, dnssvr)
        | some line =>
          (0, (lastField line.val).map some ++ dnssvr.drop (lastField line.val).length)) :=
  serverLoop_spec room lines _ (Nat.lt_succ_self _)

end Colinlib.Source.ResolvConf
