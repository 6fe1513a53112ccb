import Colinlib.Source.ResolvConf

/-!
# The address of the resolver

An address is the second field of a line that begins with the keyword. `codns_get_server`
looks for the keyword anywhere in a line, takes the last field for the address, and copies
it without a zero byte: its callers depend on what was in the buffer.
-/
namespace Colinlib.Guarantees.ServerAddress
open Colinlib.Theory.CMemory Colinlib.Theory.CStreams Colinlib.Source.ResolvConf

/-- A space or a tab. -/
def isBlank (b : UInt8) : Bool := b = space ∨ b = 9

def fields (line : List UInt8) : List (List UInt8) := (line.splitOnP isBlank).filter (· ≠ [])

/-- The address in a line, if it fits. -/
def addressOf (n : Int) (line : List UInt8) : Option (List UInt8) :=
  match fields line with
  | keyword :: address :: _ => if keyword = sch ∧ address.length < n then some address else none
  | _ => none

def firstAddress (n : Int) (lines : List Line) : Option (List UInt8) :=
  lines.findSome? fun line => addressOf n line.val

/-- What `codns_get_server` is for. -/
def Resolves (lines : List Line) (dnssvr : Block UInt8) (n : Int) : Prop :=
  ∃ ret dnssvr', codnsGetServer (some (content lines)) dnssvr n = .ok (ret, dnssvr') ∧
    if ret = 0 then ∃ address, firstAddress n lines = some address ∧
      HoldsString dnssvr' address ∧ address ≠ [] ∧ address.length < n
    else firstAddress n lines = none

/-- The last field of the line taken and what the buffer holds behind its length, up to a zero
byte, are the address. -/
def Suits (lines : List Line) (dnssvr : Block UInt8) (n : Int) : Prop :=
  match taken n lines with
  | none => firstAddress n lines = none
  | some line => ∃ rest, firstAddress n lines = some (lastField line.val ++ rest) ∧
      HoldsString (dnssvr.drop (lastField line.val).length) rest

/-- An address is not empty, and it fits. -/
theorem firstAddress_fits {n : Int} {lines : List Line} {address : List UInt8}
    (first : firstAddress n lines = some address) : address ≠ [] ∧ address.length < n := by
  obtain ⟨line, -, here⟩ := List.exists_of_findSome?_eq_some first
  unfold addressOf at here
  split at here
  · next keyword address' others split =>
      split at here
      · next fits =>
          cases here
          have mem : address ∈ fields line.val := by simp [split]
          exact ⟨by simpa using (List.mem_filter.mp mem).2, fits.2⟩
      · cases here
  · cases here

/-- Without a zero byte, a string goes on with what stands behind it. -/
theorem holdsString_append {s address : List UInt8} {b : Block UInt8} (clean : 0 ∉ s) :
    HoldsString (s.map some ++ b) address ↔ ∃ rest, address = s ++ rest ∧ HoldsString b rest := by
  constructor
  · rintro ⟨address_clean, holds⟩
    have inside : s <+: address ++ [0] := by
      rcases List.prefix_or_prefix_of_prefix holds (List.prefix_append (s.map some) b) with
        shorter | longer
      · have zero : some 0 ∈ s.map some := shorter.subset (List.mem_map_of_mem (by simp))
        simp [clean] at zero
      · exact (List.prefix_map_iff_of_injective fun _ _ => Option.some.inj).mp longer
    rcases List.prefix_concat_iff.mp inside with rfl | ⟨rest, rfl⟩
    · exact absurd (List.mem_append_right _ List.mem_cons_self) clean
    · rw [List.append_assoc, List.map_append, List.prefix_append_right_inj] at holds
      exact ⟨rest, rfl, fun mem => address_clean (List.mem_append_right s mem), holds⟩
  · rintro ⟨rest, rfl, rest_clean, holds⟩
    refine ⟨?_, ?_⟩
    · rw [List.mem_append]
      exact fun mem => mem.elim clean rest_clean
    · rw [List.append_assoc, List.map_append, List.prefix_append_right_inj]
      exact holds

section
variable {lines : List Line} {dnssvr : Block UInt8} {n : Int}

theorem Resolves.suits (room : n ≤ dnssvr.length) (resolves : Resolves lines dnssvr n) :
    Suits lines dnssvr n := by
  obtain ⟨ret, dnssvr', ran, result⟩ := resolves
  rw [codnsGetServer_spec room] at ran
  unfold Suits
  cases here : taken n lines with
  | none =>
      rw [here] at ran
      cases ran
      exact result
  | some line =>
      rw [here] at ran
      cases ran
      obtain ⟨address, first, holds, -⟩ := result
      obtain ⟨rest, rfl, behind⟩ :=
        (holdsString_append (lastField_clean (taken_takes here))).mp holds
      exact ⟨rest, first, behind⟩

theorem Suits.resolves (room : n ≤ dnssvr.length) (suits : Suits lines dnssvr n) :
    Resolves lines dnssvr n := by
  unfold Suits at suits
  unfold Resolves
  rw [codnsGetServer_spec room]
  cases here : taken n lines with
  | none =>
      rw [here] at suits
      exact ⟨1, dnssvr, rfl, suits⟩
  | some line =>
      rw [here] at suits
      obtain ⟨rest, first, behind⟩ := suits
      obtain ⟨nonempty, short⟩ := firstAddress_fits first
      have holds := (holdsString_append (lastField_clean (taken_takes here))).mpr ⟨rest, rfl, behind⟩
      exact ⟨0, _, rfl, _, first, holds, nonempty, short⟩

/-- **Resolver address.** `codns_get_server` gives the address of the first line that has one
exactly where the last field of the line it takes is that address, continued by the buffer. -/
theorem server_iff (room : n ≤ dnssvr.length) :
    Resolves lines dnssvr n ↔ Suits lines dnssvr n :=
  ⟨Resolves.suits room, Suits.resolves room⟩

end

/-- `8.8.8.8` -/
def eights : List UInt8 := [56, 46, 56, 46, 56, 46, 56]

/-- `nameserver 8.8.8.8` -/
def plainLine : Line := ⟨sch ++ space :: eights, by decide⟩

theorem server_iff_zeroed : Resolves [plainLine] (List.replicate 16 (some 0)) 16 :=
  (server_iff (by decide)).mpr ⟨[], rfl, by decide, by decide⟩

/-- The line is plain, and what the buffer holds goes on behind the address. -/
theorem server_dirty : ¬ Resolves [plainLine] (List.replicate 16 (some 120)) 16 := by
  rintro ⟨ret, dnssvr', ran, result⟩
  have stored : codnsGetServer (some (content [plainLine])) (List.replicate 16 (some 120)) 16 =
      .ok (0, eights.map some ++ List.replicate 9 (some 120)) := rfl
  rw [stored] at ran
  cases ran
  obtain ⟨address, first, holds, -⟩ := result
  have address_eq : firstAddress 16 [plainLine] = some eights := rfl
  rw [address_eq] at first
  cases first
  exact absurd holds.2 (by decide)

/-! ## Plain files -/

/-- The keyword, one space and the address; or a line that does not name the keyword. -/
def Plain (line : List UInt8) : Prop :=
  ¬ sch <:+: line ∨ ∃ address, line = sch ++ space :: address ∧ address ≠ [] ∧ 0 ∉ address ∧
    ∀ b ∈ address, isBlank b = false

theorem pieces_inside {α : Type} (p : α → Bool) (s : List α) :
    (∀ piece, (s.splitOnP p).head? = some piece → piece <+: s) ∧
      ∀ piece ∈ s.splitOnP p, piece <:+: s := by
  induction s with
  | nil => simp
  | cons b s ih =>
      obtain ⟨heads, pieces⟩ := ih
      rw [List.splitOnP_cons_eq_if_modifyHead]
      split
      · refine ⟨fun piece head => ?_, fun piece mem => ?_⟩
        · cases head
          exact List.nil_prefix
        · rcases List.mem_cons.mp mem with rfl | mem
          · exact List.nil_infix
          · exact (pieces piece mem).trans (List.suffix_cons b s).isInfix
      · cases split : s.splitOnP p with
        | nil => exact absurd split (List.splitOnP_ne_nil p s)
        | cons first others =>
            have begins : b :: first <+: b :: s :=
              (List.prefix_cons_inj b).mpr (heads first (by rw [split]; rfl))
            refine ⟨fun piece head => ?_, fun piece mem => ?_⟩
            · cases head
              exact begins
            · rcases List.mem_cons.mp mem with rfl | mem
              · exact begins.isInfix
              · have inside := pieces piece (by rw [split]; exact List.mem_cons_of_mem first mem)
                exact inside.trans (List.suffix_cons b s).isInfix

theorem sch_whole : ∀ b ∈ sch, isBlank b = false := by
  simp [sch, isBlank, space]

/-- Where a plain line has an address, that is what is taken. -/
theorem plain_line {n : Int} {line : List UInt8} (plain : Plain line) :
    addressOf n line = if Takes n line then some (lastField line) else none := by
  rcases plain with unnamed | ⟨address, rfl, nonempty, clean, whole⟩
  · rw [if_neg]
    · unfold addressOf
      split
      · next keyword address others split =>
          rw [if_neg]
          rintro ⟨rfl, -⟩
          have mem : sch ∈ fields line := by simp [split]
          exact unnamed ((pieces_inside isBlank line).2 sch (List.mem_filter.mp mem).1)
      · rfl
    · rintro ⟨-, ⟨rest, mem, begins, -⟩, -⟩
      exact unnamed (begins.isInfix.trans ((List.mem_tails rest line).mp mem).isInfix)
  · have last : space ∉ address := fun mem => absurd (whole space mem) (by decide)
    have split : fields (sch ++ space :: address) = [sch, address] := by
      unfold fields
      rw [List.splitOnP_append_cons_of_forall_mem sch_whole space rfl,
        List.splitOnP_eq_singleton whole]
      simp [nonempty, sch]
    have taken : Takes n (sch ++ space :: address) ↔ (address.length : Int) < n := by
      unfold Takes
      rw [lastField_append sch last, and_iff_right, and_iff_right]
      · exact ⟨_, (List.mem_tails _ _).mpr List.suffix_rfl, List.prefix_append _ _, by simp⟩
      · simp [clean, sch, space]
    unfold addressOf
    rw [split, lastField_append sch last]
    simp [taken]

theorem plain_first (n : Int) {lines : List Line} (plain : ∀ line ∈ lines, Plain line.val) :
    firstAddress n lines = (taken n lines).map fun line => lastField line.val := by
  induction lines with
  | nil => rfl
  | cons line lines ih =>
      have others := ih fun line mem => plain line (List.mem_cons_of_mem _ mem)
      unfold firstAddress at others ⊢
      rw [taken_cons, List.findSome?_cons, plain_line (plain line List.mem_cons_self)]
      by_cases takes : Takes n line.val
      · rw [if_pos takes, if_pos takes]
        rfl
      · rw [if_neg takes, if_neg takes]
        exact others

/-- A plain file is read into a buffer of zero bytes. -/
theorem plain_resolves {lines : List Line} {n : Int} {size : Nat} (room : n ≤ size)
    (plain : ∀ line ∈ lines, Plain line.val) : Resolves lines (List.replicate size (some 0)) n := by
  have same := plain_first n plain
  refine Suits.resolves (by simpa using room) ?_
  unfold Suits
  cases here : taken n lines with
  | none => rw [same, here]; rfl
  | some line =>
      have short := (taken_takes here).2.2
      obtain ⟨left, count⟩ : ∃ left, size - (lastField line.val).length = left + 1 :=
        ⟨size - (lastField line.val).length - 1, by omega⟩
      refine ⟨[], by rw [same, here, List.append_nil]; rfl, List.not_mem_nil, ?_⟩
      rw [List.drop_replicate, count, List.replicate_succ]
      exact List.prefix_append [some 0] _

end Colinlib.Guarantees.ServerAddress
