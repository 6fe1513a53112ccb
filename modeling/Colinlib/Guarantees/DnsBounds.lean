import Colinlib.Source.DnsRecords

/-!
# Where the response parser reads

The parser stays inside the packet if and only if every name it comes to stops inside
and every address it copies has its bytes there.
-/
namespace Colinlib.Guarantees.DnsBounds
open Colinlib.Theory.CMemory Colinlib.Source.DnsUtils Colinlib.Source.DnsRecords

/-- A packet of a size that an `int` holds. -/
abbrev Packet := { buf : List UInt8 // buf.length ≤ intMax }

/-- The header is there, its `rcode` is zero and it announces one question. -/
def HeaderPasses (buf : List UInt8) : Prop :=
  headerSize ≤ buf.length ∧ field16 buf 2 &&& 0x000F = 0 ∧ field16 buf 4 = 1

/-- The condition: behind a header that passes, the name of the question stays inside, and
so does each announced record that the ones before it lead to. -/
def Contained (buf : List UInt8) : Prop :=
  HeaderPasses buf → NameInside buf headerSize ∧ ∀ e, NameEnd buf headerSize e →
    Sums buf e (∀ k < field16 buf 6, ∀ q, After buf k (e + 5) q → RecordInside buf q) [1, 5]

/-- For every packet: the parser returns without reading outside of it if and only if the
packet is contained. -/
theorem parse_stays_inside (packet : Packet) :
    Returns (codnsParseResponse packet.val) ↔ Contained packet.val := by
  obtain ⟨buf, small⟩ := packet
  show Returns (codnsParseResponse buf) ↔ Contained buf
  unfold codnsParseResponse Contained HeaderPasses
  by_cases short : buf.length < headerSize
  · rw [if_pos short]
    exact ⟨fun _ h => absurd h.1 (Nat.not_le.mpr short), fun _ => returns_ok _⟩
  have length : 12 ≤ buf.length := Nat.not_lt.mp short
  rw [if_neg short, uint16At_eq (by omega), ok_bind]
  by_cases rcode : field16 buf 2 &&& 0x000F = 0
  · simp only [rcode, ne_eq, not_true_eq_false, if_false]
    rw [uint16At_eq (by omega), ok_bind]
    by_cases one : field16 buf 4 = 1
    · simp only [one, not_true_eq_false, if_false, and_true, headerSize, length, true_implies]
      by_cases inside : NameInside buf 12
      · obtain ⟨r, found⟩ := readName_returns small inside
        have ends := ((readName_iff small r).mp found).2
        rw [found, ok_bind, and_iff_right inside]
        cases r with
        | none => exact ⟨fun _ e h => (nomatch (ends e).mpr h), fun _ => returns_ok _⟩
        | some e =>
            simp only [← ends, Option.some.injEq, forall_eq']
            refine returns_sums rfl fun _ => returns_sums rfl fun fits => ?_
            rw [uint16At_eq (by omega), ok_bind]
            show _ ↔ ∀ k < field16 buf 6, _
            split
            · next none =>
                refine ⟨fun _ k hk => by omega, fun _ => returns_ok _⟩
            · rw [← answerLoop_returns small _ _ [], returns_bind]
              constructor
              · exact fun ⟨out, ran, _⟩ => ⟨out, ran⟩
              · rintro ⟨out, ran⟩
                refine ⟨out, ran, ?_⟩
                cases out <;> exact returns_ok _
      · constructor
        · rintro ⟨_, h⟩
          obtain ⟨r, found, -⟩ := bind_ok h
          exact absurd ((readName_iff small r).mp found).1 inside
        · exact fun h => absurd h.1 inside
    · rw [if_pos one]
      exact ⟨fun _ h => absurd h.2.2 one, fun _ => returns_ok _⟩
  · rw [if_pos rcode]
    exact ⟨fun _ h => absurd h.2.1 rcode, fun _ => returns_ok _⟩

/-- A response that is its header alone: the name of its question is not there, and the
parser looks at the byte behind the packet. -/
def headerOnly : Packet := ⟨[4, 210, 0x81, 0x80, 0, 1, 0, 1, 0, 0, 0, 0], by decide⟩

theorem reads_behind_header : ¬ Returns (codnsParseResponse headerOnly.val) := by
  rintro ⟨r, h⟩
  have outside : codnsParseResponse headerOnly.val = .error .outOfBounds := by decide +kernel
  rw [outside] at h
  cases h

end Colinlib.Guarantees.DnsBounds
