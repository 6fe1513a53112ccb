import Mathlib.Algebra.Order.BigOperators.Group.List
import Mathlib.Algebra.Ring.Int.Defs
import Colinlib.Guarantees.DnsQuery

/-!
# Where the request packer writes

Every write of `codns_pack_request` follows a comparison of the capacity with the
position behind the bytes to be written. The positions and the lengths of the parts
are `int`s: the comparisons decide as they should for as long as these values are in
the type. A part that is too long for an `int` is no longer kept out by them.
-/
namespace Colinlib.Guarantees.RequestBounds
open Colinlib.Theory.CMemory Colinlib.Source.DnsUtils
open Colinlib.Guarantees.DnsQuery (parts parts_split encodeParts encodeParts_cons encodeParts_length)

/-- Nothing from index `cap` on has changed. -/
structure Within (cap : Nat) (buf buf' : Block UInt8) : Prop where
  size : buf'.length = buf.length
  beyond : ∀ i, cap ≤ i → buf'[i]? = buf[i]?

/-- With this capacity and this name, the request stays inside; it succeeds where there is room
for all of it, and `size` is what it takes, or the capacity. -/
def Respects (cap : Nat) (name : List UInt8) : Prop :=
  ∀ gtid (buf : Block UInt8), cap ≤ buf.length →
    ∃ p, codnsPackRequest gtid buf cap name = .ok p ∧ Within cap buf p.buf ∧
      (p.ret = 0 ↔ name.length + 18 ≤ cap) ∧
      (p.ret = 0 → p.size = name.length + 18) ∧ (p.ret ≠ 0 → p.size = cap)

/-! ## The comparisons -/

/-- What each comparison adds to the position: the length byte and the part for each
part, with its length as an `int`, then the zero byte, the type and the class. -/
def advances (name : List UInt8) : List Int :=
  (parts name).map (fun l => 1 + toInt32 l.length) ++ [1, 2, 2]

/-- What a row of comparisons comes to. -/
inductive Verdict where
  | leavesInt
  | refused
  | room (pos : Nat)
  deriving DecidableEq, Repr

/-- The first comparison that the capacity does not pass, or a sum or a length before it
that an `int` does not hold as a nonnegative number. -/
def verdict (cap : Nat) : Nat → List Int → Verdict
  | pos, [] => .room pos
  | pos, d :: ds =>
    if d ≤ 0 ∨ (intMax : Int) < pos + d then .leavesInt
    else if (cap : Int) < pos + d then .refused
    else verdict cap (pos + d).toNat ds

theorem verdict_cons (cap pos : Nat) (d : Int) (ds : List Int) :
    verdict cap pos (d :: ds) =
      if d ≤ 0 ∨ (intMax : Int) < pos + d then .leavesInt
      else if (cap : Int) < pos + d then .refused
      else verdict cap (pos + d).toNat ds := rfl

theorem verdict_append (cap : Nat) (ds es : List Int) (pos : Nat) :
    verdict cap pos (ds ++ es) =
      match verdict cap pos ds with
      | .room p => verdict cap p es
      | .leavesInt => .leavesInt
      | .refused => .refused := by
  induction ds generalizing pos with
  | nil => rfl
  | cons d ds ih =>
      simp only [List.cons_append, verdict]
      by_cases leaves : d ≤ 0 ∨ (intMax : Int) < pos + d
      · simp only [if_pos leaves]
      · by_cases refused : (cap : Int) < pos + d
        · simp only [if_neg leaves, if_pos refused]
        · simp only [if_neg leaves, if_neg refused, ih]

/-- Within the `int`s the positions rise, so the last sum decides. -/
theorem verdict_sum {cap : Nat} (ds : List Int) (pos : Nat) (inside : pos ≤ cap)
    (rising : ∀ d ∈ ds, 0 < d) (fits : pos + ds.sum ≤ intMax) :
    verdict cap pos ds =
      if pos + ds.sum ≤ cap then .room (pos + ds.sum).toNat else .refused := by
  induction ds generalizing pos with
  | nil =>
      simp only [List.sum_nil, Int.add_zero, Int.toNat_natCast, if_pos (Int.ofNat_le.mpr inside)]
      rfl
  | cons d ds ih =>
      have first := rising d List.mem_cons_self
      have others : ∀ e ∈ ds, 0 < e := fun e mem => rising e (List.mem_cons_of_mem _ mem)
      have above : 0 ≤ ds.sum := List.sum_nonneg fun e mem => Int.le_of_lt (others e mem)
      rw [List.sum_cons] at fits ⊢
      rw [verdict_cons, if_neg (by omega)]
      by_cases refused : (cap : Int) < pos + d
      · rw [if_pos refused, if_neg (by omega)]
      · have moved : ((pos + d).toNat : Int) = pos + d := Int.toNat_of_nonneg (by omega)
        rw [if_neg refused, ih (pos + d).toNat (by omega) others (by omega), moved, Int.add_assoc]

theorem parts_sum (ls : List (List UInt8)) (short : (encodeParts ls).length ≤ intMax) :
    (ls.map fun l => 1 + toInt32 l.length).sum = (encodeParts ls).length ∧
      ∀ d ∈ ls.map fun l => 1 + toInt32 l.length, 0 < d := by
  induction ls with
  | nil => exact ⟨rfl, nofun⟩
  | cons l ls ih =>
      have size : (encodeParts (l :: ls)).length = l.length + 1 + (encodeParts ls).length := by
        rw [encodeParts_cons, List.length_append, List.length_cons]
      have measured : toInt32 l.length = l.length := toInt32_of_le (by omega)
      obtain ⟨sum, rising⟩ := ih (by omega)
      rw [List.map_cons, List.sum_cons, sum, measured, size]
      refine ⟨by omega, fun d mem => ?_⟩
      obtain rfl | later := List.mem_cons.mp mem
      · omega
      · exact rising d later

theorem advances_sum (name : List UInt8) (short : name.length < intMax) :
    (advances name).sum = name.length + 6 ∧ ∀ d ∈ advances name, 0 < d := by
  have size := encodeParts_length name
  obtain ⟨sum, rising⟩ := parts_sum (parts name) (by omega)
  refine ⟨?_, fun d mem => ?_⟩
  · rw [advances, List.sum_append, sum, size]
    simp only [List.sum_cons, List.sum_nil]
    omega
  · obtain part | fixed := List.mem_append.mp mem
    · exact rising d part
    · simp only [List.mem_cons, List.not_mem_nil, or_false] at fixed
      omega

/-- A packet whose size an `int` holds is measured as it is. -/
theorem verdict_short {cap : Nat} {name : List UInt8} (header : headerSize ≤ cap)
    (short : name.length + 18 ≤ intMax) :
    verdict cap headerSize (advances name) =
      if name.length + 18 ≤ cap then .room (name.length + 18) else .refused := by
  obtain ⟨sum, rising⟩ := advances_sum name (by omega)
  have start : headerSize = 12 := rfl
  have total : (headerSize : Int) + (name.length + 6) = (name.length + 18 : Nat) := by omega
  rw [verdict_sum _ _ header rising (by omega), sum, total, Int.toNat_natCast]
  simp only [Int.ofNat_le]

/-! ## The writes -/

theorem Within.refl (cap : Nat) (buf : Block UInt8) : Within cap buf buf := ⟨rfl, fun _ _ => rfl⟩

theorem Within.trans {cap : Nat} {b₁ b₂ b₃ : Block UInt8} (h : Within cap b₁ b₂)
    (h' : Within cap b₂ b₃) : Within cap b₁ b₃ :=
  ⟨h'.size.trans h.size, fun i out => (h'.beyond i out).trans (h.beyond i out)⟩

/-- A store below the capacity. -/
theorem within_store {cap : Nat} {buf : Block UInt8} (off : Nat) (cells : List (Option UInt8))
    (whole : cap ≤ buf.length) (room : off + cells.length ≤ cap) :
    ∃ buf', store buf off cells = .ok buf' ∧ Within cap buf buf' := by
  have bound : off + cells.length ≤ buf.length := Nat.le_trans room whole
  refine ⟨splice buf off cells, if_pos bound, splice_length _ _ _ bound, fun i out => ?_⟩
  rw [splice_getElem? _ _ _ _ bound, if_neg (by omega)]

section Part
variable {cap pos n : Nat} {buf : Block UInt8} {pname : List UInt8}
  (next : Block UInt8 → Nat → Except Fault (Bool × Block UInt8 × Nat))

/-- One round of the loop, up to what follows the copy of a part of `n` bytes. -/
def partRound (cap : Nat) (buf : Block UInt8) (pos n : Nat) (pname : List UInt8)
    (next : Block UInt8 → Nat → Except Fault (Bool × Block UInt8 × Nat)) :
    Except Fault (Bool × Block UInt8 × Nat) := do
  if cap < (← addInt32 (← int32 (pos + 1)) (toInt32 n)) then return (false, buf, pos)
  let buf ← store buf pos [some (.ofInt (toInt32 n))]
  let len ← copySize (toInt32 n)
  let buf ← store buf (pos + 1) ((pname.take len).map some)
  next buf len

theorem partRound_leavesInt (room : pos ≤ cap)
    (leaves : 1 + toInt32 n ≤ 0 ∨ (intMax : Int) < pos + (1 + toInt32 n)) :
    ∃ f, partRound cap buf pos n pname next = .error f := by
  by_cases full : pos + 1 ≤ intMax
  · have one : int32 (pos + 1) = .ok (pos + 1) := if_pos full
    obtain negative | high := leaves
    · -- the comparison is passed, and the copy is not
      have sum : addInt32 (pos + 1) (toInt32 n) = .ok ((pos + 1 : Nat) + toInt32 n) :=
        if_pos (by omega)
      have passed : ¬ (cap : Int) < (pos + 1 : Nat) + toInt32 n := by omega
      have huge : copySize (toInt32 n) = .error .outOfBounds := if_pos (by omega)
      rw [partRound, one, ok_bind, sum, ok_bind, if_neg passed]
      cases store buf pos [some (UInt8.ofInt (toInt32 n))] with
      | error f => exact ⟨f, rfl⟩
      | ok b => exact ⟨.outOfBounds, by rw [ok_bind, huge]; rfl⟩
    · have sum : addInt32 (pos + 1) (toInt32 n) = .error .intOverflow := if_neg (by omega)
      exact ⟨.intOverflow, by rw [partRound, one, ok_bind, sum]; rfl⟩
  · have one : int32 (pos + 1) = .error .intOverflow := if_neg full
    exact ⟨.intOverflow, by rw [partRound, one]; rfl⟩

theorem partRound_refused (fits : 0 < 1 + toInt32 n ∧ pos + (1 + toInt32 n) ≤ intMax)
    (refused : (cap : Int) < pos + (1 + toInt32 n)) :
    partRound cap buf pos n pname next = .ok (false, buf, pos) := by
  have one : int32 (pos + 1) = .ok (pos + 1) := if_pos (by omega)
  have sum : addInt32 (pos + 1) (toInt32 n) = .ok ((pos + 1 : Nat) + toInt32 n) := if_pos (by omega)
  rw [partRound, one, ok_bind, sum, ok_bind, if_pos (by omega)]
  rfl

theorem partRound_room (small : cap ≤ intMax) (whole : cap ≤ buf.length)
    (fits : 0 < 1 + toInt32 n ∧ pos + (1 + toInt32 n) ≤ cap) :
    ∃ buf', Within cap buf buf' ∧
      partRound cap buf pos n pname next = next buf' (toInt32 n).toNat := by
  have one : int32 (pos + 1) = .ok (pos + 1) := if_pos (by omega)
  have sum : addInt32 (pos + 1) (toInt32 n) = .ok ((pos + 1 : Nat) + toInt32 n) := if_pos (by omega)
  have size : copySize (toInt32 n) = .ok (toInt32 n).toNat := if_neg (by omega)
  have taken : ((pname.take (toInt32 n).toNat).map some).length ≤ (toInt32 n).toNat := by
    rw [List.length_map, List.length_take]
    omega
  obtain ⟨b₁, stored₁, within₁⟩ := within_store pos
    [some (UInt8.ofInt (toInt32 n))] whole (by rw [List.length_singleton]; omega)
  obtain ⟨b₂, stored₂, within₂⟩ := within_store (pos + 1)
    ((pname.take (toInt32 n).toNat).map some) (within₁.size ▸ whole) (by omega)
  refine ⟨b₂, within₁.trans within₂, ?_⟩
  rw [partRound, one, ok_bind, sum, ok_bind, if_neg (by omega), stored₁, ok_bind, size, ok_bind,
    stored₂, ok_bind]

end Part

/-- What the loop over the parts does, after what the comparisons come to. -/
inductive Follows (cap : Nat) (buf : Block UInt8) :
    Verdict → Except Fault (Bool × Block UInt8 × Nat) → Prop
  | stops (f : Fault) : Follows cap buf .leavesInt (.error f)
  | refuses {buf' : Block UInt8} (pos : Nat) (kept : Within cap buf buf') :
      Follows cap buf .refused (.ok (false, buf', pos))
  | passes {buf' : Block UInt8} {pos : Nat} (kept : Within cap buf buf') (inside : pos ≤ cap) :
      Follows cap buf (.room pos) (.ok (true, buf', pos))

theorem Follows.after {cap : Nat} {buf buf' : Block UInt8} {v : Verdict}
    {x : Except Fault (Bool × Block UInt8 × Nat)} (first : Within cap buf buf')
    (h : Follows cap buf' v x) : Follows cap buf v x := by
  cases h with
  | stops f => exact .stops f
  | refuses pos kept => exact .refuses pos (first.trans kept)
  | passes kept inside => exact .passes (first.trans kept) inside

/-- A round and what follows it, for the comparisons from this part on. -/
theorem partRound_follows {cap pos n : Nat} {buf : Block UInt8} {pname : List UInt8}
    {next : Block UInt8 → Nat → Except Fault (Bool × Block UInt8 × Nat)} {ds : List Int}
    (small : cap ≤ intMax) (whole : cap ≤ buf.length) (room : pos ≤ cap)
    (rest : ∀ (buf' : Block UInt8) (len : Nat), cap ≤ buf'.length → (len : Int) = toInt32 n →
      pos + 1 + len ≤ cap →
      Follows cap buf' (verdict cap (pos + 1 + len) ds) (next buf' len)) :
    Follows cap buf (verdict cap pos ((1 + toInt32 n) :: ds)) (partRound cap buf pos n pname next) := by
  rw [verdict_cons]
  by_cases leaves : 1 + toInt32 n ≤ 0 ∨ (intMax : Int) < pos + (1 + toInt32 n)
  · obtain ⟨f, run⟩ : ∃ f, partRound cap buf pos n pname next = .error f :=
      partRound_leavesInt next room leaves
    rw [if_pos leaves, run]
    exact .stops f
  · rw [if_neg leaves]
    by_cases refused : (cap : Int) < pos + (1 + toInt32 n)
    · rw [if_pos refused, partRound_refused next (by omega) refused]
      exact .refuses pos (.refl cap buf)
    · have fits : 0 < 1 + toInt32 n ∧ pos + (1 + toInt32 n) ≤ cap := by omega
      obtain ⟨buf', within, run⟩ : ∃ buf', Within cap buf buf' ∧
          partRound cap buf pos n pname next = next buf' (toInt32 n).toNat :=
        partRound_room next small whole fits
      have moved : ((pos : Int) + (1 + toInt32 n)).toNat = pos + 1 + (toInt32 n).toNat := by omega
      rw [if_neg refused, run, moved]
      exact .after within (rest buf' _ (within.size ▸ whole) (by omega) (by omega))

theorem packLoop_follows {cap : Nat} (small : cap ≤ intMax) (fuel : Nat) :
    ∀ {buf : Block UInt8} {pos : Nat} (pname : List UInt8), cap ≤ buf.length → pos ≤ cap →
      pname.length < fuel →
      Follows cap buf (verdict cap pos ((parts pname).map fun l => 1 + toInt32 l.length))
        (packLoop cap fuel buf pos pname) := by
  induction fuel with
  | zero => intro _ _ _ _ _ fueled; exact absurd fueled (Nat.not_lt_zero _)
  | succ fuel ih =>
    intro buf pos pname whole room fueled
    rw [packLoop]
    obtain ⟨none_found, last⟩ | ⟨i, found, inside, cut⟩ := parts_split pname
    · rw [none_found, last]
      exact partRound_follows small whole room fun buf' len _ _ inside =>
        .passes (.refl cap buf') inside
    · have taken : (pname.take i).length = i := by rw [List.length_take]; omega
      have dropped : (pname.drop (i + 1)).length = pname.length - (i + 1) := List.length_drop
      rw [found, cut, List.map_cons, taken]
      exact partRound_follows small whole room fun buf' len whole' _ inside =>
        ih (pname.drop (i + 1)) whole' inside (by omega)

/-! ## The function -/

/-- What the function returns, after what the comparisons come to. -/
inductive Returns (cap : Nat) (buf : Block UInt8) : Verdict → Except Fault Packed → Prop
  | stops (f : Fault) : Returns cap buf .leavesInt (.error f)
  | fails {p : Packed} (ret : p.ret ≠ 0) (size : p.size = cap) (kept : Within cap buf p.buf) :
      Returns cap buf .refused (.ok p)
  | succeeds {p : Packed} (ret : p.ret = 0) (kept : Within cap buf p.buf) :
      Returns cap buf (.room p.size) (.ok p)

theorem Returns.after {cap : Nat} {buf buf' : Block UInt8} {v : Verdict}
    {x : Except Fault Packed} (first : Within cap buf buf') (h : Returns cap buf' v x) :
    Returns cap buf v x := by
  cases h with
  | stops f => exact .stops f
  | fails ret size kept => exact .fails ret size (first.trans kept)
  | succeeds ret kept => exact .succeeds ret (first.trans kept)

/-- One of the fields behind the name: the comparison, the copy and what follows. -/
def field (cap gtid : Nat) (buf : Block UInt8) (pos : Nat) (cells : List (Option UInt8))
    (limit : Nat) (next : Block UInt8 → Except Fault Packed) : Except Fault Packed := do
  if cap < (← int32 limit) then return ⟨1, cap, buf, gtid⟩
  let buf ← store buf pos cells
  next buf

theorem field_returns {cap gtid pos limit : Nat} {buf : Block UInt8} {cells : List (Option UInt8)}
    {next : Block UInt8 → Except Fault Packed} {n : Nat} {ds : List Int}
    (whole : cap ≤ buf.length) (size : cells.length = n) (some_bytes : 0 < n)
    (behind : limit = pos + n)
    (rest : ∀ buf', cap ≤ buf'.length → pos + n ≤ cap →
      Returns cap buf' (verdict cap (pos + n) ds) (next buf')) :
    Returns cap buf (verdict cap pos ((n : Int) :: ds)) (field cap gtid buf pos cells limit next) := by
  subst behind
  rw [verdict, field]
  by_cases leaves : (n : Int) ≤ 0 ∨ (intMax : Int) < pos + n
  · have sum : int32 (pos + n) = .error .intOverflow := if_neg (by omega)
    rw [if_pos leaves, sum]
    exact .stops .intOverflow
  · have sum : int32 (pos + n) = .ok (pos + n) := if_pos (by omega)
    rw [if_neg leaves, sum, ok_bind]
    by_cases refused : cap < pos + n
    · rw [if_pos (by omega), if_pos refused]
      exact .fails Nat.one_ne_zero rfl (.refl cap buf)
    · obtain ⟨buf', stored, within⟩ := within_store pos cells whole (by omega)
      have moved : ((pos : Int) + n).toNat = pos + n := by omega
      rw [if_neg (by omega), if_neg refused, stored, ok_bind, moved]
      exact .after within (rest buf' (within.size ▸ whole) (by omega))

theorem codnsPackRequest_returns {cap : Nat} (small : cap ≤ intMax) (header : headerSize ≤ cap)
    (gtid : Nat) {buf : Block UInt8} (whole : cap ≤ buf.length) (name : List UInt8) :
    Returns cap buf (verdict cap headerSize (advances name))
      (codnsPackRequest gtid buf cap name) := by
  obtain ⟨b₁, stored, within⟩ := within_store 0
    ((DnsQuery.queryHeader gtid).map some) whole
    (by rw [List.length_map]; exact header)
  have loop := packLoop_follows small (name.length + 1) name (within.size ▸ whole) header
    (Nat.lt_succ_self _)
  rw [codnsPackRequest, if_neg (Nat.not_lt.mpr header), advances, verdict_append]
  change Returns cap buf _ (do
    let buf ← store buf 0 ((DnsQuery.queryHeader gtid).map some)
    _)
  rw [stored, ok_bind]
  refine .after within ?_
  generalize verdict cap headerSize ((parts name).map fun l => 1 + toInt32 l.length) = v at loop ⊢
  generalize packLoop cap (name.length + 1) b₁ headerSize name = x at loop ⊢
  cases loop with
  | stops f => exact .stops f
  | refuses pos kept => exact .fails Nat.one_ne_zero rfl kept
  | @passes b pos kept inside =>
      refine .after kept ?_
      -- the zero byte, the type and the class
      refine field_returns (n := 1) (kept.size ▸ within.size ▸ whole) rfl (by decide) rfl ?_
      intro b₂ whole₂ _
      refine field_returns (n := 2) whole₂ rfl (by decide) rfl ?_
      intro b₃ whole₃ _
      refine field_returns (n := 2) whole₃ rfl (by decide) rfl ?_
      intro b₄ _ _
      exact .succeeds (p := ⟨0, pos + 5, b₄, (gtid + 1) % 2 ^ 16⟩) rfl (.refl cap b₄)

/-! ## The capacities and names for which it works -/

/-- A call that returns was measured, and only a roomy buffer makes it a success. -/
theorem Respects.measured {cap : Nat} {name : List UInt8} (small : cap ≤ intMax)
    (header : headerSize ≤ cap) (respects : Respects cap name) :
    name.length + 18 ≤ cap ∨ verdict cap headerSize (advances name) = .refused := by
  have whole : (malloc UInt8 cap).length = cap := malloc_length cap
  obtain ⟨p, run, -, success, -, -⟩ := respects 0 (malloc UInt8 cap) (Nat.le_of_eq whole.symm)
  have outcome := codnsPackRequest_returns small header 0 (Nat.le_of_eq whole.symm) name
  rw [run] at outcome
  generalize verdict cap headerSize (advances name) = v at outcome
  cases outcome with
  | fails ret size kept => exact .inr rfl
  | succeeds ret kept => exact .inl (success.mp ret)

theorem respects_of {cap : Nat} {name : List UInt8} (small : cap ≤ intMax)
    (condition : cap < headerSize ∨ name.length + 18 ≤ cap ∨
      verdict cap headerSize (advances name) = .refused) : Respects cap name := by
  intro gtid buf whole
  have start : headerSize = 12 := rfl
  by_cases header : cap < headerSize
  · exact ⟨⟨1, cap, buf, gtid⟩, by rw [codnsPackRequest, if_pos header]; rfl, .refl cap buf,
      ⟨fun h => absurd h Nat.one_ne_zero, fun h => by omega⟩, fun h => absurd h Nat.one_ne_zero,
      fun _ => rfl⟩
  have outcome := codnsPackRequest_returns small (Nat.le_of_not_lt header) gtid whole name
  have roomy : name.length + 18 ≤ cap →
      verdict cap headerSize (advances name) = .room (name.length + 18) := fun fits => by
    rw [verdict_short (Nat.le_of_not_lt header) (by omega), if_pos fits]
  obtain short | fits | refused := condition
  · exact absurd short header
  · rw [roomy fits] at outcome
    generalize codnsPackRequest gtid buf cap name = x at outcome ⊢
    generalize behind : name.length + 18 = n at outcome
    cases outcome with
    | @succeeds p ret kept =>
        exact ⟨p, rfl, kept, ⟨fun _ => by omega, fun _ => ret⟩, fun _ => rfl,
          fun failed => absurd ret failed⟩
  · rw [refused] at outcome
    generalize codnsPackRequest gtid buf cap name = x at outcome ⊢
    cases outcome with
    | @fails p ret size kept =>
        refine ⟨p, rfl, kept, ⟨fun h => absurd h ret, fun fits => ?_⟩, fun h => absurd h ret,
          fun _ => size⟩
        rw [roomy fits] at refused
        cases refused

/-- Every name whose packet an `int` can measure, with every capacity. -/
theorem respects_short {cap : Nat} {name : List UInt8} (small : cap ≤ intMax)
    (short : name.length + 18 ≤ intMax) : Respects cap name := by
  by_cases header : cap < headerSize
  · exact respects_of small (.inl header)
  · by_cases fits : name.length + 18 ≤ cap
    · exact respects_of small (.inr (.inl fits))
    · refine respects_of small (.inr (.inr ?_))
      rw [verdict_short (Nat.le_of_not_lt header) short, if_neg fits]

/-- The packer keeps to its buffer and reports the size if and only if the buffer is
shorter than the header, has room for the packet, or is refused by one of the
comparisons before a length or a sum leaves the nonnegative `int`s. -/
theorem pack_request_respects_buffer (cap : Nat) (name : List UInt8) (small : cap ≤ intMax) :
    Respects cap name ↔ cap < headerSize ∨ name.length + 18 ≤ cap ∨
      verdict cap headerSize (advances name) = .refused := by
  constructor
  · intro respects
    by_cases header : cap < headerSize
    · exact .inl header
    · exact .inr (respects.measured small (Nat.le_of_not_lt header))
  · exact respects_of small

theorem pack_request_respects_buffer_short :
    512 ≤ intMax ∧ Respects 512 [97, 46, 98] :=
  ⟨by decide, (pack_request_respects_buffer 512 [97, 46, 98] (by decide)).mpr (.inr (.inl (by decide)))⟩

/-- A label of `2^31` bytes: its length is a negative `int`, which passes the comparison. -/
def hugeLabel : List UInt8 := List.replicate (2 ^ 31) 97

theorem huge_label_passes : ¬ Respects 512 hugeLabel := by
  intro respects
  have length : hugeLabel.length = 2 ^ 31 := List.length_replicate
  have whole : parts hugeLabel = [hugeLabel] :=
    List.splitOn_eq_singleton fun dot => absurd (List.eq_of_mem_replicate dot) (by decide)
  have negative : toInt32 (2 ^ 31) = -2 ^ 31 := by decide
  obtain fits | refused := respects.measured (by decide) (by decide)
  · rw [length] at fits
    exact absurd fits (by decide)
  · rw [advances, whole, List.map_singleton, length, negative, List.singleton_append, verdict,
      if_pos (.inl (by decide))] at refused
    cases refused

end Colinlib.Guarantees.RequestBounds
