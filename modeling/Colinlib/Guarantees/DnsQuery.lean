import Colinlib.Source.DnsUtils

/-!
# What the request packer writes

The packer writes one length byte and the bytes of each part of the name between dots,
and never refuses a name it has room for. A query comes out if and only if each part has
1 to 63 bytes and the whole is not too long; a part without bytes, at the end of the name
too, ends the name early.
-/
namespace Colinlib.Guarantees.DnsQuery
open Colinlib.Theory.CMemory Colinlib.Source.DnsUtils

/-- The parts of a name between its dots. -/
abbrev parts (name : List UInt8) : List (List UInt8) := name.splitOn 46

/-- The labels of a name; a dot at its end stands for the root. -/
def NameLabels (name : List UInt8) (labels : List (List UInt8)) : Prop :=
  parts name = labels ∨ parts name = labels ++ [[]]

def LabelSize (l : List UInt8) : Prop := 1 ≤ l.length ∧ l.length ≤ 63

/-- A QNAME at the head of the bytes: its labels and what follows it. -/
def decodeQname : Nat → List UInt8 → Option (List (List UInt8) × List UInt8)
  | 0, _ => none
  | _, [] => none
  | fuel + 1, b :: s =>
    if b = 0 then some ([], s)
    else if b.toNat ≤ 63 ∧ b.toNat ≤ s.length then
      (decodeQname fuel (s.drop b.toNat)).map fun (ls, rest) => (s.take b.toNat :: ls, rest)
    else none

def queryHeader (tid : Nat) : List UInt8 :=
  htons tid ++ htons 0x0100 ++ htons 1 ++ htons 0 ++ htons 0 ++ htons 0

/-- A query for the name and nothing else: the header, a QNAME that decodes to the labels of
the name, type A and class IN. A whole QNAME has at most `limit` octets; RFC 1035 says 255. -/
def IsQuery (limit : Nat) (name out : List UInt8) : Prop :=
  ∃ tid qname labels, out = queryHeader tid ++ (qname ++ (htons dnsTypeA ++ htons dnsClassIN)) ∧
    NameLabels name labels ∧ decodeQname qname.length qname = some (labels, []) ∧
    qname.length ≤ limit

/-- A length byte and the bytes, for each part. -/
def encodeParts (parts : List (List UInt8)) : List UInt8 :=
  parts.flatMap fun l => .ofNat l.length :: l

/-- A name that has a QNAME. -/
def Encodable (limit : Nat) (name : List UInt8) : Prop :=
  ∃ labels, NameLabels name labels ∧ (∀ l ∈ labels, LabelSize l) ∧
    (encodeParts labels).length + 1 ≤ limit

/-- With room enough the packer succeeds only with a query for the name, and fails for a
name without a QNAME. -/
def PacksFaithfully (limit : Nat) (name : List UInt8) : Prop :=
  ∀ gtid (buf : Block UInt8), name.length + 18 ≤ buf.length → buf.length ≤ intMax →
    ∃ p, codnsPackRequest gtid buf buf.length name = .ok p ∧
      (p.ret = 0 → ∃ out, slice p.buf 0 p.size = out.map some ∧ IsQuery limit name out) ∧
      (¬ Encodable limit name → p.ret ≠ 0)

/-! ## Writing -/

/-- The bytes stand at the start of the buffer. -/
structure Written (buf : Block UInt8) (out : List UInt8) : Prop where
  cells : slice buf 0 out.length = out.map some
  fits : out.length ≤ buf.length

theorem Written.store {buf : Block UInt8} {out : List UInt8} (h : Written buf out)
    (xs : List UInt8) (room : out.length + xs.length ≤ buf.length) :
    ∃ buf', store buf out.length (xs.map some) = .ok buf' ∧ Written buf' (out ++ xs) ∧
      buf'.length = buf.length := by
  have bound : out.length + (xs.map some).length ≤ buf.length := by rwa [List.length_map]
  refine ⟨splice buf out.length (xs.map some), if_pos bound, ⟨?_, ?_⟩, splice_length _ _ _ bound⟩
  · have last := slice_splice_same buf out.length (xs.map some) bound
    rw [List.length_map] at last
    rw [List.length_append, ← slice_append, slice_splice_frame _ _ _ _ _ bound (.inl (by omega)),
      h.cells, Nat.zero_add, last, List.map_append]
  · rw [splice_length _ _ _ bound, List.length_append]
    exact room

theorem encodeParts_cons (l : List UInt8) (ls : List (List UInt8)) :
    encodeParts (l :: ls) = .ofNat l.length :: l ++ encodeParts ls := rfl

/-- The loop finds the first part, and the others behind its dot. -/
theorem parts_split (pname : List UInt8) :
    (pname.findIdx? (· = 46) = none ∧ parts pname = [pname]) ∨
      ∃ i, pname.findIdx? (· = 46) = some i ∧ i < pname.length ∧
        parts pname = pname.take i :: parts (pname.drop (i + 1)) := by
  cases found : pname.findIdx? (· = 46) with
  | none =>
    have absent : (46 : UInt8) ∉ pname := by
      intro dot
      simpa using List.findIdx?_eq_none_iff.mp found 46 dot
    exact .inl ⟨rfl, List.splitOn_eq_singleton absent⟩
  | some i =>
    obtain ⟨inside, dot, before⟩ := List.findIdx?_eq_some_iff_getElem.mp found
    have absent : (46 : UInt8) ∉ pname.take i := by
      intro dot
      obtain ⟨j, short, at'⟩ := List.mem_iff_getElem.mp dot
      rw [List.getElem_take] at at'
      rw [List.length_take] at short
      exact before j (by omega) (by simpa using at')
    have cut : pname = pname.take i ++ 46 :: pname.drop (i + 1) := by
      rw [← of_decide_eq_true dot, ← List.drop_eq_getElem_cons inside, List.take_append_drop]
    refine .inr ⟨i, rfl, inside, ?_⟩
    have split := List.splitOn_append_cons_self_of_not_mem absent (pname.drop (i + 1))
    rwa [← cut] at split

theorem encodeParts_length (name : List UInt8) :
    (encodeParts (parts name)).length = name.length + 1 := by
  induction size : name.length using Nat.strongRecOn generalizing name with
  | ind n ih =>
    obtain ⟨-, whole⟩ | ⟨i, -, inside, cut⟩ := parts_split name
    · simp [whole, encodeParts, size]
    · have rest := ih (name.drop (i + 1)).length (by simp; omega) _ rfl
      rw [cut, encodeParts_cons, List.length_append, rest]
      simp
      omega

theorem packLoop_spec {maxsize : Nat} (small : maxsize ≤ intMax) (fuel : Nat) :
    ∀ {buf : Block UInt8} {out : List UInt8} (pname : List UInt8), Written buf out →
      buf.length = maxsize →
      out.length + pname.length + 1 ≤ maxsize → pname.length < fuel →
      ∃ buf', packLoop maxsize fuel buf out.length pname =
          .ok (true, buf', (out ++ encodeParts (parts pname)).length) ∧
        Written buf' (out ++ encodeParts (parts pname)) ∧ buf'.length = maxsize := by
  induction fuel with
  | zero => intro _ _ _ _ _ _ fueled; exact absurd fueled (Nat.not_lt_zero _)
  | succ fuel ih =>
    intro buf out pname written sized room fueled
    -- the length byte and the bytes of the first part
    have first : ∀ len, len ≤ pname.length →
        ∃ b1 b2, int32 (out.length + 1) = .ok (out.length + 1) ∧ toInt32 len = len ∧
          addInt32 (out.length + 1) len = .ok (out.length + 1 + len : Nat) ∧
          ¬ (maxsize : Int) < (out.length + 1 + len : Nat) ∧
          store buf out.length [some (UInt8.ofNat len)] = .ok b1 ∧
          store b1 (out.length + 1) ((pname.take len).map some) = .ok b2 ∧
          Written b2 (out ++ .ofNat len :: pname.take len) ∧ b2.length = maxsize ∧
          (out ++ .ofNat len :: pname.take len).length = out.length + 1 + len := by
      intro len short
      have taken : (pname.take len).length = len := by rw [List.length_take]; omega
      obtain ⟨b1, stored1, written1, size1⟩ :=
        written.store [.ofNat len] (by rw [List.length_singleton]; omega)
      have after : (out ++ [UInt8.ofNat len]).length = out.length + 1 := by simp
      obtain ⟨b2, stored2, written2, size2⟩ := written1.store (pname.take len) (by omega)
      rw [after] at stored2
      rw [List.append_assoc, List.singleton_append] at written2
      exact ⟨b1, b2, if_pos (by omega), toInt32_of_le (by omega), if_pos (by omega), by omega,
        stored1, stored2, written2, by omega, by simp [taken]; omega⟩
    rw [packLoop]
    obtain ⟨none_found, whole⟩ | ⟨i, found, inside, cut⟩ := parts_split pname
    · obtain ⟨b1, b2, one, whole_len, sum, fits, stored1, stored2, written2, size2, length2⟩ :=
        first _ (Nat.le_refl _)
      rw [List.take_length] at written2 length2
      have encoded : encodeParts (parts pname) = .ofNat pname.length :: pname := by
        simp [whole, encodeParts]
      rw [none_found, encoded]
      simp only [Option.getD_none, one, whole_len, sum, ofInt_natCast, stored1, copySize_natCast,
        stored2, ok_bind, if_neg fits]
      exact ⟨b2, by rw [length2]; rfl, written2, size2⟩
    · obtain ⟨b1, b2, one, part_len, sum, fits, stored1, stored2, written2, size2, length2⟩ :=
        first i (Nat.le_of_lt inside)
      have taken : (pname.take i).length = i := by rw [List.length_take]; omega
      have dropped : (pname.drop (i + 1)).length = pname.length - (i + 1) := List.length_drop
      obtain ⟨b3, run, written3, size3⟩ := ih (pname.drop (i + 1)) written2 size2
        (by omega) (by omega)
      have encoded : out ++ encodeParts (parts pname) =
          out ++ .ofNat i :: pname.take i ++ encodeParts (parts (pname.drop (i + 1))) := by
        rw [cut, encodeParts_cons, taken, List.append_assoc]
      rw [length2] at run
      rw [found, encoded]
      simp only [Option.getD_some, one, part_len, sum, ofInt_natCast, stored1, copySize_natCast,
        stored2, ok_bind, if_neg fits]
      exact ⟨b3, run, written3, size3⟩

/-- What a call writes when there is room. -/
def query (tid : Nat) (name : List UInt8) : List UInt8 :=
  queryHeader tid ++ ((encodeParts (parts name) ++ [0]) ++ (htons dnsTypeA ++ htons dnsClassIN))

theorem codnsPackRequest_spec (gtid : Nat) (buf : Block UInt8) (name : List UInt8)
    (room : name.length + 18 ≤ buf.length) (small : buf.length ≤ intMax) :
    ∃ p, codnsPackRequest gtid buf buf.length name = .ok p ∧ p.ret = 0 ∧
      slice p.buf 0 p.size = (query gtid name).map some := by
  have start : Written buf [] := ⟨by simp, Nat.zero_le _⟩
  obtain ⟨b1, stored1, written1, size1⟩ := start.store (queryHeader gtid)
    (by simp [queryHeader, htons]; omega)
  rw [List.nil_append] at written1
  have length1 : (queryHeader gtid).length = headerSize := rfl
  obtain ⟨b2, run, written2, size2⟩ := packLoop_spec small (name.length + 1) name written1 size1
    (by rw [length1, headerSize]; omega) (by omega)
  rw [length1] at run
  have length2 : (queryHeader gtid ++ encodeParts (parts name)).length = name.length + 13 := by
    rw [List.length_append, length1, encodeParts_length, headerSize]; omega
  rw [length2] at run
  obtain ⟨b3, stored3, written3, size3⟩ := written2.store [0]
    (by rw [List.length_singleton]; omega)
  have length3 : (queryHeader gtid ++ encodeParts (parts name) ++ [0]).length = name.length + 14 := by
    rw [List.length_append, length2, List.length_singleton]
  obtain ⟨b4, stored4, written4, size4⟩ := written3.store (htons dnsTypeA)
    (by rw [length3]; simp [htons]; omega)
  have length4 : (queryHeader gtid ++ encodeParts (parts name) ++ [0] ++ htons dnsTypeA).length =
      name.length + 16 := by
    rw [List.length_append, length3]; rfl
  obtain ⟨b5, stored5, written5, -⟩ := written4.store (htons dnsClassIN)
    (by rw [length4]; simp [htons]; omega)
  rw [length2] at stored3
  rw [length3] at stored4
  rw [length4] at stored5
  have header : ¬ buf.length < headerSize := by rw [headerSize]; omega
  have room3 : ¬ buf.length < name.length + 13 + 1 := by omega
  have room4 : ¬ buf.length < name.length + 13 + 1 + 2 := by omega
  have room5 : ¬ buf.length < name.length + 13 + 3 + 2 := by omega
  have sum3 : int32 (name.length + 13 + 1) = .ok (name.length + 13 + 1) := if_pos (by omega)
  have sum4 : int32 (name.length + 13 + 1 + 2) = .ok (name.length + 13 + 1 + 2) := if_pos (by omega)
  have sum5 : int32 (name.length + 13 + 3 + 2) = .ok (name.length + 13 + 3 + 2) := if_pos (by omega)
  refine ⟨⟨0, name.length + 18, b5, (gtid + 1) % 2 ^ 16⟩, ?_, rfl, ?_⟩
  · simp only [codnsPackRequest, genTid, if_neg header]
    change store buf 0 (List.map some (queryHeader gtid)) = _ at stored1
    change (do
      let buf' ← store buf 0 (List.map some (queryHeader gtid))
      _) = _
    rw [stored1, ok_bind, run, ok_bind]
    simp only [not_true_eq_false, if_false, sum3, sum4, sum5, ok_bind, if_neg room3, if_neg room4,
      if_neg room5]
    rw [show [some (0 : UInt8)] = List.map some [0] from rfl, stored3, ok_bind, stored4, ok_bind, stored5]
    rfl
  · have all := written5.cells
    rw [List.length_append, length4] at all
    change slice b5 0 (name.length + 18) = _ at all
    simpa only [query, List.append_assoc] using all

/-! ## Reading -/

theorem decodeQname_encodeParts (rest : List UInt8) (ls : List (List UInt8))
    (sized : ∀ l ∈ ls, LabelSize l) :
    ∀ fuel, ls.length < fuel →
      decodeQname fuel (encodeParts ls ++ 0 :: rest) = some (ls, rest) := by
  induction ls with
  | nil =>
    intro fuel enough
    obtain ⟨fuel, rfl⟩ := Nat.exists_eq_succ_of_ne_zero (Nat.ne_zero_of_lt enough)
    rfl
  | cons l ls ih =>
    intro fuel enough
    obtain ⟨fuel, rfl⟩ := Nat.exists_eq_succ_of_ne_zero (Nat.ne_zero_of_lt enough)
    obtain ⟨full, short⟩ := sized l List.mem_cons_self
    have byte : (UInt8.ofNat l.length).toNat = l.length :=
      Nat.mod_eq_of_lt (by omega : l.length < 256)
    have nonzero : UInt8.ofNat l.length ≠ 0 := by
      intro zero
      rw [zero] at byte
      exact absurd byte.symm (Nat.ne_zero_of_lt full)
    have others := ih (fun l' mem => sized l' (List.mem_cons_of_mem _ mem)) fuel
      (by simpa using enough)
    rw [encodeParts_cons, List.append_assoc, List.cons_append, decodeQname, if_neg nonzero, byte,
      if_pos ⟨short, by rw [List.length_append]; omega⟩, List.drop_left, List.take_left, others]
    rfl

/-- A name that decodes is its labels and the root, with nothing in between. -/
theorem decodeQname_sound {fuel : Nat} {s rest : List UInt8} {labels : List (List UInt8)}
    (decoded : decodeQname fuel s = some (labels, rest)) :
    s = encodeParts labels ++ 0 :: rest ∧ ∀ l ∈ labels, LabelSize l := by
  induction fuel generalizing s labels with
  | zero => cases decoded
  | succ fuel ih =>
    cases s with
    | nil => cases decoded
    | cons b s =>
      rw [decodeQname] at decoded
      split at decoded
      case isTrue zero =>
        cases decoded
        exact ⟨by rw [zero]; rfl, nofun⟩
      case isFalse nonzero =>
        split at decoded
        case isFalse => cases decoded
        case isTrue sized =>
          obtain ⟨⟨ls, rest'⟩, others, same⟩ := Option.map_eq_some_iff.mp decoded
          cases same
          obtain ⟨cut, all⟩ := ih others
          have taken : (s.take b.toNat).length = b.toNat := by rw [List.length_take]; omega
          have positive : b.toNat ≠ 0 := fun zero => nonzero (UInt8.toNat_inj.mp zero)
          refine ⟨?_, ?_⟩
          · rw [encodeParts_cons, taken, UInt8.ofNat_toNat, List.append_assoc, ← cut,
              List.cons_append, List.take_append_drop]
          · intro l mem
            cases mem with
            | head => exact ⟨by omega, by omega⟩
            | tail _ mem => exact all l mem

/-! ## The names for which it works -/

theorem length_le_encodeParts (ls : List (List UInt8)) : ls.length ≤ (encodeParts ls).length := by
  induction ls with
  | nil => exact Nat.zero_le _
  | cons l ls ih =>
    rw [encodeParts_cons, List.length_append, List.length_cons, List.length_cons]
    omega

theorem encodeParts_root (labels : List (List UInt8)) :
    (encodeParts (labels ++ [[]])).length = (encodeParts labels).length + 1 := by
  simp [encodeParts]

/-- The packer writes a query for the name, and refuses a name that has none, if and only if
each part of the name has 1 to 63 bytes and the QNAME is not too long, or no buffer has
room for the name. -/
theorem packs_sized_parts (limit : Nat) (name : List UInt8) :
    PacksFaithfully limit name ↔
      (∀ l ∈ parts name, LabelSize l) ∧ name.length + 2 ≤ limit ∨ intMax < name.length + 18 := by
  have size : (encodeParts (parts name) ++ [0]).length = name.length + 2 := by
    rw [List.length_append, encodeParts_length, List.length_singleton]
  constructor
  · intro faithful
    by_cases huge : intMax < name.length + 18
    · exact .inr huge
    let buf := malloc UInt8 (name.length + 18)
    have room : buf.length = name.length + 18 := malloc_length _
    obtain ⟨p, run, success, -⟩ := faithful 0 buf (by omega) (by omega)
    obtain ⟨p', run', ret, written⟩ := codnsPackRequest_spec 0 buf name
      (by omega) (by omega)
    cases run.symm.trans run'
    obtain ⟨out, cells, tid, qname, labels, shape, named, decoded, short⟩ := success ret
    have same : query 0 name = out :=
      (List.map_inj_right fun _ _ => Option.some.inj).mp (written.symm.trans cells)
    -- both start with a header of twelve bytes
    have behind := (List.append_inj (same.trans shape) rfl).2
    have sent : encodeParts (parts name) ++ [0] = qname := List.append_cancel_right behind
    obtain ⟨cut, sized⟩ := decodeQname_sound decoded
    have count := congrArg List.length (sent.trans cut)
    rw [List.length_append, List.length_append, Nat.add_right_cancel_iff] at count
    refine .inl ⟨?_, by rwa [← size, sent]⟩
    obtain plain | rooted := named
    · rwa [plain]
    · rw [rooted, encodeParts_root] at count
      omega
  · rintro (⟨sized, short⟩ | huge) gtid buf room small
    · obtain ⟨p, run, ret, written⟩ := codnsPackRequest_spec gtid buf name room small
      have fuel : (parts name).length < (encodeParts (parts name) ++ [0]).length := by
        have := length_le_encodeParts (parts name)
        rw [List.length_append, List.length_singleton]
        omega
      refine ⟨p, run, fun _ => ⟨query gtid name, written, gtid, encodeParts (parts name) ++ [0],
        parts name, rfl, .inl rfl, decodeQname_encodeParts _ _ sized _ fuel, by rwa [size]⟩, ?_⟩
      refine fun none => absurd ⟨parts name, .inl rfl, sized, ?_⟩ none
      rwa [encodeParts_length]
    · omega

/-- `a..b` -/
def doubleDot : List UInt8 := [97, 46, 46, 98]

theorem empty_label_is_sent : ¬ PacksFaithfully 255 doubleDot := by
  intro faithful
  obtain ⟨p, run, -, refused⟩ := faithful 0 (malloc UInt8 22) (by decide) (by decide)
  have sent : (codnsPackRequest 0 (malloc UInt8 22) 22 doubleDot).map Packed.ret = .ok 0 := by
    decide +kernel
  rw [show codnsPackRequest 0 (malloc UInt8 22) 22 doubleDot = .ok p from run] at sent
  refine refused ?_ (Except.ok.inj sent)
  have split : parts doubleDot = [[97], [], [98]] := by decide
  rintro ⟨labels, plain | rooted, sized, -⟩
  · have := sized [] (by rw [← plain, split]; decide)
    exact absurd this.1 (by decide)
  · have last := congrArg List.getLast? (split.symm.trans rooted)
    rw [List.getLast?_concat] at last
    cases last

end Colinlib.Guarantees.DnsQuery
