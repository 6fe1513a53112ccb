import Colinlib.Source.DnsRecords

/-!
# What the response parser returns

`Response.encode` writes a message by the format: names are labels and a zero byte or a
pointer, records follow the question, and anything may follow the records. The parser
returns the addresses of the A and AAAA records, in their order.
-/
namespace Colinlib.Guarantees.DnsAnswers
open Colinlib.Source Colinlib.Theory.CMemory Colinlib.Source.DnsUtils Colinlib.Source.DnsRecords

/-! ## The format -/

/-- So many bytes. -/
abbrev Bytes (n : Nat) := { l : List UInt8 // l.length = n }

abbrev WireLabel := { l : List UInt8 // 1 ≤ l.length ∧ l.length ≤ 63 }

/-- A name ends with the root or with a pointer, whose two top bits are set. -/
inductive Ending where
  | root
  | pointer (high : { b : UInt8 // b.toNat &&& 0xC0 = 0xC0 }) (low : UInt8)

structure Name where
  labels : List WireLabel
  ending : Ending

inductive Data where
  | a (addr : Bytes 4)
  | aaaa (addr : Bytes 16)
  | other (type : { n : Nat // n < 2 ^ 16 ∧ n ≠ dnsTypeA ∧ n ≠ dnsTypeAAAA })
      (data : { l : List UInt8 // l.length < 2 ^ 16 })

structure Record where
  name : Name
  classTtl : Bytes 6
  data : Data

def WireLabel.encode (l : WireLabel) : List UInt8 := .ofNat l.val.length :: l.val

def Ending.encode : Ending → List UInt8
  | .root => [0]
  | .pointer high low => [high.val, low]

def Name.encode (name : Name) : List UInt8 :=
  name.labels.flatMap WireLabel.encode ++ name.ending.encode

def Data.type : Data → Nat
  | .a _ => dnsTypeA
  | .aaaa _ => dnsTypeAAAA
  | .other type _ => type.val

def Data.bytes : Data → List UInt8
  | .a addr => addr.val
  | .aaaa addr => addr.val
  | .other _ data => data.val

def Data.address : Data → Option Ipaddr
  | .a addr => some ⟨.inet, addr.val⟩
  | .aaaa addr => some ⟨.inet6, addr.val⟩
  | .other _ _ => none

def Record.encode (r : Record) : List UInt8 :=
  r.name.encode ++ (htons r.data.type ++ (r.classTtl.val ++ (htons r.data.bytes.length ++ r.data.bytes)))

/-- The parts of a response with `rcode` 0 and one question. -/
structure Body where
  tid : Bytes 2
  flagsHigh : UInt8
  flagsLow : { b : UInt8 // b.toNat &&& 0x000F = 0 }
  moreCounts : Bytes 4
  question : Name
  typeClass : Bytes 4
  answers : { l : List Record // 1 ≤ l.length ∧ l.length < 2 ^ 16 }
  trailing : List UInt8

def Body.encode (b : Body) : List UInt8 :=
  b.tid.val ++ ([b.flagsHigh, b.flagsLow.val] ++ (htons 1 ++ (htons b.answers.val.length ++
    (b.moreCounts.val ++ (b.question.encode ++ (b.typeClass.val ++
      (b.answers.val.flatMap Record.encode ++ b.trailing)))))))

/-- The size of a message is an `int`. -/
abbrev Response := { b : Body // b.encode.length ≤ intMax }

def Body.addresses (b : Body) : List Ipaddr := b.answers.val.filterMap fun r => r.data.address

/-! ## Bytes at a position -/

/-- The bytes stand at the position. -/
def At (buf : List UInt8) (p : Nat) (bytes : List UInt8) : Prop := bytes <+: buf.drop p

section At
variable {buf xs ys : List UInt8} {p : Nat} {b : UInt8}

theorem At.fits (h : At buf p xs) (some : xs ≠ []) : p + xs.length ≤ buf.length := by
  have length := h.length_le
  have positive := List.length_pos_iff.mpr some
  rw [List.length_drop] at length
  omega

theorem At.left (h : At buf p (xs ++ ys)) : At buf p xs := (List.prefix_append xs ys).trans h

theorem At.right (h : At buf p (xs ++ ys)) : At buf (p + xs.length) ys := by
  obtain ⟨rest, same⟩ := h
  refine ⟨rest, ?_⟩
  rw [← List.drop_drop, ← same, List.append_assoc, List.drop_left]

theorem At.getD (h : At buf p (b :: xs)) : buf.getD p 0 = b := by
  obtain ⟨rest, same⟩ := h
  have first : (buf.drop p)[0]? = some b := by rw [← same]; rfl
  rw [List.getElem?_drop, Nat.add_zero] at first
  rw [List.getD_eq_getElem?_getD, first]
  rfl

theorem At.byteAt (h : At buf p (b :: xs)) : byteAt buf p = .ok b.toNat := by
  have fits := h.fits (List.cons_ne_nil b xs)
  rw [byteAt_eq (by rw [List.length_cons] at fits; omega), h.getD]

theorem At.field16 {n : Nat} (h : At buf p (htons n)) (small : n < 2 ^ 16) : field16 buf p = n := by
  have bytes : At buf p ([.ofNat (n / 256)] ++ [.ofNat n]) := h
  have second : At buf (p + 1) [.ofNat n] := bytes.right
  rw [DnsRecords.field16, h.getD, second.getD, UInt8.toNat_ofNat', UInt8.toNat_ofNat']
  omega

theorem At.bytesAt (h : At buf p xs) (fits : p + xs.length ≤ buf.length) :
    bytesAt buf p xs.length = .ok xs := by
  unfold DnsUtils.bytesAt
  rw [if_pos fits, List.prefix_iff_eq_take.mp h]
  simp

end At

/-! ## Reading what was written -/

section Reading
variable {buf : List UInt8} {p : Nat}

theorem label_byte (l : WireLabel) (rest : List UInt8) (h : At buf p (l.encode ++ rest)) :
    Label buf p l.val.length := by
  have table : ∀ i : Fin 64, i.val &&& 0xC0 = 0 := by decide +kernel
  have bound := l.property.2
  have clear := table ⟨l.val.length, by omega⟩
  have byte : (UInt8.ofNat l.val.length).toNat = l.val.length := by
    rw [UInt8.toNat_ofNat']
    omega
  have bytes : At buf p (.ofNat l.val.length :: (l.val ++ rest)) := h
  refine ⟨byte ▸ bytes.byteAt, Nat.ne_of_gt l.property.1, ?_⟩
  rw [show l.val.length &&& 0xC0 = 0 from clear]
  decide

/-- The loop reads an encoded name up to its last byte. -/
theorem name_read (ending : Ending) (labels : List WireLabel) (small : buf.length ≤ intMax)
    (h : At buf p (labels.flatMap WireLabel.encode ++ ending.encode)) :
    NameInside buf p ∧ ∃ e, NameEnd buf p e ∧
      e + 1 = p + (labels.flatMap WireLabel.encode ++ ending.encode).length := by
  induction labels generalizing p with
  | nil =>
      have fits := h.fits (by cases ending <;> exact List.cons_ne_nil _ _)
      have stops : ∃ e, Stops buf p e ∧ e + 1 = p + ending.encode.length := by
        cases ending with
        | root => exact ⟨p, .inl ⟨h.byteAt, rfl⟩, rfl⟩
        | pointer high low =>
            refine ⟨p + 1, .inr ⟨_, h.byteAt, ?_, high.property, rfl⟩, rfl⟩
            intro zero
            have top := high.property
            rw [zero] at top
            cases top
      obtain ⟨e, stops, length⟩ := stops
      refine ⟨nameInside_stop ?_ stops.not_label, e, (nameEnd_stop stops.not_label).mpr stops, length⟩
      have some : 0 < ending.encode.length := by cases ending <;> exact Nat.succ_pos _
      simp only [List.flatMap_nil, List.nil_append] at fits
      omega
  | cons l labels ih =>
      rw [List.flatMap_cons, List.append_assoc] at h ⊢
      have at' := label_byte l _ h
      have width : l.encode.length = 1 + l.val.length := Nat.add_comm _ _
      have later := h.right
      rw [width, ← Nat.add_assoc] at later
      obtain ⟨inside, e, ends, length⟩ := ih later
      have fits : p + 1 + l.val.length ≤ buf.length := by
        have whole := h.left.fits (List.cons_ne_nil _ _)
        omega
      refine ⟨(nameInside_label at').mpr ⟨Nat.le_trans fits small, fun _ => inside⟩, e,
        (nameEnd_label at').mpr ⟨fits, ends⟩, ?_⟩
      rw [length, @List.length_append _ l.encode, width]
      omega

theorem Data.length_lt (d : Data) : d.bytes.length < 2 ^ 16 := by
  cases d with
  | a addr => exact addr.property.symm ▸ (by decide : 4 < 2 ^ 16)
  | aaaa addr => exact addr.property.symm ▸ (by decide : 16 < 2 ^ 16)
  | other _ data => exact data.property

theorem Data.type_lt (d : Data) : d.type < 2 ^ 16 := by
  cases d with
  | a _ => exact (by decide : dnsTypeA < 2 ^ 16)
  | aaaa _ => exact (by decide : dnsTypeAAAA < 2 ^ 16)
  | other type _ => exact type.property.1

theorem copyAddress_data (d : Data) {e : Nat} (type : atype buf e = d.type)
    (length : rdlen buf e = d.bytes.length) (h : At buf (e + 11) d.bytes)
    (fits : e + 11 + d.bytes.length ≤ buf.length) :
    copyAddress buf e = .ok (some (d.address, e + 11 + d.bytes.length)) := by
  have copied := h.bytesAt fits
  unfold copyAddress
  rw [type, length]
  cases d with
  | a addr =>
      rw [show (Data.a addr).bytes.length = 4 from addr.property] at *
      rw [if_pos (show (Data.a addr).type = dnsTypeA from rfl), copied]
      rfl
  | aaaa addr =>
      rw [show (Data.aaaa addr).bytes.length = 16 from addr.property] at *
      have other : ¬ (Data.aaaa addr).type = dnsTypeA := (by decide : ¬ dnsTypeAAAA = dnsTypeA)
      rw [if_neg other, if_pos (show (Data.aaaa addr).type = dnsTypeAAAA from rfl), copied]
      rfl
  | other t data =>
      rw [if_neg (show ¬ (Data.other t data).type = dnsTypeA from t.property.2.1),
        if_neg (show ¬ (Data.other t data).type = dnsTypeAAAA from t.property.2.2)]
      rfl

/-- A round reads an encoded record. -/
theorem record_read (r : Record) (small : buf.length ≤ intMax) (h : At buf p r.encode) :
    readAnswer buf p = .ok (some (r.data.address, p + r.encode.length)) := by
  have whole := h.fits fun none => by
    have name : r.name.encode = [] := (List.append_eq_nil_iff.mp none).1
    have ending : r.name.ending.encode = [] := (List.append_eq_nil_iff.mp name).2
    cases shown : r.name.ending <;> rw [shown] at ending <;> cases ending
  obtain ⟨inside, e, ends, length⟩ := name_read r.name.ending r.name.labels small h.left
  have found := readName_end small inside ends
  have type16 := h.right
  rw [Name.encode, ← length] at type16
  have ttl := type16.right
  have len16 := ttl.right
  have data := len16.right
  have six : r.classTtl.val.length = 6 := r.classTtl.property
  have at9 : e + 1 + (htons r.data.type).length + r.classTtl.val.length = e + 9 := by
    rw [six]
    rfl
  rw [at9] at len16 data
  have total : p + r.encode.length = e + 11 + r.data.bytes.length := by
    have name : r.name.encode.length + p = e + 1 := by rw [Nat.add_comm, Name.encode, length]
    simp only [Record.encode, List.length_append, six]
    show p + (r.name.encode.length + (2 + (6 + (2 + _)))) = _
    omega
  rw [total] at whole
  have typed : atype buf e = r.data.type := type16.left.field16 r.data.type_lt
  have sized : rdlen buf e = r.data.bytes.length := len16.left.field16 r.data.length_lt
  rw [readAnswer_complete small found (sized ▸ whole), total]
  exact copyAddress_data r.data typed sized data whole

theorem answers_read (answers : List Record) (small : buf.length ≤ intMax) (retads : List Ipaddr)
    (h : At buf p (answers.flatMap Record.encode)) :
    answerLoop buf answers.length p retads =
      .ok (some (retads ++ answers.filterMap fun r => r.data.address)) := by
  induction answers generalizing p retads with
  | nil =>
      rw [List.filterMap_nil, List.append_nil]
      rfl
  | cons r answers ih =>
      rw [List.flatMap_cons] at h
      rw [List.length_cons, answerLoop, record_read r small h.left, ok_bind]
      simp only
      rw [ih _ h.right, List.append_assoc]
      congr 3
      cases shown : r.data.address <;> simp [shown]

end Reading

/-- For every well-formed response: the parser returns 0 and exactly the addresses of its A
and AAAA records. -/
theorem parse_returns_addresses (response : Response) :
    codnsParseResponse response.val.encode = .ok (0, some response.val.addresses) := by
  obtain ⟨b, small⟩ := response
  show codnsParseResponse b.encode = .ok (0, some b.addresses)
  have start : At b.encode 0 b.encode := List.prefix_rfl
  have flags := start.right
  rw [b.tid.property, Nat.zero_add] at flags
  have counts : At b.encode 4 _ := flags.right
  have answers : At b.encode 6 _ := counts.right
  have more : At b.encode 8 _ := answers.right
  have question := more.right
  rw [b.moreCounts.property] at question
  have length : 12 ≤ b.encode.length := by
    simp only [Body.encode, List.length_append, b.tid.property, b.moreCounts.property]
    show 12 ≤ 2 + (2 + (2 + (2 + (4 + _))))
    omega
  have bytes : At b.encode 2 ([b.flagsHigh] ++ ([b.flagsLow.val] ++ _)) := flags
  have low : At b.encode 3 ([b.flagsLow.val] ++ _) := bytes.right
  have rcode : field16 b.encode 2 &&& 0x000F = 0 := by
    have bits := b.flagsLow.property
    rw [Nat.and_two_pow_sub_one_eq_mod _ 4] at bits ⊢
    rw [DnsRecords.field16, low.getD]
    omega
  have one : field16 b.encode 4 = 1 := counts.left.field16 (by decide)
  have count : field16 b.encode 6 = b.answers.val.length :=
    answers.left.field16 b.answers.property.2
  obtain ⟨inside, e, ends, after⟩ :=
    name_read b.question.ending b.question.labels small question.left
  have found := readName_end small inside ends
  have tail := question.right
  rw [Name.encode, show 8 + 4 = 12 from rfl, ← after] at tail
  have records : At b.encode (e + 1 + 4) _ := b.typeClass.property ▸ tail.right
  have fits : e + 1 + 4 ≤ b.encode.length := by
    have whole := tail.left.fits (List.length_pos_iff.mp (b.typeClass.property.symm ▸ Nat.succ_pos 3))
    rwa [b.typeClass.property] at whole
  have several := b.answers.property.1
  unfold codnsParseResponse
  rw [if_neg (show ¬ b.encode.length < headerSize from Nat.not_lt.mpr length),
    uint16At_eq (by omega), ok_bind, rcode]
  simp only [ne_eq, not_true_eq_false, if_false]
  rw [uint16At_eq (by omega), ok_bind, one]
  simp only [not_true_eq_false, if_false]
  rw [show headerSize = 8 + 4 from rfl, found, ok_bind]
  simp only
  rw [fits_go small (by omega), fits_go small (by omega), uint16At_eq (by omega), ok_bind, count,
    if_neg (by omega), answers_read _ small [] records.left, ok_bind]
  rfl

end Colinlib.Guarantees.DnsAnswers
