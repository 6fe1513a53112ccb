import Colinlib.Guarantees.DictMap
import Colinlib.Source.DictKeys

/-!
# A dictionary of strings

The dictionary keeps pointers, and its caller changes memory between the calls. As long as
the strings behind the keys that are in the dictionary stay, it is the finite map of the
strings that the calls were made with.
-/
namespace Colinlib.Guarantees.StringKeys
open Colinlib.Theory Colinlib.Theory.CMemory Colinlib.Theory.CStreams Colinlib.Theory.Runs
open Colinlib.Source.Dict Colinlib.Guarantees.DictMap

variable {υ : Type}

/-- A call, or a change of memory between two calls. -/
inductive Act (υ : Type) where
  | call (op : Op Nat υ)
  | change (mem : Memory)

/-- The events are told with the strings that the keys were at the time. -/
structure World (υ : Type) where
  mem : Memory
  dict : Codict Nat υ
  hist : List (Event (List UInt8) υ)

def told (mem : Memory) : Event Nat υ → Event (List UInt8) υ
  | .set a key val => .set a (text mem key) val
  | .del key => .del (text mem key)
  | .clear => .clear
  | .move a head => .move a head

/-- The key that a call is given is a string. -/
def Readable (mem : Memory) : Op Nat υ → Prop
  | .set key _ | .get key | .del key => Terminated mem key
  | .clear | .move _ _ => True

instance (mem : Memory) : (op : Op Nat υ) → Decidable (Readable mem op)
  | .set key _ | .get key | .del key => inferInstanceAs (Decidable (Terminated mem key))
  | .clear | .move _ _ => inferInstanceAs (Decidable True)

/-- The strings behind the keys of the dictionary are the same after the change. -/
def Spares (w : World υ) (mem : Memory) : Prop :=
  ∀ a < w.dict.fresh, ∀ node ∈ w.dict.nodes a,
    Terminated mem node.key ∧ text mem node.key = text w.mem node.key

instance (w : World υ) (mem : Memory) : Decidable (Spares w mem) :=
  inferInstanceAs (Decidable (∀ a < w.dict.fresh, ∀ node ∈ w.dict.nodes a, _))

/-- The callbacks read the memory there is. -/
def reading (mem : Memory) (dict : Codict Nat υ) : Codict Nat υ :=
  { dict with fnHash := codictStrHash mem, fnEqual := codictStrEqual mem }

def step (w : World υ) : Act υ → Except (Halt Fault) (World υ)
  | .call op =>
    if Readable w.mem op then
      match DictMap.step (w.dict, []) op with
      | .ok (dict, events) => .ok { w with dict, hist := events.map (told w.mem) ++ w.hist }
      | .error stop => .error stop
    else .error .contract
  | .change mem =>
    if Spares w mem then .ok { w with mem, dict := reading mem w.dict } else .error .contract

/-- A run from `codict_new(codict_str_hash, codict_str_equal, ..)`. -/
def runStrings (mem : Memory) (acts : List (Act υ)) : Except (Halt Fault) (World υ) :=
  match codictNew (codictStrHash mem) (codictStrEqual mem) with
  | .ok dict => run step ⟨mem, dict, []⟩ acts
  | .error f => .error (.fault f)

/-- An entry with the string of its key. -/
def spoken (mem : Memory) (c : Cell Nat υ) : Cell (List UInt8) υ :=
  ⟨c.addr, text mem c.key, c.value⟩

/-- The entries are those of the abstract dictionary, and their keys are strings. -/
structure Reads (w : World υ) (cells : List (Cell Nat υ)) : Prop where
  hash : w.dict.fnHash = codictStrHash w.mem
  equal : w.dict.fnEqual = codictStrEqual w.mem
  holds : Holds w.dict cells
  spoken : cells.map (spoken w.mem) = DictMap.sequence (· == ·) w.hist
  bound : Bound (· == ·) w.hist
  terminated : ∀ c ∈ cells, Terminated w.mem c.key

section Entries

variable {w : World υ} {cells : List (Cell Nat υ)}

/-- Strings as keys. -/
theorem bytes_equiv : Equivalence (Equal ((· == ·) : List UInt8 → List UInt8 → Bool)) :=
  (lawful_of_beq fun _ : List UInt8 => 0).equiv

theorem Reads.law (h : Reads w cells) : Lawful w.dict.fnHash w.dict.fnEqual := by
  rw [h.hash, h.equal]
  exact codictStr_lawful w.mem

theorem has_spoken {mem : Memory} {key : Nat} :
    Has (· == ·) (text mem key) (cells.map (spoken mem)) ↔ Has (codictStrEqual mem) key cells := by
  constructor
  · rintro ⟨y, hy, same⟩
    obtain ⟨c, hc, rfl⟩ := List.mem_map.mp hy
    exact ⟨c, hc, same⟩
  · rintro ⟨c, hc, same⟩
    exact ⟨spoken mem c, List.mem_map_of_mem hc, same⟩

theorem Reads.distinct (h : Reads w cells) :
    Keyed.Distinct Cell.key (Equal (· == ·)) (DictMap.sequence (· == ·) w.hist) := by
  have distinct := h.holds.distinct
  rw [h.equal] at distinct
  rw [← h.spoken]
  exact List.pairwise_map.mpr distinct

theorem Reads.addrs (h : Reads w cells) :
    addrs (DictMap.sequence (· == ·) w.hist) = addrs cells := by
  rw [← h.spoken]
  simp [Source.Dict.addrs, StringKeys.spoken]

theorem Reads.split (h : Reads w cells) {l r : List (Cell Nat υ)} {c : Cell Nat υ}
    (split : cells = l ++ c :: r) :
    DictMap.sequence (· == ·) w.hist = l.map (StringKeys.spoken w.mem) ++
      StringKeys.spoken w.mem c :: r.map (StringKeys.spoken w.mem) := by
  rw [← h.spoken, split, List.map_append, List.map_cons]

/-- What the dictionary finds under a key is what the strings find. -/
theorem Reads.lookup (h : Reads w cells) (key : Nat) :
    DictMap.lookup (· == ·) (text w.mem key) (DictMap.sequence (· == ·) w.hist) =
      (DictMap.lookup w.dict.fnEqual key cells).map (StringKeys.spoken w.mem) := by
  rw [← h.spoken, h.equal, DictMap.lookup, DictMap.lookup, Keyed.find, Keyed.find, List.find?_map]
  rfl

end Entries

section Steps

variable {w w' : World υ} {cells : List (Cell Nat υ)}

theorem set_reads (h : Reads w cells) {key : Nat} (readable : Terminated w.mem key) (val : υ) :
    ∃ a dict cells', codictSet w.dict key val = .ok (a, dict) ∧
      Reads ⟨w.mem, dict, .set a (text w.mem key) val :: w.hist⟩ cells' := by
  obtain ⟨a, dict, ran, hash, equal, effect⟩ := codictSet_spec h.law h.holds key val
  have bound := bound_set bytes_equiv h.distinct h.bound a (text w.mem key) val
  rw [h.equal] at effect
  rcases effect with ⟨l, c, r, split, same, -, holds⟩ | ⟨absent, holds⟩
  · refine ⟨a, dict, _, ran, hash.trans h.hash, equal.trans h.equal, holds, ?_, bound, ?_⟩
    · have here : Has (· == ·) (text w.mem key) (DictMap.sequence (· == ·) w.hist) := by
        rw [← h.spoken, has_spoken]
        exact ⟨c, by rw [split]; simp, same⟩
      have distinct := h.distinct
      rw [h.split split] at distinct
      rw [sequence_set, if_pos here, h.split split, Keyed.map_split bytes_equiv distinct same, List.map_append,
        List.map_cons]
      rfl
    · intro d inside
      have kept := h.terminated
      rw [split] at kept
      rcases List.mem_append.mp inside with left | right
      · exact kept d (List.mem_append_left _ left)
      · rcases List.mem_cons.mp right with rfl | right
        · exact kept c (by simp)
        · exact kept d (by simp [right])
  · refine ⟨a, dict, _, ran, hash.trans h.hash, equal.trans h.equal, holds, ?_, bound, ?_⟩
    · have new : ¬ Has (· == ·) (text w.mem key) (DictMap.sequence (· == ·) w.hist) := by
        rw [← h.spoken, has_spoken]
        exact absent
      rw [sequence_set, if_neg new, ← h.spoken, List.map_append]
      rfl
    · intro d inside
      rcases List.mem_append.mp inside with old | fresh
      · exact h.terminated d old
      · obtain rfl := List.mem_singleton.mp fresh
        exact readable

theorem del_reads (h : Reads w cells) (key : Nat) :
    ∃ b dict cells', codictDel w.dict key = .ok (b, dict) ∧
      Reads ⟨w.mem, dict, .del (text w.mem key) :: w.hist⟩ cells' := by
  obtain ⟨b, dict, ran, hash, equal, effect⟩ := codictDel_spec h.law h.holds key
  have bound := bound_del bytes_equiv h.distinct h.bound (text w.mem key)
  rw [h.equal] at effect
  rcases effect with ⟨-, l, c, r, split, same, holds⟩ | ⟨-, absent, rfl⟩
  · refine ⟨b, dict, _, ran, hash.trans h.hash, equal.trans h.equal, holds, ?_, bound, ?_⟩
    · have distinct := h.distinct
      rw [h.split split] at distinct
      rw [sequence_del, h.split split, Keyed.without_split bytes_equiv distinct same,
        List.map_append]
    · intro d inside
      refine h.terminated d ?_
      rw [split]
      exact List.mem_append.mpr ((List.mem_append.mp inside).imp_right (List.mem_cons_of_mem c))
  · refine ⟨b, w.dict, cells, ran, h.hash, h.equal, h.holds, ?_, bound, h.terminated⟩
    have none : ¬ Has (· == ·) (text w.mem key) (DictMap.sequence (· == ·) w.hist) := by
      rw [← h.spoken, has_spoken]
      exact absent
    rw [sequence_del, Keyed.without_absent none, h.spoken]

theorem move_reads (h : Reads w cells) {a : Nat} (live : (w.dict.nodes a).isSome) (head : Bool) :
    ∃ dict cells', codictMove w.dict a head = .ok dict ∧
      Reads ⟨w.mem, dict, .move a head :: w.hist⟩ cells' := by
  obtain ⟨node, found⟩ := Option.isSome_iff_exists.mp live
  obtain ⟨c, hc, rfl, -⟩ := h.holds.entry found
  obtain ⟨l, r, split⟩ := List.append_of_mem hc
  have holds := h.holds
  rw [split] at holds
  obtain ⟨dict, ran, hash, equal, holds'⟩ := codictMove_holds h.law.equiv holds head
  have once : (addrs (DictMap.sequence (· == ·) w.hist)).Nodup := by
    rw [h.addrs]
    exact h.holds.nodup
  refine ⟨dict, _, ran, hash.trans h.hash, equal.trans h.equal, holds', ?_,
    bound_move bytes_equiv h.distinct once h.bound c.addr head, ?_⟩
  · have distinct := addr_distinct once
    rw [h.split split] at distinct
    have same : c.addr = (spoken w.mem c).addr := rfl
    rw [sequence_move, h.split split]
    simp only [moved]
    rw [Keyed.find_split eq_equivalence distinct same,
      Keyed.without_split eq_equivalence distinct same]
    cases head <;> simp
  · intro d kept
    refine h.terminated d ?_
    rw [split]
    cases head <;> simpa [or_comm, or_left_comm] using kept

theorem call_reads (h : Reads w cells) (op : Op Nat υ) :
    Outcome Halt.ByCaller (fun w' => ∃ cells', Reads w' cells') (step w (.call op)) := by
  rw [step]
  split
  · next readable =>
    cases op with
    | set key val =>
        obtain ⟨a, dict, cells', ran, reads⟩ := set_reads h readable val
        simp only [DictMap.step, ran]
        exact ⟨cells', reads⟩
    | get key =>
        rcases codictGet_spec h.law h.holds key with ⟨ran, -⟩ | ⟨_, c, _, ran, -⟩ <;>
        · simp only [DictMap.step, ran]
          exact ⟨cells, h⟩
    | del key =>
        obtain ⟨b, dict, cells', ran, reads⟩ := del_reads h key
        simp only [DictMap.step, ran]
        exact ⟨cells', reads⟩
    | clear =>
        obtain ⟨dict, ran, hash, equal, holds⟩ := codictClear_spec h.holds
        simp only [DictMap.step, ran]
        exact ⟨[], hash.trans h.hash, equal.trans h.equal, holds, rfl, fun _ => rfl, by simp⟩
    | move a head =>
        rw [DictMap.step]
        by_cases live : (w.dict.nodes a).isSome
        · obtain ⟨dict, cells', ran, reads⟩ := move_reads h live head
          rw [if_pos live, ran]
          exact ⟨cells', reads⟩
        · rw [if_neg live]
          trivial
  · trivial

/-- Memory changes, the strings of the keys do not. -/
theorem change_reads (h : Reads w cells) {mem : Memory} (spares : Spares w mem) :
    Reads { w with mem, dict := reading mem w.dict } cells := by
  have kept : ∀ c ∈ cells, Terminated mem c.key ∧ text mem c.key = text w.mem c.key := by
    intro c hc
    obtain ⟨node, found, key, -⟩ := h.holds.node hc
    have low := h.holds.fresh c.addr (mem_addrs.mpr ⟨c, hc, rfl⟩)
    have spared := spares c.addr low node found
    rwa [key] at spared
  have holds := h.holds
  refine ⟨rfl, rfl, ⟨holds.list, ?_, holds.owned, ?_, ?_, holds.count, holds.fresh⟩, ?_, h.bound,
    fun c hc => (kept c hc).1⟩
  · intro c hc
    have load := holds.payload c hc
    rw [h.hash] at load
    have same : codictStrHash mem c.key = codictStrHash w.mem c.key := by
      rw [codictStrHash, codictStrHash, (kept c hc).2]
    change payloadOf w.dict c.addr = some ⟨c.key, c.value, codictStrHash mem c.key⟩
    rw [load, same]
  · exact holds.chains.congr rfl rfl fun _ _ => ⟨rfl, rfl⟩
  · have distinct := holds.distinct
    rw [h.equal] at distinct
    refine List.Pairwise.imp_of_mem ?_ distinct
    intro x y hx hy apart same
    have same : text mem x.key = text mem y.key := beq_iff_eq.mp same
    rw [(kept x hx).2, (kept y hy).2] at same
    exact apart (beq_iff_eq.mpr same)
  · have same : cells.map (spoken mem) = cells.map (spoken w.mem) :=
      List.map_congr_left fun c hc => by rw [spoken, spoken, (kept c hc).2]
    exact same.trans h.spoken

theorem step_reads (w : World υ) (act : Act υ) (h : ∃ cells, Reads w cells) :
    Outcome Halt.ByCaller (fun w' => ∃ cells, Reads w' cells) (step w act) := by
  obtain ⟨cells, reads⟩ := h
  cases act with
  | call op => exact call_reads reads op
  | change mem =>
      rw [step]
      split
      · next spares => exact ⟨cells, change_reads reads spares⟩
      · trivial

theorem runStrings_reads (mem : Memory) (acts : List (Act υ)) :
    Outcome Halt.ByCaller (fun w => ∃ cells, Reads w cells) (runStrings mem acts) := by
  obtain ⟨dict, new, hash, equal, holds⟩ :=
    codictNew_spec (υ := υ) (codictStrHash mem) (codictStrEqual mem)
  rw [runStrings, new]
  exact outcome_run step Halt.ByCaller _ step_reads acts _
    ⟨[], hash, equal, holds, rfl, fun _ => rfl, by simp⟩

end Steps

/-- The strings that the calls were made with are bound to their latest values. -/
structure MapOfStrings (w : World υ) : Prop where
  get : ∀ str val, Terminated w.mem str →
    latest (· == ·) w.hist (text w.mem str) = some val → ∃ a node,
      codictGet w.dict str = .ok (some a) ∧ w.dict.nodes a = some node ∧ node.value = val ∧
        text w.mem node.key = text w.mem str
  get_none : ∀ str, Terminated w.mem str →
    latest (· == ·) w.hist (text w.mem str) = none → codictGet w.dict str = .ok none
  node : ∀ a node, w.dict.nodes a = some node → Terminated w.mem node.key ∧
    node.hash = codictStrHash w.mem node.key ∧ codictGet w.dict node.key = .ok (some a)
  count : ∃ strings, KeysOf (· == ·) w.hist strings ∧
    codictCount w.dict = strings.length % 2 ^ 32

section Reading

variable {w : World υ} {cells : List (Cell Nat υ)}

theorem Reads.latest (h : Reads w cells) (str : Nat) : latest (· == ·) w.hist (text w.mem str) =
    (DictMap.lookup w.dict.fnEqual str cells).map Cell.value := by
  rw [h.bound, h.lookup, Option.map_map]
  rfl

theorem Reads.keysOf (h : Reads w cells) :
    KeysOf (· == ·) w.hist (cells.map fun c => text w.mem c.key) where
  distinct := by
    have distinct := h.holds.distinct
    rw [h.equal] at distinct
    exact List.pairwise_map.mpr distinct
  present x := by
    have keys : cells.map (fun c => text w.mem c.key) =
        (DictMap.sequence (· == ·) w.hist).map Cell.key := by
      rw [← h.spoken, List.map_map]
      rfl
    rw [h.bound x, keys]
    rcases h.distinct.cases bytes_equiv x with ⟨l, c, r, split, same, found⟩ | ⟨absent, found⟩
    · rw [DictMap.lookup, found]
      exact iff_of_true rfl ⟨c.key, by rw [split]; simp, same⟩
    · rw [DictMap.lookup, found]
      refine iff_of_false (by simp) ?_
      rintro ⟨k, hk, same⟩
      obtain ⟨c, hc, rfl⟩ := List.mem_map.mp hk
      exact absent ⟨c, hc, same⟩

theorem Reads.mapOfStrings (h : Reads w cells) : MapOfStrings w where
  get str val _ now := by
    rw [h.latest str] at now
    rcases h.holds.distinct.cases h.law.equiv str with ⟨l, c, r, split, same, found⟩ | ⟨-, found⟩
    · rw [DictMap.lookup, found] at now
      have hc : c ∈ cells := by
        rw [split]
        simp
      obtain ⟨node, live, key, value⟩ := h.holds.node hc
      refine ⟨c.addr, node, ?_, live, value.trans (Option.some.inj now), ?_⟩
      · rw [codictGet_eq h.law h.holds, DictMap.lookup, found]
        rfl
      · rw [h.equal] at same
        rw [key]
        exact (beq_iff_eq.mp same).symm
    · rw [DictMap.lookup, found] at now
      cases now
  get_none str _ now := by
    rw [h.latest str, Option.map_eq_none_iff] at now
    rw [codictGet_eq h.law h.holds, now]
    rfl
  node a node live := by
    obtain ⟨c, hc, rfl, key, -, hash⟩ := h.holds.entry live
    obtain ⟨l, r, split⟩ := List.append_of_mem hc
    have holds := h.holds
    rw [split] at holds
    have mine : w.dict.fnEqual node.key c.key = true := by
      rw [key]
      exact h.law.equiv.refl node.key
    refine ⟨key ▸ h.terminated c hc, h.hash ▸ hash, ?_⟩
    rw [codictGet_eq h.law holds, DictMap.lookup,
      Keyed.find_split h.law.equiv holds.distinct mine]
    rfl
  count := ⟨_, h.keysOf, by rw [List.length_map]; exact h.holds.count⟩

end Reading

/-- **A map of strings.** After any calls, and any changes of memory between them that spare the
strings behind the keys in the dictionary, a string is found under whatever pointer it is asked
for, with the value it was set to last, and every node is found under its own key. -/
theorem string_keys_refine_map (mem : Memory) (acts : List (Act υ)) :
    Outcome Halt.ByCaller MapOfStrings (runStrings mem acts) :=
  (runStrings_reads mem acts).mono fun _ ⟨_, reads⟩ => reads.mapOfStrings

/-- **One byte counts.** Two strings that differ in one byte have the same hash exactly if this
byte is not hashed; of a string that `int` can count, all are. -/
theorem codictStrHash_one_byte {mem : Memory} {key1 key2 : Nat} {pre post : List UInt8}
    {byte byte' : UInt8} (first : text mem key1 = pre ++ byte :: post)
    (second : text mem key2 = pre ++ byte' :: post) (other : byte ≠ byte') :
    codictStrHash mem key1 = codictStrHash mem key2 ↔
      hashedSize (text mem key1).length ≤ pre.length := by
  have lengths : (text mem key2).length = (text mem key1).length := by
    rw [first, second]
    simp
  rw [codictStrHash, codictStrHash, lengths]
  generalize hashedSize (text mem key1).length = size
  rw [first, second]
  constructor
  · intro collide
    by_contra beyond
    obtain ⟨more, rfl⟩ : ∃ more, size = pre.length + (more + 1) := ⟨size - pre.length - 1, by omega⟩
    rw [List.take_length_add_append, List.take_length_add_append, List.take_succ_cons,
      List.take_succ_cons] at collide
    exact codictFnv1a64Hash_one_byte pre (post.take more) other collide
  · intro inside
    rw [List.take_append_of_le_length inside, List.take_append_of_le_length inside]

/-- The strings `ab` and `ac`. -/
theorem codictStrHash_one_byte_short :
    codictStrHash [97, 98, 0, 97, 99, 0] 0 = codictStrHash [97, 98, 0, 97, 99, 0] 3 ↔ 2 ≤ 1 := by
  have first : text [97, 98, 0, 97, 99, 0] 0 = [97] ++ 98 :: [] := by decide
  have second : text [97, 98, 0, 97, 99, 0] 3 = [97] ++ 99 :: [] := by decide
  exact codictStrHash_one_byte first second (by decide)

end Colinlib.Guarantees.StringKeys
