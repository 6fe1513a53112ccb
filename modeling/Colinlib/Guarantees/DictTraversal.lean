import Colinlib.Guarantees.DictMap

/-!
# The traversal order of the dictionary

The loop from `codict_begin` by `codict_next` passes the entries of the abstract
sequence: new keys at the end, set keys in their place, moved nodes first or last.
The loop from `codict_end` by `codict_prev` passes them the other way round.
-/
namespace Colinlib.Guarantees.DictTraversal
open Colinlib.Theory Colinlib.Theory.CMemory Colinlib.Theory.Chains Colinlib.Theory.Runs
open Colinlib.Source.Dict Colinlib.Guarantees.DictMap

variable {κ υ : Type}

/-- The nodes a loop passes that starts at `node` and goes on by `next`. -/
def traverse (next : Nat → Except Fault (Option Nat)) : Nat → Option Nat → Except Fault (List Nat)
  | _, none => .ok []
  | 0, some _ => .error .starved
  | fuel + 1, some node => do
    let after ← next node
    let rest ← traverse next fuel after
    .ok (node :: rest)

theorem traverse_chain {next : Nat → Except Fault (Option Nat)} {link : Nat → Option Nat}
    {start : Option Nat} {xs : List Nat} (chain : Chain link start xs)
    (reads : ∀ a ∈ xs, next a = .ok (link a)) : traverse next xs.length start = .ok xs := by
  induction xs generalizing start with
  | nil =>
      obtain rfl : start = none := chain
      rfl
  | cons x rest ih =>
      obtain rfl := chain.1
      rw [List.length_cons, traverse, reads x (by simp), ok_bind,
        ih chain.2 fun a ha => reads a (by simp [ha]), ok_bind]

/-- The dictionary's two structures have the nodes of `cells`: the traversal list in
their order, forwards and backwards, and the bucket chains each node once. -/
structure Traversed (dict : Codict κ υ) (cells : List (Cell κ υ)) : Prop where
  forward : traverse (codictNext dict) cells.length (codictBegin dict) = .ok (addrs cells)
  backward : traverse (codictPrev dict) cells.length (codictEnd dict) = .ok (addrs cells).reverse
  once : (addrs cells).Nodup
  content : ∀ c ∈ cells, ∃ node, dict.nodes c.addr = some node ∧ node.key = c.key ∧
    node.value = c.value
  buckets : ∃ table : List (List Nat), table.length = dict.cap ∧
    (∀ i ys, table[i]? = some ys → Bucket dict i ys) ∧ table.flatten.Perm (addrs cells)

section Reading

variable {dict : Codict κ υ} {cells : List (Cell κ υ)}

theorem codictNext_ok {a : Nat} (live : Alloc dict a) :
    codictNext dict a = .ok ((linksOf dict).next a) := by
  obtain ⟨node, found, -, -, next, -⟩ := live.node
  rw [codictNext, deref_ok found, ok_bind, next]

theorem codictPrev_ok {a : Nat} (live : Alloc dict a) :
    codictPrev dict a = .ok ((linksOf dict).prev a) := by
  obtain ⟨node, found, -, prev, -, -⟩ := live.node
  rw [codictPrev, deref_ok found, ok_bind, prev]

/-- The chains of the buckets, put together, are the nodes. -/
theorem buckets_perm (h : Holds dict cells) : ∃ table : List (List Nat),
    table.length = dict.cap ∧ (∀ i ys, table[i]? = some ys → Bucket dict i ys) ∧
      table.flatten.Perm (addrs cells) := by
  have chosen : ∀ i, ∃ ys, i < dict.cap → Bucket dict i ys ∧
      ∀ a, a ∈ ys ↔ a ∈ addrs cells ∧ slotOf dict a = some i := by
    intro i
    by_cases hi : i < dict.cap
    · obtain ⟨ys, bucket⟩ := h.chains.bucket i hi
      exact ⟨ys, fun _ => bucket⟩
    · exact ⟨[], fun h => absurd h hi⟩
  choose chain spec using chosen
  refine ⟨(List.range dict.cap).map chain, by simp, ?_, ?_⟩
  · intro i ys found
    obtain ⟨bound, rfl⟩ := List.getElem?_eq_some_iff.mp found
    rw [List.length_map, List.length_range] at bound
    simpa using (spec i bound).1
  · have members : ∀ i < dict.cap, ∀ a, a ∈ chain i ↔ a ∈ addrs cells ∧ slotOf dict a = some i :=
      fun i hi => (spec i hi).2
    refine (List.perm_ext_iff_of_nodup ?_ h.nodup).mpr fun a => ?_
    · refine List.nodup_flatten.mpr ⟨?_, ?_⟩
      · intro ys hys
        obtain ⟨i, hi, rfl⟩ := List.mem_map.mp hys
        have bucket := (spec i (List.mem_range.mp hi)).1
        exact (bucket.chain _ (List.getElem?_eq_getElem bucket.bound)).nodup
      · refine List.pairwise_map.mpr (List.nodup_range.imp_of_mem ?_)
        intro i j hi hj ne a hai haj
        have slot := ((members i (List.mem_range.mp hi) a).mp hai).2
        have slot' := ((members j (List.mem_range.mp hj) a).mp haj).2
        exact ne (Option.some.inj (slot.symm.trans slot'))
    · rw [List.mem_flatten]
      constructor
      · rintro ⟨ys, hys, ha⟩
        obtain ⟨i, hi, rfl⟩ := List.mem_map.mp hys
        exact ((members i (List.mem_range.mp hi) a).mp ha).1
      · intro ha
        obtain ⟨c, hc, rfl⟩ := mem_addrs.mp ha
        have slot := h.slot hc
        have hi := slotOf_lt h.chains.pos slot
        exact ⟨_, List.mem_map_of_mem (List.mem_range.mpr hi), (members _ hi _).mpr ⟨ha, slot⟩⟩

theorem traversed_of_holds (h : Holds dict cells) : Traversed dict cells where
  forward := by
    rw [← List.length_map Cell.addr]
    exact traverse_chain h.list.forward fun a ha => codictNext_ok (h.live a ha)
  backward := by
    rw [← List.length_map Cell.addr, ← List.length_reverse]
    exact traverse_chain h.list.backward fun a ha =>
      codictPrev_ok (h.live a (List.mem_reverse.mp ha))
  once := h.nodup
  content c hc := h.node hc
  buckets := buckets_perm h

end Reading

/-- After any operations the dictionary is traversed in the order its history says,
whatever its capacity. -/
theorem codict_traversal (fnHash : κ → UInt64) (fnEqual : κ → κ → Bool)
    (law : Lawful fnHash fnEqual) (ops : List (Op κ υ)) :
    Outcome Halt.ByCaller (fun w => Traversed w.1 (sequence fnEqual w.2))
      (runNew fnHash fnEqual ops) :=
  (runNew_tracks law ops).mono fun _ h => traversed_of_holds h.holds

/-- The last of three nodes is moved to the head, and then the first to the end. -/
theorem codict_traversal_integers :
    Lawful codictIntHash codictIntEqual ∧
    Outcome Halt.ByCaller (fun w => Traversed w.1 (sequence codictIntEqual w.2))
      (runNew codictIntHash codictIntEqual
        [.set 1 10, .set 2 30, .set 3 50, .move 2 true, .move 0 false, .del 2] :
          Except (Halt Fault) (World Int32 Nat)) :=
  ⟨codictInt_lawful, codict_traversal _ _ codictInt_lawful _⟩

end Colinlib.Guarantees.DictTraversal
