import Colinlib.Source.DictBuckets
import Colinlib.Theory.Keyed

/-!
# What each operation does to the dictionary's contents

The contents are the nodes in the order of the traversal list, each with its key
and value. The specs of the operations are about them; the two structures over the
nodes are kept in agreement with them.
-/
namespace Colinlib.Source.Dict
open Colinlib.Theory Colinlib.Theory.CMemory Colinlib.Theory.Chains

variable {κ υ : Type}

/-- The contract of the two callbacks. -/
structure Lawful (fnHash : κ → UInt64) (fnEqual : κ → κ → Bool) : Prop where
  equiv : Equivalence fun x y => fnEqual x y = true
  hash : ∀ x y, fnEqual x y = true → fnHash x = fnHash y

/-- Keys that are compared as values: equal ones are the same. -/
theorem lawful_of_beq {κ : Type} [BEq κ] [LawfulBEq κ] (fnHash : κ → UInt64) :
    Lawful fnHash (· == ·) where
  equiv := ⟨fun x => beq_self_eq_true x, fun h => beq_iff_eq.mpr (beq_iff_eq.mp h).symm,
    fun h h' => beq_iff_eq.mpr ((beq_iff_eq.mp h).trans (beq_iff_eq.mp h'))⟩
  hash x y h := by rw [show x = y from beq_iff_eq.mp h]

structure Cell (κ υ : Type) where
  addr : Nat
  key : κ
  value : υ

def addrs (cells : List (Cell κ υ)) : List Nat := cells.map Cell.addr

abbrev Equal (fnEqual : κ → κ → Bool) (x y : κ) : Prop := fnEqual x y = true

abbrev Has (fnEqual : κ → κ → Bool) (k : κ) (cells : List (Cell κ υ)) : Prop :=
  Keyed.Has Cell.key (Equal fnEqual) k cells

/-- A dictionary between operations: `cells` are its contents. -/
structure Holds (dict : Codict κ υ) (cells : List (Cell κ υ)) : Prop where
  list : (linksOf dict).Holds (addrs cells)
  payload : ∀ c ∈ cells, payloadOf dict c.addr = some ⟨c.key, c.value, dict.fnHash c.key⟩
  owned : ∀ a, Alloc dict a → a ∈ addrs cells
  chains : Bucketed dict (· ∈ addrs cells)
  distinct : Keyed.Distinct Cell.key (Equal dict.fnEqual) cells
  count : dict.count = cells.length % 2 ^ 32
  fresh : ∀ a ∈ addrs cells, a < dict.fresh

variable {dict dict' : Codict κ υ} {cells l r : List (Cell κ υ)} {c : Cell κ υ} {k : κ}

theorem mem_addrs {a : Nat} : a ∈ addrs cells ↔ ∃ c ∈ cells, c.addr = a := List.mem_map

theorem Holds.live (h : Holds dict cells) : ∀ a ∈ addrs cells, Alloc dict a := by
  intro a ha none
  obtain ⟨c, hc, rfl⟩ := mem_addrs.mp ha
  rw [h.payload c hc] at none
  cases none

theorem Holds.listed (h : Holds dict cells) : Listed dict (addrs cells) := ⟨h.list, h.live⟩

theorem Holds.nodup (h : Holds dict cells) : (addrs cells).Nodup := Chain.nodup h.list.forward

theorem Holds.length_le (h : Holds dict cells) : (addrs cells).length ≤ dict.fresh :=
  length_le_of_lt h.nodup h.fresh

theorem Holds.slot (h : Holds dict cells) (hc : c ∈ cells) :
    slotOf dict c.addr = some ((dict.fnHash c.key).toNat % dict.cap) := by
  rw [slotOf, h.payload c hc]
  rfl

/-- A live node is an entry. -/
theorem Holds.entry (h : Holds dict cells) {a : Nat}
    {node : Node κ υ} (found : dict.nodes a = some node) :
    ∃ c ∈ cells, c.addr = a ∧ c.key = node.key ∧ c.value = node.value ∧
      node.hash = dict.fnHash node.key := by
  have load : payloadOf dict a = some node.payload := by rw [payloadOf, found]; rfl
  have live : Alloc dict a := by
    unfold Alloc
    rw [load]
    simp
  obtain ⟨c, hc, rfl⟩ := mem_addrs.mp (h.owned a live)
  have same := Option.some.inj ((h.payload c hc).symm.trans load)
  cases node
  cases same
  exact ⟨c, hc, rfl, rfl, rfl, rfl⟩

theorem Holds.node (h : Holds dict cells) (hc : c ∈ cells) :
    ∃ node, dict.nodes c.addr = some node ∧ node.key = c.key ∧ node.value = c.value := by
  obtain ⟨node, found, -, -, -, load⟩ := (h.live c.addr (mem_addrs.mpr ⟨c, hc, rfl⟩)).node
  have same := Option.some.inj ((h.payload c hc).symm.trans load)
  cases node
  cases same
  exact ⟨_, found, rfl, rfl⟩

/-- `count` is not read by the two structures. -/
theorem holds_recount {n : Nat} (list : (linksOf dict).Holds (addrs cells))
    (payload : ∀ c ∈ cells, payloadOf dict c.addr = some ⟨c.key, c.value, dict.fnHash c.key⟩)
    (owned : ∀ a, Alloc dict a → a ∈ addrs cells) (chains : Bucketed dict (· ∈ addrs cells))
    (distinct : Keyed.Distinct Cell.key (Equal dict.fnEqual) cells)
    (fresh : ∀ a ∈ addrs cells, a < dict.fresh) (count : n = cells.length % 2 ^ 32) :
    Holds { dict with count := n } cells :=
  ⟨list, payload, owned, chains.congr rfl rfl fun _ _ => ⟨rfl, rfl⟩, distinct, count, fresh⟩

section Resizing

/-- At most the buckets, their number and the bucket links changed. -/
structure Resized (dict dict' : Codict κ υ) : Prop where
  fnHash : dict'.fnHash = dict.fnHash
  fnEqual : dict'.fnEqual = dict.fnEqual
  count : dict'.count = dict.count
  fresh : dict'.fresh = dict.fresh
  links : linksOf dict' = linksOf dict
  payload : payloadOf dict' = payloadOf dict

theorem nextCap_pos (cap : Nat) : 0 < nextCap cap := by
  unfold nextCap
  split
  · next size found =>
    have := List.find?_some found
    simp only [decide_eq_true_eq] at this
    omega
  · decide

theorem empty_bucketed (dict : Codict κ υ) {cap : Nat} (pos : 0 < cap) :
    Bucketed { dict with cap, buckets := List.replicate cap none } (· ∈ ([] : List Nat)) := by
  refine ⟨pos, List.length_replicate, fun i hi => ⟨[], ⟨?_, ?_⟩, by simp⟩⟩
  · simpa using hi
  · intro head hhead
    rw [List.getElem?_replicate_of_lt hi] at hhead
    obtain rfl := Option.some.inj hhead
    rfl

/-- The table is as it was, or rebuilt from the traversal list. -/
theorem _checkAndResize_spec {xs : List Nat} (list : Listed dict xs)
    (few : xs.length ≤ dict.fresh)
    (table : 3 * dict.cap ≤ 4 * dict.count ∨ Bucketed dict (· ∈ xs)) :
    ∃ dict', _checkAndResize dict = .ok dict' ∧ Resized dict dict' ∧ Bucketed dict' (· ∈ xs) := by
  unfold _checkAndResize
  split
  · obtain ⟨d, run, same, bucketed⟩ := rehashLoop_spec dict.fresh
      (empty_bucketed dict (nextCap_pos dict.cap)) (Chain.nodup list.holds.forward)
      list.holds.forward list.live few
    refine ⟨d, run, ⟨same.fnHash, same.fnEqual, same.count, same.fresh, same.links, same.payload⟩,
      bucketed⟩
  · next full =>
    exact ⟨dict, rfl, ⟨rfl, rfl, rfl, rfl, rfl, rfl⟩, table.resolve_left full⟩

theorem codictNew_spec (fnHash : κ → UInt64) (fnEqual : κ → κ → Bool) :
    ∃ dict : Codict κ υ, codictNew fnHash fnEqual = .ok dict ∧ dict.fnHash = fnHash ∧
      dict.fnEqual = fnEqual ∧ Holds dict [] := by
  have list : Listed (blank fnHash fnEqual : Codict κ υ) [] := ⟨⟨rfl, rfl⟩, by simp⟩
  obtain ⟨d, run, same, bucketed⟩ :=
    _checkAndResize_spec list (Nat.zero_le _) (.inl (Nat.le_refl _))
  refine ⟨d, run, same.fnHash, same.fnEqual, ⟨?_, by simp, ?_, bucketed, List.Pairwise.nil,
    same.count, by simp [addrs]⟩⟩
  · rw [same.links]
    exact ⟨rfl, rfl⟩
  · intro a live
    unfold Alloc at live
    rw [same.payload] at live
    exact absurd rfl live

end Resizing

section Search

/-- The search of a key in its bucket, as `codict_get` and `codict_del` make it. -/
theorem search_spec (law : Lawful dict.fnHash dict.fnEqual) (h : Holds dict cells) (k : κ) :
    ∃ idx head, slot dict (dict.fnHash k) = .ok idx ∧ getBucket dict idx = .ok head ∧
      ((¬ Has dict.fnEqual k cells ∧
          ∃ last, delLoop dict (dict.fnHash k) k dict.fresh none head = .ok (last, none)) ∨
        ∃ l c r before after, cells = l ++ c :: r ∧ dict.fnEqual k c.key = true ∧
          slotOf dict c.addr = some idx ∧ Chain (nextOf dict) head (before ++ c.addr :: after) ∧
          (∀ a, a ∈ before ++ c.addr :: after ↔ a ∈ addrs cells ∧ slotOf dict a = some idx) ∧
          delLoop dict (dict.fnHash k) k dict.fresh none head =
            .ok (before.getLast?, some c.addr)) := by
  have pos := h.chains.pos
  obtain ⟨head, ys, got, chain, members⟩ :=
    h.chains.head (Nat.mod_lt (dict.fnHash k).toNat pos)
  refine ⟨(dict.fnHash k).toNat % dict.cap, head, if_neg (Nat.pos_iff_ne_zero.mp pos), got, ?_⟩
  have live : ∀ a ∈ ys, Alloc dict a := fun a ha => h.live a ((members a).mp ha).1
  have few : ys.length ≤ dict.fresh :=
    length_le_of_lt chain.nodup fun a ha => h.fresh a ((members a).mp ha).1
  rcases delLoop_spec dict.fresh none chain live few with
    ⟨last, run, absent⟩ | ⟨before, a, after, rfl, answers, run⟩
  · refine .inl ⟨?_, last, run⟩
    rintro ⟨c, hc, same⟩
    have hash := law.hash k c.key same
    refine absent c.addr ((members c.addr).mpr ⟨mem_addrs.mpr ⟨c, hc, rfl⟩, ?_⟩)
      ⟨_, h.payload c hc, hash.symm, law.equiv.symm same⟩
    rw [h.slot hc, hash]
  · obtain ⟨inside, slot⟩ := (members a).mp (by simp)
    obtain ⟨c, hc, rfl⟩ := mem_addrs.mp inside
    obtain ⟨load, found, -, same⟩ := answers
    obtain rfl := Option.some.inj ((h.payload c hc).symm.trans found)
    obtain ⟨l, r, rfl⟩ := List.append_of_mem hc
    refine .inr ⟨l, c, r, before, after, rfl, law.equiv.symm same, slot, chain, members, ?_⟩
    rw [run]
    cases before.getLast? <;> rfl

/-- `codict_get` finds the node of the key, if there is one. -/
theorem codictGet_spec (law : Lawful dict.fnHash dict.fnEqual) (h : Holds dict cells) (k : κ) :
    (codictGet dict k = .ok none ∧ ¬ Has dict.fnEqual k cells) ∨
    ∃ l c r, codictGet dict k = .ok (some c.addr) ∧ cells = l ++ c :: r ∧
      dict.fnEqual k c.key = true := by
  obtain ⟨idx, head, slot, got, found⟩ := search_spec law h k
  have get : codictGet dict k =
      (delLoop dict (dict.fnHash k) k dict.fresh none head).map Prod.snd := by
    rw [codictGet]
    simp only [slot, got, ok_bind]
    exact getLoop_eq _ _ _
  rcases found with ⟨absent, last, run⟩ | ⟨l, c, r, before, after, split, same, -, -, -, run⟩
  · exact .inl ⟨by rw [get, run]; rfl, absent⟩
  · exact .inr ⟨l, c, r, by rw [get, run]; rfl, split, same⟩

end Search

section Setting

theorem addrs_middle : addrs (l ++ c :: r) = addrs l ++ c.addr :: addrs r := by
  simp [addrs]

/-- A present key gets the new value in its place. -/
theorem setValue_holds (h : Holds dict (l ++ c :: r)) (v : υ) :
    ∃ dict', setValue dict c.addr v = .ok dict' ∧ SameFrame dict dict' ∧
      Holds dict' (l ++ { c with value := v } :: r) := by
  have mine : c ∈ l ++ c :: r := by simp
  obtain ⟨d, load, run, found, same, buckets, next, links, payload⟩ :=
    setValue_spec (h.live c.addr (mem_addrs.mpr ⟨c, mine, rfl⟩)) v
  obtain rfl := Option.some.inj ((h.payload c mine).symm.trans found)
  have places : addrs (l ++ { c with value := v } :: r) = addrs (l ++ c :: r) := by
    rw [addrs_middle, addrs_middle]
  have once := h.nodup
  rw [addrs_middle] at once
  have others : ∀ a, a ≠ c.addr → payloadOf d a = payloadOf dict a := by
    intro a ne
    rw [payload, Function.update_of_ne ne]
  have slots : ∀ a, slotOf d a = slotOf dict a := by
    intro a
    unfold slotOf
    rw [same.cap]
    by_cases here : a = c.addr
    · rw [here, payload, Function.update_self, found]
      rfl
    · rw [others a here]
  refine ⟨d, run, same, ?_, ?_, ?_, ?_, ?_, ?_, ?_⟩
  · rw [links, places]
    exact h.list
  · intro x hx
    have apart : ∀ y, y ∈ l ∨ y ∈ r → payloadOf d y.addr = payloadOf dict y.addr := by
      intro y hy
      apply others
      intro equal
      apply (List.nodup_middle.mp once).notMem
      rw [← equal]
      exact List.mem_append.mpr (hy.imp (fun h => mem_addrs.mpr ⟨y, h, rfl⟩)
        (fun h => mem_addrs.mpr ⟨y, h, rfl⟩))
    rw [same.fnHash]
    rcases List.mem_append.mp hx with hx | hx
    · rw [apart x (.inl hx)]
      exact h.payload x (by simp [hx])
    · rcases List.mem_cons.mp hx with rfl | hx
      · rw [payload, Function.update_self]
      · rw [apart x (.inr hx)]
        exact h.payload x (by simp [hx])
  · intro a live
    rw [places]
    by_cases here : a = c.addr
    · rw [here]
      exact mem_addrs.mpr ⟨c, mine, rfl⟩
    · refine h.owned a ?_
      unfold Alloc at live
      rwa [others a here] at live
  · rw [places]
    exact h.chains.congr same.cap buckets fun a _ => ⟨by rw [next], slots a⟩
  · rw [same.fnEqual]
    exact h.distinct.of_keys (by simp)
  · rw [same.count, h.count]
    simp
  · rw [places, same.fresh]
    exact h.fresh

/-- A new node is in neither structure yet. -/
theorem newNode_spec {xs : List Nat} (list : Listed dict xs) (chains : Bucketed dict (· ∈ xs))
    (fresh : ∀ a ∈ xs, a < dict.fresh) (hash : UInt64) (k : κ) (v : υ) :
    payloadOf (newNode dict hash k v).2 =
        Function.update (payloadOf dict) dict.fresh (some ⟨k, v, hash⟩) ∧
      Listed (newNode dict hash k v).2 xs ∧ Bucketed (newNode dict hash k v).2 (· ∈ xs) := by
  have new : dict.fresh ∉ xs := fun ha => Nat.lt_irrefl _ (fresh _ ha)
  have payload : payloadOf (newNode dict hash k v).2 =
      Function.update (payloadOf dict) dict.fresh (some ⟨k, v, hash⟩) := payloadOf_store dict _ _
  have next : nextOf (newNode dict hash k v).2 = Function.update (nextOf dict) dict.fresh none :=
    nextOf_store dict _ _
  have links : linksOf (newNode dict hash k v).2 =
      ((linksOf dict).setPrev dict.fresh none).setNext dict.fresh none := linksOf_store dict _ _
  refine ⟨payload, ⟨?_, ?_⟩, ?_⟩
  · rw [links]
    exact list.holds.forget new
  · intro a ha
    have ne : a ≠ dict.fresh := fun same => new (same ▸ ha)
    unfold Alloc
    rw [payload, Function.update_of_ne ne]
    exact list.live a ha
  · refine chains.congr rfl rfl fun a ha => ?_
    have ne : a ≠ dict.fresh := fun same => new (same ▸ ha)
    unfold slotOf
    rw [next, payload, Function.update_of_ne ne, Function.update_of_ne ne]
    exact ⟨rfl, rfl⟩

/-- A new key gets a node of its own, at the end of the list. -/
theorem codictSet_new (h : Holds dict cells) (absent : ¬ Has dict.fnEqual k cells)
    (equiv : Equivalence (Equal dict.fnEqual)) (get : codictGet dict k = .ok none) (v : υ) :
    ∃ dict', codictSet dict k v = .ok (dict.fresh, dict') ∧ dict'.fnHash = dict.fnHash ∧
      dict'.fnEqual = dict.fnEqual ∧ Holds dict' (cells ++ [⟨dict.fresh, k, v⟩]) := by
  have new : dict.fresh ∉ addrs cells := fun ha => Nat.lt_irrefl _ (h.fresh _ ha)
  obtain ⟨d₁, run₁, same₁, chains₁⟩ := _checkAndResize_spec h.listed h.length_le (.inr h.chains)
  have list₁ : Listed d₁ (addrs cells) :=
    ⟨by rw [same₁.links]; exact h.list, fun a ha => (h.live a ha).of_payload same₁.payload⟩
  have fresh₁ : ∀ a ∈ addrs cells, a < d₁.fresh := by
    rw [same₁.fresh]
    exact h.fresh
  obtain ⟨payload₂, list₂, chains₂⟩ := newNode_spec list₁ chains₁ fresh₁ (d₁.fnHash k) k v
  generalize hd₂ : (newNode d₁ (d₁.fnHash k) k v).2 = d₂ at payload₂ list₂ chains₂
  have cap₂ : d₂.cap = d₁.cap := by
    rw [← hd₂]
    rfl
  have mine : payloadOf d₂ d₁.fresh = some ⟨k, v, d₁.fnHash k⟩ := by
    rw [payload₂, Function.update_self]
  have slot : slotOf d₂ d₁.fresh = some ((d₁.fnHash k).toNat % d₁.cap) := by
    rw [slotOf, mine, cap₂]
    rfl
  obtain ⟨d₃, run₃, same₃, chains₃⟩ := pushBucket_spec chains₂ slot (by rw [same₁.fresh]; exact new)
  have list₃ : Listed d₃ (addrs cells) :=
    ⟨by rw [same₃.links]; exact list₂.holds, fun a ha => (list₂.live a ha).of_payload same₃.payload⟩
  obtain ⟨d₄, run₄, same₄, list₄⟩ := appendNode_spec list₃
    (Alloc.of_payload same₃.payload (.of_slot slot)) (by rw [same₁.fresh]; exact new)
  have chains₄ := chains₃.of_relinked same₄
  have payload₄ : payloadOf d₄ =
      Function.update (payloadOf dict) dict.fresh (some ⟨k, v, dict.fnHash k⟩) := by
    rw [same₄.payload, same₃.payload, payload₂, same₁.payload, same₁.fresh, same₁.fnHash]
  have hash₄ : d₄.fnHash = dict.fnHash := by
    rw [same₄.fnHash, same₃.fnHash, ← same₁.fnHash, ← hd₂]
    rfl
  have equal₄ : d₄.fnEqual = dict.fnEqual := by
    rw [same₄.fnEqual, same₃.fnEqual, ← same₁.fnEqual, ← hd₂]
    rfl
  have count₄ : d₄.count = dict.count := by
    rw [same₄.count, same₃.count, ← same₁.count, ← hd₂]
    rfl
  have fresh₄ : d₄.fresh = dict.fresh + 1 := by
    rw [same₄.fresh, same₃.fresh, ← same₁.fresh, ← hd₂]
    rfl
  have places : addrs (cells ++ [⟨dict.fresh, k, v⟩]) = addrs cells ++ [dict.fresh] := by
    simp [addrs]
  refine ⟨{ d₄ with count := uint32 (d₄.count + 1) }, ?_, hash₄, equal₄,
    holds_recount ?_ ?_ ?_ ?_ ?_ ?_ ?_⟩
  · have pos : d₁.cap ≠ 0 := Nat.pos_iff_ne_zero.mp chains₁.pos
    have first : newNode d₁ (d₁.fnHash k) k v = (d₁.fresh, d₂) := by
      rw [← hd₂]
      rfl
    rw [codictSet, get]
    simp only [ok_bind, run₁, Dict.slot, if_neg pos, first, run₃, run₄]
    rw [same₁.fresh]
  · rw [places, ← same₁.fresh]
    exact list₄.holds
  · intro x hx
    rw [payload₄, hash₄]
    rcases List.mem_append.mp hx with hx | hx
    · have ne : x.addr ≠ dict.fresh := fun same => new (mem_addrs.mpr ⟨x, hx, same⟩)
      rw [Function.update_of_ne ne]
      exact h.payload x hx
    · rw [List.mem_singleton.mp hx, Function.update_self]
  · intro a live
    rw [places, List.mem_append]
    by_cases here : a = dict.fresh
    · exact .inr (List.mem_singleton.mpr here)
    · refine .inl (h.owned a ?_)
      unfold Alloc at live
      rwa [payload₄, Function.update_of_ne here] at live
  · rw [places]
    refine chains₄.imp fun a => ?_
    simp [same₁.fresh]
  · rw [equal₄]
    refine Keyed.Distinct.insert equiv ?_ ?_
    · rw [List.append_nil]
      exact h.distinct
    · rw [List.append_nil]
      exact absent
  · rw [places]
    rw [fresh₄]
    intro a ha
    rcases List.mem_append.mp ha with ha | ha
    · exact Nat.lt_succ_of_lt (h.fresh a ha)
    · rw [List.mem_singleton.mp ha]
      exact Nat.lt_succ_self _
  · rw [count₄, h.count, List.length_append]
    simp only [uint32, List.length_singleton]
    omega

/-- What `codict_set` leaves: the new value in the place of the key, or at the end. -/
theorem codictSet_spec (law : Lawful dict.fnHash dict.fnEqual) (h : Holds dict cells) (k : κ)
    (v : υ) :
    ∃ a dict', codictSet dict k v = .ok (a, dict') ∧ dict'.fnHash = dict.fnHash ∧
      dict'.fnEqual = dict.fnEqual ∧
      ((∃ l c r, cells = l ++ c :: r ∧ dict.fnEqual k c.key = true ∧ a = c.addr ∧
          Holds dict' (l ++ { c with value := v } :: r)) ∨
        (¬ Has dict.fnEqual k cells ∧ Holds dict' (cells ++ [⟨a, k, v⟩]))) := by
  rcases codictGet_spec law h k with ⟨get, absent⟩ | ⟨l, c, r, get, rfl, same⟩
  · obtain ⟨d, run, hash, equal, holds⟩ := codictSet_new h absent law.equiv get v
    exact ⟨_, d, run, hash, equal, .inr ⟨absent, holds⟩⟩
  · obtain ⟨d, run, frame, holds⟩ := setValue_holds h v
    refine ⟨c.addr, d, ?_, frame.fnHash, frame.fnEqual, .inl ⟨l, c, r, rfl, same, rfl, holds⟩⟩
    rw [codictSet, get]
    simp only [ok_bind, run]

end Setting

section Deleting

/-- A node that is out of both structures is freed. -/
theorem freeNode_holds {a : Nat} {xs : List Nat} (list : Listed dict xs) (live : Alloc dict a)
    (chains : Bucketed dict (· ∈ xs)) (out : a ∉ xs) :
    ∃ dict', freeNode dict a = .ok dict' ∧ SameFrame dict dict' ∧
      payloadOf dict' = Function.update (payloadOf dict) a none ∧
      (linksOf dict').Holds xs ∧ Bucketed dict' (· ∈ xs) := by
  obtain ⟨d, run, same, buckets, next, payload, links⟩ := freeNode_spec live
  refine ⟨d, run, same, payload, ?_, chains.congr same.cap buckets fun b hb => ?_⟩
  · rw [links]
    exact list.holds.forget out
  · have ne : b ≠ a := fun same => out (same ▸ hb)
    unfold slotOf
    rw [next, payload, same.cap, Function.update_of_ne ne, Function.update_of_ne ne]
    exact ⟨rfl, rfl⟩

/-- `codict_del` takes the key's node out of both structures and frees it. -/
theorem codictDel_spec (law : Lawful dict.fnHash dict.fnEqual) (h : Holds dict cells) (k : κ) :
    ∃ b dict', codictDel dict k = .ok (b, dict') ∧ dict'.fnHash = dict.fnHash ∧
      dict'.fnEqual = dict.fnEqual ∧
      ((b = true ∧ ∃ l c r, cells = l ++ c :: r ∧ dict.fnEqual k c.key = true ∧
          Holds dict' (l ++ r)) ∨
        (b = false ∧ ¬ Has dict.fnEqual k cells ∧ dict' = dict)) := by
  obtain ⟨idx, head, slot, got, found⟩ := search_spec law h k
  rcases found with ⟨absent, last, run⟩ |
    ⟨l, c, r, before, after, rfl, same, slotc, chain, members, run⟩
  · refine ⟨false, dict, ?_, rfl, rfl, .inr ⟨rfl, absent, rfl⟩⟩
    rw [codictDel]
    simp only [slot, got, ok_bind, run]
  · have mine : c ∈ l ++ c :: r := by simp
    have once := h.nodup
    rw [addrs_middle] at once
    have out : c.addr ∉ addrs l ++ addrs r := (List.nodup_middle.mp once).notMem
    have gotten : dict.buckets[idx]? = some head := by
      unfold getBucket at got
      split at got
      · next found =>
        cases got
        exact found
      · cases got
    obtain ⟨d₁, run₁, same₁, chains₁⟩ := unlinkBucket_spec h.chains slotc gotten chain members
    have list₁ : Listed d₁ (addrs l ++ c.addr :: addrs r) := by
      rw [← addrs_middle]
      exact ⟨by rw [same₁.links]; exact h.list, fun a ha => (h.live a ha).of_payload same₁.payload⟩
    obtain ⟨d₂, d₃, d₄, run₂, run₃, run₄, same₄, list₄, -, -⟩ := unlinkList_spec list₁
    have live₄ : Alloc d₄ c.addr := (list₁.live c.addr (by simp)).of_payload same₄.payload
    have chains₄ : Bucketed d₄ (· ∈ addrs l ++ addrs r) := by
      refine (chains₁.of_relinked same₄).imp fun a => ?_
      rw [addrs_middle]
      by_cases here : a = c.addr
      · exact iff_of_false (fun h => h.2 here) (here ▸ out)
      · simp [here]
    obtain ⟨d₅, run₅, same₅, payload₅, list₅, chains₅⟩ :=
      freeNode_holds list₄ live₄ chains₄ out
    have payload : payloadOf d₅ = Function.update (payloadOf dict) c.addr none := by
      rw [payload₅, same₄.payload, same₁.payload]
    have frame : SameFrame dict d₅ :=
      (same₁.toSameFrame.trans same₄.toSameFrame).trans same₅
    have places : addrs (l ++ r) = addrs l ++ addrs r := by simp [addrs]
    refine ⟨true, { d₅ with count := uint32 (d₅.count + (2 ^ 32 - 1)) }, ?_, frame.fnHash,
      frame.fnEqual, .inl ⟨rfl, l, c, r, rfl, same, holds_recount ?_ ?_ ?_ ?_ ?_ ?_ ?_⟩⟩
    · rw [codictDel]
      simp only [slot, got, ok_bind, run, run₁, run₂, run₃, run₄, run₅]
    · rw [places]
      exact list₅
    · intro x hx
      have ne : x.addr ≠ c.addr := by
        intro equal
        rw [← places] at out
        exact out (mem_addrs.mpr ⟨x, hx, equal⟩)
      rw [payload, Function.update_of_ne ne, frame.fnHash]
      refine h.payload x ?_
      simp only [List.mem_append, List.mem_cons] at hx ⊢
      tauto
    · intro a live
      unfold Alloc at live
      have ne : a ≠ c.addr := by
        rintro rfl
        rw [payload, Function.update_self] at live
        exact live rfl
      rw [payload, Function.update_of_ne ne] at live
      have ha := h.owned a live
      rw [addrs_middle] at ha
      rw [places]
      simpa [ne] using ha
    · rw [places]
      exact chains₅
    · rw [frame.fnEqual]
      exact List.Pairwise.sublist (List.Sublist.append_left (List.sublist_cons_self c r) l)
        h.distinct
    · rw [places]
      rw [frame.fresh]
      intro a ha
      refine h.fresh a ?_
      rw [addrs_middle]
      simp only [List.mem_append, List.mem_cons] at ha ⊢
      tauto
    · rw [frame.count, h.count]
      simp only [uint32, List.length_append, List.length_cons]
      omega

/-- `codict_clear` frees every node. -/
theorem codictClear_spec (h : Holds dict cells) :
    ∃ dict', codictClear dict = .ok dict' ∧ dict'.fnHash = dict.fnHash ∧
      dict'.fnEqual = dict.fnEqual ∧ Holds dict' [] := by
  have cleared : Cleared dict 0 := by
    refine ⟨h.chains.pos, h.chains.length, fun j hj => absurd hj (Nat.not_lt_zero j), ?_,
      fun _ _ _ => Nat.zero_le _, fun a live => h.fresh a (h.owned a live)⟩
    intro j _ hj
    obtain ⟨ys, bucket, members⟩ := h.chains.bucket j hj
    refine ⟨ys, bucket, fun a => ?_⟩
    rw [members a]
    exact and_iff_right_of_imp fun slot => h.owned a (.of_slot slot)
  obtain ⟨d, run, same, done⟩ := clearLoop_spec dict.cap cleared (Nat.zero_add _)
  have empty : ∀ a, ¬ Alloc d a := by
    intro a live
    obtain ⟨load, found⟩ := Option.ne_none_iff_exists'.mp live
    have slot : slotOf d a = some (load.hash.toNat % d.cap) := by
      rw [slotOf, found]
      rfl
    have := slotOf_lt done.pos slot
    have := done.later a _ slot
    have := same.cap
    omega
  refine ⟨{ d with listhead := none, listtail := none, count := 0 }, ?_, same.fnHash, same.fnEqual,
    ⟨rfl, rfl⟩, by simp, fun a live => absurd live (empty a), ⟨done.pos, done.length, ?_⟩,
    List.Pairwise.nil, rfl, by simp [addrs]⟩
  · rw [codictClear, run, ok_bind]
  · intro i hi
    have bound : i < d.buckets.length := by
      rw [done.length]
      exact hi
    refine ⟨[], ⟨bound, ?_⟩, by simp [addrs]⟩
    intro head hhead
    change d.buckets[i]? = some head at hhead
    rw [done.empty i (by rw [← same.cap]; exact hi) hi] at hhead
    obtain rfl := Option.some.inj hhead
    rfl

end Deleting

section Moving

/-- The same nodes in another order. -/
theorem Holds.reorder {cells' : List (Cell κ υ)} (h : Holds dict cells)
    (equiv : Equivalence (Equal dict.fnEqual)) (same : Relinked dict dict')
    (perm : cells.Perm cells') (list : (linksOf dict').Holds (addrs cells')) :
    Holds dict' cells' := by
  have places : ∀ a, a ∈ addrs cells' ↔ a ∈ addrs cells := fun a => (perm.map Cell.addr).mem_iff.symm
  refine ⟨list, ?_, ?_, ?_, ?_, ?_, ?_⟩
  · intro c hc
    rw [same.payload, same.fnHash]
    exact h.payload c (perm.mem_iff.mpr hc)
  · intro a live
    unfold Alloc at live
    rw [same.payload] at live
    exact (places a).mpr (h.owned a live)
  · exact (h.chains.of_relinked same).imp fun a => (places a).symm
  · rw [same.fnEqual]
    exact h.distinct.of_perm equiv perm
  · rw [same.count, h.count, perm.length_eq]
  · intro a ha
    rw [same.fresh]
    exact h.fresh a ((places a).mp ha)

/-- `codict_move` puts a node first or last. -/
theorem codictMove_holds (equiv : Equivalence (Equal dict.fnEqual))
    (h : Holds dict (l ++ c :: r)) (head : Bool) :
    ∃ dict', codictMove dict c.addr head = .ok dict' ∧ dict'.fnHash = dict.fnHash ∧
      dict'.fnEqual = dict.fnEqual ∧
      Holds dict' (if head then c :: (l ++ r) else l ++ r ++ [c]) := by
  have listed := h.listed
  rw [addrs_middle] at listed
  obtain ⟨d, run, same, listed'⟩ := codictMove_spec listed head
  refine ⟨d, run, same.fnHash, same.fnEqual, h.reorder equiv same ?_ ?_⟩
  · cases head with
    | true => exact List.perm_middle
    | false => exact List.perm_middle.trans (List.perm_append_singleton c (l ++ r)).symm
  · cases head <;> simpa [addrs] using listed'.holds

end Moving

end Colinlib.Source.Dict
