import Colinlib.Source.DictHeap
import Mathlib.Data.List.Nodup
import Mathlib.Data.List.Perm.Subperm

/-!
# The bucket chains of the dictionary

Every node of a set of nodes is in one chain, the one of its hash; the loops over
the chains and the rehash of the traversal list keep it so.
-/
namespace Colinlib.Source.Dict
open Colinlib.Theory Colinlib.Theory.CMemory Colinlib.Theory.Chains

variable {κ υ : Type} {dict dict' : Codict κ υ} {a idx : Nat} {P : Nat → Prop}

/-- The bucket a node belongs into. -/
def slotOf (dict : Codict κ υ) (a : Nat) : Option Nat :=
  (payloadOf dict a).map fun load => load.hash.toNat % dict.cap

/-- Bucket `i` is the chain `ys`. -/
structure Bucket (dict : Codict κ υ) (i : Nat) (ys : List Nat) : Prop where
  bound : i < dict.buckets.length
  chain : ∀ head, dict.buckets[i]? = some head → Chain (nextOf dict) head ys

/-- Each bucket holds the nodes of `P` that belong into it. -/
structure Bucketed (dict : Codict κ υ) (P : Nat → Prop) : Prop where
  pos : 0 < dict.cap
  length : dict.buckets.length = dict.cap
  bucket : ∀ i < dict.cap, ∃ ys, Bucket dict i ys ∧ ∀ a, a ∈ ys ↔ P a ∧ slotOf dict a = some i

theorem slotOf_lt (pos : 0 < dict.cap) {i : Nat} (h : slotOf dict a = some i) : i < dict.cap := by
  unfold slotOf at h
  cases hload : payloadOf dict a with
  | none => simp [hload] at h
  | some load =>
      rw [hload] at h
      obtain rfl := Option.some.inj h
      exact Nat.mod_lt _ pos

theorem Alloc.of_slot {i : Nat} (h : slotOf dict a = some i) : Alloc dict a := by
  intro none
  simp [slotOf, none] at h

theorem slotOf_congr (cap : dict'.cap = dict.cap) (payload : payloadOf dict' = payloadOf dict) :
    slotOf dict' = slotOf dict := by
  funext a
  rw [slotOf, slotOf, cap, payload]

theorem Bucket.congr {i : Nat} {ys : List Nat} (h : Bucket dict i ys)
    (buckets : dict'.buckets = dict.buckets) (next : ∀ a ∈ ys, nextOf dict' a = nextOf dict a) :
    Bucket dict' i ys where
  bound := by
    rw [buckets]
    exact h.bound
  chain head hhead := by
    rw [buckets] at hhead
    exact (h.chain head hhead).congr next

theorem Bucketed.congr (h : Bucketed dict P) (cap : dict'.cap = dict.cap)
    (buckets : dict'.buckets = dict.buckets)
    (same : ∀ a, P a → nextOf dict' a = nextOf dict a ∧ slotOf dict' a = slotOf dict a) :
    Bucketed dict' P := by
  refine ⟨by rw [cap]; exact h.pos, by rw [buckets, cap]; exact h.length, ?_⟩
  rw [cap]
  intro i hi
  obtain ⟨ys, bucket, members⟩ := h.bucket i hi
  refine ⟨ys, bucket.congr buckets (fun a ha => (same a ((members a).mp ha).1).1), fun a => ?_⟩
  rw [members a]
  exact and_congr_right fun hp => by rw [(same a hp).2]

theorem Bucketed.of_relinked (h : Bucketed dict P) (same : Relinked dict dict') :
    Bucketed dict' P := by
  refine h.congr same.cap same.buckets fun a _ => ?_
  rw [same.next, slotOf_congr same.cap same.payload]
  exact ⟨rfl, rfl⟩

theorem Bucketed.imp {Q : Nat → Prop} (h : Bucketed dict P) (equal : ∀ a, P a ↔ Q a) :
    Bucketed dict Q := by
  have : P = Q := funext fun a => propext (equal a)
  exact this ▸ h

/-- The head of a bucket, and its chain. -/
theorem Bucketed.head (h : Bucketed dict P) {i : Nat} (hi : i < dict.cap) :
    ∃ head ys, getBucket dict i = .ok head ∧ Chain (nextOf dict) head ys ∧
      ∀ a, a ∈ ys ↔ P a ∧ slotOf dict a = some i := by
  obtain ⟨ys, bucket, members⟩ := h.bucket i hi
  have got := List.getElem?_eq_getElem bucket.bound
  exact ⟨_, ys, by rw [getBucket, got], bucket.chain _ got, members⟩

theorem setBucket_ok (bound : idx < dict.buckets.length) (v : Option Nat) :
    setBucket dict idx v = .ok { dict with buckets := dict.buckets.set idx v } := if_pos bound

/-- Where one bucket was given a new chain and the others kept theirs, the table
holds what the new chain has more or less. -/
theorem Bucketed.replace {Q : Nat → Prop} (h : Bucketed dict P) (v : Option Nat) (ys : List Nat)
    (same : Rechained dict dict') (hidx : idx < dict.cap)
    (buckets : dict'.buckets = dict.buckets.set idx v)
    (chain : Chain (nextOf dict') v ys) (members : ∀ a, a ∈ ys ↔ Q a ∧ slotOf dict a = some idx)
    (others : ∀ i, i ≠ idx → ∀ a, (P a ∧ slotOf dict a = some i → nextOf dict' a = nextOf dict a) ∧
      (slotOf dict a = some i → (Q a ↔ P a))) :
    Bucketed dict' Q := by
  have slots := slotOf_congr same.cap same.payload
  have length : dict'.buckets.length = dict'.cap := by
    rw [buckets, List.length_set, h.length, same.cap]
  refine ⟨by rw [same.cap]; exact h.pos, length, ?_⟩
  rw [slots]
  intro i hi
  by_cases here : i = idx
  · subst here
    refine ⟨ys, ⟨by rw [length]; exact hi, ?_⟩, members⟩
    intro head hhead
    rw [buckets, List.getElem?_set_self (by rw [h.length]; exact hidx)] at hhead
    obtain rfl := Option.some.inj hhead
    exact chain
  · obtain ⟨zs, bucket, before⟩ := h.bucket i (by rw [← same.cap]; exact hi)
    refine ⟨zs, ⟨by rw [length]; exact hi, ?_⟩, ?_⟩
    · intro head hhead
      rw [buckets, List.getElem?_set_ne (Ne.symm here)] at hhead
      exact (bucket.chain head hhead).congr fun a ha => (others i here a).1 ((before a).mp ha)
    · intro a
      rw [before a]
      constructor
      · rintro ⟨hp, hs⟩
        exact ⟨((others i here a).2 hs).mpr hp, hs⟩
      · rintro ⟨hq, hs⟩
        exact ⟨((others i here a).2 hs).mp hq, hs⟩

/-- A node is put at the front of its bucket. -/
theorem pushBucket_spec (h : Bucketed dict P) (slot : slotOf dict a = some idx) (new : ¬ P a) :
    ∃ dict', pushBucket dict idx a = .ok dict' ∧ Rechained dict dict' ∧
      Bucketed dict' (fun b => P b ∨ b = a) := by
  have hidx := slotOf_lt h.pos slot
  obtain ⟨head, ys, got, chain, members⟩ := h.head hidx
  obtain ⟨d, run, same, buckets, next⟩ := setNext_spec (.of_slot slot) head
  have fresh : a ∉ ys := fun ha => new ((members a).mp ha).1
  have bound : idx < d.buckets.length := by
    rw [buckets, h.length]
    exact hidx
  have step : Rechained d { d with buckets := d.buckets.set idx (some a) } :=
    ⟨⟨rfl, rfl, rfl, rfl, rfl⟩, rfl, rfl⟩
  refine ⟨{ d with buckets := d.buckets.set idx (some a) }, ?_, same.trans step, ?_⟩
  · rw [pushBucket, got, ok_bind, run, ok_bind, setBucket_ok bound]
  · refine h.replace (some a) (a :: ys) (same.trans step) hidx (by simp only [buckets]) ?_ ?_ ?_
    · change Chain (nextOf d) (some a) (a :: ys)
      rw [next]
      exact chain.push fresh
    · intro b
      rw [List.mem_cons, members b]
      constructor
      · rintro (rfl | ⟨hp, hs⟩)
        · exact ⟨.inr rfl, slot⟩
        · exact ⟨.inl hp, hs⟩
      · rintro ⟨hp | rfl, hs⟩
        · exact .inr ⟨hp, hs⟩
        · exact .inl rfl
    · intro i other b
      have apart : slotOf dict b = some i → b ≠ a := by
        rintro hs rfl
        exact other (Option.some.inj (hs.symm.trans slot))
      constructor
      · rintro ⟨-, hs⟩
        change nextOf d b = nextOf dict b
        rw [next, Function.update_of_ne (apart hs)]
      · intro hs
        simp [apart hs]

/-- The rehash puts the nodes of the traversal list back one by one. -/
theorem rehashLoop_spec (fuel : Nat) {done todo : List Nat} {curr : Option Nat}
    (h : Bucketed dict (· ∈ done)) (once : (done ++ todo).Nodup)
    (chain : Chain (linksOf dict).next curr todo) (live : ∀ a ∈ todo, Alloc dict a)
    (enough : todo.length ≤ fuel) :
    ∃ dict', rehashLoop fuel curr dict = .ok dict' ∧ Rechained dict dict' ∧
      Bucketed dict' (· ∈ done ++ todo) := by
  induction todo generalizing done curr dict fuel with
  | nil =>
      obtain rfl : curr = none := chain
      refine ⟨dict, by rw [rehashLoop], .refl dict, ?_⟩
      rw [List.append_nil]
      exact h
  | cons x rest ih =>
      obtain rfl := chain.1
      obtain ⟨fuel, rfl⟩ : ∃ k, fuel = k + 1 := Nat.exists_eq_succ_of_ne_zero (by
        intro zero
        rw [zero] at enough
        cases enough)
      have lx := live x (by simp)
      obtain ⟨node, found, -, -, -, load⟩ := lx.node
      have slot : slotOf dict x = some (node.hash.toNat % dict.cap) := by
        rw [slotOf, load]
        rfl
      have new : x ∉ done := (List.nodup_middle.mp once).notMem ∘ List.mem_append_left _
      obtain ⟨d, run, same, bucketed⟩ := pushBucket_spec h slot new
      have lx' := lx.of_payload same.payload
      obtain ⟨node', found', -, -, hnext, -⟩ := lx'.node
      have bucketed' : Bucketed d (· ∈ done ++ [x]) := bucketed.imp (by simp)
      obtain ⟨d', run', same', done'⟩ := ih fuel bucketed' (by simpa using once)
        (by
          rw [same.links]
          exact chain.2)
        (fun a ha => (live a (by simp [ha])).of_payload same.payload)
        (Nat.le_of_succ_le_succ enough)
      refine ⟨d', ?_, same.trans same', done'.imp (by simp)⟩
      have pos : dict.cap ≠ 0 := Nat.pos_iff_ne_zero.mp h.pos
      rw [rehashLoop, deref_ok found, ok_bind, Dict.slot, if_neg pos, ok_bind, run, ok_bind,
        deref_ok found', ok_bind, hnext, same.links]
      exact run'

section Search

variable {hash : UInt64} {key : κ} {ys : List Nat} {start : Option Nat}

/-- The node at `a` answers to the key. -/
def Answers (dict : Codict κ υ) (hash : UInt64) (key : κ) (a : Nat) : Prop :=
  ∃ load, payloadOf dict a = some load ∧ load.hash = hash ∧ dict.fnEqual load.key key = true

theorem sameKey_iff {node : Node κ υ} (load : payloadOf dict a = some node.payload) :
    sameKey dict hash key node = true ↔ Answers dict hash key a := by
  unfold sameKey Answers
  rw [Bool.and_eq_true, beq_iff_eq, load]
  constructor
  · intro same
    exact ⟨node.payload, rfl, same⟩
  · rintro ⟨load', found, same⟩
    cases found
    exact same

/-- The search stops at the first node that answers, and knows the node before it. -/
theorem delLoop_spec (fuel : Nat) (prev : Option Nat) (chain : Chain (nextOf dict) start ys)
    (live : ∀ a ∈ ys, Alloc dict a) (enough : ys.length ≤ fuel) :
    (∃ last, delLoop dict hash key fuel prev start = .ok (last, none) ∧
      ∀ a ∈ ys, ¬ Answers dict hash key a) ∨
    ∃ l a r, ys = l ++ a :: r ∧ Answers dict hash key a ∧
      delLoop dict hash key fuel prev start = .ok (l.getLast?.or prev, some a) := by
  induction ys generalizing start prev fuel with
  | nil =>
      obtain rfl : start = none := chain
      exact .inl ⟨prev, by rw [delLoop], by simp⟩
  | cons x rest ih =>
      obtain rfl := chain.1
      obtain ⟨fuel, rfl⟩ : ∃ k, fuel = k + 1 := Nat.exists_eq_succ_of_ne_zero (by
        intro zero
        rw [zero] at enough
        cases enough)
      obtain ⟨node, found, hnext, -, -, load⟩ := (live x (by simp)).node
      rw [delLoop, deref_ok found, ok_bind]
      by_cases answers : Answers dict hash key x
      · rw [if_pos ((sameKey_iff load).mpr answers)]
        exact .inr ⟨[], x, rest, rfl, answers, rfl⟩
      · rw [if_neg (mt (sameKey_iff load).mp answers), hnext]
        rcases ih fuel (some x) chain.2 (fun a ha => live a (by simp [ha]))
          (Nat.le_of_succ_le_succ enough) with ⟨last, run, absent⟩ | ⟨l, a, r, rfl, found, run⟩
        · exact .inl ⟨last, run, List.forall_mem_cons.mpr ⟨answers, absent⟩⟩
        · refine .inr ⟨x :: l, a, r, rfl, found, ?_⟩
          rw [run, List.getLast?_cons, Option.some_or]
          cases l.getLast? <;> rfl

/-- The search of `codict_get` is that of `codict_del`. -/
theorem getLoop_eq (fuel : Nat) (prev start : Option Nat) :
    getLoop dict hash key fuel start = (delLoop dict hash key fuel prev start).map Prod.snd := by
  induction fuel generalizing prev start with
  | zero => cases start <;> rfl
  | succ fuel ih =>
      cases start with
      | none => rfl
      | some a =>
          rw [getLoop, delLoop]
          cases deref dict a with
          | error f => rfl
          | ok node =>
              rw [ok_bind, ok_bind]
              split
              · rfl
              · exact ih (some a) node.next

end Search

/-- A node is taken out of its bucket. -/
theorem unlinkBucket_spec (h : Bucketed dict P) {l r : List Nat} {head : Option Nat}
    (slot : slotOf dict a = some idx) (got : dict.buckets[idx]? = some head)
    (chain : Chain (nextOf dict) head (l ++ a :: r))
    (members : ∀ b, b ∈ l ++ a :: r ↔ P b ∧ slotOf dict b = some idx) :
    ∃ dict', unlinkBucket dict idx l.getLast? head a = .ok dict' ∧ Rechained dict dict' ∧
      Bucketed dict' (fun b => P b ∧ b ≠ a) := by
  have hidx := slotOf_lt h.pos slot
  obtain ⟨node, found, hnext, -⟩ := (Alloc.of_slot slot).node
  have once := chain.nodup
  have removed := chain.remove
  have left : ∀ b, b ∈ l ++ r ↔ (P b ∧ b ≠ a) ∧ slotOf dict b = some idx := by
    have out := (List.nodup_middle.mp once).notMem
    intro b
    have whole := members b
    by_cases same : b = a
    · subst same
      exact iff_of_false out (fun h => h.1.2 rfl)
    · simp only [List.mem_append, List.mem_cons, same, false_or] at whole ⊢
      rw [whole]
      exact ⟨fun h => ⟨⟨h.1, same⟩, h.2⟩, fun h => ⟨h.1.1, h.2⟩⟩
  have others : ∀ i, i ≠ idx → ∀ b, slotOf dict b = some i → b ≠ a ∧ (P b ∧ b ≠ a ↔ P b) := by
    intro i other b hs
    have apart : b ≠ a := by
      rintro rfl
      exact other (Option.some.inj (hs.symm.trans slot))
    exact ⟨apart, and_iff_left apart⟩
  have bound : idx < dict.buckets.length := by
    rw [h.length]
    exact hidx
  rw [unlinkBucket, deref_ok found, ok_bind, hnext]
  by_cases front : head = some a
  · have first : l = [] := by
      rw [chain.start_eq] at front
      cases l with
      | nil => rfl
      | cons y rest =>
          obtain rfl := Option.some.inj front
          simp at once
    subst first
    have step : Rechained dict { dict with buckets := dict.buckets.set idx (nextOf dict a) } :=
      ⟨⟨rfl, rfl, rfl, rfl, rfl⟩, rfl, rfl⟩
    refine ⟨_, by rw [if_pos front, setBucket_ok bound], step, ?_⟩
    rw [if_pos front] at removed
    exact h.replace (nextOf dict a) r step hidx rfl removed left
      (fun i other b => ⟨fun _ => rfl, fun hs => (others i other b hs).2⟩)
  · obtain ⟨l', p, rfl⟩ : ∃ l' p, l = l' ++ [p] := by
      rcases List.eq_nil_or_concat l with rfl | ⟨l', p, rfl⟩
      · exact absurd chain.1 front
      · exact ⟨l', p, List.concat_eq_append⟩
    have hp := (members p).mp (by simp)
    obtain ⟨d, run, same, buckets, next⟩ := setNext_spec (.of_slot hp.2) (nextOf dict a)
    refine ⟨d, by rw [if_neg front, List.getLast?_append]; exact run, same, ?_⟩
    rw [if_neg front, List.getLast?_append, List.getLast?_singleton, Option.some_or] at removed
    refine h.replace head (l' ++ [p] ++ r) same hidx ?_ ?_ left ?_
    · obtain ⟨bound', same'⟩ := List.getElem?_eq_some_iff.mp got
      rw [buckets, ← same', List.set_getElem_self bound']
    · rw [next]
      exact removed
    · intro i other b
      refine ⟨fun hb => ?_, fun hs => (others i other b hs).2⟩
      have apart : b ≠ p := by
        rintro rfl
        exact other (Option.some.inj (hb.2.symm.trans hp.2))
      rw [next, Function.update_of_ne apart]

section Clearing

theorem length_le_of_lt {ys : List Nat} {n : Nat} (once : ys.Nodup) (below : ∀ a ∈ ys, a < n) :
    ys.length ≤ n := by
  have sub : ys ⊆ List.range n := fun a ha => List.mem_range.mpr (below a ha)
  have := (once.subperm sub).length_le
  rwa [List.length_range] at this

/-- The nodes of a chain are freed, and no others. -/
theorem freeChain_spec (fuel : Nat) {ys : List Nat} {start : Option Nat}
    (chain : Chain (nextOf dict) start ys) (live : ∀ a ∈ ys, Alloc dict a)
    (enough : ys.length ≤ fuel) :
    ∃ dict', freeChain fuel start dict = .ok dict' ∧ SameFrame dict dict' ∧
      dict'.buckets = dict.buckets ∧ (∀ a ∈ ys, payloadOf dict' a = none) ∧
      ∀ a, a ∉ ys → nextOf dict' a = nextOf dict a ∧ payloadOf dict' a = payloadOf dict a := by
  induction ys generalizing start dict fuel with
  | nil =>
      obtain rfl : start = none := chain
      exact ⟨dict, by rw [freeChain], .refl dict, rfl, by simp, fun _ _ => ⟨rfl, rfl⟩⟩
  | cons x rest ih =>
      obtain rfl := chain.1
      obtain ⟨fuel, rfl⟩ : ∃ k, fuel = k + 1 := Nat.exists_eq_succ_of_ne_zero (by
        intro zero
        rw [zero] at enough
        cases enough)
      have new := (List.nodup_cons.mp chain.nodup).1
      obtain ⟨node, found, hnext, -⟩ := (live x (by simp)).node
      obtain ⟨d, run, same, buckets, next, payload, -⟩ := freeNode_spec (live x (by simp))
      have kept : ∀ a, a ≠ x → nextOf d a = nextOf dict a ∧ payloadOf d a = payloadOf dict a := by
        intro a ne
        rw [next, payload, Function.update_of_ne ne, Function.update_of_ne ne]
        exact ⟨rfl, rfl⟩
      obtain ⟨d', run', same', buckets', freed, others⟩ := ih fuel
        (chain.2.congr fun a ha => (kept a (fun same => new (same ▸ ha))).1)
        (by
          intro a ha
          unfold Alloc
          rw [(kept a (fun same => new (same ▸ ha))).2]
          exact live a (by simp [ha]))
        (Nat.le_of_succ_le_succ enough)
      refine ⟨d', ?_, same.trans same', buckets'.trans buckets, ?_, ?_⟩
      · rw [freeChain, deref_ok found, ok_bind, run, ok_bind, hnext]
        exact run'
      · refine List.forall_mem_cons.mpr ⟨?_, freed⟩
        rw [(others x new).2, payload, Function.update_self]
      · intro a ha
        obtain ⟨ne, ha⟩ := not_or.mp (mt List.mem_cons.mpr ha)
        obtain ⟨next', payload'⟩ := others a ha
        rw [next', payload']
        exact kept a ne

/-- The nodes of the buckets before `i` are gone, the others are in their chains. -/
structure Cleared (dict : Codict κ υ) (i : Nat) : Prop where
  pos : 0 < dict.cap
  length : dict.buckets.length = dict.cap
  empty : ∀ j < i, j < dict.cap → dict.buckets[j]? = some none
  bucket : ∀ j, i ≤ j → j < dict.cap → ∃ ys, Bucket dict j ys ∧ ∀ a, a ∈ ys ↔ slotOf dict a = some j
  later : ∀ a j, slotOf dict a = some j → i ≤ j
  fresh : ∀ a, Alloc dict a → a < dict.fresh

theorem clearLoop_spec (n : Nat) {i : Nat} (h : Cleared dict i) (range : i + n = dict.cap) :
    ∃ dict', clearLoop n i dict = .ok dict' ∧ SameFrame dict dict' ∧ Cleared dict' dict.cap := by
  induction n generalizing i dict with
  | zero =>
      obtain rfl : i = dict.cap := range
      exact ⟨dict, rfl, .refl dict, h⟩
  | succ n ih =>
      have hi : i < dict.cap := by omega
      obtain ⟨ys, bucket, members⟩ := h.bucket i (Nat.le_refl i) hi
      have bound := bucket.bound
      have got : getBucket dict i = .ok dict.buckets[i] := by
        rw [getBucket, List.getElem?_eq_getElem bound]
      have chain := bucket.chain _ (List.getElem?_eq_getElem bucket.bound)
      have live : ∀ a ∈ ys, Alloc dict a := fun a ha => .of_slot ((members a).mp ha)
      obtain ⟨d, run, same, buckets, freed, others⟩ := freeChain_spec dict.fresh chain live
        (length_le_of_lt chain.nodup fun a ha => h.fresh a (live a ha))
      have bound' : i < d.buckets.length := by
        rw [buckets]
        exact bucket.bound
      have slots : ∀ a j, slotOf { d with buckets := d.buckets.set i none } a = some j ↔
          slotOf dict a = some j ∧ j ≠ i := by
        intro a j
        change slotOf d a = some j ↔ _
        by_cases ha : a ∈ ys
        · rw [slotOf, freed a ha, (members a).mp ha]
          simp only [Option.map_none, reduceCtorEq, Option.some.injEq, false_iff, not_and, not_not]
          exact Eq.symm
        · rw [slotOf, (others a ha).2, same.cap]
          refine (and_iff_left_of_imp ?_).symm
          rintro hs rfl
          exact ha ((members a).mpr hs)
      have next : Cleared { d with buckets := d.buckets.set i none } (i + 1) := by
        refine ⟨?_, ?_, ?_, ?_, ?_, ?_⟩
        · change 0 < d.cap
          rw [same.cap]
          exact h.pos
        · change (d.buckets.set i none).length = d.cap
          rw [List.length_set, buckets, same.cap, h.length]
        · intro j hj hcap
          change (d.buckets.set i none)[j]? = some none
          by_cases here : j = i
          · rw [here, List.getElem?_set_self bound']
          · rw [List.getElem?_set_ne (Ne.symm here), buckets]
            exact h.empty j (by omega) (by rw [← same.cap]; exact hcap)
        · intro j hj hcap
          obtain ⟨zs, bucket', members'⟩ := h.bucket j (by omega) (by rw [← same.cap]; exact hcap)
          have apart : ∀ a ∈ zs, a ∉ ys := by
            intro a hz hy
            have := ((members' a).mp hz).symm.trans ((members a).mp hy)
            obtain rfl := Option.some.inj this
            omega
          refine ⟨zs, ⟨?_, ?_⟩, ?_⟩
          · change j < (d.buckets.set i none).length
            rw [List.length_set, buckets]
            exact bucket'.bound
          · intro head hhead
            change (d.buckets.set i none)[j]? = some head at hhead
            rw [List.getElem?_set_ne (by omega), buckets] at hhead
            exact (bucket'.chain head hhead).congr fun a ha => (others a (apart a ha)).1
          · intro a
            rw [slots, members' a]
            exact (and_iff_left (by omega)).symm
        · intro a j hs
          obtain ⟨hs, ne⟩ := (slots a j).mp hs
          have := h.later a j hs
          omega
        · intro a live'
          change a < d.fresh
          rw [same.fresh]
          refine h.fresh a fun none => live' ?_
          by_cases ha : a ∈ ys
          · exact freed a ha
          · exact (others a ha).2.trans none
      obtain ⟨d', run', same', cleared⟩ := ih next (by change i + 1 + n = d.cap; rw [same.cap]; omega)
      refine ⟨d', ?_, same.trans ⟨same'.fnHash, same'.fnEqual, same'.cap, same'.count, same'.fresh⟩, ?_⟩
      · rw [clearLoop, got, ok_bind, run, ok_bind, setBucket_ok bound', ok_bind]
        exact run'
      · rw [← same.cap]
        exact cleared

end Clearing

end Colinlib.Source.Dict
